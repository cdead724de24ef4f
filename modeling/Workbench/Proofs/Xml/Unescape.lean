/-
Texts in parts.

A text with references is read one character at a time: a character stands for itself, and a
reference for the character it names.  `StandsFor` says so without the positions, which only faults
have.  As a relation it is closed under putting texts one behind the other, whatever they are.

The other way round a text can be taken apart between any two characters that no reference holds
together.  `Settled` is what that needs of the first part: no reference is under way at its end.
A text that can be read is settled, so only a part that is wrong when it stands alone can be made
right by what follows it.
-/
import Mathlib.Data.List.TakeWhile
import Workbench.Proofs.Result
import Workbench.Proofs.Xml.Reference

namespace Workbench.Xml

/-- A text with references, and the text behind them. -/
inductive StandsFor : List Char → List Char → Prop
  | nil : StandsFor [] []
  | char {c : Char} {raw text : List Char} (hc : c ≠ '&') (h : StandsFor raw text) :
      StandsFor (c :: raw) (c :: text)
  | reference {name raw text : List Char} {d : Char} (hin : ∀ c ∈ name, inReference c = true)
      (hname : ∀ start, referencedChar start name = .ok d) (h : StandsFor raw text) :
      StandsFor ('&' :: (name ++ ';' :: raw)) (d :: text)

theorem referencedChar_of_ok {start : Nat} {name : List Char} {d : Char}
    (h : referencedChar start name = .ok d) : ∀ other, referencedChar other name = .ok d := by
  intro other
  unfold referencedChar at h ⊢
  split at h
  · exact h
  · cases hd : namedChar? name with
    | some e =>
        rw [hd] at h
        exact h
    | none =>
        rw [hd] at h
        cases h

theorem standsFor_of_unescapeFrom {total position : Nat} {raw text : List Char}
    (h : unescapeFrom total position raw = .ok text) : StandsFor raw text := by
  fun_induction unescapeFrom total position raw generalizing text with
  | case1 =>
      cases h
      exact StandsFor.nil
  | case2 _ rest _ more hmore =>
      rename_i ih
      obtain ⟨d, hd, hrest⟩ := bind_eq_ok.1 h
      obtain ⟨behind, hbehind, hpure⟩ := bind_eq_ok.1 hrest
      cases hpure
      have hparts : rest = rest.takeWhile inReference ++ ';' :: more := by
        rw [← hmore, List.takeWhile_append_dropWhile]
      rw [hparts]
      exact StandsFor.reference (fun c hc => List.mem_takeWhile_imp hc) (referencedChar_of_ok hd)
        (ih hbehind)
  | case3 => cases h
  | case4 _ _ _ hc =>
      rename_i ih
      obtain ⟨behind, hbehind, hpure⟩ := bind_eq_ok.1 h
      cases hpure
      exact StandsFor.char hc (ih hbehind)

theorem unescapeFrom_of_standsFor {raw text : List Char} (h : StandsFor raw text) :
    ∀ total position, unescapeFrom total position raw = .ok text := by
  induction h with
  | nil =>
      intro total position
      rw [unescapeFrom]
  | char hc _ ih =>
      intro total position
      rw [unescapeFrom, if_neg hc, ih]
      rfl
  | reference hin hname _ ih =>
      intro total position
      rw [unescapeFrom_reference hin, hname, ih]
      rfl

/-- **A text is read as what it stands for**, wherever it stands. -/
theorem unescape_eq_ok {raw text : List Char} : unescape raw = .ok text ↔ StandsFor raw text := by
  constructor
  · intro h
    exact standsFor_of_unescapeFrom h
  · intro h
    exact unescapeFrom_of_standsFor h _ _

namespace StandsFor

theorem unique {raw text other : List Char} (h : StandsFor raw text) (hother : StandsFor raw other) :
    text = other := by
  have heq := (unescape_eq_ok.2 h).symm.trans (unescape_eq_ok.2 hother)
  exact Except.ok.inj heq

theorem append {raw text more behind : List Char} (h : StandsFor raw text)
    (hmore : StandsFor more behind) : StandsFor (raw ++ more) (text ++ behind) := by
  induction h with
  | nil => exact hmore
  | char hc _ ih => exact StandsFor.char hc ih
  | reference hin hname _ ih =>
      rw [List.cons_append, List.append_assoc, List.cons_append]
      exact StandsFor.reference hin hname ih

end StandsFor

/-! ### Taking a text apart -/

/-- No reference is under way at the end of a text: every ampersand has its semicolon. -/
def Settled (raw : List Char) : Prop :=
  ∀ before behind, raw = before ++ '&' :: behind → ';' ∈ behind

theorem Settled.of_append (before : List Char) {behind : List Char}
    (h : Settled (before ++ behind)) : Settled behind := by
  intro front rest hparts
  exact h (before ++ front) rest (by rw [hparts, List.append_assoc])

theorem not_mem_of_inReference {name : List Char} (h : ∀ c ∈ name, inReference c = true) :
    '&' ∉ name ∧ ';' ∉ name := by
  constructor
  · intro hmem
    simpa [inReference] using h _ hmem
  · intro hmem
    simpa [inReference] using h _ hmem

/-- What stands for a text has no reference under way at its end. -/
theorem StandsFor.settled {raw text : List Char} (h : StandsFor raw text) : Settled raw := by
  induction h with
  | nil =>
      intro before behind hparts
      simp at hparts
  | char hc _ ih =>
      intro before behind hparts
      cases before with
      | nil => exact absurd (List.cons.inj hparts).1 hc
      | cons b before => exact ih before behind (List.cons.inj hparts).2
  | @reference name raw text d hin _ _ ih =>
      intro before behind hparts
      cases before with
      | nil =>
          rw [← (List.cons.inj hparts).2]
          simp
      | cons b before =>
          -- The ampersand is not in the name, so it is in what follows the semicolon.
          have htail : name ++ ';' :: raw = before ++ '&' :: behind := (List.cons.inj hparts).2
          rcases List.append_eq_append_iff.1 htail with ⟨front, -, hraw⟩ | ⟨front, hname, hraw⟩
          · cases front with
            | nil => cases (List.cons.inj hraw).1
            | cons f front =>
                exact ih front behind (List.cons.inj hraw).2
          · cases front with
            | nil => cases (List.cons.inj hraw).1
            | cons f front =>
                have hmem : '&' ∈ name := by
                  rw [hname, ← (List.cons.inj hraw).1]
                  simp
                exact absurd hmem (not_mem_of_inReference hin).1

/-- **A text can be taken apart where no reference is under way.** -/
theorem StandsFor.split {whole all : List Char} (h : StandsFor whole all) :
    ∀ {raw more : List Char}, whole = raw ++ more → Settled raw →
      ∃ text behind, all = text ++ behind ∧ StandsFor raw text ∧ StandsFor more behind := by
  induction h with
  | nil =>
      intro raw more hparts _
      obtain ⟨rfl, rfl⟩ := List.append_eq_nil_iff.1 hparts.symm
      exact ⟨[], [], rfl, StandsFor.nil, StandsFor.nil⟩
  | @char c rest text hc h ih =>
      intro raw more hparts hsettled
      cases raw with
      | nil =>
          rw [List.nil_append] at hparts
          exact ⟨[], c :: text, rfl, StandsFor.nil, hparts ▸ StandsFor.char hc h⟩
      | cons b raw =>
          obtain ⟨rfl, hrest⟩ := List.cons.inj hparts
          obtain ⟨front, behind, rfl, hfront, hbehind⟩ :=
            ih hrest (Settled.of_append [c] hsettled)
          exact ⟨c :: front, behind, rfl, StandsFor.char hc hfront, hbehind⟩
  | @reference name rest text d hin hname h ih =>
      intro raw more hparts hsettled
      cases raw with
      | nil =>
          rw [List.nil_append] at hparts
          exact ⟨[], d :: text, rfl, StandsFor.nil, hparts ▸ StandsFor.reference hin hname h⟩
      | cons b raw =>
          obtain ⟨rfl, htail⟩ := List.cons.inj hparts
          -- The first part goes on to a semicolon, and the name holds none.
          have hsemicolon : ';' ∈ raw := hsettled [] raw rfl
          rcases List.append_eq_append_iff.1 htail with ⟨front, hraw, hrest⟩ | ⟨front, hfront, -⟩
          · cases front with
            | nil =>
                rw [List.append_nil] at hraw
                rw [hraw] at hsemicolon
                exact absurd hsemicolon (not_mem_of_inReference hin).2
            | cons f front =>
                obtain ⟨rfl, hbehind⟩ := List.cons.inj hrest
                subst hraw
                have hlast : Settled front :=
                  Settled.of_append ('&' :: (name ++ [';'])) (by simpa using hsettled)
                obtain ⟨text, behind, rfl, htext, hmore⟩ := ih hbehind hlast
                exact ⟨d :: text, behind, rfl, StandsFor.reference hin hname htext, hmore⟩
          · have hmem : ';' ∈ name := by
              rw [hfront]
              exact List.mem_append_left _ hsemicolon
            exact absurd hmem (not_mem_of_inReference hin).2

theorem standsFor_append {raw more all : List Char} (h : Settled raw) :
    StandsFor (raw ++ more) all ↔
      ∃ text behind, all = text ++ behind ∧ StandsFor raw text ∧ StandsFor more behind := by
  constructor
  · intro hall
    exact hall.split rfl h
  · rintro ⟨text, behind, rfl, htext, hbehind⟩
    exact htext.append hbehind

theorem standsFor_escape (cs : List Char) : StandsFor (escape cs) cs :=
  unescape_eq_ok.1 (unescape_escape cs)

end Workbench.Xml
