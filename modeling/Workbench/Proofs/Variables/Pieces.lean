/-
The pieces that a text is read as.

A text is cut from left to right into characters that stand for themselves and references, and no
variable is looked up for that.  Only then every piece is replaced on its own, so the result is what
the pieces stand for, one behind the other, and a value is never read.  The tilde of the home
directory is looked for in the text as it is written, not in a value.

A piece that refers to nothing known, and that is neither a pair of dollar signs nor has a text to
stand for a missing value, stands for itself as it is written.  Written one behind the other, the
pieces are the text again, so a text of such pieces only stays as it is.
-/
import Mathlib.Data.List.Basic
import Workbench.Proofs.Variables

namespace Workbench

/-! ### Pieces -/

/-- A part of a text that is replaced on its own. -/
inductive Piece
  /-- A character that stands for itself. -/
  | char (c : Char)
  /-- Two dollar signs, which stand for one. -/
  | dollars
  /-- A reference without braces. -/
  | plain (name : List Char)
  /-- A reference with braces and what stands between them. -/
  | braced (content : List Char)
deriving DecidableEq, Repr

namespace Piece

/-- A piece as it is written. -/
def written : Piece → List Char
  | .char c => [c]
  | .dollars => ['$', '$']
  | .plain name => '$' :: name
  | .braced content => '$' :: '{' :: content ++ ['}']

/-- What a piece stands for. -/
def value (environment : Environment) : Piece → List Char
  | .char c => [c]
  | .dollars => ['$']
  | .plain name => plainValue environment name
  | .braced content => bracedValue environment content

/-- The variable that a piece refers to. -/
def name? : Piece → Option (List Char)
  | .char _ | .dollars => none
  | .plain name => some name
  | .braced content => some (cutDefault content).1

/-- A value is copied. -/
theorem value_of_get? {environment : Environment} {piece : Piece} {name value : List Char}
    (hname : piece.name? = some name) (hvalue : environment.get? name = some value) :
    piece.value environment = value := by
  cases piece with
  | char | dollars => cases hname
  | plain other =>
      obtain rfl : other = name := Option.some.inj hname
      rw [Piece.value, plainValue, hvalue]
      rfl
  | braced content =>
      have hcut : (cutDefault content).1 = name := Option.some.inj hname
      rw [Piece.value, bracedValue, hcut, hvalue]

end Piece

variable {environment : Environment} {text front behind : List Char}

/-- A text is read as pieces, one behind the other. -/
inductive IsReadAs : List Char → List Piece → Prop
  | nil : IsReadAs [] []
  | char {c : Char} {rest : List Char} {pieces : List Piece} (hc : c ≠ '$')
      (hrest : IsReadAs rest pieces) : IsReadAs (c :: rest) (.char c :: pieces)
  /-- A dollar sign that belongs to no reference. -/
  | lone {rest : List Char} {pieces : List Piece}
      (hhead : ∀ c ∈ rest.head?, inVariableName c = false ∧ c ≠ '{' ∧ c ≠ '$')
      (hrest : IsReadAs rest pieces) : IsReadAs ('$' :: rest) (.char '$' :: pieces)
  | dollars {rest : List Char} {pieces : List Piece} (hrest : IsReadAs rest pieces) :
      IsReadAs ('$' :: '$' :: rest) (.dollars :: pieces)
  /-- The name of a reference without braces goes as far as it can. -/
  | plain {name rest : List Char} {pieces : List Piece} (hne : name ≠ [])
      (hname : ∀ c ∈ name, inVariableName c = true)
      (hhead : ∀ c ∈ rest.head?, inVariableName c = false) (hrest : IsReadAs rest pieces) :
      IsReadAs ('$' :: (name ++ rest)) (.plain name :: pieces)
  /-- The first closing brace closes. -/
  | braced {content rest : List Char} {pieces : List Piece} (hcontent : '}' ∉ content)
      (hrest : IsReadAs rest pieces) :
      IsReadAs ('$' :: '{' :: (content ++ '}' :: rest)) (.braced content :: pieces)
  /-- A brace that is not closed. -/
  | opened {rest : List Char} {pieces : List Piece} (hopen : '}' ∉ rest)
      (hrest : IsReadAs rest pieces) :
      IsReadAs ('$' :: '{' :: rest) (.char '$' :: .char '{' :: pieces)

/-- Every text is read as pieces. -/
theorem exists_isReadAs (text : List Char) : ∃ pieces, IsReadAs text pieces := by
  induction text using expandVariables.induct with
  | case1 => exact ⟨[], .nil⟩
  | case2 rest content more hcut ih =>
      obtain ⟨rfl, hcontent⟩ := cutBrace_eq_some.1 hcut
      obtain ⟨pieces, hpieces⟩ := ih
      exact ⟨_, .braced hcontent hpieces⟩
  | case3 rest hcut ih =>
      obtain ⟨pieces, hpieces⟩ := ih
      exact ⟨_, .opened (cutBrace_eq_none.1 hcut) hpieces⟩
  | case4 rest ih =>
      obtain ⟨pieces, hpieces⟩ := ih
      exact ⟨_, .dollars hpieces⟩
  | case5 c rest hbrace hdollar hc ih =>
      obtain ⟨pieces, hpieces⟩ := ih
      have hname : ∀ c' ∈ c :: rest.takeWhile inVariableName, inVariableName c' = true :=
        List.forall_mem_cons.2 ⟨hc, List.all_eq_true.1 List.all_takeWhile⟩
      have hhead : ∀ c' ∈ (rest.dropWhile inVariableName).head?, inVariableName c' = false := by
        intro c' hc'
        have hstop := List.head?_dropWhile_not inVariableName rest
        rw [Option.mem_def.1 hc'] at hstop
        exact hstop
      have hwhole := IsReadAs.plain (List.cons_ne_nil _ _) hname hhead hpieces
      rw [List.cons_append, List.takeWhile_append_dropWhile] at hwhole
      exact ⟨_, hwhole⟩
  | case6 c rest hbrace hdollar hc ih =>
      obtain ⟨pieces, hpieces⟩ := ih
      have hhead : ∀ c' ∈ (c :: rest).head?, inVariableName c' = false ∧ c' ≠ '{' ∧ c' ≠ '$' := by
        rintro c' ⟨⟩
        exact ⟨by simpa using hc, hbrace, hdollar⟩
      exact ⟨_, .lone hhead hpieces⟩
  | case7 c rest hbrace hdollar hnext ih =>
      obtain ⟨pieces, hpieces⟩ := ih
      by_cases hc : c = '$'
      · subst hc
        cases rest with
        | nil => exact ⟨_, .lone (fun c hc => absurd hc (by simp)) hpieces⟩
        | cons d rest => exact absurd rfl fun heq => hnext d rest rfl heq
      · exact ⟨_, .char hc hpieces⟩

namespace IsReadAs

variable {pieces : List Piece}

/-- The pieces are the whole text. -/
theorem flatMap_written (h : IsReadAs text pieces) : pieces.flatMap Piece.written = text := by
  induction h with
  | nil => rfl
  | char _ _ ih | lone _ _ ih | dollars _ ih | plain _ _ _ _ ih | braced _ _ ih | opened _ _ ih =>
      simp [Piece.written, ih]

/-- **What a text is expanded to is what its pieces stand for**, each replaced on its own. -/
theorem expandVariables_eq (h : IsReadAs text pieces) (environment : Environment) :
    expandVariables environment text = pieces.flatMap (Piece.value environment) := by
  induction h with
  | nil => exact expandVariables_nil environment
  | char hc hrest ih => rw [expandVariables_cons hc, ih]; rfl
  | @lone rest pieces hhead hrest ih =>
      have hlone : expandVariables environment ('$' :: rest) =
          '$' :: expandVariables environment rest := by
        cases rest with
        | nil => rw [expandVariables_end, expandVariables_nil]
        | cons c rest =>
            obtain ⟨hname, hbrace, hdollar⟩ := hhead c rfl
            exact expandVariables_lone hname hbrace hdollar rest
      rw [hlone, ih]
      rfl
  | dollars hrest ih => rw [expandVariables_dollars, ih]; rfl
  | plain hne hname hhead hrest ih => rw [expandVariables_plain hne hname hhead, ih]; rfl
  | braced hcontent hrest ih => rw [expandVariables_braced hcontent, ih]; rfl
  | opened hopen hrest ih => rw [expandVariables_open hopen, ih]; rfl

theorem written_isInfix (h : IsReadAs text pieces) {piece : Piece} (hmem : piece ∈ pieces) :
    piece.written <:+: text := by
  obtain ⟨before, after, rfl⟩ := List.append_of_mem hmem
  rw [← h.flatMap_written, List.flatMap_append, List.flatMap_cons]
  exact ⟨_, _, by rw [List.append_assoc]⟩

end IsReadAs

/-! ### Slashes -/

theorem expandHome_tilde_eq (environment : Environment) (rest : List Char) :
    (∃ home, environment.home = some home ∧
        expandHome environment ('~' :: rest) = home ++ rest) ∨
      expandHome environment ('~' :: rest) = '~' :: rest := by
  have hread : ∀ text, expandHome environment ('~' :: text) =
      environment.home.getD ['~'] ++ text →
        (∃ home, environment.home = some home ∧
          expandHome environment ('~' :: text) = home ++ text) ∨
          expandHome environment ('~' :: text) = '~' :: text := by
    intro text h
    cases hhome : environment.home with
    | some home => exact Or.inl ⟨home, rfl, by rw [h, hhome, Option.getD_some]⟩
    | none => exact Or.inr (by rw [h, hhome]; rfl)
  cases rest with
  | nil => exact hread [] (List.append_nil _).symm
  | cons c rest =>
      by_cases hc : c = '/'
      · subst hc
        exact hread ('/' :: rest) rfl
      · exact Or.inr (expandHome_tilde_of_head hc rest)

/-- **A slash separates, and values are copied.**  The parts around a slash are expanded each for
itself if the part in front closes its braces and the one behind does not begin with a tilde.  Every
text is read as pieces whatever the values of variables are; a piece that refers to a variable with
a value stands for this value, and the text is expanded to what its pieces stand for, except that a
tilde which the text itself begins with may stand for the home directory. -/
theorem expandReferences_compositional :
    (∀ (environment : Environment) (front behind : List Char), behind.head? ≠ some '~' →
      BracesClosed front →
        expandReferences environment (front ++ '/' :: behind) =
          expandReferences environment front ++ '/' :: expandReferences environment behind) ∧
    ∀ text : List Char, ∃ pieces, IsReadAs text pieces ∧ ∀ environment : Environment,
      (∀ piece ∈ pieces, ∀ name value, piece.name? = some name →
        environment.get? name = some value → piece.value environment = value) ∧
      (expandReferences environment text = pieces.flatMap (Piece.value environment) ∨
        ∃ more home, pieces = .char '~' :: more ∧ environment.home = some home ∧
          expandReferences environment text =
            home ++ more.flatMap (Piece.value environment)) := by
  refine ⟨fun environment front behind hbehind hfront => ?_, fun text => ?_⟩
  · rw [expandReferences_append_slash (Or.inl hfront), expandReferences_of_head hbehind]
  by_cases hhome : text.head? = some '~'
  · obtain ⟨rest, rfl⟩ := List.head?_eq_some_iff.1 hhome
    obtain ⟨more, hmore⟩ := exists_isReadAs rest
    refine ⟨.char '~' :: more, .char (by decide) hmore, fun environment =>
      ⟨fun piece _ name value => Piece.value_of_get?, ?_⟩⟩
    rw [expandReferences_tilde, hmore.expandVariables_eq]
    rcases expandHome_tilde_eq environment (more.flatMap (Piece.value environment)) with
      ⟨home, hhome, h⟩ | h
    · exact Or.inr ⟨more, home, rfl, hhome, h⟩
    · exact Or.inl h
  · obtain ⟨pieces, hpieces⟩ := exists_isReadAs text
    refine ⟨pieces, hpieces, fun environment =>
      ⟨fun piece _ name value => Piece.value_of_get?, Or.inl ?_⟩⟩
    rw [expandReferences_of_head hhome, hpieces.expandVariables_eq]

theorem bracesClosed_of_getLast? (h : text.getLast? = some '}') : BracesClosed text := by
  rintro before after rfl
  cases after with
  | nil => simp at h
  | cons c after =>
      have hlast : (c :: after).getLast? = some '}' := by
        simpa [List.getLast?_append] using h
      exact List.mem_of_getLast? hlast

/-- A variable whose value looks like a reference to itself. -/
def selfNaming : Environment := .ofPairs [("HOME", "/h"), ("V", "/$V")]

theorem expandReferences_compositional_selfNaming :
    expandReferences selfNaming "~$\x7bV\x7d/$V".toList = "/h/$V//$V".toList := by
  have hfront : expandReferences selfNaming "~$\x7bV\x7d".toList = "/h/$V".toList := by decide +kernel
  have hbehind : expandReferences selfNaming "$V".toList = "/$V".toList := by decide +kernel
  have hwhole : "~$\x7bV\x7d/$V".toList = "~$\x7bV\x7d".toList ++ '/' :: "$V".toList := by decide
  rw [hwhole, expandReferences_compositional.1 selfNaming _ _ (by decide)
    (bracesClosed_of_getLast? (by decide)), hfront, hbehind]
  decide

/-! ### Undefined variables -/

theorem search_eq_self {before content : List Char} (h : ¬ [':', '-'] <:+: content) :
    cutDefault.search before content = (before.reverse ++ content, none) := by
  induction content generalizing before with
  | nil => simp [cutDefault.search]
  | cons c rest ih =>
      have hrest : ¬ [':', '-'] <:+: rest := fun hinside =>
        h (hinside.trans (List.suffix_cons c rest).isInfix)
      rw [cutDefault.search]
      · rw [ih hrest]
        simp
      · rintro more rfl rfl
        exact h ⟨[], more, rfl⟩

/-- Without a colon and a hyphen everything between braces is the name. -/
theorem cutDefault_eq_self {content : List Char} (h : ¬ [':', '-'] <:+: content) :
    cutDefault content = (content, none) := by
  unfold cutDefault
  split
  · rfl
  · exact search_eq_self h

/-- What refers to nothing known stays as it is written. -/
theorem Piece.value_eq_written {piece : Piece} (hdollars : piece ≠ .dollars)
    (hdefault : ¬ [':', '-'] <:+: piece.written)
    (hundefined : ∀ name ∈ piece.name?, environment.get? name = none) :
    piece.value environment = piece.written := by
  cases piece with
  | char c => rfl
  | dollars => exact absurd rfl hdollars
  | plain name =>
      rw [Piece.value, plainValue, hundefined name rfl]
      rfl
  | braced content =>
      have hcontent : ¬ [':', '-'] <:+: content := fun hinside =>
        hdefault (hinside.trans ⟨['$', '{'], ['}'], rfl⟩)
      have hvalue := hundefined (cutDefault content).1 rfl
      rw [cutDefault_eq_self hcontent] at hvalue
      rw [Piece.value, bracedValue, cutDefault_eq_self hcontent, hvalue]
      rfl

/-- A variable is referred to in a text, with braces or without. -/
def RefersTo (text name : List Char) : Prop :=
  ∃ pieces, IsReadAs text pieces ∧ ∃ piece ∈ pieces, piece.name? = some name

/-- **Undefined variables stay as they are written.**  So does everything else where there are no
two dollar signs, no colon with a hyphen, and no tilde at the beginning: braces that are not closed
or have nothing between them, and dollar signs at the end or in front of anything. -/
theorem expandReferences_of_undefined (hhome : text.head? ≠ some '~')
    (hdollars : ¬ ['$', '$'] <:+: text) (hdefault : ¬ [':', '-'] <:+: text)
    (hundefined : ∀ name, RefersTo text name → environment.get? name = none) :
    expandReferences environment text = text := by
  obtain ⟨pieces, hpieces⟩ := exists_isReadAs text
  have hkept : ∀ piece ∈ pieces, piece.value environment = piece.written := by
    intro piece hmem
    have hinside := hpieces.written_isInfix hmem
    refine Piece.value_eq_written ?_ (fun hcolon => hdefault (hcolon.trans hinside)) ?_
    · rintro rfl
      exact hdollars hinside
    · exact fun name hname => hundefined name ⟨pieces, hpieces, piece, hmem, hname⟩
  calc expandReferences environment text
      = expandVariables environment text := expandReferences_of_head hhome
    _ = pieces.flatMap (Piece.value environment) := hpieces.expandVariables_eq environment
    _ = pieces.flatMap Piece.written := List.flatMap_congr hkept
    _ = text := hpieces.flatMap_written

/-- The name of a variable is written where it is referred to. -/
theorem RefersTo.isInfix {name : List Char} (h : RefersTo text name)
    (hdefault : ¬ [':', '-'] <:+: text) : name <:+: text := by
  obtain ⟨pieces, hpieces, piece, hmem, hname⟩ := h
  have hinside := hpieces.written_isInfix hmem
  cases piece with
  | char | dollars => cases hname
  | plain other =>
      obtain rfl : other = name := Option.some.inj hname
      exact (List.suffix_cons '$' other).isInfix.trans hinside
  | braced content =>
      have hcontent : content <:+: text :=
        List.IsInfix.trans ⟨['$', '{'], ['}'], rfl⟩ hinside
      have hcut : (cutDefault content).1 = name := Option.some.inj hname
      rw [cutDefault_eq_self fun hcolon => hdefault (hcolon.trans hcontent)] at hcut
      exact hcut ▸ hcontent

theorem afterStart_eq_some {start rest : List Char} (h : afterStart start text = some rest) :
    text = start ++ rest := by
  induction start generalizing text with
  | nil =>
      obtain rfl : text = rest := by simpa [afterStart] using h
      rfl
  | cons a start ih =>
      cases text with
      | nil => cases h
      | cons b text =>
          rw [afterStart] at h
          split at h
          · rename_i heq
            rw [heq, ih h, List.cons_append]
          · cases h

/-- The entry of a defined variable begins with its name. -/
theorem exists_entry_of_get? {name value : List Char} (h : environment.get? name = some value) :
    name ≠ [] ∧ ∃ entry ∈ environment.entries, entry = name ++ '=' :: value := by
  unfold Environment.get? at h
  split at h
  · cases h
  · rename_i hname
    obtain ⟨entry, hmem, hentry⟩ := List.exists_of_findSome?_eq_some h
    refine ⟨fun hempty => hname (Or.inl hempty), entry, hmem, ?_⟩
    rw [afterStart_eq_some hentry, List.append_assoc]
    rfl

theorem expandReferences_of_undefined_odd :
    expandReferences selfNaming "$W-$\x7bW\x7d$\x7b\x7d$/$\x7bW$".toList =
      "$W-$\x7bW\x7d$\x7b\x7d$/$\x7bW$".toList := by
  have hdefault : ¬ [':', '-'] <:+: "$W-$\x7bW\x7d$\x7b\x7d$/$\x7bW$".toList := by decide +kernel
  refine expandReferences_of_undefined (by decide) (by decide +kernel) hdefault fun name hname => ?_
  cases hvalue : selfNaming.get? name with
  | none => rfl
  | some value =>
      -- The two names that are known begin with letters that the text does not hold.
      obtain ⟨hne, entry, hmem, hentry⟩ := exists_entry_of_get? hvalue
      have hinside := hname.isInfix hdefault
      cases name with
      | nil => exact absurd rfl hne
      | cons c name =>
          have hc : c ∈ "$W-$\x7bW\x7d$\x7b\x7d$/$\x7bW$".toList :=
            hinside.subset List.mem_cons_self
          have hknown : c = 'H' ∨ c = 'V' := by
            rcases List.mem_pair.1 hmem with rfl | rfl
            · exact Or.inl (List.cons.inj hentry).1.symm
            · exact Or.inr (List.cons.inj hentry).1.symm
          rcases hknown with rfl | rfl
          · exact absurd hc (by decide)
          · exact absurd hc (by decide)

end Workbench
