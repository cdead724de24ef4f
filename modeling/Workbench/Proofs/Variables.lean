/-
Where the references of a text are.

No name without braces has a slash in it, and braces that are closed in a part of a text are closed
there in the whole text.  So a slash behind such a part is never inside of a reference, and the
parts around the slash are replaced each for itself.  What has no dollar sign stays as it is; in
particular a value that is put in front of a slash reads as it would have been written there.
-/
import Mathlib.Data.List.TakeWhile
import Workbench.Variables

namespace Workbench

variable {environment : Environment} {text front behind name value content rest : List Char}
  {c : Char}

/-! ### Braces -/

theorem cutBrace_eq_some {more : List Char} :
    cutBrace text = some (content, more) ↔ text = content ++ '}' :: more ∧ '}' ∉ content := by
  unfold cutBrace
  constructor
  · intro h
    have hsplit := List.takeWhile_append_dropWhile (p := (· != '}')) (l := text)
    split at h
    · rename_i stop tail hdrop
      obtain ⟨rfl, rfl⟩ : text.takeWhile (· != '}') = content ∧ tail = more := by simpa using h
      have hstop : stop = '}' := by
        have hhead := List.head?_dropWhile_not (· != '}') text
        rw [hdrop] at hhead
        simpa using hhead
      subst hstop
      refine ⟨?_, fun hmem => ?_⟩
      · rw [← hdrop, hsplit]
      · have hinside := List.all_eq_true.1 List.all_takeWhile _ hmem
        simp at hinside
    · cases h
  · rintro ⟨rfl, hcontent⟩
    have hinside : ∀ c ∈ content, (c != '}') = true := by
      intro c hc
      rw [bne_iff_ne]
      rintro rfl
      exact hcontent hc
    rw [List.dropWhile_append_of_pos hinside, List.takeWhile_append_of_pos hinside]
    simp

theorem cutBrace_eq_none : cutBrace text = none ↔ '}' ∉ text := by
  have hdrop : text.dropWhile (· != '}') = [] ↔ '}' ∉ text := by
    rw [List.dropWhile_eq_nil_iff]
    constructor
    · intro hall hmem
      simpa using hall _ hmem
    · intro hnone c hc
      rw [bne_iff_ne]
      rintro rfl
      exact hnone hc
  rw [← hdrop, cutBrace]
  cases text.dropWhile (· != '}') <;> simp

/-- Every brace that is opened behind a dollar sign is closed. -/
def BracesClosed (text : List Char) : Prop :=
  ∀ before after, text = before ++ '$' :: '{' :: after → '}' ∈ after

theorem BracesClosed.of_append (h : BracesClosed (front ++ behind)) : BracesClosed behind := by
  rintro before after rfl
  exact h (front ++ before) after (by simp)

theorem BracesClosed.of_cons (h : BracesClosed (c :: rest)) : BracesClosed rest := by
  have hall : BracesClosed ([c] ++ rest) := h
  exact hall.of_append

theorem bracesClosed_of_not_mem (h : '$' ∉ text) : BracesClosed text := by
  rintro before after rfl
  exact absurd (List.mem_append_right _ List.mem_cons_self) h

/-- The first closing brace closes. -/
theorem BracesClosed.cut_ne_none (h : BracesClosed ('$' :: '{' :: rest)) : cutBrace rest ≠ none :=
  fun hnone => cutBrace_eq_none.1 hnone (h [] rest rfl)

/-! ### One step of the reading -/

theorem expandVariables_cons (hc : c ≠ '$') (rest : List Char) :
    expandVariables environment (c :: rest) = c :: expandVariables environment rest := by
  rw [expandVariables] <;>
  · intros
    contradiction

theorem expandVariables_braced (h : '}' ∉ content) (more : List Char) :
    expandVariables environment ('$' :: '{' :: (content ++ '}' :: more)) =
      bracedValue environment content ++ expandVariables environment more := by
  have hcut : cutBrace (content ++ '}' :: more) = some (content, more) :=
    cutBrace_eq_some.2 ⟨rfl, h⟩
  rw [expandVariables]
  split
  · rename_i found hfound
    rw [hcut] at hfound
    cases hfound
    rfl
  · rename_i hnone
    rw [hcut] at hnone
    cases hnone

theorem expandVariables_open (h : '}' ∉ rest) :
    expandVariables environment ('$' :: '{' :: rest) =
      '$' :: '{' :: expandVariables environment rest := by
  have hcut := cutBrace_eq_none.2 h
  rw [expandVariables]
  split
  · rename_i found hfound
    rw [hcut] at hfound
    cases hfound
  · rfl

theorem expandVariables_dollars (rest : List Char) :
    expandVariables environment ('$' :: '$' :: rest) = '$' :: expandVariables environment rest := by
  rw [expandVariables]

theorem ne_of_inVariableName (h : inVariableName c = true) :
    c ≠ '{' ∧ c ≠ '}' ∧ c ≠ '$' ∧ c ≠ '/' := by
  refine ⟨?_, ?_, ?_, ?_⟩
  all_goals
    rintro rfl
    exact absurd h (by decide +kernel)

theorem not_inVariableName_slash : inVariableName '/' = false := by
  decide +kernel

theorem expandVariables_name (hc : inVariableName c = true) (rest : List Char) :
    expandVariables environment ('$' :: c :: rest) =
      plainValue environment (c :: rest.takeWhile inVariableName) ++
        expandVariables environment (rest.dropWhile inVariableName) := by
  obtain ⟨hbrace, -, hdollar, -⟩ := ne_of_inVariableName hc
  rw [expandVariables, if_pos hc]
  · exact hbrace
  · exact hdollar

theorem expandVariables_lone (hc : inVariableName c = false) (hbrace : c ≠ '{') (hdollar : c ≠ '$')
    (rest : List Char) :
    expandVariables environment ('$' :: c :: rest) =
      '$' :: expandVariables environment (c :: rest) := by
  rw [expandVariables, hc, if_neg Bool.false_ne_true]
  · exact hbrace
  · exact hdollar

theorem expandVariables_end : expandVariables environment ['$'] = ['$'] := by
  rw [expandVariables, expandVariables_nil] <;>
  · intros
    contradiction

/-! ### Texts -/

/-- **Without a dollar sign there is no reference.** -/
theorem expandVariables_append (h : '$' ∉ front) (behind : List Char) :
    expandVariables environment (front ++ behind) =
      front ++ expandVariables environment behind := by
  induction front with
  | nil => rfl
  | cons c rest ih =>
      rw [List.mem_cons, not_or] at h
      rw [List.cons_append, expandVariables_cons (Ne.symm h.1), ih h.2, List.cons_append]

theorem expandVariables_of_not_mem (h : '$' ∉ text) : expandVariables environment text = text := by
  have hall : expandVariables environment (text ++ []) = _ := expandVariables_append h []
  rwa [expandVariables_nil, List.append_nil] at hall

/-- What is no part of a name ends it. -/
theorem takeWhile_append_slash (front behind : List Char) :
    (front ++ '/' :: behind).takeWhile inVariableName = front.takeWhile inVariableName := by
  induction front with
  | nil => simp [not_inVariableName_slash]
  | cons c front ih =>
      rw [List.cons_append, List.takeWhile_cons, List.takeWhile_cons, ih]

theorem dropWhile_append_slash (front behind : List Char) :
    (front ++ '/' :: behind).dropWhile inVariableName =
      front.dropWhile inVariableName ++ '/' :: behind := by
  induction front with
  | nil => simp [not_inVariableName_slash]
  | cons c front ih =>
      rw [List.cons_append, List.dropWhile_cons, List.dropWhile_cons, ih]
      split <;> rfl

/-- **No reference goes on behind a slash**, unless a brace is open in front of it and closed
behind. -/
theorem expandVariables_append_slash (h : BracesClosed front ∨ '}' ∉ behind) :
    expandVariables environment (front ++ '/' :: behind) =
      expandVariables environment front ++ '/' :: expandVariables environment behind := by
  induction front using expandVariables.induct with
  | case1 => rw [List.nil_append, expandVariables_cons (by decide), expandVariables_nil]; rfl
  | case2 rest content more hcut ih =>
      obtain ⟨rfl, hcontent⟩ := cutBrace_eq_some.1 hcut
      have hmore : BracesClosed more ∨ '}' ∉ behind := by
        refine h.imp_left fun hclosed => ?_
        have hall : BracesClosed (('$' :: '{' :: content ++ ['}']) ++ more) := by
          simpa using hclosed
        exact hall.of_append
      have hwhole : '$' :: '{' :: (content ++ '}' :: more) ++ '/' :: behind
          = '$' :: '{' :: (content ++ '}' :: (more ++ '/' :: behind)) := by simp
      rw [hwhole, expandVariables_braced hcontent, expandVariables_braced hcontent, ih hmore,
        List.append_assoc]
  | case3 rest hcut ih =>
      rcases h with hclosed | hbehind
      · exact absurd hcut hclosed.cut_ne_none
      · -- no brace closes what is open, neither in front of the slash nor behind it
        have hrest := cutBrace_eq_none.1 hcut
        have hwhole : '}' ∉ rest ++ '/' :: behind := by simp [hrest, hbehind]
        rw [List.cons_append, List.cons_append, expandVariables_open hwhole,
          expandVariables_open hrest, ih (Or.inr hbehind)]
        rfl
  | case4 rest ih =>
      rw [List.cons_append, List.cons_append, expandVariables_dollars, expandVariables_dollars,
        ih (h.imp_left fun hclosed => hclosed.of_cons.of_cons)]
      rfl
  | case5 c rest hbrace hdollar hc ih =>
      have hrest : BracesClosed (rest.dropWhile inVariableName) ∨ '}' ∉ behind := by
        refine h.imp_left fun hclosed => ?_
        have hall := hclosed.of_cons.of_cons
        rw [← List.takeWhile_append_dropWhile (p := inVariableName) (l := rest)] at hall
        exact hall.of_append
      rw [List.cons_append, List.cons_append, expandVariables_name hc, expandVariables_name hc,
        takeWhile_append_slash, dropWhile_append_slash, ih hrest, List.append_assoc]
  | case6 c rest hbrace hdollar hc ih =>
      have hname : inVariableName c = false := by simpa using hc
      rw [List.cons_append, List.cons_append, expandVariables_lone hname hbrace hdollar,
        expandVariables_lone hname hbrace hdollar, ← List.cons_append,
        ih (h.imp_left BracesClosed.of_cons)]
      rfl
  | case7 c rest hbrace hdollar hnext ih =>
      by_cases hc : c = '$'
      · -- a dollar sign that nothing follows
        subst hc
        have hrest : rest = [] := by
          cases rest with
          | nil => rfl
          | cons d rest => exact absurd rfl fun heq => hnext d rest rfl heq
        subst hrest
        rw [expandVariables_end, List.singleton_append, List.singleton_append,
          expandVariables_lone not_inVariableName_slash (by decide) (by decide),
          expandVariables_cons (by decide)]
      · rw [List.cons_append, expandVariables_cons hc, expandVariables_cons hc,
          ih (h.imp_left BracesClosed.of_cons)]
        rfl

/-- A name goes as far as it can. -/
theorem expandVariables_plain (hne : name ≠ []) (hname : ∀ c ∈ name, inVariableName c = true)
    (hrest : ∀ c ∈ rest.head?, inVariableName c = false) :
    expandVariables environment ('$' :: (name ++ rest)) =
      plainValue environment name ++ expandVariables environment rest := by
  have hstop : rest.takeWhile inVariableName = [] ∧ rest.dropWhile inVariableName = rest := by
    cases rest with
    | nil => exact ⟨rfl, rfl⟩
    | cons c rest => simp [hrest c rfl]
  cases name with
  | nil => exact absurd rfl hne
  | cons c name =>
      obtain ⟨hc, hmore⟩ := List.forall_mem_cons.1 hname
      rw [List.cons_append, expandVariables_name hc, List.takeWhile_append_of_pos hmore,
        List.dropWhile_append_of_pos hmore, hstop.1, hstop.2, List.append_nil]

theorem expandHome_of_head (h : text.head? ≠ some '~') : expandHome environment text = text := by
  unfold expandHome
  split
  · exact absurd rfl h
  · exact absurd rfl h
  · rfl

/-- Only a tilde that is written at the beginning stands for the home directory. -/
theorem expandReferences_of_head (h : text.head? ≠ some '~') :
    expandReferences environment text = expandVariables environment text := by
  rw [expandReferences]
  by_cases hexpanded : (expandVariables environment text).head? = some '~'
  · exact if_pos ⟨h, hexpanded⟩
  · rw [if_neg (fun hboth => hexpanded hboth.2), expandHome_of_head hexpanded]

theorem expandReferences_tilde (rest : List Char) :
    expandReferences environment ('~' :: rest) =
      expandHome environment ('~' :: expandVariables environment rest) := by
  rw [expandReferences, expandVariables_cons (by decide)]
  exact if_neg (fun hboth => hboth.1 rfl)

/-- A tilde with a name behind it stays. -/
theorem expandHome_tilde_of_head {c : Char} (hc : c ≠ '/') (rest : List Char) :
    expandHome environment ('~' :: c :: rest) = '~' :: c :: rest := by
  unfold expandHome
  split
  · rename_i heq
    cases heq
  · rename_i heq
    cases heq
    exact absurd rfl hc
  · rfl

theorem expandHome_append_slash (front behind : List Char) :
    expandHome environment ('~' :: (front ++ '/' :: behind)) =
      expandHome environment ('~' :: front) ++ '/' :: behind := by
  cases front with
  | nil => rfl
  | cons c front =>
      by_cases hc : c = '/'
      · subst hc
        simp [expandHome]
      · rw [List.cons_append, expandHome_tilde_of_head hc, expandHome_tilde_of_head hc]
        rfl

/-- The parts around a slash are expanded each for itself; the one behind begins at no home
directory. -/
theorem expandReferences_append_slash (h : BracesClosed front ∨ '}' ∉ behind) :
    expandReferences environment (front ++ '/' :: behind) =
      expandReferences environment front ++ '/' :: expandVariables environment behind := by
  by_cases hhome : front.head? = some '~'
  · obtain ⟨rest, rfl⟩ := List.head?_eq_some_iff.1 hhome
    rw [List.cons_append, expandReferences_tilde, expandReferences_tilde,
      expandVariables_append_slash (h.imp_left BracesClosed.of_cons), expandHome_append_slash]
  · have hwhole : (front ++ '/' :: behind).head? ≠ some '~' := by
      cases front with
      | nil => simp
      | cons c front => exact hhome
    rw [expandReferences_of_head hwhole, expandReferences_of_head hhome,
      expandVariables_append_slash h]

theorem expandReferences_of_not_mem (hdollar : '$' ∉ text) (hhome : text.head? ≠ some '~') :
    expandReferences environment text = text := by
  rw [expandReferences_of_head hhome, expandVariables_of_not_mem hdollar]

end Workbench
