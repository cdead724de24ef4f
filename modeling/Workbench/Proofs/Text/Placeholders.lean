/-
Braces outside of placeholders.

A line is searched for a brace behind the removal of its placeholders, so the characters around a
placeholder come to stand side by side.  They are not read again together: the removal goes from
left to right over the line as it is, and so does a scan that steps over a closed placeholder at
once and over anything else one character further.  The two take the same steps, and meet the same
braces.

Which braces these are can be told without the scan in two cases.  Behind text that leaves no
placeholder open the line is scanned for itself, so what a closed placeholder holds does not matter;
and a brace that no closing brace follows is in no placeholder.
-/
import Workbench.Proofs.Variables
import Workbench.Text.Code

namespace Workbench.Text

variable {c : Char} {line front content rest more : List Char}

/-! ### The scan -/

/-- Whether a scan from left to right meets an opening brace.  Where a placeholder begins and is
closed later in the line, it goes on behind the first brace that closes it. -/
def meetsBrace : List Char → Bool
  | [] => false
  | '$' :: '{' :: rest =>
      if rest.contains '}' then meetsBrace (rest.dropWhile (· != '}')).tail
      else meetsBrace ('{' :: rest)
  | c :: rest => if c = '{' then true else meetsBrace rest
termination_by line => line.length
decreasing_by
  · have hle := (List.dropWhile_suffix (l := rest) (· != '}')).length_le
    simp only [List.length_tail, List.length_cons]
    omega
  · simp
  · simp

/-! ### Where a closed placeholder begins -/

theorem dropPast_eq (text : List Char) : dropPast '}' text = (cutBrace text).map Prod.snd := by
  induction text with
  | nil => rfl
  | cons c text ih =>
      rw [dropPast]
      by_cases hc : c = '}'
      · subst hc
        simp [cutBrace]
      · rw [if_neg hc, ih, cutBrace, cutBrace, List.dropWhile_cons_of_pos (by simpa using hc)]
        cases text.dropWhile (· != '}') <;> rfl

theorem afterPlaceholder_eq_some :
    afterPlaceholder line = some more ↔
      ∃ content, line = '$' :: '{' :: (content ++ '}' :: more) ∧ '}' ∉ content := by
  constructor
  · intro h
    unfold afterPlaceholder at h
    split at h
    · rename_i rest
      rw [dropPast_eq, Option.map_eq_some_iff] at h
      obtain ⟨⟨content, tail⟩, hcut, rfl⟩ := h
      obtain ⟨rfl, hcontent⟩ := cutBrace_eq_some.1 hcut
      exact ⟨content, rfl, hcontent⟩
    · cases h
  · rintro ⟨content, rfl, hcontent⟩
    show dropPast '}' (content ++ '}' :: more) = some more
    rw [dropPast_eq, cutBrace_eq_some.2 ⟨rfl, hcontent⟩]
    rfl

theorem afterPlaceholder_eq_none :
    afterPlaceholder line = none ↔ ∀ rest, line = '$' :: '{' :: rest → '}' ∉ rest := by
  constructor
  · rintro h rest rfl hmem
    obtain ⟨content, more, rfl, hcontent⟩ := List.eq_append_cons_of_mem hmem
    rw [afterPlaceholder_eq_some.2 ⟨content, rfl, hcontent⟩] at h
    cases h
  · intro h
    cases hline : afterPlaceholder line with
    | none => rfl
    | some more =>
        obtain ⟨content, rfl, -⟩ := afterPlaceholder_eq_some.1 hline
        exact absurd (by simp) (h _ rfl)

/-! ### One step -/

/-- What is left behind a closed placeholder is all that is left. -/
theorem withoutPlaceholders_of_some (h : afterPlaceholder line = some more) :
    withoutPlaceholders line = withoutPlaceholders more := by
  rw [withoutPlaceholders]
  split
  · rename_i found hfound
    obtain rfl := Option.some.inj (h.symm.trans hfound)
    rfl
  · rename_i hnone
    rw [h] at hnone
    cases hnone

theorem withoutPlaceholders_nil : withoutPlaceholders [] = [] := by
  rw [withoutPlaceholders]
  rfl

theorem withoutPlaceholders_cons (h : afterPlaceholder (c :: rest) = none) :
    withoutPlaceholders (c :: rest) = c :: withoutPlaceholders rest := by
  rw [withoutPlaceholders]
  split
  · rename_i found hfound
    rw [h] at hfound
    cases hfound
  · rfl

theorem meetsBrace_of_some (h : afterPlaceholder line = some more) :
    meetsBrace line = meetsBrace more := by
  obtain ⟨content, rfl, hcontent⟩ := afterPlaceholder_eq_some.1 h
  have hinside : ∀ c ∈ content, (c != '}') = true := by
    intro c hc
    rw [bne_iff_ne]
    rintro rfl
    exact hcontent hc
  have hdrop : ((content ++ '}' :: more).dropWhile (· != '}')).tail = more := by
    rw [List.dropWhile_append_of_pos hinside]
    simp
  rw [meetsBrace, if_pos (by simp), hdrop]

theorem meetsBrace_cons (h : afterPlaceholder (c :: rest) = none) :
    meetsBrace (c :: rest) = (c == '{' || meetsBrace rest) := by
  by_cases hopen : ∃ tail, c = '$' ∧ rest = '{' :: tail
  · obtain ⟨tail, rfl, rfl⟩ := hopen
    have htail : '}' ∉ tail := afterPlaceholder_eq_none.1 h tail rfl
    rw [meetsBrace, if_neg (by simpa using htail)]
    rfl
  · rw [meetsBrace]
    · by_cases hc : c = '{' <;> simp [hc]
    · rintro tail rfl rfl
      exact hopen ⟨tail, rfl, rfl⟩

/-- **The scan meets a brace exactly if one is left without the placeholders.** -/
theorem contains_withoutPlaceholders (line : List Char) :
    (withoutPlaceholders line).contains '{' = meetsBrace line := by
  induction line using withoutPlaceholders.induct with
  | case1 line more h ih => rw [withoutPlaceholders_of_some h, meetsBrace_of_some h, ih]
  | case2 => rw [withoutPlaceholders_nil, meetsBrace]; rfl
  | case3 c rest h ih =>
      rw [withoutPlaceholders_cons h, meetsBrace_cons h, List.contains_cons, ih, Bool.beq_comm]

/-! ### Lines in parts -/

/-- Behind text that leaves no placeholder open, and that no placeholder begins at the end of, the
line is read for itself. -/
theorem withoutPlaceholders_append (hclosed : BracesClosed front)
    (hnext : front.getLast? = some '$' → rest.head? ≠ some '{') :
    withoutPlaceholders (front ++ rest) = withoutPlaceholders front ++ withoutPlaceholders rest := by
  induction front using withoutPlaceholders.induct with
  | case1 front more h ih =>
      have hwhole : afterPlaceholder (front ++ rest) = some (more ++ rest) := by
        obtain ⟨content, rfl, hcontent⟩ := afterPlaceholder_eq_some.1 h
        exact afterPlaceholder_eq_some.2 ⟨content, by simp, hcontent⟩
      rw [withoutPlaceholders_of_some h, withoutPlaceholders_of_some hwhole]
      obtain ⟨content, rfl, -⟩ := afterPlaceholder_eq_some.1 h
      have hsplit : '$' :: '{' :: (content ++ '}' :: more) =
          ('$' :: '{' :: content ++ ['}']) ++ more := by simp
      rw [hsplit] at hclosed hnext
      refine ih hclosed.of_append fun hlast => hnext ?_
      rw [List.getLast?_append, hlast]
      rfl
  | case2 => rw [withoutPlaceholders_nil]; rfl
  | case3 c more h ih =>
      have hwhole : afterPlaceholder (c :: (more ++ rest)) = none := by
        refine afterPlaceholder_eq_none.2 fun tail htail => ?_
        obtain ⟨rfl, hmore⟩ := List.cons.inj htail
        -- a placeholder that began here would be of the two parts, or have been left open in front
        cases more with
        | nil =>
            have hhead : rest.head? = some '{' := by
              rw [← List.nil_append rest, hmore]
              rfl
            exact absurd hhead (hnext rfl)
        | cons d more =>
            obtain ⟨rfl, -⟩ := List.cons.inj hmore
            exact absurd (hclosed [] more rfl) (afterPlaceholder_eq_none.1 h more rfl)
      have hlast : more.getLast? = some '$' → rest.head? ≠ some '{' := by
        intro hlast
        refine hnext ?_
        rw [List.getLast?_cons, hlast]
        rfl
      rw [List.cons_append, withoutPlaceholders_cons h, withoutPlaceholders_cons hwhole,
        ih hclosed.of_cons hlast, List.cons_append]

/-- A brace that no closing brace follows is in no placeholder. -/
theorem mem_withoutPlaceholders (hrest : '}' ∉ rest) (hline : '{' :: rest <:+ line) :
    '{' ∈ withoutPlaceholders line := by
  induction line using withoutPlaceholders.induct with
  | case1 line more h ih =>
      rw [withoutPlaceholders_of_some h]
      obtain ⟨content, rfl, -⟩ := afterPlaceholder_eq_some.1 h
      have hclosing : '}' :: more <:+ '$' :: '{' :: (content ++ '}' :: more) :=
        ⟨'$' :: '{' :: content, rfl⟩
      -- the closing brace of the placeholder is not behind the brace, so it stands in front of it
      rcases List.suffix_or_suffix_of_suffix hclosing hline with hinside | hinside
      · exact absurd (hinside.subset List.mem_cons_self) (by simp [hrest])
      · rcases List.suffix_cons_iff.1 hinside with heq | hmore
        · exact absurd (List.cons.inj heq).1 (by decide)
        · exact ih hmore
  | case2 => exact absurd (List.suffix_nil.1 hline) (List.cons_ne_nil _ _)
  | case3 c more h ih =>
      rw [withoutPlaceholders_cons h]
      rcases List.suffix_cons_iff.1 hline with heq | hmore
      · rw [← (List.cons.inj heq).1]
        exact List.mem_cons_self
      · exact List.mem_cons_of_mem c (ih hmore)

/-- **A line is code exactly if a scan meets a brace**, unless it is a comment.  The scan meets a
brace exactly if one is left without the placeholders.  A brace behind a dollar sign that is never
closed makes the line code; and a closed placeholder behind text that leaves none open can hold
whatever it likes, the text on its two sides is scanned for itself. -/
theorem isCodeLine_iff_meetsBrace (line : List Char) :
    (isCodeLine line = true ↔ isComment line = false ∧ meetsBrace line = true) ∧
      ('{' ∈ withoutPlaceholders line ↔ meetsBrace line = true) ∧
      (∀ front rest, line = front ++ '$' :: '{' :: rest → '}' ∉ rest →
        isCodeLine line = !isComment line) ∧
      ∀ front content rest, line = front ++ '$' :: '{' :: (content ++ '}' :: rest) →
        BracesClosed front → '}' ∉ content →
        meetsBrace line = (meetsBrace front || meetsBrace rest) := by
  have hscan := contains_withoutPlaceholders line
  refine ⟨?_, ?_, ?_, ?_⟩
  · rw [isCodeLine, hscan, Bool.and_eq_true, Bool.not_eq_true']
  · rw [← hscan, List.contains_iff_mem]
  · rintro front rest rfl hrest
    have hmem : '{' ∈ withoutPlaceholders (front ++ '$' :: '{' :: rest) :=
      mem_withoutPlaceholders hrest ⟨front ++ ['$'], by simp⟩
    rw [isCodeLine, List.contains_iff_mem.2 hmem, Bool.and_true]
  · rintro front content rest rfl hclosed hcontent
    have hbehind : afterPlaceholder ('$' :: '{' :: (content ++ '}' :: rest)) = some rest :=
      afterPlaceholder_eq_some.2 ⟨content, rfl, hcontent⟩
    have hparts : withoutPlaceholders (front ++ '$' :: '{' :: (content ++ '}' :: rest)) =
        withoutPlaceholders front ++ withoutPlaceholders rest := by
      rw [withoutPlaceholders_append hclosed (by simp), withoutPlaceholders_of_some hbehind]
    rw [← hscan, hparts, List.contains_append, contains_withoutPlaceholders,
      contains_withoutPlaceholders]

/-- The dollar sign before a closed placeholder and the brace behind it come to stand side by side,
and are not read as a placeholder that is open. -/
theorem isCodeLine_iff_meetsBrace_glued :
    BracesClosed ['$'] ∧ '}' ∉ ['a', '{'] ∧
      meetsBrace ['$', '$', '{', 'a', '{', '}', '{', 'x', '}'] =
        (meetsBrace ['$'] || meetsBrace ['{', 'x', '}']) ∧
      isCodeLine ['$', '$', '{', 'a', '{', '}', '{', 'x', '}'] = true := by
  have hclosed : BracesClosed ['$'] := by
    intro front rest h
    have hlength := congrArg List.length h
    simp only [List.length_append, List.length_cons, List.length_nil] at hlength
    omega
  have hcontent : '}' ∉ ['a', '{'] := by decide
  obtain ⟨hcode, -, -, hparts⟩ := isCodeLine_iff_meetsBrace
    ['$', '$', '{', 'a', '{', '}', '{', 'x', '}']
  have hscan := hparts ['$'] ['a', '{'] ['{', 'x', '}'] rfl hclosed hcontent
  refine ⟨hclosed, hcontent, hscan, hcode.2 ⟨rfl, hscan.trans ?_⟩⟩
  simp [meetsBrace]

end Workbench.Text
