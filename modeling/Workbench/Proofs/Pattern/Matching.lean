/-
What the text of a part stands for.

`Fits` says which names a text without brackets stands for, character by character: an asterisk for
any run of characters, a question mark for one, and every other character for itself.  Such a text
is read token by token (`tokenOf`) unless two asterisks are next to each other, and the tokens match
exactly the names that the text fits.

The name that tokens are, where none of them is a wildcard, is the text that they have been read
from.
-/
import Workbench.Pattern.Basic
import Workbench.Path.Basic
import Workbench.Proofs.Result

namespace Workbench.Pattern

open Workbench.Path (Name)

variable {text pattern : List Char} {name : Name} {tokens : List Token}

/-! ### Names that fit -/

/-- The text stands for the name. -/
inductive Fits : List Char → Name → Prop
  /-- There is nothing left of both. -/
  | nil : Fits [] []
  | run {rest : List Char} {name : Name} (skipped : Name) (hrest : Fits rest name) :
      Fits ('*' :: rest) (skipped ++ name)
  | any {rest : List Char} {name : Name} (c : Char) (hrest : Fits rest name) :
      Fits ('?' :: rest) (c :: name)
  | char {c : Char} {rest : List Char} {name : Name} (hc : c ≠ '*' ∧ c ≠ '?')
      (hrest : Fits rest name) : Fits (c :: rest) (c :: name)

/-- The token of one character outside of brackets. -/
def tokenOf (c : Char) : Token :=
  if c = '*' then .run else if c = '?' then .any else .char c

theorem mem_suffixes {α : Type} {s t : List α} : s ∈ suffixes t ↔ ∃ skipped, t = skipped ++ s := by
  induction t with
  | nil => simp [suffixes, eq_comm]
  | cons a t ih =>
      rw [suffixes, List.mem_cons, ih]
      constructor
      · rintro (rfl | ⟨skipped, rfl⟩)
        · exact ⟨[], rfl⟩
        · exact ⟨a :: skipped, rfl⟩
      · rintro ⟨skipped, heq⟩
        cases skipped with
        | nil => exact Or.inl heq.symm
        | cons b skipped => exact Or.inr ⟨skipped, (List.cons.inj heq).2⟩

theorem matchesName_nil {token : Token} (h : token ≠ .run) (tokens : List Token) :
    matchesName (token :: tokens) [] = false := by
  cases token with
  | run => exact absurd rfl h
  | char | any | within | outside => rfl

theorem matchesName_cons {token : Token} (h : token ≠ .run) (tokens : List Token) (c : Char)
    (name : Name) :
    matchesName (token :: tokens) (c :: name) = (token.admits c && matchesName tokens name) := by
  cases token with
  | run => exact absurd rfl h
  | char | any | within | outside => rfl

/-- **Tokens match the names that the text fits.** -/
theorem matchesName_iff : matchesName (pattern.map tokenOf) name = true ↔ Fits pattern name := by
  induction pattern generalizing name with
  | nil =>
      rw [List.map_nil, matchesName, List.isEmpty_iff]
      constructor
      · rintro rfl
        exact .nil
      · rintro ⟨⟩
        rfl
  | cons c rest ih =>
      rw [List.map_cons]
      by_cases hrun : c = '*'
      · subst hrun
        have hany : matchesName (tokenOf '*' :: rest.map tokenOf) name = true ↔
            ∃ skipped behind, name = skipped ++ behind ∧ Fits rest behind := by
          rw [show tokenOf '*' = .run from rfl, matchesName, List.any_eq_true]
          simp only [mem_suffixes, ih]
          constructor
          · rintro ⟨behind, ⟨skipped, hname⟩, hbehind⟩
            exact ⟨skipped, behind, hname, hbehind⟩
          · rintro ⟨skipped, behind, hname, hbehind⟩
            exact ⟨behind, ⟨skipped, hname⟩, hbehind⟩
        rw [hany]
        constructor
        · rintro ⟨skipped, behind, rfl, hbehind⟩
          exact .run skipped hbehind
        · intro hfits
          cases hfits with
          | run skipped hbehind => exact ⟨skipped, _, rfl, hbehind⟩
          | char hc => exact absurd rfl hc.1
      · have htoken : tokenOf c ≠ .run := by
          rw [tokenOf, if_neg hrun]
          split <;> simp
        cases name with
        | nil =>
            rw [matchesName_nil htoken]
            refine iff_of_false Bool.false_ne_true fun hfits => ?_
            generalize hname : ([] : Name) = name at hfits
            cases hfits with
            | run => exact hrun rfl
            | any | char => cases hname
        | cons d name =>
            rw [matchesName_cons htoken, Bool.and_eq_true, ih]
            by_cases hany : c = '?'
            · subst hany
              have hadmits : (tokenOf '?').admits d = true := rfl
              rw [and_iff_right hadmits]
              constructor
              · exact .any d
              · intro hfits
                cases hfits with
                | any _ hrest => exact hrest
                | char hc => exact absurd rfl hc.2
            · have hadmits : (tokenOf c).admits d = true ↔ d = c := by
                rw [tokenOf, if_neg hrun, if_neg hany, Token.admits, beq_iff_eq]
              rw [hadmits]
              constructor
              · rintro ⟨rfl, hrest⟩
                exact .char ⟨hrun, hany⟩ hrest
              · intro hfits
                generalize hname : d :: name = whole at hfits
                cases hfits with
                | run => exact absurd rfl hrun
                | any => exact absurd rfl hany
                | char _ hrest =>
                    obtain ⟨rfl, rfl⟩ := List.cons.inj hname
                    exact ⟨rfl, hrest⟩

/-! ### Reading -/

theorem tokensOf_cons {c : Char} (hrun : c ≠ '*') (hbracket : c ≠ '[') (rest : List Char) :
    tokensOf (c :: rest) = (tokensOf rest).map (tokenOf c :: ·) := by
  by_cases hany : c = '?'
  · subst hany
    rw [tokensOf]
    rfl
  · rw [tokensOf, tokenOf, if_neg hrun, if_neg hany]
    all_goals
      intros
      contradiction

/-- Without brackets, and without asterisks next to each other, every character is a token. -/
theorem tokensOf_eq (hbracket : '[' ∉ pattern) (hruns : ¬ ['*', '*'] <:+: pattern) :
    tokensOf pattern = some (pattern.map tokenOf) := by
  induction pattern with
  | nil => rw [tokensOf]; rfl
  | cons c rest ih =>
      rw [List.mem_cons, not_or] at hbracket
      have hrest : tokensOf rest = some (rest.map tokenOf) :=
        ih hbracket.2 fun hinside => hruns (List.infix_cons hinside)
      by_cases hrun : c = '*'
      · subst hrun
        rw [tokensOf, hrest]
        · rfl
        · rintro behind rfl
          exact hruns ⟨[], behind, rfl⟩
      · rw [tokensOf_cons hrun (Ne.symm hbracket.1), hrest]
        rfl

/-- A part that is not for any depth has the tokens of its text. -/
theorem partOf_eq (hbracket : '[' ∉ pattern) (hruns : ¬ ['*', '*'] <:+: pattern) :
    partOf pattern = some (.name (pattern.map tokenOf)) := by
  have hne : pattern ≠ ['*', '*'] := by
    rintro rfl
    exact hruns (List.infix_refl _)
  rw [partOf, if_neg hne, tokensOf_eq hbracket hruns]
  rfl

/-! ### Names without wildcards -/

/-- A text without wildcards. -/
def IsPlain (text : List Char) : Prop :=
  ∀ c ∈ text, c ≠ '*' ∧ c ≠ '?' ∧ c ≠ '['

theorem map_tokenOf_of_plain (h : IsPlain text) : text.map tokenOf = text.map .char := by
  refine List.map_congr_left fun c hc => ?_
  obtain ⟨hrun, hany, -⟩ := h c hc
  rw [tokenOf, if_neg hrun, if_neg hany]

theorem partOf_of_plain (h : IsPlain text) : partOf text = some (.name (text.map .char)) := by
  rw [← map_tokenOf_of_plain h]
  refine partOf_eq (fun hmem => (h _ hmem).2.2 rfl) fun hinside => ?_
  exact (h '*' (hinside.subset (by simp))).1 rfl

theorem literal?_eq_some : literal? tokens = some name ↔ tokens = name.map .char := by
  induction tokens generalizing name with
  | nil => cases name <;> simp [literal?]
  | cons token tokens ih =>
      cases token with
      | char c =>
          rw [literal?, Option.map_eq_some_iff]
          simp only [ih]
          cases name with
          | nil => simp
          | cons d name =>
              constructor
              · rintro ⟨rest, rfl, hname⟩
                obtain ⟨rfl, rfl⟩ := List.cons.inj hname
                rfl
              · intro htokens
                obtain ⟨hchar, rfl⟩ := List.cons.inj htokens
                obtain rfl := Token.char.inj hchar
                exact ⟨name, rfl, rfl⟩
      | run | any | within | outside => cases name <;> simp [literal?]

/-- Tokens without wildcards are the characters that they have been read from. -/
theorem eq_of_tokensOf (h : tokensOf text = some (name.map .char)) : text = name := by
  have hwildcard : ∀ {token : Token} {read : Option (List Token)} {name : Name},
      (∀ c, token ≠ .char c) → read.map (token :: ·) ≠ some (name.map .char) := by
    intro token read name htoken heq
    obtain ⟨rest, -, hname⟩ := Option.map_eq_some_iff.1 heq
    cases name with
    | nil => cases hname
    | cons c name => exact htoken c (List.cons.inj hname).1
  fun_induction tokensOf text generalizing name with
  | case1 =>
      have hname : name.map Token.char = [] := (Option.some.inj h).symm
      exact (List.map_eq_nil_iff.1 hname).symm
  | case2 | case6 | case8 => cases h
  | case3 | case4 | case5 | case7 => exact absurd h (hwildcard (by simp))
  | case9 c rest _ _ _ _ _ ih =>
      obtain ⟨tokens, htokens, hname⟩ := Option.map_eq_some_iff.1 h
      cases name with
      | nil => cases hname
      | cons d name =>
          obtain ⟨hchar, rfl⟩ := List.cons.inj hname
          obtain rfl := Token.char.inj hchar
          rw [ih htokens]

/-- A character in front is what the text begins with. -/
theorem head?_of_tokensOf {c : Char} (h : tokensOf text = some tokens)
    (hhead : tokens.head? = some (.char c)) : text.head? = some c := by
  have hread : ∀ {token : Token} {read : Option (List Token)},
      read.map (token :: ·) = some tokens → token = .char c := by
    intro token read hread
    obtain ⟨rest, -, rfl⟩ := Option.map_eq_some_iff.1 hread
    exact Option.some.inj hhead
  fun_induction tokensOf text with
  | case1 =>
      obtain rfl := Option.some.inj h
      cases hhead
  | case2 | case6 | case8 => cases h
  | case3 | case4 | case5 | case7 => cases hread h
  | case9 d rest => rw [Token.char.inj (hread h)]; rfl

theorem tokensOf_of_partOf (h : partOf text = some (.name tokens)) :
    tokensOf text = some tokens := by
  unfold partOf at h
  split at h
  · cases h
  · simpa using h

end Workbench.Pattern
