/-
Samples survive JSON.

What is written is read (`read_eq_some_iff`), so the question is only what an object means as a
sample.  The order of members does not matter: a name has one value exactly if it occurs once
(`named_eq_singleton`), and the values of the other members are never looked at.  Their names are,
because a name has to be a text: an escape for half of a character makes the object no sample.
-/
import Mathlib.Data.List.Count
import Workbench.Json.Sample
import Workbench.Proofs.Decimal.Integer
import Workbench.Proofs.Json.Reader

namespace Workbench.Json

/-! ### Members -/

variable {members others : List (Option String × Json)} {name : String} {value : Json}

theorem length_named (members : List (Option String × Json)) (name : String) :
    (named members name).length = (members.map Prod.fst).count (some name) := by
  rw [named, List.length_map, ← List.countP_eq_length_filter, List.count, List.countP_map]
  rfl

/-- Where a name occurs once, in whatever place, its value is the only one. -/
theorem named_eq_singleton (h : members.Perm ((some name, value) :: others))
    (hothers : ∀ member ∈ others, member.1 ≠ some name) : named members name = [value] := by
  have hperm := h.filter fun member => member.1 == some name
  have hnone : others.filter (fun member => member.1 == some name) = [] :=
    List.filter_eq_nil_iff.2 fun member hmember => by simpa using hothers member hmember
  rw [List.filter_cons, hnone, if_pos (beq_self_eq_true (some name)), List.perm_singleton] at hperm
  rw [named, hperm]
  rfl

theorem allNamed_iff : allNamed members = true ↔ none ∉ members.map Prod.fst := by
  simp only [allNamed, List.all_eq_true, Option.isSome_iff_ne_none, List.mem_map, not_exists,
    not_and]

/-! ### A name without escapes -/

theorem areParts_plain {text : List Char}
    (h : ∀ c ∈ text, c ≠ '"' ∧ c ≠ '\\' ∧ 0x20 ≤ c.toNat) : AreParts (text.map .char) text := by
  induction text with
  | nil => exact .nil
  | cons c text ih =>
      obtain ⟨hquote, hbackslash, hcontrol⟩ := h c List.mem_cons_self
      exact .cons (.char hquote hbackslash hcontrol)
        (ih fun d hd => h d (List.mem_cons_of_mem c hd))

theorem isText_quoted (h : ∀ c ∈ name.toList, c ≠ '"' ∧ c ≠ '\\' ∧ 0x20 ≤ c.toNat) :
    IsText (some name) (quoted name).toList := by
  have htext : (quoted name).toList = '"' :: (name.toList ++ ['"']) := by
    simp [quoted, String.toList_append]
  rw [htext]
  refine .chars (areParts_plain h) ?_
  rw [List.flatMap_map]
  rfl

end Workbench.Json

namespace Workbench.Energy

open Json

variable {sample : Sample} {members others : List (Option String × Json)}

/-! ### Objects -/

theorem ofLabel?_label (domain : Domain) : Domain.ofLabel? domain.label = some domain := by
  cases domain <;> rfl

theorem Sample.ofParts?_eq (sample : Sample) :
    Sample.ofParts? (.string (some sample.domain.label)) (.number (some sample.value.toInt)) =
      some sample := by
  have hdomain : Domain.ofJson? (.string (some sample.domain.label)) = some sample.domain :=
    ofLabel?_label sample.domain
  have hvalue : int64OfJson? (.number (some sample.value.toInt)) = some sample.value :=
    toInt64?_eq_some_iff.2 rfl
  rw [Sample.ofParts?, hdomain, hvalue]
  rfl

/-- **An object with both members once is the sample**, whatever the other members are. -/
theorem Sample.ofJson?_object
    (hmembers : members.Perm ((some "domain", .string (some sample.domain.label)) ::
      (some "value", .number (some sample.value.toInt)) :: others))
    (hothers : ∀ member ∈ others,
      member.1 ≠ some "domain" ∧ member.1 ≠ some "value" ∧ member.1 ≠ none) :
    Sample.ofJson? (.object members) = some sample := by
  have hnamed : allNamed members = true := by
    rw [allNamed_iff, (hmembers.map Prod.fst).mem_iff]
    simp only [List.map_cons, List.mem_cons, List.mem_map, reduceCtorEq, false_or, not_exists,
      not_and]
    exact fun member hmember => (hothers member hmember).2.2
  have hdomain := named_eq_singleton hmembers fun member hmember =>
    (List.mem_cons.1 hmember).elim (by rintro rfl; simp) fun h => (hothers member h).1
  have hvalue := named_eq_singleton (hmembers.trans (.swap ..)) fun member hmember =>
    (List.mem_cons.1 hmember).elim (by rintro rfl; simp) fun h => (hothers member h).2.1
  rw [Sample.ofJson?, if_pos hnamed, hdomain, hvalue]
  exact sample.ofParts?_eq

/-- A sample is read from an object only if it has both members once and all names are texts. -/
theorem Sample.count_of_ofJson? (h : Sample.ofJson? (.object members) = some sample) :
    (members.map Prod.fst).count (some "domain") = 1 ∧
      (members.map Prod.fst).count (some "value") = 1 ∧ none ∉ members.map Prod.fst := by
  rw [Sample.ofJson?] at h
  split at h
  · rename_i hnamed
    split at h
    · rename_i domain value hdomain hvalue
      rw [← length_named, ← length_named, hdomain, hvalue]
      exact ⟨rfl, rfl, allNamed_iff.1 hnamed⟩
    · cases h
  · cases h

/-! ### Texts -/

theorem Sample.isDocument_toJson (sample : Sample) :
    IsDocument (.object [(some "domain", .string (some sample.domain.label)),
      (some "value", .number (some sample.value.toInt))]) sample.toJson.toList := by
  have hgap : IsGap [] := fun c hc => nomatch hc
  have helement {json : Json} {text : List Char} (h : Written (.value json) text) :
      Written (.element json) text := by
    simpa using Written.element hgap h hgap
  have hlabel : IsText (some sample.domain.label) (quoted sample.domain.label).toList :=
    isText_quoted (by cases sample.domain <;> simp [Domain.label])
  have hdomain : IsText (some "domain") (quoted "domain").toList := isText_quoted (by simp)
  have hvalue : IsText (some "value") (quoted "value").toList := isText_quoted (by simp)
  have hmembers := Written.members hgap hdomain hgap (helement (.string hlabel))
    (.member hgap hvalue hgap (helement (.number (.printed sample.value.toInt))))
  have htext : sample.toJson.toList = '\x7b' :: ([] ++ ((quoted "domain").toList ++
      ([] ++ ':' :: ((quoted sample.domain.label).toList ++ ',' :: ([] ++
        ((quoted "value").toList ++ ([] ++ ':' :: (toString sample.value.toInt).toList)))))) ++
          ['\x7d']) := by
    simp [Sample.toJson, Domain.toJson, quoted, String.toList_append]
  rw [htext]
  exact helement (.object hmembers)

theorem Sample.parse_eq {text : String} {json : Json} (h : IsDocument json text.toList) :
    Sample.parse text = Sample.ofJson? json := by
  rw [Sample.parse, read_eq_some_iff.2 h]
  rfl

/-- **Samples survive JSON.**  A sample is read from its own text, and from every object that has
its domain and its value once each, in any order, written with any white space and any escapes, and
with any further members whose names are other texts.  An object without one of the two members or
with one of them again is no sample, and neither is one where half of a character stands alone in a
name. -/
theorem Sample.parse_members :
    (∀ sample : Sample, Sample.parse sample.toJson = some sample) ∧
      (∀ (sample : Sample) (text : String) (members others : List (Option String × Json)),
        IsDocument (.object members) text.toList →
        members.Perm ((some "domain", .string (some sample.domain.label)) ::
          (some "value", .number (some sample.value.toInt)) :: others) →
        (∀ member ∈ others,
          member.1 ≠ some "domain" ∧ member.1 ≠ some "value" ∧ member.1 ≠ none) →
          Sample.parse text = some sample) ∧
      ∀ (text : String) (members : List (Option String × Json)),
        IsDocument (.object members) text.toList →
        ((members.map Prod.fst).count (some "domain") ≠ 1 ∨
          (members.map Prod.fst).count (some "value") ≠ 1 ∨ none ∈ members.map Prod.fst) →
          Sample.parse text = none := by
  refine ⟨fun sample => ?_, fun sample text members others htext hmembers hothers => ?_,
    fun text members htext h => ?_⟩
  · rw [Sample.parse_eq sample.isDocument_toJson]
    exact Sample.ofJson?_object (.refl _) fun member hmember => nomatch hmember
  · rw [Sample.parse_eq htext]
    exact Sample.ofJson?_object hmembers hothers
  · rw [Sample.parse_eq htext, Option.eq_none_iff_forall_ne_some]
    intro sample hsample
    obtain ⟨hdomain, hvalue, hnames⟩ := Sample.count_of_ofJson? hsample
    rcases h with h | h | h
    · exact h hdomain
    · exact h hvalue
    · exact hnames h

/-- White space, an escape in a name, and members that mean nothing.  Half of a character stands
alone in a value that is not looked at. -/
def crowded : String :=
  " \x7b \"value\"\t: -9223372036854775808 ,\n\"unit\":[1e400,\x7b\"a\":null\x7d,\"\\ud800\"], " ++
    "\"dom\\u0061in\":\"uncore\",\"\":-0.0\x7d\r\n"

/-- The members of the crowded text that mean nothing. -/
def asides : List (Option String × Json) :=
  [(some "unit", .array [.number none, .object [(some "a", .null)], .string none]),
    (some "", .number none)]

/-- The crowded text is the sample with the smallest value, and a text with a second value is
none. -/
theorem Sample.parse_members_crowded :
    Sample.parse crowded = some ⟨.uncore, -9223372036854775808⟩ ∧
      Sample.parse "\x7b\"domain\":\"cpu\",\"value\":1,\"value\":1\x7d" = none := by
  refine ⟨Sample.parse_members.2.1 ⟨.uncore, -9223372036854775808⟩ crowded
    [(some "value", .number (some (-9223372036854775808))),
      (some "unit", .array [.number none, .object [(some "a", .null)], .string none]),
      (some "domain", .string (some "uncore")), (some "", .number none)] asides
    (read_eq_some_iff.1 (by cbv)) ?_ ?_, Sample.parse_members.2.2 _
    [(some "domain", .string (some "cpu")), (some "value", .number (some 1)),
      (some "value", .number (some 1))] (read_eq_some_iff.1 (by cbv)) (.inr (.inl (by decide)))⟩
  · exact @List.perm_middle _ _ [_, _] [_]
  · intro member hmember
    simp only [asides, List.mem_cons, List.not_mem_nil, or_false] at hmember
    rcases hmember with rfl | rfl <;> simp

/-- A name that is half of a character alone is refused, although the value behind it would not be
looked at. -/
theorem Sample.parse_members_halved :
    ¬ ∀ (sample : Sample) (text : String) (members others : List (Option String × Json)),
      IsDocument (.object members) text.toList →
      members.Perm ((some "domain", .string (some sample.domain.label)) ::
        (some "value", .number (some sample.value.toInt)) :: others) →
      (∀ member ∈ others, member.1 ≠ some "domain" ∧ member.1 ≠ some "value") →
        Sample.parse text = some sample := by
  intro h
  have hsome := h ⟨.cpu, 1⟩ "\x7b\"domain\":\"cpu\",\"value\":1,\"\\ud800\":0\x7d"
    [(some "domain", .string (some "cpu")), (some "value", .number (some 1)),
      (none, .number (some 0))] [(none, .number (some 0))] (read_eq_some_iff.1 (by cbv)) (.refl _)
    (by simp)
  have hnone : Sample.parse "\x7b\"domain\":\"cpu\",\"value\":1,\"\\ud800\":0\x7d" = none := by cbv
  rw [hnone] at hsome
  cases hsome

end Workbench.Energy
