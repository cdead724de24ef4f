/-
The reader reads what the grammar writes, and nothing else.

Every production has its share of the reader.  Where a construct is written, the reader gives the
construct and what follows it, provided that what follows could not be taken for more of it: behind
a value there is white space, a comma or the end of what the value stands in (`Ends`).  A construct
has more characters than there are constructs in it, so as much fuel as the text is long suffices
(`Written.readFrom`).

In the other direction the induction is on the fuel: what a function of the reader has taken off its
text is a construct of the grammar (`readsWritten`).
-/
import Workbench.Proofs.Json.Number
import Workbench.Proofs.Json.Text

namespace Workbench.Json

variable {text gap rest : List Char} {c : Char}

/-! ### White space -/

theorem skipGap_append (h : IsGap gap) (text : List Char) : skipGap (gap ++ text) = skipGap text :=
  List.dropWhile_append_of_pos h

theorem skipGap_stop (h : isGap c = false) : skipGap (c :: text) = c :: text :=
  List.dropWhile_cons_of_neg (by simp [h])

theorem exists_skipGap (text : List Char) : ∃ gap, IsGap gap ∧ text = gap ++ skipGap text :=
  ⟨text.takeWhile isGap, List.all_eq_true.1 List.all_takeWhile, List.takeWhile_append_dropWhile.symm⟩

/-! ### Values -/

/-- What follows a value in what it stands in. -/
def Ends (rest : List Char) : Prop :=
  ∀ c ∈ rest.head?, c = ',' ∨ c = ']' ∨ c = '\x7d'

theorem Ends.stops (h : Ends rest) (hgap : IsGap gap) : Stops (gap ++ rest) := by
  cases gap with
  | nil =>
      intro c hc
      rcases h c hc with rfl | rfl | rfl <;> decide
  | cons c gap =>
      rintro d ⟨⟩
      have hc : isGap c = true := hgap c List.mem_cons_self
      simp only [isGap, Bool.or_eq_true, beq_iff_eq] at hc
      rcases hc with ((rfl | rfl) | rfl) | rfl <;> decide

theorem Ends.skipGap_eq (h : Ends rest) (hgap : IsGap gap) : skipGap (gap ++ rest) = rest := by
  rw [skipGap_append hgap]
  cases rest with
  | nil => rfl
  | cons c rest =>
      refine skipGap_stop ?_
      rcases h c rfl with rfl | rfl | rfl <;> decide

theorem skipGap_skipGap (text : List Char) : skipGap (skipGap text) = skipGap text :=
  List.dropWhile_idempotent isGap text

theorem isGap_of_isDigit (h : c.isDigit = true) : isGap c = false := by
  simp only [isGap, Bool.or_eq_false_iff, beq_eq_false_iff_ne]
  refine ⟨⟨⟨?_, ?_⟩, ?_⟩, ?_⟩ <;> rintro rfl <;> cases h

section Fuel

variable {fuel : Nat} {json item value : Json} {items : List Json} {name : Option String}
  {members : List (Option String × Json)} {behind more : List Char}

/-! #### One construct

White space in front of a construct does not matter, and what the reader does with a construct is
what it does with the first token and then with the parts. -/

theorem readValue_congr (fuel : Nat) {other : List Char} (h : skipGap text = skipGap other) :
    readValue fuel text = readValue fuel other := by
  cases fuel with
  | zero => rw [readValue, readValue]
  | succ fuel => rw [readValue, readValue, h]

theorem readItems_congr (fuel : Nat) {other : List Char} (h : skipGap text = skipGap other) :
    readItems fuel text = readItems fuel other := by
  cases fuel with
  | zero => rw [readItems, readItems]
  | succ fuel => rw [readItems, readItems, readValue_congr fuel h]

theorem readMembers_congr (fuel : Nat) {other : List Char} (h : skipGap text = skipGap other) :
    readMembers fuel text = readMembers fuel other := by
  cases fuel with
  | zero => rw [readMembers, readMembers]
  | succ fuel => rw [readMembers, readMembers, h]

theorem readValue_digit (fuel : Nat) (h : c.isDigit = true) (text : List Char) :
    readValue (fuel + 1) (c :: text) =
      (readNumber false (c :: text)).map fun found => (.number found.1, found.2) := by
  rw [readValue, skipGap_stop (isGap_of_isDigit h)]
  split
  all_goals first | rfl | (rename_i heq; cases heq; cases h)

/-- Where nothing but the end of an array follows there is no item. -/
theorem readItems_close (h : skipGap text = ']' :: rest) : readItems fuel text = none := by
  cases fuel with
  | zero => rw [readItems]
  | succ fuel =>
      have hnone : readValue fuel text = none := by
        cases fuel with
        | zero => rw [readValue]
        | succ fuel =>
            rw [readValue, h]
            rfl
      rw [readItems, hnone]
      rfl

theorem readMembers_close (h : skipGap text = '\x7d' :: rest) : readMembers fuel text = none := by
  cases fuel with
  | zero => rw [readMembers]
  | succ fuel =>
      rw [readMembers, h]
      rfl

theorem readValue_bracket (fuel : Nat) (text : List Char) : readValue (fuel + 1) ('[' :: text) =
    match skipGap text with
    | ']' :: rest => some (.array [], rest)
    | rest => (readItems fuel rest).map fun found => (.array found.1, found.2) := by
  rw [readValue, skipGap_stop rfl]
  rfl

theorem readValue_brace (fuel : Nat) (text : List Char) : readValue (fuel + 1) ('\x7b' :: text) =
    match skipGap text with
    | '\x7d' :: rest => some (.object [], rest)
    | rest => (readMembers fuel rest).map fun found => (.object found.1, found.2) := by
  rw [readValue, skipGap_stop rfl]
  rfl

theorem readValue_array (h : readItems fuel text = some (items, rest)) :
    readValue (fuel + 1) ('[' :: text) = some (.array items, rest) := by
  rw [readValue_bracket]
  split
  · rename_i heq
    rw [readItems_close heq] at h
    cases h
  · rw [readItems_congr fuel (skipGap_skipGap text), h]
    rfl

theorem readValue_object (h : readMembers fuel text = some (members, rest)) :
    readValue (fuel + 1) ('\x7b' :: text) = some (.object members, rest) := by
  rw [readValue_brace]
  split
  · rename_i heq
    rw [readMembers_close heq] at h
    cases h
  · rw [readMembers_congr fuel (skipGap_skipGap text), h]
    rfl

theorem readItems_last (h : readValue fuel text = some (item, behind))
    (hbehind : skipGap behind = ']' :: rest) : readItems (fuel + 1) text = some ([item], rest) := by
  rw [readItems, h]
  simp only [Option.bind_eq_bind, Option.bind_some, hbehind]
  rfl

theorem readItems_more (h : readValue fuel text = some (item, behind))
    (hbehind : skipGap behind = ',' :: more) (hmore : readItems fuel more = some (items, rest)) :
    readItems (fuel + 1) text = some (item :: items, rest) := by
  rw [readItems, h]
  simp only [Option.bind_eq_bind, Option.bind_some, hbehind, hmore]
  rfl

/-- A name and the colon behind it, with the white space around the name. -/
theorem readMembers_name {quoted before : List Char} (hbefore : IsGap before)
    (hname : IsText name quoted) (hgap : IsGap gap) (text : List Char) :
    readMembers (fuel + 1) (before ++ (quoted ++ (gap ++ ':' :: text))) =
      (readValue fuel text).bind fun found =>
        match skipGap found.2 with
        | ',' :: rest =>
            (readMembers fuel rest).bind fun more => some ((name, found.1) :: more.1, more.2)
        | '\x7d' :: rest => some ([(name, found.1)], rest)
        | _ => none := by
  obtain ⟨inside, hinside, hread⟩ := hname.eq_cons (gap ++ ':' :: text)
  rw [readMembers, skipGap_append hbefore, hinside, skipGap_stop rfl]
  simp only [Option.bind_eq_bind, hread, Option.bind_some, skipGap_append hgap]
  rw [skipGap_stop rfl]
  rfl

/-! #### All constructs -/

/-- The reader takes a construct off the front of a text, with as much fuel as the construct has
characters and as long as what follows is no part of it. -/
def Phrase.ReadFrom (text : List Char) : Phrase → Prop
  | .value json => ∀ fuel rest, text.length ≤ fuel → Stops rest →
      readValue fuel (text ++ rest) = some (json, rest)
  | .element json => ∀ fuel rest, text.length ≤ fuel → Ends rest →
      ∃ behind, skipGap behind = rest ∧ readValue fuel (text ++ rest) = some (json, behind)
  | .items items => ∀ fuel rest, text.length < fuel →
      readItems fuel (text ++ ']' :: rest) = some (items, rest)
  | .members members => ∀ fuel rest, text.length < fuel →
      readMembers fuel (text ++ '\x7d' :: rest) = some (members, rest)

theorem IsNumber.readFrom {whole : Option Int} (h : IsNumber whole text) :
    (Phrase.value (.number whole)).ReadFrom text := by
  obtain ⟨negative, figures, fraction, exponent, hfigures, hfraction, hexponent, rfl, rfl⟩ :=
    isNumber_iff.1 h
  obtain ⟨hne, hall⟩ := areDigits_iff.1 hfigures.isDigits
  obtain ⟨c, figures, rfl⟩ := List.exists_cons_of_ne_nil hne
  rintro (_ | fuel) rest hfuel hrest
  · simp at hfuel
  have hread := readNumber_append negative hfigures hfraction hexponent hrest
  simp only [List.append_assoc]
  cases negative with
  | true =>
      show readValue (fuel + 1) ('-' :: (c :: figures ++ (fraction ++ (exponent ++ rest)))) = _
      rw [readValue, skipGap_stop rfl]
      show (readNumber true _).map _ = _
      rw [hread]
      rfl
  | false =>
      show readValue (fuel + 1) (c :: (figures ++ (fraction ++ (exponent ++ rest)))) = _
      rw [readValue_digit fuel (hall c List.mem_cons_self)]
      rw [List.cons_append] at hread
      rw [hread]
      rfl

theorem IsText.readFrom {content : Option String} (h : IsText content text) :
    (Phrase.value (.string content)).ReadFrom text := by
  rintro (_ | fuel) rest hfuel hrest
  · cases h <;> cases hfuel
  · obtain ⟨inside, hinside, hread⟩ := h.eq_cons rest
    rw [hinside, readValue, skipGap_stop rfl]
    show (readText _).map _ = _
    rw [hread]
    rfl

/-- **What is written is read**, with as much fuel as there are characters. -/
theorem Written.readFrom {phrase : Phrase} (h : Written phrase text) : phrase.ReadFrom text := by
  induction h with
  | null | yes | no =>
      rintro (_ | fuel) rest hfuel hrest
      · cases hfuel
      · rw [readValue]
        rfl
  | number h => exact h.readFrom
  | string h => exact h.readFrom
  | emptyArray hgap =>
      rintro (_ | fuel) rest hfuel hrest
      · cases hfuel
      · rw [List.cons_append, List.append_assoc, readValue_bracket, skipGap_append hgap]
        rfl
  | array h ih =>
      rintro (_ | fuel) rest hfuel hrest
      · cases hfuel
      · simp only [List.length_cons, List.length_append] at hfuel
        rw [List.cons_append, List.append_assoc]
        exact readValue_array (ih fuel rest (by omega))
  | emptyObject hgap =>
      rintro (_ | fuel) rest hfuel hrest
      · cases hfuel
      · rw [List.cons_append, List.append_assoc, readValue_brace, skipGap_append hgap]
        rfl
  | object h ih =>
      rintro (_ | fuel) rest hfuel hrest
      · cases hfuel
      · simp only [List.length_cons, List.length_append] at hfuel
        rw [List.cons_append, List.append_assoc]
        exact readValue_object (ih fuel rest (by omega))
  | element hbefore h hbehind ih =>
      intro fuel rest hfuel hrest
      simp only [List.length_append] at hfuel
      refine ⟨_, hrest.skipGap_eq hbehind, ?_⟩
      rw [List.append_assoc, List.append_assoc, readValue_congr fuel (skipGap_append hbefore _)]
      exact ih fuel _ (by omega) (hrest.stops hbehind)
  | item h ih =>
      rintro (_ | fuel) rest hfuel
      · cases hfuel
      · obtain ⟨behind, hbehind, hread⟩ := ih fuel (']' :: rest) (by omega) (by simp [Ends])
        exact readItems_last hread hbehind
  | items h hmore ih ihmore =>
      rintro (_ | fuel) rest hfuel
      · cases hfuel
      · simp only [List.length_cons, List.length_append] at hfuel
        rw [List.append_assoc, List.cons_append]
        obtain ⟨behind, hbehind, hread⟩ := ih fuel (',' :: (_ ++ ']' :: rest)) (by omega)
          (by simp [Ends])
        exact readItems_more hread hbehind (ihmore fuel rest (by omega))
  | member hbefore hname hbehind h ih =>
      rintro (_ | fuel) rest hfuel
      · cases hfuel
      · simp only [List.length_cons, List.length_append] at hfuel
        obtain ⟨behind, hclose, hread⟩ := ih fuel ('\x7d' :: rest) (by omega) (by simp [Ends])
        simp only [List.append_assoc, List.cons_append]
        rw [readMembers_name hbefore hname hbehind, hread]
        simp only [Option.bind_some, hclose]
  | members hbefore hname hbehind h hmore ih ihmore =>
      rintro (_ | fuel) rest hfuel
      · cases hfuel
      · simp only [List.length_cons, List.length_append] at hfuel
        obtain ⟨behind, hcomma, hread⟩ := ih fuel (',' :: (_ ++ '\x7d' :: rest)) (by omega)
          (by simp [Ends])
        simp only [List.append_assoc, List.cons_append]
        rw [readMembers_name hbefore hname hbehind, hread]
        simp only [Option.bind_some, hcomma, ihmore fuel rest (by omega)]

end Fuel

/-! ### What is read -/

/-- With some fuel the reader takes nothing off a text but what is written there. -/
structure ReadsWritten (fuel : Nat) : Prop where
  value : ∀ {text rest : List Char} {json : Json}, readValue fuel text = some (json, rest) →
    ∃ before body, IsGap before ∧ text = before ++ (body ++ rest) ∧ Written (.value json) body
  items : ∀ {text rest : List Char} {items : List Json}, readItems fuel text = some (items, rest) →
    ∃ body, text = body ++ ']' :: rest ∧ Written (.items items) body
  members : ∀ {text rest : List Char} {members : List (Option String × Json)},
    readMembers fuel text = some (members, rest) →
      ∃ body, text = body ++ '\x7d' :: rest ∧ Written (.members members) body

section ReadsWritten

variable {fuel : Nat} {json : Json} {items : List Json} {members : List (Option String × Json)}

theorem written_of_readNumber {negative : Bool} {whole : Option Int}
    (h : readNumber negative text = some (whole, rest)) :
    ∃ body, minus negative ++ text = body ++ rest ∧ Written (.value (.number whole)) body := by
  obtain ⟨figures, fraction, exponent, hfigures, hfraction, hexponent, rfl, rfl⟩ :=
    exists_of_readNumber h
  refine ⟨_, ?_, .number (isNumber_iff.2
    ⟨negative, figures, fraction, exponent, hfigures, hfraction, hexponent, rfl, rfl⟩)⟩
  simp only [List.append_assoc]

theorem ReadsWritten.readValue_succ (h : ReadsWritten fuel)
    (hread : readValue (fuel + 1) text = some (json, rest)) :
    ∃ before body, IsGap before ∧ text = before ++ (body ++ rest) ∧
      Written (.value json) body := by
  obtain ⟨gap, hgap, htext⟩ := exists_skipGap text
  -- The white space in front is the same whatever the value is.
  suffices hbody : ∃ body, skipGap text = body ++ rest ∧ Written (.value json) body by
    obtain ⟨body, heq, hbody⟩ := hbody
    exact ⟨gap, body, hgap, htext.trans (congrArg (gap ++ ·) heq), hbody⟩
  rw [readValue] at hread
  split at hread
  · rename_i heq
    cases hread
    exact ⟨_, heq, .null⟩
  · rename_i heq
    cases hread
    exact ⟨_, heq, .yes⟩
  · rename_i heq
    cases hread
    exact ⟨_, heq, .no⟩
  · rename_i behind heq
    obtain ⟨⟨content, rest'⟩, htext, hpure⟩ := Option.map_eq_some_iff.1 hread
    cases hpure
    obtain ⟨quoted, hquoted, hbehind⟩ := readText_eq_some_iff.1 htext
    exact ⟨quoted, heq.trans hbehind, .string hquoted⟩
  · rename_i behind heq
    obtain ⟨⟨whole, rest'⟩, hnumber, hpure⟩ := Option.map_eq_some_iff.1 hread
    cases hpure
    obtain ⟨body, hbehind, hbody⟩ := written_of_readNumber hnumber
    exact ⟨body, heq.trans hbehind, hbody⟩
  · rename_i behind heq
    rw [heq]
    split at hread
    · rename_i rest' hclose
      cases hread
      obtain ⟨inner, hinner, hbehind⟩ := exists_skipGap behind
      refine ⟨_, ?_, .emptyArray hinner⟩
      rw [hbehind, hclose]
      simp
    · obtain ⟨⟨items, rest'⟩, hitems, hpure⟩ := Option.map_eq_some_iff.1 hread
      cases hpure
      rw [readItems_congr fuel (skipGap_skipGap behind)] at hitems
      obtain ⟨body, rfl, hbody⟩ := h.items hitems
      exact ⟨_, by simp, .array hbody⟩
  · rename_i behind heq
    rw [heq]
    split at hread
    · rename_i rest' hclose
      cases hread
      obtain ⟨inner, hinner, hbehind⟩ := exists_skipGap behind
      refine ⟨_, ?_, .emptyObject hinner⟩
      rw [hbehind, hclose]
      simp
    · obtain ⟨⟨members, rest'⟩, hmembers, hpure⟩ := Option.map_eq_some_iff.1 hread
      cases hpure
      rw [readMembers_congr fuel (skipGap_skipGap behind)] at hmembers
      obtain ⟨body, rfl, hbody⟩ := h.members hmembers
      exact ⟨_, by simp, .object hbody⟩
  · obtain ⟨⟨whole, rest'⟩, hnumber, hpure⟩ := Option.map_eq_some_iff.1 hread
    cases hpure
    obtain ⟨body, hbehind, hbody⟩ := written_of_readNumber hnumber
    exact ⟨body, hbehind, hbody⟩

/-- A value and the white space on both sides of it make an element. -/
theorem ReadsWritten.element (h : ReadsWritten fuel)
    (hread : readValue fuel text = some (json, rest)) :
    ∃ body, text = body ++ skipGap rest ∧ Written (.element json) body := by
  obtain ⟨before, body, hbefore, htext, hbody⟩ := h.value hread
  obtain ⟨behind, hbehind, hrest⟩ := exists_skipGap rest
  refine ⟨_, ?_, .element hbefore hbody hbehind⟩
  rw [htext, List.append_assoc, List.append_assoc, ← hrest]

theorem ReadsWritten.readItems_succ (h : ReadsWritten fuel)
    (hread : readItems (fuel + 1) text = some (items, rest)) :
    ∃ body, text = body ++ ']' :: rest ∧ Written (.items items) body := by
  obtain ⟨⟨item, behind⟩, hitem, hmore⟩ := Option.bind_eq_some_iff.1 hread
  obtain ⟨body, htext, hbody⟩ := h.element hitem
  dsimp only at hmore
  split at hmore
  · rename_i more hcomma
    obtain ⟨⟨items', rest'⟩, hitems, hpure⟩ := Option.bind_eq_some_iff.1 hmore
    cases hpure
    obtain ⟨body', rfl, hbody'⟩ := h.items hitems
    refine ⟨_, ?_, .items hbody hbody'⟩
    rw [htext, hcomma]
    simp
  · rename_i rest' hclose
    cases hmore
    exact ⟨body, by rw [htext, hclose], .item hbody⟩
  · cases hmore

theorem ReadsWritten.readMembers_succ (h : ReadsWritten fuel)
    (hread : readMembers (fuel + 1) text = some (members, rest)) :
    ∃ body, text = body ++ '\x7d' :: rest ∧ Written (.members members) body := by
  obtain ⟨before, hbefore, htext⟩ := exists_skipGap text
  rw [readMembers] at hread
  split at hread
  · rename_i inside hquote
    obtain ⟨⟨name, behind⟩, hname, hafter⟩ := Option.bind_eq_some_iff.1 hread
    obtain ⟨quoted, hquoted, heq⟩ := readText_eq_some_iff.1 hname
    obtain ⟨between, hbetween, hbehind⟩ := exists_skipGap behind
    dsimp only at hafter
    split at hafter
    · rename_i text' hcolon
      obtain ⟨⟨value, rest'⟩, hvalue, hmore⟩ := Option.bind_eq_some_iff.1 hafter
      obtain ⟨body, hbody', hbody⟩ := h.element hvalue
      rw [htext, hquote, heq, hbehind, hcolon, hbody']
      dsimp only at hmore
      split at hmore
      · rename_i more hcomma
        obtain ⟨⟨members', rest''⟩, hmembers, hpure⟩ := Option.bind_eq_some_iff.1 hmore
        cases hpure
        obtain ⟨others, rfl, hothers⟩ := h.members hmembers
        refine ⟨_, ?_, .members hbefore hquoted hbetween hbody hothers⟩
        rw [hcomma]
        simp
      · rename_i rest'' hclose
        cases hmore
        refine ⟨_, ?_, .member hbefore hquoted hbetween hbody⟩
        rw [hclose]
        simp
      · cases hmore
    · cases hafter
  · cases hread

theorem readsWritten (fuel : Nat) : ReadsWritten fuel := by
  induction fuel with
  | zero =>
      refine ⟨fun h => ?_, fun h => ?_, fun h => ?_⟩
      · rw [readValue] at h
        cases h
      · rw [readItems] at h
        cases h
      · rw [readMembers] at h
        cases h
  | succ fuel ih => exact ⟨ih.readValue_succ, ih.readItems_succ, ih.readMembers_succ⟩

end ReadsWritten

/-- **A text is read as a value exactly if it is one way to write the value.** -/
theorem read_eq_some_iff {json : Json} : read text = some json ↔ IsDocument json text := by
  constructor
  · intro h
    obtain ⟨⟨json', rest⟩, hread, hend⟩ := Option.bind_eq_some_iff.1 h
    obtain ⟨body, rfl, hbody⟩ := (readsWritten _).element hread
    dsimp only at hend
    split at hend
    · rename_i hnil
      cases hend
      rwa [hnil, List.append_nil]
    · cases hend
  · intro h
    obtain ⟨behind, hbehind, hread⟩ :=
      h.readFrom (text.length + 1) [] (Nat.le_succ _) fun c hc => nomatch hc
    rw [List.append_nil] at hread
    rw [read, hread]
    exact if_pos hbehind

end Workbench.Json
