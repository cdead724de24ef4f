/-
Paths between text and components.

A component is what the stretch between two slashes stands for, and the text of a component is that
stretch again.  So components that stretches stand for, printed with one slash between neighbours,
are read as the same components: the printed text has no stretch that stands for nothing, and its
first stretch, which a dot would make special, is no dot.
-/
import Workbench.Path.Basic

namespace Workbench.Text

variable {α : Type} [DecidableEq α] {separator : α}

theorem split_eq_splitOn (separator : α) (text : List α) :
    split separator text = text.splitOn separator := by
  induction text with
  | nil => rfl
  | cons a text ih =>
      rw [split, ih, List.splitOn_cons_eq_if_modifyHead]
      simp only [beq_iff_eq]
      congr 1
      cases hpieces : text.splitOn separator with
      | nil => exact absurd hpieces (List.splitOn_ne_nil separator text)
      | cons piece pieces => rfl

/-- A separator is in no piece. -/
theorem not_mem_of_mem_split {text piece : List α} (h : piece ∈ split separator text) :
    separator ∉ piece := by
  induction text generalizing piece with
  | nil =>
      rw [split, List.mem_singleton] at h
      simp [h]
  | cons a text ih =>
      rw [split] at h
      split at h
      · rcases List.mem_cons.1 h with rfl | h
        · exact List.not_mem_nil
        · exact ih h
      · rename_i hne
        cases hpieces : split separator text with
        | nil => exact absurd hpieces (split_ne_nil separator text)
        | cons first pieces =>
            rw [hpieces] at h ih
            rcases List.mem_cons.1 h with rfl | h
            · have hfirst := ih List.mem_cons_self
              simp [hfirst, Ne.symm hne]
            · exact ih (List.mem_cons_of_mem _ h)

/-- A piece has no characters of its own. -/
theorem mem_of_mem_split {text piece : List α} {a : α} (h : piece ∈ split separator text)
    (ha : a ∈ piece) : a ∈ text := by
  induction text generalizing piece with
  | nil =>
      rw [split, List.mem_singleton] at h
      rwa [h] at ha
  | cons b text ih =>
      rw [split] at h
      split at h
      · rcases List.mem_cons.1 h with rfl | h
        · cases ha
        · exact List.mem_cons_of_mem b (ih h ha)
      · cases hpieces : split separator text with
        | nil => exact absurd hpieces (split_ne_nil separator text)
        | cons first pieces =>
            rw [hpieces] at h ih
            rcases List.mem_cons.1 h with rfl | h
            · rcases List.mem_cons.1 ha with rfl | ha
              · exact List.mem_cons_self
              · exact List.mem_cons_of_mem b (ih List.mem_cons_self ha)
            · exact List.mem_cons_of_mem b (ih (List.mem_cons_of_mem first h) ha)

/-- Whatever is no separator is in a piece. -/
theorem exists_mem_split {text : List α} {a : α} (hmem : a ∈ text) (hne : a ≠ separator) :
    ∃ piece ∈ split separator text, a ∈ piece := by
  induction text with
  | nil => cases hmem
  | cons b text ih =>
      rw [split]
      split
      · rename_i hb
        rcases List.mem_cons.1 hmem with rfl | hmem
        · exact absurd hb hne
        · obtain ⟨piece, hpiece, ha⟩ := ih hmem
          exact ⟨piece, List.mem_cons_of_mem _ hpiece, ha⟩
      · cases hpieces : split separator text with
        | nil => exact absurd hpieces (split_ne_nil separator text)
        | cons first pieces =>
            rw [hpieces] at ih
            rcases List.mem_cons.1 hmem with rfl | hmem
            · exact ⟨a :: first, List.mem_cons_self, List.mem_cons_self⟩
            · obtain ⟨piece, hpiece, ha⟩ := ih hmem
              rcases List.mem_cons.1 hpiece with rfl | hpiece
              · exact ⟨b :: piece, List.mem_cons_self, List.mem_cons_of_mem _ ha⟩
              · exact ⟨piece, List.mem_cons_of_mem _ hpiece, ha⟩

end Workbench.Text

namespace Workbench.Path

theorem isAbsolute_iff {path : List Char} :
    isAbsolute path = true ↔ ∃ rest, path = '/' :: rest := by
  cases path <;> simp [isAbsolute]

theorem isAbsolute_of_not_mem {path : List Char} (h : '/' ∉ path) : isAbsolute path = false := by
  rw [Bool.eq_false_iff]
  intro habsolute
  obtain ⟨rest, rfl⟩ := isAbsolute_iff.1 habsolute
  exact h List.mem_cons_self

/-! ### Entries -/

/-- The components that stretches stand for, each of them by its own text: two dots, and names. -/
def Component.IsEntry (component : Component) : Prop :=
  ofStretch component.text = some component ∧ '/' ∉ component.text

instance (component : Component) : Decidable component.IsEntry :=
  inferInstanceAs (Decidable (_ ∧ _))

namespace Component.IsEntry

variable {component : Component}

theorem parent : Component.parent.IsEntry := by
  constructor <;> decide

theorem text_ne_nil (h : component.IsEntry) : component.text ≠ [] := by
  intro hnil
  have hstands := h.1
  rw [hnil] at hstands
  cases hstands

theorem text_ne_dot (h : component.IsEntry) : component.text ≠ ['.'] := by
  intro hdot
  have hstands := h.1
  rw [hdot] at hstands
  cases hstands

theorem ne_root (h : component.IsEntry) : component ≠ .root := by
  rintro rfl
  exact h.2 List.mem_cons_self

theorem replicate (h : component.IsEntry) (times : Nat) :
    ∀ other ∈ List.replicate times component, other.IsEntry := fun other hmem => by
  rwa [List.eq_of_mem_replicate hmem]

theorem isAbsolute_append (h : component.IsEntry) (rest : List Char) :
    isAbsolute (component.text ++ rest) = false := by
  have hslash := h.2
  cases htext : component.text with
  | nil => exact absurd htext h.text_ne_nil
  | cons c text =>
      rw [htext] at hslash
      have hc : c ≠ '/' := by
        rintro rfl
        exact hslash List.mem_cons_self
      simp [isAbsolute, hc]

theorem join_text (h : component.IsEntry) (base : List Char) :
    join base component.text =
      if base = [] ∨ base.getLast? = some '/' then base ++ component.text
      else base ++ '/' :: component.text := by
  have hrelative := h.isAbsolute_append []
  rw [List.append_nil] at hrelative
  rw [join, hrelative]
  rfl

theorem getLast?_append (h : component.IsEntry) (front : List Char) :
    (front ++ component.text).getLast? ≠ some '/' := by
  intro hlast
  rw [List.getLast?_append] at hlast
  cases htext : component.text.getLast? with
  | none => exact h.text_ne_nil (List.getLast?_eq_none_iff.1 htext)
  | some last =>
      obtain rfl : last = '/' := by simpa [htext] using hlast
      exact h.2 (List.mem_of_getLast? htext)

end Component.IsEntry

theorem text_of_ofStretch {stretch : List Char} {component : Component}
    (h : ofStretch stretch = some component) : component.text = stretch := by
  unfold ofStretch at h
  split at h
  · cases h
  · split at h
    · rename_i hdots
      cases h
      exact hdots.symm
    · cases h
      rfl

theorem isEntry_of_mem_filterMap {path : List Char} {component : Component}
    {stretches : List (List Char)} (hpath : stretches ⊆ Text.split '/' path)
    (h : component ∈ stretches.filterMap ofStretch) : component.IsEntry := by
  obtain ⟨stretch, hmem, hstands⟩ := List.mem_filterMap.1 h
  have htext := text_of_ofStretch hstands
  rw [Component.IsEntry, htext]
  exact ⟨hstands, Text.not_mem_of_mem_split (hpath hmem)⟩

/-! ### From text to components -/

theorem components_cons_slash (rest : List Char) :
    components ('/' :: rest) = .root :: (Text.split '/' rest).filterMap ofStretch := by
  simp [components, Text.split, ofStretch]

theorem components_of_relative {path : List Char} (h : isAbsolute path = false) :
    components path = match Text.split '/' path with
      | ['.'] :: stretches => .current :: stretches.filterMap ofStretch
      | stretches => stretches.filterMap ofStretch := by
  unfold components
  split
  · simp [isAbsolute] at h
  · rename_i hsplit
    simp only [hsplit]
  · rename_i hdot
    split
    · rename_i stretches hsplit
      exact absurd hsplit (hdot stretches)
    · rfl

/-- Apart from the root and a dot at the beginning there are entries only. -/
theorem mem_components {path : List Char} {component : Component}
    (h : component ∈ components path) :
    component.IsEntry ∨ component = .current ∧ isAbsolute path = false ∨
      component = .root ∧ isAbsolute path = true := by
  cases habsolute : isAbsolute path with
  | true =>
      obtain ⟨rest, rfl⟩ := isAbsolute_iff.1 habsolute
      rw [components_cons_slash] at h
      rcases List.mem_cons.1 h with rfl | h
      · exact Or.inr (Or.inr ⟨rfl, rfl⟩)
      · exact Or.inl (isEntry_of_mem_filterMap (List.Subset.refl _) h)
  | false =>
      rw [components_of_relative habsolute] at h
      split at h
      · rename_i stretches hsplit
        rcases List.mem_cons.1 h with rfl | h
        · exact Or.inr (Or.inl ⟨rfl, rfl⟩)
        · have hpath : stretches ⊆ Text.split '/' path := by
            rw [hsplit]
            exact List.subset_cons_self _ _
          exact Or.inl (isEntry_of_mem_filterMap hpath h)
      · exact Or.inl (isEntry_of_mem_filterMap (List.Subset.refl _) h)

theorem root_mem_components {path : List Char} :
    .root ∈ components path ↔ isAbsolute path = true := by
  constructor
  · intro h
    rcases mem_components h with hentry | ⟨hroot, -⟩ | ⟨-, habsolute⟩
    · exact absurd rfl hentry.ne_root
    · cases hroot
    · exact habsolute
  · intro h
    obtain ⟨rest, rfl⟩ := isAbsolute_iff.1 h
    rw [components_cons_slash]
    exact List.mem_cons_self

/-! ### From components to text -/

/-- Components, each with a slash in front. -/
def trail (entries : List Component) : List Char :=
  entries.flatMap fun component => '/' :: component.text

section Entries

variable {first : Component} {entries : List Component}

/-- Behind something that does not end in a slash every entry is printed with one in front. -/
theorem extend_eq_append_trail (hentries : ∀ component ∈ entries, component.IsEntry)
    {base : List Char} (hne : base ≠ []) (hlast : base.getLast? ≠ some '/') :
    extend base entries = base ++ trail entries := by
  induction entries generalizing base with
  | nil => simp [extend, trail]
  | cons component entries ih =>
      obtain ⟨hentry, hrest⟩ := List.forall_mem_cons.1 hentries
      have hjoin : join base component.text = (base ++ ['/']) ++ component.text := by
        simp [hentry.join_text, hne, hlast]
      have hnext : extend base (component :: entries)
          = extend ((base ++ ['/']) ++ component.text) entries := by
        rw [← hjoin]
        rfl
      rw [hnext, ih hrest (by simp) (hentry.getLast?_append _)]
      simp [trail]

theorem ofComponents_cons (hentries : ∀ component ∈ first :: entries, component.IsEntry) :
    ofComponents (first :: entries) = first.text ++ trail entries := by
  obtain ⟨hfirst, hrest⟩ := List.forall_mem_cons.1 hentries
  have hjoin : join [] first.text = first.text := by simp [hfirst.join_text]
  have hnext : ofComponents (first :: entries) = extend (join [] first.text) entries := rfl
  rw [hnext, hjoin, extend_eq_append_trail hrest hfirst.text_ne_nil (hfirst.getLast?_append [])]

theorem ofComponents_root_cons (hentries : ∀ component ∈ first :: entries, component.IsEntry) :
    ofComponents (.root :: first :: entries) = '/' :: (first.text ++ trail entries) := by
  obtain ⟨hfirst, hrest⟩ := List.forall_mem_cons.1 hentries
  have hjoin : join ['/'] first.text = ['/'] ++ first.text := by simp [hfirst.join_text]
  have hnext : ofComponents (.root :: first :: entries) = extend (join ['/'] first.text) entries :=
    rfl
  rw [hnext, hjoin, extend_eq_append_trail hrest (by simp) (hfirst.getLast?_append ['/'])]
  rfl

theorem split_append_trail (hentries : ∀ component ∈ entries, component.IsEntry)
    {text : List Char} (htext : '/' ∉ text) :
    Text.split '/' (text ++ trail entries) = text :: entries.map Component.text := by
  induction entries generalizing text with
  | nil =>
      rw [trail, List.flatMap_nil, List.append_nil, Text.split_eq_splitOn,
        List.splitOn_eq_singleton htext, List.map_nil]
  | cons component entries ih =>
      obtain ⟨hentry, hrest⟩ := List.forall_mem_cons.1 hentries
      have htrail : trail (component :: entries) = '/' :: (component.text ++ trail entries) := rfl
      rw [htrail, Text.split_eq_splitOn, List.splitOn_append_cons_self_of_not_mem htext,
        ← Text.split_eq_splitOn, ih hrest hentry.2, List.map_cons]

theorem filterMap_ofStretch_text (hentries : ∀ component ∈ entries, component.IsEntry) :
    (entries.map Component.text).filterMap ofStretch = entries := by
  induction entries with
  | nil => rfl
  | cons component entries ih =>
      obtain ⟨hentry, hrest⟩ := List.forall_mem_cons.1 hentries
      rw [List.map_cons, List.filterMap_cons, hentry.1, ih hrest]

/-- **Entries that are printed are read again.** -/
theorem components_ofComponents (hentries : ∀ component ∈ entries, component.IsEntry)
    (hne : entries ≠ []) :
    components (ofComponents entries) = entries ∧ isAbsolute (ofComponents entries) = false := by
  cases entries with
  | nil => exact absurd rfl hne
  | cons first entries =>
      obtain ⟨hfirst, hrest⟩ := List.forall_mem_cons.1 hentries
      have hrelative := hfirst.isAbsolute_append (trail entries)
      rw [ofComponents_cons hentries]
      refine ⟨?_, hrelative⟩
      rw [components_of_relative hrelative, split_append_trail hrest hfirst.2]
      split
      · rename_i hdot
        exact absurd (List.cons.inj hdot).1 hfirst.text_ne_dot
      · exact filterMap_ofStretch_text hentries

theorem components_ofComponents_root (hentries : ∀ component ∈ entries, component.IsEntry) :
    components (ofComponents (.root :: entries)) = .root :: entries ∧
      isAbsolute (ofComponents (.root :: entries)) = true := by
  cases entries with
  | nil => exact ⟨rfl, rfl⟩
  | cons first entries =>
      obtain ⟨hfirst, hrest⟩ := List.forall_mem_cons.1 hentries
      rw [ofComponents_root_cons hentries]
      refine ⟨?_, rfl⟩
      rw [components_cons_slash, split_append_trail hrest hfirst.2]
      exact congrArg _ (filterMap_ofStretch_text hentries)

end Entries

end Workbench.Path
