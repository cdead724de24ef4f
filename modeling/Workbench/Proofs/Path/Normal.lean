/-
What the normal form of a path says.

A path in normal form first says where it begins, at the root or some levels out of where one is,
and then which names lead down from there.  `Form` is that data.  Every component takes the stack of
`pushNormal` from one form to another, and what the form leads to changes as `follow` says; so the
normal form leads where the path leads.

The other way round a form can be told from where it leads.  From a place that is deep enough, all
of whose names are the same, the form keeps some of these names and puts its own behind them, and
two such places with different names tell how many it keeps.
-/
import Workbench.Path.Normal
import Workbench.Proofs.Path.Components

namespace Workbench.Path

/-! ### Forms -/

/-- Where a path in normal form begins. -/
inductive Origin
  | root
  /-- So many levels out of where one is. -/
  | outer (levels : Nat)
deriving DecidableEq

def Origin.components : Origin → List Component
  | .root => [.root]
  | .outer levels => List.replicate levels .parent

/-- Where the origin is, seen from `start`. -/
def Origin.reach (start : List Name) : Origin → List Name
  | .root => []
  | .outer levels => start.take (start.length - levels)

/-- How many names of a place that is `depth` names deep are kept. -/
def Origin.kept (depth : Nat) : Origin → Nat
  | .root => 0
  | .outer levels => depth - levels

/-- A path in normal form. -/
@[ext]
structure Form where
  origin : Origin
  names : List Name
  entries : ∀ name ∈ names, (Component.name name).IsEntry

namespace Form

def components (form : Form) : List Component :=
  form.origin.components ++ form.names.map .name

/-- Where the form leads from `start`. -/
def reach (form : Form) (start : List Name) : List Name :=
  form.origin.reach start ++ form.names

/-- The text of a form, a dot if it has no components. -/
def text (form : Form) : List Char :=
  match form.components with
  | [] => ['.']
  | components => ofComponents components

/-- The form without components. -/
def stay : Form :=
  ⟨.outer 0, [], fun _ h => absurd h List.not_mem_nil⟩

theorem reach_stay (start : List Name) : stay.reach start = start := by
  simp [reach, stay, Origin.reach]

end Form

theorem dropLast_take_sub (start : List Name) (levels : Nat) :
    (start.take (start.length - levels)).dropLast = start.take (start.length - (levels + 1)) := by
  rw [List.dropLast_eq_take, List.take_take, List.length_take]
  congr 1
  omega

/-! ### From components to a form -/

/-- What `components` do to a form. -/
structure Leads (form : Form) (components : List Component) (next : Form) : Prop where
  pushed : components.foldl pushNormal form.components.reverse = next.components.reverse
  root : next.origin = .root ↔ .root ∈ components ∨ form.origin = .root
  reach : ∀ start, next.reach start = components.foldl follow (form.reach start)

theorem Leads.nil (form : Form) : Leads form [] form :=
  ⟨rfl, by simp, fun _ => rfl⟩

theorem Leads.append {form between next : Form} {front behind : List Component}
    (h : Leads form front between) (hnext : Leads between behind next) :
    Leads form (front ++ behind) next where
  pushed := by rw [List.foldl_append, h.pushed, hnext.pushed]
  root := by rw [hnext.root, h.root, List.mem_append, ← or_assoc, or_comm (a := .root ∈ behind)]
  reach := fun start => by rw [hnext.reach, h.reach, List.foldl_append]

theorem leads_root (form : Form) :
    Leads form [.root] ⟨.root, [], fun _ h => absurd h List.not_mem_nil⟩ :=
  ⟨rfl, by simp, fun _ => rfl⟩

theorem leads_current (form : Form) : Leads form [.current] form :=
  ⟨rfl, by simp, fun _ => rfl⟩

theorem leads_name (form : Form) {name : Name} (h : (Component.name name).IsEntry) :
    ∃ next, Leads form [.name name] next := by
  have hentries : ∀ other ∈ form.names ++ [name], (Component.name other).IsEntry := by
    intro other hother
    rcases List.mem_append.1 hother with hmem | hmem
    · exact form.entries other hmem
    · rw [List.mem_singleton.1 hmem]
      exact h
  refine ⟨⟨form.origin, form.names ++ [name], hentries⟩, ?_, by simp, ?_⟩
  · simp [Form.components, pushNormal]
  · intro start
    simp [Form.reach, follow]

/-- Two dots drop the last name; where there is none they stay at the root or go further out. -/
theorem leads_parent (form : Form) : ∃ next, Leads form [.parent] next := by
  obtain ⟨origin, names, hentries⟩ := form
  rcases List.eq_nil_or_concat names with rfl | ⟨names, name, rfl⟩
  · cases origin with
    | root => exact ⟨_, rfl, by simp, fun _ => rfl⟩
    | outer levels =>
        refine ⟨⟨.outer (levels + 1), [], hentries⟩, ?_, by simp, ?_⟩
        · simp only [Form.components, Origin.components, List.map_nil, List.append_nil,
            List.reverse_replicate, List.foldl_cons, List.foldl_nil]
          cases levels <;> rfl
        · intro start
          simp [Form.reach, Origin.reach, follow, dropLast_take_sub]
  · have hfront : ∀ other ∈ names, (Component.name other).IsEntry := fun other hother =>
      hentries other (by simp [hother])
    refine ⟨⟨origin, names, hfront⟩, ?_, by simp, ?_⟩
    · simp [Form.components, pushNormal]
    · intro start
      simp [Form.reach, follow]

theorem exists_leads {components : List Component}
    (h : ∀ component ∈ components,
      component.IsEntry ∨ component = .current ∨ component = .root) (form : Form) :
    ∃ next, Leads form components next := by
  induction components generalizing form with
  | nil => exact ⟨form, Leads.nil form⟩
  | cons component components ih =>
      obtain ⟨hcomponent, hrest⟩ := List.forall_mem_cons.1 h
      have hstep : ∃ between, Leads form [component] between := by
        cases component with
        | root => exact ⟨_, leads_root form⟩
        | current => exact ⟨_, leads_current form⟩
        | parent => exact leads_parent form
        | name name =>
            rcases hcomponent with hentry | hcurrent | hroot
            · exact leads_name form hentry
            · cases hcurrent
            · cases hroot
      obtain ⟨between, hbetween⟩ := hstep
      obtain ⟨next, hnext⟩ := ih hrest between
      exact ⟨next, hbetween.append hnext⟩

/-- The form whose text is the normal form of `path`. -/
structure IsFormOf (form : Form) (path : List Char) : Prop where
  text : normalize path = form.text
  root : form.origin = .root ↔ isAbsolute path = true
  reach : ∀ start, form.reach start = resolve start path

theorem exists_isFormOf (path : List Char) : ∃ form : Form, IsFormOf form path := by
  have hcomponents : ∀ component ∈ components path,
      component.IsEntry ∨ component = .current ∨ component = .root := by
    intro component h
    rcases mem_components h with hentry | ⟨hcurrent, -⟩ | ⟨hroot, -⟩
    · exact Or.inl hentry
    · exact Or.inr (Or.inl hcurrent)
    · exact Or.inr (Or.inr hroot)
  obtain ⟨form, hform⟩ := exists_leads hcomponents Form.stay
  have hnormal : normalComponents (components path) = form.components := by
    have hpushed := hform.pushed
    rw [show Form.stay.components.reverse = [] from rfl] at hpushed
    rw [normalComponents, hpushed, List.reverse_reverse]
  refine ⟨form, ?_, ?_, ?_⟩
  · rw [normalize, hnormal]
    rfl
  · rw [hform.root, root_mem_components, or_iff_left]
    simp [Form.stay]
  · intro start
    rw [hform.reach, Form.reach_stay, resolve]

/-! ### From a form to its text -/

theorem foldl_follow_names (names start : List Name) :
    (names.map Component.name).foldl follow start = start ++ names := by
  induction names generalizing start with
  | nil => simp
  | cons name names ih => simp [ih, follow]

theorem foldl_follow_parents (levels : Nat) (start : List Name) :
    (List.replicate levels Component.parent).foldl follow start
      = start.take (start.length - levels) := by
  induction levels with
  | zero => simp
  | succ levels ih =>
      rw [List.replicate_succ', List.foldl_append, ih, ← dropLast_take_sub]
      rfl

namespace Form

variable (form : Form)

theorem isEntry_of_mem_names {component : Component}
    (h : component ∈ form.names.map Component.name) : component.IsEntry := by
  obtain ⟨name, hname, rfl⟩ := List.mem_map.1 h
  exact form.entries name hname

theorem isEntry_of_outer {levels : Nat} (horigin : form.origin = .outer levels)
    {component : Component} (h : component ∈ form.components) : component.IsEntry := by
  rw [components, horigin, Origin.components] at h
  rcases List.mem_append.1 h with hparent | hname
  · rw [List.eq_of_mem_replicate hparent]
    exact Component.IsEntry.parent
  · exact form.isEntry_of_mem_names hname

theorem components_of_root (horigin : form.origin = .root) :
    form.components = .root :: form.names.map Component.name := by
  rw [components, horigin]
  rfl

theorem text_of_nil (h : form.components = []) : form.text = ['.'] := by
  simp [text, h]

theorem text_of_ne_nil (h : form.components ≠ []) : form.text = ofComponents form.components := by
  unfold text
  split
  · rename_i hnil
    exact absurd hnil h
  · rfl

theorem isAbsolute_text : isAbsolute form.text = true ↔ form.origin = .root := by
  cases horigin : form.origin with
  | root =>
      have hcomponents := form.components_of_root horigin
      have hne : form.components ≠ [] := by simp [hcomponents]
      have hread := components_ofComponents_root fun _ => form.isEntry_of_mem_names
      simp [form.text_of_ne_nil hne, hcomponents, hread.2]
  | outer levels =>
      by_cases hnil : form.components = []
      · simp [form.text_of_nil hnil, isAbsolute]
      · have hread := components_ofComponents (fun _ => form.isEntry_of_outer horigin) hnil
        simp [form.text_of_ne_nil hnil, hread.2]

/-- The text of a form has the components of the form, except that a dot stands for none. -/
theorem components_text (h : form.components ≠ []) :
    Path.components form.text = form.components := by
  rw [form.text_of_ne_nil h]
  cases horigin : form.origin with
  | root =>
      rw [form.components_of_root horigin]
      exact (components_ofComponents_root fun _ => form.isEntry_of_mem_names).1
  | outer levels => exact (components_ofComponents (fun _ => form.isEntry_of_outer horigin) h).1

theorem foldl_follow_components (start : List Name) :
    form.components.foldl follow start = form.reach start := by
  rw [components, List.foldl_append, foldl_follow_names, reach]
  cases form.origin with
  | root => rfl
  | outer levels => rw [Origin.components, foldl_follow_parents, Origin.reach]

theorem resolve_text (start : List Name) : resolve start form.text = form.reach start := by
  rw [← foldl_follow_components]
  by_cases hnil : form.components = []
  · rw [hnil, form.text_of_nil hnil]
    rfl
  · rw [resolve, form.components_text hnil]

end Form

/-- Paths in normal form. -/
structure IsNormal (path : List Char) : Prop where
  /-- A dot is the whole path. -/
  current : .current ∈ components path → path = ['.']
  /-- Two dots stand at the beginning, before everything else. -/
  parent : ∃ levels rest,
    components path = List.replicate levels .parent ++ rest ∧ .parent ∉ rest
  /-- No two dots stand behind the root. -/
  root : isAbsolute path = true → .parent ∉ components path
  /-- No slash and no dot is there that means nothing. -/
  printed : ofComponents (components path) = path

theorem Form.isNormal_text (form : Form) : IsNormal form.text := by
  by_cases hnil : form.components = []
  · rw [form.text_of_nil hnil]
    exact ⟨fun _ => rfl, ⟨0, [.current], rfl, by simp⟩, by simp [isAbsolute], rfl⟩
  · have hread := form.components_text hnil
    constructor
    · intro hcurrent
      rw [hread, Form.components] at hcurrent
      cases horigin : form.origin <;> simp [horigin, Origin.components] at hcurrent
    · rw [hread, Form.components]
      cases form.origin with
      | root => exact ⟨0, _, rfl, by simp⟩
      | outer levels => exact ⟨levels, _, rfl, by simp⟩
    · intro habsolute
      have hroot := form.isAbsolute_text.1 habsolute
      simp [hread, Form.components, hroot, Origin.components]
    · rw [hread, form.text_of_ne_nil hnil]

/-! ### Telling forms apart -/

/-- Where a run of equal members ends is seen by writing it with two different ones. -/
theorem replicate_append_inj {α : Type} {a b : α} (hne : a ≠ b) {m n : Nat} {s t : List α}
    (ha : List.replicate m a ++ s = List.replicate n a ++ t)
    (hb : List.replicate m b ++ s = List.replicate n b ++ t) : m = n ∧ s = t := by
  induction m generalizing n with
  | zero =>
      cases n with
      | zero => exact ⟨rfl, ha⟩
      | succ n =>
          rw [List.replicate_zero, List.nil_append] at ha hb
          rw [ha, List.replicate_succ, List.replicate_succ] at hb
          exact absurd (List.cons.inj hb).1 hne
  | succ m ih =>
      cases n with
      | zero =>
          rw [List.replicate_zero, List.nil_append] at ha hb
          rw [← ha, List.replicate_succ, List.replicate_succ] at hb
          exact absurd (List.cons.inj hb).1 (Ne.symm hne)
      | succ n =>
          obtain ⟨hmn, hst⟩ := ih (List.cons.inj ha).2 (List.cons.inj hb).2
          exact ⟨by rw [hmn], hst⟩

theorem Origin.reach_replicate (origin : Origin) (depth : Nat) (name : Name) :
    origin.reach (List.replicate depth name) = List.replicate (origin.kept depth) name := by
  cases origin with
  | root => rfl
  | outer levels =>
      rw [Origin.reach, Origin.kept, List.take_replicate, List.length_replicate]
      congr 1
      omega

/-- From deep enough, origins differ in how many names they keep. -/
theorem Origin.exists_kept_inj (origin other : Origin) :
    ∃ depth, origin.kept depth = other.kept depth → origin = other := by
  cases origin with
  | root =>
      cases other with
      | root => exact ⟨0, fun _ => rfl⟩
      | outer levels =>
          refine ⟨levels + 1, fun h => ?_⟩
          simp only [Origin.kept] at h
          omega
  | outer levels =>
      cases other with
      | root =>
          refine ⟨levels + 1, fun h => ?_⟩
          simp only [Origin.kept] at h
          omega
      | outer more =>
          refine ⟨levels + more, fun h => ?_⟩
          simp only [Origin.kept] at h
          congr 1
          omega

/-- **A form is what it leads to.**  Places that have names only are enough to tell. -/
theorem Form.eq_of_reach_eq {form other : Form}
    (h : ∀ start, (∀ name ∈ start, (Component.name name).IsEntry) →
      form.reach start = other.reach start) : form = other := by
  obtain ⟨depth, hdepth⟩ := form.origin.exists_kept_inj other.origin
  have hreach : ∀ name, (Component.name name).IsEntry →
      List.replicate (form.origin.kept depth) name ++ form.names
        = List.replicate (other.origin.kept depth) name ++ other.names := by
    intro name hname
    have hstart := h (List.replicate depth name) fun other hother => by
      rw [List.eq_of_mem_replicate hother]
      exact hname
    rwa [Form.reach, Form.reach, Origin.reach_replicate, Origin.reach_replicate] at hstart
  have hx : (Component.name ['x']).IsEntry := by constructor <;> decide
  have hy : (Component.name ['y']).IsEntry := by constructor <;> decide
  obtain ⟨hkept, hnames⟩ := replicate_append_inj (by decide) (hreach _ hx) (hreach _ hy)
  exact Form.ext (hdepth hkept) hnames

/-! ### The normal form -/

theorem resolve_normalize (start : List Name) (path : List Char) :
    resolve start (normalize path) = resolve start path := by
  obtain ⟨form, hform⟩ := exists_isFormOf path
  rw [hform.text, form.resolve_text, hform.reach]

/-- Paths that lead to the same names from every place with names have one normal form. -/
theorem normalize_eq_of_resolve_eq {path other : List Char}
    (h : ∀ start, (∀ name ∈ start, (Component.name name).IsEntry) →
      resolve start path = resolve start other) : normalize path = normalize other := by
  obtain ⟨form, hform⟩ := exists_isFormOf path
  obtain ⟨otherForm, hother⟩ := exists_isFormOf other
  have heq : form = otherForm := Form.eq_of_reach_eq fun start hstart => by
    rw [hform.reach, hother.reach, h start hstart]
  rw [hform.text, hother.text, heq]

theorem normalize_normalize (path : List Char) : normalize (normalize path) = normalize path :=
  normalize_eq_of_resolve_eq fun start _ => resolve_normalize start path

/-- **The normal form is sound and complete.**  It is spelled in the one normal way, it is absolute
as the path is, it leads where the path leads, and paths that lead to the same names from everywhere
have the same normal form. -/
theorem normalize_complete (path : List Char) :
    IsNormal (normalize path) ∧ isAbsolute (normalize path) = isAbsolute path ∧
      (∀ start, resolve start (normalize path) = resolve start path) ∧
      ∀ other, normalize path = normalize other ↔
        ∀ start, resolve start path = resolve start other := by
  obtain ⟨form, hform⟩ := exists_isFormOf path
  refine ⟨?_, ?_, fun start => resolve_normalize start path, fun other => ⟨?_, ?_⟩⟩
  · rw [hform.text]
    exact form.isNormal_text
  · rw [hform.text, Bool.eq_iff_iff, form.isAbsolute_text, hform.root]
  · intro heq start
    rw [← resolve_normalize, heq, resolve_normalize]
  · intro h
    exact normalize_eq_of_resolve_eq fun start _ => h start

example : normalize "../x/../..//./y/".toList = "../../y".toList := by decide

end Workbench.Path
