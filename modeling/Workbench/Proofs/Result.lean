/-
Taking apart what was computed in steps that can fail.

A result of two steps comes from a result of each; an error of two steps comes from the first of
them that fails.
-/

namespace Workbench

variable {α β ε ε' : Type}

theorem bind_eq_ok {step : Except ε α} {rest : α → Except ε β} {b : β} :
    step >>= rest = .ok b ↔ ∃ a, step = .ok a ∧ rest a = .ok b := by
  cases step <;> simp [bind, Except.bind]

theorem bind_eq_error {step : Except ε α} {rest : α → Except ε β} {e : ε} :
    step >>= rest = .error e ↔ step = .error e ∨ ∃ a, step = .ok a ∧ rest a = .error e := by
  cases step <;> simp [bind, Except.bind]

theorem mapError_eq_ok {f : ε → ε'} {step : Except ε α} {a : α} :
    step.mapError f = .ok a ↔ step = .ok a := by
  cases step with
  | error e => exact ⟨nofun, nofun⟩
  | ok b =>
      show Except.ok b = Except.ok a ↔ _
      simp

theorem mapError_eq_error {f : ε → ε'} {step : Except ε α} {e' : ε'} :
    step.mapError f = .error e' ↔ ∃ e, step = .error e ∧ f e = e' := by
  cases step with
  | error e =>
      show Except.error (f e) = Except.error e' ↔ _
      simp
  | ok b => exact ⟨nofun, fun h => nomatch h.choose_spec.1⟩

/-- What a list is read into comes from its members. -/
theorem exists_of_mem_mapM {α β : Type} {f : α → Option β} {as : List α} {bs : List β} {b : β}
    (h : as.mapM f = some bs) (hb : b ∈ bs) : ∃ a ∈ as, f a = some b := by
  induction as generalizing bs with
  | nil =>
      obtain rfl : [] = bs := Option.some.inj h
      cases hb
  | cons a as ih =>
      rw [List.mapM_cons] at h
      obtain ⟨first, hfirst, h⟩ := Option.bind_eq_some_iff.1 h
      obtain ⟨rest, hrest, h⟩ := Option.bind_eq_some_iff.1 h
      obtain rfl := Option.some.inj h
      rcases List.mem_cons.1 hb with rfl | hb
      · exact ⟨a, List.mem_cons_self, hfirst⟩
      · obtain ⟨c, hc, hread⟩ := ih hrest hb
        exact ⟨c, List.mem_cons_of_mem a hc, hread⟩

end Workbench
