/-
What the handle of a program answers over a whole life of the program.

Two facts carry everything.  What the system tells of an end stays as it is: a program that has ended
has ended in one way, and to streams that are closed nothing is added (`Host.Lawful`).  And a handle
collects an output only when it is complete.  So whatever a step does, an output that is complete
stays the same, and what has been collected is that output (`Goes`).  Whoever asks from then on is
answered it, whatever it says about how the program has ended.

A signal to a program that leads no group changes nothing at all.  A signal to a group may still
reach processes that the program has left behind; once the output is complete, no answer to whoever
asks depends on them any more.  Other signals may: whether the system refuses one is up to the
processes that are left.
-/
import Mathlib.Data.List.InsertIdx
import Workbench.Process.Child
import Workbench.Proofs.Result

namespace Workbench

/-- The step asks for the output. -/
def ChildStep.asks : ChildStep → Bool
  | .tryWait => true
  | .wait => true
  | _ => false

/-- The signal that a step sends, if it sends one. -/
def ChildStep.sent? : ChildStep → Option Signal
  | .signal sent => some sent
  | _ => none

/-! ### What the system promises -/

namespace Host

variable {σ : Type} {host : Host σ} {state : σ} {output : Output}

theorem output?_eq_some : host.output? state = some output ↔
    host.ending state = some output.ending ∧
      host.printed state = some (output.stdout, output.stderr) := by
  obtain ⟨ending, stdout, stderr⟩ := output
  cases hending : host.ending state <;> cases hprinted : host.printed state <;>
    simp [output?, hending, hprinted, Prod.ext_iff]

/-- The system numbers its processes with 32 bits, keeps how a program has ended, and has nothing
more to read from streams that nobody holds open.  What is waited for comes. -/
structure Lawful (host : Host σ) : Prop where
  number_le : host.number ≤ greatestProcess
  ending_pass : ∀ {state ending} (time), host.ending state = some ending →
    host.ending (host.pass state time) = some ending
  ending_receive : ∀ {state ending} (signal), host.ending state = some ending →
    host.ending (host.receive state signal) = some ending
  printed_pass : ∀ {state streams} (time), host.printed state = some streams →
    host.printed (host.pass state time) = some streams
  printed_receive : ∀ {state streams} (signal), host.printed state = some streams →
    host.printed (host.receive state signal) = some streams
  remaining : ∀ {state time}, host.remaining state = some time →
    ∃ output, host.output? (host.pass state time) = some output

theorem Lawful.output?_pass (h : host.Lawful) (houtput : host.output? state = some output)
    (time : Nat) : host.output? (host.pass state time) = some output := by
  obtain ⟨hending, hprinted⟩ := output?_eq_some.1 houtput
  exact output?_eq_some.2 ⟨h.ending_pass time hending, h.printed_pass time hprinted⟩

theorem Lawful.output?_receive (h : host.Lawful) (houtput : host.output? state = some output)
    (signal : Signal) : host.output? (host.receive state signal) = some output := by
  obtain ⟨hending, hprinted⟩ := output?_eq_some.1 houtput
  exact output?_eq_some.2 ⟨h.ending_receive signal hending, h.printed_receive signal hprinted⟩

/-- The system refuses no signal. -/
def Permits (host : Host σ) : Prop :=
  ∀ state signal reason, host.answer state signal ≠ .refused reason

end Host

namespace Child

variable {σ : Type} {host : Host σ} {child child' : Child σ} {output : Output}

/-! ### Runs -/

/-- The handle after steps one after the other. -/
def after (host : Host σ) (child : Child σ) : List ChildStep → Child σ
  | [] => child
  | step :: steps => after host (child.step host step).2 steps

@[simp] theorem length_answers (child : Child σ) (steps : List ChildStep) :
    (child.answers host steps).length = steps.length := by
  induction steps generalizing child with
  | nil => rfl
  | cons step steps ih => simp [answers, ih]

theorem answers_append (child : Child σ) (front back : List ChildStep) :
    child.answers host (front ++ back) =
      child.answers host front ++ (child.after host front).answers host back := by
  induction front generalizing child with
  | nil => rfl
  | cons step front ih => simp [answers, after, ih]

theorem after_append (child : Child σ) (front back : List ChildStep) :
    child.after host (front ++ back) = (child.after host front).after host back := by
  induction front generalizing child with
  | nil => rfl
  | cons step front ih => exact ih (child.step host step).2

/-- Each answer is that of the handle after the steps before it. -/
theorem getElem?_answers (child : Child σ) (steps : List ChildStep) (i : Nat) :
    (child.answers host steps)[i]? =
      steps[i]?.map fun step => ((child.after host (steps.take i)).step host step).1 := by
  induction steps generalizing child i with
  | nil => simp [answers]
  | cons step steps ih =>
      cases i with
      | zero => simp [answers, after]
      | succ i => simp [answers, after, ih]

/-! ### Signals -/

/-- The failure to send a signal that the system refuses. -/
def denied (child : Child σ) (signal : Signal) (reason : String) : Failure :=
  .signal s!"Failed to send {signal.label} to process group {child.process}: {reason}"

/-- The signal of a program that leads no group is refused, and nothing happens. -/
theorem signalGroup_of_not_leader (h : child.leader = false) (signal : Signal) :
    child.signalGroup host signal = (.refused child.notLeader, child) := by
  simp [signalGroup, h]

/-- What the system refuses is a failure, and nothing happens either. -/
theorem signalGroup_of_refused (h : child.leader = true)
    (hprocess : child.process ≤ greatestProcess) {signal : Signal} {reason : String}
    (hanswer : host.answer child.state signal = .refused reason) :
    child.signalGroup host signal = (.refused (child.denied signal reason), child) := by
  simp [signalGroup, h, hanswer, killGroupTo, deliverTo, hprocess, Except.mapError, denied]

/-- Any other signal is delivered, also if the group no longer exists. -/
theorem signalGroup_of_permitted (h : child.leader = true)
    (hprocess : child.process ≤ greatestProcess) {signal : Signal}
    (hanswer : ∀ reason, host.answer child.state signal ≠ .refused reason) :
    ∃ state, (state = child.state ∨ state = host.receive child.state signal) ∧
      child.signalGroup host signal = (.delivered, { child with state := state }) := by
  cases hcase : host.answer child.state signal with
  | refused reason => exact absurd hcase (hanswer reason)
  | reached =>
      refine ⟨host.receive child.state signal, Or.inr rfl, ?_⟩
      simp [signalGroup, h, hcase, killGroupTo, deliverTo, hprocess, Except.mapError]
  | noGroup =>
      refine ⟨child.state, Or.inl rfl, ?_⟩
      obtain ⟨process, leader, checked, state, collected⟩ := child
      obtain rfl : leader = true := h
      simp_all [signalGroup, killGroupTo, deliverTo, Except.mapError]

/-! ### What steps change -/

/-- What steps may do to a handle: it stays a handle to the same program, an output that has been
collected stays, one that is complete stays complete, and what is collected anew is complete. -/
structure Goes (host : Host σ) (child child' : Child σ) : Prop where
  process : child'.process = child.process
  leader : child'.leader = child.leader
  checked : child'.checked = child.checked
  kept : ∀ output, child.collected = some output → child'.collected = some output
  complete : ∀ output, host.output? child.state = some output →
    host.output? child'.state = some output
  found : ∀ output, child'.collected = some output →
    child.collected = some output ∨ host.output? child'.state = some output

theorem Goes.refl (child : Child σ) : Goes host child child :=
  ⟨rfl, rfl, rfl, fun _ h => h, fun _ h => h, fun _ h => .inl h⟩

theorem Goes.trans {middle : Child σ} (h : Goes host child middle) (h' : Goes host middle child') :
    Goes host child child' where
  process := h'.process.trans h.process
  leader := h'.leader.trans h.leader
  checked := h'.checked.trans h.checked
  kept output hout := h'.kept output (h.kept output hout)
  complete output hout := h'.complete output (h.complete output hout)
  found output hout := by
    rcases h'.found output hout with hmiddle | hcomplete
    · exact (h.found output hmiddle).imp_right (h'.complete output)
    · exact .inr hcomplete

/-- Only the state of the processes has changed, and what was complete still is. -/
theorem goes_of_state {state : σ} (h : ∀ output, host.output? child.state = some output →
    host.output? state = some output) : Goes host child { child with state := state } :=
  ⟨rfl, rfl, rfl, fun _ h => h, h, fun _ h => .inl h⟩

theorem goes_collect (child : Child σ) : Goes host child (child.collect host) where
  process := rfl
  leader := rfl
  checked := rfl
  kept output h := by simp [collect, h]
  complete _ h := h
  found output h := by
    cases hcollected : child.collected with
    | some _ => exact .inl (by simpa [collect, hcollected] using h)
    | none =>
        right
        simpa [collect, hcollected] using h

theorem snd_ask (child : Child σ) (otherwise : ChildAnswer) :
    (child.ask host otherwise).2 = child.collect host := by
  unfold ask
  dsimp only
  split <;> rfl

theorem goes_pass (hlawful : host.Lawful) (child : Child σ) (time : Nat) :
    Goes host child (child.pass host time) :=
  goes_of_state fun _ h => hlawful.output?_pass h time

theorem goes_await (hlawful : host.Lawful) (child : Child σ) :
    Goes host child (child.await host).2 := by
  unfold await
  split
  · rw [snd_ask]
    exact goes_collect child
  · split
    · rw [snd_ask]
      exact (goes_pass hlawful child _).trans (goes_collect _)
    · exact .refl child

theorem goes_signalGroup (hlawful : host.Lawful) (hprocess : child.process ≤ greatestProcess)
    (signal : Signal) : Goes host child (child.signalGroup host signal).2 := by
  cases hleader : child.leader with
  | false =>
      rw [signalGroup_of_not_leader hleader]
      exact .refl child
  | true =>
      cases hanswer : host.answer child.state signal with
      | refused reason =>
          rw [signalGroup_of_refused hleader hprocess hanswer]
          exact .refl child
      | reached | noGroup =>
          obtain ⟨state, hstate, heq⟩ :=
            signalGroup_of_permitted hleader hprocess fun reason hrefused => by
              rw [hanswer] at hrefused
              cases hrefused
          rw [heq]
          rcases hstate with rfl | rfl
          · exact .refl child
          · exact goes_of_state fun _ h => hlawful.output?_receive h signal

/-- Each step does what it may. -/
theorem goes_step (hlawful : host.Lawful) (hprocess : child.process ≤ greatestProcess)
    (step : ChildStep) : Goes host child (child.step host step).2 := by
  cases step with
  | pause time => exact goes_pass hlawful child time
  | tryWait =>
      rw [Child.step]
      split
      · exact goes_await hlawful child
      · rw [snd_ask]
        exact goes_collect child
  | wait => exact goes_await hlawful child
  | signal signal => exact goes_signalGroup hlawful hprocess signal

/-- So does a run. -/
theorem goes_after (hlawful : host.Lawful) (hprocess : child.process ≤ greatestProcess)
    (steps : List ChildStep) : Goes host child (child.after host steps) := by
  induction steps generalizing child with
  | nil => exact .refl child
  | cons step steps ih =>
      have hstep := goes_step hlawful hprocess step
      exact hstep.trans (ih (hstep.process ▸ hprocess))

/-! ### Handles that have been started -/

/-- A handle to the program that the system runs, which has no failure to report and has collected
nothing but the output of the program. -/
structure Serves (host : Host σ) (child : Child σ) : Prop where
  lawful : host.Lawful
  process : child.process = host.number
  unchecked : child.checked = false
  collected : ∀ output, child.collected = some output → host.output? child.state = some output

theorem serves_start (h : host.Lawful) (expression : Expression) :
    Serves host (start host expression) :=
  ⟨h, rfl, rfl, fun _ hnone => nomatch hnone⟩

theorem serves_startGroupLeader (h : host.Lawful) (expression : Expression) :
    Serves host (startGroupLeader host expression) :=
  ⟨h, rfl, rfl, fun _ hnone => nomatch hnone⟩

theorem Serves.process_le (h : Serves host child) : child.process ≤ greatestProcess :=
  h.process ▸ h.lawful.number_le

theorem Serves.goes_after (h : Serves host child) (steps : List ChildStep) :
    Goes host child (child.after host steps) :=
  Child.goes_after h.lawful h.process_le steps

theorem Serves.goes (h : Serves host child) (hgoes : Goes host child child') :
    Serves host child' where
  lawful := h.lawful
  process := hgoes.process.trans h.process
  unchecked := hgoes.checked.trans h.unchecked
  collected output hout := by
    rcases hgoes.found output hout with hold | hnew
    · exact hgoes.complete output (h.collected output hold)
    · exact hnew

theorem Serves.after (h : Serves host child) (steps : List ChildStep) :
    Serves host (child.after host steps) :=
  h.goes (h.goes_after steps)

theorem Serves.report (h : Serves host child) (output : Output) :
    child.report host output = .output output := by
  simp [Child.report, h.unchecked]

/-- What has been collected once it could be is the output. -/
theorem Serves.collected_collect (h : Serves host child) :
    (child.collect host).collected = host.output? child.state := by
  cases hcollected : child.collected with
  | none => simp [collect, hcollected]
  | some output => simp [collect, hcollected, h.collected output hcollected]

theorem Serves.fst_ask (h : Serves host child) (otherwise : ChildAnswer) :
    (child.ask host otherwise).1 =
      match host.output? child.state with
      | some output => .output output
      | none => otherwise := by
  unfold ask
  dsimp only
  rw [h.collected_collect]
  cases host.output? child.state with
  | none => rfl
  | some output => exact (h.goes (goes_collect child)).report output

/-- Whoever asks when the output is complete is answered the output. -/
theorem Serves.fst_step_of_complete (h : Serves host child) {step : ChildStep}
    (houtput : host.output? child.state = some output) (hasks : step.asks = true) :
    (child.step host step).1 = .output output := by
  have hask : ∀ otherwise, (child.ask host otherwise).1 = .output output := by
    intro otherwise
    rw [h.fst_ask, houtput]
  have hawait : (child.await host).1 = .output output := by
    rw [await, h.collected_collect, houtput]
    exact hask .running
  cases step with
  | tryWait =>
      rw [Child.step]
      split
      · exact hawait
      · exact hask .running
  | wait => exact hawait
  | pause _ | signal _ => simp [ChildStep.asks] at hasks

/-- Whoever waits is answered the output when it is complete, if it ever is. -/
theorem Serves.exists_of_await (h : Serves host child) {time : Nat}
    (hremaining : host.remaining child.state = some time) :
    ∃ output, host.output? (host.pass child.state time) = some output ∧
      (child.await host).1 = .output output := by
  cases hcomplete : host.output? child.state with
  | some output =>
      have hasks : ChildStep.wait.asks = true := rfl
      exact ⟨output, h.lawful.output?_pass hcomplete time,
        h.fst_step_of_complete hcomplete hasks⟩
  | none =>
      obtain ⟨output, houtput⟩ := h.lawful.remaining hremaining
      refine ⟨output, houtput, ?_⟩
      have hlater := (h.goes (goes_pass h.lawful child time)).fst_ask .waiting
      rw [await, h.collected_collect, hcomplete, hremaining]
      exact hlater.trans (by rw [pass, houtput])

theorem Serves.ask_cases (h : Serves host child) (otherwise : ChildAnswer) :
    (child.ask host otherwise).1 = otherwise ∨
      ∃ output, (child.ask host otherwise).1 = .output output ∧
        host.output? (child.ask host otherwise).2.state = some output := by
  rw [h.fst_ask, snd_ask]
  cases hcomplete : host.output? child.state with
  | none => exact .inl rfl
  | some output => exact .inr ⟨output, rfl, hcomplete⟩

theorem Serves.await_cases (h : Serves host child) :
    (child.await host).1 = .running ∨ (child.await host).1 = .waiting ∨
      ∃ output, (child.await host).1 = .output output ∧
        host.output? (child.await host).2.state = some output := by
  unfold await
  split
  · exact (h.ask_cases .running).imp_right .inr
  · split
    · exact .inr ((h.goes (goes_pass h.lawful child _)).ask_cases .waiting)
    · exact .inr (.inl rfl)

/-- Whoever asks is answered the complete output, or that there is none. -/
theorem Serves.step_cases (h : Serves host child) {step : ChildStep} (hasks : step.asks = true) :
    (child.step host step).1 = .running ∨ (child.step host step).1 = .waiting ∨
      ∃ output, (child.step host step).1 = .output output ∧
        host.output? (child.step host step).2.state = some output := by
  cases step with
  | tryWait =>
      rw [Child.step]
      split
      · exact h.await_cases
      · exact (h.ask_cases .running).imp_right .inr
  | wait => exact h.await_cases
  | pause _ | signal _ => simp [ChildStep.asks] at hasks

/-- An output is answered only to a step that asks, and only when it is complete. -/
theorem Serves.complete_of_step (h : Serves host child) {step : ChildStep}
    (hanswer : (child.step host step).1 = .output output) :
    host.output? (child.step host step).2.state = some output := by
  by_cases hasks : step.asks = true
  · rcases h.step_cases hasks with hother | hother | ⟨found, hfound, hcomplete⟩
    · rw [hother] at hanswer
      cases hanswer
    · rw [hother] at hanswer
      cases hanswer
    · rw [hfound] at hanswer
      cases hanswer
      exact hcomplete
  · cases step with
    | tryWait | wait => exact absurd rfl hasks
    | pause time => cases hanswer
    | signal signal =>
        rw [Child.step, signalGroup] at hanswer
        split at hanswer
        · cases hanswer
        · dsimp only at hanswer
          split at hanswer <;> cases hanswer

end Child

/-! ### Programs that do little -/

namespace Plan

theorem ending_next (plan : Plan) (number : Nat) {stage : Stage} {ending : Ending}
    (h : (plan.host number).ending stage = some ending) :
    (plan.host number).ending (plan.next stage) = some ending := by
  cases stage with
  | running => cases h
  | behind _ | closed _ _ => exact h

theorem printed_next (plan : Plan) (number : Nat) {stage : Stage}
    {streams : List UInt8 × List UInt8} (h : (plan.host number).printed stage = some streams) :
    (plan.host number).printed (plan.next stage) = some streams := by
  cases stage with
  | running | behind _ => cases h
  | closed _ _ => exact h

/-- What is kept from one moment to the next is kept for any time. -/
theorem pass_induction {P : Stage → Prop} (plan : Plan) (h : ∀ stage, P stage → P (plan.next stage))
    {stage : Stage} (hstage : P stage) (time : Nat) : P (plan.pass stage time) := by
  induction time generalizing stage with
  | zero => exact hstage
  | succ time ih => exact ih (h stage hstage)

/-- A program that does little is run as the system runs any program. -/
theorem lawful_host (plan : Plan) {number : Nat} (h : number ≤ greatestProcess) :
    (plan.host number).Lawful where
  number_le := h
  ending_pass {_ ending} time hending :=
    pass_induction (P := fun stage => (plan.host number).ending stage = some ending) plan
      (fun _ => ending_next plan number) hending time
  ending_receive {stage _} signal hending := by
    cases stage with
    | running => cases hending
    | behind _ | closed _ _ => exact hending
  printed_pass {_ streams} time hprinted :=
    pass_induction (P := fun stage => (plan.host number).printed stage = some streams) plan
      (fun _ => printed_next plan number) hprinted time
  printed_receive {stage _} signal hprinted := by
    cases stage with
    | running | behind _ => cases hprinted
    | closed _ _ => exact hprinted
  remaining {stage time} hremaining := by
    obtain ⟨planned, late, guarded⟩ := plan
    cases stage with
    | running => cases planned <;> cases late <;> cases hremaining <;> exact ⟨_, rfl⟩
    | behind _ | closed _ _ =>
        cases hremaining
        exact ⟨_, rfl⟩

end Plan

namespace Child

variable {σ : Type} {host : Host σ} {child : Child σ} {output : Output}

/-! ### The answers of a run -/

/-- What is answered to the steps of a run, and which signals leave no trace in it. -/
structure Conduct (host : Host σ) (child : Child σ) (steps : List ChildStep) : Prop where
  /-- Whoever asks after an output has been answered is answered the same output. -/
  kept : ∀ (i j : Nat) (output : Output) (step : ChildStep), i < j →
    (child.answers host steps)[i]? = some (.output output) → steps[j]? = some step →
      step.asks = true → (child.answers host steps)[j]? = some (.output output)
  /-- A signal to a leader is delivered, while the program runs and after its end, unless the system
  refuses it. -/
  delivered : child.leader = true → ∀ (i : Nat) (signal : Signal),
    steps[i]? = some (.signal signal) →
      (∀ reason, host.answer (child.after host (steps.take i)).state signal ≠ .refused reason) →
        (child.answers host steps)[i]? = some .delivered
  /-- If the system refuses it, that is a failure to signal. -/
  denied : child.leader = true → ∀ (i : Nat) (signal : Signal) (reason : String),
    steps[i]? = some (.signal signal) →
      host.answer (child.after host (steps.take i)).state signal = .refused reason →
        (child.answers host steps)[i]? = some (.refused (child.denied signal reason))
  /-- A signal to a program that leads no group is refused, as it is not supported. -/
  refused : child.leader = false → ∀ (i : Nat) (signal : Signal),
    steps[i]? = some (.signal signal) →
      (child.answers host steps)[i]? = some (.refused child.notLeader)
  /-- Such a signal can be left out: all other answers are the same. -/
  apart : child.leader = false → ∀ (i : Nat) (signal : Signal), steps[i]? = some (.signal signal) →
    child.answers host (steps.eraseIdx i) = (child.answers host steps).eraseIdx i
  /-- If a signal is left out when the output is complete, all later answers are the same, except
  that another signal may then be refused. -/
  idle : ∀ (i j : Nat) (signal : Signal) (step : ChildStep), i < j →
    steps[i]? = some (.signal signal) →
      (host.output? (child.after host (steps.take i)).state).isSome →
        steps[j]? = some step → (step.sent? = none ∨ host.Permits) →
          (child.answers host (steps.eraseIdx i))[j - 1]? = (child.answers host steps)[j]?
  /-- An output that is complete stays the same, whatever happens. -/
  final : ∀ (i j : Nat) (output : Output), i ≤ j →
    host.output? (child.after host (steps.take i)).state = some output →
      host.output? (child.after host (steps.take j)).state = some output
  /-- When the output is complete whoever asks is answered it, however the program has ended. -/
  reported : ∀ (i : Nat) (output : Output) (step : ChildStep),
    host.output? (child.after host (steps.take i)).state = some output →
      steps[i]? = some step → step.asks = true →
        (child.answers host steps)[i]? = some (.output output)
  /-- Whoever waits while the output gets complete is answered it. -/
  waited : ∀ (i time : Nat),
    host.remaining (child.after host (steps.take i)).state = some time → steps[i]? = some .wait →
      ∃ output,
        host.output? (host.pass (child.after host (steps.take i)).state time) = some output ∧
          (child.answers host steps)[i]? = some (.output output)
  /-- Nobody who asks is ever refused. -/
  answered : ∀ (i : Nat) (step : ChildStep) (failure : Failure), steps[i]? = some step →
    step.asks = true → (child.answers host steps)[i]? ≠ some (.refused failure)
  /-- An output that is answered is the complete one. -/
  found : ∀ (i : Nat) (output : Output), (child.answers host steps)[i]? = some (.output output) →
    host.output? (child.after host (steps.take (i + 1))).state = some output

section Conduct

variable {steps : List ChildStep} {i j : Nat} {step : ChildStep} {signal : Signal}

theorem getElem?_answers_of_step (h : steps[i]? = some step) :
    (child.answers host steps)[i]? =
      some ((child.after host (steps.take i)).step host step).1 := by
  rw [getElem?_answers, h]
  rfl

/-- The handle after a step of a run. -/
theorem after_take_succ (h : steps[i]? = some step) :
    child.after host (steps.take (i + 1)) =
      ((child.after host (steps.take i)).step host step).2 := by
  rw [List.take_add_one, h, after_append]
  rfl

/-- A step that changes nothing can be left out. -/
theorem answers_eraseIdx (hstep : steps[i]? = some step)
    (h : ((child.after host (steps.take i)).step host step).2 =
      child.after host (steps.take i)) :
    child.answers host (steps.eraseIdx i) = (child.answers host steps).eraseIdx i := by
  obtain ⟨hi, rfl⟩ := List.getElem?_eq_some_iff.mp hstep
  have hsteps : steps = steps.take i ++ steps[i] :: steps.drop (i + 1) := by
    rw [← List.drop_eq_getElem_cons hi, List.take_append_drop]
  have hanswers : child.answers host steps = child.answers host (steps.take i) ++
      ((child.after host (steps.take i)).step host steps[i]).1 ::
        (child.after host (steps.take i)).answers host (steps.drop (i + 1)) := by
    refine (congrArg (child.answers host) hsteps).trans ?_
    rw [answers_append, answers, h]
  have hlength : (child.answers host (steps.take i)).length = i := by
    rw [length_answers, List.length_take, Nat.min_eq_left (Nat.le_of_lt hi)]
  rw [hanswers, List.eraseIdx_append_of_length_le (Nat.le_of_eq hlength), hlength, Nat.sub_self,
    List.eraseIdx_cons_zero, List.eraseIdx_eq_take_drop_succ, answers_append]

/-- What is complete after some steps of a run is complete after more. -/
theorem Serves.complete_after_take (h : Serves host child) (hij : i ≤ j)
    (hcomplete : host.output? (child.after host (steps.take i)).state = some output) :
    host.output? (child.after host (steps.take j)).state = some output := by
  have hcut : steps.take i ++ (steps.take j).drop i = steps.take j := by
    have htake := List.take_append_drop i (steps.take j)
    rwa [List.take_take, Nat.min_eq_left hij] at htake
  rw [← hcut, after_append]
  exact ((h.after _).goes_after _).complete output hcomplete

theorem Serves.answer_of_complete (h : Serves host child)
    (hcomplete : host.output? (child.after host (steps.take i)).state = some output)
    (hstep : steps[i]? = some step) (hasks : step.asks = true) :
    (child.answers host steps)[i]? = some (.output output) := by
  rw [getElem?_answers_of_step hstep, (h.after _).fst_step_of_complete hcomplete hasks]

theorem Serves.complete_of_answer (h : Serves host child)
    (hanswer : (child.answers host steps)[i]? = some (.output output)) :
    host.output? (child.after host (steps.take (i + 1))).state = some output := by
  rw [getElem?_answers] at hanswer
  obtain ⟨step, hstep, hfst⟩ := Option.map_eq_some_iff.mp hanswer
  rw [after_take_succ hstep]
  exact (h.after _).complete_of_step hfst

theorem Serves.answer_of_permitted (h : Serves host child) (hleader : child.leader = true)
    (hstep : steps[i]? = some (.signal signal))
    (hanswer : ∀ reason,
      host.answer (child.after host (steps.take i)).state signal ≠ .refused reason) :
    (child.answers host steps)[i]? = some .delivered := by
  have hgoes := h.goes_after (steps.take i)
  obtain ⟨state, -, heq⟩ := signalGroup_of_permitted (hgoes.leader.trans hleader)
    (h.after _).process_le hanswer
  rw [getElem?_answers_of_step hstep, Child.step, heq]

theorem Serves.answer_of_refused (h : Serves host child) (hleader : child.leader = true)
    {reason : String} (hstep : steps[i]? = some (.signal signal))
    (hanswer : host.answer (child.after host (steps.take i)).state signal = .refused reason) :
    (child.answers host steps)[i]? = some (.refused (child.denied signal reason)) := by
  have hgoes := h.goes_after (steps.take i)
  rw [getElem?_answers_of_step hstep, Child.step,
    signalGroup_of_refused (hgoes.leader.trans hleader) (h.after _).process_le hanswer, denied,
    hgoes.process, denied]

theorem Serves.answer_of_not_leader (h : Serves host child) (hleader : child.leader = false)
    (hstep : steps[i]? = some (.signal signal)) :
    (child.answers host steps)[i]? = some (.refused child.notLeader) := by
  have hgoes := h.goes_after (steps.take i)
  rw [getElem?_answers_of_step hstep, Child.step,
    signalGroup_of_not_leader (hgoes.leader.trans hleader), notLeader, hgoes.process, notLeader]

/-- The answer to a step when the output is complete, if the system does not refuse it. -/
def settled (child : Child σ) (output : Output) : ChildStep → ChildAnswer
  | .pause _ => .nothing
  | .tryWait => .output output
  | .wait => .output output
  | .signal _ => if child.leader then .delivered else .refused child.notLeader

/-- **When the output is complete the answer to a step does not depend on what has been done.** -/
theorem Serves.answer_eq_settled (h : Serves host child)
    (hcomplete : host.output? (child.after host (steps.take i)).state = some output)
    (hstep : steps[i]? = some step) (hsent : step.sent? = none ∨ host.Permits) :
    (child.answers host steps)[i]? = some (child.settled output step) := by
  cases step with
  | pause time => exact getElem?_answers_of_step hstep
  | tryWait | wait => exact h.answer_of_complete hcomplete hstep rfl
  | signal signal =>
      have hpermits : host.Permits := hsent.resolve_left (by simp [ChildStep.sent?])
      cases hleader : child.leader with
      | true =>
          rw [h.answer_of_permitted hleader hstep (hpermits _ signal), settled, if_pos hleader]
      | false => rw [h.answer_of_not_leader hleader hstep, settled, if_neg (by simp [hleader])]

/-- Steps behind one that is left out stand one place further to the front. -/
theorem getElem?_eraseIdx_pred (hij : i < j) : (steps.eraseIdx i)[j - 1]? = steps[j]? := by
  rw [List.getElem?_eraseIdx, if_neg (by omega), Nat.sub_add_cancel (by omega)]

theorem Serves.answer_eraseIdx (h : Serves host child) (hij : i < j)
    (hcomplete : host.output? (child.after host (steps.take i)).state = some output)
    (hstep : steps[j]? = some step) (hsent : step.sent? = none ∨ host.Permits) :
    (child.answers host (steps.eraseIdx i))[j - 1]? = (child.answers host steps)[j]? := by
  have hfront : (steps.eraseIdx i).take i = steps.take i :=
    List.take_eraseIdx_eq_take_of_le steps i i (Nat.le_refl i)
  have hother : host.output? (child.after host ((steps.eraseIdx i).take (j - 1))).state =
      some output :=
    h.complete_after_take (Nat.le_sub_one_of_lt hij) (by rwa [hfront])
  have hother_step : (steps.eraseIdx i)[j - 1]? = some step := by
    rwa [getElem?_eraseIdx_pred hij]
  rw [h.answer_eq_settled hother hother_step hsent,
    h.answer_eq_settled (h.complete_after_take (Nat.le_of_lt hij) hcomplete) hstep hsent]

/-- The answers to steps on a handle, for all that the system may do and all steps. -/
theorem Serves.conduct (h : Serves host child) (steps : List ChildStep) :
    Conduct host child steps where
  kept _ _ _ _ hij houtput hstep hasks :=
    h.answer_of_complete (h.complete_after_take hij (h.complete_of_answer houtput)) hstep hasks
  delivered hleader _ _ hstep hanswer := h.answer_of_permitted hleader hstep hanswer
  denied hleader _ _ _ hstep hanswer := h.answer_of_refused hleader hstep hanswer
  refused hleader _ _ hstep := h.answer_of_not_leader hleader hstep
  apart hleader i signal hstep := by
    refine answers_eraseIdx hstep ?_
    rw [Child.step, signalGroup_of_not_leader ((h.goes_after _).leader.trans hleader)]
  idle _ _ _ _ hij _ hcomplete hstep hsent := by
    obtain ⟨output, houtput⟩ := Option.isSome_iff_exists.mp hcomplete
    exact h.answer_eraseIdx hij houtput hstep hsent
  final _ _ _ hij hcomplete := h.complete_after_take hij hcomplete
  reported _ _ _ hcomplete hstep hasks := h.answer_of_complete hcomplete hstep hasks
  waited _ _ hremaining hstep := by
    obtain ⟨output, hcomplete, hanswer⟩ := (h.after _).exists_of_await hremaining
    refine ⟨output, hcomplete, ?_⟩
    rw [getElem?_answers_of_step hstep, Child.step, hanswer]
  answered _ _ failure hstep hasks := by
    rw [getElem?_answers_of_step hstep]
    rcases (h.after (steps.take _)).step_cases hasks with hother | hother | ⟨output, hother, -⟩
    all_goals
      rw [hother]
      simp
  found _ _ houtput := h.complete_of_answer houtput

end Conduct

/-- **What handles answer**, for every program that is started with or without a group of its own,
whatever the system makes of it, and for all steps. -/
theorem conduct_start (hlawful : host.Lawful) (expression : Expression) (steps : List ChildStep) :
    Conduct host (start host expression) steps ∧
      Conduct host (startGroupLeader host expression) steps :=
  ⟨(serves_start hlawful expression).conduct steps,
    (serves_startGroupLeader hlawful expression).conduct steps⟩

/-- A program that ends with status 3 and leaves a process behind that still prints a word. -/
def leavingWord : Host Stage :=
  Plan.host ⟨some (.ofStatus 3), some [108, 97, 116, 101], none⟩ 4242

/-- A command as it is written, without more. -/
def plainly : Expression :=
  ⟨true, false⟩

/-- Steps before and after the end, with a signal that comes too late. -/
def stepsAcrossEnd : List ChildStep :=
  [.tryWait, .wait, .signal .kill, .tryWait, .wait]

theorem conduct_start_leavingWord :
    leavingWord.Lawful ∧
      (Conduct leavingWord (start leavingWord plainly) stepsAcrossEnd ∧
        Conduct leavingWord (startGroupLeader leavingWord plainly) stepsAcrossEnd) ∧
      (startGroupLeader leavingWord plainly).answers leavingWord stepsAcrossEnd =
        [.running, .output ⟨.exit 3, [108, 97, 116, 101], []⟩, .delivered,
          .output ⟨.exit 3, [108, 97, 116, 101], []⟩,
          .output ⟨.exit 3, [108, 97, 116, 101], []⟩] :=
  ⟨Plan.lawful_host _ (by decide),
    conduct_start (Plan.lawful_host _ (by decide)) plainly stepsAcrossEnd, by decide⟩

/-- A program that runs for somebody else, so that the system lets no signal through to it. -/
def foreign : Host Stage :=
  Plan.host ⟨none, none, some "EPERM: Operation not permitted"⟩ 4242

/-- A program that ends with a status of more than eight bits. -/
def wideStatus : Host Stage :=
  (Plan.exiting 256).host 4242

/-- **What is not promised.**  A status is reported as far as the system keeps it, so one that is not
zero can be reported as success.  The system may refuse a signal to a leader.  And a signal to a
leader that has ended can change what is answered later, as long as processes that it has left behind
hold its streams open. -/
theorem answers_not_promised :
    wideStatus.Lawful ∧ foreign.Lawful ∧ leavingWord.Lawful ∧
      (start wideStatus plainly).answers wideStatus [.wait] = [.output ⟨.exit 0, [], []⟩] ∧
      (startGroupLeader foreign plainly).answers foreign [.signal .terminate] =
        [.refused (.signal
          "Failed to send SIGTERM to process group 4242: EPERM: Operation not permitted")] ∧
      leavingWord.ending
          ((startGroupLeader leavingWord plainly).after leavingWord [.pause 1]).state =
        some (.exit 3) ∧
      (startGroupLeader leavingWord plainly).answers leavingWord [.pause 1, .wait] =
        [.nothing, .output ⟨.exit 3, [108, 97, 116, 101], []⟩] ∧
      (startGroupLeader leavingWord plainly).answers leavingWord
          [.pause 1, .signal .kill, .wait] =
        [.nothing, .delivered, .output ⟨.exit 3, [], []⟩] :=
  ⟨Plan.lawful_host _ (by decide), Plan.lawful_host _ (by decide),
    Plan.lawful_host _ (by decide), by decide, by decide, by decide, by decide, by decide⟩

/-- If a bad end were a failure, waiting would fail. -/
example : (startAs leavingWord plainly true).answers leavingWord [.wait] =
    [.refused (.io "bad end")] := by
  decide

end Child

end Workbench
