import LedgerApp.Continuations
import LedgerApp.Environment

/-!
Two platforms that are environments: the contexts that queue, and Node as long as no handler raises
within the chain of a request. Their runs are runs in which each frame returns before anything else
is done.
-/

namespace LedgerApp

open Bytes Json11

variable {F : Double} {s : State} {e : EnvState}

structure Scheduled (s : State) (e : EnvState) : Prop where
  toWorld : e.toWorld = s.toWorld
  queue : e.queue = s.queue
  active : e.active = []

theorem length_call (task : Task) (cell : Cell) (cells cells' : List (Option Task))
    (getObserver : HandleRef → Option Observer)
    : (task.call F cell cells getObserver).length
        = (task.call F cell cells' getObserver).length := by
  unfold Task.call
  split
  . rfl
  . rw [TxReply.call_eq, TxReply.call_eq]
    split
    . unfold respondBy
      split
      . split
        . rfl
        . rfl
      . split
        . rfl
        . rfl
    . rfl
  . rfl
  . rfl

theorem rest_perform {frame : Frame} {w : World} {call : Call} {calls : List Call}
    (h : frame.rest F w = call :: calls) (hlast : ExecuteLast (call :: calls))
    : frame.next.rest F (w.perform frame.origin [call]) = calls := by
  unfold Frame.rest Frame.next at *
  generalize hbody : frame.body = body at h
  cases body with
  | entry made =>
    dsimp only [Body.calls] at h ⊢
    rw [← List.drop_drop, h]
    rfl
  | run runnable =>
    dsimp only [Body.calls] at h ⊢
    rcases calls_cases (call :: calls) with
      hnil | ⟨context, task, later, heq⟩ | ⟨other, later, heq, hcall⟩
    . contradiction
    . have hnone : calls = [] := by
        rw [(List.cons.inj heq).1] at hlast
        exact hlast
      rw [hnone] at h ⊢
      have hlength := congrArg List.length h
      simp only [List.length_drop, List.length_singleton] at hlength
      apply List.drop_eq_nil_of_le
      unfold World.body at hlength ⊢
      rw [length_call _ _ _ w.cells]
      dsimp only [World.perform]
      omega
    . rw [← (List.cons.inj heq).1] at hcall
      have htasks : tasks [call] = [] := by
        cases call with
        | execute context task => exact absurd rfl (hcall context task)
        | _ => rfl
      have hsame : (w.perform frame.origin [call]).body F runnable = w.body F runnable := by
        simp [World.body, World.perform, htasks]
      rw [hsame, ← List.drop_drop, h]
      rfl

theorem perform_nil (s : State) (origin : Nat) : s.perform origin [] = s := by
  simp [State.perform, World.perform, issued, tasks, submitted]

theorem perform_cons (s : State) (origin : Nat) (call : Call) (calls : List Call)
    : s.perform origin (call :: calls) = (s.perform origin [call]).perform origin calls := by
  cases call with
  | get impl url header callback =>
    simp [State.perform, World.perform, issued, tasks, submitted]
  | _ => simp [State.perform, World.perform, issued, tasks, submitted]

variable {ok : EnvState → EnvAction → Prop}

-- the only frame there is makes its calls one after the other and returns
theorem steps_return (hproceed : ∀ e index, ok e (.proceed index)) {frame : Frame}
    {calls : List Call} (hworld : e.toWorld = s.toWorld) (hqueue : e.queue = s.queue)
    (hactive : e.active = [frame]) (hlast : ExecuteLast calls)
    (hcalls : frame.rest F s.toWorld = calls)
    : ∃ e', (environment F).Steps ok e e' ∧ Scheduled (s.perform frame.origin calls) e' := by
  rw [← hworld] at hcalls
  induction calls generalizing s e frame with
  | nil =>
    have hstep : (environment F).step e (.proceed 0) = some { e with active := [] } := by
      simp [environment, envStep, hactive, EnvState.proceed, hcalls]
    refine ⟨{ e with active := [] }, .step (.refl e) (hproceed e 0) hstep, ?_⟩
    rw [perform_nil]
    exact ⟨hworld, hqueue, rfl⟩
  | cons call calls ih =>
    let next := EnvState.make { e with active := [] } frame call
    have hstep : (environment F).step e (.proceed 0) = some next := by
      simp [environment, envStep, hactive, EnvState.proceed, hcalls, next]
    have hnext : next.toWorld = (s.perform frame.origin [call]).toWorld := by
      simp [next, EnvState.make, State.perform, hworld]
    have hqueue' : next.queue = (s.perform frame.origin [call]).queue := by
      simp [next, EnvState.make, State.perform, hworld, hqueue]
    have hrest := rest_perform hcalls hlast
    rcases ih hnext hqueue' rfl (Sequential.tail hlast) hrest with ⟨e', hsteps, hscheduled⟩
    have hfirst : (environment F).Steps ok e next := .step (.refl e) (hproceed e 0) hstep
    refine ⟨e', hfirst.trans hsteps, ?_⟩
    rw [perform_cons]
    exact hscheduled

theorem steps_enter (hproceed : ∀ e index, ok e (.proceed index)) {e₀ : EnvState}
    {action : EnvAction} {origin : Nat} {event : Event} {body : Body} (hok : ok e₀ action)
    (hstep : envStep F e₀ action = some (e.enter origin event body))
    (hworld : e.toWorld = s.toWorld) (hqueue : e.queue = s.queue) (hactive : e.active = [])
    (hlast : ExecuteLast (body.calls F s.toWorld))
    : ∃ e', (environment F).Steps ok e₀ e'
        ∧ Scheduled (State.perform { toWorld := s.toWorld.log event, queue := s.queue } origin
            (body.calls F s.toWorld)) e' := by
  let frame : Frame := { origin, body, made := 0 }
  let logged : State := { toWorld := s.toWorld.log event, queue := s.queue }
  have hlogged : (e.enter origin event body).toWorld = logged.toWorld := by
    simp [EnvState.enter, hworld, logged]
  have hframe : (e.enter origin event body).active = [frame] := by
    simp [EnvState.enter, hactive, frame]
  have hcalls : frame.rest F logged.toWorld = body.calls F s.toWorld := by
    cases body with
    | entry calls => rfl
    | run runnable => rfl
  rcases steps_return hproceed hlogged hqueue hframe hlast hcalls with ⟨e', hsteps, hscheduled⟩
  have hfirst : (environment F).Steps ok e₀ (e.enter origin event body) :=
    .step (.refl e₀) hok hstep
  exact ⟨e', hfirst.trans hsteps, hscheduled⟩

namespace Scheduled

theorem start {handle : HandleRef} {observer : Observer} {addresses : List Str}
    {options : ApiOptions} {response : HandleResponse} {t : State}
    (hproceed : ∀ e index, ok e (.proceed index)) (he : Scheduled s e)
    (hok : ok e (.start handle observer addresses options response))
    (hstep : step F s (.start handle observer addresses options response) = some t)
    : ∃ e', (environment F).Steps ok e e' ∧ Scheduled t e' := by
  simp only [step] at hstep
  split at hstep
  . next lib start calls hstart =>
    simp only [Option.some.injEq] at hstep
    rw [← hstep]
    have henter : envStep F e (.start handle observer addresses options response)
        = some (EnvState.enter { e with lib := lib } s.lib.now (.started s.lib.now start)
          (.entry calls)) := by
      simp [envStep, he.toWorld, hstart]
    have hworld : { e.toWorld with lib := lib } = { s.toWorld with lib := lib } := by
      rw [he.toWorld]
    have hlast : ExecuteLast calls := by
      rw [calls_of_start hstart]
      exact executeLast_start start
    let started : State := { s with lib := lib }
    exact steps_enter (s := started) hproceed hok henter hworld he.queue he.active hlast
  . contradiction

theorem deliver {index : Nat} {reply : Reply} {t : State}
    (hproceed : ∀ e index, ok e (.proceed index)) (he : Scheduled s e)
    (hok : ok e (.deliver index reply false)) (hstep : step F s (.deliver index reply) = some t)
    : ∃ e', (environment F).Steps ok e e' ∧ Scheduled t e' := by
  simp only [step] at hstep
  split at hstep
  . next request hrequest =>
    simp only [Option.some.injEq] at hstep
    rw [← hstep]
    have henter : envStep F e (.deliver index reply false)
        = some (EnvState.enter { e with requests := s.requests.eraseIdx index } request.origin
          (.replied request.origin request.callback.cb reply)
          (.entry (request.callback.on reply))) := by
      simp [envStep, he.toWorld, hrequest]
    have hworld : { e.toWorld with requests := s.requests.eraseIdx index }
        = { s.toWorld with requests := s.requests.eraseIdx index } := by
      rw [he.toWorld]
    let delivered : State := { s with requests := s.requests.eraseIdx index }
    exact steps_enter (s := delivered) hproceed hok henter hworld he.queue he.active
      (executeLast_on request.callback reply)
  . contradiction

theorem run {index : Nat} {t : State} (hproceed : ∀ e index, ok e (.proceed index))
    (he : Scheduled s e) (hok : ok e (.run index)) (hstep : step F s (.run index) = some t)
    : ∃ e', (environment F).Steps ok e e' ∧ Scheduled t e' := by
  simp only [step] at hstep
  split at hstep
  . next runnable hrunnable =>
    simp only [Option.some.injEq] at hstep
    rw [← hstep]
    have henter : envStep F e (.run index)
        = some (EnvState.enter { e with queue := s.queue.eraseIdx index } runnable.origin
          (.ran runnable) (.run runnable)) := by
      simp [envStep, he.queue, hrunnable]
    let taken : State := { s with queue := s.queue.eraseIdx index }
    exact steps_enter (s := taken) hproceed hok henter he.toWorld rfl he.active
      (executeLast_call _ _ _ _)
  . contradiction

theorem drop {cell : Cell} {t : State} (he : Scheduled s e) (hok : ok e (.drop cell))
    (hstep : step F s (.drop cell) = some t)
    : ∃ e', (environment F).Steps ok e e' ∧ Scheduled t e' := by
  simp only [step] at hstep
  split at hstep
  . next hcell =>
    simp only [Option.some.injEq] at hstep
    rw [← hstep]
    have hholds : e.holds cell = false := by
      simpa [EnvState.holds, he.queue, he.active] using hcell.2
    have hdrop : (environment F).step e (.drop cell)
        = some { e with cells := s.cells.set cell none } := by
      simp [environment, envStep, he.toWorld, hcell.1, hholds]
    refine ⟨_, .step (.refl e) hok hdrop, ?_, he.queue, he.active⟩
    simp [he.toWorld]
  . contradiction

end Scheduled

def Action.scheduled : Action → EnvAction
  | .createApi httpImpl threadDispatcher => .createApi httpImpl threadDispatcher
  | .observerTransactionList api => .observerTransactionList api
  | .start handle observer addresses options response =>
    .start handle observer addresses options response
  | .deliver index reply => .deliver index reply false
  | .run index => .run index
  | .drop cell => .drop cell

theorem Scheduled.step {action : Action} {t : State} (hproceed : ∀ e index, ok e (.proceed index))
    (he : Scheduled s e) (hok : ok e action.scheduled) (hstep : LedgerApp.step F s action = some t)
    : ∃ e', (environment F).Steps ok e e' ∧ Scheduled t e' := by
  cases action with
  | createApi httpImpl threadDispatcher =>
    rw [step_createApi hstep]
    have hlib : (environment F).step e (.createApi httpImpl threadDispatcher)
        = some { e with lib := e.lib.createApi httpImpl threadDispatcher } := rfl
    refine ⟨_, .step (.refl e) hok hlib, ?_, he.queue, he.active⟩
    simp [he.toWorld]
  | observerTransactionList api =>
    rcases step_observerTransactionList hstep with ⟨lib, hlib, rfl⟩
    have hsame : (environment F).step e (.observerTransactionList api)
        = some { e with lib := lib } := by
      simp [environment, envStep, he.toWorld, hlib]
    refine ⟨_, .step (.refl e) hok hsame, ?_, he.queue, he.active⟩
    simp [he.toWorld]
  | start handle observer addresses options response => exact he.start hproceed hok hstep
  | deliver index reply => exact he.deliver hproceed hok hstep
  | run index => exact he.run hproceed hok hstep
  | drop cell => exact he.drop hok hstep

theorem machine_schedules : System.Simulates (machine F) (environment F) System.free Scheduled := by
  refine ⟨⟨rfl, rfl, rfl⟩, ?_⟩
  intro s action t e he _ hstep
  exact he.step (fun _ _ => trivial) trivial hstep

variable {υ : Type} {handlers : Handlers υ} {user : υ}

theorem node_schedules {n : NodeState υ}
    (hn : (node F handlers user).Reachable (fun n action => quiet handlers n action = true) n)
    : ∃ e, (environment F).Reachable System.free e ∧ Scheduled n.queued e := by
  rcases node_refines.reachable hn with ⟨_, hreachable, _, rfl⟩
  exact machine_schedules.reachable hreachable

end LedgerApp
