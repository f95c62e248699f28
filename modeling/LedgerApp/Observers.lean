import LedgerApp.Causality
import LedgerApp.Lemmas.Environment

/-!
The observer that an update goes to. A handle has one observer, which each `start` on it overwrites,
and the callback of a `start` reads it after `respond` has returned. What happens inside of
`respond` comes before that, so the calls are taken one by one.
-/

namespace LedgerApp

open Bytes Json11

variable {F : Double} {s s' : EnvState}

-- the observer of the last `start` on a handle
def registered (handle : HandleRef) (trace : List Event) : Option Observer :=
  (trace.filterMap fun
    | .started _ start => if start.handle = handle then some start.observer else none
    | _ => none).getLast?

-- when the callback of a `start` reads the observer, for the update that it submits, the last
-- `start` on the handle so far has the same observer
def current (F : Double) (s : EnvState) : EnvAction → Bool
  | .proceed index =>
    match s.active[index]? with
    | some frame =>
      match frame.rest F s.toWorld with
      | .execute _ (.update _) :: _ => s.trace.all fun
        | .started owner start =>
          owner != frame.origin || registered start.handle s.trace == some start.observer
        | _ => true
      | _ => true
    | none => true
  | _ => true

theorem registered_append (handle : HandleRef) (t : List Event) {u : List Event}
    (hu : ∀ origin start, .started origin start ∉ u)
    : registered handle (t ++ u) = registered handle t := by
  have hnil : (u.filterMap fun
      | .started _ start => if start.handle = handle then some start.observer else none
      | _ => none) = [] := by
    rw [List.filterMap_eq_nil_iff]
    intro event hevent
    cases event with
    | started origin start => exact absurd hevent (hu origin start)
    | _ => rfl
  unfold registered
  rw [List.filterMap_append, hnil, List.append_nil]

theorem registered_started (handle : HandleRef) (t : List Event) (origin : Nat) (start : Start)
    : registered handle (t ++ [.started origin start])
        = if start.handle = handle then some start.observer else registered handle t := by
  unfold registered
  rw [List.filterMap_append]
  split
  . next h => simp [h]
  . next h => simp [h]

-- the observer of a handle is the one that was registered last
def Registered (s : EnvState) : Prop :=
  ∀ handle observer, registered handle s.trace = some observer →
    s.lib.getObserver handle = some observer

theorem Registered.step {action : EnvAction} (hs : Registered s) (h : envStep F s action = some s')
    : Registered s' := by
  intro handle observer hregistered
  rcases (envStep_lib h).2 with ⟨events, htrace, hnone, hobserver⟩
    | ⟨self, given, start, _, _, _, _, hstarted, htrace⟩
  . rw [htrace, registered_append handle s.trace hnone] at hregistered
    exact hobserver handle observer (hs handle observer hregistered)
  . rw [htrace, registered_started, hstarted.handle_eq, hstarted.observer_eq] at hregistered
    rw [hstarted.getObserver]
    by_cases hself : handle = self
    . rw [if_pos hself.symm] at hregistered
      rw [if_pos hself]
      exact hregistered
    . rw [if_neg (Ne.symm hself)] at hregistered
      rw [if_neg hself]
      exact hs handle observer hregistered

theorem registered_of_reachable {ok : EnvState → EnvAction → Prop}
    (h : (environment F).Reachable ok s) : Registered s := by
  apply h.invariant
  . simp [Registered, environment, EnvState.init, World.init, registered]
  . intro t action u _ ht _ hstep
    exact ht.step hstep

theorem current_proceed {index : Nat} {frame : Frame} {context : Context} {closure : Update}
    {calls : List Call} {start : Start} (h : current F s (.proceed index) = true)
    (hframe : s.active[index]? = some frame)
    (hrest : frame.rest F s.toWorld = .execute context (.update closure) :: calls)
    (hstarted : .started frame.origin start ∈ s.trace)
    : registered start.handle s.trace = some start.observer := by
  simp only [current, hframe, hrest, List.all_eq_true] at h
  have := h _ hstarted
  simpa using this

/-! ## Whose observer a call is for -/

def Owned (trace : List Event) (origin : Nat) (observer : Option Observer) : Prop :=
  ∃ start, .started origin start ∈ trace ∧ observer = some start.observer

def Task.Routed (trace : List Event) (origin : Nat) : Task → Prop
  | .update closure => Owned trace origin closure.observer
  | _ => True

def Call.Routed (trace : List Event) (origin : Nat) : Call → Prop
  | .execute _ task => task.Routed trace origin
  | .onUpdate observer _ => Owned trace origin (some observer)
  | _ => True

def Body.Routed (trace : List Event) (origin : Nat) : Body → Prop
  | .entry calls => ∀ call ∈ calls, call.Routed trace origin
  | .run runnable => runnable.task.Routed trace origin

section

variable {t u : List Event} {origin : Nat}

theorem Owned.mono {observer : Option Observer} (h : Owned t origin observer) (hle : t ⊆ u)
    : Owned u origin observer := by
  rcases h with ⟨start, hstarted, hobserver⟩
  exact ⟨start, hle hstarted, hobserver⟩

theorem Task.Routed.mono {task : Task} (h : task.Routed t origin) (hle : t ⊆ u)
    : task.Routed u origin := by
  cases task with
  | update closure => exact Owned.mono h hle
  | _ => trivial

theorem Call.Routed.mono {call : Call} (h : call.Routed t origin) (hle : t ⊆ u)
    : call.Routed u origin := by
  cases call with
  | execute context task => exact Task.Routed.mono h hle
  | onUpdate observer newData => exact Owned.mono h hle
  | _ => trivial

theorem Body.Routed.mono {body : Body} (h : body.Routed t origin) (hle : t ⊆ u)
    : body.Routed u origin := by
  cases body with
  | entry calls => exact fun call hmem => (h call hmem).mono hle
  | run runnable => exact Task.Routed.mono h hle

theorem routed_start (start : Start) (trace : List Event) (origin : Nat)
    : (Body.entry (start.call start.testnetMode)).Routed trace origin := by
  intro call hmem
  rcases Start.mem_call hmem with ⟨impl, rfl⟩
  trivial

theorem routed_on (callback : HttpCallback) (reply : Reply) (trace : List Event) (origin : Nat)
    : (Body.entry (callback.on reply)).Routed trace origin := by
  intro call hmem
  rcases HttpCallback.mem_on hmem with ⟨context, rfl⟩
  trivial

end

/-! ## Every state -/

structure Routed (s : EnvState) : Prop where
  queue : ∀ runnable ∈ s.queue, runnable.task.Routed s.trace runnable.origin
  active : ∀ frame ∈ s.active, frame.body.Routed s.trace frame.origin
  called : ∀ origin call, .called origin call ∈ s.trace → call.Routed s.trace origin

namespace Routed

theorem call {index : Nat} {frame : Frame} {call : Call} {calls : List Call} {start : Start}
    (hs : Routed s) (hregistered : Registered s) (hok : current F s (.proceed index) = true)
    (hframe : s.active[index]? = some frame) (hrest : frame.rest F s.toWorld = call :: calls)
    (hfits : frame.Fits s.toWorld start) : call.Routed s.trace frame.origin := by
  have hbody := hs.active frame (List.mem_of_getElem? hframe)
  have hown := hfits.body
  have hmem := mem_rest hrest
  generalize frame.body = body at hbody hown hmem
  cases body with
  | entry made => exact hbody call hmem
  | run runnable =>
    have hmakes := Task.makes_of_mem hmem
    cases call with
    | execute context later =>
      cases later with
      | update closure =>
        rcases hmakes with ⟨reply, resp, json, htask, _, _, _, rfl⟩
        have hhandler := hown.1.own
        rw [htask] at hhandler
        rcases hhandler with ⟨enclosing, token, rfl, _⟩
        have hcurrent := current_proceed hok hframe hrest hfits.started
        exact ⟨start, hfits.started, hregistered _ _ hcurrent⟩
      | _ => trivial
    | onUpdate observer newData =>
      rcases hmakes with ⟨closure, htask, hobserver, _⟩
      rw [Body.Routed, htask, Task.Routed, hobserver] at hbody
      exact hbody
    | _ => trivial

theorem enter {origin : Nat} {event : Event} {body : Body} (hs : Routed s)
    (hbody : body.Routed (s.trace ++ [event]) origin)
    (hcalled : ∀ other call, event ≠ .called other call) : Routed (s.enter origin event body) where
  queue := fun runnable hmem => (hs.queue runnable hmem).mono (List.subset_append_left _ _)
  active := by
    intro frame hmem
    rcases List.mem_append.mp hmem with hmem | hmem
    . exact (hs.active frame hmem).mono (List.subset_append_left _ _)
    . rw [List.mem_singleton.mp hmem]
      exact hbody
  called := by
    intro other call hmem
    rcases List.mem_append.mp hmem with hmem | hmem
    . exact (hs.called other call hmem).mono (List.subset_append_left _ _)
    . exact absurd (List.mem_singleton.mp hmem).symm (hcalled other call)

theorem make {frame : Frame} {call : Call} (hs : Routed s)
    (hbody : frame.body.Routed s.trace frame.origin) (hcall : call.Routed s.trace frame.origin)
    : Routed (s.make frame call) where
  queue := by
    intro runnable hmem
    rcases List.mem_append.mp hmem with hmem | hmem
    . exact (hs.queue runnable hmem).mono (List.subset_append_left _ _)
    . cases call with
      | execute context task =>
        rw [show runnable = ⟨frame.origin, s.cells.length, context, task⟩ from
          List.mem_singleton.mp hmem]
        exact Task.Routed.mono hcall (List.subset_append_left _ _)
      | _ => simp [submitted] at hmem
  active := by
    intro other hmem
    rcases List.mem_append.mp hmem with hmem | hmem
    . exact (hs.active other hmem).mono (List.subset_append_left _ _)
    . rw [List.mem_singleton.mp hmem]
      exact Body.Routed.mono hbody (List.subset_append_left _ _)
  called := by
    intro other made hmem
    rcases List.mem_append.mp hmem with hmem | hmem
    . exact (hs.called other made hmem).mono (List.subset_append_left _ _)
    . rw [List.map_singleton, List.mem_singleton, Event.called.injEq] at hmem
      rw [hmem.1, hmem.2]
      exact hcall.mono (List.subset_append_left _ _)

theorem step {action : EnvAction} (hs : Routed s) (hregistered : Registered s)
    (hfitted : Fitted s) (hok : current F s action = true) (h : envStep F s action = some s')
    : Routed s' := by
  cases action with
  | createApi httpImpl threadDispatcher =>
    rw [envStep_createApi h]
    exact ⟨hs.queue, hs.active, hs.called⟩
  | observerTransactionList api =>
    rcases envStep_observerTransactionList h with ⟨lib, _, rfl⟩
    exact ⟨hs.queue, hs.active, hs.called⟩
  | start handle observer addresses options response =>
    rcases envStep_start h with ⟨lib, start, _, rfl⟩
    have hrest : Routed { s with lib := lib } := ⟨hs.queue, hs.active, hs.called⟩
    exact hrest.enter (routed_start start _ _) (by simp)
  | deliver index reply keep =>
    rcases envStep_deliver h with ⟨request, _, rfl⟩
    let requests := if keep then s.requests else s.requests.eraseIdx index
    have hrest : Routed { s with requests := requests } := ⟨hs.queue, hs.active, hs.called⟩
    exact hrest.enter (routed_on request.callback reply _ _) (by simp)
  | run index =>
    rcases envStep_run h with ⟨runnable, hrunnable, rfl⟩
    have hrest : Routed { s with queue := s.queue.eraseIdx index } :=
      ⟨fun other hmem => hs.queue other (List.mem_of_mem_eraseIdx hmem), hs.active, hs.called⟩
    have hbody := hs.queue runnable (List.mem_of_getElem? hrunnable)
    exact hrest.enter (hbody.mono (List.subset_append_left _ _)) (by simp)
  | proceed index =>
    rcases envStep_proceed h with ⟨frame, hframe, hcases⟩
    have hrest : Routed { s with active := s.active.eraseIdx index } :=
      ⟨hs.queue, fun other hmem => hs.active other (List.mem_of_mem_eraseIdx hmem), hs.called⟩
    rcases hcases with ⟨_, rfl⟩ | ⟨call, calls, hcall, rfl⟩
    . exact hrest
    . have hmem := List.mem_of_getElem? hframe
      rcases hfitted.active frame hmem with ⟨start, hfits⟩
      exact hrest.make (hs.active frame hmem) (hs.call hregistered hok hframe hcall hfits)
  | drop cell =>
    rcases envStep_drop h with ⟨_, rfl⟩
    exact ⟨hs.queue, hs.active, hs.called⟩

end Routed

theorem routed_of_reachable
    (h : (environment F).Reachable (fun s action => current F s action = true) s) : Routed s := by
  apply h.invariant
  . constructor
    . simp [environment, EnvState.init]
    . simp [environment, EnvState.init]
    . simp [environment, EnvState.init, World.init]
  . intro t action u ht ih hok hstep
    exact ih.step (registered_of_reachable ht) (fitted_of_reachable ht) hok hstep

theorem shown_to_own_observer
    (hs : (environment F).Reachable (fun s action => current F s action = true) s)
    {origin : Nat} {start : Start} {observer : Observer} {newData : TransactionListVm}
    (hstarted : .started origin start ∈ s.trace)
    (hshown : .called origin (.onUpdate observer newData) ∈ s.trace)
    : observer = start.observer := by
  rcases (routed_of_reachable hs).called _ _ hshown with ⟨start', hstarted', hobserver⟩
  rw [(rooted_of_reachable hs).unique origin start start' hstarted hstarted']
  exact Option.some.inj hobserver

/-! ## Two `start` on one handle -/

-- each of these bodies makes one call and returns
def turns (actions : List EnvAction) : List EnvAction :=
  actions.flatMap fun action => [action, .proceed 0, .proceed 0]

-- the second `start` comes right after the observer of the first was read
def followedActions : List EnvAction :=
  [.createApi (some 0) twoContexts, .observerTransactionList 0] ++
    turns [.start 0 5 [lit "a"] ⟨0⟩ 7, .deliver 0 (.success 200 (lit "\x7b\x7d")) false, .run 0,
      .run 0, .deliver 0 (.success 200 (lit "\x7b\"txs\": [3]\x7d")) false] ++
    [.run 0, .proceed 0, .proceed 0, .start 0 6 [lit "b"] ⟨0⟩ 8, .proceed 0, .proceed 0,
      .proceed 0] ++
    turns [.deliver 0 (.success 200 (lit "\x7b\x7d")) false, .run 1, .run 1,
      .deliver 0 (.success 200 (lit "\x7b\x7d")) false] ++
    [.run 1, .proceed 0, .proceed 0, .proceed 0] ++ turns [.run 0, .run 0]

theorem followedActions_exec
    : ((environment Double.integers).exec (environment Double.integers).init followedActions).isSome
        = true := by
  decide +kernel

def followedState : EnvState :=
  ((environment Double.integers).exec (environment Double.integers).init followedActions).get
    followedActions_exec

theorem followedState_reachable : (environment Double.integers).Reachable
    (fun s action => current Double.integers s action = true) followedState :=
  System.reachable_exec followedActions_exec (by decide +kernel)

def firstStart : Start :=
  { answeredStart with addresses := [lit "a"], options := ⟨0⟩ }

def secondStart : Start :=
  { answeredStart with observer := 6, addresses := [lit "b"], options := ⟨0⟩, response := 8 }

def firstList : TransactionListVm where
  transactions := [⟨[], [], lit "3"⟩]
  handle := 0

def secondList : TransactionListVm where
  transactions := []
  handle := 0

theorem followedState_started : .started 1 firstStart ∈ followedState.trace
    ∧ .started 2 secondStart ∈ followedState.trace := by
  decide +kernel

theorem followedState_shown : .called 1 (.onUpdate 5 firstList) ∈ followedState.trace
    ∧ .called 2 (.onUpdate 6 secondList) ∈ followedState.trace := by
  decide +kernel

theorem shown_to_own_observer_followed : 5 = firstStart.observer ∧ 6 = secondStart.observer := by
  constructor
  . exact shown_to_own_observer followedState_reachable followedState_started.1
      followedState_shown.1
  . exact shown_to_own_observer followedState_reachable followedState_started.2
      followedState_shown.2

-- the second `start` comes before the reply to the first one
def overwrittenActions : List EnvAction :=
  [.createApi (some 0) twoContexts, .observerTransactionList 0] ++
    turns [.start 0 5 [lit "a"] ⟨0⟩ 7, .deliver 0 (.success 200 (lit "\x7b\x7d")) false, .run 0,
      .run 0, .start 0 6 [lit "b"] ⟨0⟩ 8, .deliver 0 (.success 200 (lit "\x7b\x7d")) false] ++
    [.run 0, .proceed 0, .proceed 0, .proceed 0] ++ turns [.run 0]

theorem overwrittenActions_exec : ((environment Double.integers).exec
    (environment Double.integers).init overwrittenActions).isSome = true := by
  decide +kernel

def overwrittenState : EnvState :=
  ((environment Double.integers).exec (environment Double.integers).init overwrittenActions).get
    overwrittenActions_exec

theorem not_always_own_observer : ¬∀ (F : Double) (s : EnvState),
    (environment F).Reachable System.free s →
    ∀ origin start observer newData, .started origin start ∈ s.trace →
    .called origin (.onUpdate observer newData) ∈ s.trace → observer = start.observer := by
  intro h
  have hreachable : (environment Double.integers).Reachable System.free overwrittenState :=
    System.reachable_exec overwrittenActions_exec (System.along_free _ _)
  have hstarted : .started 1 firstStart ∈ overwrittenState.trace := by
    decide +kernel
  have hshown : .called 1 (.onUpdate 6 secondList) ∈ overwrittenState.trace := by
    decide +kernel
  have := h _ _ hreachable 1 _ 6 _ hstarted hshown
  contradiction

end LedgerApp
