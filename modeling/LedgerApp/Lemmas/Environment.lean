import LedgerApp.Environment
import LedgerApp.Lemmas.Handles
import LedgerApp.Lemmas.Platform

/-!
What a step of the environment does, and that in every reachable state each request, Runnable and
frame belongs to a `start` and has the contexts of that `start`.
-/

namespace LedgerApp

open Bytes Json11

variable {F : Double} {s s' : EnvState}

/-! ## What a step does -/

theorem envStep_createApi {httpImpl : Option HttpImpl} {threadDispatcher : ThreadDispatcher}
    (h : envStep F s (.createApi httpImpl threadDispatcher) = some s')
    : s' = { s with lib := s.lib.createApi httpImpl threadDispatcher } := by
  simp only [envStep, Option.some.injEq] at h
  exact h.symm

theorem envStep_observerTransactionList {api : Nat}
    (h : envStep F s (.observerTransactionList api) = some s')
    : ∃ lib, s.lib.observerTransactionList api = some lib ∧ s' = { s with lib := lib } := by
  simp only [envStep] at h
  split at h
  . next lib hlib =>
    simp only [Option.some.injEq] at h
    exact ⟨lib, hlib, h.symm⟩
  . contradiction

theorem envStep_start {handle : HandleRef} {observer : Observer} {addresses : List Str}
    {options : ApiOptions} {response : HandleResponse}
    (h : envStep F s (.start handle observer addresses options response) = some s')
    : ∃ lib start, s.lib.start handle observer addresses options response
          = some (lib, start, start.call start.testnetMode)
        ∧ s' = { s with lib := lib }.enter s.lib.now (.started s.lib.now start)
            (.entry (start.call start.testnetMode)) := by
  simp only [envStep] at h
  split at h
  . next lib start calls hstart =>
    simp only [Option.some.injEq] at h
    refine ⟨lib, start, ?_, ?_⟩
    . rw [hstart, calls_of_start hstart]
    . rw [← h, calls_of_start hstart]
  . contradiction

theorem envStep_deliver {index : Nat} {reply : Reply} {keep : Bool}
    (h : envStep F s (.deliver index reply keep) = some s')
    : ∃ request, s.requests[index]? = some request
        ∧ s' = { s with requests := if keep then s.requests else s.requests.eraseIdx index }.enter
            request.origin (.replied request.origin request.callback.cb reply)
            (.entry (request.callback.on reply)) := by
  simp only [envStep] at h
  split at h
  . next request hrequest =>
    simp only [Option.some.injEq] at h
    exact ⟨request, hrequest, h.symm⟩
  . contradiction

theorem envStep_run {index : Nat} (h : envStep F s (.run index) = some s')
    : ∃ runnable, s.queue[index]? = some runnable
        ∧ s' = { s with queue := s.queue.eraseIdx index }.enter runnable.origin (.ran runnable)
            (.run runnable) := by
  simp only [envStep] at h
  split at h
  . next runnable hrunnable =>
    simp only [Option.some.injEq] at h
    exact ⟨runnable, hrunnable, h.symm⟩
  . contradiction

theorem envStep_proceed {index : Nat} (h : envStep F s (.proceed index) = some s')
    : ∃ frame, s.active[index]? = some frame
        ∧ (frame.rest F s.toWorld = [] ∧ s' = { s with active := s.active.eraseIdx index }
          ∨ ∃ call calls, frame.rest F s.toWorld = call :: calls
            ∧ s' = { s with active := s.active.eraseIdx index }.make frame call) := by
  simp only [envStep] at h
  split at h
  . next frame hframe =>
    refine ⟨frame, hframe, ?_⟩
    simp only [EnvState.proceed, Option.some.injEq] at h
    split at h
    . next hrest => exact .inl ⟨hrest, h.symm⟩
    . next call calls hrest => exact .inr ⟨call, calls, hrest, h.symm⟩
  . contradiction

theorem envStep_drop {cell : Cell} (h : envStep F s (.drop cell) = some s')
    : s.holds cell = false ∧ s' = { s with cells := s.cells.set cell none } := by
  simp only [envStep] at h
  split at h
  . next hcell =>
    simp only [Option.some.injEq] at h
    exact ⟨hcell.2, h.symm⟩
  . contradiction

theorem mem_rest {frame : Frame} {w : World} {call : Call} {calls : List Call}
    (h : frame.rest F w = call :: calls) : call ∈ frame.body.calls F w := by
  apply List.mem_of_mem_drop (i := frame.made)
  rw [show (frame.body.calls F w).drop frame.made = call :: calls from h]
  simp

/-! ## The contexts of one `start` -/

def Start.contextFor (start : Start) : Task → Option Context
  | .reply _ _ => start.http.context
  | .getTransactions _ => start.backContext
  | .update _ => start.mainContext

def Call.Placed (start : Start) : Call → Prop
  | .get _ _ _ callback => callback.context = start.http.context
  | .execute context task => start.contextFor task = some context
  | _ => True

-- the name of the context in which a call is made, when it is not made by an entry point
def Call.site : Call → Option Str
  | .get _ _ _ { context := _, cb := .transactions _ } => some backExecutionContext
  | .respond _ _ => some mainExecutionContext
  | .onUpdate _ _ => some mainExecutionContext
  | _ => none

def Task.site : Task → Str
  | .getTransactions _ => backExecutionContext
  | _ => mainExecutionContext

section

variable {start : Start} {cells : List (Option Task)}

theorem length_start (start : Start) : (start.call start.testnetMode).length ≤ 1 := by
  rw [Start.call_eq]
  split
  . simp
  . simp

theorem length_on (callback : HttpCallback) (reply : Reply) : (callback.on reply).length ≤ 1 := by
  rw [HttpCallback.on_eq, HttpCallback.cbWith]
  split
  . simp
  . simp

theorem placed_start
    : ∀ call ∈ start.call start.testnetMode, call.Placed start ∧ call.site = none := by
  intro call hmem
  rcases Start.mem_call hmem with ⟨impl, rfl⟩
  exact ⟨rfl, rfl⟩

theorem placed_on {callback : HttpCallback} (h : callback.context = start.http.context)
    (reply : Reply)
    : ∀ call ∈ callback.on reply, call.Placed start ∧ call.site = none := by
  intro call hmem
  rw [HttpCallback.on_eq, HttpCallback.cbWith] at hmem
  split at hmem
  . next context hcontext =>
    rw [List.mem_singleton.mp hmem]
    refine ⟨?_, rfl⟩
    rw [hcontext] at h
    exact h.symm
  . simp at hmem

theorem placed_call {task : Task} {cell : Cell} {getObserver : HandleRef → Option Observer}
    (h : task.Own start cells)
    : ∀ call ∈ task.call F cell cells getObserver,
        call.Placed start ∧ (call.site = none ∨ call.site = some task.site) := by
  intro call hmem
  cases task with
  | reply callback resp =>
    cases callback with
    | token closure =>
      rw [show closure = start.tokenReply from h, Task.call, TokenReply.call_eq] at hmem
      split at hmem
      . rw [List.mem_singleton.mp hmem]
        exact ⟨trivial, .inr rfl⟩
      . rw [Start.tokenContinuation_call] at hmem
        split at hmem
        . next hback =>
          rw [List.mem_singleton.mp hmem]
          exact ⟨hback, .inl rfl⟩
        . rw [List.mem_singleton.mp hmem]
          exact ⟨trivial, .inl rfl⟩
    | transactions closure =>
      rcases h with ⟨enclosing, token, rfl, _⟩
      rw [Task.call, TxReply.call_eq] at hmem
      split at hmem
      . unfold respondBy at hmem
        split at hmem
        . rw [List.mem_singleton.mp hmem]
          exact ⟨trivial, .inr rfl⟩
        . rw [List.mem_singleton.mp hmem]
          exact ⟨trivial, .inl rfl⟩
      . split at hmem
        . rw [List.mem_append, StartCallback.call_eq, List.mem_cons] at hmem
          rcases hmem with hmem | rfl | hmem
          . rw [mem_printed hmem]
            exact ⟨trivial, .inl rfl⟩
          . exact ⟨trivial, .inr rfl⟩
          . split at hmem
            . next hmain =>
              rw [List.mem_singleton.mp hmem]
              exact ⟨hmain, .inl rfl⟩
            . simp at hmem
        . simp at hmem
  | getTransactions closure =>
    rcases h with ⟨token, rfl⟩
    rw [Task.call, Start.txTask_call] at hmem
    split at hmem
    . rw [List.mem_singleton.mp hmem]
      exact ⟨rfl, .inr rfl⟩
    . simp at hmem
  | update closure =>
    rw [Task.call, Update.call] at hmem
    split at hmem
    . rw [List.mem_singleton.mp hmem]
      exact ⟨trivial, .inr rfl⟩
    . rw [List.mem_singleton.mp hmem]
      exact ⟨trivial, .inl rfl⟩

end

/-! ## What is pending -/

structure Later (w w' : World) : Prop where
  cells : ∀ cell task, Kept w.cells cell task → Kept w'.cells cell task
  trace : ∀ event ∈ w.trace, event ∈ w'.trace

structure Request.Fits (w : World) (start : Start) (request : Request) : Prop where
  started : .started request.origin start ∈ w.trace
  own : request.callback.cb.Own start w.cells
  placed : request.callback.context = start.http.context

structure Runnable.Fits (w : World) (start : Start) (runnable : Runnable) : Prop where
  started : .started runnable.origin start ∈ w.trace
  own : runnable.task.Own start w.cells
  placed : start.contextFor runnable.task = some runnable.context
  kept : Kept w.cells runnable.cell runnable.task
  submitted : .called runnable.origin (.execute runnable.context runnable.task) ∈ w.trace

structure Call.Fits (w : World) (start : Start) (call : Call) : Prop where
  own : call.Own start w.cells
  placed : call.Placed start

def Body.Fits (w : World) (start : Start) (origin : Nat) : Body → Prop
  | .entry calls => calls.length ≤ 1 ∧ ∀ call ∈ calls, call.Fits w start ∧ call.site = none
  | .run runnable => runnable.Fits w start ∧ runnable.origin = origin ∧ .ran runnable ∈ w.trace

structure Frame.Fits (w : World) (start : Start) (frame : Frame) : Prop where
  started : .started frame.origin start ∈ w.trace
  body : frame.body.Fits w start frame.origin

structure Act.Fits (w : World) (act : Act) : Prop where
  started : ∃ start, .started act.origin start ∈ w.trace
  site : act.call.site = none ∨ ∃ runnable, act.within = some runnable ∧ .ran runnable ∈ w.trace
    ∧ act.call.site = some runnable.task.site

structure Fitted (s : EnvState) : Prop where
  requests : ∀ request ∈ s.requests, ∃ start, request.Fits s.toWorld start
  queue : ∀ runnable ∈ s.queue, ∃ start, runnable.Fits s.toWorld start
  active : ∀ frame ∈ s.active, ∃ start, frame.Fits s.toWorld start
  ran : ∀ runnable, .ran runnable ∈ s.trace → ∃ start, runnable.Fits s.toWorld start
  acts : ∀ act ∈ s.acts, act.Fits s.toWorld
  recorded : ∀ origin call, .called origin call ∈ s.trace →
    ∃ act ∈ s.acts, act.origin = origin ∧ act.call = call

section

variable {w w' : World} {start : Start}

theorem Request.Fits.later {request : Request} (h : request.Fits w start) (hl : Later w w')
    : request.Fits w' start where
  started := hl.trace _ h.started
  own := h.own.mono hl.cells
  placed := h.placed

theorem Runnable.Fits.later {runnable : Runnable} (h : runnable.Fits w start) (hl : Later w w')
    : runnable.Fits w' start where
  started := hl.trace _ h.started
  own := h.own.mono hl.cells
  placed := h.placed
  kept := hl.cells _ _ h.kept
  submitted := hl.trace _ h.submitted

theorem Call.Fits.later {call : Call} (h : call.Fits w start) (hl : Later w w')
    : call.Fits w' start where
  own := h.own.mono hl.cells
  placed := h.placed

theorem Frame.Fits.later {frame : Frame} (h : frame.Fits w start) (hl : Later w w')
    : frame.Fits w' start where
  started := hl.trace _ h.started
  body := by
    have hbody := h.body
    unfold Body.Fits at hbody ⊢
    split
    . next calls hcalls =>
      rw [hcalls] at hbody
      refine ⟨hbody.1, ?_⟩
      intro call hmem
      exact ⟨(hbody.2 call hmem).1.later hl, (hbody.2 call hmem).2⟩
    . next runnable hrunnable =>
      rw [hrunnable] at hbody
      exact ⟨hbody.1.later hl, hbody.2.1, hl.trace _ hbody.2.2⟩

theorem Act.Fits.later {act : Act} (h : act.Fits w) (hl : Later w w') : act.Fits w' where
  started := by
    rcases h.started with ⟨start, hstarted⟩
    exact ⟨start, hl.trace _ hstarted⟩
  site := by
    rcases h.site with hnone | ⟨runnable, hwithin, hran, hsite⟩
    . exact .inl hnone
    . exact .inr ⟨runnable, hwithin, hl.trace _ hran, hsite⟩

theorem Frame.Fits.call {frame : Frame} {call : Call} (h : frame.Fits w start)
    (hmem : call ∈ frame.body.calls F w) : call.Fits w start := by
  have hbody := h.body
  unfold Body.Fits at hbody
  split at hbody
  . next calls hcalls =>
    rw [hcalls] at hmem
    exact (hbody.2 call hmem).1
  . next runnable hrunnable =>
    rw [hrunnable] at hmem
    exact ⟨own_call hbody.1.own hbody.1.kept call hmem,
      (placed_call hbody.1.own call hmem).1⟩

theorem Frame.Fits.act {frame : Frame} {call : Call} (h : frame.Fits w start)
    (hmem : call ∈ frame.body.calls F w)
    : Act.Fits w { origin := frame.origin, within := frame.body.within, call } := by
  refine ⟨⟨start, h.started⟩, ?_⟩
  have hbody := h.body
  unfold Body.Fits at hbody
  split at hbody
  . next calls hcalls =>
    rw [hcalls] at hmem
    exact .inl (hbody.2 call hmem).2
  . next runnable hrunnable =>
    rw [hrunnable] at hmem ⊢
    rcases (placed_call hbody.1.own call hmem).2 with hsite | hsite
    . exact .inl hsite
    . exact .inr ⟨runnable, rfl, hbody.2.2, hsite⟩

end

theorem later_log (w : World) (event : Event) : Later w (w.log event) where
  cells := fun _ _ hkept => hkept
  trace := fun _ hmem => List.mem_append_left _ hmem

theorem later_perform (w : World) (origin : Nat) (calls : List Call)
    : Later w (w.perform origin calls) where
  cells := fun _ _ hkept => hkept.append _
  trace := fun _ hmem => List.mem_append_left _ hmem

theorem fits_issued {w : World} {start : Start} {origin : Nat} {call : Call} {request : Request}
    (hstarted : .started origin start ∈ w.trace) (hcall : call.Fits w start)
    (hmem : request ∈ issued origin [call]) : request.Fits w start := by
  cases call with
  | get impl url header callback =>
    rw [show request = ⟨origin, callback⟩ from List.mem_singleton.mp hmem]
    exact ⟨hstarted, hcall.own, hcall.placed⟩
  | _ => simp [issued] at hmem

theorem fits_submitted {w : World} {start : Start} {origin : Nat} {call : Call}
    {runnable : Runnable} (hstarted : .started origin start ∈ w.trace) (hcall : call.Fits w start)
    (hmem : runnable ∈ submitted origin w.cells.length [call])
    : runnable.Fits (w.perform origin [call]) start := by
  cases call with
  | execute context task =>
    rw [show runnable = ⟨origin, w.cells.length, context, task⟩ from List.mem_singleton.mp hmem]
    have hcall' := hcall.later (later_perform w origin [.execute context task])
    exact {
      started := (later_perform w origin _).trace _ hstarted
      own := hcall'.own
      placed := hcall'.placed
      kept := .last task
      submitted := by simp [World.perform] }
  | _ => simp [submitted] at hmem

theorem fits_later {α : Type} {M M' : α → Prop} {P P' : α → Start → Prop}
    (h : ∀ a, M a → ∃ start, P a start) (hl : ∀ a start, P a start → P' a start)
    (hnew : ∀ a, M' a → M a ∨ ∃ start, P' a start) : ∀ a, M' a → ∃ start, P' a start := by
  intro a ha
  rcases hnew a ha with hold | hnew
  . rcases h a hold with ⟨start, hfits⟩
    exact ⟨start, hl a start hfits⟩
  . exact hnew

namespace Fitted

theorem init : Fitted EnvState.init where
  requests := by simp [EnvState.init, World.init]
  queue := by simp [EnvState.init]
  active := by simp [EnvState.init]
  ran := by simp [EnvState.init, World.init]
  acts := by simp [EnvState.init]
  recorded := by simp [EnvState.init, World.init]

theorem later (h : Fitted s) (hl : Later s.toWorld s'.toWorld)
    (hrequests : ∀ request ∈ s'.requests,
      request ∈ s.requests ∨ ∃ start, request.Fits s'.toWorld start)
    (hqueue : ∀ runnable ∈ s'.queue, runnable ∈ s.queue ∨ ∃ start, runnable.Fits s'.toWorld start)
    (hactive : ∀ frame ∈ s'.active, frame ∈ s.active ∨ ∃ start, frame.Fits s'.toWorld start)
    (hran : ∀ runnable, .ran runnable ∈ s'.trace →
      .ran runnable ∈ s.trace ∨ ∃ start, runnable.Fits s'.toWorld start)
    (hacts : ∀ act ∈ s'.acts, act ∈ s.acts ∨ act.Fits s'.toWorld)
    (hrecorded : ∀ origin call, .called origin call ∈ s'.trace →
      ∃ act ∈ s'.acts, act.origin = origin ∧ act.call = call) : Fitted s' where
  requests := fits_later h.requests (fun _ _ hfits => hfits.later hl) hrequests
  queue := fits_later h.queue (fun _ _ hfits => hfits.later hl) hqueue
  active := fits_later h.active (fun _ _ hfits => hfits.later hl) hactive
  ran := fits_later h.ran (fun _ _ hfits => hfits.later hl) hran
  acts := by
    intro act hmem
    rcases hacts act hmem with hold | hnew
    . exact (h.acts act hold).later hl
    . exact hnew
  recorded := hrecorded

theorem fewer (h : Fitted s) (lib : Lib) {requests : List Request} {queue : List Runnable}
    {active : List Frame} (hrequests : requests ⊆ s.requests) (hqueue : queue ⊆ s.queue)
    (hactive : active ⊆ s.active)
    : Fitted { s with lib := lib, requests := requests, queue := queue, active := active } := by
  apply h.later
  . exact ⟨fun _ _ hkept => hkept, fun _ hmem => hmem⟩
  . exact fun request hmem => .inl (hrequests hmem)
  . exact fun runnable hmem => .inl (hqueue hmem)
  . exact fun frame hmem => .inl (hactive hmem)
  . exact fun _ hmem => .inl hmem
  . exact fun _ hmem => .inl hmem
  . exact h.recorded

theorem lib (h : Fitted s) (lib : Lib) : Fitted { s with lib := lib } :=
  h.fewer lib (.refl _) (.refl _) (.refl _)

theorem enter {origin : Nat} {event : Event} {body : Body} {start : Start} (h : Fitted s)
    (hfits : Frame.Fits (s.log event) start { origin, body, made := 0 })
    (hran : ∀ runnable, event = .ran runnable → ∃ start, runnable.Fits s.toWorld start)
    (hcalled : ∀ origin call, event ≠ .called origin call)
    : Fitted (s.enter origin event body) := by
  apply h.later (later_log s.toWorld event)
  . exact fun _ hmem => .inl hmem
  . exact fun _ hmem => .inl hmem
  . intro frame hmem
    rcases List.mem_append.mp hmem with hmem | hmem
    . exact .inl hmem
    . rw [List.mem_singleton.mp hmem]
      exact .inr ⟨start, hfits⟩
  . intro runnable hmem
    rcases List.mem_append.mp hmem with hmem | hmem
    . exact .inl hmem
    . rcases hran runnable (List.mem_singleton.mp hmem).symm with ⟨start, hfits⟩
      exact .inr ⟨start, hfits.later (later_log s.toWorld event)⟩
  . exact fun _ hmem => .inl hmem
  . intro other call hmem
    rcases List.mem_append.mp hmem with hmem | hmem
    . exact h.recorded other call hmem
    . exact absurd (List.mem_singleton.mp hmem).symm (hcalled other call)

theorem make {frame : Frame} {call : Call} {start : Start} (h : Fitted s)
    (hfits : frame.Fits s.toWorld start) (hmem : call ∈ frame.body.calls F s.toWorld)
    : Fitted (s.make frame call) := by
  have hl := later_perform s.toWorld frame.origin [call]
  have hcall := hfits.call hmem
  apply h.later hl
  . intro request hrequest
    rcases List.mem_append.mp hrequest with hrequest | hrequest
    . exact .inl hrequest
    . exact .inr ⟨start, (fits_issued hfits.started hcall hrequest).later hl⟩
  . intro runnable hrunnable
    rcases List.mem_append.mp hrunnable with hrunnable | hrunnable
    . exact .inl hrunnable
    . exact .inr ⟨start, fits_submitted hfits.started hcall hrunnable⟩
  . intro next hnext
    rcases List.mem_append.mp hnext with hnext | hnext
    . exact .inl hnext
    . rw [List.mem_singleton.mp hnext]
      have := hfits.later hl
      exact .inr ⟨start, this.started, this.body⟩
  . intro runnable hran
    rcases List.mem_append.mp hran with hran | hran
    . exact .inl hran
    . simp at hran
  . intro act hact
    rcases List.mem_append.mp hact with hact | hact
    . exact .inl hact
    . rw [List.mem_singleton.mp hact]
      exact .inr ((hfits.act hmem).later hl)
  . intro origin other hcalled
    rcases List.mem_append.mp hcalled with hcalled | hcalled
    . rcases h.recorded origin other hcalled with ⟨act, hact, heq⟩
      exact ⟨act, List.mem_append_left _ hact, heq⟩
    . rw [List.map_singleton, List.mem_singleton, Event.called.injEq] at hcalled
      exact ⟨_, List.mem_append_right _ (List.mem_singleton_self _), hcalled.1.symm, hcalled.2.symm⟩

theorem step {action : EnvAction} (h : Fitted s) (hstep : envStep F s action = some s')
    : Fitted s' := by
  cases action with
  | createApi httpImpl threadDispatcher =>
    rw [envStep_createApi hstep]
    exact h.lib _
  | observerTransactionList api =>
    rcases envStep_observerTransactionList hstep with ⟨lib, _, rfl⟩
    exact h.lib lib
  | start handle observer addresses options response =>
    rcases envStep_start hstep with ⟨lib, start, _, rfl⟩
    have hfits : Frame.Fits (World.log { s.toWorld with lib := lib } (.started s.lib.now start))
        start ⟨s.lib.now, .entry (start.call start.testnetMode), 0⟩ := by
      refine ⟨by simp [World.log], length_start start, ?_⟩
      intro call hmem
      have hplaced := placed_start call hmem
      exact ⟨⟨own_start _ call hmem, hplaced.1⟩, hplaced.2⟩
    exact (h.lib lib).enter hfits (by simp) (by simp)
  | deliver index reply keep =>
    rcases envStep_deliver hstep with ⟨request, hrequest, rfl⟩
    rcases h.requests request (List.mem_of_getElem? hrequest) with ⟨start, hfits⟩
    apply enter
    . apply h.fewer s.lib _ (.refl _) (.refl _)
      split
      . exact .refl _
      . exact List.eraseIdx_subset
    . refine ⟨List.mem_append_left _ hfits.started, length_on _ reply, ?_⟩
      intro call hmem
      have hplaced := placed_on hfits.placed reply call hmem
      exact ⟨⟨own_on hfits.own reply call hmem, hplaced.1⟩, hplaced.2⟩
    . simp
    . simp
  | run index =>
    rcases envStep_run hstep with ⟨runnable, hrunnable, rfl⟩
    rcases h.queue runnable (List.mem_of_getElem? hrunnable) with ⟨start, hfits⟩
    apply enter
    . exact h.fewer s.lib (.refl _) List.eraseIdx_subset (.refl _)
    . have := hfits.later (later_log s.toWorld (.ran runnable))
      exact ⟨this.started, this, rfl, by simp [World.log]⟩
    . intro other heq
      rw [← Event.ran.inj heq]
      exact ⟨start, hfits⟩
    . simp
  | proceed index =>
    rcases envStep_proceed hstep with ⟨frame, hframe, hcases⟩
    have hfewer : Fitted { s with active := s.active.eraseIdx index } :=
      h.fewer s.lib (.refl _) (.refl _) List.eraseIdx_subset
    rcases hcases with ⟨_, rfl⟩ | ⟨call, calls, hrest, rfl⟩
    . exact hfewer
    . rcases h.active frame (List.mem_of_getElem? hframe) with ⟨start, hfits⟩
      exact hfewer.make hfits (mem_rest hrest)
  | drop cell =>
    rcases envStep_drop hstep with ⟨_, rfl⟩
    apply h.later
    . exact ⟨fun _ _ hkept => hkept.set cell, fun _ hmem => hmem⟩
    . exact fun _ hmem => .inl hmem
    . exact fun _ hmem => .inl hmem
    . exact fun _ hmem => .inl hmem
    . exact fun _ hmem => .inl hmem
    . exact fun _ hmem => .inl hmem
    . exact h.recorded

end Fitted

theorem fitted_of_reachable {ok : EnvState → EnvAction → Prop}
    (h : (environment F).Reachable ok s) : Fitted s := by
  apply h.invariant
  . exact Fitted.init
  . intro t action u _ ht _ hstep
    exact ht.step hstep

/-! ## What was started -/

structure Lib.Grows (lib lib' : Lib) : Prop where
  now : lib.now ≤ lib'.now
  handles : ∀ (i : HandleRef) handle, lib.handles[i]? = some handle →
    ∃ handle', lib'.handles[i]? = some handle' ∧ handle'.http = handle.http
      ∧ handle'.threadDispatcher = handle.threadDispatcher

theorem Lib.Grows.refl (lib : Lib) : lib.Grows lib where
  now := Nat.le_refl _
  handles := fun _ handle hhandle => ⟨handle, hhandle, rfl, rfl⟩

theorem Lib.Grows.createApi (lib : Lib) (httpImpl : Option HttpImpl)
    (threadDispatcher : ThreadDispatcher) : lib.Grows (lib.createApi httpImpl threadDispatcher) where
  now := Nat.le_succ _
  handles := fun _ handle hhandle => ⟨handle, hhandle, rfl, rfl⟩

theorem Lib.Grows.observerTransactionList {lib lib' : Lib} {api : Nat}
    (h : lib.observerTransactionList api = some lib') : lib.Grows lib' where
  now := by rw [observerTransactionList_now h]
  handles := by
    intro i handle hhandle
    have hlt := (List.getElem?_eq_some_iff.mp hhandle).1
    unfold Lib.observerTransactionList at h
    split at h
    . simp only [Option.some.injEq] at h
      rw [← h]
      exact ⟨handle, by rw [List.getElem?_append_left hlt, hhandle], rfl, rfl⟩
    . contradiction

theorem Lib.Grows.start {lib lib' : Lib} {handle : HandleRef} {observer : Observer}
    {addresses : List Str} {options : ApiOptions} {response : HandleResponse} {start : Start}
    {calls : List Call}
    (h : lib.start handle observer addresses options response = some (lib', start, calls))
    : lib.Grows lib' where
  now := by
    rw [(started_of_start h).now]
    exact Nat.le_succ _
  handles := by
    intro i found hfound
    have hlt := (List.getElem?_eq_some_iff.mp hfound).1
    unfold Lib.start at h
    split at h
    . next self hself =>
      simp only [Option.some.injEq, Prod.mk.injEq] at h
      rw [← h.1, List.getElem?_set]
      split
      . next heq =>
        rw [← heq, hself] at hfound
        simp only [Option.some.injEq] at hfound
        rw [if_pos (heq ▸ hlt)]
        exact ⟨_, rfl, by rw [← hfound], by rw [← hfound]⟩
      . exact ⟨found, hfound, rfl, rfl⟩
    . contradiction

theorem envStep_lib {action : EnvAction} (h : envStep F s action = some s')
    : s.lib.Grows s'.lib
      ∧ ((∃ events, s'.trace = s.trace ++ events
          ∧ (∀ origin start, .started origin start ∉ events)
          ∧ ∀ handle observer, s.lib.getObserver handle = some observer →
            s'.lib.getObserver handle = some observer)
        ∨ ∃ handle observer start addresses options response,
          action = .start handle observer addresses options response
            ∧ Started s.lib s'.lib handle observer start
            ∧ s'.trace = s.trace ++ [.started s.lib.now start]) := by
  cases action with
  | createApi httpImpl threadDispatcher =>
    rw [envStep_createApi h]
    exact ⟨.createApi _ _ _, .inl ⟨[], by simp, by simp, fun _ _ hget => hget⟩⟩
  | observerTransactionList api =>
    rcases envStep_observerTransactionList h with ⟨lib, hlib, rfl⟩
    refine ⟨.observerTransactionList hlib, .inl ⟨[], by simp, by simp, ?_⟩⟩
    exact fun _ _ hget => getObserver_observerTransactionList hlib hget
  | start handle observer addresses options response =>
    rcases envStep_start h with ⟨lib, start, hstart, rfl⟩
    refine ⟨.start hstart, .inr ⟨handle, observer, start, addresses, options, response, rfl, ?_⟩⟩
    exact ⟨started_of_start hstart, rfl⟩
  | deliver index reply keep =>
    rcases envStep_deliver h with ⟨request, _, rfl⟩
    exact ⟨.refl _, .inl ⟨_, rfl, by simp, fun _ _ hget => hget⟩⟩
  | run index =>
    rcases envStep_run h with ⟨runnable, _, rfl⟩
    exact ⟨.refl _, .inl ⟨_, rfl, by simp, fun _ _ hget => hget⟩⟩
  | proceed index =>
    rcases envStep_proceed h with ⟨frame, _, ⟨_, rfl⟩ | ⟨call, calls, _, rfl⟩⟩
    . exact ⟨.refl _, .inl ⟨[], by simp, by simp, fun _ _ hget => hget⟩⟩
    . exact ⟨.refl _, .inl ⟨_, rfl, by simp, fun _ _ hget => hget⟩⟩
  | drop cell =>
    rcases envStep_drop h with ⟨_, rfl⟩
    exact ⟨.refl _, .inl ⟨[], by simp, by simp, fun _ _ hget => hget⟩⟩

structure Start.Reads (start : Start) (handle : TransactionListVmHandle) : Prop where
  http : start.http = handle.http
  mainContext : ∃ now, start.mainContext
    = handle.threadDispatcher.getSerialExecutionContext now mainExecutionContext
  backContext : ∃ now, start.backContext
    = handle.threadDispatcher.getSerialExecutionContext now backExecutionContext

theorem Start.Reads.congr {start : Start} {handle handle' : TransactionListVmHandle}
    (h : start.Reads handle) (hhttp : handle'.http = handle.http)
    (hdispatcher : handle'.threadDispatcher = handle.threadDispatcher) : start.Reads handle' where
  http := by rw [hhttp, h.http]
  mainContext := by
    rw [hdispatcher]
    exact h.mainContext
  backContext := by
    rw [hdispatcher]
    exact h.backContext

structure Rooted (s : EnvState) : Prop where
  fresh : ∀ origin start, .started origin start ∈ s.trace → origin < s.lib.now
  unique : ∀ origin start start', .started origin start ∈ s.trace →
    .started origin start' ∈ s.trace → start = start'
  reads : ∀ origin start, .started origin start ∈ s.trace →
    ∃ handle, s.lib.handles[start.handle]? = some handle ∧ start.Reads handle

namespace Rooted

theorem init : Rooted EnvState.init where
  fresh := by simp [EnvState.init, World.init]
  unique := by simp [EnvState.init, World.init]
  reads := by simp [EnvState.init, World.init]

theorem step {action : EnvAction} (hs : Rooted s) (h : envStep F s action = some s')
    : Rooted s' := by
  rcases envStep_lib h with ⟨hgrows, ⟨events, htrace, hnone, _⟩
    | ⟨self, observer, start, _, _, _, _, hstarted, htrace⟩⟩
  . have hold : ∀ origin start, Event.started origin start ∈ s'.trace →
        Event.started origin start ∈ s.trace := by
      intro origin start hmem
      rw [htrace, List.mem_append] at hmem
      exact hmem.resolve_right (hnone origin start)
    refine ⟨?_, ?_, ?_⟩
    . intro origin start hmem
      exact Nat.lt_of_lt_of_le (hs.fresh origin start (hold origin start hmem)) hgrows.now
    . intro origin start start' hmem hmem'
      exact hs.unique origin start start' (hold origin start hmem) (hold origin start' hmem')
    . intro origin start hmem
      rcases hs.reads origin start (hold origin start hmem) with ⟨handle, hhandle, hreads⟩
      rcases hgrows.handles _ handle hhandle with ⟨handle', hhandle', hhttp, hdispatcher⟩
      exact ⟨handle', hhandle', hreads.congr hhttp hdispatcher⟩
  . have hcases : ∀ origin start', Event.started origin start' ∈ s'.trace →
        Event.started origin start' ∈ s.trace ∨ origin = s.lib.now ∧ start' = start := by
      intro origin start' hmem
      rw [htrace, List.mem_append, List.mem_singleton, Event.started.injEq] at hmem
      exact hmem
    refine ⟨?_, ?_, ?_⟩
    . intro origin start' hmem
      rw [hstarted.now]
      rcases hcases origin start' hmem with hmem | ⟨rfl, _⟩
      . exact Nat.lt_succ_of_lt (hs.fresh origin start' hmem)
      . exact Nat.lt_succ_self _
    . intro origin start₁ start₂ hmem₁ hmem₂
      rcases hcases origin start₁ hmem₁ with hmem₁ | ⟨rfl, rfl⟩
      . rcases hcases origin start₂ hmem₂ with hmem₂ | ⟨rfl, rfl⟩
        . exact hs.unique origin start₁ start₂ hmem₁ hmem₂
        . exact absurd (hs.fresh _ start₁ hmem₁) (Nat.lt_irrefl _)
      . rcases hcases _ start₂ hmem₂ with hmem₂ | ⟨_, rfl⟩
        . exact absurd (hs.fresh _ start₂ hmem₂) (Nat.lt_irrefl _)
        . rfl
    . intro origin start' hmem
      rcases hcases origin start' hmem with hmem | ⟨_, rfl⟩
      . rcases hs.reads origin start' hmem with ⟨handle, hhandle, hreads⟩
        rcases hgrows.handles _ handle hhandle with ⟨handle', hhandle', hhttp, hdispatcher⟩
        exact ⟨handle', hhandle', hreads.congr hhttp hdispatcher⟩
      . rcases hstarted.found with ⟨found, hfound, hhttp, hmain, hback⟩
        rw [hstarted.handle_eq]
        rcases hgrows.handles _ found hfound with ⟨handle', hhandle', hhttp', hdispatcher⟩
        have hreads : start'.Reads found := ⟨hhttp, ⟨s.lib.now, hmain⟩, ⟨s.lib.now, hback⟩⟩
        exact ⟨handle', hhandle', hreads.congr hhttp' hdispatcher⟩

end Rooted

theorem rooted_of_reachable {ok : EnvState → EnvAction → Prop}
    (h : (environment F).Reachable ok s) : Rooted s := by
  apply h.invariant
  . exact Rooted.init
  . intro t action u _ ht _ hstep
    exact ht.step hstep

end LedgerApp
