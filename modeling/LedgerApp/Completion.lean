import LedgerApp.Confluence
import LedgerApp.Work

/-!
What was started is finished. As long as the platform only takes up what is pending it comes to
rest, after no more steps than the pending work allows, and then every `start` has shown what its
sequential reading says.
-/

namespace LedgerApp

open Bytes Json11

variable {F : Double} {s s' : EnvState} {answers : Nat → Answers}

structure EnvState.AtRest (s : EnvState) : Prop where
  requests : s.requests = []
  queue : s.queue = []
  active : s.active = []

-- the requests of a `start` get the replies that are meant for it
def takesUp (answers : Nat → Answers) (s : EnvState) : EnvAction → Prop
  | .deliver index reply keep => keep = false ∧ ∀ request, s.requests[index]? = some request →
    reply = (answers request.origin).to request.callback.cb
  | .run _ => True
  | .proceed _ => True
  | _ => False

def everyone (_ : Nat) : Bool :=
  true

/-! ## The steps that are left -/

theorem spends_takesUp (F : Double) (answers : Nat → Answers)
    : (budget F everyone).Spends (takesUp answers) where
  ok := by
    intro s action h
    cases action with
    | deliver index reply keep => exact h.1
    | _ => trivial
  cost := by
    intro s action t h hstep
    change envStep F s action = some t at hstep
    cases action with
    | deliver index reply keep =>
      rcases envStep_deliver hstep with ⟨request, hrequest, _⟩
      simp [budget, EnvState.cost, EnvState.origin?, hrequest, share, everyone]
    | run index =>
      rcases envStep_run hstep with ⟨runnable, hrunnable, _⟩
      simp [budget, EnvState.cost, EnvState.origin?, hrunnable, share, everyone]
    | proceed index =>
      rcases envStep_proceed hstep with ⟨frame, hframe, _⟩
      simp [budget, EnvState.cost, EnvState.origin?, hframe, share, everyone]
    | _ => exact absurd h id
  gain := by
    intro s action h
    cases action with
    | start handle observer addresses options response => exact absurd h id
    | _ => rfl

theorem exists_takesUp (answers : Nat → Answers) (h : ¬s.AtRest)
    : ∃ action t, takesUp answers s action ∧ envStep F s action = some t := by
  cases hrequests : s.requests with
  | cons request requests =>
    have hfirst : s.requests[0]? = some request := by rw [hrequests]; rfl
    let reply := (answers request.origin).to request.callback.cb
    refine ⟨.deliver 0 reply false, _, ⟨rfl, ?_⟩, by rw [envStep, hfirst]⟩
    intro other hother
    rw [hfirst, Option.some.injEq] at hother
    rw [← hother]
  | nil =>
    cases hqueue : s.queue with
    | cons runnable queue =>
      have hfirst : s.queue[0]? = some runnable := by rw [hqueue]; rfl
      exact ⟨.run 0, _, trivial, by rw [envStep, hfirst]⟩
    | nil =>
      cases hactive : s.active with
      | cons frame active =>
        have hfirst : s.active[0]? = some frame := by rw [hactive]; rfl
        exact ⟨.proceed 0, _, trivial, by rw [envStep, hfirst]⟩
      | nil => exact absurd ⟨hrequests, hqueue, hactive⟩ h

/-! ## The closures of the Runnables that are held -/

def EnvState.held (s : EnvState) : List Runnable :=
  s.queue ++ s.active.filterMap fun frame => frame.body.within

def Alive (s : EnvState) : Prop :=
  ∀ runnable ∈ s.held, s.cells[runnable.cell]? ≠ some none

theorem held_make {index : Nat} {frame : Frame} {call : Call} {runnable : Runnable}
    (hframe : s.active[index]? = some frame)
    (h : runnable ∈ (EnvState.make { s with active := s.active.eraseIdx index } frame call).held)
    : runnable ∈ s.held ∨ runnable.cell = s.cells.length := by
  simp only [EnvState.held, EnvState.make, List.mem_append, List.filterMap_append] at h ⊢
  rcases h with (h | h) | h | h
  . exact .inl (.inl h)
  . cases call with
    | execute context task =>
      right
      rw [show runnable = ⟨frame.origin, s.cells.length, context, task⟩ from
        List.mem_singleton.mp h]
    | _ => simp [submitted] at h
  . rcases List.mem_filterMap.mp h with ⟨other, hother, hwithin⟩
    exact .inl (.inr (List.mem_filterMap.mpr ⟨other, List.mem_of_mem_eraseIdx hother, hwithin⟩))
  . rcases List.mem_filterMap.mp h with ⟨next, hnext, hwithin⟩
    rw [List.mem_singleton.mp hnext] at hwithin
    exact .inl (.inr (List.mem_filterMap.mpr ⟨frame, List.mem_of_getElem? hframe, hwithin⟩))

theorem holds_of_mem_held {runnable : Runnable} (h : runnable ∈ s.held)
    : s.holds runnable.cell = true := by
  unfold EnvState.holds
  rw [List.any_eq_true]
  exact ⟨runnable, h, by simp⟩

theorem held_enter_entry {origin : Nat} {event : Event} {calls : List Call} {runnable : Runnable}
    (h : runnable ∈ (s.enter origin event (.entry calls)).held) : runnable ∈ s.held := by
  simpa [EnvState.held, EnvState.enter, Body.within] using h

theorem alive_step {action : EnvAction} (hs : Alive s) (h : envStep F s action = some s')
    : Alive s' := by
  intro runnable hmem
  cases action with
  | createApi httpImpl threadDispatcher =>
    rw [envStep_createApi h] at hmem ⊢
    exact hs runnable hmem
  | observerTransactionList api =>
    rcases envStep_observerTransactionList h with ⟨lib, _, rfl⟩
    exact hs runnable hmem
  | start handle observer addresses options response =>
    rcases envStep_start h with ⟨lib, start, _, rfl⟩
    have hheld : runnable ∈ EnvState.held { s with lib := lib } := held_enter_entry hmem
    exact hs runnable hheld
  | deliver index reply keep =>
    rcases envStep_deliver h with ⟨request, _, rfl⟩
    let requests := if keep then s.requests else s.requests.eraseIdx index
    have hheld : runnable ∈ EnvState.held { s with requests := requests } := held_enter_entry hmem
    exact hs runnable hheld
  | run index =>
    rcases envStep_run h with ⟨taken, htaken, rfl⟩
    apply hs runnable
    simp only [EnvState.held, EnvState.enter, Body.within, List.filterMap_append,
      List.filterMap_cons, List.filterMap_nil, List.mem_append, List.mem_singleton] at hmem ⊢
    rcases hmem with hmem | hmem | rfl
    . exact .inl (List.mem_of_mem_eraseIdx hmem)
    . exact .inr hmem
    . exact .inl (List.mem_of_getElem? htaken)
  | proceed index =>
    rcases envStep_proceed h with ⟨frame, hframe, ⟨_, rfl⟩ | ⟨call, calls, _, rfl⟩⟩
    . apply hs runnable
      simp only [EnvState.held, List.mem_append] at hmem ⊢
      rcases hmem with hmem | hmem
      . exact .inl hmem
      . rcases List.mem_filterMap.mp hmem with ⟨other, hother, hwithin⟩
        exact .inr (List.mem_filterMap.mpr ⟨other, List.mem_of_mem_eraseIdx hother, hwithin⟩)
    . intro hdropped
      have hbefore := dropped_append hdropped
      rcases held_make hframe hmem with hmem | hnew
      . exact hs runnable hmem hbefore
      . simp [hnew] at hbefore
  | drop cell =>
    rcases envStep_drop h with ⟨hholds, rfl⟩
    have hne : cell ≠ runnable.cell := by
      intro heq
      rw [heq, holds_of_mem_held (show runnable ∈ s.held from hmem)] at hholds
      contradiction
    dsimp only
    rw [List.getElem?_set_ne hne]
    exact hs runnable hmem

theorem alive_of_reachable {ok : EnvState → EnvAction → Prop}
    (h : (environment F).Reachable ok s) : Alive s := by
  apply h.invariant
  . simp [Alive, EnvState.held, environment, EnvState.init]
  . intro t action u _ ht _ hstep
    exact alive_step ht hstep

/-! ## The closures that the pending replies refer to -/

def Awaits (F : Double) (answers : Nat → Answers) (s : EnvState) : Prop :=
  ∀ request ∈ s.requests, Task.Present F s.cells
    (.reply request.callback.cb ((answers request.origin).to request.callback.cb).response)

theorem Task.Present.append {task : Task} {cells : List (Option Task)} (h : task.Present F cells)
    (calls : List Call) : task.Present F (cells ++ tasks calls) :=
  fun cell hcell hdropped => h cell hcell (dropped_append hdropped)

-- only `tx_task` makes a reply handler with a reference, and it refers to its own closure
theorem enclosing_of_get {task : Task} {cell : Cell} {cells : List (Option Task)}
    {getObserver : HandleRef → Option Observer} {impl : HttpImpl} {url : Str}
    {header : Option (List HttpHeader)} {context : Option Context} {closure : TxReply}
    (h : .get impl url header { context := context, cb := .transactions closure }
      ∈ task.call F cell cells getObserver) : closure.enclosing = cell := by
  unfold Task.call at h
  split at h
  . rw [TokenReply.call_eq] at h
    split at h
    . simp at h
    . unfold TokenContinuation.call at h
      split at h
      . simp at h
      . simp at h
  . rw [TxReply.call_eq] at h
    split at h
    . unfold respondBy at h
      split at h
      . simp at h
      . simp at h
    . split at h
      . rw [StartCallback.call_eq, List.mem_append, List.mem_cons] at h
        rcases h with h | h | h
        . have := mem_printed h
          contradiction
        . contradiction
        . split at h
          . simp at h
          . simp at h
      . simp at h
  . unfold TxTask.call Http.get at h
    split at h
    . split at h
      . rw [List.mem_singleton, Call.get.injEq, HttpCallback.mk.injEq] at h
        rw [HttpHandler.transactions.inj h.2.2.2.2]
      . simp at h
    . simp at h
  . unfold Update.call at h
    split at h
    . simp at h
    . simp at h

theorem present_issued {frame : Frame} {start : Start} {call : Call} {request : Request}
    (resp : HttpResponse) (hs : Alive s) (hframe : frame ∈ s.active)
    (hfits : frame.Fits s.toWorld start) (hcall : call ∈ frame.body.calls F s.toWorld)
    (h : request ∈ issued frame.origin [call])
    : Task.Present F s.cells (.reply request.callback.cb resp) := by
  cases call with
  | get impl url header callback =>
    rw [show request = ⟨frame.origin, callback⟩ from List.mem_singleton.mp h]
    rcases callback with ⟨context, cb⟩
    intro cell hcell
    cases cb with
    | token closure => contradiction
    | transactions closure =>
      have hbody := hfits.body
      have halive : ∀ runnable, frame.body = .run runnable →
          s.cells[runnable.cell]? ≠ some none := by
        intro runnable hrun
        apply hs runnable
        apply List.mem_append_right
        exact List.mem_filterMap.mpr ⟨frame, hframe, by rw [hrun]; rfl⟩
      generalize frame.body = body at hbody hcall halive
      cases body with
      | entry calls =>
        have hsite := (hbody.2 _ hcall).2
        contradiction
      | run runnable =>
        have henclosing := enclosing_of_get hcall
        simp only [refersTo] at hcell
        split at hcell
        . contradiction
        . rw [← Option.some.inj hcell, henclosing]
          exact halive runnable rfl
  | _ => simp [issued] at h

theorem awaits_step {action : EnvAction} (hs : Awaits F answers s) (hfitted : Fitted s)
    (halive : Alive s) (hok : takesUp answers s action) (h : envStep F s action = some s')
    : Awaits F answers s' := by
  intro request hmem
  cases action with
  | deliver index reply keep =>
    rcases envStep_deliver h with ⟨delivered, hdelivered, rfl⟩
    rw [hok.1] at hmem
    exact hs request (List.mem_of_mem_eraseIdx hmem)
  | run index =>
    rcases envStep_run h with ⟨runnable, _, rfl⟩
    exact hs request hmem
  | proceed index =>
    rcases envStep_proceed h with ⟨frame, hframe, ⟨_, rfl⟩ | ⟨call, calls, hrest, rfl⟩⟩
    . exact hs request hmem
    . rcases List.mem_append.mp hmem with hmem | hmem
      . exact (hs request hmem).append [call]
      . have hactive := List.mem_of_getElem? hframe
        rcases hfitted.active frame hactive with ⟨start, hfits⟩
        exact (present_issued _ halive hactive hfits (mem_rest hrest) hmem).append [call]
  | _ => exact absurd hok id

theorem sustains_of_awaits {action : EnvAction} (hs : Awaits F answers s)
    (hok : takesUp answers s action) : Orderly F s action := by
  cases action with
  | deliver index reply keep =>
    refine ⟨by simp [family, hok.1], ?_⟩
    dsimp only [sustains]
    split
    . next request hrequest =>
      split
      . next cell hcell =>
        rw [hok.2 request hrequest] at hcell
        have := hs request (List.mem_of_getElem? hrequest) cell hcell
        simpa using this
      . rfl
    . rfl
  | run index => exact ⟨rfl, rfl⟩
  | proceed index => exact ⟨rfl, rfl⟩
  | _ => exact absurd hok id

/-! ## Every `start` is finished -/

theorem answered_step {action : EnvAction}
    (hs : ∀ origin, AnsweredBy (answers origin) origin s.trace) (hok : takesUp answers s action)
    (h : envStep F s action = some s')
    : ∀ origin, AnsweredBy (answers origin) origin s'.trace := by
  intro origin callback reply hmem
  cases action with
  | deliver index given keep =>
    rcases envStep_deliver h with ⟨request, hrequest, rfl⟩
    rcases List.mem_append.mp hmem with hmem | hmem
    . exact hs origin callback reply hmem
    . rw [List.mem_singleton, Event.replied.injEq] at hmem
      rw [hmem.2.2, hmem.2.1, hmem.1]
      exact hok.2 request hrequest
  | run index =>
    rcases envStep_run h with ⟨runnable, _, rfl⟩
    rcases List.mem_append.mp hmem with hmem | hmem
    . exact hs origin callback reply hmem
    . simp at hmem
  | proceed index =>
    rcases envStep_proceed h with ⟨frame, _, ⟨_, rfl⟩ | ⟨call, calls, _, rfl⟩⟩
    . exact hs origin callback reply hmem
    . rcases List.mem_append.mp hmem with hmem | hmem
      . exact hs origin callback reply hmem
      . simp at hmem
  | _ => exact absurd hok id

structure Underway (F : Double) (answers : Nat → Answers) (s : EnvState) : Prop where
  reachable : (environment F).Reachable (Orderly F) s
  answered : ∀ origin, AnsweredBy (answers origin) origin s.trace
  awaits : Awaits F answers s

theorem Underway.step {action : EnvAction} (hs : Underway F answers s)
    (hok : takesUp answers s action) (h : envStep F s action = some s')
    : Underway F answers s' where
  reachable := .step hs.reachable (sustains_of_awaits hs.awaits hok) h
  answered := answered_step hs.answered hok h
  awaits := awaits_step hs.awaits (fitted_of_reachable hs.reachable)
    (alive_of_reachable hs.reachable) hok h

theorem EnvState.AtRest.drained (h : s.AtRest) (origin : Nat) : Drained s origin where
  requests := by simp [h.requests]
  queue := by simp [h.queue]
  active := by simp [h.active]

structure Completes (F : Double) (answers : Nat → Answers) (s : EnvState) : Prop where
  bounded : ∀ as t, (environment F).exec s as = some t →
    (environment F).Along (takesUp answers) s as →
    as.length + t.work F everyone ≤ s.work F everyone
  completes : ∃ as t, (environment F).exec s as = some t
    ∧ (environment F).Along (takesUp answers) s as ∧ t.AtRest
  correct : ∀ as t, (environment F).exec s as = some t →
    (environment F).Along (takesUp answers) s as →
    (∀ action, takesUp answers t action → envStep F t action = none) →
    t.AtRest ∧ ∀ origin start, .started origin start ∈ t.trace →
      visible origin t.trace = start.outcome F (answers origin)

theorem total_correctness (hs : (environment F).Reachable (Orderly F) s)
    (hanswered : ∀ origin, AnsweredBy (answers origin) origin s.trace)
    (hawaits : Awaits F answers s) : Completes F answers s where
  bounded := by
    intro as t hexec halong
    exact (spends_takesUp F answers).length_le halong hexec
  completes := by
    have hrests := (spends_takesUp F answers).comes_to_rest (s := s) (fun _ => True) EnvState.AtRest
      (fun _ _ _ _ _ _ => trivial) (fun _ _ hrest => exists_takesUp answers hrest) trivial
    rcases hrests with ⟨as, t, hexec, halong, _, hrest⟩
    exact ⟨as, t, hexec, halong, hrest⟩
  correct := by
    intro as t hexec halong hstuck
    have hrest : t.AtRest := by
      by_contra hrest
      rcases exists_takesUp answers hrest with ⟨action, u, hok, hstep⟩
      rw [hstuck action hok] at hstep
      contradiction
    have ht : Underway F answers t := by
      apply (System.steps_of_exec hexec halong).invariant ⟨hs, hanswered, hawaits⟩
      intro u action v hu hok hstep
      exact hu.step hok hstep
    refine ⟨hrest, ?_⟩
    intro origin start hstarted
    exact visible_eq_outcome ht.reachable hstarted (ht.answered origin) (hrest.drained origin)

/-! ## A run whose transactions request is pending -/

theorem requestedActions_exec
    : ((environment Double.integers).exec (environment Double.integers).init requestedActions).isSome
        = true := by
  decide +kernel

def requestedState : EnvState :=
  ((environment Double.integers).exec (environment Double.integers).init requestedActions).get
    requestedActions_exec

theorem answeredBy_same {answers : Answers} {trace : List Event}
    (h : (trace.all fun
      | .replied _ callback reply => reply == answers.to callback
      | _ => true) = true)
    : ∀ origin, AnsweredBy answers origin trace := by
  intro origin callback reply hmem
  rw [List.all_eq_true] at h
  simpa using h _ hmem

theorem total_correctness_requested
    : Completes Double.integers (fun _ => timeoutAnswers) requestedState := by
  apply total_correctness
  . exact System.reachable_exec requestedActions_exec
      (along_orderly (by decide +kernel) (by decide +kernel))
  . exact answeredBy_same (by decide +kernel)
  . intro request hrequest cell hcell hdropped
    have hpresent : requestedState.cells.all (· != none) = true := by decide +kernel
    rw [List.all_eq_true] at hpresent
    have := hpresent none (List.mem_of_getElem? hdropped)
    contradiction

end LedgerApp
