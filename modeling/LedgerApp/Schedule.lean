import LedgerApp.Confinement
import LedgerApp.Sequential
import LedgerApp.Turns

/-!
The order in which the platform takes its steps does not matter: whatever becomes visible of a
`start` is what its sequential reading says, once nothing of it is pending.
-/

namespace LedgerApp

open Bytes Json11

variable {F : Double} {s s' : EnvState}

-- the tasks that a frame is about to run, or to submit
def Frame.pending (frame : Frame) : List Task :=
  match frame.body with
  | .entry calls => (calls.drop frame.made).filterMap fun
    | .execute _ task => some task
    | _ => none
  | .run runnable => if frame.made = 0 then [runnable.task] else []

def EnvState.pending (s : EnvState) : List Task :=
  s.queue.map (·.task) ++ s.active.flatMap Frame.pending

-- the handles of the family are pairwise different, and each request gets one reply
def family (s : EnvState) : EnvAction → Bool
  | .start handle _ _ _ _ => s.trace.all fun
    | .started _ start => start.handle != handle
    | _ => true
  | .deliver _ _ keep => !keep
  | _ => true

-- a transactions reply fails only while the closure of its `tx_task` is there, and that closure is
-- not dropped before the handler has answered
def sustains (F : Double) (s : EnvState) : EnvAction → Bool
  | .deliver index reply _ =>
    match s.requests[index]? with
    | some request =>
      match refersTo F (.reply request.callback.cb reply.response) with
      | some cell => s.cells[cell]? != some none
      | none => true
    | none => true
  | .drop cell => s.pending.all fun task => refersTo F task != some cell
  | _ => true

structure Orderly (F : Double) (s : EnvState) (action : EnvAction) : Prop where
  family : family s action = true
  sustains : sustains F s action = true

/-! ## What the handlers find -/

def Task.Present (F : Double) (cells : List (Option Task)) (task : Task) : Prop :=
  ∀ cell, refersTo F task = some cell → cells[cell]? ≠ some none

structure Sustained (F : Double) (s : EnvState) : Prop where
  observed : ∀ origin start, .started origin start ∈ s.trace →
    s.lib.getObserver start.handle = some start.observer
  present : ∀ task ∈ s.pending, task.Present F s.cells

theorem observed_step {action : EnvAction}
    (hs : ∀ origin start, .started origin start ∈ s.trace →
      s.lib.getObserver start.handle = some start.observer)
    (hok : family s action = true) (h : envStep F s action = some s')
    : ∀ origin start, .started origin start ∈ s'.trace →
        s'.lib.getObserver start.handle = some start.observer := by
  intro origin start hmem
  rcases (envStep_lib h).2 with ⟨events, htrace, hnone, hobserver⟩
    | ⟨self, observer, started, _, _, _, rfl, hstarted, htrace⟩
  . rw [htrace, List.mem_append] at hmem
    exact hobserver _ _ (hs origin start (hmem.resolve_right (hnone origin start)))
  . rw [htrace, List.mem_append, List.mem_singleton, Event.started.injEq] at hmem
    rw [hstarted.getObserver]
    rcases hmem with hmem | ⟨_, rfl⟩
    . simp only [family, List.all_eq_true] at hok
      have hne : start.handle ≠ self := by simpa using hok _ hmem
      rw [if_neg hne]
      exact hs origin start hmem
    . rw [if_pos hstarted.handle_eq, hstarted.observer_eq]

theorem mem_pending_enter {origin : Nat} {event : Event} {body : Body} {task : Task}
    (h : task ∈ (s.enter origin event body).pending)
    : task ∈ s.pending ∨ task ∈ Frame.pending { origin, body, made := 0 } := by
  simpa [EnvState.pending, EnvState.enter, or_assoc] using h

theorem mem_pending_submits {origin : Nat} {calls : List Call} {task : Task}
    (h : task ∈ Frame.pending { origin, body := .entry calls, made := 0 })
    : ∃ context, .execute context task ∈ calls := by
  simp only [Frame.pending, List.drop_zero, List.mem_filterMap] at h
  rcases h with ⟨call, hcall, h⟩
  cases call with
  | execute context task' =>
    simp only [Option.some.injEq] at h
    rw [← h]
    exact ⟨context, hcall⟩
  | _ => contradiction

theorem mem_pending_eraseIdx {index : Nat} {task : Task}
    (h : task ∈ EnvState.pending { s with active := s.active.eraseIdx index })
    : task ∈ s.pending := by
  simp only [EnvState.pending, List.mem_append, List.mem_flatMap] at h ⊢
  rcases h with h | ⟨frame, hframe, h⟩
  . exact .inl h
  . exact .inr ⟨frame, List.mem_of_mem_eraseIdx hframe, h⟩

theorem mem_pending_run {index : Nat} {runnable : Runnable} {event : Event} {task : Task}
    (hrunnable : s.queue[index]? = some runnable)
    (h : task ∈ (EnvState.enter { s with queue := s.queue.eraseIdx index } runnable.origin event
      (.run runnable)).pending) : task ∈ s.pending := by
  rcases mem_pending_enter h with h | h
  . simp only [EnvState.pending, List.mem_append, List.mem_map] at h ⊢
    rcases h with ⟨other, hother, h⟩ | h
    . exact .inl ⟨other, List.mem_of_mem_eraseIdx hother, h⟩
    . exact .inr h
  . have htask : task = runnable.task := by simpa [Frame.pending] using h
    rw [htask]
    apply List.mem_append_left
    exact List.mem_map_of_mem (List.mem_of_getElem? hrunnable)

theorem mem_pending_next {frame : Frame} {task : Task} (h : task ∈ frame.next.pending)
    : task ∈ frame.pending := by
  unfold Frame.pending Frame.next at h
  unfold Frame.pending
  split at h
  . next calls hcalls =>
    dsimp only at h hcalls
    rw [← List.drop_drop, List.mem_filterMap] at h
    rcases h with ⟨call, hcall, h⟩
    rw [hcalls, List.mem_filterMap]
    exact ⟨call, List.mem_of_mem_drop hcall, h⟩
  . simp at h

-- what a frame submits was pending already, unless it refers to nothing
theorem pending_of_execute {frame : Frame} {w : World} {context : Context} {task : Task}
    {calls : List Call} (h : frame.rest F w = .execute context task :: calls)
    : task ∈ frame.pending ∨ refersTo F task = none := by
  have hmem := mem_rest h
  unfold Frame.rest at h
  unfold Frame.pending
  generalize frame.body = body at h hmem
  cases body with
  | entry made =>
    left
    dsimp only
    rw [show made.drop frame.made = .execute context task :: calls from h]
    simp
  | run runnable =>
    right
    exact refersTo_body hmem

theorem mem_pending_make {index : Nat} {frame : Frame} {call : Call} {calls : List Call}
    {task : Task} (hframe : s.active[index]? = some frame)
    (hrest : frame.rest F s.toWorld = call :: calls)
    (h : task ∈ (EnvState.make { s with active := s.active.eraseIdx index } frame call).pending)
    : task ∈ s.pending ∨ refersTo F task = none := by
  have hpending : ∀ other ∈ frame.pending, other ∈ s.pending := by
    intro other hother
    apply List.mem_append_right
    exact List.mem_flatMap_of_mem (List.mem_of_getElem? hframe) hother
  simp only [EnvState.pending, EnvState.make, List.map_append, List.mem_append,
    List.flatMap_append, List.flatMap_singleton] at h
  rcases h with (h | h) | h | h
  . exact .inl (List.mem_append_left _ h)
  . cases call with
    | execute context task' =>
      rw [show task = task' from List.mem_singleton.mp h]
      rcases pending_of_execute hrest with hexecute | hnone
      . exact .inl (hpending task' hexecute)
      . exact .inr hnone
    | _ => simp [submitted] at h
  . exact .inl (mem_pending_eraseIdx (List.mem_append_right _ h))
  . exact .inl (hpending task (mem_pending_next h))

theorem present_step {action : EnvAction} (hs : ∀ task ∈ s.pending, task.Present F s.cells)
    (hok : sustains F s action = true) (h : envStep F s action = some s')
    : ∀ task ∈ s'.pending, task.Present F s'.cells := by
  intro task hmem
  cases action with
  | createApi httpImpl threadDispatcher =>
    rw [envStep_createApi h] at hmem ⊢
    exact hs task hmem
  | observerTransactionList api =>
    rcases envStep_observerTransactionList h with ⟨lib, _, rfl⟩
    exact hs task hmem
  | start handle observer addresses options response =>
    rcases envStep_start h with ⟨lib, start, _, rfl⟩
    rcases mem_pending_enter hmem with hmem | hmem
    . exact hs task hmem
    . rcases mem_pending_submits hmem with ⟨context, hexecute⟩
      rcases Start.mem_call hexecute with ⟨impl, heq⟩
      contradiction
  | deliver index reply keep =>
    rcases envStep_deliver h with ⟨request, hrequest, rfl⟩
    rcases mem_pending_enter hmem with hmem | hmem
    . exact hs task hmem
    . rcases mem_pending_submits hmem with ⟨context, hexecute⟩
      rcases HttpCallback.mem_on hexecute with ⟨context', heq⟩
      rw [(Call.execute.inj heq).2]
      intro cell hcell
      have hpresent : s.cells[cell]? ≠ some none := by
        simpa [sustains, hrequest, hcell] using hok
      exact hpresent
  | run index =>
    rcases envStep_run h with ⟨runnable, hrunnable, rfl⟩
    exact hs task (mem_pending_run hrunnable hmem)
  | proceed index =>
    rcases envStep_proceed h with ⟨frame, hframe, ⟨_, rfl⟩ | ⟨call, calls, hrest, rfl⟩⟩
    . exact hs task (mem_pending_eraseIdx hmem)
    . intro cell hcell hdropped
      rcases mem_pending_make hframe hrest hmem with hmem | hnone
      . exact hs task hmem cell hcell (dropped_append hdropped)
      . rw [hnone] at hcell
        contradiction
  | drop cell =>
    rcases envStep_drop h with ⟨_, rfl⟩
    intro other hother hdropped
    dsimp only at hdropped
    rw [List.getElem?_set] at hdropped
    split at hdropped
    . next heq =>
      simp only [sustains, List.all_eq_true] at hok
      have := hok task hmem
      rw [hother, heq] at this
      simp at this
    . exact hs task hmem other hother hdropped

theorem sustained_of_reachable (h : (environment F).Reachable (Orderly F) s) : Sustained F s := by
  apply h.invariant
  . constructor
    . simp [environment, EnvState.init, World.init]
    . simp [environment, EnvState.init, EnvState.pending]
  . intro t action u _ ht hok hstep
    exact ⟨observed_step ht.observed hok.family hstep, present_step ht.present hok.sustains hstep⟩

/-! ## The work that is pending for one `start` -/

def Start.rest (F : Double) (start : Start) (frame : Frame) : List Call :=
  (match frame.body with
    | .entry calls => calls
    | .run runnable => start.body F runnable).drop frame.made

theorem length_of_refersTo {runnable : Runnable} {cell : Cell} (w : World) (start : Start)
    (h : refersTo F runnable.task = some cell)
    : (w.body F runnable).length ≤ 1 ∧ (start.body F runnable).length ≤ 1 := by
  unfold World.body Start.body
  generalize runnable.task = task at h
  cases task with
  | reply callback resp =>
    cases callback with
    | token closure => contradiction
    | transactions closure =>
      simp only [refersTo] at h
      split at h
      . contradiction
      . next hread =>
        dsimp only [Task.call]
        rw [TxReply.call_eq, TxReply.call_eq, hread]
        refine ⟨?_, by simp [respondBy]⟩
        generalize responseIn w.cells closure.enclosing = response
        cases response with
        | none => simp [respondBy]
        | some response => simp [respondBy]
  | getTransactions closure => contradiction
  | update closure => contradiction

theorem rest_eq {frame : Frame} {start : Start} (hs : Sustained F s)
    (hframe : frame ∈ s.active) (hfits : frame.Fits s.toWorld start)
    : frame.rest F s.toWorld = start.rest F frame := by
  have hbody := hfits.body
  have hpending : ∀ task ∈ frame.pending, task.Present F s.cells := by
    intro task hmem
    apply hs.present task
    apply List.mem_append_right
    exact List.mem_flatMap_of_mem hframe hmem
  unfold Frame.rest Start.rest
  unfold Frame.pending at hpending
  unfold Body.Fits at hbody
  generalize frame.body = body at hbody hpending
  cases body with
  | entry calls => rfl
  | run runnable =>
    have hobserver := hs.observed _ _ hbody.1.started
    dsimp only [Body.calls] at hpending ⊢
    by_cases hmade : frame.made = 0
    . rw [if_pos hmade] at hpending
      rw [body_eq hbody.1.own hobserver (hpending runnable.task (List.mem_singleton_self _))]
    . generalize hrefers : refersTo F runnable.task = cell
      cases cell with
      | none =>
        rw [body_eq hbody.1.own hobserver (by simp [hrefers])]
      | some cell =>
        have hlength := length_of_refersTo s.toWorld start hrefers
        rw [List.drop_eq_nil_of_le (by omega), List.drop_eq_nil_of_le (by omega)]

theorem continuesLast_rest {frame : Frame} {w : World} {start : Start}
    (hfits : frame.Fits w start) : ContinuesLast (start.rest F frame) := by
  unfold Start.rest
  apply ContinuesLast.drop
  have hbody := hfits.body
  unfold Body.Fits at hbody
  generalize frame.body = body at hbody
  cases body with
  | entry calls => exact continuesLast_of_length hbody.1
  | run runnable => exact continuesLast_body runnable

structure Drained (s : EnvState) (origin : Nat) : Prop where
  requests : ∀ request ∈ s.requests, request.origin ≠ origin
  queue : ∀ runnable ∈ s.queue, runnable.origin ≠ origin
  active : ∀ frame ∈ s.active, frame.origin ≠ origin

instance (s : EnvState) (origin : Nat) : Decidable (Drained s origin) :=
  decidable_of_iff
    ((∀ request ∈ s.requests, request.origin ≠ origin)
      ∧ (∀ runnable ∈ s.queue, runnable.origin ≠ origin)
      ∧ ∀ frame ∈ s.active, frame.origin ≠ origin)
    ⟨fun h => ⟨h.1, h.2.1, h.2.2⟩, fun h => ⟨h.requests, h.queue, h.active⟩⟩

section

variable (F : Double) (start : Start) (answers : Answers)

def EnvState.items (s : EnvState) (origin : Nat) : List (List Call) :=
  (owned Request.origin origin s.requests).map
      (fun request => request.callback.on (answers.to request.callback.cb)) ++
    ((owned Runnable.origin origin s.queue).map (start.body F) ++
      (owned Frame.origin origin s.active).map (start.rest F))

end

variable {start : Start} {answers : Answers}

theorem items_enter_self (s : EnvState) (origin : Nat) (event : Event) (body : Body)
    : (s.enter origin event body).items F start answers origin
        = s.items F start answers origin
          ++ [start.rest F { origin, body, made := 0 }] := by
  simp [EnvState.items, EnvState.enter, World.log, owned]

theorem items_enter_other {origin owner : Nat} (hne : owner ≠ origin) (s : EnvState)
    (event : Event) (body : Body)
    : (s.enter owner event body).items F start answers origin
        = s.items F start answers origin := by
  simp [EnvState.items, EnvState.enter, World.log, owned, hne]

theorem Drained.items {origin : Nat} (h : Drained s origin)
    : s.items F start answers origin = [] := by
  simp [EnvState.items, owned_eq_nil h.requests, owned_eq_nil h.queue, owned_eq_nil h.active]

theorem drained_fresh {origin : Nat} (hs : Fitted s) (hrooted : Rooted s)
    (hfresh : s.lib.now ≤ origin) : Drained s origin := by
  have hne : ∀ owner start', .started owner start' ∈ s.trace → owner ≠ origin := by
    intro owner start' hmem
    have := hrooted.fresh owner start' hmem
    omega
  refine ⟨?_, ?_, ?_⟩
  . intro request hmem
    rcases hs.requests request hmem with ⟨start', hfits⟩
    exact hne _ start' hfits.started
  . intro runnable hmem
    rcases hs.queue runnable hmem with ⟨start', hfits⟩
    exact hne _ start' hfits.started
  . intro frame hmem
    rcases hs.active frame hmem with ⟨start', hfits⟩
    exact hne _ start' hfits.started

theorem visible_fresh {origin : Nat} (hs : Fitted s) (hrooted : Rooted s)
    (hfresh : s.lib.now ≤ origin) : visible origin s.trace = [] := by
  unfold visible
  rw [List.flatMap_eq_nil_iff]
  intro call hmem
  rcases hs.recorded origin call (mem_calls.mp hmem) with ⟨act, hact, horigin, _⟩
  rcases (hs.acts act hact).started with ⟨start', hstarted⟩
  have := hrooted.fresh act.origin start' hstarted
  omega

theorem visible_log (origin : Nat) (trace : List Event) {event : Event}
    (hevent : ∀ owner call, event ≠ .called owner call)
    : visible origin (trace ++ [event]) = visible origin trace := by
  cases event with
  | called owner call => exact absurd rfl (hevent owner call)
  | _ => simp [visible]

theorem visible_called (origin : Nat) (trace : List Event) (call : Call)
    : visible origin (trace ++ [.called origin call]) = visible origin trace ++ call.visible := by
  simp [visible]

theorem visible_called_other {origin owner : Nat} (hne : owner ≠ origin) (trace : List Event)
    (call : Call) : visible origin (trace ++ [.called owner call]) = visible origin trace := by
  simp [visible, calls, hne]

/-! ## What a step takes up -/

theorem items_deliver {index : Nat} {request : Request}
    (hrequest : s.requests[index]? = some request)
    : (s.items F start answers request.origin).Perm
        (request.callback.on (answers.to request.callback.cb) ::
          EnvState.items F start answers { s with requests := s.requests.eraseIdx index }
            request.origin) :=
  ((owned_eraseIdx_perm hrequest).map _).append_right _

theorem items_run {index : Nat} {runnable : Runnable}
    (hrunnable : s.queue[index]? = some runnable)
    : (s.items F start answers runnable.origin).Perm
        (start.body F runnable ::
          EnvState.items F start answers { s with queue := s.queue.eraseIdx index }
            runnable.origin) := by
  have hperm : (owned Runnable.origin runnable.origin s.queue).Perm
      (runnable :: owned Runnable.origin runnable.origin (s.queue.eraseIdx index)) :=
    owned_eraseIdx_perm hrunnable
  exact (((hperm.map _).append_right _).append_left _).trans List.perm_middle

theorem items_proceed {index : Nat} {frame : Frame} (hframe : s.active[index]? = some frame)
    : (s.items F start answers frame.origin).Perm
        (start.rest F frame ::
          EnvState.items F start answers { s with active := s.active.eraseIdx index }
            frame.origin) := by
  have hperm : (owned Frame.origin frame.origin s.active).Perm
      (frame :: owned Frame.origin frame.origin (s.active.eraseIdx index)) :=
    owned_eraseIdx_perm hframe
  apply List.Perm.trans (List.Perm.append_left _ _) List.perm_middle
  exact ((hperm.map (start.rest F)).append_left _).trans List.perm_middle

section

variable (F : Double) (start : Start) (answers : Answers)

-- what a call adds, and the rest of the body that makes it
def EnvState.pieces (s : EnvState) (frame : Frame) (call : Call) : List (List Call) :=
  (issued frame.origin [call]).map
      (fun request => request.callback.on (answers.to request.callback.cb)) ++
    ((submitted frame.origin s.cells.length [call]).map (start.body F) ++ [start.rest F frame.next])

end

theorem items_make (s : EnvState) (frame : Frame) (call : Call)
    : ((s.make frame call).items F start answers frame.origin).Perm
        (s.pieces F start answers frame call ++ s.items F start answers frame.origin) := by
  have hactive : owned Frame.origin frame.origin (s.active ++ [frame.next])
      = owned Frame.origin frame.origin s.active ++ [frame.next] := by
    simp [owned, Frame.next]
  simp only [EnvState.items, EnvState.make, World.perform, EnvState.pieces, owned_append,
    owned_issued, owned_submitted, hactive, List.map_append, List.map_singleton]
  rw [List.perm_iff_count]
  intro calls
  simp only [List.count_append]
  omega

theorem items_make_other {origin : Nat} {frame : Frame} (hne : frame.origin ≠ origin)
    (s : EnvState) (call : Call)
    : (s.make frame call).items F start answers origin = s.items F start answers origin := by
  have hrequests : owned Request.origin origin (issued frame.origin [call]) = [] := by
    rw [← owned_issued]
    apply owned_other _ hne
    intro request hmem
    exact (mem_owned.mp hmem).2
  have hqueue : owned Runnable.origin origin
      (submitted frame.origin s.cells.length [call]) = [] :=
    owned_other origin_of_mem_submitted hne
  have hactive : owned Frame.origin origin (s.active ++ [frame.next])
      = owned Frame.origin origin s.active := by
    simp [owned, Frame.next, hne]
  simp only [EnvState.items, EnvState.make, World.perform, owned_append, hrequests, hqueue,
    hactive, List.append_nil]

theorem rest_next {frame : Frame} {call : Call} {calls : List Call}
    (h : start.rest F frame = call :: calls) : start.rest F frame.next = calls := by
  unfold Start.rest Frame.next
  dsimp only
  rw [← List.drop_drop]
  unfold Start.rest at h
  rw [h]
  rfl

theorem pieces_oneAtMost {frame : Frame} {call : Call} {calls : List Call}
    (h : start.rest F frame = call :: calls) (hlast : ContinuesLast (call :: calls))
    (s : EnvState) : OneAtMost (s.pieces F start answers frame call) := by
  unfold EnvState.pieces OneAtMost
  rw [rest_next h]
  cases call with
  | get impl url header callback =>
    rw [hlast.1 rfl]
    simp [issued, submitted]
  | execute context task =>
    rw [hlast.1 rfl]
    simp [issued, submitted]
  | _ => simp [issued, submitted]

theorem pieces_outcome {frame : Frame} {call : Call} {calls : List Call}
    (h : start.rest F frame = call :: calls) {w : World} (hfits : call.Fits w start)
    (s : EnvState)
    : call.visible
          ++ (s.pieces F start answers frame call).flatten.flatMap (Call.outcome F start answers)
        = (call :: calls).flatMap (Call.outcome F start answers) := by
  unfold EnvState.pieces
  rw [rest_next h]
  cases call with
  | get impl url header callback =>
    simp [issued, submitted, Call.visible, Call.outcome, outcome_on]
  | execute context task =>
    let runnable : Runnable := ⟨frame.origin, s.cells.length, context, task⟩
    have hown : runnable.task.Own start w.cells := hfits.own
    have hbody : (start.body F runnable).flatMap (Call.outcome F start answers)
        = task.outcome F start answers := outcome_body hown
    simp [issued, submitted, Call.visible, Call.outcome, runnable, hbody]
  | _ => simp [issued, submitted, Call.visible, Call.outcome]

/-! ## The account of one `start` -/

def AnsweredBy (answers : Answers) (origin : Nat) (trace : List Event) : Prop :=
  ∀ callback reply, .replied origin callback reply ∈ trace → reply = answers.to callback

def Accounted (F : Double) (s : EnvState) (origin : Nat) (start : Start) : Prop :=
  ∀ answers, AnsweredBy answers origin s.trace →
    Account (Call.outcome F start answers) (start.outcome F answers) (visible origin s.trace)
      (s.items F start answers origin)

theorem AnsweredBy.of_append {origin : Nat} {trace more : List Event}
    (h : AnsweredBy answers origin (trace ++ more)) : AnsweredBy answers origin trace :=
  fun callback reply hmem => h callback reply (List.mem_append_left _ hmem)

theorem items_delivered {origin index : Nat} {request : Request} {reply : Reply} {event : Event}
    (hrequest : s.requests[index]? = some request)
    (hreply : request.origin = origin → reply = answers.to request.callback.cb)
    : (EnvState.items F start answers
        (EnvState.enter { s with requests := s.requests.eraseIdx index } request.origin event
          (.entry (request.callback.on reply))) origin).Perm (s.items F start answers origin) := by
  by_cases horigin : request.origin = origin
  . rw [← horigin, items_enter_self, hreply horigin]
    exact (List.perm_append_singleton _ _).trans (items_deliver hrequest).symm
  . rw [items_enter_other horigin]
    simp only [EnvState.items, owned_eraseIdx_other hrequest horigin]
    exact .refl _

theorem items_ran {origin index : Nat} {runnable : Runnable} {event : Event}
    (hrunnable : s.queue[index]? = some runnable)
    : (EnvState.items F start answers
        (EnvState.enter { s with queue := s.queue.eraseIdx index } runnable.origin event
          (.run runnable)) origin).Perm (s.items F start answers origin) := by
  by_cases horigin : runnable.origin = origin
  . rw [← horigin, items_enter_self]
    exact (List.perm_append_singleton _ _).trans (items_run hrunnable).symm
  . rw [items_enter_other horigin]
    simp only [EnvState.items, owned_eraseIdx_other hrunnable horigin]
    exact .refl _

namespace Accounted

variable {origin : Nat}

theorem congr (h : Accounted F s origin start) (htrace : ∃ more, s'.trace = s.trace ++ more)
    (hvisible : visible origin s'.trace = visible origin s.trace)
    (hitems : ∀ answers, AnsweredBy answers origin s'.trace →
      (s'.items F start answers origin).Perm (s.items F start answers origin))
    : Accounted F s' origin start := by
  intro answers hanswers
  have hperm := hitems answers hanswers
  rcases htrace with ⟨more, htrace⟩
  rw [htrace] at hanswers
  rw [hvisible]
  exact (h answers hanswers.of_append).perm hperm.symm

theorem new (hs : Fitted s) (hrooted : Rooted s) (lib : Lib)
    : Accounted F
        (EnvState.enter { s with lib := lib } s.lib.now (.started s.lib.now start)
          (.entry (start.call start.testnetMode))) s.lib.now start := by
  intro answers _
  have hfresh : s.items F start answers s.lib.now = [] :=
    (drained_fresh hs hrooted (Nat.le_refl _)).items
  have hitems : EnvState.items F start answers { s with lib := lib } s.lib.now = [] := hfresh
  have hvisible : visible s.lib.now (s.trace ++ [.started s.lib.now start]) = [] := by
    rw [visible_log _ _ (by simp)]
    exact visible_fresh hs hrooted (Nat.le_refl _)
  rw [items_enter_self, hitems, ← outcome_start]
  simp only [EnvState.enter, World.log, hvisible, List.nil_append]
  exact Account.new _

theorem returned {index : Nat} {frame : Frame} (h : Accounted F s origin start)
    (hframe : s.active[index]? = some frame)
    (hrest : frame.origin = origin → start.rest F frame = [])
    : Accounted F { s with active := s.active.eraseIdx index } origin start := by
  intro answers hanswers
  have haccount := h answers hanswers
  by_cases horigin : frame.origin = origin
  . rw [← horigin] at haccount hrest ⊢
    have := haccount.perm (items_proceed hframe)
    rw [hrest rfl] at this
    exact this.skip
  . have hitems : EnvState.items F start answers { s with active := s.active.eraseIdx index } origin
        = s.items F start answers origin := by
      simp only [EnvState.items, owned_eraseIdx_other hframe horigin]
    rw [hitems]
    exact haccount

theorem made {index : Nat} {frame : Frame} {call : Call} {calls : List Call}
    (h : Accounted F s origin start) (hframe : s.active[index]? = some frame)
    (hrest : frame.origin = origin → start.rest F frame = call :: calls
      ∧ ContinuesLast (call :: calls) ∧ call.Fits s.toWorld start)
    : Accounted F (EnvState.make { s with active := s.active.eraseIdx index } frame call)
        origin start := by
  intro answers hanswers
  have haccount := h answers (AnsweredBy.of_append hanswers)
  by_cases horigin : frame.origin = origin
  . rw [← horigin] at haccount ⊢
    rcases hrest horigin with ⟨hcalls, hlast, hfits⟩
    have hbefore := haccount.perm (items_proceed hframe)
    rw [hcalls] at hbefore
    have hafter := hbefore.step (pieces_oneAtMost hcalls hlast _) (by simp)
      (pieces_outcome hcalls hfits { s with active := s.active.eraseIdx index })
    rw [← visible_called] at hafter
    exact hafter.perm (items_make _ frame call).symm
  . have hitems : EnvState.items F start answers { s with active := s.active.eraseIdx index } origin
        = s.items F start answers origin := by
      simp only [EnvState.items, owned_eraseIdx_other hframe horigin]
    rw [items_make_other horigin, hitems]
    have hvisible : visible origin (s.trace ++ [.called frame.origin call])
        = visible origin s.trace := visible_called_other horigin _ _
    rw [← hvisible] at haccount
    exact haccount

end Accounted

theorem accounted_step {action : EnvAction} (hfitted : Fitted s) (hrooted : Rooted s)
    (hsustained : Sustained F s)
    (hs : ∀ origin start, .started origin start ∈ s.trace → Accounted F s origin start)
    (hok : Orderly F s action) (h : envStep F s action = some s')
    : ∀ origin start, .started origin start ∈ s'.trace → Accounted F s' origin start := by
  intro origin start hmem
  cases action with
  | createApi httpImpl threadDispatcher =>
    rw [envStep_createApi h] at hmem ⊢
    exact hs origin start hmem
  | observerTransactionList api =>
    rcases envStep_observerTransactionList h with ⟨lib, _, rfl⟩
    exact hs origin start hmem
  | start handle observer addresses options response =>
    rcases envStep_start h with ⟨lib, started, _, rfl⟩
    rcases List.mem_append.mp hmem with hmem | hmem
    . have hne : s.lib.now ≠ origin := Nat.ne_of_gt (hrooted.fresh origin start hmem)
      apply (hs origin start hmem).congr
      . exact ⟨_, rfl⟩
      . exact visible_log _ _ (by simp)
      . intro answers _
        rw [items_enter_other hne]
        exact .refl _
    . rw [List.mem_singleton, Event.started.injEq] at hmem
      rw [hmem.1, hmem.2]
      exact Accounted.new hfitted hrooted lib
  | deliver index reply keep =>
    rcases envStep_deliver h with ⟨request, hrequest, rfl⟩
    have hkeep : keep = false := by simpa [family] using hok.family
    rw [hkeep] at hmem ⊢
    rcases List.mem_append.mp hmem with hmem | hmem
    . apply (hs origin start hmem).congr
      . exact ⟨_, rfl⟩
      . exact visible_log _ _ (by simp)
      . intro answers hanswers
        apply items_delivered hrequest
        intro horigin
        apply hanswers
        rw [horigin]
        exact List.mem_append_right _ (List.mem_singleton_self _)
    . simp at hmem
  | run index =>
    rcases envStep_run h with ⟨runnable, hrunnable, rfl⟩
    rcases List.mem_append.mp hmem with hmem | hmem
    . apply (hs origin start hmem).congr
      . exact ⟨_, rfl⟩
      . exact visible_log _ _ (by simp)
      . exact fun _ _ => items_ran hrunnable
    . simp at hmem
  | proceed index =>
    rcases envStep_proceed h with ⟨frame, hframe, hcases⟩
    have hactive := List.mem_of_getElem? hframe
    rcases hfitted.active frame hactive with ⟨own, hfits⟩
    have hown : ∀ start', .started frame.origin start' ∈ s.trace → start' = own :=
      fun start' hstarted => hrooted.unique _ _ _ hstarted hfits.started
    have hrest_eq := rest_eq hsustained hactive hfits
    rcases hcases with ⟨hrest, rfl⟩ | ⟨call, calls, hrest, rfl⟩
    . apply (hs origin start hmem).returned hframe
      intro horigin
      rw [hown start (by rw [horigin]; exact hmem), ← hrest_eq, hrest]
    . rcases List.mem_append.mp hmem with hmem | hmem
      . apply (hs origin start hmem).made hframe
        intro horigin
        rw [hown start (by rw [horigin]; exact hmem)]
        have hlast := continuesLast_rest (F := F) hfits
        rw [← hrest_eq, hrest] at hlast ⊢
        exact ⟨rfl, hlast, hfits.call (mem_rest hrest)⟩
      . simp at hmem
  | drop cell =>
    rcases envStep_drop h with ⟨_, rfl⟩
    exact hs origin start hmem

theorem accounted_of_reachable (h : (environment F).Reachable (Orderly F) s)
    : ∀ origin start, .started origin start ∈ s.trace → Accounted F s origin start := by
  apply h.invariant
  . simp [environment, EnvState.init, World.init]
  . intro t action u ht ih hok hstep
    exact accounted_step (fitted_of_reachable ht) (rooted_of_reachable ht)
      (sustained_of_reachable ht) ih hok hstep

/-! ## All schedules -/

theorem visible_eq_outcome (hs : (environment F).Reachable (Orderly F) s) {origin : Nat}
    (hstarted : .started origin start ∈ s.trace) (hanswers : AnsweredBy answers origin s.trace)
    (hdrained : Drained s origin) : visible origin s.trace = start.outcome F answers := by
  have haccount := accounted_of_reachable hs origin start hstarted answers hanswers
  rw [hdrained.items] at haccount
  exact haccount.of_nil

end LedgerApp
