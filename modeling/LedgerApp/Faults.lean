import LedgerApp.Completion

/-!
The two ways in which the library uses a pointer that is null or dangling, whatever the platform
does with an observer, a response handle and a dispatcher that are not null: the background context
of the `start` is null, or a transactions reply failed and the closure of its `tx_task` is gone.
-/

namespace LedgerApp

open Bytes Json11

variable {F : Double} {s s' : EnvState}

/-- What makes a call in a Runnable of `start` a fault. -/
inductive Misused (F : Double) (cells : List (Option Task)) (start : Start) (task : Task) : Prop
  | nullContext (closure : TokenReply) (resp : HttpResponse)
      (htask : task = .reply (.token closure) resp) (hback : start.backContext = none)
  | dangling (cell : Cell) (hcell : refersTo F task = some cell)
      (hdropped : cells[cell]? = some none)

theorem Misused.mono {cells cells' : List (Option Task)} {start : Start} {task : Task}
    (h : Misused F cells start task)
    (hcells : ∀ cell : Cell, cells[cell]? = some none → cells'[cell]? = some none)
    : Misused F cells' start task := by
  cases h with
  | nullContext closure resp htask hback => exact .nullContext closure resp htask hback
  | dangling cell hcell hdropped => exact .dangling cell hcell (hcells cell hdropped)

/-! ## The calls of a Runnable -/

def Task.Watched : Task → Prop
  | .update closure => closure.observer ≠ none
  | _ => True

section

variable {start : Start} {cells : List (Option Task)} {task : Task} {cell : Cell}
variable {getObserver : HandleRef → Option Observer}

theorem misused_of_fault (hown : task.Own start cells) (hwatched : task.Watched)
    (h : .fault ∈ task.call F cell cells getObserver) : Misused F cells start task := by
  cases task with
  | reply callback resp =>
    cases callback with
    | token closure =>
      rw [show closure = start.tokenReply from hown, Task.call, TokenReply.call_eq] at h
      split at h
      . simp at h
      . rw [Start.tokenContinuation_call] at h
        split at h
        . simp at h
        . next hback => exact .nullContext closure resp rfl hback
    | transactions closure =>
      rcases hown with ⟨enclosing, token, rfl, hkept⟩
      rw [Task.call, TxReply.call_eq] at h
      split at h
      . next e hread =>
        have hrefers : refersTo F (.reply (.transactions (start.txReply enclosing)) resp)
            = some enclosing := by
          simp [refersTo, hread, Start.txReply]
        rcases hkept with hkept | hkept
        . simp [Start.txReply, responseIn_of_present hkept, respondBy] at h
        . exact .dangling enclosing hrefers hkept
      . split at h
        . rw [StartCallback.call_eq, List.mem_append, List.mem_cons] at h
          rcases h with h | h | h
          . have := mem_printed h
            contradiction
          . contradiction
          . split at h
            . simp at h
            . simp at h
        . simp at h
  | getTransactions closure =>
    rcases hown with ⟨token, rfl⟩
    rw [Task.call, Start.txTask_call] at h
    split at h
    . simp at h
    . simp at h
  | update closure =>
    rw [Task.call, Update.call] at h
    split at h
    . simp at h
    . next hnone => exact absurd hnone hwatched

theorem watched_of_execute {context : Context} {later : Task} (hown : task.Own start cells)
    (hobserver : getObserver start.handle ≠ none)
    (h : .execute context later ∈ task.call F cell cells getObserver) : later.Watched := by
  have hmakes := Task.makes_of_mem h
  cases later with
  | update closure =>
    rcases hmakes with ⟨reply, resp, json, rfl, _, _, _, rfl⟩
    rcases hown with ⟨enclosing, token, rfl, _⟩
    exact hobserver
  | _ => trivial

end

/-! ## Every state -/

-- what an entry point does after it was called
def Call.Entry : Call → Prop
  | .get _ _ _ _ => True
  | .execute _ task => task.Watched
  | _ => False

def Body.Sound : Body → Prop
  | .entry calls => ∀ call ∈ calls, call.Entry
  | .run runnable => runnable.task.Watched

def Explained (F : Double) (w : World) (origin : Nat) : Prop :=
  ∃ runnable start, .ran runnable ∈ w.trace ∧ runnable.origin = origin
    ∧ .started origin start ∈ w.trace ∧ Misused F w.cells start runnable.task

def Act.Explained (F : Double) (w : World) (act : Act) : Prop :=
  act.call = .fault → LedgerApp.Explained F w act.origin

structure Sound (F : Double) (s : EnvState) : Prop where
  observed : ∀ origin start, .started origin start ∈ s.trace →
    s.lib.getObserver start.handle ≠ none
  queue : ∀ runnable ∈ s.queue, runnable.task.Watched
  active : ∀ frame ∈ s.active, frame.body.Sound
  acts : ∀ act ∈ s.acts, act.Explained F s.toWorld

theorem entry_start (start : Start)
    : (Body.entry (start.call start.testnetMode)).Sound := by
  intro call hmem
  rcases Start.mem_call hmem with ⟨impl, rfl⟩
  trivial

theorem entry_on (callback : HttpCallback) (reply : Reply)
    : (Body.entry (callback.on reply)).Sound := by
  intro call hmem
  rcases HttpCallback.mem_on hmem with ⟨context, rfl⟩
  trivial

theorem getObserver_step {action : EnvAction}
    (hs : ∀ origin start, .started origin start ∈ s.trace → s.lib.getObserver start.handle ≠ none)
    (h : envStep F s action = some s')
    : ∀ origin start, .started origin start ∈ s'.trace →
        s'.lib.getObserver start.handle ≠ none := by
  intro origin start hmem
  rcases (envStep_lib h).2 with ⟨events, htrace, hnone, hobserver⟩
    | ⟨self, observer, started, _, _, _, rfl, hstarted, htrace⟩
  . rw [htrace, List.mem_append] at hmem
    rcases Option.ne_none_iff_exists'.mp (hs origin start (hmem.resolve_right (hnone origin start)))
      with ⟨found, hfound⟩
    rw [hobserver _ _ hfound]
    simp
  . rw [htrace, List.mem_append, List.mem_singleton, Event.started.injEq] at hmem
    rw [hstarted.getObserver]
    split
    . simp
    . next hne =>
      rcases hmem with hmem | ⟨_, rfl⟩
      . exact hs origin start hmem
      . exact absurd hstarted.handle_eq hne

theorem Act.Explained.later {w w' : World} {act : Act} (h : act.Explained F w)
    (htrace : ∀ event ∈ w.trace, event ∈ w'.trace)
    (hcells : ∀ cell : Cell, w.cells[cell]? = some none → w'.cells[cell]? = some none)
    : act.Explained F w' := by
  intro hfault
  rcases h hfault with ⟨runnable, start, hran, horigin, hstarted, hmisused⟩
  exact ⟨runnable, start, htrace _ hran, horigin, htrace _ hstarted, hmisused.mono hcells⟩

namespace Sound

theorem enter {origin : Nat} {event : Event} {body : Body} (h : Sound F s) (hbody : body.Sound)
    (hobserved : ∀ other start, .started other start ∈ (s.enter origin event body).trace →
      s.lib.getObserver start.handle ≠ none)
    : Sound F (s.enter origin event body) where
  observed := hobserved
  queue := h.queue
  active := by
    intro frame hmem
    rcases List.mem_append.mp hmem with hmem | hmem
    . exact h.active frame hmem
    . rw [List.mem_singleton.mp hmem]
      exact hbody
  acts := fun act hmem =>
    (h.acts act hmem).later (fun _ hevent => List.mem_append_left _ hevent) fun _ hcell => hcell

theorem make {frame : Frame} {call : Call} {start : Start} (h : Sound F s)
    (hframe : frame.body.Sound) (hfits : frame.Fits s.toWorld start)
    (hcall : call ∈ frame.body.calls F s.toWorld) : Sound F (s.make frame call) := by
  have hdropped : ∀ cell : Cell, s.cells[cell]? = some none →
      (s.cells ++ tasks [call])[cell]? = some none := by
    intro cell hcell
    rw [List.getElem?_append_left (List.getElem?_eq_some_iff.mp hcell).1, hcell]
  have hbody := hfits.body
  refine ⟨?_, ?_, ?_, ?_⟩
  . intro origin other hmem
    apply h.observed origin other
    simpa [EnvState.make, World.perform] using hmem
  . intro runnable hmem
    rcases List.mem_append.mp hmem with hmem | hmem
    . exact h.queue runnable hmem
    . cases call with
      | execute context task =>
        rw [show runnable = ⟨frame.origin, s.cells.length, context, task⟩ from
          List.mem_singleton.mp hmem]
        generalize frame.body = body at hframe hbody hcall
        cases body with
        | entry calls => exact hframe _ hcall
        | run ran =>
          exact watched_of_execute hbody.1.own (h.observed _ _ hbody.1.started) hcall
      | _ => simp [submitted] at hmem
  . intro other hmem
    rcases List.mem_append.mp hmem with hmem | hmem
    . exact h.active other hmem
    . rw [List.mem_singleton.mp hmem]
      exact hframe
  . intro act hmem
    rcases List.mem_append.mp hmem with hmem | hmem
    . exact (h.acts act hmem).later (fun _ hevent => List.mem_append_left _ hevent) hdropped
    . rw [List.mem_singleton.mp hmem]
      intro hfault
      dsimp only at hfault ⊢
      rw [hfault] at hcall
      have hstarted := hfits.started
      generalize frame.body = body at hframe hbody hcall
      cases body with
      | entry calls => exact absurd (hframe _ hcall) id
      | run ran =>
        have hmisused := misused_of_fault hbody.1.own hframe hcall
        exact ⟨ran, start, List.mem_append_left _ hbody.2.2, hbody.2.1,
          List.mem_append_left _ hstarted, hmisused.mono hdropped⟩

theorem step {action : EnvAction} (hs : Sound F s) (hfitted : Fitted s)
    (h : envStep F s action = some s') : Sound F s' := by
  have hobserved := getObserver_step hs.observed h
  cases action with
  | createApi httpImpl threadDispatcher =>
    rw [envStep_createApi h] at hobserved ⊢
    exact ⟨hobserved, hs.queue, hs.active, hs.acts⟩
  | observerTransactionList api =>
    rcases envStep_observerTransactionList h with ⟨lib, _, rfl⟩
    exact ⟨hobserved, hs.queue, hs.active, hs.acts⟩
  | start handle observer addresses options response =>
    rcases envStep_start h with ⟨lib, start, _, rfl⟩
    have hlib : Sound F { s with lib := lib } := by
      refine ⟨?_, hs.queue, hs.active, hs.acts⟩
      intro origin other hmem
      exact hobserved origin other (List.mem_append_left _ hmem)
    exact hlib.enter (entry_start start) hobserved
  | deliver index reply keep =>
    rcases envStep_deliver h with ⟨request, _, rfl⟩
    let requests := if keep then s.requests else s.requests.eraseIdx index
    have hrest : Sound F { s with requests := requests } :=
      ⟨hs.observed, hs.queue, hs.active, hs.acts⟩
    exact hrest.enter (entry_on request.callback reply) hobserved
  | run index =>
    rcases envStep_run h with ⟨runnable, hrunnable, rfl⟩
    have hrest : Sound F { s with queue := s.queue.eraseIdx index } :=
      ⟨hs.observed, fun other hmem => hs.queue other (List.mem_of_mem_eraseIdx hmem), hs.active,
        hs.acts⟩
    exact hrest.enter (hs.queue runnable (List.mem_of_getElem? hrunnable)) hobserved
  | proceed index =>
    rcases envStep_proceed h with ⟨frame, hframe, hcases⟩
    have hrest : Sound F { s with active := s.active.eraseIdx index } :=
      ⟨hs.observed, hs.queue, fun other hmem => hs.active other (List.mem_of_mem_eraseIdx hmem),
        hs.acts⟩
    rcases hcases with ⟨_, rfl⟩ | ⟨call, calls, hcall, rfl⟩
    . exact hrest
    . have hmem := List.mem_of_getElem? hframe
      rcases hfitted.active frame hmem with ⟨start, hfits⟩
      exact hrest.make (hs.active frame hmem) hfits (mem_rest hcall)
  | drop cell =>
    rcases envStep_drop h with ⟨_, rfl⟩
    refine ⟨hobserved, hs.queue, hs.active, ?_⟩
    intro act hmem
    refine (hs.acts act hmem).later (fun _ hevent => hevent) ?_
    intro other hother
    have hlt := (List.getElem?_eq_some_iff.mp hother).1
    dsimp only
    rw [List.getElem?_set]
    split
    . next heq =>
      rw [if_pos (heq ▸ hlt)]
    . exact hother

end Sound

theorem sound_of_reachable {ok : EnvState → EnvAction → Prop}
    (h : (environment F).Reachable ok s) : Sound F s := by
  apply h.invariant
  . constructor
    . simp [environment, EnvState.init, World.init]
    . simp [environment, EnvState.init]
    . simp [environment, EnvState.init]
    . simp [environment, EnvState.init]
  . intro t action u ht ih _ hstep
    exact ih.step (fitted_of_reachable ht) hstep

end LedgerApp
