import LedgerApp.Causality
import LedgerApp.Lemmas.Environment

/-!
The contexts in which the library acts. Whichever threads the platform uses, the handlers of the
replies, the answers and the updates run inside Runnables of the main context, and the transactions
are requested inside Runnables of the background context.
-/

namespace LedgerApp

open Bytes Json11

variable {F : Double} {s s' : EnvState}

def ThreadDispatcher.Steady (threadDispatcher : ThreadDispatcher) : Prop :=
  ∀ now now' name, threadDispatcher.getSerialExecutionContext now name
    = threadDispatcher.getSerialExecutionContext now' name

def steady (_ : EnvState) : EnvAction → Prop
  | .createApi _ threadDispatcher => threadDispatcher.Steady
  | _ => True

-- by its `start`, to the context that the dispatcher of the handle has under this name
def SubmittedTo (s : EnvState) (name : Str) (runnable : Runnable) : Prop :=
  .called runnable.origin (.execute runnable.context runnable.task) ∈ s.trace
    ∧ ∃ start handle, .started runnable.origin start ∈ s.trace
      ∧ s.lib.handles[start.handle]? = some handle
      ∧ ∀ now, handle.threadDispatcher.getSerialExecutionContext now name = some runnable.context

structure Confined (s : EnvState) : Prop where
  recorded : ∀ origin call, .called origin call ∈ s.trace →
    ∃ act ∈ s.acts, act.origin = origin ∧ act.call = call
  handler : ∀ runnable callback resp, .ran runnable ∈ s.trace →
    runnable.task = .reply callback resp → SubmittedTo s mainExecutionContext runnable
  respond : ∀ act ∈ s.acts, ∀ handle result, act.call = .respond handle result →
    ∃ runnable, act.within = some runnable ∧ SubmittedTo s mainExecutionContext runnable
  onUpdate : ∀ act ∈ s.acts, ∀ observer newData, act.call = .onUpdate observer newData →
    ∃ runnable, act.within = some runnable ∧ SubmittedTo s mainExecutionContext runnable
  txGet : ∀ act ∈ s.acts, act.call.isTxGet = true →
    ∃ runnable, act.within = some runnable ∧ SubmittedTo s backExecutionContext runnable

/-! ## The dispatchers -/

abbrev Lib.Steady (lib : Lib) : Prop :=
  lib.Built fun _ threadDispatcher => threadDispatcher.Steady

theorem steady_of_reachable (h : (environment F).Reachable steady s) : s.lib.Steady := by
  apply h.invariant
  . constructor
    . simp [environment, EnvState.init, World.init, Lib.init]
    . simp [environment, EnvState.init, World.init, Lib.init]
  . intro t action u _ ht hok hstep
    change envStep F t action = some u at hstep
    cases action with
    | createApi httpImpl threadDispatcher =>
      rw [envStep_createApi hstep]
      exact ht.createApi hok
    | observerTransactionList api =>
      rcases envStep_observerTransactionList hstep with ⟨lib, hlib, rfl⟩
      exact ht.observerTransactionList hlib
    | start handle observer addresses options response =>
      rcases envStep_start hstep with ⟨lib, start, hstart, rfl⟩
      exact (ht.start hstart).1
    | deliver index reply keep =>
      rcases envStep_deliver hstep with ⟨request, _, rfl⟩
      exact ht
    | run index =>
      rcases envStep_run hstep with ⟨runnable, _, rfl⟩
      exact ht
    | proceed index =>
      rcases envStep_proceed hstep with ⟨frame, _, ⟨_, rfl⟩ | ⟨call, calls, _, rfl⟩⟩
      . exact ht
      . exact ht
    | drop cell =>
      rcases envStep_drop hstep with ⟨_, rfl⟩
      exact ht

theorem contextFor_of_reads {start : Start} {handle : TransactionListVmHandle} {task : Task}
    {context : Context} (hreads : start.Reads handle)
    (hsteady : HttpOf (fun _ threadDispatcher => threadDispatcher.Steady) handle.http
      handle.threadDispatcher)
    (hplaced : start.contextFor task = some context) (now : Nat)
    : handle.threadDispatcher.getSerialExecutionContext now task.site = some context := by
  rw [← hplaced]
  cases task with
  | reply callback resp =>
    rcases hsteady.context with ⟨then', hthen⟩
    rw [Start.contextFor, hreads.http, hthen]
    exact hsteady.given now then' _
  | getTransactions closure =>
    rcases hreads.backContext with ⟨then', hthen⟩
    rw [Start.contextFor, hthen]
    exact hsteady.given now then' _
  | update closure =>
    rcases hreads.mainContext with ⟨then', hthen⟩
    rw [Start.contextFor, hthen]
    exact hsteady.given now then' _

theorem Runnable.Fits.submittedTo {runnable : Runnable} {start : Start}
    (h : runnable.Fits s.toWorld start) (hrooted : Rooted s) (hsteady : s.lib.Steady)
    : SubmittedTo s runnable.task.site runnable := by
  rcases hrooted.reads _ start h.started with ⟨handle, hhandle, hreads⟩
  have hhttp := hsteady.handles handle (List.mem_of_getElem? hhandle)
  exact ⟨h.submitted, start, handle, h.started, hhandle, contextFor_of_reads hreads hhttp h.placed⟩

theorem site_of_isTxGet {call : Call} (h : call.isTxGet = true)
    : call.site = some backExecutionContext := by
  unfold Call.isTxGet at h
  split at h
  . rfl
  . contradiction

theorem context_confinement (hs : (environment F).Reachable steady s) : Confined s := by
  have hfitted := fitted_of_reachable hs
  have hrooted := rooted_of_reachable hs
  have hsteady := steady_of_reachable hs
  have hact : ∀ act ∈ s.acts, ∀ name, act.call.site = some name →
      ∃ runnable, act.within = some runnable ∧ SubmittedTo s name runnable := by
    intro act hmem name hsite
    rcases (hfitted.acts act hmem).site with hnone | ⟨runnable, hwithin, hran, hsome⟩
    . rw [hnone] at hsite
      contradiction
    . rcases hfitted.ran runnable hran with ⟨start, hfits⟩
      rw [hsome, Option.some.injEq] at hsite
      rw [← hsite]
      exact ⟨runnable, hwithin, hfits.submittedTo hrooted hsteady⟩
  refine ⟨hfitted.recorded, ?_, ?_, ?_, ?_⟩
  . intro runnable callback resp hran htask
    rcases hfitted.ran runnable hran with ⟨start, hfits⟩
    have := hfits.submittedTo hrooted hsteady
    rw [htask] at this
    exact this
  . intro act hmem handle result hcall
    apply hact act hmem
    rw [hcall]
    rfl
  . intro act hmem observer newData hcall
    apply hact act hmem
    rw [hcall]
    rfl
  . intro act hmem hcall
    exact hact act hmem _ (site_of_isTxGet hcall)

/-! ## A run with one answer, in which the token is handled inside of the callback of the platform -/

def nestedActions : List EnvAction :=
  [.createApi (some 0) twoContexts, .observerTransactionList 0,
    .start 0 5 [lit "a", lit "b"] ⟨1⟩ 7, .proceed 0, .proceed 0,
    .deliver 0 (.success 200 (lit "\x7b\"token\":\"t\"\x7d")) false, .proceed 0, .run 0, .proceed 1,
    .run 0, .proceed 2, .proceed 2, .proceed 1, .proceed 0,
    .deliver 0 (.success 200 (lit "\x7b\"txs\":[\x7b\"hash\":\"h\"\x7d, 3]\x7d")) false, .proceed 0,
    .proceed 0, .run 0, .proceed 0, .proceed 0, .run 0, .proceed 1, .proceed 1, .proceed 0]

theorem nestedActions_exec
    : ((environment Double.integers).exec (environment Double.integers).init nestedActions).isSome
        = true := by
  decide +kernel

def nestedState : EnvState :=
  ((environment Double.integers).exec (environment Double.integers).init nestedActions).get
    nestedActions_exec

theorem context_confinement_nested : Confined nestedState := by
  apply context_confinement
  apply System.reachable_exec nestedActions_exec
  apply System.along_of_forall
  simp [nestedActions, steady, ThreadDispatcher.Steady, twoContexts]

end LedgerApp
