import LedgerApp.Causality
import LedgerApp.Lemmas.Node

/-!
How often the continuation of a request is run: once at most where the platform uses each
`HttpCallback` once, and in Node as long as no handler raises within an `on_success`.
-/

namespace LedgerApp

open Bytes Json11

variable {F : Double} {υ : Type} {handlers : Handlers υ} {n n' : NodeState υ} {user : υ}

def Event.isRun (origin : Nat) (callback : HttpHandler) : Event → Bool
  | .ran { origin := owner, cell := _, context := _, task := .reply cb _ } =>
    owner == origin && cb == callback
  | _ => false

def runs (origin : Nat) (callback : HttpHandler) (trace : List Event) : List Event :=
  trace.filter (Event.isRun origin callback)

structure ContinuedOnce (trace : List Event) (origin : Nat) : Prop where
  continuation : ∀ callback, (runs origin callback trace).length ≤ 1
  txGet : (txGets origin trace).length ≤ 1
  respond : (responds origin trace).length ≤ 1

-- no handler that is reached from an `on_success` raises
def quiet (handlers : Handlers υ) (n : NodeState υ) : NodeAction → Bool
  | .advance =>
    match n.job with
    | some { origin := _, request := some _, calls := call :: _, raised := _ } =>
      !(handlers.on call n.user).2
    | _ => true
  | _ => true

@[simp]
theorem runs_append (origin : Nat) (callback : HttpHandler) (t u : List Event)
    : runs origin callback (t ++ u) = runs origin callback t ++ runs origin callback u := by
  simp [runs]

@[simp]
theorem runs_started (origin owner : Nat) (callback : HttpHandler) (start : Start)
    (t : List Event)
    : runs origin callback (.started owner start :: t) = runs origin callback t := rfl

@[simp]
theorem runs_replied (origin owner : Nat) (callback cb : HttpHandler) (reply : Reply)
    (t : List Event)
    : runs origin callback (.replied owner cb reply :: t) = runs origin callback t := rfl

@[simp]
theorem runs_called (origin owner : Nat) (callback : HttpHandler) (call : Call) (t : List Event)
    : runs origin callback (.called owner call :: t) = runs origin callback t := rfl

@[simp]
theorem runs_ran (origin : Nat) (callback : HttpHandler) (runnable : Runnable) (t : List Event)
    : runs origin callback (.ran runnable :: t) =
        if Event.isRun origin callback (.ran runnable) then
          .ran runnable :: runs origin callback t
        else
          runs origin callback t := List.filter_cons

theorem length_ite_le (p : Prop) [Decidable p] (event : Event)
    : (if p then [event] else []).length ≤ 1 := by
  split
  . simp
  . simp

@[simp]
theorem runs_nil (origin : Nat) (callback : HttpHandler) : runs origin callback [] = [] := rfl

@[simp]
theorem runs_map_called (origin owner : Nat) (callback : HttpHandler) (made : List Call)
    : runs origin callback (made.map (.called owner)) = [] := by
  induction made with
  | nil => rfl
  | cons call made ih => simp [ih]

theorem runs_owned (origin : Nat) (callback : HttpHandler) (trace : List Event)
    : runs origin callback (owned Event.origin origin trace) = runs origin callback trace := by
  unfold runs owned
  rw [List.filter_filter]
  apply List.filter_congr
  intro event _
  cases event with
  | ran runnable =>
    rcases runnable with ⟨owner, cell, context, task⟩
    cases task with
    | reply cb resp =>
      by_cases h : owner = origin
      . simp [Event.isRun, Event.origin, h]
      . simp [Event.isRun, h]
    | _ => rfl
  | _ => rfl

section

variable {cells : List (Option Task)} {origin : Nat} {start : Start} {requests : List Request}
variable {queue : List Runnable} {trace : List Event}

theorem Stage.runs_le (h : Stage F cells origin start requests queue trace)
    (callback : HttpHandler) : (runs origin callback trace).length ≤ 1 := by
  cases callback with
  | token closure
  | transactions closure =>
    cases h with
    | _ =>
      simp [Event.isRun, Path.tokenRunnable, Path.txRunnable, Path.replyRunnable,
        Path.updateRunnable, length_ite_le]

theorem Stage.continuedOnce (h : Stage F cells origin start requests queue trace)
    : ContinuedOnce trace origin where
  continuation := h.runs_le
  txGet := h.counts.1
  respond := h.counts.2.1

end

theorem ContinuedOnce.of_traceOf {s : State} {origin : Nat}
    (h : ContinuedOnce (s.traceOf origin) origin) : ContinuedOnce s.trace origin where
  continuation := by
    intro callback
    rw [← runs_owned]
    exact h.continuation callback
  txGet := by
    rw [← txGets_traceOf]
    exact h.txGet
  respond := by
    rw [← responds_traceOf]
    exact h.respond

theorem ContinuedOnce.of_append {t u : List Event} {origin : Nat}
    (h : ContinuedOnce (t ++ u) origin) : ContinuedOnce t origin where
  continuation := by
    intro callback
    have := h.continuation callback
    rw [runs_append, List.length_append] at this
    omega
  txGet := by
    have := h.txGet
    simp only [txGets, calls_append, List.filter_append, List.length_append] at this
    unfold txGets
    omega
  respond := by
    have := h.respond
    simp only [responds, calls_append, List.filterMap_append, List.length_append] at this
    unfold responds
    omega

theorem continuedOnce_of_reachable {s : State} {ok : State → Action → Prop}
    (h : (machine F).Reachable ok s) (origin : Nat) : ContinuedOnce s.trace origin := by
  apply ContinuedOnce.of_traceOf
  rcases (tracked_of_reachable h).follows origin with hunstarted | ⟨start, hat⟩
  . rw [hunstarted.trace]
    refine ⟨?_, ?_, ?_⟩
    . simp
    . simp [txGets]
    . simp [responds]
  . exact Stage.continuedOnce hat

/-! ## Runs in Node -/

structure Quiet (n : NodeState υ) : Prop where
  sequential : Sequential n
  raised : n.raised = []
  job : ∀ job, n.job = some job → job.request.isSome = true → job.raised = false

theorem Quiet.init (user : υ) : Quiet (NodeState.init user) where
  sequential := by simp [Sequential, NodeState.init]
  raised := rfl
  job := by simp [NodeState.init]

theorem enter_raised {action : NodeAction} (hnone : n.job = none) (h : enter n action = some n')
    (hcaught : ∀ index err, action ≠ .caught index err)
    : n'.raised = n.raised ∧ ∀ job, n'.job = some job → job.raised = false := by
  cases action with
  | createApi httpImpl threadDispatcher =>
    rw [enter_createApi h]
    simp [hnone]
  | observerTransactionList api =>
    rcases enter_observerTransactionList h with ⟨lib, _, rfl⟩
    simp [hnone]
  | start handle observer addresses options response =>
    rcases enter_start h with ⟨lib, start, calls, _, rfl⟩
    simp
  | settle index reply =>
    rcases enter_settle h with ⟨request, _, rfl⟩
    simp
  | caught index err => exact absurd rfl (hcaught index err)
  | advance => contradiction

theorem finish_raised {job : Job} (hjob : job.request.isSome = true → job.raised = false)
    : (n.finish job).raised = n.raised := by
  unfold NodeState.finish
  split
  . next hraised hrequest =>
    rw [hrequest, hraised] at hjob
    exact absurd (hjob rfl) (by simp)
  . rfl

theorem not_caught {action : NodeAction} (hn : n.raised = [])
    (h : nodeStep F handlers n action = some n') (index : Nat) (err : Str)
    : action ≠ .caught index err := by
  intro heq
  rw [heq] at h
  rcases nodeStep_cases h with ⟨_, henter⟩ | ⟨_, _, hadvance, _⟩
  . rcases enter_caught henter with ⟨request, hrequest, _⟩
    rw [hn] at hrequest
    simp at hrequest
  . contradiction

theorem Quiet.advance (F : Double) {job : Job} (hn : Quiet n) (hjob : n.job = some job)
    (hquiet : quiet handlers n .advance = true)
    : (n.advance F handlers job).raised = []
      ∧ ∀ later, (n.advance F handlers job).job = some later → later.request.isSome = true →
        later.raised = false := by
  have hraised := hn.job job hjob
  rcases calls_cases job.calls with
    hlist | ⟨context, task, calls, hlist⟩ | ⟨call, calls, hlist, hcall⟩
  . rw [NodeState.advance_nil hlist, finish_raised hraised, NodeState.finish_job]
    exact ⟨hn.raised, by simp⟩
  . rw [NodeState.advance_execute hlist]
    refine ⟨hn.raised, ?_⟩
    intro later hlater
    simp only [Option.some.injEq] at hlater
    rw [← hlater]
    exact hraised
  . rw [NodeState.advance_call hlist hcall]
    refine ⟨hn.raised, ?_⟩
    intro later hlater hrequest
    simp only [Option.some.injEq] at hlater
    rw [← hlater] at hrequest ⊢
    dsimp only at hrequest ⊢
    rw [hraised hrequest, Bool.false_or]
    rcases Option.isSome_iff_exists.mp hrequest with ⟨request, hsome⟩
    rcases job with ⟨origin, request', calls', raised⟩
    dsimp only at hsome hlist
    simpa [quiet, hjob, hsome, hlist] using hquiet

theorem Quiet.step {action : NodeAction} (hn : Quiet n)
    (hquiet : quiet handlers n action = true) (h : nodeStep F handlers n action = some n')
    : Quiet n' := by
  have hsequential := hn.sequential.step h
  rcases nodeStep_cases h with ⟨hnone, henter⟩ | ⟨job, hjob, rfl, rfl⟩
  . have hraised := enter_raised hnone henter (not_caught hn.raised h)
    refine ⟨hsequential, ?_, ?_⟩
    . rw [hraised.1, hn.raised]
    . exact fun job hjob _ => hraised.2 job hjob
  . have hadvance := hn.advance F hjob hquiet
    exact ⟨hsequential, hadvance.1, hadvance.2⟩

-- without an exception Node is one of the environments that queue
theorem node_refines : System.Simulates (node F handlers user) (machine F)
    (fun n action => quiet handlers n action = true) (fun n s => Quiet n ∧ s = n.queued) := by
  refine ⟨⟨Quiet.init user, rfl⟩, ?_⟩
  intro n action n' s hn hquiet hstep
  rcases hn with ⟨hn, rfl⟩
  have hquiet' := hn.step hquiet hstep
  rcases queued_step hn.sequential hstep (not_caught hn.raised hstep) with heq | ⟨queued, hqueued⟩
  . exact ⟨n.queued, .refl _, hquiet', heq.symm⟩
  . exact ⟨n'.queued, .step (.refl _) trivial hqueued, hquiet', rfl⟩

theorem continued_once
    : (∀ s, (machine F).Reachable System.free s → ∀ origin, ContinuedOnce s.trace origin)
      ∧ ∀ n, (node F handlers user).Reachable (fun n action => quiet handlers n action = true) n →
        ∀ origin, ContinuedOnce n.trace origin := by
  refine ⟨fun s hs => continuedOnce_of_reachable hs, ?_⟩
  intro n hn origin
  rcases node_refines.reachable hn with ⟨_, hreachable, _, rfl⟩
  have hqueued := continuedOnce_of_reachable hreachable origin
  rcases queued_trace n with ⟨later, htrace⟩
  rw [htrace] at hqueued
  exact hqueued.of_append

/-! ## Two runs -/

def silentHandlers : Handlers Unit where
  respond := fun _ _ _ => ((), false)
  onUpdate := fun _ _ _ => ((), false)

def raisingHandlers : Handlers Unit where
  respond := fun _ _ _ => ((), true)
  onUpdate := fun _ _ _ => ((), false)

def listedActions : List NodeAction :=
  [.createApi (some 0) NJSThreadDispatcherImpl, .observerTransactionList 0,
    .start 0 5 [lit "a"] ⟨0⟩ 7, .advance, .advance,
    .settle 0 (.success 200 (lit "\x7b\x7d")), .advance, .advance, .advance, .advance,
    .settle 0 (.success 200 (lit "\x7b\x7d")), .advance, .advance, .advance, .advance, .advance]

theorem listedActions_exec : ((node Double.integers silentHandlers ()).exec
    (node Double.integers silentHandlers ()).init listedActions).isSome = true := by
  decide +kernel

def listedNode : NodeState Unit :=
  ((node Double.integers silentHandlers ()).exec (node Double.integers silentHandlers ()).init
    listedActions).get listedActions_exec

theorem continued_once_listed : ContinuedOnce listedNode.trace 1 := by
  have hreachable : (node Double.integers silentHandlers ()).Reachable
      (fun n action => quiet silentHandlers n action = true) listedNode :=
    System.reachable_exec listedActions_exec (by decide +kernel)
  exact continued_once.2 listedNode hreachable 1

-- the handler of the list raises, so the same `HttpCallback` is told of a network error
def caughtActions : List NodeAction :=
  listedActions ++ [.caught 0 (lit "Error"), .advance, .advance]

theorem caughtActions_exec : ((node Double.integers raisingHandlers ()).exec
    (node Double.integers raisingHandlers ()).init caughtActions).isSome = true := by
  decide +kernel

def caughtNode : NodeState Unit :=
  ((node Double.integers raisingHandlers ()).exec (node Double.integers raisingHandlers ()).init
    caughtActions).get caughtActions_exec

theorem not_always_continued_once : ¬∀ (F : Double) (handlers : Handlers Unit) (n : NodeState Unit),
    (node F handlers ()).Reachable System.free n → ∀ origin, ContinuedOnce n.trace origin := by
  intro h
  have hreachable : (node Double.integers raisingHandlers ()).Reachable System.free caughtNode :=
    System.reachable_exec caughtActions_exec (System.along_free _ _)
  have htwice : (responds 1 caughtNode.trace).length = 2 := by
    decide +kernel
  have := (h _ _ _ hreachable 1).respond
  omega

end LedgerApp
