import LedgerApp.Schedule

/-!
Any two runs show the same of a `start` that was given the same arguments and the same replies, when
nothing of it is pending any more: contexts that run a Runnable inside `execute` cannot be told from
contexts that queue it.
-/

namespace LedgerApp

open Bytes Json11

variable {F : Double} {s s' : EnvState} {answers : Answers}

/-- The same arguments, and the platform gave null for the same objects. -/
structure Start.Alike (start start' : Start) : Prop where
  addresses : start.addresses = start'.addresses
  options : start.options = start'.options
  response : start.response = start'.response
  observer : start.observer = start'.observer
  impl : start.http.impl.isSome = start'.http.impl.isSome
  context : start.http.context.isSome = start'.http.context.isSome
  mainContext : start.mainContext.isSome = start'.mainContext.isSome
  backContext : start.backContext.isSome = start'.backContext.isSome

namespace Start.Alike

variable {start start' : Start}

theorem refl (start : Start) : start.Alike start :=
  ⟨rfl, rfl, rfl, rfl, rfl, rfl, rfl, rfl⟩

theorem ask (h : start.Alike start') (url : Str) (header : List HttpHeader)
    (replied : List Visible) : start.ask url header replied = start'.ask url header replied := by
  unfold Start.ask
  rw [h.context, h.impl]

theorem onTransactions (h : start.Alike start') (resp : HttpResponse)
    : start.onTransactions F resp = start'.onTransactions F resp := by
  unfold Start.onTransactions Start.failed Start.succeeded
  simp only [h.response, h.observer, h.mainContext]

theorem onToken (h : start.Alike start') (resp : HttpResponse)
    : start.onToken F answers resp = start'.onToken F answers resp := by
  unfold Start.onToken Start.failed Start.askTransactions Start.txUrl Start.testnetMode
  simp only [h.response, h.addresses, h.options, h.ask, h.onTransactions, h.backContext]

theorem outcome (h : start.Alike start') : start.outcome F answers = start'.outcome F answers := by
  unfold Start.outcome Start.tokenUrl Start.testnetMode
  rw [h.ask, h.onToken, h.options]

end Start.Alike

theorem scheduler_irrelevant (hs : (environment F).Reachable (Orderly F) s)
    (hs' : (environment F).Reachable (Orderly F) s') {origin origin' : Nat} {start start' : Start}
    (hstarted : .started origin start ∈ s.trace) (hstarted' : .started origin' start' ∈ s'.trace)
    (halike : start.Alike start') (hanswers : AnsweredBy answers origin s.trace)
    (hanswers' : AnsweredBy answers origin' s'.trace) (hdrained : Drained s origin)
    (hdrained' : Drained s' origin')
    : visible origin s.trace = visible origin' s'.trace := by
  rw [visible_eq_outcome hs hstarted hanswers hdrained,
    visible_eq_outcome hs' hstarted' hanswers' hdrained']
  exact halike.outcome

/-! ## Two runs of one `start` -/

-- like the nested run, but Runnables wait and each frame returns before the next one is entered
def queuedActions : List EnvAction :=
  [.createApi (some 0) twoContexts, .observerTransactionList 0,
    .start 0 5 [lit "a", lit "b"] ⟨1⟩ 7, .proceed 0, .proceed 0,
    .deliver 0 (.success 200 (lit "\x7b\"token\":\"t\"\x7d")) false, .proceed 0, .proceed 0,
    .run 0, .proceed 0, .proceed 0, .run 0, .proceed 0, .proceed 0, .drop 1,
    .deliver 0 (.success 200 (lit "\x7b\"txs\":[\x7b\"hash\":\"h\"\x7d, 3]\x7d")) false, .proceed 0,
    .proceed 0, .run 0, .proceed 0, .proceed 0, .proceed 0, .run 0, .proceed 0, .proceed 0]

theorem queuedActions_exec
    : ((environment Double.integers).exec (environment Double.integers).init queuedActions).isSome
        = true := by
  decide +kernel

def queuedState : EnvState :=
  ((environment Double.integers).exec (environment Double.integers).init queuedActions).get
    queuedActions_exec

def listedAnswers : Answers where
  token := .success 200 (lit "\x7b\"token\":\"t\"\x7d")
  transactions := .success 200 (lit "\x7b\"txs\":[\x7b\"hash\":\"h\"\x7d, 3]\x7d")

theorem along_orderly {as : List EnvAction}
    (hfamily : (environment F).Along (fun s action => family s action = true) s as)
    (hsustains : (environment F).Along (fun s action => sustains F s action = true) s as)
    : (environment F).Along (Orderly F) s as := by
  apply hfamily.and hsustains
  intro s action hfamily hsustains
  exact ⟨hfamily, hsustains⟩

theorem nestedState_orderly : (environment Double.integers).Reachable (Orderly Double.integers)
    nestedState :=
  System.reachable_exec nestedActions_exec (along_orderly (by decide +kernel) (by decide +kernel))

theorem queuedState_orderly : (environment Double.integers).Reachable (Orderly Double.integers)
    queuedState :=
  System.reachable_exec queuedActions_exec (along_orderly (by decide +kernel) (by decide +kernel))

theorem answeredBy_of_all {origin : Nat} {trace : List Event}
    (h : (trace.all fun
      | .replied owner callback reply => owner != origin || reply == answers.to callback
      | _ => true) = true) : AnsweredBy answers origin trace := by
  intro callback reply hmem
  rw [List.all_eq_true] at h
  simpa using h _ hmem

theorem nestedState_started : .started 1 answeredStart ∈ nestedState.trace := by
  decide +kernel

theorem queuedState_started : .started 1 answeredStart ∈ queuedState.trace := by
  decide +kernel

theorem nestedState_drained : Drained nestedState 1 := by
  decide +kernel

theorem queuedState_drained : Drained queuedState 1 := by
  decide +kernel

theorem scheduler_irrelevant_nested
    : visible 1 nestedState.trace = visible 1 queuedState.trace := by
  have hnested : AnsweredBy listedAnswers 1 nestedState.trace :=
    answeredBy_of_all (by decide +kernel)
  have hqueued : AnsweredBy listedAnswers 1 queuedState.trace :=
    answeredBy_of_all (by decide +kernel)
  exact scheduler_irrelevant nestedState_orderly queuedState_orderly nestedState_started
    queuedState_started (.refl _) hnested hqueued nestedState_drained queuedState_drained

def requestedActions : List EnvAction :=
  [.createApi (some 0) twoContexts, .observerTransactionList 0, .start 0 5 [lit "a"] ⟨0⟩ 7,
    .proceed 0, .proceed 0, .deliver 0 (.success 200 (lit "\x7b\x7d")) false, .proceed 0,
    .proceed 0, .run 0, .proceed 0, .proceed 0, .run 0, .proceed 0, .proceed 0]

def networkErrorActions : List EnvAction :=
  [.deliver 0 (.networkError (lit "timeout")) false, .proceed 0, .proceed 0, .run 0, .proceed 0,
    .proceed 0]

theorem keptActions_exec
    : ((environment Double.integers).exec (environment Double.integers).init
        (requestedActions ++ networkErrorActions)).isSome = true := by
  decide +kernel

theorem lostActions_exec
    : ((environment Double.integers).exec (environment Double.integers).init
        (requestedActions ++ .drop 1 :: networkErrorActions)).isSome = true := by
  decide +kernel

def keptState : EnvState :=
  ((environment Double.integers).exec (environment Double.integers).init
    (requestedActions ++ networkErrorActions)).get keptActions_exec

-- the Runnable of `tx_task` is dropped after it was run
def lostState : EnvState :=
  ((environment Double.integers).exec (environment Double.integers).init
    (requestedActions ++ .drop 1 :: networkErrorActions)).get lostActions_exec

def failedStart : Start where
  handle := 0
  observer := 5
  addresses := [lit "a"]
  options := ⟨0⟩
  response := 7
  http := { context := some 0, impl := some 0 }
  mainContext := some 0
  backContext := some 1

def timeoutAnswers : Answers where
  token := .success 200 (lit "\x7b\x7d")
  transactions := .networkError (lit "timeout")

theorem not_always_irrelevant : ¬∀ (F : Double) (s s' : EnvState),
    (environment F).Reachable (fun s action => family s action = true) s →
    (environment F).Reachable (fun s action => family s action = true) s' →
    ∀ (origin origin' : Nat) (start start' : Start) (answers : Answers),
      .started origin start ∈ s.trace → .started origin' start' ∈ s'.trace →
      start.Alike start' → AnsweredBy answers origin s.trace →
      AnsweredBy answers origin' s'.trace → Drained s origin → Drained s' origin' →
      visible origin s.trace = visible origin' s'.trace := by
  intro h
  have hkept : (environment Double.integers).Reachable
      (fun s action => family s action = true) keptState :=
    System.reachable_exec keptActions_exec (by decide +kernel)
  have hlost : (environment Double.integers).Reachable
      (fun s action => family s action = true) lostState :=
    System.reachable_exec lostActions_exec (by decide +kernel)
  have hequal := h _ _ _ hkept hlost 1 1 failedStart failedStart timeoutAnswers
    (by decide +kernel) (by decide +kernel) (.refl _) (answeredBy_of_all (by decide +kernel))
    (answeredBy_of_all (by decide +kernel)) (by decide +kernel) (by decide +kernel)
  have hdiffer : visible 1 keptState.trace ≠ visible 1 lostState.trace := by
    decide +kernel
  exact hdiffer hequal

end LedgerApp
