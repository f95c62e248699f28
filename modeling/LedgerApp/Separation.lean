import LedgerApp.Causality

/-!
No `start` uses what belongs to another one: its requests, its token and its answer depend on its
own arguments and on the replies to its own requests only.
-/

namespace LedgerApp

open Bytes Json11

variable {F : Double} {s : State}

section

variable {cells : List (Option Task)} {origin : Nat} {start : Start} {requests : List Request}
variable {queue : List Runnable} {trace : List Event}

theorem Stage.get_cases (h : Stage F cells origin start requests queue trace) {impl : HttpImpl}
    {url : Str} {header : Option (List HttpHeader)} {callback : HttpCallback}
    (hmem : .called origin (.get impl url header callback) ∈ trace)
    : (callback = start.tokenCallback ∧ url = start.tokenUrl ∧ header = some [])
      ∨ ∃ p : Path F, p.Parsed start
          ∧ .replied origin (.token start.tokenReply) p.tokenAnswer ∈ trace
          ∧ callback = start.txCallback p.txCell ∧ url = start.txUrl
          ∧ header = some (Start.tokenHeader p.token) := by
  cases h with
  | silent _ => simp at hmem
  | tokenRequested p _
  | tokenLost p _ _
  | tokenReplied p _
  | tokenFailed p _ _ _
  | noBack p _ _
  | granted p _ _ =>
    simp at hmem
    exact .inl ⟨hmem.2.2.2, hmem.2.1, hmem.2.2.1⟩
  | txRequested p h _
  | txReplied p h _
  | txFailed p h _ _
  | txDangling p h _ _
  | txIgnored p h _ =>
    simp at hmem
    rcases hmem with hmem | hmem
    . exact .inl ⟨hmem.2.2.2, hmem.2.1, hmem.2.2.1⟩
    . refine .inr ⟨p, h.toParsed, by simp, hmem.2.2.2, hmem.2.1, hmem.2.2.1⟩
  | answered p h _
  | scheduled p h
  | updated p h =>
    simp at hmem
    rcases hmem with hmem | hmem | hmem
    . exact .inl ⟨hmem.2.2.2, hmem.2.1, hmem.2.2.1⟩
    . refine .inr ⟨p, h.toParsed, by simp, hmem.2.2.2, hmem.2.1, hmem.2.2.1⟩
    . simpa using mem_printed hmem

theorem Stage.answer_cases (h : Stage F cells origin start requests queue trace)
    {handle : HandleResponse} {result : Response}
    (hmem : .called origin (.respond handle result) ∈ trace)
    : handle = start.response
      ∧ ((∃ e, result = { error := e, result := [] })
        ∨ ∃ p : Path F, p.Answered start
            ∧ .replied origin (.transactions (start.txReply p.txCell)) p.txAnswer ∈ trace
            ∧ result = p.success) := by
  cases h with
  | silent _
  | tokenRequested p _
  | tokenLost p _ _
  | tokenReplied p _
  | noBack p _ _
  | granted p _ _
  | txRequested p h _
  | txReplied p h _
  | txDangling p h _ _
  | txIgnored p h _ => simp at hmem
  | tokenFailed p _ _ _
  | txFailed p _ _ _ =>
    simp at hmem
    exact ⟨hmem.1, .inl ⟨_, hmem.2⟩⟩
  | answered p h _ =>
    simp at hmem
    rcases hmem with hmem | hmem
    . simpa using mem_printed hmem
    . exact ⟨hmem.1, .inr ⟨p, h, by simp, hmem.2⟩⟩
  | scheduled p h
  | updated p h =>
    simp at hmem
    rcases hmem with hmem | hmem
    . simpa using mem_printed hmem
    . exact ⟨hmem.1, .inr ⟨p, h.toAnswered, by simp, hmem.2⟩⟩

end

def Start.network (start : Start) : Str :=
  if start.options.coinType = 1 then testnetBaseUrl else baseUrl

theorem Start.network_eq (start : Start) : base start.testnetMode = start.network := by
  unfold Start.testnetMode base Start.network
  simp only [beq_iff_eq]

-- the value under `"token"` in the reply to the token GET of this origin
def TokenOf (F : Double) (trace : List Event) (origin : Nat) (token : Str) : Prop :=
  ∃ closure code data json, .replied origin (.token closure) (.success code data) ∈ trace
    ∧ parseText F data = .ok json ∧ token = (json.get (lit "token")).stringValue

-- the list in the reply to the transactions GET of this origin
def ListOf (F : Double) (trace : List Event) (origin : Nat) (text : Str) : Prop :=
  ∃ closure code data json, .replied origin (.transactions closure) (.success code data) ∈ trace
    ∧ parseText F data = .ok json ∧ text = listText ((listed json).map cellOf)

structure Separated (F : Double) (s : State) : Prop where
  get : ∀ origin impl url header callback,
    .called origin (.get impl url header callback) ∈ s.trace →
    ∃ start, .started origin start ∈ s.trace ∧
      match callback.cb with
      | .token _ => url = start.network ++ lit "syncToken" ∧ header = some []
      | .transactions _ =>
        url = start.network ++ lit "addresses/" ++ (lit ",").intercalate start.addresses
            ++ lit "/transactions"
          ∧ ∃ token, TokenOf F s.trace origin token
            ∧ header = some [{ field := lit "X-LedgerWallet-SyncToken", value := token }]
  answer : ∀ origin handle result, .called origin (.respond handle result) ∈ s.trace →
    result.error = [] → result.result ≠ [] →
    ∃ start, .started origin start ∈ s.trace ∧ handle = start.response
      ∧ ListOf F s.trace origin result.result

theorem separated (hs : (machine F).Reachable System.free s) : Separated F s where
  get := by
    intro origin impl url header callback hmem
    rcases (tracked_of_reachable hs).at_of_mem hmem with ⟨start, hstarted, hat⟩
    refine ⟨start, hstarted, ?_⟩
    rcases Stage.get_cases hat (State.mem_traceOf.mpr ⟨hmem, rfl⟩) with
      ⟨rfl, rfl, rfl⟩ | ⟨p, hp, hreplied, rfl, rfl, rfl⟩
    . rw [Start.tokenUrl, Start.network_eq]
      exact ⟨rfl, rfl⟩
    . rw [Start.txUrl, Start.network_eq, joinAddresses_eq]
      refine ⟨by simp, p.token, ?_, rfl⟩
      rcases Reply.read_eq_ok hp.tokenJson with ⟨code, data, hreply, hparse⟩
      rw [hreply] at hreplied
      exact ⟨_, code, data, p.tokenJson, (State.mem_traceOf.mp hreplied).1, hparse, rfl⟩
  answer := by
    intro origin handle result hmem herror hresult
    rcases (tracked_of_reachable hs).at_of_mem hmem with ⟨start, hstarted, hat⟩
    refine ⟨start, hstarted, ?_⟩
    rcases Stage.answer_cases hat (State.mem_traceOf.mpr ⟨hmem, rfl⟩) with
      ⟨hhandle, ⟨e, rfl⟩ | ⟨p, hp, hreplied, rfl⟩⟩
    . contradiction
    . refine ⟨hhandle, ?_⟩
      rcases Reply.read_eq_ok hp.txJson with ⟨code, data, hreply, hparse⟩
      rw [hreply] at hreplied
      exact ⟨_, code, data, p.txJson, (State.mem_traceOf.mp hreplied).1, hparse, rfl⟩

-- two `start` of different coin types at the same time, whose replies come in the other order
def mixedActions : List Action :=
  [.createApi (some 0) twoContexts, .observerTransactionList 0, .observerTransactionList 0,
    .start 0 5 [lit "a", lit "b"] ⟨1⟩ 7, .start 1 6 [lit "c"] ⟨0⟩ 8,
    .deliver 1 (.success 200 (lit "\x7b\"token\":\"u\"\x7d")),
    .deliver 0 (.success 200 (lit "\x7b\"token\":\"t\"\x7d")), .run 1, .run 0, .run 1, .run 0,
    .deliver 1 (.success 200 (lit "\x7b\"txs\":[3]\x7d")),
    .deliver 0 (.success 200 (lit "\x7b\"txs\":[4]\x7d")), .run 1, .run 0]

theorem mixedActions_exec
    : ((machine Double.integers).exec (machine Double.integers).init mixedActions).isSome
        = true := by
  decide +kernel

def mixedState : State :=
  ((machine Double.integers).exec (machine Double.integers).init mixedActions).get
    mixedActions_exec

theorem mixedState_answered
    : .called 1 (.respond 7 ⟨[], lit "[3]"⟩) ∈ mixedState.trace
        ∧ .called 2 (.respond 8 ⟨[], lit "[4]"⟩) ∈ mixedState.trace := by
  decide +kernel

theorem separated_mixed
    : .called 1 (.respond 7 ⟨[], lit "[3]"⟩) ∈ mixedState.trace
        ∧ .called 2 (.respond 8 ⟨[], lit "[4]"⟩) ∈ mixedState.trace
        ∧ Separated Double.integers mixedState := by
  refine ⟨mixedState_answered.1, mixedState_answered.2, ?_⟩
  exact separated (System.reachable_exec mixedActions_exec (System.along_free _ _))

end LedgerApp
