import LedgerApp.Channels

/-!
Which replies lead to a list that is presented as a success: neither the statuses nor the types of
`"token"` and `"txs"` are looked at, only whether the transactions body is an object.
-/

namespace LedgerApp

open Bytes Json11

variable {F : Double} {s : State}

def successful (httpCode : Int16) : Bool :=
  200 ≤ httpCode && httpCode ≤ 299

def givesToken (json : Json F) : Bool :=
  json.isObject && (json.get (lit "token")).isString

def givesList (json : Json F) : Bool :=
  json.isObject && (json.get (lit "txs")).isArray

def TokenReplied (F : Double) (trace : List Event) (origin : Nat) (httpCode : Int16)
    (json : Json F) : Prop :=
  ∃ closure data, .replied origin (.token closure) (.success httpCode data) ∈ trace
    ∧ parseText F data = .ok json

def TxReplied (F : Double) (trace : List Event) (origin : Nat) (httpCode : Int16)
    (json : Json F) : Prop :=
  ∃ closure data, .replied origin (.transactions closure) (.success httpCode data) ∈ trace
    ∧ parseText F data = .ok json

structure Proper (F : Double) (trace : List Event) (origin : Nat) : Prop where
  token : ∃ httpCode json, TokenReplied F trace origin httpCode json
    ∧ successful httpCode = true ∧ givesToken json = true
  list : ∃ httpCode json, TxReplied F trace origin httpCode json
    ∧ successful httpCode = true ∧ givesList json = true

structure Genuine (F : Double) (trace : List Event) (origin : Nat) : Prop where
  answered : ∀ handle text, (handle, { error := [], result := text }) ∈ responds origin trace →
    text ≠ [] → Proper F trace origin
  scheduled : ∀ context closure, .execute context (.update closure) ∈ calls origin trace →
    Proper F trace origin
  asked : txGets origin trace ≠ [] →
    ∃ httpCode json, TokenReplied F trace origin httpCode json ∧ givesToken json = true

-- the statuses and the shapes of two replies with which nothing is made up
structure Acceptable (tokenCode : Int16) (tokenJson : Json F) (txCode : Int16) (txJson : Json F)
    : Prop where
  token : givesToken tokenJson = true
  list : txJson.isObject = true → (txJson.get (lit "txs")).isArray = true
    ∧ successful tokenCode = true ∧ successful txCode = true

variable {cells : List (Option Task)} {origin : Nat} {start : Start} {requests : List Request}
variable {queue : List Runnable} {trace : List Event}
variable {tokenCode txCode : Int16} {tokenJson txJson : Json F}

/-! ## The replies to the requests of one origin -/

theorem Stage.tokenReply_unique (h : Stage F cells origin start requests queue trace)
    {closure closure' : TokenReply} {reply reply' : Reply}
    (hmem : .replied origin (.token closure) reply ∈ trace)
    (hmem' : .replied origin (.token closure') reply' ∈ trace) : reply = reply' := by
  cases h with
  | silent _
  | tokenRequested p _ => simp at hmem
  | _ =>
    simp at hmem hmem'
    rw [hmem.2, hmem'.2]

theorem Stage.txReply_unique (h : Stage F cells origin start requests queue trace)
    {closure closure' : TxReply} {reply reply' : Reply}
    (hmem : .replied origin (.transactions closure) reply ∈ trace)
    (hmem' : .replied origin (.transactions closure') reply' ∈ trace) : reply = reply' := by
  cases h with
  | txReplied p _ _
  | txFailed p _ _ _
  | txDangling p _ _ _
  | txIgnored p _ _
  | answered p _ _
  | scheduled p _
  | updated p _ =>
    simp at hmem hmem'
    rw [hmem.2, hmem'.2]
  | _ => simp at hmem

theorem parsed_unique {httpCode httpCode' : Int16} {data data' : Str} {json json' : Json F}
    (h : Reply.success httpCode data = .success httpCode' data')
    (hparse : parseText F data = .ok json) (hparse' : parseText F data' = .ok json')
    : httpCode = httpCode' ∧ json = json' := by
  simp only [Reply.success.injEq] at h
  rw [h.2, hparse', Except.ok.injEq] at hparse
  exact ⟨h.1, hparse.symm⟩

theorem TokenReplied.unique {httpCode httpCode' : Int16} {json json' : Json F}
    (h : TokenReplied F trace origin httpCode json)
    (h' : TokenReplied F trace origin httpCode' json')
    (hstage : Stage F cells origin start requests queue trace)
    : httpCode = httpCode' ∧ json = json' := by
  rcases h with ⟨_, data, hmem, hparse⟩
  rcases h' with ⟨_, data', hmem', hparse'⟩
  exact parsed_unique (hstage.tokenReply_unique hmem hmem') hparse hparse'

theorem TxReplied.unique {httpCode httpCode' : Int16} {json json' : Json F}
    (h : TxReplied F trace origin httpCode json)
    (h' : TxReplied F trace origin httpCode' json')
    (hstage : Stage F cells origin start requests queue trace)
    : httpCode = httpCode' ∧ json = json' := by
  rcases h with ⟨_, data, hmem, hparse⟩
  rcases h' with ⟨_, data', hmem', hparse'⟩
  exact parsed_unique (hstage.txReply_unique hmem hmem') hparse hparse'

/-! ## What is done once the transactions reply was handled -/

theorem Stage.handled_object (h : Stage F cells origin start requests queue trace)
    (htx : TxReplied F trace origin txCode txJson)
    (hhandled : ∀ runnable ∈ queue, ∀ callback resp, runnable.task ≠ .reply callback resp)
    (hobject : txJson.isObject = true)
    : ∃ text, text ≠ []
        ∧ (start.response, { error := [], result := text }) ∈ responds origin trace := by
  rcases htx with ⟨closure, body, htx, hjson⟩
  cases h with
  | txReplied p h _ =>
    exact absurd rfl (hhandled (p.replyRunnable origin start) (by simp) _ _)
  | txFailed p h e he
  | txDangling p h e he =>
    simp at htx
    rw [← htx.2, Reply.read, hjson] at he
    contradiction
  | txIgnored p h hnot =>
    simp at htx
    have htxJson := h.txJson
    rw [← htx.2, Reply.read, hjson, Except.ok.injEq] at htxJson
    rw [← htxJson, hobject] at hnot
    contradiction
  | answered p h hmain
  | scheduled p h
  | updated p h =>
    refine ⟨listText p.vCells, listText_ne_nil _, ?_⟩
    simp [responds, Call.answer, List.filterMap_cons, Path.success]
  | _ => simp at htx

def ListPassed (trace : List Event) (origin : Nat) : Prop :=
  (∃ handle text, text ≠ [] ∧ (handle, { error := [], result := text }) ∈ responds origin trace)
    ∨ ∃ context closure, .execute context (.update closure) ∈ calls origin trace

theorem Stage.object_of_listPassed (h : Stage F cells origin start requests queue trace)
    (htx : TxReplied F trace origin txCode txJson) (hpassed : ListPassed trace origin)
    : txJson.isObject = true := by
  rcases htx with ⟨closure, body, htx, hjson⟩
  cases h with
  | txReplied p h _
  | txIgnored p h _ =>
    simp [ListPassed, responds, Call.answer, List.filterMap_cons, Path.tokenRunnable,
      Path.txRunnable, Path.replyRunnable] at hpassed
  | txFailed p h e he
  | txDangling p h e he =>
    simp at htx
    rw [← htx.2, Reply.read, hjson] at he
    contradiction
  | answered p h hmain
  | scheduled p h
  | updated p h =>
    simp at htx
    have htxJson := h.txJson
    rw [← htx.2, Reply.read, hjson, Except.ok.injEq] at htxJson
    rw [htxJson]
    exact h.isObject
  | _ => simp at htx

theorem Stage.asked_of_txReplied (h : Stage F cells origin start requests queue trace)
    (htx : TxReplied F trace origin txCode txJson) : txGets origin trace ≠ [] := by
  rcases htx with ⟨closure, body, htx, _⟩
  cases h with
  | txReplied p _ _
  | txFailed p _ _ _
  | txDangling p _ _ _
  | txIgnored p _ _
  | answered p _ _
  | scheduled p _
  | updated p _ =>
    simp [txGets, Call.isTxGet, List.filter_cons, Start.tokenCallback, Start.txCallback]
  | _ => simp at htx

theorem Stage.genuine_iff_acceptable (h : Stage F cells origin start requests queue trace)
    (htoken : TokenReplied F trace origin tokenCode tokenJson)
    (htx : TxReplied F trace origin txCode txJson)
    (hhandled : ∀ runnable ∈ queue, ∀ callback resp, runnable.task ≠ .reply callback resp)
    : Genuine F trace origin ↔ Acceptable tokenCode tokenJson txCode txJson := by
  constructor
  . intro hgenuine
    refine ⟨?_, ?_⟩
    . rcases hgenuine.asked (h.asked_of_txReplied htx) with ⟨code, json, hreplied, hgives⟩
      rw [(htoken.unique hreplied h).2]
      exact hgives
    . intro hobject
      rcases h.handled_object htx hhandled hobject with ⟨text, htext, hmem⟩
      have hproper := hgenuine.answered _ text hmem htext
      rcases hproper.token with ⟨code, json, hreplied, hcode, _⟩
      rcases hproper.list with ⟨code', json', hreplied', hcode', hlist⟩
      have htokenEq := htoken.unique hreplied h
      have htxEq := htx.unique hreplied' h
      rw [htokenEq.1, htxEq.1, htxEq.2]
      rw [givesList, Bool.and_eq_true] at hlist
      exact ⟨hlist.2, hcode, hcode'⟩
  . intro hacceptable
    have hproper : ListPassed trace origin → Proper F trace origin := by
      intro hpassed
      have hobject := h.object_of_listPassed htx hpassed
      rcases hacceptable.list hobject with ⟨harray, htokenCode, htxCode⟩
      have hlist : givesList txJson = true := by
        rw [givesList, hobject, harray]
        rfl
      exact ⟨⟨_, _, htoken, htokenCode, hacceptable.token⟩, ⟨_, _, htx, htxCode, hlist⟩⟩
    refine ⟨?_, ?_, fun _ => ⟨_, _, htoken, hacceptable.token⟩⟩
    . intro handle text hmem htext
      exact hproper (.inl ⟨handle, text, htext, hmem⟩)
    . intro context closure hmem
      exact hproper (.inr ⟨context, closure, hmem⟩)

/-! ## The part of a trace that is looked at -/

theorem Genuine.congr {t u : List Event} (h : Genuine F t origin)
    (htoken : TokenReplied F t origin = TokenReplied F u origin)
    (htx : TxReplied F t origin = TxReplied F u origin) (hcalls : calls origin t = calls origin u)
    : Genuine F u origin := by
  have hproper : Proper F t origin → Proper F u origin := by
    intro hproper
    refine ⟨?_, ?_⟩
    . rw [← htoken]
      exact hproper.token
    . rw [← htx]
      exact hproper.list
  refine ⟨?_, ?_, ?_⟩
  . intro handle text hmem htext
    rw [responds, ← hcalls] at hmem
    exact hproper (h.answered handle text hmem htext)
  . intro context closure hmem
    rw [← hcalls] at hmem
    exact hproper (h.scheduled context closure hmem)
  . intro hasked
    rw [txGets, ← hcalls] at hasked
    rw [← htoken]
    exact h.asked hasked

theorem replied_mem_traceOf {callback : HttpHandler} {reply : Reply}
    : .replied origin callback reply ∈ s.traceOf origin
        ↔ .replied origin callback reply ∈ s.trace := by
  rw [State.mem_traceOf]
  exact and_iff_left rfl

theorem tokenReplied_traceOf
    : TokenReplied F (s.traceOf origin) origin = TokenReplied F s.trace origin := by
  unfold TokenReplied
  simp only [replied_mem_traceOf]

theorem txReplied_traceOf
    : TxReplied F (s.traceOf origin) origin = TxReplied F s.trace origin := by
  unfold TxReplied
  simp only [replied_mem_traceOf]

theorem genuine_traceOf : Genuine F (s.traceOf origin) origin ↔ Genuine F s.trace origin := by
  constructor
  . intro h
    exact h.congr tokenReplied_traceOf txReplied_traceOf (calls_traceOf s origin)
  . intro h
    exact h.congr tokenReplied_traceOf.symm txReplied_traceOf.symm (calls_traceOf s origin).symm

theorem genuine_iff (hs : (machine F).Reachable System.free s)
    (htoken : TokenReplied F s.trace origin tokenCode tokenJson)
    (htx : TxReplied F s.trace origin txCode txJson)
    (hhandled : ∀ runnable ∈ s.queue, runnable.origin = origin →
      ∀ callback resp, runnable.task ≠ .reply callback resp)
    : Genuine F s.trace origin ↔ Acceptable tokenCode tokenJson txCode txJson := by
  rcases htx with ⟨closure, data, hmem, hparse⟩
  rcases (tracked_of_reachable hs).at_of_mem hmem with ⟨start, _, hat⟩
  rw [← genuine_traceOf]
  apply Stage.genuine_iff_acceptable hat
  . rw [tokenReplied_traceOf]
    exact htoken
  . rw [txReplied_traceOf]
    exact ⟨closure, data, hmem, hparse⟩
  . intro runnable hrunnable
    have := mem_owned.mp hrunnable
    exact hhandled runnable this.1 this.2

def answeredTokenBody : Str :=
  lit "\x7b\"token\":\"t\"\x7d"

theorem tokenReplied_of_body {code : Int16} {body : Str} (closure : TokenReply)
    (hmem : .replied origin (.token closure) (.success code body) ∈ trace)
    (hparse : (parse F body).2 = []) : TokenReplied F trace origin code (parse F body).1 :=
  ⟨closure, body, hmem, parseText_of_parse hparse⟩

theorem txReplied_of_body {code : Int16} {body : Str} (closure : TxReply)
    (hmem : .replied origin (.transactions closure) (.success code body) ∈ trace)
    (hparse : (parse F body).2 = []) : TxReplied F trace origin code (parse F body).1 :=
  ⟨closure, body, hmem, parseText_of_parse hparse⟩

theorem genuine_iff_answered : Genuine Double.integers answeredState.trace 1 ↔
    Acceptable 200 (parse Double.integers answeredTokenBody).1 200 answeredJson := by
  have htoken : TokenReplied Double.integers answeredState.trace 1 200
      (parse Double.integers answeredTokenBody).1 := by
    apply tokenReplied_of_body answeredStart.tokenReply
    . decide +kernel
    . decide +kernel
  have htx : TxReplied Double.integers answeredState.trace 1 200 answeredJson := by
    apply txReplied_of_body (answeredStart.txReply 1)
    . decide +kernel
    . decide +kernel
  have hqueue : answeredState.queue = [] := by
    decide +kernel
  apply genuine_iff answeredState_reachable htoken htx
  rw [hqueue]
  simp

def refusedBody : Str :=
  lit "\x7b\"error\":\"not found\"\x7d"

def refusedActions : List Action :=
  [.createApi (some 0) twoContexts, .observerTransactionList 0, .start 0 5 [lit "a"] ⟨0⟩ 7,
    .deliver 0 (.success 200 answeredTokenBody), .run 0, .run 0,
    .deliver 0 (.success 404 refusedBody), .run 0]

theorem refusedActions_exec
    : ((machine Double.integers).exec (machine Double.integers).init refusedActions).isSome
        = true := by
  decide +kernel

def refusedState : State :=
  ((machine Double.integers).exec (machine Double.integers).init refusedActions).get
    refusedActions_exec

def txStatus : Event → Option Int16
  | .replied _ (.transactions _) (.success httpCode _) => some httpCode
  | _ => none

theorem refusedState_statuses : refusedState.trace.filterMap txStatus = [404] := by
  decide +kernel

theorem refusedState_code {closure : TxReply} {code : Int16} {data : Str}
    (h : .replied 1 (.transactions closure) (.success code data) ∈ refusedState.trace)
    : code = 404 := by
  have hmem : code ∈ refusedState.trace.filterMap txStatus := List.mem_filterMap.mpr ⟨_, h, rfl⟩
  rw [refusedState_statuses] at hmem
  exact List.mem_singleton.mp hmem

theorem not_always_genuine : ¬∀ (F : Double) (s : State), (machine F).Reachable System.free s →
    ∀ origin tokenCode tokenJson txCode txJson, TokenReplied F s.trace origin tokenCode tokenJson →
    TxReplied F s.trace origin txCode txJson → Genuine F s.trace origin := by
  intro h
  have hreachable : (machine Double.integers).Reachable System.free refusedState :=
    System.reachable_exec refusedActions_exec (System.along_free _ _)
  let start : Start := { answeredStart with addresses := [lit "a"], options := ⟨0⟩ }
  have htoken : TokenReplied Double.integers refusedState.trace 1 200
      (parse Double.integers answeredTokenBody).1 := by
    apply tokenReplied_of_body start.tokenReply
    . decide +kernel
    . decide +kernel
  have htx : TxReplied Double.integers refusedState.trace 1 404
      (parse Double.integers refusedBody).1 := by
    apply txReplied_of_body (start.txReply 1)
    . decide +kernel
    . decide +kernel
  have hanswered : (7, { error := [], result := lit "[]" }) ∈ responds 1 refusedState.trace := by
    decide +kernel
  have hne : lit "[]" ≠ [] := by
    decide
  have hrefused : successful 404 = false := by
    decide
  have hgenuine := h _ _ hreachable 1 200 _ 404 _ htoken htx
  rcases (hgenuine.answered 7 _ hanswered hne).list with
    ⟨code, json, ⟨closure, data, hmem, _⟩, hcode, _⟩
  rw [refusedState_code hmem, hrefused] at hcode
  exact Bool.noConfusion hcode

end LedgerApp
