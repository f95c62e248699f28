import LedgerApp.Causality
import LedgerApp.Json11.Lemmas.Parsed
import LedgerApp.ViewModel

/-!
The two ways in which a list of transactions leaves the library: the text given to `respond`, in
which the transactions are joined by hand, and the view model given to `on_update`. Both hold the
transactions the server sent, in the same order.
-/

namespace LedgerApp

open Bytes Json11

variable {F : Double} {s : State}

/-! ## A list of values as text -/

def valueCell (v : Json F) : TransactionListVmCell where
  txHash := (v.get (lit "hash")).stringValue
  receivedAt := (v.get (lit "received_at")).stringValue
  txData := v.dump

theorem map_cellOf_listed {json : Json F} {items : List (Json F)}
    (h : json.get (lit "txs") = .array items) : (listed json).map cellOf = items.map valueCell := by
  unfold listed
  rw [h, Json.arrayItems, List.map_map]
  rfl

theorem mem_of_find {key : Str} {v : Json F} {fields : List (Str × Json F)}
    (h : Json.find key fields = some v) : (key, v) ∈ fields := by
  induction fields with
  | nil => simp [Json.find] at h
  | cons p fields ih =>
    unfold Json.find at h
    split at h
    . next heq =>
      simp only [Option.some.injEq] at h
      rw [← heq, ← h]
      exact List.mem_cons_self
    . exact List.mem_cons_of_mem _ (ih h)

theorem wellFormed_get {levels : Nat} {v : Json F} (h : WellFormed (levels + 1) v) (key : Str)
    : WellFormed levels (v.get key) := by
  have hnull : WellFormed levels (.null : Json F) := wellFormed_scalar trivial rfl
  cases v with
  | object fields =>
    have hcanonical := h.1
    have hdepth := h.2
    rw [Json.Canonical, Json.canonicalFields_iff] at hcanonical
    rw [Json.depth, Nat.add_le_add_iff_right, Json.depthFields_le_iff] at hdepth
    generalize hfind : Json.find key fields = found
    cases found with
    | none =>
      rw [show (Json.object fields).get key = .null by simp [Json.get, hfind]]
      exact hnull
    | some value =>
      have hmem := mem_of_find hfind
      rw [show (Json.object fields).get key = value by simp [Json.get, hfind]]
      exact ⟨hcanonical.2 _ hmem, hdepth _ hmem⟩
  | _ => exact hnull

theorem wellFormed_items {levels : Nat} {items : List (Json F)}
    (h : WellFormed (levels + 1) (.array items)) : ∀ v ∈ items, WellFormed levels v := by
  have hcanonical := h.1
  have hdepth := h.2
  rw [Json.Canonical, Json.canonicalItems_iff] at hcanonical
  rw [Json.depth, Nat.add_le_add_iff_right, Json.depthItems_le_iff] at hdepth
  intro v hv
  exact ⟨hcanonical v hv, hdepth v hv⟩

theorem item_bounds {body : Str} {json v : Json F} {items : List (Json F)}
    (hparse : parseText F body = .ok json) (hitems : json.get (lit "txs") = .array items)
    (hv : v ∈ items) : v.Canonical ∧ v.depth < maxDepth := by
  have htxs := wellFormed_get (parseText_wellFormed hparse) (lit "txs")
  rw [hitems] at htxs
  have hwell : WellFormed (maxDepth - 1) v := wellFormed_items htxs v hv
  refine ⟨hwell.1, ?_⟩
  have hdepth := hwell.2
  have : 0 < maxDepth := by decide
  omega

theorem listText_parses (hF : F.Lawful) {items : List (Json F)}
    (h : ∀ v ∈ items, v.Canonical ∧ v.Finite ∧ v.depth < maxDepth)
    : ∃ items', parseText F (listText (items.map valueCell)) = .ok (.array items')
        ∧ List.Forall₂ (fun v' v => Json.equals v' v = true) items' items := by
  have htext : listText (items.map valueCell)
      = 0x5b :: [0x2c].intercalate (items.map Json.dump) ++ [0x5d] := by
    simp [listText, valueCell, lit, Function.comp_def]
  rw [htext]
  exact parseText_joined hF h

/-! ## The two channels -/

structure Delivered (F : Double) (trace : List Event) (queue : List Runnable) (origin : Nat)
    (start : Start) (json : Json F) : Prop where
  responded : responds origin trace
    = [(start.response, { error := [], result := listText ((listed json).map cellOf) })]
  shown : ∀ observer vm, (observer, vm) ∈ updates origin trace →
    vm.transactions = (listed json).map cellOf
  pending : updates origin trace = [] → start.mainContext = none ∨ queue ≠ []

theorem read_of_ran {origin : Nat} {start : Start} {p : Path F}
    {runnable : Runnable} {closure : TxReply} {resp : HttpResponse} {json : Json F}
    (hmem : runnable = p.tokenRunnable origin start ∨ runnable = p.txRunnable origin start
      ∨ runnable = p.replyRunnable origin start ∨ runnable = p.updateRunnable origin start)
    (htask : runnable.task = .reply (.transactions closure) resp) (hread : resp.read F = .ok json)
    : p.txAnswer.read F = .ok json := by
  rcases hmem with rfl | rfl | rfl | rfl
  . simp [Path.tokenRunnable] at htask
  . simp [Path.txRunnable] at htask
  . simp only [Path.replyRunnable, Task.reply.injEq] at htask
    rw [← Reply.read_response, htask.2]
    exact hread
  . simp [Path.updateRunnable] at htask

theorem Stage.delivered {cells : List (Option Task)} {origin : Nat} {start : Start}
    {requests : List Request} {queue : List Runnable} {trace : List Event} {runnable : Runnable}
    {closure : TxReply} {resp : HttpResponse} {json : Json F}
    (h : Stage F cells origin start requests queue trace) (hmem : .ran runnable ∈ trace)
    (htask : runnable.task = .reply (.transactions closure) resp) (hread : resp.read F = .ok json)
    (hobject : json.isObject = true) : Delivered F trace queue origin start json := by
  cases h with
  | silent _
  | tokenRequested p _
  | tokenLost p _ _
  | tokenReplied p _ => simp at hmem
  | tokenFailed p _ _ _
  | noBack p _ _
  | granted p _ _ =>
    simp at hmem
    rw [hmem] at htask
    simp [Path.tokenRunnable] at htask
  | txRequested p h _
  | txReplied p h _ =>
    simp at hmem
    rcases hmem with rfl | rfl
    . simp [Path.tokenRunnable] at htask
    . simp [Path.txRunnable] at htask
  | txFailed p h e he
  | txDangling p h e he =>
    simp at hmem
    have hjson := read_of_ran (by tauto) htask hread
    rw [he] at hjson
    contradiction
  | txIgnored p h hnot =>
    simp at hmem
    have hjson := read_of_ran (by tauto) htask hread
    rw [h.txJson, Except.ok.injEq] at hjson
    rw [hjson, hobject] at hnot
    contradiction
  | answered p h hmain =>
    simp at hmem
    have hjson := read_of_ran (by tauto) htask hread
    rw [h.txJson, Except.ok.injEq] at hjson
    rw [← hjson]
    refine ⟨?_, ?_, fun _ => .inl hmain⟩
    . simp [responds, Call.answer, List.filterMap_cons, Path.success, Path.vCells]
    . simp [updates, Call.shown, List.filterMap_cons]
  | scheduled p h =>
    simp at hmem
    have hjson := read_of_ran (by tauto) htask hread
    rw [h.txJson, Except.ok.injEq] at hjson
    rw [← hjson]
    refine ⟨?_, ?_, fun _ => .inr (by simp)⟩
    . simp [responds, Call.answer, List.filterMap_cons, Path.success, Path.vCells]
    . simp [updates, Call.shown, List.filterMap_cons]
  | updated p h =>
    simp at hmem
    have hjson := read_of_ran (by tauto) htask hread
    rw [h.txJson, Except.ok.injEq] at hjson
    rw [← hjson]
    refine ⟨?_, ?_, ?_⟩
    . simp [responds, Call.answer, List.filterMap_cons, Path.success, Path.vCells]
    . simp [updates, Call.shown, List.filterMap_cons, Path.vCells]
    . simp [updates, Call.shown, List.filterMap_cons]

structure ChannelsAgree (F : Double) (s : State) (origin : Nat) (start : Start)
    (items : List (Json F)) : Prop where
  responded : ∃ text items',
    responds origin s.trace = [(start.response, { error := [], result := text })]
      ∧ parseText F text = .ok (.array items')
      ∧ List.Forall₂ (fun v' v => Json.equals v' v = true) items' items
  count : ∀ observer vm, (observer, vm) ∈ updates origin s.trace →
    vm.count.toInt = items.length
  getTransaction : ∀ observer vm, (observer, vm) ∈ updates origin s.trace →
    ∀ (i : Nat) (v : Json F), items[i]? = some v →
      ∃ cell v', vm.getTransaction (Int32.ofNat i) = some (some cell)
        ∧ parseText F cell.txData = .ok v' ∧ Json.equals v' v = true
        ∧ cell.txHash = (v.get (lit "hash")).stringValue
        ∧ cell.receivedAt = (v.get (lit "received_at")).stringValue
  pending : updates origin s.trace = [] → start.mainContext = none ∨ s.queueOf origin ≠ []

theorem channels_agree (hF : F.Lawful) (hs : (machine F).Reachable System.free s) {origin : Nat}
    {start : Start} {runnable : Runnable} {closure : TxReply} {resp : HttpResponse}
    {json : Json F} {items : List (Json F)}
    (hstarted : .started origin start ∈ s.trace) (hran : .ran runnable ∈ s.trace)
    (horigin : runnable.origin = origin)
    (htask : runnable.task = .reply (.transactions closure) resp) (herror : resp.error = false)
    (hparse : parseText F resp.data = .ok json) (hobject : json.isObject = true)
    (hitems : json.get (lit "txs") = .array items) (hfinite : ∀ v ∈ items, v.Finite)
    (hlength : items.length < 2 ^ 31) : ChannelsAgree F s origin start items := by
  have hat := (tracked_of_reachable hs).at_of_started hstarted
  have hread : resp.read F = .ok json := by
    rw [HttpResponse.read, herror]
    exact hparse
  have hmem : .ran runnable ∈ s.traceOf origin := State.mem_traceOf.mpr ⟨hran, horigin⟩
  have hdelivered := Stage.delivered hat hmem htask hread hobject
  have hresponded := hdelivered.responded
  have hshown := hdelivered.shown
  have hpending := hdelivered.pending
  rw [responds_traceOf, map_cellOf_listed hitems] at hresponded
  rw [updates_traceOf] at hshown hpending
  rw [map_cellOf_listed hitems] at hshown
  have hbounds : ∀ v ∈ items, v.Canonical ∧ v.Finite ∧ v.depth < maxDepth := by
    intro v hv
    have := item_bounds hparse hitems hv
    exact ⟨this.1, hfinite v hv, this.2⟩
  refine ⟨?_, ?_, ?_, hpending⟩
  . rcases listText_parses hF hbounds with ⟨items', htext, hequal⟩
    exact ⟨_, items', hresponded, htext, hequal⟩
  . intro observer vm hvm
    have hcells := hshown observer vm hvm
    rw [TransactionListVm.toInt_count, hcells, List.length_map]
    rw [hcells, List.length_map]
    exact hlength
  . intro observer vm hvm i v hi
    have hlt := (List.getElem?_eq_some_iff.mp hi).1
    have hv := hbounds v (List.mem_of_getElem? hi)
    rcases parseText_dump hF hv.1 hv.2.1 (Nat.le_of_lt hv.2.2) with ⟨v', htext, hequal⟩
    refine ⟨valueCell v, v', ?_, htext, hequal, rfl, rfl⟩
    apply TransactionListVm.getTransaction_ofNat (by omega)
    rw [hshown observer vm hvm, List.getElem?_map, hi]
    rfl

def answeredBody : Str :=
  lit "\x7b\"txs\":[\x7b\"hash\":\"h\"\x7d, 3]\x7d"

def answeredJson : Json Double.integers :=
  (parse Double.integers answeredBody).1

theorem answeredJson_parse : parseText Double.integers answeredBody = .ok answeredJson := by
  apply parseText_of_parse
  decide +kernel

theorem answeredJson_txs
    : answeredJson.get (lit "txs") = .array (answeredJson.get (lit "txs")).arrayItems := by
  apply Json.eq_array
  decide +kernel

def answeredReply : Runnable where
  origin := 1
  cell := 2
  context := 0
  task := .reply (.transactions (answeredStart.txReply 1))
    { error := false, errorMessage := [], httpCode := some 200, data := answeredBody }

theorem answeredState_ran : .ran answeredReply ∈ answeredState.trace := by
  decide +kernel

theorem channels_agree_answered : ChannelsAgree Double.integers answeredState 1 answeredStart
    (answeredJson.get (lit "txs")).arrayItems := by
  have hobject : answeredJson.isObject = true := by
    decide +kernel
  have hlength : (answeredJson.get (lit "txs")).arrayItems.length < 2 ^ 31 := by
    decide +kernel
  exact channels_agree Double.integers_lawful answeredState_reachable answeredState_started
    answeredState_ran rfl rfl rfl answeredJson_parse hobject answeredJson_txs
    (fun v _ => Double.integers_finite v) hlength

end LedgerApp
