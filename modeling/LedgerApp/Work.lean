import LedgerApp.Budget
import LedgerApp.Confinement

/-!
How much work a `start` causes. Each reply, Runnable and call of the library is one step; what is
pending bounds the steps that are still to come, whatever the replies are and in whichever order the
platform proceeds.
-/

namespace LedgerApp

open Bytes Json11

variable {F : Double} {s s' : EnvState}

/-! ## The steps that a piece of pending work takes at most -/

-- it is run, makes its calls and returns
def Task.work : Task → Nat
  | .update _ => 3
  | .reply (.transactions _) _ => 8
  | .getTransactions _ => 14
  | .reply (.token _) _ => 17

-- the reply is delivered, the Runnable is submitted, and the entry point returns
def HttpHandler.work : HttpHandler → Nat
  | .transactions _ => 11
  | .token _ => 20

def Call.work : Call → Nat
  | .get _ _ _ callback => 1 + callback.cb.work
  | .execute _ task => 1 + task.work
  | _ => 1

-- the first request, and the return of `start`
def Start.work : Nat := 22

def works (calls : List Call) : List Nat :=
  calls.map Call.work

def Body.works (F : Double) : Body → List Nat
  | .entry calls => LedgerApp.works calls
  | .run runnable => LedgerApp.works (runnable.task.call F 0 [] fun _ => none)

def Frame.work (F : Double) (frame : Frame) : Nat :=
  1 + ((frame.body.works F).drop frame.made).sum

-- the calls read the cells and the observers, but which kind of call is made does not depend on
-- them
theorem works_call (task : Task) (cell cell' : Cell) (cells cells' : List (Option Task))
    (getObserver getObserver' : HandleRef → Option Observer)
    : works (task.call F cell cells getObserver)
        = works (task.call F cell' cells' getObserver') := by
  unfold Task.call
  split
  . rfl
  . rw [TxReply.call_eq, TxReply.call_eq]
    split
    . unfold respondBy
      split
      . split
        . rfl
        . rfl
      . split
        . rfl
        . rfl
    . split
      . rw [works, works, List.map_append, List.map_append, StartCallback.call_eq,
          StartCallback.call_eq]
        split
        . rfl
        . rfl
      . rfl
  . unfold TxTask.call Http.get
    split
    . split
      . rfl
      . rfl
    . rfl
  . rfl

theorem works_rest (frame : Frame) (w : World)
    : works (frame.rest F w) = (frame.body.works F).drop frame.made := by
  unfold Frame.rest works
  rw [List.map_drop]
  generalize frame.body = body
  cases body with
  | entry calls => rfl
  | run runnable =>
    have hbody := works_call (F := F) runnable.task runnable.cell 0 w.cells []
      w.lib.getObserver fun _ => none
    dsimp only [Body.calls, Body.works, World.body]
    rw [← hbody]
    rfl

theorem sum_works_printed (json : Json F) : (works (printed json)).sum ≤ 1 := by
  unfold printed
  split
  . decide
  . decide

theorem sum_works_call (task : Task) (cell : Cell) (cells : List (Option Task))
    (getObserver : HandleRef → Option Observer)
    : (works (task.call F cell cells getObserver)).sum + 2 ≤ task.work := by
  unfold Task.call
  split
  . rw [TokenReply.call_eq]
    split
    . simp [works, Call.work, Task.work]
    . unfold TokenContinuation.call
      split
      . simp [works, Call.work, Task.work]
      . simp [works, Call.work, Task.work]
  . rw [TxReply.call_eq]
    split
    . unfold respondBy
      split
      . simp [works, Call.work, Task.work]
      . simp [works, Call.work, Task.work]
    . next json _ =>
      have hprinted := sum_works_printed json
      split
      . rw [StartCallback.call_eq]
        unfold works at hprinted ⊢
        rw [List.map_append, List.sum_append]
        split
        . simp only [List.map_cons, List.map_nil, List.sum_cons, List.sum_nil, Call.work, Task.work]
          omega
        . simp only [List.map_cons, List.map_nil, List.sum_cons, List.sum_nil, Call.work, Task.work]
          omega
      . simp [works, Task.work]
  . unfold TxTask.call Http.get
    split
    . split
      . simp [works, Call.work, Task.work, HttpHandler.work]
      . simp [works, Task.work]
    . simp [works, Call.work, Task.work]
  . unfold Update.call
    split
    . simp [works, Call.work, Task.work]
    . simp [works, Call.work, Task.work]

theorem sum_works_on (callback : HttpCallback) (reply : Reply)
    : (works (callback.on reply)).sum + 2 ≤ callback.cb.work := by
  rw [HttpCallback.on_eq, HttpCallback.cbWith]
  generalize callback.cb = cb
  split
  . cases cb with
    | token closure => simp [works, Call.work, Task.work, HttpHandler.work]
    | transactions closure => simp [works, Call.work, Task.work, HttpHandler.work]
  . cases cb with
    | token closure => simp [works, HttpHandler.work]
    | transactions closure => simp [works, HttpHandler.work]

theorem sum_works_start (start : Start)
    : (works (start.call start.testnetMode)).sum + 1 ≤ Start.work := by
  rw [Start.call_eq]
  split
  . simp [works, Call.work, HttpHandler.work, Start.work, Start.tokenCallback]
  . simp [works, Start.work]

/-! ## The work that is pending for some of the origins -/

section

variable {β : Type} {origin work : β → Nat} {items items' : List β} {x : β}

def share (owns : Nat → Bool) (origin : Nat) (n : Nat) : Nat :=
  if owns origin then n else 0

variable {owns : Nat → Bool}

theorem share_add (o n m : Nat) : share owns o (n + m) = share owns o n + share owns o m := by
  unfold share
  split
  . rfl
  . rfl

theorem share_le {n m : Nat} (owns : Nat → Bool) (o : Nat) (h : n ≤ m)
    : share owns o n ≤ share owns o m := by
  unfold share
  split
  . exact h
  . rfl

def load (owns : Nat → Bool) (origin work : β → Nat) (items : List β) : Nat :=
  (items.map fun x => share owns (origin x) (work x)).sum

@[simp]
theorem load_append : load owns origin work (items ++ items')
    = load owns origin work items + load owns origin work items' := by
  simp [load]

@[simp]
theorem load_singleton : load owns origin work [x] = share owns (origin x) (work x) := by
  simp [load]

theorem load_eraseIdx {index : Nat} (owns : Nat → Bool) (origin work : β → Nat)
    (h : items[index]? = some x)
    : load owns origin work items
        = share owns (origin x) (work x) + load owns origin work (items.eraseIdx index) := by
  rcases List.getElem?_eq_some_iff.mp h with ⟨hlt, rfl⟩
  have hp := List.getElem_cons_eraseIdx_perm hlt
  unfold load
  rw [← (hp.map _).sum_nat, List.map_cons, List.sum_cons]

end

def Request.work (request : Request) : Nat :=
  request.callback.cb.work

def Runnable.work (runnable : Runnable) : Nat :=
  runnable.task.work

namespace EnvState

def work (F : Double) (owns : Nat → Bool) (s : EnvState) : Nat :=
  load owns Request.origin Request.work s.requests
    + load owns Runnable.origin Runnable.work s.queue
    + load owns Frame.origin (Frame.work F) s.active

-- for which `start` the step is done
def origin? (s : EnvState) : EnvAction → Option Nat
  | .deliver index _ _ => s.requests[index]?.map Request.origin
  | .run index => s.queue[index]?.map Runnable.origin
  | .proceed index => s.active[index]?.map Frame.origin
  | _ => none

def cost (owns : Nat → Bool) (s : EnvState) (action : EnvAction) : Nat :=
  match s.origin? action with
  | some origin => share owns origin 1
  | none => 0

def gain (owns : Nat → Bool) (s : EnvState) : EnvAction → Nat
  | .start _ _ _ _ _ => share owns s.lib.now Start.work
  | _ => 0

end EnvState

-- each request gets one reply
def once (_ : EnvState) : EnvAction → Prop
  | .deliver _ _ keep => keep = false
  | _ => True

theorem work_enter (owns : Nat → Bool) (s : EnvState) (origin : Nat) (event : Event) (body : Body)
    : (s.enter origin event body).work F owns
        = s.work F owns + share owns origin (1 + (body.works F).sum) := by
  simp [EnvState.work, EnvState.enter, World.log, Frame.work, Nat.add_assoc]

theorem work_make (owns : Nat → Bool) (s : EnvState) (frame : Frame) (call : Call)
    : (s.make frame call).work F owns + share owns frame.origin 1
        = s.work F owns + share owns frame.origin (call.work + frame.next.work F) := by
  have hissued : load owns Request.origin Request.work (issued frame.origin [call])
      + load owns Runnable.origin Runnable.work (submitted frame.origin s.cells.length [call])
      + share owns frame.origin 1 = share owns frame.origin call.work := by
    cases call with
    | get impl url header callback =>
      simp [issued, submitted, load, Request.work, Call.work, share_add, Nat.add_comm]
    | execute context task =>
      simp [issued, submitted, load, Runnable.work, Call.work, share_add, Nat.add_comm]
    | _ => simp [issued, submitted, load, Call.work]
  rw [share_add, ← hissued]
  simp only [EnvState.work, EnvState.make, World.perform, load_append, load_singleton]
  have horigin : frame.next.origin = frame.origin := rfl
  rw [horigin]
  omega

theorem work_step {action : EnvAction} (owns : Nat → Bool) (hok : once s action)
    (h : envStep F s action = some s')
    : s.cost owns action + s'.work F owns ≤ s.work F owns + s.gain owns action := by
  cases action with
  | createApi httpImpl threadDispatcher =>
    rw [envStep_createApi h]
    simp [EnvState.cost, EnvState.origin?, EnvState.gain, EnvState.work]
  | observerTransactionList api =>
    rcases envStep_observerTransactionList h with ⟨lib, _, rfl⟩
    simp [EnvState.cost, EnvState.origin?, EnvState.gain, EnvState.work]
  | start handle observer addresses options response =>
    rcases envStep_start h with ⟨lib, start, _, rfl⟩
    have hsum : 1 + (Body.works F (.entry (start.call start.testnetMode))).sum ≤ Start.work := by
      have := sum_works_start start
      dsimp only [Body.works]
      omega
    rw [work_enter]
    have := share_le owns s.lib.now hsum
    simp only [EnvState.cost, EnvState.origin?, EnvState.gain, EnvState.work] at this ⊢
    omega
  | deliver index reply keep =>
    rcases envStep_deliver h with ⟨request, hrequest, rfl⟩
    have hkeep : keep = false := hok
    have hsum : 1 + (1 + (Body.works F (.entry (request.callback.on reply))).sum)
        ≤ request.work := by
      have := sum_works_on request.callback reply
      dsimp only [Body.works, Request.work]
      omega
    have hshare := share_le owns request.origin hsum
    rw [share_add] at hshare
    have hload := load_eraseIdx owns Request.origin Request.work hrequest
    rw [work_enter, hkeep]
    simp only [EnvState.cost, EnvState.origin?, EnvState.gain, EnvState.work, hrequest,
      Option.map_some, Bool.false_eq_true, if_false]
    omega
  | run index =>
    rcases envStep_run h with ⟨runnable, hrunnable, rfl⟩
    have hsum : 1 + (1 + (Body.works F (.run runnable)).sum) ≤ runnable.work := by
      have := sum_works_call (F := F) runnable.task 0 [] fun _ => none
      dsimp only [Body.works, Runnable.work]
      omega
    have hshare := share_le owns runnable.origin hsum
    rw [share_add] at hshare
    have hload := load_eraseIdx owns Runnable.origin Runnable.work hrunnable
    rw [work_enter]
    simp only [EnvState.cost, EnvState.origin?, EnvState.gain, EnvState.work, hrunnable,
      Option.map_some]
    omega
  | proceed index =>
    rcases envStep_proceed h with ⟨frame, hframe, hcases⟩
    have hload := load_eraseIdx owns Frame.origin (Frame.work F) hframe
    rcases hcases with ⟨_, rfl⟩ | ⟨call, calls, hrest, rfl⟩
    . have hsum : 1 ≤ frame.work F := by
        unfold Frame.work
        omega
      have hshare := share_le owns frame.origin hsum
      simp only [EnvState.cost, EnvState.origin?, EnvState.gain, EnvState.work, hframe,
        Option.map_some]
      omega
    . have hworks : (frame.body.works F).drop frame.made = call.work :: works calls := by
        rw [← works_rest frame s.toWorld, hrest]
        rfl
      have hframework : frame.work F = call.work + frame.next.work F := by
        unfold Frame.work Frame.next
        dsimp only
        rw [← List.drop_drop, hworks, List.drop_one, List.tail_cons, List.sum_cons]
        omega
      have hmake := work_make (F := F) owns { s with active := s.active.eraseIdx index } frame call
      rw [← hframework] at hmake
      simp only [EnvState.cost, EnvState.origin?, EnvState.gain, EnvState.work, hframe,
        Option.map_some] at hmake ⊢
      omega
  | drop cell =>
    rcases envStep_drop h with ⟨_, rfl⟩
    simp [EnvState.cost, EnvState.origin?, EnvState.gain, EnvState.work]

def budget (F : Double) (owns : Nat → Bool) : (environment F).Budget once where
  left := EnvState.work F owns
  cost := EnvState.cost owns
  gain := EnvState.gain owns
  paid := fun _ _ _ hok hstep => work_step owns hok hstep

/-! ## The steps of one `start` -/

-- what a `start` that has not happened yet may still bring in
def credit (origin : Nat) (s : EnvState) : Nat :=
  if s.lib.now ≤ origin then Start.work else 0

theorem credit_step {origin : Nat} {action : EnvAction} (h : envStep F s action = some s')
    : s.gain (· == origin) action + credit origin s' ≤ credit origin s := by
  have hlater := (envStep_lib h).1.now
  have hcredit : credit origin s' ≤ credit origin s := by
    unfold credit
    split
    . rw [if_pos (by omega)]
    . omega
  cases action with
  | start handle observer addresses options response =>
    rcases envStep_start h with ⟨lib, start, hstart, rfl⟩
    have hnow : lib.now = s.lib.now + 1 := (started_of_start hstart).now
    by_cases heq : s.lib.now = origin
    . simp [EnvState.gain, share, credit, EnvState.enter, World.log, heq, hnow]
    . simpa [EnvState.gain, share, heq] using hcredit
  | _ => simpa [EnvState.gain] using hcredit

def credits (F : Double) (origin : Nat) : (environment F).Budget once where
  left := credit origin
  cost := EnvState.gain (· == origin)
  gain := fun _ _ => 0
  paid := fun _ _ _ _ hstep => credit_step hstep

theorem total_gain_le (origin : Nat) {as : List EnvAction}
    (hok : (environment F).Along once (environment F).init as)
    (hexec : (environment F).exec (environment F).init as = some s)
    : (environment F).total (EnvState.gain (· == origin)) (environment F).init as ≤ Start.work := by
  have htotal := (credits F origin).total_le hok hexec
  have hzero : (environment F).total (credits F origin).gain (environment F).init as = 0 :=
    System.total_eq_zero hok fun _ _ _ => rfl
  rw [hzero] at htotal
  have hcredit : credit origin (environment F).init = Start.work := by
    simp [credit, environment, EnvState.init, World.init, Lib.init]
  dsimp only [credits] at htotal
  omega

theorem bounded_work (origin : Nat) {as : List EnvAction}
    (hok : (environment F).Along once (environment F).init as)
    (hexec : (environment F).exec (environment F).init as = some s)
    : (environment F).total (EnvState.cost (· == origin)) (environment F).init as
        + s.work F (· == origin) ≤ 22 := by
  have htotal := (budget F (· == origin)).total_le hok hexec
  have hgain := total_gain_le origin hok hexec
  have hinit : (environment F).init.work F (· == origin) = 0 := rfl
  dsimp only [budget, Start.work] at htotal hgain
  omega

-- a run with one answer, in which the list is truncated
def truncatedActions : List EnvAction :=
  [.createApi (some 0) twoContexts, .observerTransactionList 0,
    .start 0 5 [lit "a", lit "b"] ⟨1⟩ 7, .proceed 0, .proceed 0,
    .deliver 0 (.success 200 (lit "\x7b\"token\":\"t\"\x7d")) false, .proceed 0, .run 0, .proceed 1,
    .run 0, .proceed 2, .proceed 2, .proceed 1, .proceed 0,
    .deliver 0 (.success 200 (lit "\x7b\"txs\":[3],\"truncated\":true\x7d")) false, .proceed 0,
    .proceed 0, .run 0, .proceed 0, .proceed 0, .proceed 0, .run 0, .proceed 1, .proceed 1,
    .proceed 0]

theorem truncatedActions_exec
    : ((environment Double.integers).exec (environment Double.integers).init truncatedActions).isSome
        = true := by
  decide +kernel

def truncatedState : EnvState :=
  ((environment Double.integers).exec (environment Double.integers).init truncatedActions).get
    truncatedActions_exec

instance (s : EnvState) : (action : EnvAction) → Decidable (once s action)
  | .deliver _ _ keep => inferInstanceAs (Decidable (keep = false))
  | .createApi _ _ | .observerTransactionList _ | .start _ _ _ _ _ | .run _ | .proceed _
  | .drop _ => isTrue trivial

-- the bound is attained
theorem bounded_work_truncated
    : (environment Double.integers).total (EnvState.cost (· == 1))
          (environment Double.integers).init truncatedActions
        + truncatedState.work Double.integers (· == 1) ≤ 22
      ∧ (environment Double.integers).total (EnvState.cost (· == 1))
          (environment Double.integers).init truncatedActions = 22 := by
  constructor
  . apply bounded_work 1
    . decide +kernel
    . exact (Option.some_get truncatedActions_exec).symm
  . decide +kernel

end LedgerApp
