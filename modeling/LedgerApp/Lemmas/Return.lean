import Mathlib.Algebra.Order.BigOperators.Group.List
import LedgerApp.Budget
import LedgerApp.Conservation

/-!
The steps that the iOS execution context still has to take: a Runnable that is delayed pays for what
becomes of it later, and its key for one pass of `waitUntilStopped`.
-/

namespace LedgerApp
namespace LGExecutionContextObjc

variable {s s' : State} {key : NSString}

/-! ## The steps that are left -/

-- the keys that the pass at hand still has to remove
def Loop.snapshot : Loop → List NSString
  | .keys later => later
  | .runnables key _ later => key :: later
  | _ => []

def Loop.left (isRunning : Bool) : Loop → Nat
  | .idle | .returned => 0
  | .lockStart => 15
  | .start => 14
  | .unlockStart => 13
  | .lockTest => if isRunning then 12 else 4
  | .test => if isRunning then 11 else 3
  | .unlockTest localRunning => if localRunning then 10 else 2
  | .tested localRunning => if localRunning then 9 else 1
  | .count => 8
  | .lockPass => 7
  | .allKeys => 6
  | .keys _ => 14
  | .runnables _ _ _ => 13
  | .unlockPass => 13
  | .lockStop => 7
  | .stop => 6
  | .unlockStop => if isRunning then 13 else 5

def Method.left : Method → Nat
  | .delay _ _ => 14
  | .isContextRunning => 0

def Call.left (call : Call) : Nat :=
  match call.phase with
  | .lock => 3 + call.method.left
  | .work => 2 + call.method.left
  | .unlock => 1
  | .done => 0

def Block.left (block : Block) : Nat :=
  match block.phase with
  | .pending => 2
  | .ran => 1
  | .unlocked => 0

namespace State

-- a key that no pass has listed yet will cause one
def weight (s : State) (key : NSString) : Nat :=
  (if key ∈ s.loop.snapshot then 2 else 11) + 3 * (s.waiting key).length

def stored (s : State) : Nat :=
  (s.queue.keys.map s.weight).sum

def left (s : State) : Nat :=
  s.loop.left s.isRunning + s.stored + (s.calls.map Call.left).sum + (s.blocks.map Block.left).sum

end State

-- calls from outside bring in the work that is done for them
def cost (_ : State) : Action → Nat
  | .enter _ => 0
  | .waitUntilStopped => 0
  | _ => 1

def gain (_ : State) : Action → Nat
  | .enter (.delay _ _) => 17
  | .enter .isContextRunning => 3
  | .waitUntilStopped => 15
  | _ => 0

/-! ## The keys of a pass -/

structure Listed (s : State) : Prop where
  nodup : s.loop.snapshot.Nodup
  subset : s.loop.snapshot ⊆ s.queue.keys
  keys_ne_nil : s.loop = .lockPass ∨ s.loop = .allKeys → s.queue.keys ≠ []

theorem keys_appendRunnable (queue : Queue) (runnable : LGRunnable) (key : NSString)
    : (appendRunnable queue runnable key).keys = key :: (queue.erase key).keys := by
  unfold appendRunnable
  rw [AList.keys_erase]
  split
  . exact AList.keys_insert _
  . exact AList.keys_insert _

theorem mem_keys_erase {queue : Queue} {key other : NSString}
    : other ∈ (queue.erase key).keys ↔ other ≠ key ∧ other ∈ queue.keys := by
  rw [← AList.mem_keys, AList.mem_erase, AList.mem_keys]

theorem keys_perm_erase {queue : Queue} {key : NSString} (h : key ∈ queue.keys)
    : queue.keys.Perm (key :: (queue.erase key).keys) := by
  have hnodup : (key :: (queue.erase key).keys).Nodup := by
    rw [List.nodup_cons, mem_keys_erase]
    exact ⟨fun hmem => hmem.1 rfl, (queue.erase key).keys_nodup⟩
  rw [List.perm_ext_iff_of_nodup queue.keys_nodup hnodup]
  intro other
  rw [List.mem_cons, mem_keys_erase]
  by_cases heq : other = key
  . simp [heq, h]
  . simp [heq]

theorem Listed.congr (h : Listed s) (hloop : s'.loop = s.loop) (hqueue : s'.queue = s.queue)
    : Listed s' where
  nodup := by
    rw [hloop]
    exact h.nodup
  subset := by
    rw [hloop, hqueue]
    exact h.subset
  keys_ne_nil := by
    rw [hloop, hqueue]
    exact h.keys_ne_nil

theorem Listed.call {index : Nat} {call : Call} (h : Listed s)
    (hcall : s.calls[index]? = some call) (hstep : s.stepCall index call = some s') : Listed s' := by
  have hloop := (stepCall_frame hstep).1
  cases stepCall_data hcall hstep with
  | keep queue _ _ _ => exact h.congr hloop queue
  | append _ _ runnable millis _ _ _ queue _ _ _ =>
    refine ⟨by rw [hloop]; exact h.nodup, ?_, ?_⟩
    . rw [hloop, queue, keys_appendRunnable]
      intro other hother
      by_cases heq : other = stringValue millis
      . rw [heq]
        exact List.mem_cons_self
      . exact List.mem_cons_of_mem _ (mem_keys_erase.mpr ⟨heq, h.subset hother⟩)
    . intro _
      rw [queue]
      exact keys_appendRunnable_ne_nil _ _ _
  | dispatch _ _ _ _ heq _ _ _ _ heq'
  | remove _ _ _ heq _ _ _ _ heq' =>
    rw [hloop, heq] at heq'
    simp at heq'

theorem Listed.of_snapshot_eq_nil (hsnapshot : s.loop.snapshot = [])
    (hloop : s.loop ≠ .lockPass ∧ s.loop ≠ .allKeys) : Listed s := by
  refine ⟨by simp [hsnapshot], by simp [hsnapshot], ?_⟩
  rintro (hlock | hall)
  . exact absurd hlock hloop.1
  . exact absurd hall hloop.2

theorem Listed.loop (h : Listed s) (hstep : LoopStep s s') : Listed s' := by
  cases hstep with
  | lock next hnext _ =>
    rcases Loop.locked_cases hnext with ⟨heq, rfl⟩ | ⟨heq, rfl⟩ | ⟨heq, rfl⟩ | ⟨heq, rfl⟩
    . exact .of_snapshot_eq_nil rfl (by simp)
    . exact .of_snapshot_eq_nil rfl (by simp)
    . exact ⟨by simp [Loop.snapshot], by simp [Loop.snapshot], fun _ => h.keys_ne_nil (.inl heq)⟩
    . exact .of_snapshot_eq_nil rfl (by simp)
  | unlock next hnext =>
    rcases Loop.unlocked_cases hnext with ⟨_, rfl⟩ | ⟨localRunning, _, rfl⟩ | ⟨_, rfl⟩ | ⟨_, rfl⟩
    all_goals exact .of_snapshot_eq_nil rfl (by simp [State.unlockThen])
  | start _
  | test _
  | goOn _
  | leave _
  | none _ _
  | noKey _
  | stop _ => exact .of_snapshot_eq_nil rfl (by simp)
  | some _ hkeys => exact ⟨by simp [Loop.snapshot], by simp [Loop.snapshot], fun _ => hkeys⟩
  | key key keys hloop =>
    have hnodup := h.nodup
    have hsubset := h.subset
    rw [hloop] at hnodup hsubset
    exact ⟨hnodup, hsubset, by simp⟩
  | dispatch key index keys runnable hloop _ =>
    have hnodup := h.nodup
    have hsubset := h.subset
    rw [hloop] at hnodup hsubset
    exact ⟨hnodup, hsubset, by simp⟩
  | remove key index keys hloop _ =>
    have hnodup := h.nodup
    have hsubset := h.subset
    rw [hloop] at hnodup hsubset
    have hcons := List.nodup_cons.mp hnodup
    refine ⟨hcons.2, ?_, by simp⟩
    intro other hother
    have hne : other ≠ key := fun heq => hcons.1 (heq ▸ hother)
    exact mem_keys_erase.mpr ⟨hne, hsubset (List.mem_cons_of_mem _ hother)⟩

theorem Listed.step {action : Action} (h : Listed s)
    (hstep : LGExecutionContextObjc.step s action = some s') : Listed s' := by
  unfold LGExecutionContextObjc.step at hstep
  cases action with
  | enter method =>
    dsimp only at hstep
    rw [← Option.some.inj hstep]
    exact h.congr rfl rfl
  | waitUntilStopped =>
    dsimp only at hstep
    split at hstep
    . rw [← Option.some.inj hstep]
      exact .of_snapshot_eq_nil rfl (by simp)
    . contradiction
  | call index =>
    dsimp only at hstep
    split at hstep
    . next hcall => exact h.call hcall hstep
    . contradiction
  | loop => exact h.loop (loopStep_of_stepLoop hstep)
  | enumerate keys =>
    dsimp only at hstep
    split at hstep
    . split at hstep
      . next hperm =>
        rw [← Option.some.inj hstep]
        refine ⟨?_, hperm.subset, by simp⟩
        exact hperm.nodup_iff.mpr s.queue.keys_nodup
      . contradiction
    . contradiction
  | block index =>
    dsimp only at hstep
    split at hstep
    . rcases stepBlock_frame hstep with ⟨hloop, _, _, hqueue, _⟩
      exact h.congr hloop hqueue
    . contradiction

theorem listed_of_reachable {ok : State → Action → Prop} (h : machine.Reachable ok s)
    : Listed s := by
  apply h.invariant
  . exact .of_snapshot_eq_nil rfl (by simp [machine, State.init])
  . intro t action u _ ih _ hstep
    exact ih.step hstep

/-! ## What is stored -/

theorem stored_congr (hqueue : s'.queue = s.queue)
    (hsnapshot : s'.loop.snapshot = s.loop.snapshot)
    (hwaiting : ∀ key, s'.waiting key = s.waiting key) : s'.stored = s.stored := by
  have hweight : s'.weight = s.weight := by
    funext key
    rw [State.weight, State.weight, hsnapshot, hwaiting]
  rw [State.stored, State.stored, hqueue, hweight]

theorem stored_eq (h : key ∈ s.queue.keys)
    : s.stored = s.weight key + ((s.queue.erase key).keys.map s.weight).sum := by
  unfold State.stored
  rw [((keys_perm_erase h).map _).sum_nat, List.map_cons, List.sum_cons]

theorem map_weight_congr {queue : Queue}
    (h : ∀ other, other ≠ key → s'.weight other = s.weight other)
    : (queue.erase key).keys.map s'.weight = (queue.erase key).keys.map s.weight := by
  apply List.map_congr_left
  intro other hother
  exact h other (mem_keys_erase.mp hother).1

theorem waiting_append {runnable : LGRunnable}
    (hqueue : s'.queue = appendRunnable s.queue runnable key)
    (hloop : s'.loop = s.loop)
    : (s'.waiting key).length ≤ (s.waiting key).length + 1
        ∧ ∀ other, other ≠ key → s'.waiting other = s.waiting other := by
  have hrunnables := runnables_appendRunnable s.queue runnable key
  unfold State.waiting
  rw [hloop, hqueue]
  split
  . next current index later _ =>
    constructor
    . split
      . rw [hrunnables, if_pos rfl, List.length_drop, List.length_drop, List.length_append,
          List.length_singleton]
        omega
      . rw [hrunnables, if_pos rfl, List.length_append, List.length_singleton]
    . intro other hne
      rw [hrunnables, if_neg hne]
  . constructor
    . rw [hrunnables, if_pos rfl, List.length_append, List.length_singleton]
    . intro other hne
      rw [hrunnables, if_neg hne]

theorem waiting_of_notMem (h : key ∉ s.queue.keys) : s.waiting key = [] := by
  have hlookup : s.queue.lookup key = none := by
    rw [AList.lookup_eq_none, AList.mem_keys]
    exact h
  have hnil : runnables s.queue key = [] := by
    rw [runnables, hlookup]
  unfold State.waiting
  split
  . split
    . rw [hnil, List.drop_nil]
    . exact hnil
  . exact hnil

theorem stored_append {runnable : LGRunnable}
    (hqueue : s'.queue = appendRunnable s.queue runnable key)
    (hloop : s'.loop = s.loop) : s'.stored ≤ s.stored + 14 := by
  rcases waiting_append hqueue hloop with ⟨hlength, hothers⟩
  have hweight : ∀ other, other ≠ key → s'.weight other = s.weight other := by
    intro other hne
    rw [State.weight, State.weight, hloop, hothers other hne]
  have hstored : s'.stored = s'.weight key + ((s.queue.erase key).keys.map s.weight).sum := by
    rw [State.stored, hqueue, keys_appendRunnable, List.map_cons, List.sum_cons,
      map_weight_congr hweight]
  by_cases hmem : key ∈ s.queue.keys
  . have hkey : s'.weight key ≤ s.weight key + 3 := by
      unfold State.weight
      rw [hloop]
      omega
    rw [hstored, stored_eq hmem]
    omega
  . have hkey : s'.weight key ≤ 14 := by
      rw [waiting_of_notMem hmem, List.length_nil] at hlength
      unfold State.weight
      split
      . omega
      . omega
    have hsame : (s.queue.erase key).keys.Perm s.queue.keys := by
      rw [List.perm_ext_iff_of_nodup (s.queue.erase key).keys_nodup s.queue.keys_nodup]
      intro other
      rw [mem_keys_erase]
      constructor
      . exact fun h => h.2
      . exact fun h => ⟨fun heq => hmem (heq ▸ h), h⟩
    have hsum := (hsame.map s.weight).sum_nat
    rw [hstored, hsum]
    unfold State.stored
    omega

theorem stored_dispatch {index : Nat} {keys : List NSString} {runnable : LGRunnable}
    (hloop : s.loop = .runnables key index keys)
    (hrunnable : (runnables s.queue key)[index]? = some runnable) (hqueue : s'.queue = s.queue)
    (hloop' : s'.loop = .runnables key (index + 1) keys) : s'.stored + 3 = s.stored := by
  have hmem := mem_keys_of_getElem? hrunnable
  have hlt := (List.getElem?_eq_some_iff.mp hrunnable).1
  have hkey : s'.weight key + 3 = s.weight key := by
    simp only [State.weight, State.waiting, hloop, hloop', hqueue, Loop.snapshot, List.mem_cons,
      true_or, if_true, List.length_drop]
    omega
  have hothers : ∀ other, other ≠ key → s'.weight other = s.weight other := by
    intro other hne
    simp [State.weight, State.waiting, hloop, hloop', hqueue, Loop.snapshot, hne]
  rw [stored_eq hmem, stored_eq (s := s') (hqueue ▸ hmem), hqueue, map_weight_congr hothers]
  omega

theorem stored_remove {index : Nat} {keys : List NSString}
    (hloop : s.loop = .runnables key index keys)
    (hmem : key ∈ s.queue.keys) (hqueue : s'.queue = s.queue.erase key)
    (hloop' : s'.loop = .keys keys) : s'.stored + 2 ≤ s.stored := by
  have hkey : 2 ≤ s.weight key := by
    unfold State.weight
    split
    . omega
    . omega
  have hothers : ∀ other, other ≠ key → s'.weight other = s.weight other := by
    intro other hne
    simp [State.weight, State.waiting, hloop, hloop', hqueue, Loop.snapshot, hne, runnables_erase]
  rw [stored_eq hmem, State.stored, hqueue, map_weight_congr hothers]
  omega

theorem stored_enumerate {keys : List NSString} (hloop : s.loop = .allKeys)
    (hperm : keys.Perm s.queue.keys) (hkeys : s.queue.keys ≠ []) (hqueue : s'.queue = s.queue)
    (hloop' : s'.loop = .keys keys) : s'.stored + 9 ≤ s.stored := by
  have hweight : ∀ other ∈ s.queue.keys, s'.weight other + 9 = s.weight other := by
    intro other hother
    simp only [State.weight, State.waiting, hloop, hloop', hqueue, Loop.snapshot,
      hperm.mem_iff.mpr hother, if_true, List.not_mem_nil, if_false]
    omega
  rcases List.exists_mem_of_ne_nil _ hkeys with ⟨first, hfirst⟩
  have hfirst' : first ∈ s'.queue.keys := hqueue ▸ hfirst
  have hle : ((s.queue.erase first).keys.map s'.weight).sum
      ≤ ((s.queue.erase first).keys.map s.weight).sum := by
    apply List.sum_le_sum
    intro other hother
    have := hweight other (mem_keys_erase.mp hother).2
    omega
  have := hweight first hfirst
  rw [stored_eq hfirst, stored_eq hfirst', hqueue]
  omega

/-! ## What a step spends -/

theorem left_locked {loop next : Loop} (isRunning : Bool) (h : loop.locked = some next)
    : 1 + next.left isRunning ≤ loop.left isRunning := by
  rcases Loop.locked_cases h with ⟨rfl, rfl⟩ | ⟨rfl, rfl⟩ | ⟨rfl, rfl⟩ | ⟨rfl, rfl⟩
  all_goals
    cases isRunning with
    | _ => decide

theorem left_unlocked {loop next : Loop} (isRunning : Bool) (h : loop.unlocked = some next)
    : 1 + next.left isRunning ≤ loop.left isRunning := by
  rcases Loop.unlocked_cases h with ⟨rfl, rfl⟩ | ⟨localRunning, rfl, rfl⟩ | ⟨rfl, rfl⟩ | ⟨rfl, rfl⟩
  . cases isRunning with
    | _ => decide
  . cases localRunning with
    | _ => simp [Loop.left]
  . cases isRunning with
    | _ => decide
  . cases isRunning with
    | _ => decide

-- a step of the loop that neither goes through the keys nor hands a Runnable on
theorem left_control (hleft : 1 + s'.loop.left s'.isRunning ≤ s.loop.left s.isRunning)
    (hqueue : s'.queue = s.queue) (hsnapshot : s'.loop.snapshot = s.loop.snapshot)
    (hwaiting : ∀ key, s'.waiting key = s.waiting key) (hcalls : s'.calls = s.calls)
    (hblocks : s'.blocks = s.blocks) : 1 + s'.left ≤ s.left := by
  have hstored := stored_congr hqueue hsnapshot hwaiting
  unfold State.left
  rw [hstored, hcalls, hblocks]
  omega

theorem waiting_eq_of_loop (hqueue : s'.queue = s.queue)
    (h : ∀ key index keys, s.loop ≠ .runnables key index keys)
    (h' : ∀ key index keys, s'.loop ≠ .runnables key index keys) (key : NSString)
    : s'.waiting key = s.waiting key := by
  rw [waiting_of_not_runnables h, waiting_of_not_runnables h', hqueue]

theorem LoopStep.left (hlisted : Listed s) (h : LoopStep s s') : 1 + s'.left ≤ s.left := by
  cases h with
  | lock next hnext _ =>
    rcases not_runnables_of_locked hnext with ⟨hloop, hloop'⟩
    have hsnapshot : next.snapshot = s.loop.snapshot := by
      rcases Loop.locked_cases hnext with ⟨heq, rfl⟩ | ⟨heq, rfl⟩ | ⟨heq, rfl⟩ | ⟨heq, rfl⟩
      all_goals
        rw [heq]
        rfl
    exact left_control (left_locked s.isRunning hnext) rfl hsnapshot
      (waiting_eq_of_loop rfl hloop hloop') rfl rfl
  | unlock next hnext =>
    rcases not_runnables_of_unlocked hnext with ⟨hloop, hloop'⟩
    have hsnapshot : next.snapshot = s.loop.snapshot := by
      rcases Loop.unlocked_cases hnext with ⟨heq, rfl⟩ | ⟨_, heq, rfl⟩ | ⟨heq, rfl⟩ | ⟨heq, rfl⟩
      all_goals
        rw [heq]
        rfl
    exact left_control (left_unlocked s.isRunning hnext) rfl hsnapshot
      (waiting_eq_of_loop rfl hloop hloop') rfl rfl
  | test hloop =>
    have hleft : 1 + (Loop.unlockTest s.isRunning).left s.isRunning ≤ s.loop.left s.isRunning := by
      rw [hloop]
      cases s.isRunning with
      | _ => decide
    exact left_control hleft rfl (by rw [hloop]; rfl)
      (waiting_eq_of_loop rfl (by simp [hloop]) (by simp)) rfl rfl
  | start hloop
  | goOn hloop
  | leave hloop
  | some hloop _
  | none hloop _
  | noKey hloop
  | stop hloop =>
    refine left_control ?_ rfl (by rw [hloop]; rfl)
      (waiting_eq_of_loop rfl (by simp [hloop]) (by simp)) rfl rfl
    simp [hloop, Loop.left]
  | key key keys hloop =>
    refine left_control (by simp [hloop, Loop.left]) rfl (by rw [hloop]; rfl) ?_ rfl rfl
    intro other
    rw [waiting_of_not_runnables (s := s) (by simp [hloop])]
    dsimp only [State.waiting]
    split_ifs with heq
    . rw [heq, List.drop_zero]
    . rfl
  | dispatch key index keys runnable hloop hrunnable =>
    let block : Block := ⟨runnable, key, offset key, s.pass, .pending⟩
    let next : State :=
      { s with blocks := s.blocks ++ [block], loop := .runnables key (index + 1) keys }
    have hstored : next.stored + 3 = s.stored := stored_dispatch hloop hrunnable rfl rfl
    change 1 + next.left ≤ s.left
    unfold State.left
    rw [← hstored, hloop]
    simp only [next, block, Loop.left, List.map_append, List.map_cons, List.map_nil,
      List.sum_append, List.sum_cons, List.sum_nil, Block.left]
    omega
  | remove key index keys hloop hrunnable =>
    let next : State := { s with queue := s.queue.erase key, loop := .keys keys }
    have hmem : key ∈ s.queue.keys := by
      apply hlisted.subset
      rw [hloop]
      exact List.mem_cons_self
    have hstored : next.stored + 2 ≤ s.stored := stored_remove hloop hmem rfl rfl
    change 1 + next.left ≤ s.left
    unfold State.left
    rw [hloop]
    simp only [next, Loop.left] at hstored ⊢
    omega

theorem left_calls {call call' : Call} {index : Nat} {n : Nat} (hcall : s.calls[index]? = some call)
    (hcalls : s'.calls = s.calls.set index call') (hloop : s'.loop = s.loop)
    (hrunning : s'.isRunning = s.isRunning) (hblocks : s'.blocks = s.blocks)
    (hstored : s'.stored ≤ s.stored + n) (hleft : 1 + call'.left + n ≤ call.left)
    : 1 + s'.left ≤ s.left := by
  have hsum := sum_map_set (f := Call.left) (y := call') hcall
  unfold State.left
  rw [hloop, hrunning, hblocks, hcalls]
  omega

theorem left_call {index : Nat} {call : Call} (hcall : s.calls[index]? = some call)
    (h : s.stepCall index call = some s') : 1 + s'.left ≤ s.left := by
  unfold State.stepCall at h
  cases hphase : call.phase with
  | lock =>
    simp only [hphase] at h
    split at h
    . next t ht =>
      rcases lock_eq ht with ⟨_, rfl⟩
      rw [← Option.some.inj h]
      refine left_calls (n := 0) hcall rfl rfl rfl rfl ?_ ?_
      . exact (stored_congr rfl rfl (waiting_congr rfl rfl)).le
      . simp only [Call.left, hphase]
        omega
    . contradiction
  | work =>
    simp only [hphase] at h
    rw [← Option.some.inj h]
    cases hmethod : call.method with
    | delay runnable millis =>
      simp only [State.work, hmethod]
      refine left_calls (n := 14) hcall rfl rfl rfl rfl ?_ ?_
      . exact stored_append rfl rfl
      . simp [Call.left, hphase, hmethod, Method.left]
    | isContextRunning =>
      simp only [State.work, hmethod]
      refine left_calls (n := 0) hcall rfl rfl rfl rfl ?_ ?_
      . exact (stored_congr rfl rfl (waiting_congr rfl rfl)).le
      . simp [Call.left, hphase, hmethod, Method.left]
  | unlock =>
    simp only [hphase] at h
    rw [← Option.some.inj h]
    refine left_calls (n := 0) hcall rfl rfl rfl rfl ?_ ?_
    . exact (stored_congr rfl rfl (waiting_congr rfl rfl)).le
    . simp [Call.left, hphase]
  | done =>
    simp only [hphase] at h
    contradiction

theorem left_blocks {block block' : Block} {index : Nat} (hblock : s.blocks[index]? = some block)
    (hblocks : s'.blocks = s.blocks.set index block') (hloop : s'.loop = s.loop)
    (hrunning : s'.isRunning = s.isRunning) (hcalls : s'.calls = s.calls)
    (hqueue : s'.queue = s.queue) (hleft : 1 + block'.left ≤ block.left)
    : 1 + s'.left ≤ s.left := by
  have hsum := sum_map_set (f := Block.left) (y := block') hblock
  have hstored := stored_congr hqueue (by rw [hloop]) (waiting_congr hqueue hloop)
  unfold State.left
  rw [hloop, hrunning, hblocks, hcalls, hstored]
  omega

theorem left_block {index : Nat} {block : Block} (hblock : s.blocks[index]? = some block)
    (h : s.stepBlock index block = some s') : 1 + s'.left ≤ s.left := by
  unfold State.stepBlock at h
  cases hphase : block.phase with
  | pending
  | ran =>
    simp only [hphase] at h
    rw [← Option.some.inj h]
    exact left_blocks hblock rfl rfl rfl rfl rfl (by simp [Block.left, hphase])
  | unlocked =>
    simp only [hphase] at h
    contradiction

theorem left_step {action : Action} (hlisted : Listed s) (h : step s action = some s')
    : cost s action + s'.left ≤ s.left + gain s action := by
  unfold step at h
  cases action with
  | enter method =>
    dsimp only at h
    rw [← Option.some.inj h]
    have hstored : State.stored { s with calls := s.calls ++ [⟨method, .lock, false⟩] } = s.stored :=
      stored_congr rfl rfl (waiting_congr rfl rfl)
    unfold State.left
    rw [hstored]
    cases method with
    | _ =>
      simp only [cost, gain, List.map_append, List.map_cons, List.map_nil, List.sum_append,
        List.sum_cons, List.sum_nil, Call.left, Method.left]
      omega
  | waitUntilStopped =>
    dsimp only at h
    split at h
    . next hloop =>
      rw [← Option.some.inj h]
      have hstored : State.stored { s with loop := .lockStart } = s.stored :=
        stored_congr rfl (by rw [hloop]; rfl) (waiting_eq_of_loop rfl (by simp [hloop]) (by simp))
      unfold State.left
      rw [hstored, hloop]
      simp only [cost, gain, Loop.left]
      omega
    . contradiction
  | call index =>
    dsimp only at h
    split at h
    . next hcall => exact left_call hcall h
    . contradiction
  | loop => exact (loopStep_of_stepLoop h).left hlisted
  | enumerate keys =>
    dsimp only at h
    split at h
    . next hloop =>
      split at h
      . next hperm =>
        rw [← Option.some.inj h]
        let next : State := { s with pass := s.pass + 1, loop := .keys keys }
        have hstored : next.stored + 9 ≤ s.stored :=
          stored_enumerate hloop hperm (hlisted.keys_ne_nil (.inr hloop)) rfl rfl
        change 1 + next.left ≤ s.left
        unfold State.left
        rw [hloop]
        simp only [next, Loop.left] at hstored ⊢
        omega
      . contradiction
    . contradiction
  | block index =>
    dsimp only at h
    split at h
    . next hblock => exact left_block hblock h
    . contradiction

def reachable (s : State) (_ : Action) : Prop :=
  machine.Reachable System.free s

def budget : machine.Budget reachable where
  left := State.left
  cost := cost
  gain := gain
  paid := fun _ _ _ hreachable hstep => left_step (listed_of_reachable hreachable) hstep

end LGExecutionContextObjc
end LedgerApp
