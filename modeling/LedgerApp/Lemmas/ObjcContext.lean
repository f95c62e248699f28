import LedgerApp.ObjcContext

/-!
What the dictionary of delays holds after each operation on it, and what each step of the context
does to the lock.
-/

namespace LedgerApp
namespace LGExecutionContextObjc

open Bytes

/-! ## Keys -/

theorem stringValue_injective {millis millis' : Int64} (h : stringValue millis = stringValue millis')
    : millis = millis' := by
  have hint : millis.toInt = millis'.toInt := by
    rw [← atoi_decimal millis.toInt, ← atoi_decimal millis'.toInt]
    exact congrArg atoi h
  exact Int64.toInt_inj.mp hint

@[simp]
theorem longLongValue_stringValue (millis : Int64) : longLongValue (stringValue millis) = millis := by
  have hlower := millis.minValue_le_toInt
  have hupper := millis.toInt_le
  rw [longLongValue, stringValue, atoi_decimal, min_eq_right hupper, max_eq_right hlower,
    Int64.ofInt_toInt]

/-! ## The dictionary -/

variable {queue : Queue} {runnable : LGRunnable} {key : NSString}

theorem runnables_of_keys_eq_nil (h : queue.keys = []) (key : NSString)
    : runnables queue key = [] := by
  have hlookup : queue.lookup key = none := by
    rw [AList.lookup_eq_none, AList.mem_keys, h]
    simp
  rw [runnables, hlookup]

theorem runnables_insert (queue : Queue) (key other : NSString) (rs : List LGRunnable)
    : runnables (queue.insert key rs) other = if other = key then rs else runnables queue other := by
  unfold runnables
  split_ifs with h
  . rw [h, AList.lookup_insert]
  . rw [AList.lookup_insert_ne h]

theorem runnables_erase (queue : Queue) (key other : NSString)
    : runnables (queue.erase key) other = if other = key then [] else runnables queue other := by
  unfold runnables
  split_ifs with h
  . rw [h, AList.lookup_erase]
  . rw [AList.lookup_erase_ne h]

theorem runnables_appendRunnable (queue : Queue) (runnable : LGRunnable) (key other : NSString)
    : runnables (appendRunnable queue runnable key) other =
        if other = key then runnables queue other ++ [runnable] else runnables queue other := by
  unfold appendRunnable
  split
  . rw [runnables_insert]
    split_ifs with h
    . rw [h]
    . rfl
  . next hempty =>
    rw [not_not, List.length_eq_zero_iff] at hempty
    rw [runnables_insert]
    split_ifs with h
    . rw [h, hempty, List.nil_append]
    . rfl

theorem keys_appendRunnable_ne_nil (queue : Queue) (runnable : LGRunnable) (key : NSString)
    : (appendRunnable queue runnable key).keys ≠ [] := by
  unfold appendRunnable
  split
  . simp [AList.keys_insert]
  . simp [AList.keys_insert]

/-! ## The steps of `waitUntilStopped` -/

namespace Loop

-- where a `lock` leads, and where an `unlock` does
def locked : Loop → Option Loop
  | .lockStart => some .start
  | .lockTest => some .test
  | .lockPass => some .allKeys
  | .lockStop => some .stop
  | _ => none

def unlocked : Loop → Option Loop
  | .unlockStart => some .lockTest
  | .unlockTest localRunning => some (.tested localRunning)
  | .unlockPass => some .lockTest
  | .unlockStop => some .lockTest
  | _ => none

variable {loop next : Loop}

theorem locked_cases (h : loop.locked = some next)
    : (loop = .lockStart ∧ next = .start) ∨ (loop = .lockTest ∧ next = .test)
        ∨ (loop = .lockPass ∧ next = .allKeys) ∨ (loop = .lockStop ∧ next = .stop) := by
  unfold locked at h
  split at h
  . exact .inl ⟨rfl, (Option.some.inj h).symm⟩
  . exact .inr (.inl ⟨rfl, (Option.some.inj h).symm⟩)
  . exact .inr (.inr (.inl ⟨rfl, (Option.some.inj h).symm⟩))
  . exact .inr (.inr (.inr ⟨rfl, (Option.some.inj h).symm⟩))
  . contradiction

theorem unlocked_cases (h : loop.unlocked = some next)
    : (loop = .unlockStart ∧ next = .lockTest)
        ∨ (∃ localRunning, loop = .unlockTest localRunning ∧ next = .tested localRunning)
        ∨ (loop = .unlockPass ∧ next = .lockTest) ∨ (loop = .unlockStop ∧ next = .lockTest) := by
  unfold unlocked at h
  split at h
  . exact .inl ⟨rfl, (Option.some.inj h).symm⟩
  . exact .inr (.inl ⟨_, rfl, (Option.some.inj h).symm⟩)
  . exact .inr (.inr (.inl ⟨rfl, (Option.some.inj h).symm⟩))
  . exact .inr (.inr (.inr ⟨rfl, (Option.some.inj h).symm⟩))
  . contradiction

end Loop

inductive LoopStep (s : State) : State → Prop
  | lock (next : Loop) (h : s.loop.locked = some next) (free : s.holder = none)
    : LoopStep s { s with holder := some .waitUntilStopped, loop := next }
  | unlock (next : Loop) (h : s.loop.unlocked = some next) : LoopStep s (s.unlockThen next)
  | start (h : s.loop = .start) : LoopStep s { s with isRunning := true, loop := .unlockStart }
  | test (h : s.loop = .test) : LoopStep s { s with loop := .unlockTest s.isRunning }
  | goOn (h : s.loop = .tested true) : LoopStep s { s with loop := .count }
  | leave (h : s.loop = .tested false) : LoopStep s { s with loop := .returned }
  | some (h : s.loop = .count) (hkeys : s.queue.keys ≠ [])
    : LoopStep s { s with counted := s.accepted.length, loop := .lockPass }
  | none (h : s.loop = .count) (hkeys : s.queue.keys = [])
    : LoopStep s { s with counted := s.accepted.length, loop := .lockStop }
  | noKey (h : s.loop = .keys []) : LoopStep s { s with loop := .unlockPass }
  | key (key : NSString) (keys : List NSString) (h : s.loop = .keys (key :: keys))
    : LoopStep s { s with loop := .runnables key 0 keys }
  | dispatch (key : NSString) (index : Nat) (keys : List NSString) (runnable : LGRunnable)
      (h : s.loop = .runnables key index keys)
      (hrunnable : (runnables s.queue key)[index]? = Option.some runnable)
    : LoopStep s
        { s with
          blocks := s.blocks ++ [⟨runnable, key, offset key, s.pass, .pending⟩]
          loop := .runnables key (index + 1) keys }
  | remove (key : NSString) (index : Nat) (keys : List NSString)
      (h : s.loop = .runnables key index keys)
      (hrunnable : (runnables s.queue key)[index]? = Option.none)
    : LoopStep s { s with queue := s.queue.erase key, loop := .keys keys }
  | stop (h : s.loop = .stop) : LoopStep s { s with isRunning := false, loop := .unlockStop }

theorem lock_eq {s s' : State} {a : Activity} (h : s.lock a = some s')
    : s.holder = none ∧ s' = { s with holder := some a } := by
  unfold State.lock at h
  split at h
  . next hfree =>
    injection h with h
    exact ⟨hfree, h.symm⟩
  . contradiction

theorem lockThen_eq {s s' : State} {loop : Loop} (h : s.lockThen loop = some s')
    : s.holder = none ∧ s' = { s with holder := some .waitUntilStopped, loop := loop } := by
  unfold State.lockThen at h
  split at h
  . next t ht =>
    rcases lock_eq ht with ⟨hfree, rfl⟩
    exact ⟨hfree, (Option.some.inj h).symm⟩
  . contradiction

theorem loopStep_of_stepLoop {s s' : State} (h : s.stepLoop = some s') : LoopStep s s' := by
  unfold State.stepLoop at h
  cases hloop : s.loop with
  | idle => simp [hloop] at h
  | returned => simp [hloop] at h
  | allKeys => simp [hloop] at h
  | lockStart
  | lockTest
  | lockPass
  | lockStop =>
    simp only [hloop] at h
    rcases lockThen_eq h with ⟨hfree, rfl⟩
    exact .lock _ (by rw [hloop]; rfl) hfree
  | unlockStart
  | unlockTest _
  | unlockPass
  | unlockStop =>
    simp only [hloop, Option.some.injEq] at h
    rw [← h]
    exact .unlock _ (by rw [hloop]; rfl)
  | start =>
    simp only [hloop, Option.some.injEq] at h
    rw [← h]
    exact .start hloop
  | test =>
    simp only [hloop, Option.some.injEq] at h
    rw [← h]
    exact .test hloop
  | tested localRunning =>
    cases localRunning with
    | true =>
      simp only [hloop, Option.some.injEq] at h
      rw [← h]
      exact .goOn hloop
    | false =>
      simp only [hloop, Option.some.injEq] at h
      rw [← h]
      exact .leave hloop
  | count =>
    simp only [hloop, Option.some.injEq] at h
    rw [← h]
    by_cases hkeys : s.queue.keys = []
    . rw [if_neg (by simp [hkeys])]
      exact .none hloop hkeys
    . rw [if_pos (by simp [hkeys])]
      exact .some hloop hkeys
  | keys keys =>
    cases keys with
    | nil =>
      simp only [hloop, Option.some.injEq] at h
      rw [← h]
      exact .noKey hloop
    | cons key keys =>
      simp only [hloop, Option.some.injEq] at h
      rw [← h]
      exact .key key keys hloop
  | runnables key index keys =>
    simp only [hloop] at h
    split at h
    . next hrunnable =>
      rw [← Option.some.inj h]
      exact .dispatch key index keys _ hloop hrunnable
    . next hrunnable =>
      rw [← Option.some.inj h]
      exact .remove key index keys hloop hrunnable
  | stop =>
    simp only [hloop, Option.some.injEq] at h
    rw [← h]
    exact .stop hloop

/-! ## The lock -/

def Loop.inside : Loop → Bool
  | .start | .unlockStart | .test | .unlockTest _ => true
  | .allKeys | .keys _ | .runnables _ _ _ | .unlockPass => true
  | .stop | .unlockStop => true
  | _ => false

def Phase.inside : Phase → Bool
  | .work | .unlock => true
  | _ => false

namespace State

-- the activity is between its `lock` and its `unlock`; a block has no `lock`
def Inside (s : State) : Activity → Prop
  | .waitUntilStopped => s.loop.inside = true
  | .call index => ∃ call, s.calls[index]? = some call ∧ call.phase.inside = true
  | .block _ => False

def Unlocked (s : State) (index : Nat) : Prop :=
  ∃ block, s.blocks[index]? = some block ∧ block.phase = .unlocked

end State

-- what a step does to the lock; only a step of a block can be an `unlock` without a `lock`
inductive LockEffect (s s' : State) : Action → Prop
  | keep {action : Action} (holder : s'.holder = s.holder) (unlocks : s'.unlocks = s.unlocks)
      (inside : ∀ a, s'.Inside a ↔ s.Inside a) (blocks : ∀ i, s'.Unlocked i ↔ s.Unlocked i)
    : LockEffect s s' action
  | acquire {action : Action} (a : Activity) (free : s.holder = none) (holder : s'.holder = some a)
      (unlocks : s'.unlocks = s.unlocks) (inside : ∀ b, s'.Inside b ↔ s.Inside b ∨ b = a)
      (blocks : ∀ i, s'.Unlocked i ↔ s.Unlocked i) : LockEffect s s' action
  | release {action : Action} (a : Activity) (holds : s.Inside a) (holder : s'.holder = none)
      (unlocks : s'.unlocks = s.unlocks ++ [(a, s.holder)])
      (inside : ∀ b, s'.Inside b ↔ s.Inside b ∧ b ≠ a)
      (blocks : ∀ i, s'.Unlocked i ↔ s.Unlocked i) : LockEffect s s' action
  | block (index : Nat) (holder : s'.holder = none)
      (unlocks : s'.unlocks = s.unlocks ++ [(.block index, s.holder)])
      (inside : ∀ a, s'.Inside a ↔ s.Inside a)
      (blocks : ∀ i, s'.Unlocked i ↔ s.Unlocked i ∨ i = index) : LockEffect s s' (.block index)

variable {s s' : State} {action : Action}

theorem inside_loop (hcalls : s'.calls = s.calls) (a : Activity)
    : s'.Inside a ↔ if a = .waitUntilStopped then s'.loop.inside = true else s.Inside a := by
  cases a with
  | waitUntilStopped => simp [State.Inside]
  | call index => simp [State.Inside, hcalls]
  | block index => simp [State.Inside]

theorem inside_call {call : Call} (call' : Call) {index : Nat} (hcall : s.calls[index]? = some call)
    (hcalls : s'.calls = s.calls.set index call') (hloop : s'.loop = s.loop) (a : Activity)
    : s'.Inside a ↔ if a = .call index then call'.phase.inside = true else s.Inside a := by
  cases a with
  | waitUntilStopped => simp [State.Inside, hloop]
  | call other =>
    rcases List.getElem?_eq_some_iff.mp hcall with ⟨hlt, _⟩
    by_cases h : other = index
    . simp [State.Inside, hcalls, h, hlt]
    . simp [State.Inside, hcalls, h, Ne.symm h]
  | block other => simp [State.Inside]

theorem unlocked_congr (h : s'.blocks = s.blocks) (i : Nat) : s'.Unlocked i ↔ s.Unlocked i := by
  simp only [State.Unlocked, h]

theorem inside_of_locked {loop next : Loop} (h : loop.locked = some next) : next.inside = true := by
  rcases Loop.locked_cases h with ⟨_, rfl⟩ | ⟨_, rfl⟩ | ⟨_, rfl⟩ | ⟨_, rfl⟩
  all_goals rfl

theorem inside_of_unlocked {loop next : Loop} (h : loop.unlocked = some next)
    : loop.inside = true ∧ next.inside = false := by
  rcases Loop.unlocked_cases h with ⟨rfl, rfl⟩ | ⟨_, rfl, rfl⟩ | ⟨rfl, rfl⟩ | ⟨rfl, rfl⟩
  all_goals exact ⟨rfl, rfl⟩

theorem loop_effect (hcalls : s'.calls = s.calls) (h : s'.loop.inside = s.loop.inside)
    (holder : s'.holder = s.holder) (unlocks : s'.unlocks = s.unlocks)
    (blocks : ∀ i, s'.Unlocked i ↔ s.Unlocked i) : LockEffect s s' action := by
  refine .keep holder unlocks ?_ blocks
  intro a
  refine (inside_loop hcalls a).trans ?_
  split_ifs with ha
  . simp [State.Inside, ha, h]
  . rfl

theorem unlocked_append {block : Block} (hblocks : s'.blocks = s.blocks ++ [block])
    (h : block.phase ≠ .unlocked) (i : Nat) : s'.Unlocked i ↔ s.Unlocked i := by
  simp only [State.Unlocked, hblocks, List.getElem?_append]
  split_ifs with hlt
  . rfl
  . have hnone : s.blocks[i]? = none := List.getElem?_eq_none (by omega)
    constructor
    . rintro ⟨block', hblock, hphase⟩
      rw [List.getElem?_singleton] at hblock
      split_ifs at hblock with hzero
      . injection hblock with hblock
        rw [← hblock] at hphase
        exact absurd hphase h
    . rintro ⟨block', hblock, _⟩
      rw [hnone] at hblock
      contradiction

theorem LoopStep.effect (h : LoopStep s s') : LockEffect s s' action := by
  cases h with
  | lock next h free =>
    refine .acquire .waitUntilStopped free rfl rfl ?_ (unlocked_congr rfl)
    intro a
    refine (inside_loop (s := s) (by rfl) a).trans ?_
    split_ifs with ha
    . simp [inside_of_locked h, ha]
    . simp [ha]
  | unlock next h =>
    rcases inside_of_unlocked h with ⟨hin, hout⟩
    refine .release .waitUntilStopped hin rfl rfl ?_ (unlocked_congr rfl)
    intro a
    refine (inside_loop (s := s) (by rfl) a).trans ?_
    split_ifs with ha
    . simp [State.unlockThen, hout, ha]
    . simp [ha]
  | start h
  | test h
  | goOn h
  | leave h
  | some h _
  | none h _
  | noKey h
  | key _ _ h
  | remove _ _ _ h _
  | stop h => exact loop_effect rfl (by rw [h]; rfl) rfl rfl (unlocked_congr rfl)
  | dispatch key index keys runnable h _ =>
    exact loop_effect rfl (by rw [h]; rfl) rfl rfl (unlocked_append rfl (by simp))

theorem calls_work (s : State) (index : Nat) (call : Call)
    : ∃ call', (s.work index call).calls = s.calls.set index call' ∧ call'.phase = .unlock := by
  unfold State.work
  split
  . exact ⟨_, rfl, rfl⟩
  . exact ⟨_, rfl, rfl⟩

theorem stepCall_effect {index : Nat} {call : Call} (hcall : s.calls[index]? = some call)
    (h : s.stepCall index call = some s') : LockEffect s s' action := by
  unfold State.stepCall at h
  cases hphase : call.phase with
  | lock =>
    simp only [hphase] at h
    split at h
    . next t ht =>
      rcases lock_eq ht with ⟨hfree, rfl⟩
      rw [← Option.some.inj h]
      refine .acquire (.call index) hfree rfl rfl ?_ (unlocked_congr rfl)
      intro a
      refine (inside_call { call with phase := .work } hcall (by rfl) (by rfl) a).trans ?_
      split_ifs with ha
      . simp [Phase.inside, ha]
      . simp [ha]
    . contradiction
  | work =>
    simp only [hphase] at h
    rw [← Option.some.inj h]
    rcases calls_work s index call with ⟨call', hcalls, hunlock⟩
    have hloop : (s.work index call).loop = s.loop := by
      unfold State.work
      split
      . rfl
      . rfl
    have hblocks : (s.work index call).blocks = s.blocks := by
      unfold State.work
      split
      . rfl
      . rfl
    refine .keep ?_ ?_ ?_ (unlocked_congr hblocks)
    . unfold State.work
      split
      . rfl
      . rfl
    . unfold State.work
      split
      . rfl
      . rfl
    . intro a
      refine (inside_call call' hcall hcalls hloop a).trans ?_
      split_ifs with ha
      . simp [State.Inside, Phase.inside, ha, hcall, hphase, hunlock]
      . rfl
  | unlock =>
    simp only [hphase] at h
    rw [← Option.some.inj h]
    refine .release (.call index) ⟨call, hcall, by rw [hphase]; rfl⟩ rfl rfl ?_ (unlocked_congr rfl)
    intro a
    refine (inside_call { call with phase := .done } hcall (by rfl) (by rfl) a).trans ?_
    split_ifs with ha
    . simp [Phase.inside, ha]
    . simp [ha]
  | done =>
    simp only [hphase] at h
    contradiction

theorem unlocked_set {index : Nat} {block block' : Block} (hblock : s.blocks[index]? = some block)
    (hblocks : s'.blocks = s.blocks.set index block') (i : Nat)
    : s'.Unlocked i ↔ if i = index then block'.phase = .unlocked else s.Unlocked i := by
  rcases List.getElem?_eq_some_iff.mp hblock with ⟨hlt, _⟩
  by_cases h : i = index
  . simp [State.Unlocked, hblocks, h, hlt]
  . simp [State.Unlocked, hblocks, h, Ne.symm h]

theorem stepBlock_effect {index : Nat} {block : Block} (hblock : s.blocks[index]? = some block)
    (h : s.stepBlock index block = some s') : LockEffect s s' (.block index) := by
  unfold State.stepBlock at h
  cases hphase : block.phase with
  | pending =>
    simp only [hphase] at h
    rw [← Option.some.inj h]
    refine loop_effect rfl rfl rfl rfl ?_
    intro i
    refine (unlocked_set hblock (by rfl) i).trans ?_
    split_ifs with hi
    . simp [State.Unlocked, hi, hblock, hphase]
    . rfl
  | ran =>
    simp only [hphase] at h
    rw [← Option.some.inj h]
    refine .block index rfl rfl ?_ ?_
    . intro a
      refine (inside_loop (s := s) (by rfl) a).trans ?_
      split_ifs with ha
      . simp [State.Inside, State.unlock, ha]
      . rfl
    . intro i
      refine (unlocked_set hblock (by rfl) i).trans ?_
      split_ifs with hi
      . simp [hi]
      . simp [hi]
  | unlocked =>
    simp only [hphase] at h
    contradiction

theorem step_effect (h : step s action = some s') : LockEffect s s' action := by
  unfold step at h
  cases action with
  | enter method =>
    dsimp only at h
    rw [← Option.some.inj h]
    refine .keep rfl rfl ?_ (unlocked_congr rfl)
    intro a
    cases a with
    | call index =>
      by_cases hlt : index < s.calls.length
      . simp [State.Inside, List.getElem?_append, hlt]
      . simp [State.Inside, List.getElem?_append, hlt, List.getElem?_singleton, Phase.inside]
    | waitUntilStopped => rfl
    | block index => rfl
  | waitUntilStopped =>
    dsimp only at h
    split at h
    . next hloop =>
      rw [← Option.some.inj h]
      exact loop_effect rfl (by rw [hloop]; rfl) rfl rfl (unlocked_congr rfl)
    . contradiction
  | call index =>
    dsimp only at h
    split at h
    . next hcall => exact stepCall_effect hcall h
    . contradiction
  | loop => exact (loopStep_of_stepLoop h).effect
  | enumerate keys =>
    dsimp only at h
    split at h
    . next hloop =>
      split at h
      . rw [← Option.some.inj h]
        exact loop_effect rfl (by rw [hloop]; rfl) rfl rfl (unlocked_congr rfl)
      . contradiction
    . contradiction
  | block index =>
    dsimp only at h
    split at h
    . next hblock => exact stepBlock_effect hblock h
    . contradiction

/-! ## The data -/

-- what the dictionary holds for a key, less what the pass at hand has already dispatched of it
def State.waiting (s : State) (key : NSString) : List LGRunnable :=
  match s.loop with
  | .runnables current index _ =>
    if key = current then (runnables s.queue key).drop index else runnables s.queue key
  | _ => runnables s.queue key

-- what `dispatch_after` was given, without what has become of the block since
def Block.handed (block : Block) : Block :=
  { block with phase := .pending }

def State.handed (s : State) : List Block :=
  s.blocks.map Block.handed

inductive DataEffect (s s' : State) : Prop
  | keep (queue : s'.queue = s.queue) (accepted : s'.accepted = s.accepted)
      (handed : s'.handed = s.handed) (waiting : ∀ key, s'.waiting key = s.waiting key)
  | append (index : Nat) (call : Call) (runnable : LGRunnable) (millis : Int64)
      (hcall : s.calls[index]? = some call) (hphase : call.phase = .work)
      (hmethod : call.method = .delay runnable millis)
      (queue : s'.queue = appendRunnable s.queue runnable (stringValue millis))
      (accepted : s'.accepted = s.accepted ++ [(millis, runnable)])
      (handed : s'.handed = s.handed) (loop : s'.loop = s.loop)
  | dispatch (key : NSString) (index : Nat) (keys : List NSString) (runnable : LGRunnable)
      (hloop : s.loop = .runnables key index keys)
      (hrunnable : (runnables s.queue key)[index]? = some runnable)
      (queue : s'.queue = s.queue) (accepted : s'.accepted = s.accepted)
      (handed : s'.handed = s.handed ++ [⟨runnable, key, offset key, s.pass, .pending⟩])
      (loop : s'.loop = .runnables key (index + 1) keys)
  | remove (key : NSString) (index : Nat) (keys : List NSString)
      (hloop : s.loop = .runnables key index keys)
      (hrunnable : (runnables s.queue key)[index]? = none)
      (queue : s'.queue = s.queue.erase key) (accepted : s'.accepted = s.accepted)
      (handed : s'.handed = s.handed) (loop : s'.loop = .keys keys)

theorem waiting_of_not_runnables
    (h : ∀ key index keys, s.loop ≠ .runnables key index keys) (key : NSString)
    : s.waiting key = runnables s.queue key := by
  unfold State.waiting
  split
  . next heq => exact absurd heq (h _ _ _)
  . rfl

theorem handed_set {index : Nat} {block block' : Block} (hblock : s.blocks[index]? = some block)
    (hblocks : s'.blocks = s.blocks.set index block') (h : block'.handed = block.handed)
    : s'.handed = s.handed := by
  rcases List.getElem?_eq_some_iff.mp hblock with ⟨hlt, hget⟩
  unfold State.handed
  rw [hblocks, List.map_set, h, ← List.map_set, ← hget, List.set_getElem_self]

theorem waiting_congr (hqueue : s'.queue = s.queue) (hloop : s'.loop = s.loop) (key : NSString)
    : s'.waiting key = s.waiting key := by
  simp only [State.waiting, hqueue, hloop]

theorem loop_data (hqueue : s'.queue = s.queue) (haccepted : s'.accepted = s.accepted)
    (hblocks : s'.blocks = s.blocks) (h : ∀ key index keys, s.loop ≠ .runnables key index keys)
    (h' : ∀ key index keys, s'.loop ≠ .runnables key index keys) : DataEffect s s' := by
  apply DataEffect.keep hqueue haccepted
  . simp only [State.handed, hblocks]
  . intro key
    rw [waiting_of_not_runnables h, waiting_of_not_runnables h', hqueue]

theorem not_runnables_of_locked {loop next : Loop} (h : loop.locked = some next)
    : (∀ key index keys, loop ≠ .runnables key index keys)
        ∧ ∀ key index keys, next ≠ .runnables key index keys := by
  rcases Loop.locked_cases h with ⟨rfl, rfl⟩ | ⟨rfl, rfl⟩ | ⟨rfl, rfl⟩ | ⟨rfl, rfl⟩
  all_goals simp

theorem not_runnables_of_unlocked {loop next : Loop} (h : loop.unlocked = some next)
    : (∀ key index keys, loop ≠ .runnables key index keys)
        ∧ ∀ key index keys, next ≠ .runnables key index keys := by
  rcases Loop.unlocked_cases h with ⟨rfl, rfl⟩ | ⟨_, rfl, rfl⟩ | ⟨rfl, rfl⟩ | ⟨rfl, rfl⟩
  all_goals simp

theorem LoopStep.data (h : LoopStep s s') : DataEffect s s' := by
  cases h with
  | lock next h _ =>
    rcases not_runnables_of_locked h with ⟨hloop, hnext⟩
    exact loop_data rfl rfl rfl hloop hnext
  | unlock next h =>
    rcases not_runnables_of_unlocked h with ⟨hloop, hnext⟩
    exact loop_data rfl rfl rfl hloop hnext
  | start h
  | test h
  | goOn h
  | leave h
  | some h _
  | none h _
  | noKey h
  | stop h => exact loop_data rfl rfl rfl (by simp [h]) (by simp)
  | key key keys h =>
    refine .keep rfl rfl rfl ?_
    intro other
    rw [waiting_of_not_runnables (s := s) (by simp [h])]
    dsimp only [State.waiting]
    split_ifs with hkey
    . rw [hkey, List.drop_zero]
    . rfl
  | dispatch key index keys runnable h hrunnable =>
    refine .dispatch key index keys runnable h hrunnable rfl rfl ?_ rfl
    simp [State.handed, Block.handed]
  | remove key index keys h hrunnable =>
    exact .remove key index keys h hrunnable rfl rfl rfl rfl

theorem stepCall_data {index : Nat} {call : Call} (hcall : s.calls[index]? = some call)
    (h : s.stepCall index call = some s') : DataEffect s s' := by
  unfold State.stepCall at h
  cases hphase : call.phase with
  | lock =>
    simp only [hphase] at h
    split at h
    . next t ht =>
      rcases lock_eq ht with ⟨_, rfl⟩
      rw [← Option.some.inj h]
      exact .keep rfl rfl rfl (waiting_congr rfl rfl)
    . contradiction
  | work =>
    simp only [hphase] at h
    rw [← Option.some.inj h]
    cases hmethod : call.method with
    | delay runnable millis =>
      simp only [State.work, hmethod]
      exact .append index call runnable millis hcall hphase hmethod rfl rfl rfl rfl
    | isContextRunning =>
      simp only [State.work, hmethod]
      exact .keep rfl rfl rfl (waiting_congr rfl rfl)
  | unlock =>
    simp only [hphase] at h
    rw [← Option.some.inj h]
    exact .keep rfl rfl rfl (waiting_congr rfl rfl)
  | done =>
    simp only [hphase] at h
    contradiction

theorem stepBlock_data {index : Nat} {block : Block} (hblock : s.blocks[index]? = some block)
    (h : s.stepBlock index block = some s') : DataEffect s s' := by
  unfold State.stepBlock at h
  cases hphase : block.phase with
  | pending
  | ran =>
    simp only [hphase] at h
    rw [← Option.some.inj h]
    exact .keep rfl rfl (handed_set hblock rfl rfl) (waiting_congr rfl rfl)
  | unlocked =>
    simp only [hphase] at h
    contradiction

theorem step_data (h : step s action = some s') : DataEffect s s' := by
  unfold step at h
  cases action with
  | enter method =>
    dsimp only at h
    rw [← Option.some.inj h]
    exact .keep rfl rfl rfl (waiting_congr rfl rfl)
  | waitUntilStopped =>
    dsimp only at h
    split at h
    . next hloop =>
      rw [← Option.some.inj h]
      exact loop_data rfl rfl rfl (by simp [hloop]) (by simp)
    . contradiction
  | call index =>
    dsimp only at h
    split at h
    . next hcall => exact stepCall_data hcall h
    . contradiction
  | loop => exact (loopStep_of_stepLoop h).data
  | enumerate keys =>
    dsimp only at h
    split at h
    . next hloop =>
      split at h
      . rw [← Option.some.inj h]
        exact loop_data rfl rfl rfl (by simp [hloop]) (by simp)
      . contradiction
    . contradiction
  | block index =>
    dsimp only at h
    split at h
    . next hblock => exact stepBlock_data hblock h
    . contradiction

/-! ## The calls -/

def State.methods (s : State) : List Method :=
  s.calls.map (·.method)

theorem methods_set {index : Nat} {call call' : Call} (hcall : s.calls[index]? = some call)
    (hcalls : s'.calls = s.calls.set index call') (h : call'.method = call.method)
    : s'.methods = s.methods := by
  rcases List.getElem?_eq_some_iff.mp hcall with ⟨hlt, hget⟩
  unfold State.methods
  rw [hcalls, List.map_set, h, ← hget, ← List.map_set, List.set_getElem_self]

theorem stepCall_methods {index : Nat} {call : Call} (hcall : s.calls[index]? = some call)
    (h : s.stepCall index call = some s') : s'.methods = s.methods := by
  unfold State.stepCall at h
  split at h
  . split at h
    . next t ht =>
      rcases lock_eq ht with ⟨_, rfl⟩
      rw [← Option.some.inj h]
      exact methods_set hcall rfl rfl
    . contradiction
  . rw [← Option.some.inj h]
    unfold State.work
    split
    . exact methods_set hcall rfl rfl
    . exact methods_set hcall rfl rfl
  . rw [← Option.some.inj h]
    exact methods_set hcall rfl rfl
  . contradiction

theorem LoopStep.calls (h : LoopStep s s') : s'.calls = s.calls := by
  cases h with
  | _ => rfl

theorem stepBlock_calls {index : Nat} {block : Block} (h : s.stepBlock index block = some s')
    : s'.calls = s.calls := by
  unfold State.stepBlock at h
  split at h
  . rw [← Option.some.inj h]
  . rw [← Option.some.inj h]
    rfl
  . contradiction

theorem step_methods (h : step s action = some s')
    : s'.methods = s.methods ∨ ∃ method, action = .enter method
        ∧ s'.methods = s.methods ++ [method] := by
  unfold step at h
  cases action with
  | enter method =>
    dsimp only at h
    rw [← Option.some.inj h]
    exact .inr ⟨method, rfl, by simp [State.methods]⟩
  | waitUntilStopped =>
    dsimp only at h
    split at h
    . rw [← Option.some.inj h]
      exact .inl rfl
    . contradiction
  | call index =>
    dsimp only at h
    split at h
    . next hcall => exact .inl (stepCall_methods hcall h)
    . contradiction
  | loop => exact .inl (congrArg (List.map _) (loopStep_of_stepLoop h).calls)
  | enumerate keys =>
    dsimp only at h
    split at h
    . split at h
      . rw [← Option.some.inj h]
        exact .inl rfl
      . contradiction
    . contradiction
  | block index =>
    dsimp only at h
    split at h
    . exact .inl (congrArg (List.map _) (stepBlock_calls h))
    . contradiction

end LGExecutionContextObjc
end LedgerApp
