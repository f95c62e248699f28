import LedgerApp.LockDiscipline

/-!
What becomes of the Runnables given to `delay`: each of them waits in the dictionary under its own
delay until a pass dispatches it. When `waitUntilStopped` returns nothing is left, except for what
was added after the count was found to be zero.
-/

namespace LedgerApp
namespace LGExecutionContextObjc

variable {s s' : State} {ok : State → Action → Prop}

namespace State

def accepting (s : State) (millis : Int64) : List LGRunnable :=
  (s.accepted.filter (·.1 = millis)).map (·.2)

def dispatched (s : State) (millis : Int64) : List LGRunnable :=
  (s.blocks.filter (·.key = stringValue millis)).map (·.runnable)

def dispatchedIn (s : State) (pass : Nat) (millis : Int64) : List LGRunnable :=
  (s.blocks.filter fun block => block.pass = pass ∧ block.key = stringValue millis).map (·.runnable)

end State

-- all that was added with one delay, in order: first what was dispatched, then what still waits
structure Conserved (s : State) : Prop where
  balance : ∀ millis, s.accepting millis = s.dispatched millis ++ s.waiting (stringValue millis)
  in_order : ∀ pass millis, (s.dispatchedIn pass millis).Sublist (s.accepting millis)
  queue_keys : ∀ key ∈ s.queue.keys, ∃ millis, key = stringValue millis
  block_keys : ∀ block ∈ s.blocks, ∃ millis, block.key = stringValue millis

structure Emptied (s : State) : Prop where
  queue : s.queue.keys = []
  dispatched : ∀ millis, s.dispatched millis = s.accepting millis

-- `waitUntilStopped` occupies the main thread until it returns, and the blocks run there
def mainThread (s : State) : Action → Prop
  | .block _ => s.loop = .returned
  | _ => True

instance (s : State) (action : Action) : Decidable (mainThread s action) := by
  unfold mainThread
  split
  . infer_instance
  . infer_instance

-- a block comes to its `[self.lock unlock]` only when `waitUntilStopped` has returned
def unlocksLate (s : State) : Action → Prop
  | .block index => s.blocks[index]?.map (·.phase) = some .ran → s.loop = .returned
  | _ => True

instance (s : State) (action : Action) : Decidable (unlocksLate s action) := by
  unfold unlocksLate
  split
  . infer_instance
  . infer_instance

theorem unlocksLate_of_mainThread (s : State) (action : Action) (h : mainThread s action)
    : unlocksLate s action := by
  cases action with
  | block index => exact fun _ => h
  | _ => trivial

/-! ## The keys -/

structure Keyed (s : State) : Prop where
  queue : ∀ key ∈ s.queue.keys, ∃ runnable ∈ s.accepted, key = stringValue runnable.1
  handed : ∀ block ∈ s.handed, (∃ runnable ∈ s.accepted, block.key = stringValue runnable.1)
    ∧ block.offset = offset block.key

theorem mem_keys_appendRunnable {queue : Queue} {runnable : LGRunnable} {key other : NSString}
    (h : other ∈ (appendRunnable queue runnable key).keys) : other = key ∨ other ∈ queue.keys := by
  unfold appendRunnable at h
  split at h
  . rw [← AList.mem_keys, AList.mem_insert] at h
    exact h
  . rw [← AList.mem_keys, AList.mem_insert] at h
    exact h

theorem mem_keys_of_getElem? {queue : Queue} {key : NSString} {index : Nat}
    {runnable : LGRunnable} (h : (runnables queue key)[index]? = some runnable)
    : key ∈ queue.keys := by
  by_contra hne
  have hlookup : queue.lookup key = none := by
    rw [AList.lookup_eq_none, AList.mem_keys]
    exact hne
  simp [runnables, hlookup] at h

theorem Keyed.effect (hinv : Keyed s) (h : DataEffect s s') : Keyed s' := by
  cases h with
  | keep queue accepted handed waiting =>
    constructor
    . rw [queue, accepted]
      exact hinv.queue
    . rw [handed, accepted]
      exact hinv.handed
  | append index call runnable millis hcall hphase _ queue accepted handed loop =>
    constructor
    . intro key hkey
      rw [queue] at hkey
      rw [accepted]
      rcases mem_keys_appendRunnable hkey with rfl | hkey
      . exact ⟨(millis, runnable), by simp, rfl⟩
      . rcases hinv.queue key hkey with ⟨added, hmem, heq⟩
        exact ⟨added, List.mem_append_left _ hmem, heq⟩
    . intro block hblock
      rw [handed] at hblock
      rw [accepted]
      rcases hinv.handed block hblock with ⟨⟨added, hmem, heq⟩, hoffset⟩
      exact ⟨⟨added, List.mem_append_left _ hmem, heq⟩, hoffset⟩
  | dispatch key index keys runnable hloop hrunnable queue accepted handed loop =>
    constructor
    . rw [queue, accepted]
      exact hinv.queue
    . intro block hblock
      rw [handed, List.mem_append, List.mem_singleton] at hblock
      rw [accepted]
      rcases hblock with hblock | rfl
      . exact hinv.handed block hblock
      . exact ⟨hinv.queue key (mem_keys_of_getElem? hrunnable), rfl⟩
  | remove key index keys hloop hrunnable queue accepted handed loop =>
    constructor
    . intro other hother
      rw [queue, ← AList.mem_keys, AList.mem_erase] at hother
      rw [accepted]
      exact hinv.queue other hother.2
    . rw [handed, accepted]
      exact hinv.handed

theorem keyed_init : Keyed State.init where
  queue key h := by simp [State.init] at h
  handed block h := by simp [State.handed, State.init] at h

theorem keyed_of_reachable (h : machine.Reachable ok s) : Keyed s :=
  h.invariant keyed_init fun _ _ _ _ hinv _ hstep => hinv.effect (step_data hstep)

/-! ## The lock is intact until `waitUntilStopped` returns -/

theorem stepCall_frame {index : Nat} {call : Call} (h : s.stepCall index call = some s')
    : s'.loop = s.loop ∧ s'.isRunning = s.isRunning ∧ s'.counted = s.counted := by
  unfold State.stepCall at h
  split at h
  . split at h
    . next t ht =>
      rcases lock_eq ht with ⟨_, rfl⟩
      rw [← Option.some.inj h]
      exact ⟨rfl, rfl, rfl⟩
    . contradiction
  . rw [← Option.some.inj h]
    unfold State.work
    split
    . exact ⟨rfl, rfl, rfl⟩
    . exact ⟨rfl, rfl, rfl⟩
  . rw [← Option.some.inj h]
    exact ⟨rfl, rfl, rfl⟩
  . contradiction

theorem stepBlock_frame {index : Nat} {block : Block} (h : s.stepBlock index block = some s')
    : s'.loop = s.loop ∧ s'.isRunning = s.isRunning ∧ s'.counted = s.counted
        ∧ s'.queue = s.queue ∧ s'.accepted = s.accepted := by
  unfold State.stepBlock at h
  split at h
  . rw [← Option.some.inj h]
    exact ⟨rfl, rfl, rfl, rfl, rfl⟩
  . rw [← Option.some.inj h]
    exact ⟨rfl, rfl, rfl, rfl, rfl⟩
  . contradiction

theorem returned_step {action : Action} (hloop : s.loop = .returned)
    (h : step s action = some s') : s'.loop = .returned := by
  unfold step at h
  cases action with
  | enter method =>
    dsimp only at h
    rw [← Option.some.inj h]
    exact hloop
  | waitUntilStopped => simp [hloop] at h
  | call index =>
    dsimp only at h
    split at h
    . rw [(stepCall_frame h).1, hloop]
    . contradiction
  | loop => simp [State.stepLoop, hloop] at h
  | enumerate keys => simp [hloop] at h
  | block index =>
    dsimp only at h
    split at h
    . rw [(stepBlock_frame h).1, hloop]
    . contradiction

theorem ran_of_unlocked {index other : Nat} (h : step s (.block index) = some s')
    (hunlocked : s'.Unlocked other)
    : s.Unlocked other ∨ s.blocks[index]?.map (·.phase) = some .ran := by
  simp only [step] at h
  split at h
  . next block hblock =>
    unfold State.stepBlock at h
    split at h
    . next hphase =>
      rcases hunlocked with ⟨found, hfound, hphase'⟩
      rw [← Option.some.inj h, List.getElem?_set] at hfound
      split at hfound
      . split at hfound
        . rw [← Option.some.inj hfound] at hphase'
          contradiction
        . contradiction
      . exact .inl ⟨found, hfound, hphase'⟩
    . next hphase =>
      rw [hblock, Option.map_some, hphase]
      exact .inr rfl
    . contradiction
  . contradiction

theorem not_unlocked (hok : ∀ s action, ok s action → unlocksLate s action)
    (h : machine.Reachable ok s) (hloop : s.loop ≠ .returned) (index : Nat)
    : ¬s.Unlocked index := by
  have hinv : s.loop = .returned ∨ ∀ index, ¬s.Unlocked index := by
    apply h.invariant
    . refine .inr ?_
      rintro index ⟨block, hblock, _⟩
      simp [machine, State.init] at hblock
    . intro t action u _ ih hguard hstep
      rcases ih with ih | ih
      . exact .inl (returned_step ih hstep)
      . cases step_effect hstep with
        | keep _ _ _ blocks
        | acquire _ _ _ _ _ blocks
        | release _ _ _ _ _ blocks =>
          refine .inr ?_
          intro i hi
          exact ih i ((blocks i).mp hi)
        | block index _ _ _ blocks =>
          have hstep : step t (.block index) = some u := hstep
          have hunlocked : u.Unlocked index := (blocks index).mpr (.inr rfl)
          have hran := (ran_of_unlocked hstep hunlocked).resolve_left (ih index)
          exact .inl (returned_step (hok t _ hguard hran) hstep)
  exact (hinv.resolve_left hloop) index

theorem not_appending (hok : ∀ s action, ok s action → unlocksLate s action)
    (h : machine.Reachable ok s) (hloop : s.loop.enumerating = true) {call : Call}
    (hcall : call ∈ s.calls) : call.phase ≠ .work := by
  have hne : s.loop ≠ .returned := by
    intro hreturned
    rw [hreturned] at hloop
    contradiction
  exact ((locked_of_reachable h).disciplined (not_unlocked hok h hne)).undisturbed hloop call hcall

/-! ## Conservation -/

structure Balanced (s : State) : Prop where
  balance : ∀ millis, s.accepting millis
    = (s.handed.filter (·.key = stringValue millis)).map (·.runnable)
        ++ s.waiting (stringValue millis)

theorem Balanced.effect (hinv : Balanced s)
    (hlocked : s.loop.enumerating = true → ∀ call ∈ s.calls, call.phase ≠ .work)
    (h : DataEffect s s') : Balanced s' := by
  constructor
  intro millis
  have hbalance := hinv.balance millis
  cases h with
  | keep queue accepted handed waiting =>
    rw [handed, waiting, ← hbalance, State.accepting, accepted]
    rfl
  | append index call runnable added hcall hphase _ queue accepted handed loop =>
    have hloop : ∀ key index keys, s.loop ≠ .runnables key index keys := by
      intro key index keys heq
      exact hlocked (by rw [heq]; rfl) call (List.mem_of_getElem? hcall) hphase
    rw [waiting_of_not_runnables hloop] at hbalance
    rw [waiting_of_not_runnables (by rw [loop]; exact hloop), handed, queue,
      runnables_appendRunnable]
    unfold State.accepting at hbalance ⊢
    rw [accepted, List.filter_append, List.map_append, hbalance]
    by_cases hmillis : added = millis
    . simp [hmillis]
    . have hkey : stringValue millis ≠ stringValue added :=
        fun heq => hmillis (stringValue_injective heq).symm
      simp [hmillis, hkey]
  | dispatch key index keys runnable hloop hrunnable queue accepted handed loop =>
    rw [State.accepting, accepted, ← State.accepting, hbalance, handed, List.filter_append,
      List.map_append, List.append_assoc]
    congr 1
    simp only [State.waiting, hloop, loop, queue]
    rcases List.getElem?_eq_some_iff.mp hrunnable with ⟨hlt, hget⟩
    by_cases hkey : stringValue millis = key
    . simp [hkey, List.drop_eq_getElem_cons hlt, hget]
    . simp [hkey, Ne.symm hkey]
  | remove key index keys hloop hrunnable queue accepted handed loop =>
    rw [State.accepting, accepted, ← State.accepting, hbalance, handed]
    congr 1
    simp only [State.waiting, hloop, loop, queue, runnables_erase]
    by_cases hkey : stringValue millis = key
    . rw [if_pos hkey, if_pos hkey, hkey]
      exact List.drop_eq_nil_of_le (List.getElem?_eq_none_iff.mp hrunnable)
    . rw [if_neg hkey, if_neg hkey]

theorem balanced_of_reachable (h : machine.Reachable mainThread s) : Balanced s := by
  apply h.invariant
  . constructor
    intro millis
    have hkeys : (∅ : Queue).keys = [] := AList.keys_empty
    exact (runnables_of_keys_eq_nil hkeys (stringValue millis)).symm
  . intro t action u ht ih _ hstep
    exact ih.effect (fun hloop _ => not_appending unlocksLate_of_mainThread ht hloop)
      (step_data hstep)

theorem dispatched_eq (s : State) (millis : Int64)
    : s.dispatched millis
        = (s.handed.filter (·.key = stringValue millis)).map (·.runnable) := by
  simp only [State.dispatched, State.handed, List.filter_map, List.map_map]
  rfl

theorem dispatchedIn_sublist (s : State) (pass : Nat) (millis : Int64)
    : (s.dispatchedIn pass millis).Sublist (s.dispatched millis) := by
  apply List.Sublist.map
  apply List.monotone_filter_right
  intro block hblock
  simp only [decide_eq_true_eq] at hblock ⊢
  exact hblock.2

theorem conserved_of_reachable (h : machine.Reachable mainThread s) : Conserved s := by
  have hbalance : ∀ millis,
      s.accepting millis = s.dispatched millis ++ s.waiting (stringValue millis) := by
    intro millis
    rw [dispatched_eq]
    exact (balanced_of_reachable h).balance millis
  have hkeyed := keyed_of_reachable h
  constructor
  . exact hbalance
  . intro pass millis
    rw [hbalance]
    exact (dispatchedIn_sublist s pass millis).trans (List.sublist_append_left _ _)
  . intro key hkey
    rcases hkeyed.queue key hkey with ⟨added, _, heq⟩
    exact ⟨added.1, heq⟩
  . intro block hblock
    rcases (hkeyed.handed block.handed (List.mem_map_of_mem hblock)).1 with ⟨added, _, heq⟩
    exact ⟨added.1, heq⟩

/-! ## The return -/

-- once the flag was set, until the count is found to be zero
def Loop.passing : Loop → Bool
  | .unlockStart | .unlockTest true | .tested true | .count => true
  | .lockPass | .allKeys | .keys _ | .runnables _ _ _ | .unlockPass => true
  | _ => false

-- from there to the return
def State.stopping (s : State) : Bool :=
  match s.loop with
  | .lockStop | .stop | .unlockStop | .unlockTest false | .tested false => true
  | .lockTest | .test => !s.isRunning
  | _ => false

structure Counted (s : State) : Prop where
  running : s.loop.passing = true → s.isRunning = true
  empty : s.stopping = true →
    s.counted ≤ s.accepted.length ∧ (s.queue.keys = [] ↔ s.accepted.length = s.counted)

theorem Counted.call {index : Nat} {call : Call} (hinv : Counted s)
    (hcall : s.calls[index]? = some call) (h : s.stepCall index call = some s') : Counted s' := by
  rcases stepCall_frame h with ⟨hloop, hrunning, hcounted⟩
  constructor
  . rw [hloop, hrunning]
    exact hinv.running
  . intro hstopping
    simp only [State.stopping, hloop, hrunning] at hstopping
    rcases hinv.empty hstopping with ⟨hle, hiff⟩
    rw [hcounted]
    cases stepCall_data hcall h with
    | keep queue accepted _ _ =>
      rw [queue, accepted]
      exact ⟨hle, hiff⟩
    | append _ _ runnable millis _ _ _ queue accepted _ _ =>
      rw [queue, accepted, List.length_append, List.length_singleton]
      refine ⟨by omega, ?_⟩
      constructor
      . intro hnil
        exact absurd hnil (keys_appendRunnable_ne_nil _ _ _)
      . intro hlength
        omega
    | dispatch _ _ _ _ heq _ _ _ _ heq'
    | remove _ _ _ heq _ _ _ _ heq' =>
      rw [hloop, heq] at heq'
      simp at heq'

theorem Counted.of_passing (h : s.loop.passing = true) (hrunning : s.isRunning = true)
    : Counted s := by
  refine ⟨fun _ => hrunning, ?_⟩
  intro hstopping
  unfold State.stopping at hstopping
  split at hstopping
  . next heq => simp [heq, Loop.passing] at h
  . next heq => simp [heq, Loop.passing] at h
  . next heq => simp [heq, Loop.passing] at h
  . next heq => simp [heq, Loop.passing] at h
  . next heq => simp [heq, Loop.passing] at h
  . simp [hrunning] at hstopping
  . simp [hrunning] at hstopping
  . contradiction

theorem Counted.of_le (hinv : Counted s) (hpassing : s'.loop.passing = true → s.loop.passing = true)
    (hstopping : s'.stopping = true → s.stopping = true) (hrunning : s'.isRunning = s.isRunning)
    (hcounted : s'.counted = s.counted) (hqueue : s'.queue = s.queue)
    (haccepted : s'.accepted = s.accepted) : Counted s' := by
  constructor
  . intro h
    rw [hrunning]
    exact hinv.running (hpassing h)
  . intro h
    rw [hcounted, hqueue, haccepted]
    exact hinv.empty (hstopping h)

theorem Counted.lock {next : Loop} {holder : Option Activity} (hinv : Counted s)
    (h : s.loop.locked = some next) : Counted { s with holder := holder, loop := next } := by
  rcases Loop.locked_cases h with ⟨heq, rfl⟩ | ⟨heq, rfl⟩ | ⟨heq, rfl⟩ | ⟨heq, rfl⟩
  all_goals
    exact hinv.of_le (by simp [Loop.passing, heq]) (by simp [State.stopping, heq]) rfl rfl rfl rfl

theorem Counted.unlock {next : Loop} (hinv : Counted s) (h : s.loop.unlocked = some next)
    : Counted (s.unlockThen next) := by
  have hrunning := hinv.running
  rcases Loop.unlocked_cases h with ⟨heq, rfl⟩ | ⟨localRunning, heq, rfl⟩ | ⟨heq, rfl⟩ | ⟨heq, rfl⟩
  . simp only [heq, Loop.passing, forall_const] at hrunning
    exact hinv.of_le (by simp [State.unlockThen, Loop.passing])
      (by simp [State.stopping, State.unlockThen, State.unlock, hrunning]) rfl rfl rfl rfl
  . cases localRunning with
    | true => exact .of_passing rfl (hrunning (by rw [heq]; rfl))
    | false =>
      exact hinv.of_le (by simp [State.unlockThen, Loop.passing])
        (by simp [State.stopping, heq]) rfl rfl rfl rfl
  . simp only [heq, Loop.passing, forall_const] at hrunning
    exact hinv.of_le (by simp [State.unlockThen, Loop.passing])
      (by simp [State.stopping, State.unlockThen, State.unlock, hrunning]) rfl rfl rfl rfl
  . exact hinv.of_le (by simp [State.unlockThen, Loop.passing])
      (by simp [State.stopping, heq]) rfl rfl rfl rfl

theorem Counted.loop (hinv : Counted s) (h : LoopStep s s') : Counted s' := by
  cases h with
  | lock next h _ => exact hinv.lock h
  | unlock next h => exact hinv.unlock h
  | start h => exact .of_passing rfl rfl
  | test h =>
    cases hflag : s.isRunning with
    | true => exact .of_passing rfl rfl
    | false =>
      exact hinv.of_le (by simp [Loop.passing]) (by simp [State.stopping, h, hflag]) hflag.symm
        rfl rfl rfl
  | goOn h
  | some h _
  | noKey h
  | key _ _ h
  | dispatch _ _ _ _ h _
  | remove _ _ _ h _ => exact .of_passing rfl (hinv.running (by rw [h]; rfl))
  | leave h => exact ⟨by simp [Loop.passing], by simp [State.stopping]⟩
  | none h hkeys => exact ⟨by simp [Loop.passing], fun _ => by simp [hkeys]⟩
  | stop h =>
    exact ⟨by simp [Loop.passing], fun _ => hinv.empty (by simp [State.stopping, h])⟩

theorem Counted.step {action : Action} (hinv : Counted s)
    (h : LGExecutionContextObjc.step s action = some s') : Counted s' := by
  unfold LGExecutionContextObjc.step at h
  cases action with
  | enter method =>
    dsimp only at h
    rw [← Option.some.inj h]
    exact ⟨hinv.running, hinv.empty⟩
  | waitUntilStopped =>
    dsimp only at h
    split at h
    . rw [← Option.some.inj h]
      exact ⟨by simp [Loop.passing], by simp [State.stopping]⟩
    . contradiction
  | call index =>
    dsimp only at h
    split at h
    . next hcall => exact hinv.call hcall h
    . contradiction
  | loop => exact hinv.loop (loopStep_of_stepLoop h)
  | enumerate keys =>
    dsimp only at h
    split at h
    . next hloop =>
      split at h
      . rw [← Option.some.inj h]
        exact .of_passing rfl (hinv.running (by rw [hloop]; rfl))
      . contradiction
    . contradiction
  | block index =>
    dsimp only at h
    split at h
    . rcases stepBlock_frame h with ⟨hloop, hrunning, hcounted, hqueue, haccepted⟩
      constructor
      . rw [hloop, hrunning]
        exact hinv.running
      . simp only [State.stopping, hloop, hrunning, hcounted, hqueue, haccepted]
        exact hinv.empty
    . contradiction

theorem counted_of_reachable (h : machine.Reachable ok s)
    : Counted s := by
  apply h.invariant
  . constructor
    . simp [machine, State.init, Loop.passing]
    . simp [machine, State.init, State.stopping]
  . intro t action u _ ih _ hstep
    exact ih.step hstep

theorem Conserved.emptied_iff (h : Conserved s)
    (hloop : ∀ key index keys, s.loop ≠ .runnables key index keys)
    : Emptied s ↔ s.queue.keys = [] := by
  constructor
  . exact fun hemptied => hemptied.queue
  . intro hnil
    refine ⟨hnil, ?_⟩
    intro millis
    rw [h.balance, waiting_of_not_runnables hloop, runnables_of_keys_eq_nil hnil, List.append_nil]

theorem LoopStep.eq_of_returned (h : LoopStep s s') (hreturned : s'.loop = .returned)
    : s.stopping = true ∧ s' = { s with loop := .returned } := by
  cases h with
  | leave h => exact ⟨by simp [State.stopping, h], rfl⟩
  | lock next h _ =>
    rcases Loop.locked_cases h with ⟨_, rfl⟩ | ⟨_, rfl⟩ | ⟨_, rfl⟩ | ⟨_, rfl⟩
    all_goals contradiction
  | unlock next h =>
    rcases Loop.unlocked_cases h with ⟨_, rfl⟩ | ⟨_, _, rfl⟩ | ⟨_, rfl⟩ | ⟨_, rfl⟩
    all_goals contradiction
  | _ => contradiction

theorem conserved_until_return (h : machine.Reachable mainThread s)
    : Conserved s ∧ ∀ s', s.stepLoop = some s' → s'.loop = .returned →
        (Emptied s' ↔ s.accepted.length = s.counted) := by
  refine ⟨conserved_of_reachable h, ?_⟩
  intro s' hstep hreturned
  have hconserved : Conserved s' := conserved_of_reachable (.step (a := .loop) h trivial hstep)
  rw [hconserved.emptied_iff (by simp [hreturned])]
  rcases (loopStep_of_stepLoop hstep).eq_of_returned hreturned with ⟨hstopping, rfl⟩
  exact ((counted_of_reachable h).empty hstopping).2

def stopActions : List Action :=
  passActions ++ List.replicate 11 .loop

theorem stopActions_exec : (machine.exec machine.init stopActions).isSome = true := by
  decide +kernel

theorem stopActions_along : machine.Along mainThread machine.init stopActions := by
  decide +kernel

def stopped : State :=
  (machine.exec machine.init stopActions).get stopActions_exec

theorem conserved_until_return_stopped
    : Conserved stopped ∧ ∀ s', stopped.stepLoop = some s' → s'.loop = .returned →
        (Emptied s' ↔ stopped.accepted.length = stopped.counted) :=
  conserved_until_return (System.reachable_exec stopActions_exec stopActions_along)

-- the count is found to be zero, then `delay` is called
def lateActions : List Action :=
  .waitUntilStopped :: List.replicate 8 .loop ++
    .enter (.delay 7 0) :: List.replicate 3 (.call 0) ++ List.replicate 6 .loop

theorem lateActions_exec : (machine.exec machine.init lateActions).isSome = true := by
  decide +kernel

theorem lateActions_along : machine.Along mainThread machine.init lateActions := by
  decide +kernel

def late : State :=
  (machine.exec machine.init lateActions).get lateActions_exec

theorem late_returns : late.stepLoop.isSome = true := by
  decide +kernel

theorem not_always_emptied
    : ¬∀ s, machine.Reachable mainThread s →
        Conserved s ∧ ∀ s', s.stepLoop = some s' → s'.loop = .returned → Emptied s' := by
  intro h
  have hlate := (h late (System.reachable_exec lateActions_exec lateActions_along)).2
  have hemptied := hlate (late.stepLoop.get late_returns) (by simp) (by decide +kernel)
  have hqueue : (late.stepLoop.get late_returns).queue.keys.length ≠ 0 := by
    decide +kernel
  rw [hemptied.queue] at hqueue
  contradiction

end LGExecutionContextObjc
end LedgerApp
