import LedgerApp.Lemmas.ObjcContext

/-!
Who holds the lock of the iOS execution context. The methods lock and unlock in pairs, but every
block that is dispatched unlocks once more, without having locked.
-/

namespace LedgerApp
namespace LGExecutionContextObjc

variable {s s' : State}

-- `waitUntilStopped` lists the keys or goes through them
def Loop.enumerating : Loop → Bool
  | .allKeys | .keys _ | .runnables _ _ _ => true
  | _ => false

structure Disciplined (s : State) : Prop where
  unlocked_by_holder : ∀ activity holder, (activity, holder) ∈ s.unlocks → holder = some activity
  exclusive : ∀ activity other, s.Inside activity → s.Inside other → activity = other
  undisturbed : s.loop.enumerating = true → ∀ call ∈ s.calls, call.phase ≠ .work

-- no block has come to its `[self.lock unlock]`
def NoBlockUnlocked (s : State) : Prop :=
  ∀ block ∈ s.blocks, block.phase ≠ .unlocked

theorem noBlockUnlocked_iff : NoBlockUnlocked s ↔ ∀ index, ¬s.Unlocked index := by
  constructor
  . rintro h index ⟨block, hblock, hphase⟩
    exact h block (List.mem_of_getElem? hblock) hphase
  . intro h block hblock hphase
    rcases List.mem_iff_getElem?.mp hblock with ⟨index, hindex⟩
    exact h index ⟨block, hindex, hphase⟩

structure Locked (s : State) : Prop where
  not_block : ∀ index, s.holder ≠ some (.block index)
  unlocked_mem : ∀ index, s.Unlocked index → ∃ holder, (.block index, holder) ∈ s.unlocks
    ∧ holder ≠ some (.block index)
  holder_iff : (∀ index, ¬s.Unlocked index) → ∀ activity,
    s.holder = some activity ↔ s.Inside activity
  unlocks : (∀ index, ¬s.Unlocked index) → ∀ activity holder,
    (activity, holder) ∈ s.unlocks → holder = some activity

theorem locked_init : Locked State.init where
  not_block index := by simp [State.init]
  unlocked_mem index h := by simp [State.Unlocked, State.init] at h
  holder_iff _ activity := by
    cases activity with
    | _ => simp [State.init, State.Inside, Loop.inside]
  unlocks _ activity holder h := by simp [State.init] at h

theorem Locked.not_inside (hinv : Locked s) (hnone : ∀ index, ¬s.Unlocked index)
    (hfree : s.holder = none) (activity : Activity) : ¬s.Inside activity := by
  rw [← hinv.holder_iff hnone, hfree]
  simp

theorem Locked.effect {action : Action} (hinv : Locked s) (h : LockEffect s s' action)
    : Locked s' := by
  cases h with
  | keep holder unlocks inside blocks =>
    have hback : (∀ i, ¬s'.Unlocked i) → ∀ i, ¬s.Unlocked i :=
      fun hnone i hi => hnone i ((blocks i).mpr hi)
    constructor
    . rw [holder]
      exact hinv.not_block
    . intro i hi
      rw [unlocks]
      exact hinv.unlocked_mem i ((blocks i).mp hi)
    . intro hnone a
      rw [holder, inside]
      exact hinv.holder_iff (hback hnone) a
    . intro hnone
      rw [unlocks]
      exact hinv.unlocks (hback hnone)
  | acquire a free holder unlocks inside blocks =>
    have hback : (∀ i, ¬s'.Unlocked i) → ∀ i, ¬s.Unlocked i :=
      fun hnone i hi => hnone i ((blocks i).mpr hi)
    constructor
    . intro i hi
      rw [holder, Option.some.injEq] at hi
      exact (inside (.block i)).mpr (.inr hi.symm)
    . intro i hi
      rw [unlocks]
      exact hinv.unlocked_mem i ((blocks i).mp hi)
    . intro hnone b
      have hout := hinv.not_inside (hback hnone) free b
      rw [holder, inside, Option.some.injEq]
      simp [hout, eq_comm]
    . intro hnone
      rw [unlocks]
      exact hinv.unlocks (hback hnone)
  | release a holds holder unlocks inside blocks =>
    have hback : (∀ i, ¬s'.Unlocked i) → ∀ i, ¬s.Unlocked i :=
      fun hnone i hi => hnone i ((blocks i).mpr hi)
    constructor
    . rw [holder]
      simp
    . intro i hi
      rcases hinv.unlocked_mem i ((blocks i).mp hi) with ⟨h, hmem, hne⟩
      rw [unlocks]
      exact ⟨h, List.mem_append_left _ hmem, hne⟩
    . intro hnone b
      have hheld : s.holder = some a := (hinv.holder_iff (hback hnone) a).mpr holds
      have hb := hinv.holder_iff (hback hnone) b
      rw [hheld, Option.some.injEq] at hb
      rw [holder, inside, ← hb]
      simp [eq_comm]
    . intro hnone b h hmem
      rw [unlocks, List.mem_append, List.mem_singleton, Prod.mk.injEq] at hmem
      rcases hmem with hmem | ⟨rfl, rfl⟩
      . exact hinv.unlocks (hback hnone) b h hmem
      . exact (hinv.holder_iff (hback hnone) b).mpr holds
  | block index holder unlocks inside blocks =>
    have hunlocked : s'.Unlocked index := (blocks index).mpr (.inr rfl)
    constructor
    . rw [holder]
      simp
    . intro i hi
      rw [unlocks]
      rcases (blocks i).mp hi with hi | rfl
      . rcases hinv.unlocked_mem i hi with ⟨h, hmem, hne⟩
        exact ⟨h, List.mem_append_left _ hmem, hne⟩
      . exact ⟨s.holder, List.mem_append_right _ (List.mem_singleton.mpr rfl), hinv.not_block i⟩
    . intro hnone
      exact absurd hunlocked (hnone index)
    . intro hnone
      exact absurd hunlocked (hnone index)

theorem locked_of_reachable {ok : State → Action → Prop} (h : machine.Reachable ok s) : Locked s :=
  h.invariant locked_init fun _ _ _ _ hinv _ hstep => hinv.effect (step_effect hstep)

theorem Locked.exclusive (hinv : Locked s) (hnone : ∀ index, ¬s.Unlocked index)
    {activity other : Activity} (h : s.Inside activity) (h' : s.Inside other)
    : activity = other := by
  rw [← hinv.holder_iff hnone] at h h'
  rw [h, Option.some.injEq] at h'
  exact h'

theorem Locked.disciplined (hinv : Locked s) (hnone : ∀ index, ¬s.Unlocked index)
    : Disciplined s := by
  refine ⟨hinv.unlocks hnone, fun _ _ => hinv.exclusive hnone, ?_⟩
  intro hloop call hcall hphase
  have hloop : s.Inside .waitUntilStopped := by
    unfold Loop.enumerating at hloop
    unfold State.Inside
    split at hloop
    . next heq => rw [heq]; rfl
    . next heq => rw [heq]; rfl
    . next heq => rw [heq]; rfl
    . contradiction
  rcases List.mem_iff_getElem?.mp hcall with ⟨index, hindex⟩
  have hinside : s.Inside (.call index) := ⟨call, hindex, by rw [hphase]; rfl⟩
  have := hinv.exclusive hnone hloop hinside
  contradiction

theorem disciplined_iff (h : machine.Reachable System.free s)
    : Disciplined s ↔ NoBlockUnlocked s := by
  have hinv := locked_of_reachable h
  rw [noBlockUnlocked_iff]
  constructor
  . intro hdisciplined index hunlocked
    rcases hinv.unlocked_mem index hunlocked with ⟨holder, hmem, hne⟩
    exact hne (hdisciplined.unlocked_by_holder _ _ hmem)
  . exact hinv.disciplined

def passActions : List Action :=
  [.enter (.delay 7 1500), .call 0, .call 0, .call 0, .waitUntilStopped, .loop, .loop, .loop, .loop,
    .loop, .loop, .loop, .loop, .loop, .enumerate [stringValue 1500], .loop, .loop, .loop, .loop,
    .loop]

theorem passActions_exec : (machine.exec machine.init passActions).isSome = true := by
  decide +kernel

def passed : State :=
  (machine.exec machine.init passActions).get passActions_exec

theorem passed_reachable : machine.Reachable System.free passed :=
  System.reachable_exec passActions_exec (System.along_free _ _)

theorem disciplined_iff_passed : Disciplined passed ↔ NoBlockUnlocked passed :=
  disciplined_iff passed_reachable

theorem blockActions_exec
    : (machine.exec machine.init (passActions ++ [.block 0, .block 0])).isSome = true := by
  decide +kernel

theorem not_always_disciplined : ¬∀ s, machine.Reachable System.free s → Disciplined s := by
  intro h
  have hdisciplined := h _ (System.reachable_exec blockActions_exec (System.along_free _ _))
  have := hdisciplined.unlocked_by_holder (.block 0) none (by decide +kernel)
  contradiction

end LGExecutionContextObjc
end LedgerApp
