import LedgerApp.Lemmas.Return

/-!
The iOS execution context comes to an end of its work, whoever delays Runnables at whichever time:
`waitUntilStopped` returns, and no call waits for the lock forever. A block that unlocks before the
return would let `delay` change an array that the loop goes through, which raises an exception; the
runs here have no such block.
-/

namespace LedgerApp
namespace LGExecutionContextObjc

variable {s s' : State} {ok : State → Action → Prop}

/-! ## The bound -/

theorem reachable_of_exec {as : List Action} (h : machine.Reachable System.free s)
    : machine.Along reachable s as := by
  induction as generalizing s with
  | nil => trivial
  | cons action as ih =>
    refine ⟨h, ?_⟩
    intro t ht
    exact ih (.step h trivial ht)

theorem bounded_steps {as : List Action} (hexec : machine.exec machine.init as = some s)
    : machine.total cost machine.init as + s.left ≤ machine.total gain machine.init as := by
  have htotal := budget.total_le (reachable_of_exec (.refl _)) hexec
  have hinit : machine.init.left = 0 := rfl
  dsimp only [budget] at htotal
  omega

theorem bounded_steps_passed
    : machine.total cost machine.init passActions + passed.left
        ≤ machine.total gain machine.init passActions :=
  bounded_steps (Option.some_get passActions_exec).symm

/-! ## Who holds the lock can go on -/

structure Held (s : State) : Prop where
  holder : ∀ activity, s.holder = some activity → s.Inside activity

theorem Held.effect {action : Action} (hs : Held s) (h : LockEffect s s' action) : Held s' := by
  refine ⟨?_⟩
  intro activity hactivity
  cases h with
  | keep holder _ inside _ =>
    rw [holder] at hactivity
    exact (inside activity).mpr (hs.holder activity hactivity)
  | acquire a _ holder _ inside _ =>
    rw [holder, Option.some.injEq] at hactivity
    exact (inside activity).mpr (.inr hactivity.symm)
  | release a _ holder _ _ _ =>
    rw [holder] at hactivity
    contradiction
  | block index holder _ _ _ =>
    rw [holder] at hactivity
    contradiction

theorem held_of_reachable (h : machine.Reachable ok s) : Held s := by
  apply h.invariant
  . exact ⟨by simp [machine, State.init]⟩
  . intro t action u _ ih _ hstep
    exact ih.effect (step_effect hstep)

-- a step of `waitUntilStopped` or of a call that was made
def goesOn (_ : State) : Action → Prop
  | .call _ | .loop | .enumerate _ => True
  | _ => False

def Loop.idling : Loop → Bool
  | .idle | .returned => true
  | _ => false

structure Quiet (s : State) : Prop where
  loop : s.loop.idling = true
  calls : ∀ call ∈ s.calls, call.phase = .done

theorem exists_loop_step (hloop : s.loop.idling = false)
    (hlock : s.holder = none ∨ s.loop.inside = true)
    : ∃ action, goesOn s action ∧ (step s action).isSome = true := by
  cases hs : s.loop with
  | idle
  | returned => simp [hs, Loop.idling] at hloop
  | allKeys =>
    exact ⟨.enumerate s.queue.keys, trivial, by simp [step, hs]⟩
  | lockStart
  | lockTest
  | lockPass
  | lockStop =>
    have hfree : s.holder = none := by simpa [hs, Loop.inside] using hlock
    exact ⟨.loop, trivial, by simp [step, State.stepLoop, hs, State.lockThen, State.lock, hfree]⟩
  | tested localRunning =>
    cases localRunning with
    | _ => exact ⟨.loop, trivial, by simp [step, State.stepLoop, hs]⟩
  | keys keys =>
    cases keys with
    | _ => exact ⟨.loop, trivial, by simp [step, State.stepLoop, hs]⟩
  | runnables key index keys =>
    cases hrunnable : (runnables s.queue key)[index]? with
    | _ => exact ⟨.loop, trivial, by simp [step, State.stepLoop, hs, hrunnable]⟩
  | _ => exact ⟨.loop, trivial, by simp [step, State.stepLoop, hs]⟩

theorem exists_call_step {index : Nat} {call : Call} (hcall : s.calls[index]? = some call)
    (hphase : call.phase ≠ .done) (hlock : s.holder = none ∨ call.phase.inside = true)
    : ∃ action, goesOn s action ∧ (step s action).isSome = true := by
  cases hs : call.phase with
  | lock =>
    have hfree : s.holder = none := by simpa [hs, Phase.inside] using hlock
    exact ⟨.call index, trivial, by simp [step, hcall, State.stepCall, hs, State.lock, hfree]⟩
  | work
  | unlock => exact ⟨.call index, trivial, by simp [step, hcall, State.stepCall, hs]⟩
  | done => exact absurd hs hphase

/-- No deadlock: whoever holds the lock can go on, and when nobody does anyone can. -/
theorem exists_goesOn (hs : Held s) (h : ¬Quiet s)
    : ∃ action, goesOn s action ∧ (step s action).isSome = true := by
  cases hholder : s.holder with
  | some activity =>
    have hinside := hs.holder activity hholder
    cases activity with
    | waitUntilStopped =>
      apply exists_loop_step _ (.inr hinside)
      unfold State.Inside at hinside
      unfold Loop.idling
      split
      . next heq => simp [heq, Loop.inside] at hinside
      . next heq => simp [heq, Loop.inside] at hinside
      . rfl
    | call index =>
      rcases hinside with ⟨call, hcall, hphase⟩
      apply exists_call_step hcall _ (.inr hphase)
      intro hdone
      simp [hdone, Phase.inside] at hphase
    | block index => exact absurd hinside id
  | none =>
    cases hloop : s.loop.idling with
    | false => exact exists_loop_step hloop (.inl hholder)
    | true =>
      have hcall : ∃ call ∈ s.calls, call.phase ≠ .done := by
        by_contra hnone
        push Not at hnone
        exact h ⟨hloop, hnone⟩
      rcases hcall with ⟨call, hmem, hphase⟩
      rcases List.mem_iff_getElem?.mp hmem with ⟨index, hindex⟩
      exact exists_call_step hindex hphase (.inl hholder)

/-! ## The return -/

structure AtRest (s : State) : Prop extends Quiet s where
  blocks : ∀ block ∈ s.blocks, block.phase = .unlocked

-- a step of the context itself, or of a block it has dispatched
def takesUp (s : State) : Action → Prop
  | .block index => unlocksLate s (.block index)
  | action => goesOn s action

theorem takesUp_of_goesOn {action : Action} (h : goesOn s action) : takesUp s action := by
  cases action with
  | block index => exact absurd h id
  | _ => exact h

theorem unlocksLate_of_takesUp (s : State) (action : Action) (h : takesUp s action)
    : unlocksLate s action := by
  cases action with
  | block index => exact h
  | _ => trivial

theorem exists_takesUp (hs : Held s) (hidle : s.loop = .idle → s.blocks = []) (h : ¬AtRest s)
    : ∃ action, takesUp s action ∧ (step s action).isSome = true := by
  by_cases hquiet : Quiet s
  . have hblock : ∃ block ∈ s.blocks, block.phase ≠ .unlocked := by
      by_contra hnone
      push Not at hnone
      exact h ⟨hquiet, hnone⟩
    rcases hblock with ⟨block, hmem, hphase⟩
    rcases List.mem_iff_getElem?.mp hmem with ⟨index, hindex⟩
    have hreturned : s.loop = .returned := by
      cases hloop : s.loop with
      | returned => rfl
      | idle => simp [hidle hloop] at hmem
      | _ =>
        have := hquiet.loop
        simp [hloop, Loop.idling] at this
    refine ⟨.block index, fun _ => hreturned, ?_⟩
    cases hs : block.phase with
    | unlocked => exact absurd hs hphase
    | _ => simp [step, hindex, State.stepBlock, hs]
  . rcases exists_goesOn hs hquiet with ⟨action, hok, hstep⟩
    exact ⟨action, takesUp_of_goesOn hok, hstep⟩

theorem cost_takesUp {action : Action} (h : takesUp s action)
    : cost s action = 1 ∧ gain s action = 0 := by
  cases action with
  | enter method
  | waitUntilStopped => exact absurd h id
  | _ => exact ⟨rfl, rfl⟩

theorem spends {work : State → Action → Prop} (hwork : ∀ s action, work s action → takesUp s action)
    : budget.Spends fun s action => reachable s action ∧ work s action where
  ok := fun _ _ h => h.1
  cost := by
    intro s action t h _
    exact (cost_takesUp (hwork s action h.2)).1.ge
  gain := by
    intro s action h
    exact (cost_takesUp (hwork s action h.2)).2

theorem along_reachable {work : State → Action → Prop} {as : List Action}
    (hs : machine.Reachable System.free s) (h : machine.Along work s as)
    : machine.Along (fun s action => reachable s action ∧ work s action) s as :=
  (reachable_of_exec hs).and h fun _ _ hreachable hwork => ⟨hreachable, hwork⟩

theorem idle_step {action : Action} (h : step s action = some s') (hloop : s'.loop = .idle)
    : s.loop = .idle := by
  unfold step at h
  cases action with
  | enter method =>
    dsimp only at h
    rw [← Option.some.inj h] at hloop
    exact hloop
  | waitUntilStopped =>
    dsimp only at h
    split at h
    . next hidle => exact hidle
    . contradiction
  | call index =>
    dsimp only at h
    split at h
    . rw [← (stepCall_frame h).1, hloop]
    . contradiction
  | loop =>
    cases loopStep_of_stepLoop h with
    | lock next hnext _ =>
      rcases Loop.locked_cases hnext with ⟨_, rfl⟩ | ⟨_, rfl⟩ | ⟨_, rfl⟩ | ⟨_, rfl⟩
      all_goals contradiction
    | unlock next hnext =>
      rcases Loop.unlocked_cases hnext with ⟨_, rfl⟩ | ⟨_, _, rfl⟩ | ⟨_, rfl⟩ | ⟨_, rfl⟩
      all_goals contradiction
    | _ => contradiction
  | enumerate keys =>
    dsimp only at h
    split at h
    . split at h
      . rw [← Option.some.inj h] at hloop
        contradiction
      . contradiction
    . contradiction
  | block index =>
    dsimp only at h
    split at h
    . rw [← (stepBlock_frame h).1, hloop]
    . contradiction

theorem blocks_of_idle (h : machine.Reachable ok s) : s.loop = .idle → s.blocks = [] := by
  apply h.invariant
  . exact fun _ => rfl
  . intro t action u _ ih _ hstep hloop
    have hidle := idle_step hstep hloop
    cases step_data hstep with
    | keep _ _ handed _
    | append _ _ _ _ _ _ _ _ _ handed _ => simpa [State.handed, ih hidle] using handed
    | dispatch _ _ _ _ hrunnables _ _ _ _ _
    | remove _ _ _ hrunnables _ _ _ _ _ =>
      rw [hidle] at hrunnables
      contradiction

-- nobody changes the dictionary while the loop goes through its arrays
theorem call_keeps_queue (h : machine.Reachable unlocksLate s) (hloop : s.loop.enumerating = true)
    {index : Nat} (hstep : step s (.call index) = some s') : s'.queue = s.queue := by
  simp only [step] at hstep
  split at hstep
  . next call hcall =>
    have hframe := (stepCall_frame hstep).1
    cases stepCall_data hcall hstep with
    | keep queue _ _ _ => exact queue
    | append _ _ _ _ hfound hwork _ _ _ _ _ =>
      exact absurd hwork (not_appending (fun _ _ h => h) h hloop (List.mem_of_getElem? hfound))
    | dispatch _ _ _ _ heq _ _ _ _ heq'
    | remove _ _ _ heq _ _ _ _ heq' =>
      rw [hframe, heq] at heq'
      simp at heq'
  . contradiction

structure Returns (s : State) : Prop where
  undisturbed : s.loop.enumerating = true → ∀ index t, step s (.call index) = some t →
    t.queue = s.queue
  bounded : ∀ as t, machine.exec s as = some t → machine.Along takesUp s as →
    as.length + t.left ≤ s.left
  ends : ∀ as t, machine.exec s as = some t → machine.Along takesUp s as →
    (∀ action, takesUp t action → step t action = none) → AtRest t
  returns : s.loop ≠ .idle → ∃ as t, machine.exec s as = some t ∧ machine.Along goesOn s as
    ∧ t.loop = .returned ∧ ∀ call ∈ t.calls, call.phase = .done

theorem always_returns (hs : machine.Reachable unlocksLate s) : Returns s where
  undisturbed := fun hloop _ _ hstep => call_keeps_queue hs hloop hstep
  bounded := by
    intro as t hexec halong
    exact (spends fun _ _ h => h).length_le (along_reachable hs.free halong) hexec
  ends := by
    intro as t hexec halong hstuck
    have ht : machine.Reachable unlocksLate t :=
      hs.trans (System.steps_of_exec hexec (halong.mono unlocksLate_of_takesUp))
    by_contra hrest
    rcases exists_takesUp (held_of_reachable ht) (blocks_of_idle ht) hrest with
      ⟨action, hok, hstep⟩
    rw [hstuck action hok] at hstep
    contradiction
  returns := by
    intro hloop
    have hrests := (spends fun _ _ h => takesUp_of_goesOn h).comes_to_rest
      (fun t => machine.Reachable System.free t ∧ t.loop ≠ .idle) Quiet ?_ ?_ ⟨hs.free, hloop⟩
    . rcases hrests with ⟨as, t, hexec, halong, ht, hquiet⟩
      refine ⟨as, t, hexec, halong.mono fun _ _ h => h.2, ?_, hquiet.calls⟩
      have hidling := hquiet.loop
      unfold Loop.idling at hidling
      split at hidling
      . next heq => exact absurd heq ht.2
      . next heq => exact heq
      . contradiction
    . intro t action u ht hok hstep
      exact ⟨.step ht.1 trivial hstep, fun hidle => ht.2 (idle_step hstep hidle)⟩
    . intro t ht hquiet
      rcases exists_goesOn (held_of_reachable ht.1) hquiet with ⟨action, hok, hstep⟩
      rcases Option.isSome_iff_exists.mp hstep with ⟨u, hu⟩
      exact ⟨action, u, ⟨ht.1, hok⟩, hu⟩

-- the block has run its Runnable before the return, but not yet unlocked
def ranActions : List Action :=
  passActions ++ [.block 0]

theorem ranActions_exec : (machine.exec machine.init ranActions).isSome = true := by
  decide +kernel

def ran : State :=
  (machine.exec machine.init ranActions).get ranActions_exec

theorem always_returns_ran : Returns ran :=
  always_returns (System.reachable_exec ranActions_exec (by decide +kernel))

end LGExecutionContextObjc
end LedgerApp
