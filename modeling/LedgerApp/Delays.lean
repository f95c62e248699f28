import LedgerApp.Conservation

/-!
The delays that reach `dispatch_after`. The key of a delay reads back as the same number of
milliseconds, but a thousandth of it is passed on as a number of nanoseconds.
-/

namespace LedgerApp
namespace LGExecutionContextObjc

variable {s s' : State}

-- the delays are not negative, and fit in 64 bits as nanoseconds
def inRange (_ : State) : Action → Prop
  | .enter (.delay _ millis) => 0 ≤ millis.toInt ∧ millis.toInt * 10 ^ 6 < 2 ^ 63
  | _ => True

instance (s : State) (action : Action) : Decidable (inRange s action) := by
  unfold inRange
  split
  . infer_instance
  . infer_instance

structure Honoured (s : State) : Prop where
  read_back : ∀ block ∈ s.blocks, ∀ millis, block.key = stringValue millis →
    longLongValue block.key = millis
  deadline : ∀ block ∈ s.blocks, ∀ millis, block.key = stringValue millis →
    millis.toInt * 10 ^ 6 ≤ block.offset.toInt
  ordered : ∀ block ∈ s.blocks, ∀ block' ∈ s.blocks, block.pass = block'.pass →
    ∀ millis millis', block.key = stringValue millis → block'.key = stringValue millis' →
      millis.toInt < millis'.toInt → block.offset.toInt < block'.offset.toInt

def NoDelay (s : State) : Prop :=
  ∀ block ∈ s.blocks, ∀ millis, block.key = stringValue millis → millis = 0

theorem toInt_offset {millis : Int64} (h : 0 ≤ millis.toInt)
    : (offset (stringValue millis)).toInt = millis.toInt / 1000 := by
  rw [offset, longLongValue_stringValue, Int64.toInt_div_of_ne_right _ _ (by decide),
    Int.tdiv_eq_ediv_of_nonneg h]
  rfl

structure NonNegative (s : State) : Prop where
  calls : ∀ runnable millis, .delay runnable millis ∈ s.methods → 0 ≤ millis.toInt
  accepted : ∀ added ∈ s.accepted, 0 ≤ added.1.toInt

theorem NonNegative.step {action : Action} (hinv : NonNegative s) (hok : inRange s action)
    (h : LGExecutionContextObjc.step s action = some s') : NonNegative s' := by
  constructor
  . intro runnable millis hmem
    rcases step_methods h with hmethods | ⟨method, rfl, hmethods⟩
    . rw [hmethods] at hmem
      exact hinv.calls runnable millis hmem
    . rw [hmethods, List.mem_append, List.mem_singleton] at hmem
      rcases hmem with hmem | rfl
      . exact hinv.calls runnable millis hmem
      . exact hok.1
  . intro added hadded
    cases step_data h with
    | keep _ accepted _ _
    | dispatch _ _ _ _ _ _ _ accepted _ _
    | remove _ _ _ _ _ _ accepted _ _ =>
      rw [accepted] at hadded
      exact hinv.accepted added hadded
    | append index call runnable millis hcall _ hmethod _ accepted _ _ =>
      rw [accepted, List.mem_append, List.mem_singleton] at hadded
      rcases hadded with hadded | rfl
      . exact hinv.accepted added hadded
      . apply hinv.calls runnable
        rw [← hmethod]
        exact List.mem_map_of_mem (List.mem_of_getElem? hcall)

theorem nonNegative_of_reachable (h : machine.Reachable inRange s) : NonNegative s := by
  apply h.invariant
  . constructor
    . intro runnable millis hmem
      simp [machine, State.init, State.methods] at hmem
    . intro added hadded
      simp [machine, State.init] at hadded
  . intro t action u _ ih hok hstep
    exact ih.step hok hstep

theorem offset_of_block (h : machine.Reachable inRange s) {block : Block} (hblock : block ∈ s.blocks)
    {millis : Int64} (hkey : block.key = stringValue millis)
    : 0 ≤ millis.toInt ∧ block.offset.toInt = millis.toInt / 1000 := by
  have hhanded := (keyed_of_reachable h).handed block.handed (List.mem_map_of_mem hblock)
  rcases hhanded with ⟨⟨added, hadded, heq⟩, hoffset⟩
  have hsame : millis = added.1 := stringValue_injective (hkey.symm.trans heq)
  have hnonneg : 0 ≤ millis.toInt := by
    rw [hsame]
    exact (nonNegative_of_reachable h).accepted added hadded
  refine ⟨hnonneg, ?_⟩
  have hoffset : block.offset = offset block.key := hoffset
  rw [hoffset, hkey, toInt_offset hnonneg]

theorem honoured_iff (h : machine.Reachable inRange s) : Honoured s ↔ NoDelay s := by
  constructor
  . intro hhonoured block hblock millis hkey
    have hdeadline := hhonoured.deadline block hblock millis hkey
    rcases offset_of_block h hblock hkey with ⟨hnonneg, hoffset⟩
    have hzero : millis.toInt = 0 := by omega
    exact Int64.toInt_inj.mp hzero
  . intro hzero
    constructor
    . intro block _ millis hkey
      rw [hkey, longLongValue_stringValue]
    . intro block hblock millis hkey
      rcases offset_of_block h hblock hkey with ⟨_, hoffset⟩
      rw [hoffset, hzero block hblock millis hkey]
      decide
    . intro block hblock block' hblock' _ millis millis' hkey hkey' hlt
      rw [hzero block hblock millis hkey, hzero block' hblock' millis' hkey'] at hlt
      contradiction

theorem passActions_along : machine.Along inRange machine.init passActions := by
  decide +kernel

theorem honoured_iff_passed : Honoured passed ↔ NoDelay passed :=
  honoured_iff (System.reachable_exec passActions_exec passActions_along)

theorem not_always_honoured : ¬∀ s, machine.Reachable inRange s → Honoured s := by
  intro h
  have hhonoured := h passed (System.reachable_exec passActions_exec passActions_along)
  have hdeadline := hhonoured.deadline ⟨7, stringValue 1500, 1, 1, .pending⟩ (by decide +kernel)
    1500 rfl
  revert hdeadline
  decide

end LGExecutionContextObjc
end LedgerApp
