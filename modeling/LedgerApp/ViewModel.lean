import LedgerApp.Client

/-!
The list of transactions behind an `int32_t` interface. `count` narrows the size of the vector, and
`getTransaction` hands its signed index to the vector without a check.
-/

namespace LedgerApp
namespace TransactionListVm

variable {vm : TransactionListVm} {index : Int32}

theorem toInt_count (h : vm.transactions.length < 2 ^ 31)
    : vm.count.toInt = vm.transactions.length :=
  Int32.toInt_ofNat_of_lt h

theorem getTransaction_ofNat {i : Nat} {cell : TransactionListVmCell} (h : i < 2 ^ 31)
    (hcell : vm.transactions[i]? = some cell)
    : vm.getTransaction (Int32.ofNat i) = some (some cell) := by
  have hle : (i : Int) ≤ Int32.maxValue.toInt := by
    have : Int32.maxValue.toInt = 2147483647 := by decide
    omega
  have hindex : (Int32.ofNat i).toInt64.toUInt64.toNat = i := by
    rw [Int32.toInt64_ofNat' hle, Int64.toUInt64_ofNat', UInt64.toNat_ofNat']
    omega
  rw [getTransaction, hindex, hcell]

theorem ofNat_toNat_toInt (h : 0 ≤ index.toInt) : Int32.ofNat index.toInt.toNat = index := by
  rw [← Int32.ofInt_eq_ofNat, Int.toNat_of_nonneg h, Int32.ofInt_toInt]

theorem getTransaction_ne_disengaged : vm.getTransaction index ≠ some none := by
  unfold getTransaction
  split
  . simp
  . simp

def InRange (vm : TransactionListVm) (index : Int32) : Prop :=
  0 ≤ index.toInt ∧ index.toInt < vm.count.toInt

instance : Decidable (vm.InRange index) :=
  inferInstanceAs (Decidable (0 ≤ index.toInt ∧ index.toInt < vm.count.toInt))

-- what the interface promises of one index, and of the enumeration from 0 to `count() - 1`
structure Enumerates (vm : TransactionListVm) (index : Int32) : Prop where
  count_nonneg : 0 ≤ vm.count.toInt
  count_eq : vm.count.toInt = vm.transactions.length
  engaged : (∃ cell, vm.getTransaction index = some (some cell)) ↔ vm.InRange index
  disengaged : ¬vm.InRange index → vm.getTransaction index = some none
  in_order : (List.range vm.count.toInt.toNat).map (fun i => vm.getTransaction (Int32.ofNat i))
    = vm.transactions.map fun cell => some (some cell)

theorem map_getTransaction (h : vm.transactions.length < 2 ^ 31)
    : (List.range vm.count.toInt.toNat).map (fun i => vm.getTransaction (Int32.ofNat i))
        = vm.transactions.map fun cell => some (some cell) := by
  rw [toInt_count h, Int.toNat_natCast]
  apply List.ext_getElem
  . simp
  . intro i hi hi'
    rw [List.length_map] at hi'
    rw [List.getElem_map, List.getElem_map, List.getElem_range]
    exact getTransaction_ofNat (by omega) (List.getElem?_eq_getElem hi')

theorem engaged_of_inRange (h : vm.transactions.length < 2 ^ 31) (hindex : vm.InRange index)
    : ∃ cell, vm.getTransaction index = some (some cell) := by
  have hlt : index.toInt.toNat < vm.transactions.length := by
    have := toInt_count h
    have := hindex.1
    have := hindex.2
    omega
  rw [← ofNat_toNat_toInt hindex.1]
  exact ⟨_, getTransaction_ofNat (by omega) (List.getElem?_eq_getElem hlt)⟩

theorem enumerates_iff (vm : TransactionListVm) (index : Int32)
    : vm.Enumerates index ↔
        vm.transactions.length < 2 ^ 31 ∧ 0 ≤ index.toInt
          ∧ index.toInt < vm.transactions.length := by
  constructor
  . intro h
    have hrange : vm.InRange index := by
      by_contra hout
      exact getTransaction_ne_disengaged (h.disengaged hout)
    have hcount := h.count_eq
    have hmax := vm.count.toInt_lt
    refine ⟨?_, hrange.1, ?_⟩
    . omega
    . rw [← hcount]
      exact hrange.2
  . rintro ⟨hlen, hnonneg, hlt⟩
    have hcount := toInt_count hlen
    have hrange : vm.InRange index := by
      constructor
      . exact hnonneg
      . rw [hcount]
        exact hlt
    exact {
      count_nonneg := by omega
      count_eq := hcount
      engaged := ⟨fun _ => hrange, fun _ => engaged_of_inRange hlen hrange⟩
      disengaged := fun hout => absurd hrange hout
      in_order := map_getTransaction hlen
    }

def empty : TransactionListVm where
  transactions := []
  handle := 0

theorem not_enumerates_empty : ¬empty.Enumerates (-1) := by
  intro h
  exact getTransaction_ne_disengaged (h.disengaged (by decide))

end TransactionListVm
end LedgerApp
