import Mathlib.Data.Multiset.Filter
import Mathlib.Data.Multiset.Range

/-!
# Inventories

What an array of `n` optional slots holds, as a multiset: nothing that is put
into an empty slot, taken out again or moved to another place is lost or doubled.
A multiset without duplicates says that each thing is in one place.
-/

namespace Inventory

variable {α : Type} {n : Nat} {g g' : Nat → Option α}

/-- What the slots below `n` hold. -/
def contents (n : Nat) (g : Nat → Option α) : Multiset α := (Multiset.range n).filterMap g

theorem mem_contents {a : α} : a ∈ contents n g ↔ ∃ i < n, g i = some a := by
  simp [contents, Multiset.mem_filterMap]

/-- What a set of slots holds depends on these slots only. -/
theorem filterMap_congr {s : Multiset Nat} (h : ∀ i ∈ s, g' i = g i) :
    s.filterMap g' = s.filterMap g := by
  induction s using Multiset.induction_on with
  | empty => rfl
  | cons i s ih =>
      rw [Multiset.filterMap_cons, Multiset.filterMap_cons, h i (Multiset.mem_cons_self i s),
        ih fun j hj => h j (Multiset.mem_cons_of_mem hj)]

/-- Slots that hold the same. -/
theorem contents_congr (h : ∀ i < n, g' i = g i) : contents n g' = contents n g :=
  filterMap_congr fun i hi => h i (Multiset.mem_range.mp hi)

/-- Slots that hold nothing. -/
theorem contents_none (h : ∀ i < n, g i = none) : contents n g = 0 := by
  rw [Multiset.eq_zero_iff_forall_notMem]
  intro a ha
  obtain ⟨i, hi, hg⟩ := mem_contents.mp ha
  rw [h i hi] at hg
  cases hg

/-- One slot apart from the others. -/
theorem contents_erase {i : Nat} (hi : i < n) (g : Nat → Option α) :
    contents n g = (i ::ₘ (Multiset.range n).erase i).filterMap g := by
  rw [Multiset.cons_erase (Multiset.mem_range.mpr hi), contents]

/-- Putting something into an empty slot. -/
theorem contents_put {i : Nat} {a : α} (hi : i < n) (hempty : g i = none)
    (hput : g' i = some a) (hothers : ∀ j < n, j ≠ i → g' j = g j) :
    contents n g' = a ::ₘ contents n g := by
  have hrest : ((Multiset.range n).erase i).filterMap g'
      = ((Multiset.range n).erase i).filterMap g := by
    apply filterMap_congr
    intro j hj
    have hmem := (Multiset.Nodup.mem_erase_iff (Multiset.nodup_range n)).mp hj
    exact hothers j (Multiset.mem_range.mp hmem.2) hmem.1
  rw [contents_erase hi g', contents_erase hi g, Multiset.filterMap_cons_some g' i _ hput,
    Multiset.filterMap_cons_none i _ hempty, hrest]

/-- In an inventory without duplicates a thing has one slot. -/
theorem contents_inj {i j : Nat} {a : α} (hnd : (contents n g).Nodup) (hi : i < n)
    (hj : j < n) (hgi : g i = some a) (hgj : g j = some a) : i = j := by
  by_contra hne
  rw [contents_erase hi g, Multiset.filterMap_cons_some g i _ hgi] at hnd
  apply (Multiset.nodup_cons.mp hnd).1
  rw [Multiset.mem_filterMap]
  refine ⟨j, ?_, hgj⟩
  exact (Multiset.Nodup.mem_erase_iff (Multiset.nodup_range n)).mpr
    ⟨fun h => hne h.symm, Multiset.mem_range.mpr hj⟩

end Inventory
