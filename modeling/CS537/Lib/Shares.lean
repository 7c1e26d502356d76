import Mathlib.Algebra.Ring.Nat
import Mathlib.Algebra.BigOperators.Group.List.Basic
import Mathlib.Order.Interval.Finset.Nat

/-!
# Proportional draws

A list of entries, each with a weight, laid out one after the other on the
numbers below the sum of the weights. `draw` finds the entry a number falls
to. Every entry gets as many numbers as it weighs (`card_draw`).
-/

namespace Shares

variable {α : Type}

/-- The entry whose stretch of numbers `v` lies in. -/
def draw (weight : α → Nat) : List α → Nat → Option α
  | [], _ => none
  | a :: l, v => if v < weight a then some a else draw weight l (v - weight a)

/-- The numbers there are to draw from. -/
def total (weight : α → Nat) (l : List α) : Nat := (l.map weight).sum

@[simp] theorem total_nil (weight : α → Nat) : total weight [] = 0 := rfl

@[simp] theorem total_cons (weight : α → Nat) (a : α) (l : List α) :
    total weight (a :: l) = weight a + total weight l := by
  simp [total]

theorem draw_mem {weight : α → Nat} {l : List α} {v : Nat} {a : α}
    (h : draw weight l v = some a) : a ∈ l ∧ 0 < weight a := by
  induction l generalizing v with
  | nil => cases h
  | cons b l ih =>
      rw [draw] at h
      split at h
      · cases h
        exact ⟨by simp, by omega⟩
      · obtain ⟨hm, hw⟩ := ih h
        exact ⟨List.mem_cons_of_mem _ hm, hw⟩

/-- Every other number draws something. -/
theorem draw_of_lt {weight : α → Nat} {l : List α} {v : Nat} (h : v < total weight l) :
    ∃ a, draw weight l v = some a := by
  induction l generalizing v with
  | nil => simp at h
  | cons b l ih =>
      rw [draw]
      split
      · exact ⟨b, rfl⟩
      · apply ih
        rw [total_cons] at h
        omega

variable [DecidableEq α]

/-- The numbers that draw `a`, counted from `base` on. -/
theorem card_draw_from (weight : α → Nat) (l : List α) (a : α) (hl : l.Nodup) (base : Nat) :
    ((Finset.Ico base (base + total weight l)).filter fun v =>
      draw weight l (v - base) = some a).card = if a ∈ l then weight a else 0 := by
  induction l generalizing base with
  | nil => simp
  | cons b l ih =>
      obtain ⟨hb, hnd⟩ := List.nodup_cons.mp hl
      -- the numbers of `b`, then the numbers of the rest
      have hsplit : Finset.Ico base (base + total weight (b :: l)) =
          Finset.Ico base (base + weight b) ∪
            Finset.Ico (base + weight b) (base + weight b + total weight l) := by
        rw [Finset.Ico_union_Ico_eq_Ico (by omega) (by omega), total_cons, Nat.add_assoc]
      have hfirst : (Finset.Ico base (base + weight b)).filter
          (fun v => draw weight (b :: l) (v - base) = some a) =
          if b = a then Finset.Ico base (base + weight b) else ∅ := by
        ext v
        rw [Finset.mem_filter, Finset.mem_Ico]
        by_cases hba : b = a
        · rw [if_pos hba, Finset.mem_Ico]
          constructor
          · exact fun h => h.1
          · intro h
            refine ⟨h, ?_⟩
            rw [draw, if_pos (by omega), hba]
        · rw [if_neg hba]
          constructor
          · intro h
            rw [draw, if_pos (by omega)] at h
            exact absurd (Option.some.inj h.2) hba
          · intro h
            simp at h
      have hrest : (Finset.Ico (base + weight b) (base + weight b + total weight l)).filter
          (fun v => draw weight (b :: l) (v - base) = some a) =
          (Finset.Ico (base + weight b) (base + weight b + total weight l)).filter
            (fun v => draw weight l (v - (base + weight b)) = some a) := by
        apply Finset.filter_congr
        intro v hv
        rw [Finset.mem_Ico] at hv
        rw [draw, if_neg (by omega), Nat.sub_sub]
      have hdisj : Disjoint (Finset.Ico base (base + weight b))
          (Finset.Ico (base + weight b) (base + weight b + total weight l)) := by
        rw [Finset.disjoint_left]
        intro v hv hv'
        rw [Finset.mem_Ico] at hv hv'
        omega
      rw [hsplit, Finset.filter_union, Finset.card_union_of_disjoint
        (Finset.disjoint_filter_filter hdisj), hfirst, hrest, ih hnd (base + weight b)]
      by_cases hba : b = a
      · subst hba
        rw [if_pos rfl, if_neg hb, if_pos (by simp), Nat.card_Ico]
        omega
      · have hmem : a ∈ b :: l ↔ a ∈ l := by simp [Ne.symm hba]
        rw [if_neg hba, Finset.card_empty, Nat.zero_add]
        simp only [hmem]

/-- **Fairness**: an entry is drawn by as many numbers as it weighs. -/
theorem card_draw (weight : α → Nat) {l : List α} (hl : l.Nodup) (a : α) :
    ((Finset.range (total weight l)).filter fun v => draw weight l v = some a).card =
      if a ∈ l then weight a else 0 := by
  have h := card_draw_from weight l a hl 0
  rw [Nat.zero_add] at h
  rw [Finset.range_eq_Ico]
  exact h

end Shares
