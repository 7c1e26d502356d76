import Mathlib.Order.Basic

/-!
# Strides

Places that follow each other at distances that the places themselves give. A walk of
short strides over the places of a walk of long ones comes to each of them exactly if
it tiles the way from each to the next.
-/

namespace Strides

/-- From `a` the strides come to `b`. -/
inductive Tiles (next : Nat → Nat) : Nat → Nat → Prop
  | nil (a : Nat) : Tiles next a a
  | cons {a b : Nat} (h : Tiles next (a + next a) b) : Tiles next a b

variable {next : Nat → Nat} {a b c : Nat}

theorem Tiles.le (h : Tiles next a b) : a ≤ b := by
  induction h with
  | nil a => exact Nat.le_refl a
  | cons _ ih => exact Nat.le_trans (Nat.le_add_right _ _) ih

theorem Tiles.trans (h : Tiles next a b) (h' : Tiles next b c) : Tiles next a c := by
  induction h with
  | nil a => exact h'
  | cons _ ih => exact .cons (ih h')

/-- Of two places on one walk the second is reached from the first. -/
theorem Tiles.split (h : Tiles next a b) (h' : Tiles next a c) (hle : b ≤ c) :
    Tiles next b c := by
  induction h with
  | nil a => exact h'
  | @cons a b h ih =>
      cases h' with
      | nil =>
          have heq : b = c := Nat.le_antisymm hle (Tiles.cons h).le
          rw [heq]
          exact .nil c
      | cons h' => exact ih h' hle

/-- The first stride of a walk that goes on. -/
theorem Tiles.tail (h : Tiles next a b) (hne : a ≠ b) : Tiles next (a + next a) b := by
  cases h with
  | nil => exact absurd rfl hne
  | cons h => exact h

section TwoWalks

variable {long short : Nat → Nat} {limit : Nat}

/-- The walk of short strides meets every place of the long ones below `limit` exactly if
it tiles each long stride that ends below it. -/
theorem meets_all_iff (a : Nat) :
    (∀ b, Tiles long a b → b < limit → Tiles short a b) ↔
      ∀ b, Tiles long a b → b + long b < limit → Tiles short b (b + long b) := by
  constructor
  · intro h b hb hlt
    have hfirst := h b hb (Nat.lt_of_le_of_lt (Nat.le_add_right b _) hlt)
    have hsecond := h (b + long b) (hb.trans (.cons (.nil _))) hlt
    exact hfirst.split hsecond (Nat.le_add_right b _)
  · intro h b hb hlt
    induction hb with
    | nil a => exact .nil a
    | @cons a b hb ih =>
        have hstep := h a (.nil a) (Nat.lt_of_le_of_lt hb.le hlt)
        exact hstep.trans (ih (fun c hc => h c (.cons hc)) hlt)

end TwoWalks

end Strides
