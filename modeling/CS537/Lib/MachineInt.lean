/-!
# Machine integers

Wrap-around on `Nat` and `Int`. `u32` is a C `unsigned int`, `u64` a C `size_t`
or `unsigned long`, `i32` a C `int` in two's complement; `toU32` and `toU64`
are the conversions of an `int` that C makes when it compares one with an
unsigned operand.

All are written with literal moduli, so that `omega` sees through them.
-/

namespace MachineInt

/-- The value of an `unsigned int` expression. -/
def u32 (n : Nat) : Nat := n % 4294967296

/-- The value of a `size_t` expression. -/
def u64 (n : Nat) : Nat := n % 18446744073709551616

/-- The value of an `int` expression that wraps. -/
def i32 (z : Int) : Int := (z + 2147483648) % 4294967296 - 2147483648

/-- An `unsigned int` converted to `int`. -/
def s32 (n : Nat) : Int :=
  if u32 n < 2147483648 then (u32 n : Int) else (u32 n : Int) - 4294967296

/-- An `int` converted to `unsigned int`. -/
def toU32 (z : Int) : Nat := (z % 4294967296).toNat

/-- An `int` converted to `size_t`. -/
def toU64 (z : Int) : Nat := (z % 18446744073709551616).toNat

theorem u32_of_lt {n : Nat} (h : n < 4294967296) : u32 n = n := by
  unfold u32; omega

theorem i32_bounds (z : Int) : -2147483648 ≤ i32 z ∧ i32 z < 2147483648 := by
  unfold i32; omega

theorem i32_of_mem {z : Int} (h1 : -2147483648 ≤ z) (h2 : z < 2147483648) :
    i32 z = z := by
  unfold i32; omega

/-- A wrapped value is positive exactly when its residue is a positive `int`. -/
theorem i32_pos_iff (z : Int) :
    0 < i32 z ↔ 0 < z % 4294967296 ∧ z % 4294967296 < 2147483648 := by
  unfold i32; omega

/-- A positive `int` is unchanged by the conversion. -/
theorem toU32_of_nonneg {z : Int} (h : 0 ≤ z) (h2 : z < 2147483648) :
    (toU32 z : Int) = z := by
  unfold toU32; omega

theorem u64_of_lt {n : Nat} (h : n < 18446744073709551616) : u64 n = n := by
  unfold u64; omega

theorem toU64_natCast {n : Nat} (h : n < 18446744073709551616) : toU64 (n : Int) = n := by
  unfold toU64; omega

end MachineInt
