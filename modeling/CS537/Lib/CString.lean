import Mathlib.Data.List.Basic
import Mathlib.Data.List.TakeWhile
import Mathlib.Order.Lattice

/-!
# C strings

A C string is a list of bytes none of which is the terminator. `strcmp` is the
library function: the difference of the first two bytes that differ, read as
`unsigned char`, with the terminator counted as a byte of each string. Its sign is a linear
order.
-/

/-- The bytes of a C string, without its terminator. -/
structure CString where
  bytes : List UInt8
  noNul : 0 ∉ bytes
  deriving DecidableEq, Repr

namespace CString

@[ext] theorem ext {a b : CString} (h : a.bytes = b.bytes) : a = b := by
  cases a; cases b; cases h; rfl

/-- The string a buffer holds: the bytes before the first terminator. -/
def ofBuffer (buffer : List UInt8) : CString where
  bytes := buffer.takeWhile (· ≠ 0)
  noNul := by
    intro h
    simpa using List.mem_takeWhile_imp h

@[simp] theorem ofBuffer_bytes {buffer : List UInt8} (h : 0 ∉ buffer) :
    (ofBuffer buffer).bytes = buffer := by
  apply List.takeWhile_eq_self_iff.mpr
  intro b hb
  simpa using ne_of_mem_of_not_mem hb h

theorem ofBuffer_terminated {bytes rest : List UInt8} (h : 0 ∉ bytes) :
    (ofBuffer (bytes ++ 0 :: rest)).bytes = bytes := by
  change (bytes ++ 0 :: rest).takeWhile (· ≠ 0) = bytes
  rw [List.takeWhile_append_of_pos]
  · simp
  · intro b hb
    simpa using ne_of_mem_of_not_mem hb h

/-- `strchr`: the offset of the first byte `c`; the terminator is one of the bytes. -/
def strchr (s : CString) (c : UInt8) : Option Nat := (s.bytes ++ [0]).idxOf? c

theorem strchr_eq_none {s : CString} {c : UInt8} (hc : c ≠ 0) :
    s.strchr c = none ↔ c ∉ s.bytes := by
  rw [strchr, List.idxOf?_eq_none_iff, List.mem_append, List.mem_singleton, or_iff_left hc]

/-- `strcmp` on the bytes before the terminators. -/
def cmpBytes : List UInt8 → List UInt8 → Int
  | [], [] => 0
  | [], b :: _ => -(b.toNat : Int)
  | a :: _, [] => (a.toNat : Int)
  | a :: as, b :: bs =>
      if a = b then cmpBytes as bs else (a.toNat : Int) - (b.toNat : Int)

/-- `strcmp`. -/
def strcmp (a b : CString) : Int := cmpBytes a.bytes b.bytes

private theorem toNat_pos {b : UInt8} (h : ¬ 0 = b) : 0 < b.toNat := by
  rcases Nat.eq_zero_or_pos b.toNat with h0 | h0
  · exact absurd (UInt8.toNat_inj.mp (by simpa using h0.symm)) h
  · exact h0

private theorem toNat_ne {a b : UInt8} (h : ¬ a = b) : a.toNat ≠ b.toNat :=
  fun h' => h (UInt8.toNat_inj.mp h')

theorem cmpBytes_self (as : List UInt8) : cmpBytes as as = 0 := by
  induction as with
  | nil => rfl
  | cons a as ih => simp [cmpBytes, ih]

theorem cmpBytes_eq_zero : ∀ {as bs : List UInt8}, 0 ∉ as → 0 ∉ bs →
    cmpBytes as bs = 0 → as = bs
  | [], [], _, _, _ => rfl
  | [], b :: bs, _, hb, h => by
      have := toNat_pos (List.ne_of_not_mem_cons hb)
      simp only [cmpBytes] at h
      omega
  | a :: as, [], ha, _, h => by
      have := toNat_pos (List.ne_of_not_mem_cons ha)
      simp only [cmpBytes] at h
      omega
  | a :: as, b :: bs, ha, hb, h => by
      simp only [cmpBytes] at h
      split at h
      · rename_i hab
        rw [hab, cmpBytes_eq_zero (List.not_mem_of_not_mem_cons ha) (List.not_mem_of_not_mem_cons hb) h]
      · rename_i hab
        have := toNat_ne hab
        omega

theorem cmpBytes_neg : ∀ as bs : List UInt8, cmpBytes bs as = - cmpBytes as bs
  | [], [] => rfl
  | [], b :: bs => by simp [cmpBytes]
  | a :: as, [] => by simp [cmpBytes]
  | a :: as, b :: bs => by
      by_cases hab : a = b
      · simp [cmpBytes, hab, cmpBytes_neg as bs]
      · simp only [cmpBytes, if_neg hab, if_neg (Ne.symm hab)]; omega

theorem cmpBytes_trans : ∀ {as bs cs : List UInt8}, 0 ∉ as → 0 ∉ bs →
    cmpBytes as bs ≤ 0 → cmpBytes bs cs ≤ 0 → cmpBytes as cs ≤ 0
  | [], _, [], _, _, _, _ => by simp [cmpBytes]
  | [], _, c :: cs, _, _, _, _ => by simp [cmpBytes]
  | a :: as, [], cs, ha, _, h, _ => by
      have := toNat_pos (List.ne_of_not_mem_cons ha)
      simp only [cmpBytes] at h
      omega
  | a :: as, b :: bs, [], _, hb, _, h' => by
      have := toNat_pos (List.ne_of_not_mem_cons hb)
      simp only [cmpBytes] at h'
      omega
  | a :: as, b :: bs, c :: cs, ha, hb, h, h' => by
      simp only [cmpBytes] at h h' ⊢
      by_cases hab : a = b
      · subst hab
        by_cases hac : a = c
        · simp only [hac, ite_true] at h h' ⊢
          exact cmpBytes_trans (List.not_mem_of_not_mem_cons ha) (List.not_mem_of_not_mem_cons hb) h h'
        · simpa [hac] using h'
      · by_cases hbc : b = c
        · subst hbc
          simpa [hab] using h
        · have h1 := toNat_ne hab
          have h2 := toNat_ne hbc
          simp only [hab, hbc, ite_false] at h h'
          have hac : a ≠ c := by
            rintro rfl
            omega
          simp only [hac, ite_false]
          omega

@[simp] theorem strcmp_self (a : CString) : a.strcmp a = 0 := cmpBytes_self a.bytes

/-- `strcmp` tells different strings apart. -/
@[simp] theorem strcmp_eq_zero {a b : CString} : a.strcmp b = 0 ↔ a = b := by
  constructor
  · intro h
    exact CString.ext (cmpBytes_eq_zero a.noNul b.noNul h)
  · rintro rfl
    exact strcmp_self a

theorem strcmp_neg (a b : CString) : b.strcmp a = - a.strcmp b :=
  cmpBytes_neg a.bytes b.bytes

theorem strcmp_trans {a b c : CString} (h : a.strcmp b ≤ 0) (h' : b.strcmp c ≤ 0) :
    a.strcmp c ≤ 0 :=
  cmpBytes_trans a.noNul b.noNul h h'

theorem strcmp_antisymm {a b : CString} (h : a.strcmp b ≤ 0) (h' : b.strcmp a ≤ 0) :
    a = b := by
  rw [strcmp_neg a b] at h'
  exact strcmp_eq_zero.mp (by omega)

/-- The order `strcmp` sorts by. -/
instance : LinearOrder CString where
  le a b := a.strcmp b ≤ 0
  lt a b := a.strcmp b < 0
  le_refl a := by simp
  le_trans _ _ _ := strcmp_trans
  le_antisymm _ _ := strcmp_antisymm
  lt_iff_le_not_ge a b := by
    rw [strcmp_neg a b]
    constructor <;> intro h <;> omega
  le_total a b := by
    rw [strcmp_neg a b]
    omega
  toDecidableLE a b := inferInstanceAs (Decidable (a.strcmp b ≤ 0))
  toDecidableLT a b := inferInstanceAs (Decidable (a.strcmp b < 0))
  toDecidableEq := inferInstance

end CString
