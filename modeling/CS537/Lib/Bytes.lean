import Mathlib.Algebra.Ring.Nat

/-!
# Bytes

Numbers in little-endian order inside a run of bytes, and writing over a part of
one.
-/

namespace Bytes

/-- The little-endian number of some bytes. -/
def ofLe (bytes : List UInt8) : Nat := bytes.foldr (fun b n => b.toNat + 256 * n) 0

/-- The number in the `size` bytes at an offset. -/
def field (bytes : List UInt8) (off size : Nat) : Nat := ofLe ((bytes.drop off).take size)

/-- `bytes` with `data` written over it from `off` on. -/
def overwrite (bytes : List UInt8) (off : Nat) (data : List UInt8) : List UInt8 :=
  bytes.take off ++ data ++ bytes.drop (off + data.length)

theorem ofLe_lt (bytes : List UInt8) : ofLe bytes < 256 ^ bytes.length := by
  induction bytes with
  | nil => exact Nat.one_pos
  | cons b bytes ih =>
      have hb := b.toNat_lt
      change b.toNat + 256 * ofLe bytes < 256 ^ (bytes.length + 1)
      rw [Nat.pow_succ]
      omega

theorem field_lt (bytes : List UInt8) (off size : Nat) : field bytes off size < 256 ^ size := by
  apply Nat.lt_of_lt_of_le (ofLe_lt _)
  apply Nat.pow_le_pow_right (by decide)
  exact List.length_take_le size _

theorem ofLe_zeros (n : Nat) : ofLe (List.replicate n 0) = 0 := by
  induction n with
  | zero => rfl
  | succ n ih =>
      show (0 : UInt8).toNat + 256 * ofLe (List.replicate n 0) = 0
      rw [ih]
      rfl

/-- A field that lies in the first part. -/
theorem field_append_left {a b : List UInt8} {off size : Nat} (h : off + size ≤ a.length) :
    field (a ++ b) off size = field a off size := by
  rw [field, field, List.drop_append_of_le_length (by omega),
    List.take_append_of_le_length (by rw [List.length_drop]; omega)]

theorem overwrite_nil (bytes : List UInt8) (off : Nat) : overwrite bytes off [] = bytes := by
  rw [overwrite, List.append_nil, List.length_nil, Nat.add_zero, List.take_append_drop]

/-- What is written right after something already written. -/
theorem overwrite_append (bytes : List UInt8) (off : Nat) (d d' : List UInt8) :
    overwrite (overwrite bytes off d) (off + d.length) d' = overwrite bytes off (d ++ d') := by
  have hrest : overwrite bytes off (d ++ d') =
      bytes.take off ++ d ++ d' ++ bytes.drop (off + d.length + d'.length) := by
    rw [overwrite, List.length_append, List.append_assoc _ d, Nat.add_assoc]
  rw [hrest, overwrite, overwrite]
  by_cases hoff : off ≤ bytes.length
  · have hlen : (bytes.take off ++ d).length = off + d.length := by
      rw [List.length_append, List.length_take, Nat.min_eq_left hoff]
    rw [List.take_left' hlen, ← List.drop_drop, List.drop_left' hlen, List.drop_drop]
  · have hlen : (bytes.take off ++ d).length ≤ off + d.length := by
      rw [List.length_append, List.length_take]
      omega
    rw [List.drop_eq_nil_of_le (by omega : bytes.length ≤ off + d.length), List.append_nil,
      List.take_of_length_le hlen, List.drop_eq_nil_of_le (by omega),
      List.drop_eq_nil_of_le (by omega)]

/-! ## Words in memory -/

/-- A 32-bit word stored at an address. -/
def putWord (mem : Nat → UInt8) (addr word : Nat) : Nat → UInt8 := fun a =>
  if addr ≤ a ∧ a < addr + 4 then UInt8.ofNat (word / 256 ^ (a - addr)) else mem a

/-- The word at an address. -/
def getWord (mem : Nat → UInt8) (addr : Nat) : Nat :=
  ofLe [mem addr, mem (addr + 1), mem (addr + 2), mem (addr + 3)]

theorem putWord_inside {mem : Nat → UInt8} {addr word i : Nat} (h : i < 4) :
    putWord mem addr word (addr + i) = UInt8.ofNat (word / 256 ^ i) := by
  rw [putWord, if_pos (by omega), Nat.add_sub_cancel_left]

theorem putWord_outside {mem : Nat → UInt8} {addr word a : Nat} (h : ¬ (addr ≤ a ∧ a < addr + 4)) :
    putWord mem addr word a = mem a := if_neg h

/-- A word reads back as it was stored. -/
theorem getWord_putWord (mem : Nat → UInt8) (addr : Nat) {word : Nat} (h : word < 4294967296) :
    getWord (putWord mem addr word) addr = word := by
  have hbyte : ∀ i < 4, (putWord mem addr word (addr + i)).toNat = word / 256 ^ i % 256 := by
    intro i hi
    rw [putWord_inside hi, UInt8.toNat_ofNat']
  have h0 := hbyte 0 (by omega)
  have h1 := hbyte 1 (by omega)
  have h2 := hbyte 2 (by omega)
  have h3 := hbyte 3 (by omega)
  rw [Nat.add_zero] at h0
  simp only [getWord, ofLe, List.foldr_cons, List.foldr_nil, h0, h1, h2, h3]
  omega

/-- A store elsewhere leaves the word as it was. -/
theorem getWord_congr {mem mem' : Nat → UInt8} {addr : Nat}
    (h : ∀ i < 4, mem' (addr + i) = mem (addr + i)) : getWord mem' addr = getWord mem addr := by
  have h0 := h 0 (by omega)
  have h1 := h 1 (by omega)
  have h2 := h 2 (by omega)
  have h3 := h 3 (by omega)
  rw [Nat.add_zero] at h0
  simp only [getWord, h0, h1, h2, h3]

/-! ## Runs of bytes in memory -/

/-- Memory with some bytes stored from an address on. -/
def store (mem : Nat → UInt8) (addr : Nat) (bytes : List UInt8) : Nat → UInt8 := fun a =>
  if addr ≤ a then bytes.getD (a - addr) (mem a) else mem a

theorem store_nil (mem : Nat → UInt8) (addr : Nat) : store mem addr [] = mem := by
  funext a
  unfold store
  split <;> rfl

theorem store_outside {mem : Nat → UInt8} {addr a : Nat} {bytes : List UInt8}
    (h : ¬ (addr ≤ a ∧ a < addr + bytes.length)) : store mem addr bytes a = mem a := by
  unfold store
  split
  · rw [List.getD_eq_getElem?_getD, List.getElem?_eq_none (by omega)]
    rfl
  · rfl

/-- One run after the other. -/
theorem store_append (mem : Nat → UInt8) (addr : Nat) (bytes bytes' : List UInt8) :
    store mem addr (bytes ++ bytes') =
      store (store mem addr bytes) (addr + bytes.length) bytes' := by
  funext a
  unfold store
  by_cases hlow : addr ≤ a
  · rw [if_pos hlow]
    by_cases hin : a - addr < bytes.length
    · rw [if_neg (by omega), if_pos hlow, List.getD_eq_getElem?_getD,
        List.getD_eq_getElem?_getD, List.getElem?_append_left hin]
    · have hshift : a - addr - bytes.length = a - (addr + bytes.length) := by omega
      have hdefault : bytes.getD (a - addr) (mem a) = mem a := by
        rw [List.getD_eq_getElem?_getD, List.getElem?_eq_none (by omega)]
        rfl
      rw [if_pos (by omega), if_pos hlow, hdefault, List.getD_eq_getElem?_getD,
        List.getD_eq_getElem?_getD, List.getElem?_append_right (by omega), hshift]
  · rw [if_neg hlow, if_neg (by omega), if_neg hlow]

/-! ## The bytes of a string -/

theorem toList_loop (bytes : ByteArray) (i : Nat) (r : List UInt8) :
    ByteArray.toList.loop bytes i r = r.reverse ++ bytes.data.toList.drop i := by
  fun_induction ByteArray.toList.loop bytes i r with
  | case1 i r hi ih =>
      have hget : bytes.get! i = bytes.data.toList.get ⟨i, hi⟩ := by
        show bytes.data[i]! = _
        rw [getElem!_pos bytes.data i hi, List.get_eq_getElem, Array.getElem_toList]
      rw [ih, hget, List.drop_eq_getElem_cons hi, List.reverse_cons, List.append_assoc]
      rfl
  | case2 i r hi =>
      rw [List.drop_eq_nil_of_le (Nat.le_of_not_lt hi), List.append_nil]

theorem toList_eq (bytes : ByteArray) : bytes.toList = bytes.data.toList := by
  rw [ByteArray.toList, toList_loop]
  rfl

theorem utf8_append (s t : String) :
    (s ++ t).toUTF8.toList = s.toUTF8.toList ++ t.toUTF8.toList := by
  rw [toList_eq, toList_eq, toList_eq, String.toUTF8_eq_toByteArray, String.toByteArray_append]
  exact ByteArray.toList_data_append

/-- The bytes of a number are digits. -/
theorem mem_digits {n : Nat} {b : UInt8} (h : b ∈ (toString n).toUTF8.toList) :
    48 ≤ b.toNat ∧ b.toNat ≤ 57 := by
  have hdigits : (toString n).toUTF8 = (Nat.toDigits 10 n).utf8Encode := String.toByteArray_ofList
  rw [hdigits, toList_eq, List.utf8Encode, List.toList_data_toByteArray, List.mem_flatMap] at h
  obtain ⟨c, hc, hb⟩ := h
  have hdigit := Nat.isDigit_of_mem_toDigits (by decide) (by decide) hc
  rw [Char.isDigit, Bool.and_eq_true, decide_eq_true_eq, decide_eq_true_eq] at hdigit
  have hlow : 48 ≤ c.val.toNat := UInt32.le_iff_toNat_le.mp hdigit.1
  have hhigh : c.val.toNat ≤ 57 := UInt32.le_iff_toNat_le.mp hdigit.2
  have hsize : c.utf8Size = 1 := by
    rw [Char.utf8Size_eq_one_iff]
    exact UInt32.le_iff_toNat_le.mpr (Nat.le_trans hhigh (by decide))
  rw [String.utf8EncodeChar_eq_singleton hsize, List.mem_singleton] at hb
  have hbyte : b.toNat = c.val.toNat % 256 := by
    rw [hb]
    exact UInt32.toNat_toUInt8 c.val
  omega

/-- The bytes of a number with its sign are digits and a minus. -/
theorem mem_intDigits {i : Int} {b : UInt8} (h : b ∈ (toString i).toUTF8.toList) :
    b = 45 ∨ 48 ≤ b.toNat ∧ b.toNat ≤ 57 := by
  cases i with
  | ofNat n => exact .inr (mem_digits h)
  | negSucc n =>
      change b ∈ ("-" ++ toString (n + 1)).toUTF8.toList at h
      rw [utf8_append, List.mem_append] at h
      rcases h with hminus | hdigit
      · have hbytes : "-".toUTF8.toList = [45] := by
          rw [toList_eq]
          rfl
        rw [hbytes, List.mem_singleton] at hminus
        exact .inl hminus
      · exact .inr (mem_digits hdigit)

end Bytes
