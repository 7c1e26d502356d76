import Mathlib.Data.List.Basic
import Mathlib.Logic.Function.Basic

/-!
# Tables of slots

A finite map kept in a list of slots, each free or with a key and its value: a key is put into
the first free slot, or one more, and removed by freeing its slot. While no key has two slots
the table is a map, and the two operations are its updates.
-/

namespace SlotTable

variable {K V : Type}

/-- The first slot with the key, and the value there. -/
def find [DecidableEq K] (k : K) : List (Option (K × V)) → Option (Nat × V)
  | [] => none
  | none :: s => (find k s).map fun r => (r.1 + 1, r.2)
  | some (k', v) :: s => if k = k' then some (0, v) else (find k s).map fun r => (r.1 + 1, r.2)

/-- The first free slot, or the one after the last. -/
def room : List (Option (K × V)) → Nat
  | [] => 0
  | none :: _ => 0
  | some _ :: s => room s + 1

/-- The slot `i` is written, or the one after the last. -/
def write (s : List (Option (K × V))) (i : Nat) (x : Option (K × V)) : List (Option (K × V)) :=
  if i < s.length then s.set i x else s ++ [x]

/-- The slots are those of the map, one for each key. -/
structure Models (s : List (Option (K × V))) (m : K → Option V) : Prop where
  mem : ∀ k v, m k = some v ↔ ∃ i : Nat, s[i]? = some (some (k, v))
  unique : ∀ (i j : Nat) k v w, s[i]? = some (some (k, v)) → s[j]? = some (some (k, w)) → i = j

variable {s : List (Option (K × V))} {m : K → Option V} {k : K} {v : V} {i : Nat}

theorem room_free (s : List (Option (K × V))) : s[room s]? = some none ∨ room s = s.length := by
  induction s with
  | nil => exact .inr rfl
  | cons x s ih =>
      cases x with
      | none => exact .inl rfl
      | some b => exact ih.imp id (congrArg Nat.succ)

theorem getElem?_write {x : Option (K × V)} (hi : i ≤ s.length) (j : Nat) :
    (write s i x)[j]? = if j = i then some x else s[j]? := by
  unfold write
  split
  · rename_i hlt
    rw [List.getElem?_set]
    by_cases hj : j = i
    · rw [if_pos hj, if_pos hj.symm, if_pos hlt]
    · rw [if_neg hj, if_neg (Ne.symm hj)]
  · rename_i hge
    obtain rfl : i = s.length := Nat.le_antisymm hi (Nat.not_lt.mp hge)
    by_cases hj : j = s.length
    · rw [if_pos hj, hj, List.getElem?_concat_length]
    · rw [if_neg hj]
      rcases Nat.lt_or_gt_of_ne hj with hlt | hgt
      · exact List.getElem?_append_left hlt
      · rw [List.getElem?_eq_none (by simp; omega), List.getElem?_eq_none (Nat.le_of_lt hgt)]

theorem free_le (hi : s[i]? = some none ∨ i = s.length) : i ≤ s.length := by
  rcases hi with hi | rfl
  · exact Nat.le_of_lt (List.getElem?_eq_some_iff.mp hi).1
  · exact Nat.le_refl _

theorem not_free (hi : s[i]? = some none ∨ i = s.length) (b : K × V) :
    s[i]? ≠ some (some b) := by
  intro hb
  rcases hi with hi | rfl
  · simp [hi] at hb
  · simp at hb

variable [DecidableEq K]

theorem find_some_iff : find k s = some (i, v) ↔
    s[i]? = some (some (k, v)) ∧ ∀ j, j < i → ∀ w, s[j]? ≠ some (some (k, w)) := by
  induction s generalizing i with
  | nil => simp [find]
  | cons x s ih =>
      have htail (hx : ∀ w, x ≠ some (k, w)) :
          (find k s).map (fun r => (r.1 + 1, r.2)) = some (i, v) ↔
            (x :: s)[i]? = some (some (k, v)) ∧
              ∀ j, j < i → ∀ w, (x :: s)[j]? ≠ some (some (k, w)) := by
        cases i with
        | zero => simp [hx]
        | succ i =>
            have hmap : (find k s).map (fun r => (r.1 + 1, r.2)) = some (i + 1, v) ↔
                find k s = some (i, v) := by
              simp [Prod.ext_iff]
            rw [hmap, ih, List.getElem?_cons_succ]
            refine and_congr_right fun _ => ⟨fun hall j hj => ?_, fun hall j hj => ?_⟩
            · cases j with
              | zero => simpa using hx
              | succ j => exact hall j (Nat.lt_of_succ_lt_succ hj)
            · exact hall (j + 1) (Nat.succ_lt_succ hj)
      cases x with
      | none => exact htail fun w => by simp
      | some b =>
          rw [find]
          split
          · rename_i hk
            cases i with
            | zero => simp [hk, Prod.ext_iff]
            | succ i =>
                refine ⟨fun h => (by cases h), fun h => ?_⟩
                exact absurd (by rw [hk]; rfl) (h.2 0 (Nat.succ_pos i) b.2)
          · rename_i hk
            exact htail fun w => by
              simp only [ne_eq, Option.some.injEq]
              rintro rfl
              exact hk rfl

theorem find_some (h : find k s = some (i, v)) : s[i]? = some (some (k, v)) :=
  (find_some_iff.mp h).1

theorem find_none (h : find k s = none) : s[i]? ≠ some (some (k, v)) := by
  induction s generalizing i with
  | nil => simp
  | cons x s ih =>
      cases x with
      | none =>
          rw [find, Option.map_eq_none_iff] at h
          cases i with
          | zero => simp
          | succ i => exact ih h
      | some b =>
          rw [find] at h
          split at h
          · cases h
          · rename_i hk
            rw [Option.map_eq_none_iff] at h
            cases i with
            | zero =>
                intro heq
                have hb : b = (k, v) := by simpa using heq
                exact hk (by rw [hb])
            | succ i => exact ih h

/-- What is found is what the map has. -/
theorem Models.find (h : Models s m) (k : K) : (find k s).map Prod.snd = m k := by
  cases hf : SlotTable.find k s with
  | none =>
      cases hm : m k with
      | none => rfl
      | some v =>
          obtain ⟨i, hi⟩ := (h.mem k v).mp hm
          exact absurd hi (find_none hf)
  | some r => exact ((h.mem k r.2).mpr ⟨r.1, find_some hf⟩).symm

/-- A key that the map has not is put into a slot that is free. -/
theorem Models.put (h : Models s m) (hi : s[i]? = some none ∨ i = s.length) (hk : m k = none)
    (v : V) : Models (write s i (some (k, v))) (Function.update m k (some v)) := by
  have hle := free_le hi
  have hold := not_free hi
  have hnew : ∀ j w, s[j]? ≠ some (some (k, w)) := fun j w hj => by
    rw [(h.mem k w).mpr ⟨j, hj⟩] at hk
    cases hk
  refine ⟨fun k' w => ?_, fun j j' k' w w' hj hj' => ?_⟩
  · by_cases hkk : k' = k
    · subst hkk
      rw [Function.update_self]
      refine ⟨fun hw => ⟨i, ?_⟩, fun hex => ?_⟩
      · cases hw
        rw [getElem?_write hle, if_pos rfl]
      · obtain ⟨j, hj⟩ := hex
        rw [getElem?_write hle] at hj
        split at hj
        · simpa using hj
        · exact absurd hj (hnew j w)
    · rw [Function.update_of_ne hkk, h.mem]
      refine exists_congr fun j => ?_
      rw [getElem?_write hle]
      split
      · rename_i hji
        refine ⟨fun hs => absurd (hji ▸ hs) (hold _), fun hs => ?_⟩
        simp only [Option.some.injEq, Prod.mk.injEq] at hs
        exact absurd hs.1.symm hkk
      · rfl
  · rw [getElem?_write hle] at hj hj'
    split at hj
    · rename_i hji
      split at hj'
      · rename_i hji'
        rw [hji, hji']
      · simp only [Option.some.injEq, Prod.mk.injEq] at hj
        exact absurd (hj.1 ▸ hj') (hnew j' w')
    · split at hj'
      · simp only [Option.some.injEq, Prod.mk.injEq] at hj'
        exact absurd (hj'.1 ▸ hj) (hnew j w)
      · exact h.unique j j' k' w w' hj hj'

/-- A new key is found where it was put. -/
theorem find_write_self (hi : i ≤ s.length) (hk : find k s = none) :
    find k (write s i (some (k, v))) = some (i, v) := by
  refine find_some_iff.mpr ⟨?_, fun j hj w => ?_⟩
  · rw [getElem?_write hi, if_pos rfl]
  · rw [getElem?_write hi, if_neg (Nat.ne_of_lt hj)]
    exact find_none hk

/-- The keys that were found are found where they were. -/
theorem find_write_other {k' : K} {w : V} {j : Nat} (hi : s[i]? = some none ∨ i = s.length)
    (hk : find k s = none) (hk' : find k' s = some (j, w)) :
    find k' (write s i (some (k, v))) = some (j, w) := by
  have hle := free_le hi
  obtain ⟨hj, hbefore⟩ := find_some_iff.mp hk'
  have hji : j ≠ i := by
    rintro rfl
    exact not_free hi _ hj
  refine find_some_iff.mpr ⟨?_, fun j' hj' w' => ?_⟩
  · rw [getElem?_write hle, if_neg hji, hj]
  · rw [getElem?_write hle]
    split
    · intro heq
      simp only [Option.some.injEq, Prod.mk.injEq] at heq
      exact find_none hk (heq.1 ▸ hj)
    · exact hbefore j' hj' w'

/-- The slot of a key is freed. -/
theorem Models.clear (h : Models s m) (hi : s[i]? = some (some (k, v))) :
    Models (write s i none) (Function.update m k none) := by
  have hle : i ≤ s.length := Nat.le_of_lt (List.getElem?_eq_some_iff.mp hi).1
  have hkept : ∀ j b, (write s i none)[j]? = some (some b) ↔ j ≠ i ∧ s[j]? = some (some b) := by
    intro j b
    rw [getElem?_write hle]
    split
    · rename_i hji
      simp [hji]
    · rename_i hji
      simp [hji]
  refine ⟨fun k' w => ?_, fun j j' k' w w' hj hj' => ?_⟩
  · simp only [hkept]
    by_cases hkk : k' = k
    · subst hkk
      rw [Function.update_self]
      refine ⟨fun hw => (by cases hw), fun hex => ?_⟩
      obtain ⟨j, hne, hj⟩ := hex
      exact absurd (h.unique j i k' w v hj hi) hne
    · rw [Function.update_of_ne hkk, h.mem]
      refine exists_congr fun j => ⟨fun hj => ⟨?_, hj⟩, fun hj => hj.2⟩
      rintro rfl
      rw [hi] at hj
      simp only [Option.some.injEq, Prod.mk.injEq] at hj
      exact hkk hj.1.symm
  · exact h.unique j j' k' w w' ((hkept j _).mp hj).2 ((hkept j' _).mp hj').2

end SlotTable
