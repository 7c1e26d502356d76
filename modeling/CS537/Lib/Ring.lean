import Mathlib.Data.Nat.ModEq
import Mathlib.Logic.Function.Basic

/-!
# Ring buffers

An array of `N` slots used in a circle, read as the list of its slots from a
start round to the one before it. Three things a program does to such a ring
are described on that list: it writes the first slot and steps on, it steps on,
and it closes the gap of a removed slot by shifting the ones after it down. A
part of the ring is a queue.

`Function.update` is the write to a slot.
-/

namespace Ring

variable {α : Type} {N : Nat}

/-- The slots of a ring of `N`, from slot `s` round to the one before it. -/
def view (N : Nat) (f : Nat → α) (s : Nat) : List α :=
  (List.range N).map fun k => f ((s + k) % N)

@[simp] theorem view_length (f : Nat → α) (s : Nat) : (view N f s).length = N := by
  simp [view]

theorem view_getElem (f : Nat → α) (s k : Nat) (h : k < (view N f s).length) :
    (view N f s)[k] = f ((s + k) % N) := by
  simp [view]

/-! ## Positions -/

theorem pos_lt (hN : 0 < N) (s k : Nat) : (s + k) % N < N := Nat.mod_lt _ hN

theorem pos_inj {s j k : Nat} (hj : j < N) (hk : k < N) :
    (s + j) % N = (s + k) % N ↔ j = k := by
  constructor
  · intro h
    have hmod : j ≡ k [MOD N] := Nat.ModEq.add_left_cancel' s h
    exact hmod.eq_of_lt_of_lt hj hk
  · intro h
    rw [h]

theorem pos_succ (s j : Nat) : ((s + j) % N + 1) % N = (s + (j + 1)) % N := by
  rw [Nat.mod_add_mod, Nat.add_assoc]

/-- Every slot has a position. -/
theorem exists_pos {s i : Nat} (hs : s < N) (hi : i < N) : ∃ k < N, (s + k) % N = i := by
  rcases Nat.lt_or_ge i s with h | h
  · refine ⟨i + N - s, by omega, ?_⟩
    rw [show s + (i + N - s) = i + N by omega, Nat.add_mod_right, Nat.mod_eq_of_lt hi]
  · refine ⟨i - s, by omega, ?_⟩
    rw [show s + (i - s) = i by omega, Nat.mod_eq_of_lt hi]

theorem mem_view {f : Nat → α} {s : Nat} (hs : s < N) {x : α} :
    x ∈ view N f s ↔ ∃ i < N, f i = x := by
  rw [view, List.mem_map]
  constructor
  · intro ⟨k, _, hx⟩
    exact ⟨_, pos_lt (by omega) s k, hx⟩
  · intro ⟨i, hi, hx⟩
    obtain ⟨k, hk, rfl⟩ := exists_pos hs hi
    exact ⟨k, List.mem_range.mpr hk, hx⟩

/-! ## Stepping on -/

/-- The first slot of a ring is its start. -/
theorem view_eq_cons {f : Nat → α} {s : Nat} (hs : s < N) :
    view N f s = f s :: (view N f s).tail := by
  have hne : view N f s ≠ [] := by
    apply List.ne_nil_of_length_pos
    rw [view_length]
    omega
  have hhead : (view N f s).head hne = f s := by
    rw [List.head_eq_getElem, view_getElem, Nat.add_zero, Nat.mod_eq_of_lt hs]
  rw [← hhead, List.cons_head_tail]

/-- The ring read from the next slot on: the first one goes to the end. -/
theorem view_step {f : Nat → α} {s : Nat} (hs : s < N) :
    view N f ((s + 1) % N) = (view N f s).tail ++ [f s] := by
  apply List.ext_getElem
  · simp only [view_length, List.length_append, List.length_tail, List.length_singleton]
    omega
  · intro k h1 h2
    rw [view_length] at h1
    rw [view_getElem, Nat.mod_add_mod, List.getElem_append]
    split
    · rw [List.getElem_tail, view_getElem]
      congr 2
      omega
    · rename_i hk
      rw [List.length_tail, view_length] at hk
      rw [List.getElem_singleton, show s + 1 + k = s + N by omega, Nat.add_mod_right,
        Nat.mod_eq_of_lt hs]

/-- Writing the first slot before stepping on puts the written value at the
end. -/
theorem view_write_step {f : Nat → α} {s : Nat} (hs : s < N) (y : α) :
    view N (Function.update f s y) ((s + 1) % N) = (view N f s).tail ++ [y] := by
  rw [view_step hs, Function.update_self]
  congr 1
  apply List.ext_getElem
  · simp
  · intro k h1 h2
    rw [List.length_tail, view_length] at h1
    rw [List.getElem_tail, List.getElem_tail, view_getElem, view_getElem]
    apply Function.update_of_ne
    intro h
    have h0 : (s + (k + 1)) % N = (s + 0) % N := by
      rw [h, Nat.add_zero, Nat.mod_eq_of_lt hs]
    have := (pos_inj (by omega) (by omega)).mp h0
    omega

/-! ## Closing a gap -/

/-- Moves the `n` slots after slot `i` one slot down, in order. -/
def shift (N : Nat) (f : Nat → α) (i : Nat) : Nat → Nat → α
  | 0 => f
  | n + 1 => shift N (Function.update f i (f ((i + 1) % N))) ((i + 1) % N) n

/-- A shift that does not pass the end of the ring as read from `s`, slot by
slot. -/
theorem shift_apply {s : Nat} :
    ∀ (n : Nat) (f : Nat → α) (j : Nat), j + n < N → ∀ k < N,
    shift N f ((s + j) % N) n ((s + k) % N)
      = if j ≤ k ∧ k < j + n then f ((s + (k + 1)) % N) else f ((s + k) % N) := by
  intro n
  induction n with
  | zero =>
      intro f j _ k _
      rw [shift, if_neg (by omega)]
  | succ n ih =>
      intro f j hjn k hk
      rw [shift, pos_succ, ih _ (j + 1) (by omega) k hk]
      -- the slots the rest of the shift reads lie after the one just written
      by_cases hkj : k = j
      · subst hkj
        rw [if_neg (by omega), if_pos (by omega), Function.update_self]
      · by_cases hin : j + 1 ≤ k ∧ k < j + 1 + n
        · rw [if_pos hin, if_pos (by omega), Function.update_of_ne]
          intro h
          have := (pos_inj (by omega) (by omega)).mp h
          omega
        · rw [if_neg hin, if_neg (by omega), Function.update_of_ne]
          intro h
          exact hkj ((pos_inj hk (by omega)).mp h)

/-- Removing position `j` of a ring: the slots after it move down, the last slot
is overwritten, and the ring is then read from that last slot. -/
theorem view_remove {f : Nat → α} {s j : Nat} (hj : j < N) (y : α) :
    view N (Function.update (shift N f ((s + j) % N) (N - 1 - j)) ((s + (N - 1)) % N) y)
        ((s + (N - 1)) % N)
      = y :: (view N f s).eraseIdx j := by
  apply List.ext_getElem
  · simp only [view_length, List.length_cons, List.length_eraseIdx_of_lt, hj]
    omega
  · intro k h1 h2
    rw [view_length] at h1
    rw [view_getElem]
    cases k with
    | zero => rw [Nat.add_zero, Nat.mod_mod, Function.update_self, List.getElem_cons_zero]
    | succ k =>
        have hpos : ((s + (N - 1)) % N + (k + 1)) % N = (s + k) % N := by
          rw [Nat.mod_add_mod, show s + (N - 1) + (k + 1) = s + k + N by omega,
            Nat.add_mod_right]
        have hne : (s + k) % N ≠ (s + (N - 1)) % N := by
          intro h
          have := (pos_inj (by omega) (by omega)).mp h
          omega
        rw [hpos, Function.update_of_ne hne, shift_apply _ _ _ (by omega) _ (by omega),
          List.getElem_cons_succ, List.getElem_eraseIdx]
        by_cases hkj : k < j
        · rw [if_neg (by omega), dif_pos hkj, view_getElem]
        · rw [if_pos (by omega), dif_neg hkj, view_getElem]

/-! ## A queue in the ring -/

/-- The first `n` slots from `s`. -/
def part (N : Nat) (f : Nat → α) (s n : Nat) : List α :=
  (List.range n).map fun k => f ((s + k) % N)

@[simp] theorem part_length (f : Nat → α) (s n : Nat) : (part N f s n).length = n := by
  simp [part]

theorem part_mod (f : Nat → α) (s n : Nat) : part N f (s % N) n = part N f s n := by
  simp only [part, Nat.mod_add_mod]

/-- The slot after the last one is written. -/
theorem part_write {f : Nat → α} {s n : Nat} (hn : n < N) (y : α) :
    part N (Function.update f ((s + n) % N) y) s (n + 1) = part N f s n ++ [y] := by
  rw [part, List.range_succ, List.map_append, List.map_singleton, Function.update_self]
  congr 1
  refine List.map_congr_left fun k hk => Function.update_of_ne (fun heq => ?_) _ _
  have hkn := List.mem_range.mp hk
  have := (pos_inj (by omega) hn).mp heq
  omega

/-- The first slot is left. -/
theorem part_cons (f : Nat → α) (s n : Nat) :
    part N f s (n + 1) = f (s % N) :: part N f (s + 1) n := by
  rw [part, List.range_succ_eq_map, List.map_cons, List.map_map, Nat.add_zero]
  congr 1
  refine List.map_congr_left fun k _ => ?_
  rw [Function.comp_apply, Nat.add_assoc, Nat.add_comm 1 k]

end Ring
