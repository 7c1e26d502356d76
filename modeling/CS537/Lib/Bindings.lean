import Mathlib.Data.List.Nodup

/-!
# Bindings in the order of their definition

A finite map as a list of bindings: removing a key drops its bindings, defining it puts
the new one at the end. With no key bound twice the list is the graph of `List.lookup`.
-/

namespace Bindings

variable {α β : Type*} [DecidableEq α]

/-- The bindings of the other keys. -/
def remove (k : α) (bs : List (α × β)) : List (α × β) := bs.filter fun b => b.1 ≠ k

/-- The binding at the end, in place of the ones there were. -/
def define (k : α) (v : β) (bs : List (α × β)) : List (α × β) := remove k bs ++ [(k, v)]

/-- No key is bound twice. -/
def Unique (bs : List (α × β)) : Prop := (bs.map Prod.fst).Nodup

variable {k k' : α} {v : β} {bs xs ys : List (α × β)}

theorem lookup_remove_self : (remove k bs).lookup k = none := by
  rw [List.lookup_eq_none_iff]
  intro b hb
  have hne : b.1 ≠ k := by simpa using (List.mem_filter.mp hb).2
  exact bne_iff_ne.mpr hne.symm

theorem lookup_remove_ne (h : k ≠ k') : (remove k' bs).lookup k = bs.lookup k := by
  induction bs with
  | nil => rfl
  | cons b bs ih =>
      obtain ⟨a, v⟩ := b
      rw [remove] at ih ⊢
      by_cases ha : a = k'
      · have hk : (k == a) = false := by simpa [ha] using h
        rw [List.filter_cons_of_neg (by simpa using ha), ih, List.lookup_cons, hk]
      · rw [List.filter_cons_of_pos (by simpa using ha), List.lookup_cons, List.lookup_cons, ih]

theorem lookup_define_self : (define k v bs).lookup k = some v := by
  rw [define, List.lookup_append, lookup_remove_self]
  simp

theorem lookup_define_ne (h : k ≠ k') : (define k' v bs).lookup k = bs.lookup k := by
  have hk : (k == k') = false := by simpa using h
  rw [define, List.lookup_append, lookup_remove_ne h, List.lookup_cons, hk]
  exact Option.or_none

theorem Unique.remove (h : Unique bs) : Unique (remove k bs) :=
  h.sublist ((List.filter_sublist).map Prod.fst)

theorem not_mem_remove : k ∉ (remove k bs).map Prod.fst := by
  intro h
  obtain ⟨b, hb, hk⟩ := List.mem_map.mp h
  have hne := (List.mem_filter.mp hb).2
  simp [hk] at hne

theorem Unique.define (h : Unique bs) : Unique (define k v bs) := by
  rw [Unique, Bindings.define, List.map_append, List.map_singleton]
  apply List.nodup_append.mpr
  refine ⟨h.remove, List.nodup_singleton k, ?_⟩
  intro a ha b hb hab
  rw [List.mem_singleton] at hb
  subst hb hab
  exact not_mem_remove ha

theorem remove_of_not_mem (h : k ∉ bs.map Prod.fst) : remove k bs = bs := by
  apply List.filter_eq_self.mpr
  intro b hb
  have hne : b.1 ≠ k := fun hk => h (List.mem_map.mpr ⟨b, hb, hk⟩)
  simpa using hne

/-- Removing a key that is bound once takes out its binding. -/
theorem remove_middle (h : Unique (xs ++ (k, v) :: ys)) :
    remove k (xs ++ (k, v) :: ys) = xs ++ ys := by
  rw [Unique, List.map_append, List.map_cons] at h
  have hmid := List.nodup_middle.mp h
  have hnot := (List.nodup_cons.mp hmid).1
  rw [List.mem_append, not_or] at hnot
  have hys := remove_of_not_mem hnot.2
  have hxs := remove_of_not_mem hnot.1
  rw [remove] at hxs hys ⊢
  rw [List.filter_append, List.filter_cons_of_neg (by simp), hxs, hys]

theorem not_mem_of_lookup (h : bs.lookup k = none) : k ∉ bs.map Prod.fst := by
  intro hk
  obtain ⟨b, hb, hbk⟩ := List.mem_map.mp hk
  rw [List.lookup_eq_none_iff] at h
  have hne := h b hb
  simp [hbk] at hne

/-- The list is the graph of the map. -/
theorem Unique.mem_iff (h : Unique bs) : (k, v) ∈ bs ↔ bs.lookup k = some v := by
  induction bs with
  | nil => simp
  | cons b bs ih =>
      obtain ⟨a, w⟩ := b
      rw [Unique, List.map_cons, List.nodup_cons] at h
      rw [List.mem_cons, List.lookup_cons]
      by_cases ha : k = a
      · subst ha
        have hnot : (k, v) ∉ bs := fun hm => h.1 (List.mem_map.mpr ⟨_, hm, rfl⟩)
        simp [hnot, eq_comm]
      · have hk : (k == a) = false := by simpa using ha
        rw [hk]
        have hne : (k, v) ≠ (a, w) := fun he => ha (congrArg Prod.fst he)
        simp only [hne, false_or]
        exact ih h.2

end Bindings
