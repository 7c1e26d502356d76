import Mathlib.Data.List.Nodup
import Mathlib.Data.Finset.Card

/-!
# Linked lists in a heap of nodes

A heap is a list of nodes, an address an index of it, and `next` reads the link of a
node. `Seg next heap p as q`: following the links from `p` passes the nodes `as`, in
order, and arrives at `q`. A linked list is a segment that arrives at no node.
-/

namespace LinkedList

variable {ν : Type*} (next : ν → Option Nat)

/-- From `p`, through the nodes `as`, to `q`. -/
def Seg (heap : List ν) : Option Nat → List Nat → Option Nat → Prop
  | p, [], q => p = q
  | p, a :: as, q => p = some a ∧ ∃ n, heap[a]? = some n ∧ Seg heap (next n) as q

variable {next} {heap heap' : List ν} {p q r : Option Nat} {as bs : List Nat} {a : Nat}

theorem Seg.append (h : Seg next heap p as q) (h' : Seg next heap q bs r) :
    Seg next heap p (as ++ bs) r := by
  induction as generalizing p with
  | nil =>
      cases h
      exact h'
  | cons a as ih =>
      obtain ⟨hp, n, hn, hs⟩ := h
      exact ⟨hp, n, hn, ih hs⟩

theorem Seg.split (h : Seg next heap p (as ++ bs) r) :
    ∃ q, Seg next heap p as q ∧ Seg next heap q bs r := by
  induction as generalizing p with
  | nil => exact ⟨p, rfl, h⟩
  | cons a as ih =>
      obtain ⟨hp, n, hn, hs⟩ := h
      obtain ⟨q, hq, hr⟩ := ih hs
      exact ⟨q, ⟨hp, n, hn, hq⟩, hr⟩

/-- A segment does not see the nodes it does not pass. -/
theorem Seg.congr (h : Seg next heap p as q) (hkeep : ∀ a ∈ as, heap'[a]? = heap[a]?) :
    Seg next heap' p as q := by
  induction as generalizing p with
  | nil => exact h
  | cons a as ih =>
      obtain ⟨hp, n, hn, hs⟩ := h
      have hn' : heap'[a]? = some n := by rw [hkeep a List.mem_cons_self, hn]
      exact ⟨hp, n, hn', ih hs fun b hb => hkeep b (List.mem_cons_of_mem a hb)⟩

theorem Seg.node (h : Seg next heap p as q) (ha : a ∈ as) : ∃ n, heap[a]? = some n := by
  induction as generalizing p with
  | nil => cases ha
  | cons b as ih =>
      obtain ⟨_, n, hn, hs⟩ := h
      rcases List.mem_cons.mp ha with rfl | ha
      · exact ⟨n, hn⟩
      · exact ih hs ha

theorem Seg.lt_length (h : Seg next heap p as q) (ha : a ∈ as) : a < heap.length := by
  obtain ⟨n, hn⟩ := h.node ha
  exact (List.getElem?_eq_some_iff.mp hn).1

/-- Two lists from one pointer pass the same nodes. -/
theorem Seg.unique (h : Seg next heap p as none) (h' : Seg next heap p bs none) : as = bs := by
  induction as generalizing p bs with
  | nil =>
      cases h
      cases bs with
      | nil => rfl
      | cons b bs => cases h'.1
  | cons a as ih =>
      obtain ⟨hp, n, hn, hs⟩ := h
      cases bs with
      | nil =>
          cases h'
          cases hp
      | cons b bs =>
          obtain ⟨hp', n', hn', hs'⟩ := h'
          rw [hp] at hp'
          cases hp'
          rw [hn] at hn'
          cases hn'
          rw [ih hs hs']

/-- A list that ends passes no node twice. -/
theorem Seg.nodup (h : Seg next heap p as none) : as.Nodup := by
  induction as generalizing p with
  | nil => exact List.nodup_nil
  | cons a as ih =>
      obtain ⟨hp, n, hn, hs⟩ := h
      have hnot : a ∉ as := by
        intro ha
        obtain ⟨xs, ys, rfl⟩ := List.append_of_mem ha
        obtain ⟨q, _, hq⟩ := hs.split
        have hagain : Seg next heap (some a) (a :: ys) none := by
          rw [← hq.1]
          exact hq
        have hlong : Seg next heap (some a) (a :: (xs ++ a :: ys)) none := ⟨rfl, n, hn, hs⟩
        have heq := congrArg List.length (hlong.unique hagain)
        simp only [List.length_cons, List.length_append] at heq
        omega
      exact List.nodup_cons.mpr ⟨hnot, ih hs⟩

/-- A list has no more nodes than the heap. -/
theorem Seg.length_le (h : Seg next heap p as none) : as.length ≤ heap.length := by
  have hsub : as ⊆ List.range heap.length := by
    intro a ha
    exact List.mem_range.mpr (h.lt_length ha)
  simpa using (h.nodup.subperm hsub).length_le

variable {xs ys : List Nat} {t c : Nat} {n' nc : ν}

/-- Rewriting the link of `t` leaves the segments that do not pass it. -/
theorem Seg.set_next (h : Seg next heap p as q) (ht : t ∉ as) : Seg next (heap.set t n') p as q := by
  apply h.congr
  intro b hb
  have hne : t ≠ b := by
    intro he
    rw [he] at ht
    exact ht hb
  exact List.getElem?_set_ne hne

/-- Linking a node after the last one. -/
theorem Seg.snoc (h : Seg next heap p (xs ++ [t]) none) (hc : heap[c]? = some nc)
    (hnew : c ∉ xs ++ [t]) (hend : next nc = none) (hnext : next n' = some c) :
    Seg next (heap.set t n') p (xs ++ [t] ++ [c]) none := by
  have hnodup := h.nodup
  obtain ⟨q, hxs, ht⟩ := h.split
  obtain ⟨rfl, nt, hnt, _⟩ := ht
  have hlt := (List.getElem?_eq_some_iff.mp hnt).1
  have hnot : t ∉ xs := fun hm => (List.nodup_append.mp hnodup).2.2 t hm t (by simp) rfl
  have hct : t ≠ c := fun he => hnew (by simp [he])
  have hfront : Seg next (heap.set t n') p (xs ++ [t]) (some c) := by
    apply (hxs.set_next hnot).append
    exact ⟨rfl, n', List.getElem?_set_self hlt, hnext⟩
  apply hfront.append
  refine ⟨rfl, nc, ?_, hend⟩
  rw [List.getElem?_set_ne hct, hc]

/-- Linking past the node after `t`. -/
theorem Seg.unlink (h : Seg next heap p (xs ++ t :: c :: ys) none) (hc : heap[c]? = some nc)
    (hnext : next n' = next nc) : Seg next (heap.set t n') p (xs ++ t :: ys) none := by
  have hnodup := h.nodup
  have hnot : t ∉ xs ∧ t ∉ ys := by
    have hmid := (List.nodup_cons.mp (List.nodup_middle.mp hnodup)).1
    simp only [List.mem_append, List.mem_cons, not_or] at hmid
    exact ⟨hmid.1, hmid.2.2⟩
  obtain ⟨q, hxs, ht⟩ := h.split
  obtain ⟨rfl, nt, hnt, hc'⟩ := ht
  obtain ⟨_, nc', hnc', hys⟩ := hc'
  rw [hc] at hnc'
  cases hnc'
  have hlt := (List.getElem?_eq_some_iff.mp hnt).1
  apply (hxs.set_next hnot.1).append
  refine ⟨rfl, n', List.getElem?_set_self hlt, ?_⟩
  rw [hnext]
  exact hys.set_next hnot.2

end LinkedList
