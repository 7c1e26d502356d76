import Mathlib.Data.List.Perm.Basic

/-!
# FIFO with second chance

A queue of bounded length, head first, each entry with a reference bit that
anyone may set. Inserting into a full queue looks for a victim from the head
on: an entry found referenced loses its bit and goes to the tail, the first one
found unreferenced is dropped.
-/

namespace SecondChance

variable {α : Type}

/-- `Sweep n q v r`: looking at `n` heads of `q`, one after the other, finds the
victim `v` and leaves `r`. -/
inductive Sweep : Nat → List (α × Bool) → α → List (α × Bool) → Prop
  | evict (x : α) (t : List (α × Bool)) : Sweep 1 ((x, false) :: t) x t
  | pass {n : Nat} {x v : α} {t r : List (α × Bool)} :
      Sweep n (t ++ [(x, false)]) v r → Sweep (n + 1) ((x, true) :: t) v r

/-- What may happen to a queue. A mark gives every entry the bit it names. -/
inductive Event (α : Type) where
  | insert (x : α) (ref : Bool)
  | remove (x : α)
  | mark (ref : α → Bool)

/-- The queue with the bits of a mark. -/
def mark (ref : α → Bool) (q : List α) : List (α × Bool) :=
  q.map fun x => (x, ref x)

/-- One step of a queue that holds at most `cap` entries. -/
inductive Step (cap : Nat) : List (α × Bool) → Event α → List (α × Bool) → Prop
  | append {q : List (α × Bool)} {x : α} {b : Bool} :
      q.length < cap → Step cap q (.insert x b) (q ++ [(x, b)])
  | replace {n : Nat} {q r : List (α × Bool)} {x v : α} {b : Bool} :
      q.length = cap → Sweep n q v r → Step cap q (.insert x b) (r ++ [(x, b)])
  | remove (q r : List (α × Bool)) (x : α) (b : Bool) :
      Step cap (q ++ (x, b) :: r) (.remove x) (q ++ r)
  | absent {q : List (α × Bool)} {x : α} :
      x ∉ q.map Prod.fst → Step cap q (.remove x) q
  | mark {q : List (α × Bool)} {ref : α → Bool} :
      Step cap q (.mark ref) (mark ref (q.map Prod.fst))

theorem mark_cons (ref : α → Bool) (x : α) (q : List α) :
    mark ref (x :: q) = (x, ref x) :: mark ref q := rfl

@[simp] theorem mark_map_fst (ref : α → Bool) (q : List α) :
    (mark ref q).map Prod.fst = q := by
  simp [mark, Function.comp_def]

@[simp] theorem mark_length (ref : α → Bool) (q : List α) :
    (mark ref q).length = q.length := by
  simp [mark]

theorem mem_mark {ref : α → Bool} {q : List α} {x : α} {b : Bool} :
    (x, b) ∈ mark ref q ↔ x ∈ q ∧ ref x = b := by
  rw [mark, List.mem_map]
  constructor
  · intro ⟨y, hy, hxy⟩
    cases hxy
    exact ⟨hy, rfl⟩
  · intro ⟨hx, hb⟩
    exact ⟨x, hx, by rw [hb]⟩

/-- A queue is the mark of its entries with their own bits. -/
theorem mark_fst {ref : α → Bool} {q : List (α × Bool)}
    (h : ∀ x b, (x, b) ∈ q → ref x = b) : mark ref (q.map Prod.fst) = q := by
  induction q with
  | nil => rfl
  | cons e q ih =>
      obtain ⟨x, b⟩ := e
      rw [List.map_cons, mark_cons, ih fun y c hy => h y c (List.mem_cons_of_mem _ hy),
        h x b List.mem_cons_self]

/-! ## The sweep ends -/

/-- Once the entries of `q` have lost their bits, the head is unreferenced. -/
theorem exists_sweep_append :
    ∀ (q p : List (α × Bool)), (∀ e ∈ p, e.2 = false) → q ++ p ≠ [] →
    ∃ n ≤ q.length + 1, ∃ v r, Sweep n (q ++ p) v r := by
  intro q
  induction q with
  | nil =>
      intro p hp hne
      cases p with
      | nil => exact absurd rfl hne
      | cons e t =>
          obtain ⟨x, b⟩ := e
          have hb : b = false := hp (x, b) List.mem_cons_self
          subst hb
          exact ⟨1, by simp, x, t, .evict x t⟩
  | cons e t ih =>
      intro p hp _
      obtain ⟨x, b⟩ := e
      cases b with
      | false => exact ⟨1, by simp, x, t ++ p, .evict x (t ++ p)⟩
      | true =>
          have hp' : ∀ e ∈ p ++ [(x, false)], e.2 = false := by
            intro e he
            rcases List.mem_append.mp he with h | h
            · exact hp e h
            · rw [List.mem_singleton.mp h]
          obtain ⟨n, hn, v, r, hs⟩ := ih (p ++ [(x, false)]) hp' (by simp)
          rw [← List.append_assoc] at hs
          exact ⟨n + 1, by simpa using hn, v, r, .pass hs⟩

/-- A sweep of a queue that is not empty looks at one entry more than it has at
most. -/
theorem exists_sweep {q : List (α × Bool)} (hq : q ≠ []) :
    ∃ n ≤ q.length + 1, ∃ v r, Sweep n q v r := by
  have := exists_sweep_append q [] (by simp) (by simpa using hq)
  simpa using this

/-! ## What a sweep leaves -/

/-- A sweep keeps all entries but the victim. -/
theorem Sweep.perm {n : Nat} {q r : List (α × Bool)} {v : α} (h : Sweep n q v r) :
    (v :: r.map Prod.fst).Perm (q.map Prod.fst) := by
  induction h with
  | evict x t => exact List.Perm.refl _
  | @pass n x v t r _ ih =>
      apply ih.trans
      simp

theorem Sweep.victim_mem {n : Nat} {q r : List (α × Bool)} {v : α} (h : Sweep n q v r) :
    v ∈ q.map Prod.fst := h.perm.subset List.mem_cons_self

theorem Sweep.length {n : Nat} {q r : List (α × Bool)} {v : α} (h : Sweep n q v r) :
    r.length + 1 = q.length := by
  simpa using h.perm.length_eq

theorem Sweep.nodup {n : Nat} {q r : List (α × Bool)} {v : α} (h : Sweep n q v r)
    (hq : (q.map Prod.fst).Nodup) : (v :: r.map Prod.fst).Nodup :=
  h.perm.nodup_iff.mpr hq

end SecondChance
