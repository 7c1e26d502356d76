import Mathlib.Data.List.Nodup
import Mathlib.Logic.Function.Basic

/-!
# Circular lists in memory

A list of items, each stored at its address in a node that has the address of the next one.
`Chain mem q bs` says that the nodes of `bs` are in `mem`, linked in this order, and the last to
`q`; a circle is a chain linked to its own first item. A loop that follows the links of a
circle until a test holds stops at an item of the circle, if the test holds for any.
-/

namespace Circle

variable {A β ν : Type} (addr : β → A) (node : β → A → ν)

/-- The address of the first item, or `q`. -/
def first (q : A) : List β → A
  | [] => q
  | b :: _ => addr b

/-- The nodes of the items, one linked to the next and the last to `q`. -/
def Chain (mem : A → ν) (q : A) : List β → Prop
  | [] => True
  | b :: bs => mem (addr b) = node b (first addr q bs) ∧ Chain mem q bs

variable {addr node} {mem : A → ν} {q : A} {as bs : List β} {a b z : β}

@[simp] theorem first_nil : first addr q [] = q := rfl

@[simp] theorem first_cons : first addr q (b :: bs) = addr b := rfl

theorem first_append : first addr q (as ++ bs) = first addr (first addr q bs) as := by
  cases as <;> rfl

theorem chain_append : Chain addr node mem q (as ++ bs) ↔
    Chain addr node mem (first addr q bs) as ∧ Chain addr node mem q bs := by
  induction as with
  | nil => exact ⟨fun h => ⟨trivial, h⟩, fun h => h.2⟩
  | cons a as ih =>
      rw [List.cons_append, Chain, Chain, ih, first_append, and_assoc]

theorem Chain.get (h : Chain addr node mem q bs) (hb : b ∈ bs) :
    ∃ p, mem (addr b) = node b p := by
  induction bs with
  | nil => cases hb
  | cons c bs ih =>
      rcases List.mem_cons.mp hb with rfl | hb
      · exact ⟨_, h.1⟩
      · exact ih h.2 hb

theorem Chain.congr {mem' : A → ν} (h : Chain addr node mem q bs)
    (hkeep : ∀ b ∈ bs, mem' (addr b) = mem (addr b)) : Chain addr node mem' q bs := by
  induction bs with
  | nil => trivial
  | cons b bs ih =>
      refine ⟨(hkeep b List.mem_cons_self).trans h.1, ih h.2 fun c hc => ?_⟩
      exact hkeep c (List.mem_cons_of_mem _ hc)

/-- Another node is written. -/
theorem Chain.update [DecidableEq A] (h : Chain addr node mem q bs) {p : A} (v : ν)
    (hp : ∀ b ∈ bs, addr b ≠ p) : Chain addr node (Function.update mem p v) q bs :=
  h.congr fun b hb => Function.update_of_ne (hp b hb) v mem

/-- A circle can be read from any of its items. -/
theorem Chain.rotate (h : Chain addr node mem (first addr q (as ++ bs)) (as ++ bs)) :
    Chain addr node mem (first addr q (bs ++ as)) (bs ++ as) := by
  cases as with
  | nil => rwa [List.append_nil]
  | cons a as =>
      cases bs with
      | nil => rwa [List.append_nil] at h
      | cons b bs =>
          rw [chain_append] at h ⊢
          exact ⟨h.2, h.1⟩

/-! ## Following the links -/

variable {next : ν → A} {t : A → Bool}

/-- A loop over the links, with a bound on its length. -/
def walk (next : ν → A) (mem : A → ν) (t : A → Bool) : Nat → A → Option A
  | 0, _ => none
  | n + 1, p => if t p then some p else walk next mem t n (next (mem p))

/-- The loop stops at the first item of the chain where the test holds. -/
theorem walk_chain (hnext : ∀ b p, next (node b p) = p)
    (h : Chain addr node mem q (as ++ z :: bs)) (has : ∀ a ∈ as, t (addr a) = false)
    (hz : t (addr z) = true) {n : Nat} (hn : as.length < n) :
    walk next mem t n (first addr q (as ++ z :: bs)) = some (addr z) := by
  induction as generalizing n with
  | nil =>
      cases n with
      | zero => cases hn
      | succ n => exact if_pos hz
  | cons a as ih =>
      cases n with
      | zero => cases hn
      | succ n =>
          have hmore := ih h.2 (fun c hc => has c (List.mem_cons_of_mem _ hc))
            (Nat.lt_of_succ_lt_succ hn)
          change (if t (addr a) then _ else walk next mem t n (next (mem (addr a)))) = _
          rw [has a List.mem_cons_self, h.1, hnext]
          exact hmore

/-- Where a test holds there is a first item for which it does. -/
theorem exists_first {P : β → Prop} [DecidablePred P] {l : List β} (h : ∃ b ∈ l, P b) :
    ∃ as z bs, l = as ++ z :: bs ∧ (∀ a ∈ as, ¬ P a) ∧ P z := by
  induction l with
  | nil => simp at h
  | cons b l ih =>
      by_cases hb : P b
      · exact ⟨[], b, l, rfl, fun a ha => (by cases ha), hb⟩
      · obtain ⟨c, hc, hP⟩ := h
        have hcl : c ∈ l := (List.mem_cons.mp hc).resolve_left fun heq => hb (heq ▸ hP)
        obtain ⟨as, z, bs, rfl, has, hz⟩ := ih ⟨c, hcl, hP⟩
        refine ⟨b :: as, z, bs, rfl, fun a ha => ?_, hz⟩
        rcases List.mem_cons.mp ha with rfl | ha
        · exact hb
        · exact has a ha

/-- Read from the item where the loop starts, a circle is the items it passes, the one where
it stops, and the others. -/
theorem Chain.walk (hnext : ∀ b p, next (node b p) = p) {l : List β}
    (h : Chain addr node mem (first addr q l) l) (ha : a ∈ l)
    (hstop : ∃ b ∈ l, t (addr b) = true) :
    ∃ as z bs, (as ++ z :: bs).Perm l ∧ first addr q (as ++ z :: bs) = addr a ∧
      Chain addr node mem (addr a) (as ++ z :: bs) ∧ (∀ c ∈ as, t (addr c) = false) ∧
      t (addr z) = true ∧
      ∀ n, l.length < n → walk next mem t n (addr a) = some (addr z) := by
  obtain ⟨l₁, l₂, rfl⟩ := List.append_of_mem ha
  have hround : Chain addr node mem (addr a) (a :: l₂ ++ l₁) := h.rotate
  have hperm : (a :: l₂ ++ l₁).Perm (l₁ ++ a :: l₂) := List.perm_append_comm
  obtain ⟨b, hb, hstopb⟩ := hstop
  obtain ⟨as, z, bs, heq, has, hz⟩ :=
    exists_first (P := fun b => t (addr b) = true) ⟨b, hperm.mem_iff.mpr hb, hstopb⟩
  have has' : ∀ c ∈ as, t (addr c) = false := fun c hc => (Bool.not_eq_true _).mp (has c hc)
  have hfirst : ∀ p, first addr p (as ++ z :: bs) = addr a := fun p => by rw [← heq]; rfl
  refine ⟨as, z, bs, heq ▸ hperm, hfirst q, heq ▸ hround, has', hz, fun n hn => ?_⟩
  have hlen : as.length < n := by
    have hsame := hperm.length_eq
    rw [heq, List.length_append, List.length_cons] at hsame
    omega
  have hgo := walk_chain hnext (heq ▸ hround : Chain addr node mem (addr a) (as ++ z :: bs))
    has' hz hlen
  rwa [hfirst] at hgo

/-- The item linked to the first one is the last. -/
theorem Chain.last (hnext : ∀ b p, next (node b p) = p) {r : A}
    (h : Chain addr node mem q (as ++ z :: bs)) (hnodup : ((as ++ z :: bs).map addr).Nodup)
    (hlink : next (mem (addr z)) = first addr r (as ++ z :: bs)) : bs = [] := by
  cases bs with
  | nil => rfl
  | cons d bs =>
      have hz : mem (addr z) = node z (addr d) := (chain_append.mp h).2.1
      rw [hz, hnext] at hlink
      cases as with
      | nil => simp [show addr d = addr z from hlink] at hnodup
      | cons a as => simp [show addr d = addr a from hlink] at hnodup

/-- Each item of a circle is linked from one of them. -/
theorem Chain.exists_prev (hnext : ∀ b p, next (node b p) = p) {l : List β}
    (h : Chain addr node mem (first addr q l) l) (ha : a ∈ l) :
    ∃ y ∈ l, next (mem (addr y)) = addr a := by
  obtain ⟨l₁, l₂, rfl⟩ := List.append_of_mem ha
  have hround : Chain addr node mem (addr a) (a :: l₂ ++ l₁) := h.rotate
  have hperm : (a :: l₂ ++ l₁).Perm (l₁ ++ a :: l₂) := List.perm_append_comm
  rcases List.eq_nil_or_concat (a :: l₂ ++ l₁) with hnil | ⟨as, z, heq⟩
  · cases hnil
  · rw [List.concat_eq_append] at heq
    rw [heq] at hround hperm
    refine ⟨z, hperm.mem_iff.mp (List.mem_append_right _ (List.mem_singleton_self z)), ?_⟩
    rw [((chain_append.mp hround).2).1, hnext]
    rfl

end Circle
