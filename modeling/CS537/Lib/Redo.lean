import Mathlib.Data.List.Basic
import Mathlib.Data.List.Nodup
import Mathlib.Logic.Function.Basic
import CS537.Lib.Lts

/-!
# Redo logs

A disk with a redo log: a header block that lists the addresses of the blocks logged, and the
logged contents in the slots after it. What the disk holds once the log has been replayed is a
function of the disk, and each write of a commit either leaves it as it is or is the commit.

`Store` says what such a disk is for: groups of writes that become durable all at once.
-/

namespace Redo

open Function

/-- Where the log is, and what its header says. -/
structure Layout (β : Type) where
  start : Nat
  size : Nat
  header : β → List Nat

namespace Layout

variable {β : Type} (L : Layout β)

/-- A block outside the log. -/
def Home (b : Nat) : Prop := b < L.start ∨ L.start + L.size ≤ b

/-- The block of the `i`-th logged content. -/
def slot (i : Nat) : Nat := L.start + i + 1

/-- The addresses the header on the disk lists. -/
def logged (disk : Nat → β) : List Nat := L.header (disk L.start)

/-- What a block holds once the log has been replayed. -/
def recovered (disk : Nat → β) (b : Nat) : β :=
  match (L.logged disk).idxOf? b with
  | some i => disk (L.slot i)
  | none => disk b

/-- A list of blocks that the log can hold. -/
structure Fits (bs : List Nat) : Prop where
  home : ∀ b ∈ bs, L.Home b
  nodup : bs.Nodup
  room : bs.length + 1 ≤ L.size

variable {L}

theorem Home.ne_start {b : Nat} (h : L.Home b) (hsize : 1 ≤ L.size) : b ≠ L.start := by
  unfold Home at h
  omega

theorem Home.ne_slot {b i : Nat} (h : L.Home b) (hi : i + 1 < L.size) : b ≠ L.slot i := by
  unfold Home at h
  unfold slot
  omega

theorem slot_ne_start (i : Nat) : L.slot i ≠ L.start := by
  unfold slot
  omega

theorem slot_inj {i j : Nat} (h : L.slot i = L.slot j) : i = j := by
  unfold slot at h
  omega

theorem Fits.nil (h : 1 ≤ L.size) : L.Fits [] where
  home := by simp
  nodup := List.nodup_nil
  room := by simpa using h

/-- One block more, while there is room. -/
theorem Fits.append {bs : List Nat} {b : Nat} (h : L.Fits bs) (hb : L.Home b) (hnew : b ∉ bs)
    (hroom : bs.length + 1 < L.size) : L.Fits (bs ++ [b]) where
  home := by
    intro x hx
    rcases List.mem_append.mp hx with hx | hx
    · exact h.home x hx
    · rw [List.mem_singleton.mp hx]
      exact hb
  nodup := by
    rw [List.nodup_append]
    refine ⟨h.nodup, List.nodup_singleton b, ?_⟩
    intro x hx y hy
    rw [List.mem_singleton.mp hy]
    exact ne_of_mem_of_not_mem hx hnew
  room := by
    rw [List.length_append, List.length_singleton]
    omega

theorem idxOf_get {bs : List Nat} (hnd : bs.Nodup) {b i : Nat} (h : bs[i]? = some b) :
    bs.idxOf? b = some i := by
  obtain ⟨hi, hb⟩ := List.getElem?_eq_some_iff.mp h
  rw [List.idxOf?_eq_some_iff]
  refine ⟨hi, by simp [hb], ?_⟩
  intro j hj
  have hne : bs[j] ≠ bs[i] := by
    intro heq
    have := (List.Nodup.getElem_inj_iff hnd).mp heq
    omega
  rw [hb] at hne
  simpa using hne

theorem get_of_idxOf {bs : List Nat} {b i : Nat} (h : bs.idxOf? b = some i) : bs[i]? = some b := by
  rw [List.idxOf?_eq_some_iff] at h
  obtain ⟨hi, hb, -⟩ := h
  rw [List.getElem?_eq_getElem hi]
  simpa using hb

theorem recovered_get {disk : Nat → β} (hnd : (L.logged disk).Nodup) {b i : Nat}
    (h : (L.logged disk)[i]? = some b) : L.recovered disk b = disk (L.slot i) := by
  rw [recovered, idxOf_get hnd h]

theorem recovered_not_mem {disk : Nat → β} {b : Nat} (h : b ∉ L.logged disk) :
    L.recovered disk b = disk b := by
  rw [recovered, List.idxOf?_eq_none_iff.mpr h]

/-- A block that has been installed, or was not logged, holds what it will hold. -/
theorem recovered_eq_disk {disk : Nat → β} (hfits : L.Fits (L.logged disk)) {b : Nat}
    (h : ∀ i, (L.logged disk)[i]? = some b → disk b = disk (L.slot i)) :
    L.recovered disk b = disk b := by
  by_cases hb : b ∈ L.logged disk
  · obtain ⟨i, hi, rfl⟩ := List.mem_iff_getElem.mp hb
    have hget := List.getElem?_eq_getElem hi
    rw [recovered_get hfits.nodup hget, h i hget]
  · exact recovered_not_mem hb

/-! ## The writes of a commit -/

theorem logged_update_ne {disk : Nat → β} {a : Nat} (v : β) (h : a ≠ L.start) :
    L.logged (update disk a v) = L.logged disk := by
  rw [logged, logged, update_of_ne (Ne.symm h)]

/-- A slot that the header does not list yet is free to be written. -/
theorem recovered_write_slot {disk : Nat → β} (v : β) {i b : Nat}
    (hi : (L.logged disk).length ≤ i) (hroom : i + 1 < L.size) (hb : L.Home b) :
    L.recovered (update disk (L.slot i) v) b = L.recovered disk b := by
  rw [recovered, recovered, logged_update_ne v (slot_ne_start i)]
  cases hidx : (L.logged disk).idxOf? b with
  | none => exact update_of_ne (hb.ne_slot hroom) _ _
  | some j =>
      obtain ⟨hj, -⟩ := List.getElem?_eq_some_iff.mp (get_of_idxOf hidx)
      exact update_of_ne (fun h => by have := slot_inj h; omega) _ _

/-- Installing a logged block. -/
theorem recovered_install {disk : Nat → β} (hfits : L.Fits (L.logged disk)) {a i b : Nat}
    (ha : (L.logged disk)[i]? = some a) :
    L.recovered (update disk a (disk (L.slot i))) b = L.recovered disk b := by
  have hmem := List.mem_of_getElem? ha
  have hhome := hfits.home a hmem
  have hroom := hfits.room
  rw [recovered, recovered, logged_update_ne _ (hhome.ne_start (by omega))]
  cases hidx : (L.logged disk).idxOf? b with
  | none =>
      rw [List.idxOf?_eq_none_iff] at hidx
      exact update_of_ne (ne_of_mem_of_not_mem hmem hidx).symm _ _
  | some j =>
      obtain ⟨hj, -⟩ := List.getElem?_eq_some_iff.mp (get_of_idxOf hidx)
      exact update_of_ne (hhome.ne_slot (by omega)).symm _ _

/-- The commit itself: the header lists blocks whose contents are all in their slots. -/
theorem recovered_commit {disk : Nat → β} {h : β} (hfits : L.Fits (L.header h)) {new : Nat → β}
    (hslots : ∀ i b, (L.header h)[i]? = some b → disk (L.slot i) = new b)
    (hrest : ∀ b, L.Home b → b ∉ L.header h → disk b = new b) {b : Nat} (hb : L.Home b) :
    L.recovered (update disk L.start h) b = new b := by
  have hroom := hfits.room
  have hlogged : L.logged (update disk L.start h) = L.header h := by
    rw [logged, update_self]
  rw [recovered, hlogged]
  cases hidx : (L.header h).idxOf? b with
  | none =>
      show update disk L.start h b = new b
      rw [update_of_ne (hb.ne_start (by omega))]
      exact hrest b hb (List.idxOf?_eq_none_iff.mp hidx)
  | some i =>
      show update disk L.start h (L.slot i) = new b
      rw [update_of_ne (slot_ne_start i)]
      exact hslots i b (get_of_idxOf hidx)

end Layout

/-! ## Groups of writes -/

/-- What the blocks hold for good, what they hold now, and how many calls are writing. -/
structure Store (β : Type) where
  durable : Nat → β
  current : Nat → β
  active : Nat

inductive Event (β : Type) where
  | enter
  | write (b : Nat) (v : β)
  | leave
  | commit
  | crash

variable {β : Type}

/-- A group of calls becomes durable at once, when none of them is still writing. -/
inductive Store.Step : Store β → Event β → Store β → Prop
  | enter (q : Store β) : Step q .enter { q with active := q.active + 1 }
  | write {q : Store β} (b : Nat) (v : β) : 0 < q.active →
      Step q (.write b v) { q with current := update q.current b v }
  | leave {q : Store β} : 0 < q.active → Step q .leave { q with active := q.active - 1 }
  | commit {q : Store β} : q.active = 0 → Step q .commit { q with durable := q.current }
  | crash (q : Store β) : Step q .crash { q with current := q.durable, active := 0 }

/-- What is durable is what the blocks held at some moment of the run when no call was
writing, with no commit after it: no call is ever durable in part, and no commit is lost. -/
theorem Store.durable_quiescent {q₀ q : Store β} {es : List (Event β)}
    (hstart : q₀.active = 0 ∧ q₀.current = q₀.durable) (h : Lts.Run Store.Step q₀ es q) :
    ∃ es₁ es₂ q₁, es = es₁ ++ es₂ ∧ Lts.Run Store.Step q₀ es₁ q₁ ∧ q₁.active = 0 ∧
      q₁.current = q.durable ∧ .commit ∉ es₂ := by
  induction h with
  | nil => exact ⟨[], [], q₀, rfl, .nil q₀, hstart.1, hstart.2, List.not_mem_nil⟩
  | @snoc t u es e hrun hs ih =>
      obtain ⟨es₁, es₂, q₁, rfl, hrun₁, hact, hcur, hlast⟩ := ih
      cases hs with
      | enter | write | leave | crash =>
          exact ⟨es₁, es₂ ++ [_], q₁, by rw [List.append_assoc], hrun₁, hact, hcur,
            by simp [hlast]⟩
      | commit h0 =>
          exact ⟨es₁ ++ es₂ ++ [.commit], [], { t with durable := t.current }, by simp,
            hrun.snoc (.commit h0), h0, rfl, List.not_mem_nil⟩

/-- After a crash there is nothing left to commit. -/
theorem Store.after_crash {q₀ q : Store β} {es : List (Event β)}
    (hes : ∀ e ∈ es, e = .commit ∨ e = .crash)
    (hstart : q₀.active = 0 ∧ q₀.current = q₀.durable) (h : Lts.Run Store.Step q₀ es q) :
    q.active = 0 ∧ q.durable = q₀.durable ∧ q.current = q₀.durable := by
  induction h with
  | nil => exact ⟨hstart.1, rfl, hstart.2⟩
  | @snoc t u es e _ hs ih =>
      obtain ⟨hact, hdur, hcur⟩ := ih fun x hx => hes x (List.mem_append_left _ hx)
      have he := hes e (by simp)
      cases hs with
      | enter | write | leave => simp at he
      | commit => exact ⟨hact, hcur, hcur⟩
      | crash => exact ⟨rfl, hdur, hdur⟩

end Redo
