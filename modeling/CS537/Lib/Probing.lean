import Mathlib.Data.Nat.Find
import Mathlib.Data.List.Basic

/-!
# Linear probing

Open addressing in a table of `n` slots, over any entries with keys and any
placing of the keys. A probe for a key starts at its home and walks upwards,
wrapping at `n`, until it meets an empty slot or the key. `Layout` is the
invariant that makes this find every entry: no empty slot lies between an
entry's home and the entry, and no key is stored twice.
-/

namespace Probing

variable {α κ : Type}

/-- The slot `d` places after `h`, cyclically. -/
def spot (n h d : Nat) : Nat := (h + d) % n

/-- One step of a probe: `h++`, and back to `0` at the end. -/
def next (n h : Nat) : Nat := if h + 1 = n then 0 else h + 1

theorem spot_zero {n h : Nat} (hh : h < n) : spot n h 0 = h := Nat.mod_eq_of_lt hh

theorem spot_lt {n h : Nat} (d : Nat) (hh : h < n) : spot n h d < n :=
  Nat.mod_lt _ (by omega)

theorem next_lt {n h : Nat} (hh : h < n) : next n h < n := by
  unfold next; split <;> omega

/-- Walking `d` places from the next slot is walking `d + 1` places. -/
theorem spot_next (n h d : Nat) :
    spot n (next n h) d = spot n h (d + 1) := by
  unfold spot next
  split
  · rename_i h1
    have : h + (d + 1) = d + n := by omega
    rw [this, Nat.add_mod_right, Nat.zero_add]
  · congr 1; omega

/-- Every slot is met within one round. -/
theorem exists_spot {n h s : Nat} (hh : h < n) (hs : s < n) : ∃ d < n, spot n h d = s := by
  by_cases hle : h ≤ s
  · refine ⟨s - h, by omega, ?_⟩
    rw [spot, show h + (s - h) = s by omega, Nat.mod_eq_of_lt hs]
  · refine ⟨n + s - h, by omega, ?_⟩
    rw [spot, show h + (n + s - h) = s + n by omega, Nat.add_mod_right, Nat.mod_eq_of_lt hs]

/-- A probe that can stop at some slot stops within one round, and `d` is the
first place where it can. -/
theorem exists_first {n h s : Nat} (stop : Nat → Prop) (hh : h < n) (hs : s < n)
    (hstop : stop s) :
    ∃ d < n, stop (spot n h d) ∧ ∀ j < d, ¬ stop (spot n h j) := by
  classical
  obtain ⟨d, hd, rfl⟩ := exists_spot hh hs
  have hex : ∃ d, stop (spot n h d) := ⟨d, hstop⟩
  refine ⟨Nat.find hex, lt_of_le_of_lt (Nat.find_min' hex hstop) hd, Nat.find_spec hex, ?_⟩
  intro j hj
  exact Nat.find_min hex hj

/-- Entry `a` is in slot `s`. -/
def Holds (t : List (Option α)) (s : Nat) (a : α) : Prop := t[s]? = some (some a)

/-- A probe from `h` meets `d` full slots before place `d`. -/
def FullBefore (t : List (Option α)) (h d : Nat) : Prop :=
  ∀ j < d, t[spot t.length h j]? ≠ some none

/-- The probing invariant for entries keyed by `key` and homes given by `home`. -/
structure Layout (home : κ → Nat) (key : α → κ) (t : List (Option α)) : Prop where
  gapless : ∀ {s a}, Holds t s a →
    ∃ d < t.length, spot t.length (home (key a)) d = s ∧ FullBefore t (home (key a)) d
  unique : ∀ {s s' a a'}, Holds t s a → Holds t s' a' → key a = key a' → s = s'

variable {home : κ → Nat} {key : α → κ} {t : List (Option α)}

theorem Holds.lt {s : Nat} {a : α} (h : Holds t s a) : s < t.length :=
  (List.getElem?_eq_some_iff.mp h).1

theorem Holds.mem {s : Nat} {a : α} (h : Holds t s a) : some a ∈ t :=
  List.mem_of_getElem? h

theorem exists_holds {a : α} (h : some a ∈ t) : ∃ s, Holds t s a :=
  List.mem_iff_getElem?.mp h

theorem Holds.inj {s : Nat} {a b : α} (h : Holds t s a) (h' : Holds t s b) : a = b := by
  unfold Holds at h h'
  rw [h] at h'
  simpa using h'

/-- Writing slot `s` changes what is in slot `s` only. -/
theorem holds_set {s s' : Nat} {a b : α} (hs : s < t.length) :
    Holds (t.set s (some a)) s' b ↔ (s' = s ∧ b = a) ∨ (s' ≠ s ∧ Holds t s' b) := by
  unfold Holds
  by_cases h : s = s'
  · subst h
    simp [hs, eq_comm]
  · simp [List.getElem?_set_ne h, Ne.symm h]

/-- Filling a slot keeps full slots full. -/
theorem FullBefore.set {s h d : Nat} {a : α} (hf : FullBefore t h d) :
    FullBefore (t.set s (some a)) h d := by
  intro j hj hnone
  rw [List.length_set] at hnone
  by_cases hs : s = spot t.length h j
  · rw [← hs, List.getElem?_set_self'] at hnone
    cases hx : t[s]? <;> simp [hx] at hnone
  · rw [List.getElem?_set_ne hs] at hnone
    exact hf j hj hnone

/-- The empty table. -/
theorem Layout.empty (n : Nat) : Layout home key (List.replicate n (none : Option α)) := by
  have hno : ∀ {s a}, ¬ Holds (List.replicate n (none : Option α)) s a := by
    intro s a h
    have := List.eq_of_mem_replicate h.mem
    cases this
  exact ⟨fun h => absurd h hno, fun h => absurd h hno⟩

/-- Filling slot `spot h d`, reached from the new entry's home over full slots,
with a new key, keeps the invariant. -/
theorem Layout.insert {a : α} {d : Nat} (hl : Layout home key t) (hd : d < t.length)
    (hempty : t[spot t.length (home (key a)) d]? = some none)
    (hfull : FullBefore t (home (key a)) d)
    (hnew : ∀ b, some b ∈ t → key b ≠ key a) :
    Layout home key (t.set (spot t.length (home (key a)) d) (some a)) := by
  have hs : spot t.length (home (key a)) d < t.length :=
    (List.getElem?_eq_some_iff.mp hempty).1
  constructor
  · intro s b hb
    rw [List.length_set]
    rcases (holds_set hs).mp hb with ⟨rfl, rfl⟩ | ⟨_, hb⟩
    · exact ⟨d, hd, rfl, hfull.set⟩
    · obtain ⟨d', hd', hspot, hf⟩ := hl.gapless hb
      exact ⟨d', hd', hspot, hf.set⟩
  · intro s s' b b' hb hb' hkey
    rcases (holds_set hs).mp hb with ⟨rfl, rfl⟩ | ⟨_, hold⟩ <;>
      rcases (holds_set hs).mp hb' with ⟨rfl, rfl⟩ | ⟨_, hold'⟩
    · rfl
    · exact absurd hkey.symm (hnew _ hold'.mem)
    · exact absurd hkey (hnew _ hold.mem)
    · exact hl.unique hold hold' hkey

/-- Replacing an entry by one with the same key keeps the invariant. -/
theorem Layout.replace {s : Nat} {a b : α} (hl : Layout home key t) (hb : Holds t s b)
    (hkey : key b = key a) : Layout home key (t.set s (some a)) := by
  -- every entry of the new table stands where one with its key stood before
  have hold : ∀ {s' c}, Holds (t.set s (some a)) s' c → ∃ c', Holds t s' c' ∧ key c' = key c := by
    intro s' c hc
    rcases (holds_set hb.lt).mp hc with ⟨rfl, rfl⟩ | ⟨_, hc⟩
    · exact ⟨b, hb, hkey⟩
    · exact ⟨c, hc, rfl⟩
  constructor
  · intro s' c hc
    obtain ⟨c', hc', hk⟩ := hold hc
    obtain ⟨d, hd, hspot, hf⟩ := hl.gapless hc'
    rw [hk] at hspot hf
    rw [List.length_set]
    exact ⟨d, hd, hspot, hf.set⟩
  · intro s' s'' c c' hc hc' hkk
    obtain ⟨e, he, hk⟩ := hold hc
    obtain ⟨e', he', hk'⟩ := hold hc'
    exact hl.unique he he' (by rw [hk, hk', hkk])

/-- A probe that met only full slots with other keys finds the key at its
place, if the table holds it at all. -/
theorem Layout.found {d : Nat} {a : α} (hl : Layout home key t) (hmem : some a ∈ t)
    (hother : ∀ j < d, ∀ b, Holds t (spot t.length (home (key a)) j) b → key b ≠ key a)
    (hstop : t[spot t.length (home (key a)) d]? = some none ∨
      ∃ b, Holds t (spot t.length (home (key a)) d) b ∧ key b = key a) :
    Holds t (spot t.length (home (key a)) d) a := by
  obtain ⟨s, hs⟩ := exists_holds hmem
  obtain ⟨e, _, hspot, hfull⟩ := hl.gapless hs
  have hed : ¬ e < d := fun hlt => hother e hlt a (hspot ▸ hs) rfl
  rcases hstop with hnone | ⟨b, hb, hkey⟩
  · -- an empty slot is not passed before the entry, so it is not there at all
    rcases Nat.lt_or_ge d e with hlt | hge
    · exact absurd hnone (hfull d hlt)
    · obtain rfl : e = d := by omega
      rw [hspot] at hnone
      rw [Holds, hnone] at hs
      cases hs
  · obtain rfl := hl.unique hb hs hkey
    exact hs

end Probing
