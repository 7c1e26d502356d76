import CS537.Pager.FaultHandler

/-!
# Pager — the resident set

The pages of a process in the clear are those its queue names, once each. Each
event keeps this if it encrypts no page that is in the clear, other than those it
has just mapped, and encrypts all of those: `mencrypt` does not take pages out of
the queue, and `sbrk` encrypts whole pages from the page of the old size on.
-/

namespace CS537.Pager

open MachineInt

variable {m m' : Machine} {Q : List Nat}

/-- A user page is present and in the clear if exactly one slot names it, and it is
encrypted otherwise; and no slot names a page at or above the size. -/
structure ResidentSet (m : Machine) : Prop where
  resident : ∀ page, 4096 * page < m.sz → (m.pgdir.pte page).u →
    (((m.pgdir.pte page).p ∧ (m.pgdir.pte page).e = false)
      ↔ ∃! i, i < clocksize ∧ (m.clockQueue i).vpn = 4096 * page)
  encrypted : ∀ page, 4096 * page < m.sz → (m.pgdir.pte page).u →
    ¬ ((m.pgdir.pte page).p ∧ (m.pgdir.pte page).e = false) →
    (m.pgdir.pte page).p = false ∧ (m.pgdir.pte page).e
  below : ∀ i < clocksize, (m.clockQueue i).vpn ≠ noVpn → (m.clockQueue i).vpn < m.sz

/-- A queued page has one slot. -/
theorem QueueView.slot_unique (h : QueueView m Q) {v i j : Nat} (hv : v < noVpn) (hi : i < 128)
    (hj : j < 128) (hiv : (m.clockQueue i).vpn = v) (hjv : (m.clockQueue j).vpn = v) :
    i = j := by
  obtain ⟨E, hE, hempty⟩ := h.view
  obtain ⟨a, ha, rfl⟩ := Ring.exists_pos m.head_lt hi
  obtain ⟨b, hb, rfl⟩ := Ring.exists_pos m.head_lt hj
  -- a position of the view that holds `v` lies behind the empty slots
  have hpos : ∀ k < 128, (m.clockQueue ((m.head + k) % 128)).vpn = v →
      E.length ≤ k ∧ (Q.map m.node)[k - E.length]? = some (m.node v) := by
    intro k hk hkv
    have hget : (E ++ Q.map m.node)[k]? = some (m.clockQueue ((m.head + k) % 128)) := by
      rw [← hE, List.getElem?_eq_getElem (by simpa using hk), Ring.view_getElem]
    have hle : E.length ≤ k := by
      by_contra hlt
      rw [List.getElem?_append_left (by omega)] at hget
      have := hempty _ (List.mem_of_getElem? hget)
      omega
    refine ⟨hle, ?_⟩
    rw [List.getElem?_append_right hle] at hget
    rw [hget]
    obtain ⟨w, hw, hnode⟩ := List.mem_map.mp (List.mem_of_getElem? hget)
    rw [← hnode] at hkv ⊢
    have hwv : w = v := hkv
    rw [hwv]
  obtain ⟨hla, hga⟩ := hpos a ha hiv
  obtain ⟨hlb, hgb⟩ := hpos b hb hjv
  have hnd : (Q.map m.node).Nodup := by
    apply List.Nodup.map _ (List.Nodup.of_map _ h.nodup)
    intro x y hxy
    exact congrArg Node.vpn hxy
  have hlt : a - E.length < (Q.map m.node).length := by
    by_contra hge
    rw [List.getElem?_eq_none (by omega)] at hga
    cases hga
  have heq := (List.getElem?_inj hlt hnd).mp (hga.trans hgb.symm)
  rw [show a = b by omega]

/-- The invariant says which pages are resident. -/
theorem Paged.residentSet (h : Paged m Q) (hc : Covered m Q) : ResidentSet m where
  resident := by
    intro page hlt hu
    have hsz := h.size
    simp only [kernbase] at hsz
    have hv : 4096 * page < noVpn := by
      simp only [noVpn]
      omega
    constructor
    · intro ⟨hp, he⟩
      obtain ⟨i, hi, hvpn⟩ := (h.view.mem_iff hv).mp (hc page ⟨hp, he, hu⟩)
      refine ⟨i, ⟨hi, hvpn⟩, ?_⟩
      intro j ⟨hj, hjv⟩
      exact h.view.slot_unique hv hj hi hjv hvpn
    · intro ⟨i, ⟨hi, hvpn⟩, _⟩
      have hq := h.queued _ ((h.view.mem_iff hv).mpr ⟨i, hi, hvpn⟩)
      rw [CS537.Pager.ppn_mul] at hq
      rcases hq with hd | hm
      · exact ⟨hd.present, hd.plain⟩
      · -- a user page is mapped
        rcases h.coded page hu with hd | hs
        · exact ⟨hd.present, hd.plain⟩
        · rw [Pte.sealed_mapped hs] at hm
          cases hm
  encrypted := by
    intro page _ hu hn
    rcases h.coded page hu with hd | hs
    · exact absurd ⟨hd.present, hd.plain⟩ hn
    · have hs' := Pte.sealed_iff.mp hs
      exact ⟨hs'.2.1, hs'.1⟩
  below := by
    intro i hi hocc
    obtain ⟨E, hE, hempty⟩ := h.view.view
    have hin : m.clockQueue i ∈ Ring.view 128 m.clockQueue m.head :=
      (Ring.mem_view m.head_lt).mpr ⟨i, hi, rfl⟩
    rw [hE, List.mem_append] at hin
    rcases hin with hin | hin
    · exact absurd (hempty _ hin) hocc
    · obtain ⟨v, hv, hnode⟩ := List.mem_map.mp hin
      rw [← hnode]
      exact h.below v hv

/-- Where every event so far has balanced its pages, the queue names the pages in
the clear. -/
theorem covered_of_balanced (h : Lts.Reachable Execs (Lts.Guarded Balances Step) m) :
    ∃ Q, Paged m Q ∧ Covered m Q := by
  refine h.invariant (I := fun m => ∃ Q, Paged m Q ∧ Covered m Q) ?_ ?_
  · intro m hm
    exact ⟨[], (Execs.fresh hm).paged⟩
  · intro m e m' ⟨Q, hQ, hc⟩ ⟨hb, hs⟩
    obtain ⟨Q', hQ', hc'⟩ := hs.paged hQ (hb.spares hQ)
    exact ⟨Q', hQ', hc' hc hb⟩

/-- In every run whose events balance their pages, the resident set is that of the
queue. -/
theorem residentSet_of_balanced (h : Lts.Reachable Execs (Lts.Guarded Balances Step) m) :
    ResidentSet m := by
  obtain ⟨Q, hQ, hc⟩ := covered_of_balanced h
  exact hQ.residentSet hc

theorem residentSet_of_balanced_bare : ∃ m, Execs m ∧ ResidentSet m := by
  obtain ⟨m, hm, _⟩ := execs_bare
  exact ⟨m, hm, residentSet_of_balanced (.initial hm)⟩

/-- A process that encrypts a page of its working set leaves its slot behind. -/
theorem residentSet_can_break : ∃ m, Lts.Reachable Execs Step m ∧ ¬ ResidentSet m := by
  obtain ⟨m, hm, hfill, hs⟩ := exists_filled 1 (by decide)
  refine ⟨m, hm, ?_⟩
  intro hres
  have hs' := Pte.sealed_iff.mp hs
  have hnamed : ∃! i, i < clocksize ∧ (m.clockQueue i).vpn = 4096 * 1 := by
    refine ⟨0, ⟨by decide, ?_⟩, ?_⟩
    · rw [hfill.full 0 (by decide)]
      rfl
    · intro i ⟨hi, hv⟩
      by_contra hne
      rw [hfill.rest i hi (by omega)] at hv
      cases hv
  have hlt : 4096 * 1 < m.sz := by
    rw [hfill.size]
    decide
  have hp := ((hres.resident 1 hlt hs'.2.2).mpr hnamed).1
  rw [hs'.2.1] at hp
  cases hp

end CS537.Pager
