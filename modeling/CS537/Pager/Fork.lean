import CS537.Pager.Transparency
import CS537.Pager.WorkingSet

/-!
# Pager — what `fork` copies

The child's pages have the flags and the bytes of the parent's, in frames of
their own, and its queue has the parent's `vpn`s with `pte` pointers into its own
page tables.
-/

namespace CS537.Pager

open MachineInt

variable {m m' : Machine} {Q : List Nat}

/-! ## The parent -/

/-- The parent goes on as it was. -/
theorem Forked.parent {pid : Option Int} {name : Nat} {r : Int} {child : Option Machine}
    (h : Forked pid name m r child m') : ∃ ph, m' = { m with phys := ph } := by
  cases h with
  | refused => exact ⟨m.phys, rfl⟩
  | failed _ _ _ => exact ⟨_, rfl⟩
  | child _ _ _ => exact ⟨_, rfl⟩

/-! ## The child's page table -/

/-- The entries of the copy of a directory: those of the pages below `sz`, with
their flags, and those of the kernel. -/
structure CopyOf (pgdir : PgDir) (sz : Nat) (d : PgDir) : Prop where
  table : ∀ page, 4096 * page < sz → d.hasTable page
  source : ∀ page, 4096 * page < sz → pgdir.hasTable page ∧ (pgdir.pte page).mapped
  flags : ∀ page, 4096 * page < sz → (d.pte page).toFlags = (pgdir.pte page).toFlags
  user : ∀ page, (d.pte page).u → 4096 * page < sz

theorem copyuvm_copyOf {pgdir d : PgDir} {sz : Nat} (hsz : sz ≤ kernbase) {ph ph' : Phys}
    (h : copyuvm pgdir sz ph = .ok (some d, ph')) : CopyOf pgdir sz d := by
  rcases copyuvm_spec hsz h with ⟨_, _, hd, _⟩ | ⟨d₀, ph₀, d₁, ph₁, b, hsetup, hcop, hend⟩
  · cases hd
  · rcases hend with ⟨hb, hd, _⟩ | ⟨_, hd, _⟩
    · cases hd
      have hin : ∀ page, 4096 * page < sz → Within 0 sz page :=
        fun page hlt => ⟨Nat.zero_le _, hlt⟩
      constructor
      · intro page hlt
        exact (hcop.flags hb page (hin page hlt)).1
      · intro page hlt
        obtain ⟨_, ht, hm, _⟩ := hcop.flags hb page (hin page hlt)
        exact ⟨ht, hm⟩
      · intro page hlt
        exact (hcop.flags hb page (hin page hlt)).2.2.2
      · intro page hu
        have hev := (hcop.run.2 hb).evolved (copying_bounded pgdir 0 sz)
        rcases hev.pte page with heq | ⟨hz, _⟩ | ⟨_, ⟨_, hlt⟩, _⟩
        · -- an entry of `setupkvm` is not for the user
          change d.pte page = d₀.pte page at heq
          rcases setupkvm_pte hsetup page with hz | ⟨_, hn⟩
          · rw [heq, hz] at hu
            cases hu
          · rw [heq, hn] at hu
            cases hu
        · change d.pte page = Pte.zero at hz
          rw [hz] at hu
          cases hu
        · exact hlt
    · cases hd

/-- The child's queue reads as the parent's. -/
theorem QueueView.childOf (h : QueueView m Q) {d : PgDir} (ht : ∀ v ∈ Q, d.hasTable (ppn v))
    (ph : Phys) (name : Nat) : QueueView (m.childOf d ph name) Q where
  index := h.index
  fresh := h.fresh
  view := by
    obtain ⟨E, hE, hempty⟩ := h.view
    let f : Node → Node := fun x => ⟨x.vpn, walkpgdir d x.vpn⟩
    have hview : Ring.view 128 (m.childOf d ph name).clockQueue (m.childOf d ph name).head
        = (Ring.view 128 m.clockQueue m.head).map f := by
      rw [Ring.view, Ring.view, List.map_map]
      rfl
    refine ⟨E.map f, ?_, ?_⟩
    · rw [hview, hE, List.map_append, List.map_map]
      congr 1
      apply List.map_congr_left
      intro v hv
      have hw : walkpgdir d v = some ⟨d.frame, ppn v⟩ :=
        walkpgdir_eq_some.mpr ⟨ht v hv, rfl⟩
      simp only [Function.comp_apply, f, Machine.node, hw]
      rfl
    · intro x hx
      obtain ⟨y, hy, rfl⟩ := List.mem_map.mp hx
      exact hempty y hy
  vpn_lt := h.vpn_lt
  table := ht
  nodup := h.nodup

/-- What the child has of the invariant of its parent. -/
theorem Paged.childOf (h : Paged m Q) {d : PgDir} (hcopy : CopyOf m.pgdir m.sz d) (ph : Phys)
    (name : Nat) :
    Paged (m.childOf d ph name) Q
      ∧ (Covered m Q → Covered (m.childOf d ph name) Q) := by
  have hflags : ∀ page, 4096 * page < m.sz →
      (d.pte page).toFlags = (m.pgdir.pte page).toFlags := hcopy.flags
  have hdec : ∀ page, 4096 * page < m.sz →
      ((d.pte page).Decrypted ↔ (m.pgdir.pte page).Decrypted) := by
    intro page hlt
    have hp : (d.pte page).p = (m.pgdir.pte page).p := congrArg Flags.p (hflags page hlt)
    have he : (d.pte page).e = (m.pgdir.pte page).e := congrArg Flags.e (hflags page hlt)
    have hu : (d.pte page).u = (m.pgdir.pte page).u := congrArg Flags.u (hflags page hlt)
    constructor
    · intro hd
      exact ⟨hp ▸ hd.present, he ▸ hd.plain, hu ▸ hd.user⟩
    · intro hd
      exact ⟨hp ▸ hd.present, he ▸ hd.plain, hu ▸ hd.user⟩
  have hbelow : ∀ v ∈ Q, 4096 * ppn v < m.sz := by
    intro v hv
    rw [h.ppn_mul hv]
    exact h.below v hv
  refine ⟨?_, ?_⟩
  · constructor
    · exact h.view.childOf (fun v hv => hcopy.table _ (hbelow v hv)) ph name
    · exact h.size
    · exact h.aligned
    · exact h.below
    · intro v hv
      rcases h.queued v hv with hd | hm
      · exact .inl ((hdec _ (hbelow v hv)).mpr hd)
      · -- a page that is not mapped makes `copyuvm` panic
        have := (hcopy.source _ (hbelow v hv)).2
        rw [hm] at this
        cases this
    · intro page hu
      exact hcopy.table page (hcopy.user page hu)
    · exact hcopy.user
    · intro page hu
      have hlt := hcopy.user page hu
      have hu' : (m.pgdir.pte page).u = true := by
        rw [← show (d.pte page).u = (m.pgdir.pte page).u from
          congrArg Flags.u (hflags page hlt)]
        exact hu
      rcases h.coded page hu' with hd | hs
      · exact .inl ((hdec page hlt).mpr hd)
      · refine .inr ?_
        rw [Pte.sealed_iff] at hs ⊢
        have hp : (d.pte page).p = (m.pgdir.pte page).p := congrArg Flags.p (hflags page hlt)
        have he : (d.pte page).e = (m.pgdir.pte page).e := congrArg Flags.e (hflags page hlt)
        exact ⟨he.trans hs.1, hp.trans hs.2.1, hu⟩
  · intro hc page hd
    exact hc page ((hdec page (hcopy.user page hd.user)).mp hd)

end CS537.Pager
