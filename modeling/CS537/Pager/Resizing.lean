import CS537.Pager.Spaces

/-!
# Pager — a memory that grows and shrinks

What `growproc` does to the memory of a process, for every amount.
-/

namespace CS537.Pager

open MachineInt

variable {m m' : Machine}

/-! ## Pages that come and go -/

/-- A page that stays through `allocuvm`, also one that fails, has its entry. -/
theorem Grown.pte {oldsz newsz lo r : Nat} {d : PgDir} {ph : Phys} (hs : Separate m)
    (hlt : newsz < kernbase) (h : Grown oldsz newsz lo m.pgdir m.phys r d ph) {page : Nat}
    (hp : m.pgdir.UserMapped page) (hp' : d.UserMapped page) :
    d.pte page = m.pgdir.pte page := by
  have hno : ∀ page, ¬ Growing lo newsz (.unmap page) := by
    intro page h
    cases h
  cases h with
  | done hrun => exact (hrun.keeps hno hs.apart hp).1
  | failed hrun hback _ =>
      obtain ⟨hpte, _⟩ := hrun.keeps hno hs.apart hp
      exact (hback.leaves (Nat.le_of_lt hlt) (growing_apart hrun hs.apart) hp').2.1.trans hpte

theorem Evolved.guarded {new : Nat → Pte → Prop} {gone : Nat → Prop} {d d' : PgDir}
    (h : Evolved new gone d d')
    (hnew : ∀ page pte, new page pte → pte.u → page < kernPage ∧ pte.Plain) (hd : d.Guarded) :
    d'.Guarded := by
  intro page hu
  rcases h.pte page with heq | ⟨hz, _⟩ | ⟨_, hin⟩
  · rw [heq] at hu ⊢
    exact hd page hu
  · rw [hz] at hu
    cases hu
  · exact hnew page _ hin hu

theorem Pte.plain_of_flags {pte : Pte} (h : pte.toFlags = userFlags) : pte.Plain :=
  fun _ => congrArg Flags.e h

theorem Grown.guarded {oldsz newsz lo r : Nat} {d d' : PgDir} {ph ph' : Phys}
    (hlt : newsz < kernbase) (hd : d.Guarded) (h : Grown oldsz newsz lo d ph r d' ph') :
    d'.Guarded := by
  have hgrow : ∀ {t : Vm}, VmRun (Growing lo newsz) ⟨d, ph, []⟩ t → t.dir.Guarded := by
    intro t hrun
    refine (hrun.evolved (growing_bounded _ _)).guarded (fun page pte hin _ => ?_) hd
    exact ⟨hin.1.lt_kernPage (Nat.le_of_lt hlt), Pte.plain_of_flags hin.2⟩
  cases h with
  | done hrun => exact hgrow hrun
  | failed hrun hback _ =>
      exact (hback.evolved (retreating_bounded _ _)).guarded (fun _ _ hno _ => hno.elim)
        (hgrow hrun)

theorem Tidy.allocuvm (h : Tidy m) {newsz r : Nat} {d : PgDir} {ph : Phys}
    (hok : allocuvm m.sz newsz m.pgdir m.phys = .ok (r, d, ph)) : Tidy (m.withVm d ph) := by
  rcases allocuvm_spec hok with ⟨_, _, rfl, rfl⟩ | ⟨_, _, _, rfl, rfl⟩ | ⟨hlt, _, hgrown⟩
  · exact h
  · exact h
  · exact ⟨(hgrown.content h.separate hlt).1, hgrown.guarded hlt h.guarded⟩

theorem Tidy.unmapped (h : Tidy m) {lo hi : Nat} (hhi : hi ≤ kernbase) {d : PgDir} {ph : Phys}
    (hrun : VmRun (Unmapping lo hi) ⟨m.pgdir, m.phys, []⟩ ⟨d, ph, []⟩) : Tidy (m.withVm d ph) :=
  ⟨h.separate.unmapped hhi hrun,
    (hrun.evolved (unmapping_bounded _ _)).guarded (fun _ _ hno _ => hno.elim) h.guarded⟩

/-- What is left when pages are taken down. -/
theorem Tidy.unmapped_view (h : Tidy m) {newsz : Nat} {d : PgDir} {ph : Phys}
    (hrun : VmRun (Unmapping (pgRoundUp newsz) m.sz) ⟨m.pgdir, m.phys, []⟩ ⟨d, ph, []⟩)
    (hdone : ∀ page, Within (pgRoundUp newsz) m.sz page → d.hasTable page →
      (d.pte page).mapped = false) (kstack : Nat) :
    view d ph = cut ((m.process kstack).space m.phys) newsz := by
  have hframe := shrunk_pageFrame hrun hdone
  have hback : VmRun (Retreating (pgRoundUp newsz) m.sz) ⟨m.pgdir, m.phys, []⟩ ⟨d, ph, []⟩ :=
    hrun.mono fun _ he => .inl he
  funext page
  change view d ph page =
    if Within (pgRoundUp newsz) m.sz page then none else view m.pgdir m.phys page
  split
  · rename_i hin
    refine view_none fun _ => ?_
    rw [hframe, if_pos hin]
  · rename_i hin
    refine view_congr (fun _ => by rw [hframe, if_neg hin]) fun _ hp => ?_
    obtain ⟨_, hpte, hmem⟩ := hback.leaves h.separate.size h.separate.apart hp
    change d.pte page = m.pgdir.pte page at hpte
    change ph.mem _ = m.phys.mem _ at hmem
    rw [content, hpte, hmem]
    exact ⟨rfl, rfl⟩

/-- The ends of `growproc` when it asks for more. -/
theorem growproc_alloc {n r : Int} (hpos : 0 < n) (hok : growproc n m = .ok (r, m')) :
    ∃ sz d ph, allocuvm m.sz (toU32 (m.sz + n)) m.pgdir m.phys = .ok (sz, d, ph) ∧
      ((sz = 0 ∧ r = -1 ∧ m' = m.withVm d ph) ∨
        (sz ≠ 0 ∧ r = 0 ∧ ∃ r₁ m₁, mencrypt m.sz (n.tdiv 4096) (m.withVm d ph) = .ok (r₁, m₁) ∧
          m' = { m₁ with sz := sz })) := by
  unfold growproc at hok
  rw [if_pos hpos] at hok
  simp only [bind_eq_ok] at hok
  obtain ⟨⟨sz, d, ph⟩, halloc, hok⟩ := hok
  refine ⟨sz, d, ph, halloc, ?_⟩
  dsimp only at hok
  split at hok
  · rename_i hzero
    cases hok
    exact .inl ⟨hzero, rfl, rfl⟩
  · rename_i hne
    simp only [bind_eq_ok] at hok
    obtain ⟨⟨r₁, m₁⟩, henc, hok⟩ := hok
    cases hok
    exact .inr ⟨hne, rfl, r₁, m₁, henc, rfl⟩

/-- What `growproc` takes and gives back is accounted for. -/
theorem Tidy.growproc (h : Tidy m) {n r : Int} (hok : growproc n m = .ok (r, m')) :
    Accounted m.pgdir m.phys m'.pgdir m'.phys ∧ m'.pgdir.Guarded := by
  rcases lt_trichotomy n 0 with hneg | rfl | hpos
  · obtain ⟨sz, d, ph, hde, hend⟩ := growproc_dealloc hneg hok
    have hmid : Tidy (m.withVm d ph) ∧ Accounted m.pgdir m.phys d ph := by
      rcases deallocuvm_spec h.separate.size [] hde with ⟨_, _, rfl, rfl⟩ | ⟨_, _, hrun, _⟩
      · exact ⟨h, .refl _ _⟩
      · exact ⟨h.unmapped h.separate.size hrun,
          hrun.accounted fun _ he => he.inRange h.separate.size⟩
    rcases hend with ⟨_, _, rfl⟩ | ⟨_, _, k, page, m₁, hloop, rfl⟩
    · exact ⟨hmid.2, hmid.1.guarded⟩
    · have hin := hmid.1.removeLoop hloop
      exact ⟨hmid.2.trans hin.accounted, (hin.tidy hmid.1).guarded⟩
  · cases hok
    exact ⟨.refl _ _, h.guarded⟩
  · obtain ⟨sz, d, ph, halloc, hend⟩ := growproc_alloc hpos hok
    have hacc := allocuvm_accounted halloc
    have hmid := h.allocuvm halloc
    rcases hend with ⟨_, _, rfl⟩ | ⟨_, _, r₁, m₁, henc, rfl⟩
    · exact ⟨hacc, hmid.guarded⟩
    · have hin : Inplace (m.withVm d ph) m₁ := hmid.mencrypt henc
      exact ⟨hacc.trans hin.accounted, (hin.tidy hmid).guarded⟩

/-! ## `sbrk` -/

theorem toU32_grow {sz : Nat} {n : Int} (hsz : sz ≤ kernbase) (hn : IsInt n) (hpos : 0 < n) :
    toU32 (sz + n) = (sz + n).toNat := by
  simp only [kernbase] at hsz
  have := hn.2
  unfold toU32
  omega

theorem pgRoundUp_mono {a b : Nat} (h : a ≤ b) (hb : b ≤ kernbase) :
    pgRoundUp a ≤ pgRoundUp b := by
  simp only [kernbase] at hb
  unfold pgRoundUp u32
  omega

/-- More memory, when there is enough. -/
theorem Tidy.growproc_more (h : Tidy m) (hcov : m.pgdir.Covers m.sz) {n : Int} (hn : IsInt n)
    (hpos : 0 < n) (hok : Pager.growproc n m = .ok (0, m')) (kstack : Nat) :
    SbrkTo n ((m.process kstack).space m.phys) ((m'.process kstack).space m'.phys) ∧
      m'.sz ≤ kernbase ∧ m'.pgdir.Covers m'.sz := by
  obtain ⟨d, ph, hext, hrec, _⟩ := growproc_extends h.separate hn hpos hok
  have hsame := growproc_content h.separate hpos hok
  have hsz := h.separate.size
  have hfits := hext.fits
  have hsize : m'.sz = (m.sz + n).toNat := by
    obtain ⟨sz, d, ph, halloc, ⟨_, hr, _⟩ | ⟨hne, _, r₁, m₁, _, rfl⟩⟩ := growproc_alloc hpos hok
    · cases hr
    · rw [toU32_grow hsz hn hpos] at halloc
      rcases allocuvm_spec halloc with ⟨_, h0, _⟩ | ⟨_, hless, _⟩ | ⟨_, _, hgrown⟩
      · exact absurd h0 hne
      · omega
      · cases hgrown with
        | done _ => rfl
        | failed _ _ _ => exact absurd rfl hne
  have hle : m'.sz ≤ kernbase := by
    rw [hsize]
    simp only [kernbase] at hfits ⊢
    omega
  have hframe : ∀ page, m'.pgdir.pageFrame page = d.pageFrame page := hrec.pageFrame
  refine ⟨?_, hle, fun page hpage hge => ?_⟩
  · have hspace : (m'.process kstack).space m'.phys =
        grown ((m.process kstack).space m.phys) n := by
      change (⟨m'.sz, view m'.pgdir m'.phys⟩ : PrivateMemory.Space (Fin 4096) UInt8) =
        ⟨(m.sz + n).toNat, fun page => if Within (pgRoundUp m.sz) (m.sz + n).toNat page
          then some zeroPage else view m.pgdir m.phys page⟩
      rw [hsize]
      congr 1
      funext page
      split
      · rename_i hin
        obtain ⟨_, ht, hflags, hzero⟩ := hext.fresh page hin
        have hlt : page < kernPage := hin.lt_kernPage (hsize ▸ hle)
        have hm := Pte.mapped_of_flags hflags
        have hu : (m'.pgdir.pte page).u = true :=
          (hrec.pte page).2.1.trans (congrArg Flags.u hflags)
        have hcontent : content m'.pgdir m'.phys page = fun _ => 0 := by
          have hkept := hrec.content page ⟨ht, hm, .inl hlt⟩
          change content m'.pgdir m'.phys page = content d ph page at hkept
          rw [hkept, content, if_neg, hzero]
          have he : (d.pte page).e = false := congrArg Flags.e hflags
          rw [he]
          decide
        rw [view_some hlt, hu, hcontent]
        · rfl
        · rw [hframe, PgDir.pageFrame_isSome]
          exact ⟨ht, hm⟩
      · rename_i hin
        refine view_congr (fun _ => by rw [hframe, hext.old page hin]) fun hp hp' => ?_
        refine ⟨?_, hsame page hp hp'⟩
        rw [← hext.same page hp]
        exact (hrec.pte page).2.1
    rw [hspace]
    exact .grown hpos hfits fun page hin => view_none fun _ => (hext.fresh page hin).1
  · have hup := @pgRoundUp_mono m.sz m'.sz (by rw [hsize]; omega) hle
    rw [hframe, hext.old page, hcov page hpage (Nat.le_trans hup hge)]
    intro hin
    have hlast := le_pgRoundUp hle
    have := hin.2
    omega

/-- No memory, or no addresses. -/
theorem Tidy.growproc_none (h : Tidy m) (hcov : m.pgdir.Covers m.sz) {n : Int} (hn : IsInt n)
    (hpos : 0 < n) {d : PgDir} {ph : Phys}
    (halloc : Pager.allocuvm m.sz (toU32 (m.sz + n)) m.pgdir m.phys = .ok (0, d, ph)) :
    view d ph = view m.pgdir m.phys ∧ d.Covers m.sz := by
  rw [toU32_grow h.separate.size hn hpos] at halloc
  rcases allocuvm_spec halloc with ⟨_, _, rfl, rfl⟩ | ⟨_, hless, _⟩ | ⟨hlt, _, hgrown⟩
  · exact ⟨rfl, hcov⟩
  · omega
  · have hframe := hgrown.pageFrame_failed hcov
    refine ⟨?_, fun page hpage hge => by rw [hframe page hpage, hcov page hpage hge]⟩
    funext page
    refine view_congr (fun hpage => by rw [hframe page hpage]) fun hp hp' => ?_
    rw [hgrown.pte h.separate hlt hp hp']
    exact ⟨rfl, (hgrown.content h.separate hlt).2 page hp hp'⟩

/-- Less memory. -/
theorem Tidy.growproc_less (h : Tidy m) (hcov : m.pgdir.Covers m.sz) {n r : Int} (hn : IsInt n)
    (hneg : n < 0) (hok : Pager.growproc n m = .ok (r, m')) (kstack : Nat) :
    SbrkTo n ((m.process kstack).space m.phys) ((m'.process kstack).space m'.phys) ∧
      m'.sz ≤ kernbase ∧ m'.pgdir.Covers m'.sz := by
  have hsz := h.separate.size
  have hsz' := hsz
  simp only [kernbase] at hsz'
  have hint := hn.1
  obtain ⟨sz, d, ph, hde, hend⟩ := growproc_dealloc hneg hok
  rcases deallocuvm_spec hsz [] hde with ⟨hge, rfl, rfl, rfl⟩ | ⟨hlt, hnew, hrun, hdone⟩
  · -- less than nothing is left, and nothing happens
    have hmore : m.sz = 0 ∨ n < -m.sz := by
      unfold toU32 at hge
      omega
    rcases hend with ⟨_, _, rfl⟩ | ⟨_, _, k, page, m₁, hloop, rfl⟩
    · exact ⟨.kept fun _ => hmore, hsz, hcov⟩
    · have hin : Inplace m m₁ := h.removeLoop hloop
      have hspace := hin.space kstack
      have hsize : m₁.sz = m.sz := hin.recoded.size
      change SbrkTo n ((m.process kstack).space m.phys) ⟨m.sz, view m₁.pgdir m₁.phys⟩ ∧ _
      rw [hin.view]
      refine ⟨.kept fun _ => hmore, hsz, fun page hpage hge => ?_⟩
      rw [hin.recoded.pageFrame]
      exact hcov page hpage hge
  · have hleft := h.unmapped_view hrun hdone kstack
    have hframe := shrunk_pageFrame hrun hdone
    have hmid := h.unmapped hsz hrun
    have hcut : sz = (m.sz + n).toNat ∧ -(m.sz : Int) ≤ n := by
      unfold toU32 at hnew hlt
      omega
    rcases hend with ⟨hzero, _, rfl⟩ | ⟨hne, _, k, page, m₁, hloop, rfl⟩
    · change SbrkTo n ((m.process kstack).space m.phys) ⟨m.sz, view d ph⟩ ∧ _
      rw [← hnew, hzero] at hleft
      rw [hleft]
      refine ⟨.lost (by change 0 < m.sz; omega) (by change n = -(m.sz : Int); omega), hsz,
        fun page hpage hge => ?_⟩
      change d.pageFrame page = none
      rw [hframe, hcov page hpage hge]
      split
      · rfl
      · rfl
    · have hin : Inplace (m.withVm d ph) m₁ := hmid.removeLoop hloop
      change SbrkTo n ((m.process kstack).space m.phys) ⟨sz, view m₁.pgdir m₁.phys⟩ ∧ _
      rw [hin.view]
      change SbrkTo n ((m.process kstack).space m.phys) ⟨sz, view d ph⟩ ∧ _
      rw [hleft, ← hnew, hcut.1]
      have hle : (m.sz + n).toNat ≤ kernbase := by
        simp only [kernbase]
        omega
      refine ⟨.shrunk hneg (by change -(m.sz : Int) < n; omega), hle, fun page hpage hge => ?_⟩
      change m₁.pgdir.pageFrame page = none
      rw [hin.recoded.pageFrame]
      change d.pageFrame page = none
      rw [hframe, ← hnew, hcut.1]
      split
      · rfl
      · rename_i hout
        refine hcov page hpage ?_
        have hup : pgRoundUp (m.sz + n).toNat ≤ 4096 * page := hge
        have := @page_lt_pgRoundUp _ page hsz
        unfold Within at hout
        omega

/-- A memory that grows keeps its pages. -/
theorem SbrkTo.keeps {n : Int} {x y : PrivateMemory.Space (Fin 4096) UInt8} {page : Nat}
    {pg : PrivateMemory.Page (Fin 4096) UInt8} (hn : 0 ≤ n) (h : SbrkTo n x y)
    (hpg : x.page page = some pg) : y.page page = some pg := by
  cases h with
  | grown _ _ hfresh =>
      rw [Pager.grown]
      dsimp only
      split
      · rename_i hin
        rw [hfresh page hin] at hpg
        cases hpg
      · exact hpg
  | kept _ => exact hpg
  | shrunk hneg _ => omega
  | lost hpos heq => omega

/-- **`sbrk`**: what it does to the memory of the process, whatever is asked for. -/
theorem Tidy.growproc_space (h : Tidy m) (hcov : m.pgdir.Covers m.sz) {n r : Int} (hn : IsInt n)
    (hok : Pager.growproc n m = .ok (r, m')) (kstack : Nat) :
    SbrkTo n ((m.process kstack).space m.phys) ((m'.process kstack).space m'.phys) ∧
      (m'.process kstack).Sound := by
  have hguarded := (h.growproc hok).2
  have hspace : SbrkTo n ((m.process kstack).space m.phys) ((m'.process kstack).space m'.phys) ∧
      m'.sz ≤ kernbase ∧ m'.pgdir.Covers m'.sz := by
    rcases lt_trichotomy n 0 with hneg | rfl | hpos
    · exact h.growproc_less hcov hn hneg hok kstack
    · cases hok
      exact ⟨.kept fun hneg => absurd hneg (by decide), h.separate.size, hcov⟩
    · obtain ⟨sz, d, ph, halloc, ⟨rfl, _, rfl⟩ | ⟨_, rfl, _⟩⟩ := growproc_alloc hpos hok
      · obtain ⟨hview, hcov'⟩ := h.growproc_none hcov hn hpos halloc
        change SbrkTo n ((m.process kstack).space m.phys) ⟨m.sz, view d ph⟩ ∧ _
        rw [hview]
        exact ⟨.kept fun hneg => absurd hneg (by omega), h.separate.size, hcov'⟩
      · exact h.growproc_more hcov hn hpos hok kstack
  exact ⟨hspace.1, hspace.2.1, hspace.2.2, hguarded⟩

end CS537.Pager
