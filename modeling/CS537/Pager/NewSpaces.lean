import CS537.Pager.Resizing

/-!
# Pager — memories that are made and given back

What `fork`, `exec`, `wait` and `userinit` take from the free pages, and what the memories
they make hold.
-/

namespace CS537.Pager

open MachineInt

variable {m m' : Machine}

/-! ## What is taken -/

/-- These frames have been taken from the free ones, and nothing but free ones has been
written to. -/
structure Took (fs : Multiset Nat) (ph ph' : Phys) : Prop where
  frames : (ph'.freelist : Multiset Nat) + fs = ph.freelist
  outside : ∀ f ∉ ph.freelist, ph'.mem f = ph.mem f

namespace Took

variable {fs : Multiset Nat} {ph ph₁ ph₂ : Phys} {d d' : PgDir} {f : Nat} {rest : List Nat}

theorem refl (ph : Phys) : Took 0 ph ph := ⟨add_zero _, fun _ _ => rfl⟩

theorem notMem (h : Took fs ph ph₁) {g : Nat} (hg : g ∉ ph.freelist) :
    g ∉ (ph₁.freelist : Multiset Nat) + fs := by
  rw [h.frames]
  exact hg

theorem accounted (h : Took d.frames ph ph₁) (ha : Accounted d ph₁ d' ph₂) :
    Took d'.frames ph ph₂ where
  frames := ha.frames.trans h.frames
  outside := fun g hg => (ha.outside g (h.notMem hg)).trans (h.outside g hg)

theorem freevm (h : Took d.frames ph ph₁) (hf : freevm d ph₁ = .ok ph₂) : Took 0 ph ph₂ where
  frames := by rw [add_zero, freevm_frames hf, h.frames]
  outside := by
    intro g hg
    have hno := h.notMem hg
    rw [Multiset.mem_add, not_or] at hno
    exact (freevm_outside hno.2 hf).trans (h.outside g hg)

theorem kfree (h : Took (f ::ₘ fs) ph ph₁) (hk : kfree f ph₁ = .ok ph₂) : Took fs ph ph₂ where
  frames := by
    rw [kfree_freelist hk, ← Multiset.cons_coe, Multiset.cons_add, ← Multiset.add_cons, h.frames]
  outside := by
    intro g hg
    have hno := h.notMem hg
    have hne : g ≠ f := by
      rintro rfl
      exact hno (Multiset.mem_add.mpr (.inr (Multiset.mem_cons_self g fs)))
    exact (kfree_mem hk hne).trans (h.outside g hg)

theorem kalloc (hfree : ph.freelist = f :: rest) (h : Took fs { ph with freelist := rest } ph₁) :
    Took (f ::ₘ fs) ph ph₁ where
  frames := by
    have hframes : (ph₁.freelist : Multiset Nat) + fs = rest := h.frames
    rw [Multiset.add_cons, hframes, hfree, Multiset.cons_coe]
  outside := by
    intro g hg
    rw [hfree, List.mem_cons, not_or] at hg
    exact h.outside g hg.2

end Took

theorem setupkvm_took {ph ph' : Phys} {r : Option PgDir} (h : setupkvm ph = .ok (r, ph')) :
    Took ((r.map PgDir.frames).getD 0) ph ph' := by
  refine ⟨setupkvm_frames h, fun f hf => ?_⟩
  have hout := setupkvm_outOfReach (P := fun g => g ∉ ph.freelist) (fun g hg hno => hno hg) h
  exact hout.2.1 f hf

theorem copyuvm_took {pgdir : PgDir} {sz : Nat} (hsz : sz ≤ kernbase) {ph ph' : Phys}
    {r : Option PgDir} (h : copyuvm pgdir sz ph = .ok (r, ph')) :
    Took ((r.map PgDir.frames).getD 0) ph ph' := by
  rcases copyuvm_spec hsz h with ⟨ph₀, hsetup, rfl, rfl⟩
    | ⟨d₀, ph₀, d, ph₁, b, hsetup, hcop, hend⟩
  · exact setupkvm_took hsetup
  · have hrun : Accounted d₀ ph₀ d ph₁ := by
      refine hcop.run.1.accounted fun e he => ?_
      rcases he with he | ⟨f, rfl⟩
      · exact he.inRange hsz
      · trivial
    have htook : Took d.frames ph ph₁ := Took.accounted (setupkvm_took hsetup) hrun
    rcases hend with ⟨_, rfl, rfl⟩ | ⟨_, rfl, hfree⟩
    · exact htook
    · exact htook.freevm hfree

/-! ## `fork` -/

/-- The copy has no page behind the size. -/
theorem copyuvm_covers {pgdir d : PgDir} {sz : Nat} (hsz : sz ≤ kernbase) {ph ph' : Phys}
    (h : copyuvm pgdir sz ph = .ok (some d, ph')) : d.Covers sz := by
  intro page hpage hge
  rcases copyuvm_spec hsz h with ⟨_, _, hd, _⟩ | ⟨d₀, ph₀, d₁, ph₁, b, hsetup, hcop, hend⟩
  · cases hd
  · rcases hend with ⟨hb, hd, _⟩ | ⟨_, hd, _⟩
    · cases hd
      have hev := (hcop.run.2 hb).evolved (copying_bounded pgdir 0 sz)
      refine PgDir.pageFrame_none fun _ => ?_
      rcases hev.pte page with heq | ⟨hz, _⟩ | ⟨_, hin, _⟩
      · change d.pte page = d₀.pte page at heq
        rcases setupkvm_pte hsetup page with hz | ⟨hk, _⟩
        · rw [heq, hz]
          rfl
        · omega
      · change d.pte page = Pte.zero at hz
        rw [hz]
        rfl
      · have hup := le_pgRoundUp hsz
        have := hin.2
        omega
    · cases hd

/-- The copy that the child starts with. -/
theorem copyuvm_view {pgdir d : PgDir} {sz : Nat} (hsz : sz ≤ kernbase)
    (hcov : pgdir.Covers sz) {ph ph' : Phys} (hnd : ph.freelist.Nodup)
    (hfree : ∀ f ∈ ph.freelist, ¬ UserFrame pgdir f)
    (h : copyuvm pgdir sz ph = .ok (some d, ph')) : view d ph' = view pgdir ph := by
  have hcopy := copyuvm_copyOf hsz h
  have hcontent := (copyuvm_content hsz hnd hfree h).2 d rfl
  have hcov' := copyuvm_covers hsz h
  funext page
  by_cases hin : 4096 * page < sz
  · have hflags := hcopy.flags page hin
    have hmapped : (d.pte page).mapped = (pgdir.pte page).mapped := by
      change ((d.pte page).toFlags.p || (d.pte page).toFlags.e) = _
      rw [hflags]
      rfl
    refine view_congr (fun hpage => ?_) fun _ _ =>
      ⟨congrArg Flags.u hflags, hcontent page hin⟩
    obtain ⟨ht, hm⟩ := hcopy.source page hin
    rw [PgDir.pageFrame_isSome.mpr ⟨ht, hm⟩,
      PgDir.pageFrame_isSome.mpr ⟨hcopy.table page hin, by rwa [hmapped]⟩]
  · have hge : pgRoundUp sz ≤ 4096 * page := by
      have := @page_lt_pgRoundUp _ page hsz
      omega
    rw [view_none fun hpage => hcov' page hpage hge, view_none fun hpage => hcov page hpage hge]

theorem CopyOf.guarded {pgdir d : PgDir} {sz : Nat} (hsz : sz ≤ kernbase)
    (h : CopyOf pgdir sz d) (hg : pgdir.Guarded) : d.Guarded := by
  intro page hu
  have hin := h.user page hu
  have hflags := h.flags page hin
  refine ⟨lt_kernPage_of_lt hsz hin, fun hp => ?_⟩
  have hu' : (pgdir.pte page).u := (congrArg Flags.u hflags).symm.trans hu
  have hp' : (pgdir.pte page).p := (congrArg Flags.p hflags).symm.trans hp
  exact (congrArg Flags.e hflags).trans ((hg page hu').2 hp')

/-! ## `exec` -/

theorem setupkvm_covers {ph ph' : Phys} {d : PgDir} (h : setupkvm ph = .ok (some d, ph')) :
    d.Covers 0 := by
  intro page hpage _
  refine PgDir.pageFrame_none fun _ => ?_
  rcases setupkvm_pte h page with hz | ⟨hk, _⟩
  · rw [hz]
    rfl
  · omega

theorem allocuvm_covers {oldsz newsz r : Nat} {d d' : PgDir} {ph ph' : Phys}
    (hcov : d.Covers oldsz) (h : allocuvm oldsz newsz d ph = .ok (r, d', ph')) (hr : r ≠ 0) :
    d'.Covers r := by
  rcases allocuvm_spec h with ⟨_, h0, _⟩ | ⟨_, _, rfl, rfl, rfl⟩ | ⟨hlt, hle, hgrown⟩
  · exact absurd h0 hr
  · exact hcov
  · cases hgrown with
    | failed _ _ _ => exact absurd rfl hr
    | done hrun =>
        have hnew := Nat.le_of_lt hlt
        intro page hpage hge
        rw [grown_pageFrame hrun, hcov page hpage (Nat.le_trans (pgRoundUp_mono hle hnew) hge)]
        intro hin
        have := hin.2
        have := le_pgRoundUp hnew
        omega

theorem segLoop_covers {ip : List UInt8} {n off sz sz' : Nat} {d d' : PgDir} {ph ph' : Phys}
    (hcov : d.Covers sz) (h : segLoop ip n off sz d ph = .ok (some sz', d', ph')) :
    d'.Covers sz' := by
  induction n generalizing off sz d ph with
  | zero =>
      cases h
      exact hcov
  | succ n ih =>
      rw [segLoop] at h
      split at h
      · cases h
      split at h
      · exact ih hcov h
      split at h
      · cases h
      split at h
      · cases h
      · rw [bind_eq_ok] at h
        obtain ⟨⟨sz₁, d₁, ph₁⟩, halloc, h⟩ := h
        simp only at h
        split at h
        · cases h
        · rename_i hne
          split at h
          · cases h
          · rw [bind_eq_ok] at h
            obtain ⟨⟨ok, ph₂⟩, _, h⟩ := h
            simp only at h
            split at h
            · cases h
            · exact ih (allocuvm_covers hcov halloc hne) h

theorem loadImage_covers {ip elf : List UInt8} {argv : List (List UInt8)} {d d' : PgDir}
    {ph ph' : Phys} {sz : Nat} (hu : UserBelow d 0) (hcov : d.Covers 0)
    (h : loadImage ip elf argv d ph = .ok (some sz, d', ph')) : d'.Covers sz := by
  unfold loadImage at h
  rw [bind_eq_ok] at h
  obtain ⟨⟨res, d₁, ph₁⟩, hseg, h⟩ := h
  cases res with
  | none => cases h
  | some sz₁ =>
      have hlt₁ := (segLoop_userBelow (by decide) hu hseg).1
      have hcov₁ : d₁.Covers (pgRoundUp sz₁) := by
        intro page hpage hge
        have hup : pgRoundUp sz₁ ≤ kernbase := pgRoundUp_mono (Nat.le_of_lt hlt₁) (Nat.le_refl _)
        exact segLoop_covers hcov hseg page hpage (Nat.le_trans (le_pgRoundUp hup) hge)
      simp only [bind_eq_ok] at h
      obtain ⟨⟨sz₂, d₂, ph₂⟩, halloc, h⟩ := h
      simp only at h
      split at h
      · cases h
      · rename_i hne
        have hcov₂ := allocuvm_covers hcov₁ halloc hne
        simp only [bind_eq_ok] at h
        obtain ⟨d₃, hclear, ⟨res, ph₃⟩, _, h⟩ := h
        cases res with
        | none => cases h
        | some r =>
            simp only [bind_eq_ok] at h
            obtain ⟨⟨ok, ph₄⟩, _, h⟩ := h
            simp only at h
            split at h
            · cases h
            · cases h
              intro page hpage hge
              rw [clearpteu_eq hclear, PgDir.setUser_pageFrame]
              exact hcov₂ page hpage hge

/-- What `exec` leaves when it returns 0. -/
structure Loaded (ip : List UInt8) (argv : List (List UInt8)) (m m' : Machine) : Prop where
  size : m'.sz < kernbase
  covers : m'.pgdir.Covers m'.sz
  guarded : m'.pgdir.Guarded
  view : view m'.pgdir m'.phys = (imageSpace ip argv m'.sz).page
  frames : (m'.phys.freelist : Multiset Nat) + m'.pgdir.frames =
    m.phys.freelist + m.pgdir.frames
  outside : ∀ f, f ∉ (m.phys.freelist : Multiset Nat) + m.pgdir.frames →
    m'.phys.mem f = m.phys.mem f

/-- The memory of the program, after the commit. -/
theorem Started.view {ip path : List UInt8} {argv : List (List UInt8)} {p p' : ExecProc}
    (h : Started ip path argv p p') (hsz : p'.machine.sz ≤ kernbase)
    (hcov : p'.machine.pgdir.Covers p'.machine.sz) :
    Pager.view p'.machine.pgdir p'.machine.phys = (imageSpace ip argv p'.machine.sz).page := by
  funext page
  rw [imageSpace]
  dsimp only
  split
  · rename_i hin
    obtain ⟨ht, hm⟩ := h.mapped page hin
    have huser : (p'.machine.pgdir.pte page).u = decide (page ≠ guardPage p'.machine.sz) := by
      by_cases hne : page = guardPage p'.machine.sz
      · rw [hne, h.guard.2.1]
        simp
      · rw [(h.encrypted page hin hne).1]
        simp [hne]
    rw [view_some (lt_kernPage_of_lt hsz hin) (PgDir.pageFrame_isSome.mpr ⟨ht, hm⟩), huser]
    congr 2
    funext i
    exact h.image page hin i i.isLt
  · rename_i hout
    refine view_none fun hpage => hcov page hpage ?_
    have := @page_lt_pgRoundUp _ page hsz
    omega

/-- The commit takes nothing more, and gives the old memory back. -/
theorem Built.loaded {ip : List UInt8} {argv : List (List UInt8)} {d : PgDir} {ph ph' : Phys}
    {sz sp name : Nat} {r : Int} (hb : Built ip argv d ph sz sp) (hinv : m.Inventoried)
    (htook : Took d.frames m.phys ph) (hcov : d.Covers sz) (hu : UserBelow d sz)
    (hfree : freevm m.pgdir ph = .ok ph')
    (henc : mencrypt 0 ((sz / 4096 : Nat) : Int)
      { m with phys := ph', pgdir := d, sz := sz, nameTail := name } = .ok (r, m')) :
    Loaded ip argv m m'.resetQueue := by
  have hsz := hb.size
  have hstarted := @Built.committed m' ip [] argv d ph ph' sz sp ⟨m, [], 0, 0⟩ name r hb hinv
    htook.frames hfree henc
  generalize hmid : ({ m with phys := ph', pgdir := d, sz := sz, nameTail := name } : Machine) =
    mid at henc
  have hdir : mid.pgdir = d := by rw [← hmid]
  have hphys : mid.phys = ph' := by rw [← hmid]
  have hsize : mid.sz = sz := by rw [← hmid]
  have hframes : (ph'.freelist : Multiset Nat) + d.frames = m.phys.freelist + m.pgdir.frames := by
    rw [freevm_frames hfree, ← htook.frames]
    ac_rfl
  have hguarded : d.Guarded := by
    intro page hup
    obtain ⟨_, hlt, _, he⟩ := hu page hup
    exact ⟨lt_kernPage_of_lt (Nat.le_of_lt hsz) hlt, fun _ => he⟩
  have htidy : Tidy mid := by
    refine ⟨Machine.Inventoried.separate ?_ ?_ ?_, by rwa [hdir]⟩
    · rw [Machine.Inventoried, hphys, hdir, hframes]
      exact hinv
    · rw [hsize]
      exact Nat.le_of_lt hsz
    · intro page hup
      rw [hdir] at hup
      exact (hguarded page hup).1
  have hin := htidy.mencrypt henc
  have hsz' : m'.sz = sz := hin.recoded.size.trans hsize
  have hcov' : m'.pgdir.Covers m'.sz := by
    intro page hpage hge
    rw [hin.recoded.pageFrame, hdir]
    exact hcov page hpage (hsz' ▸ hge)
  have hle : m'.sz < kernbase := by rwa [hsz']
  refine ⟨hle, hcov', (hin.tidy htidy).guarded, hstarted.view (Nat.le_of_lt hle) hcov', ?_,
    fun f hf => ?_⟩
  · change (m'.phys.freelist : Multiset Nat) + m'.pgdir.frames = _
    rw [hin.recoded.frames, hin.recoded.free, hphys, hdir, hframes]
  · have hd : f ∉ d.frames := by
      intro hmem
      rw [← hframes] at hf
      exact hf (Multiset.mem_add.mpr (.inr hmem))
    rw [Multiset.mem_add, not_or] at hf
    calc m'.phys.mem f = mid.phys.mem f := hin.outside f (by rwa [hdir])
      _ = ph'.mem f := by rw [hphys]
      _ = ph.mem f := freevm_outside hf.2 hfree
      _ = m.phys.mem f := htook.outside f hf.1

/-- **The ends of `exec`**: the program is loaded, or all is given back. -/
theorem exec_ends {file : Option (List UInt8)} {argv : List (List UInt8)} {name : Nat} {r : Int}
    (hinv : m.Inventoried) (h : exec file argv name m = .ok (r, m')) :
    (r = -1 ∧ ∃ ph, m' = { m with phys := ph } ∧ Took 0 m.phys ph) ∨
      (r = 0 ∧ ∃ ip, file = some ip ∧ Loaded ip argv m m') := by
  have hsame : ∃ ph, m = { m with phys := ph } ∧ Took 0 m.phys ph := ⟨m.phys, rfl, .refl _⟩
  unfold exec at h
  cases file with
  | none =>
      cases h
      exact .inl ⟨rfl, hsame⟩
  | some ip =>
      dsimp only at h
      split at h
      · cases h
        exact .inl ⟨rfl, hsame⟩
      split at h
      · cases h
        exact .inl ⟨rfl, hsame⟩
      rw [bind_eq_ok] at h
      obtain ⟨⟨rd, ph⟩, hsetup, h⟩ := h
      have htook := setupkvm_took hsetup
      cases rd with
      | none =>
          cases h
          exact .inl ⟨rfl, ph, rfl, htook⟩
      | some d =>
          have hnodup : m.phys.freelist.Nodup :=
            Multiset.coe_nodup.mp (Multiset.nodup_add.mp hinv).1
          have himg := setupkvm_imaged hnodup hsetup
          simp only [bind_eq_ok] at h
          obtain ⟨⟨res, d₁, ph₁⟩, himage, h⟩ := h
          have hload := himage
          rw [loadImage_eq] at hload
          cases hstack : loadStack ip ((readi ip 0 52).getD []) argv d ph with
          | error e =>
              rw [hstack] at hload
              cases hload
          | ok out =>
          obtain ⟨stack, d₂, ph₂⟩ := out
          rw [hstack] at hload
          cases hload
          obtain ⟨hacc, hbuilt⟩ := loadStack_built himg hstack
          have htook₁ : Took d₁.frames m.phys ph₁ := Took.accounted htook hacc
          cases stack with
          | none =>
              simp only [Option.map_none, bind_eq_ok] at h
              obtain ⟨ph₃, hfree, h⟩ := h
              cases h
              exact .inl ⟨rfl, ph₃, rfl, htook₁.freevm hfree⟩
          | some out =>
              obtain ⟨sz, sp⟩ := out
              simp only [Option.map_some, bind_eq_ok] at h
              obtain ⟨ph₃, hfree, ⟨r₁, m₁⟩, henc, h⟩ := h
              cases h
              have hb := hbuilt sz sp rfl
              have hu := setupkvm_userBelow hsetup
              refine .inr ⟨rfl, ip, rfl, ?_⟩
              exact (hbuilt sz sp rfl).loaded hinv htook₁
                (loadImage_covers hu (setupkvm_covers hsetup) himage)
                (loadImage_userBelow hu himage).2.2 hfree henc

/-! ## `userinit` -/

/-- The memory of the first process: one page, with `initcode` at its start. -/
theorem inituvm_loaded {init : List UInt8} {d d' : PgDir} {ph₀ ph ph' : Phys}
    (hnd : ph₀.freelist.Nodup) (hsetup : setupkvm ph₀ = .ok (some d, ph))
    (h : inituvm init d ph = .ok (d', ph')) (hpage : (d'.pageFrame 0).isSome) :
    Took d'.frames ph₀ ph' ∧ d'.Covers pgsize ∧ d'.Guarded ∧
      view d' ph' = (initSpace init).page := by
  have htook : Took d.frames ph₀ ph := setupkvm_took hsetup
  have hempty : ∀ page < kernPage, d.pageFrame page = none := by
    intro page hlt
    refine setupkvm_covers hsetup page hlt ?_
    have hzero : pgRoundUp 0 = 0 := by decide
    rw [hzero]
    exact Nat.zero_le _
  have hguarded : d.Guarded := by
    intro page hup
    obtain ⟨_, hlt, _⟩ := setupkvm_userBelow hsetup page hup
    exact absurd hlt (Nat.not_lt_zero _)
  unfold inituvm at h
  split at h
  · cases h
  cases hk : kalloc ph with
  | none =>
      rw [hk] at h
      cases h
  | some out =>
      obtain ⟨mem, ph₁⟩ := out
      rw [hk] at h
      obtain ⟨rest, hfree, rfl⟩ := kalloc_eq_some hk
      simp only [bind_eq_ok] at h
      obtain ⟨⟨b, d', ph₂⟩, hmap, h⟩ := h
      cases h
      rw [mappages_page (by decide)] at hmap
      obtain ⟨d₁, hrun, ⟨_, heq⟩ | ⟨rfl, ht, hm, hd'⟩⟩ := mapPage_spec hmap
      · -- without its page the process could not run
        have hsame : d'.pageFrame 0 = d.pageFrame 0 := by
          rw [heq]
          apply (hrun []).pageFrame
          rintro e rfl hw
          exact hw
        rw [hsame, hempty 0 (by decide)] at hpage
        cases hpage
      · have hin : Within 0 4096 (ppn 0) := ⟨by decide, by decide⟩
        have hgrow := growing_round hin hfree hmap
        have hacc : Accounted d ph d' ph₂ :=
          hgrow.accounted fun _ he => he.inRange (by decide)
        have hpte : d'.pte 0 = mapEntry (mem * 4096) Flags.user := by
          rw [hd', PgDir.set_pte, if_pos (by decide)]
        have hframe : (d'.pte 0).frame = mem := by rw [hpte, mapEntry_frame]
        have hothers : ∀ page < kernPage, page ≠ 0 → d'.pageFrame page = none := by
          intro page hlt hne
          rw [hd', PgDir.pageFrame_set _ (by exact hne)]
          have hsame : d₁.pageFrame page = d.pageFrame page := by
            apply (hrun []).pageFrame
            rintro e rfl hw
            exact hw
          rw [hsame, hempty page hlt]
        -- the frame is cleared, and no page table is made of it
        have hzero : ph₂.mem mem = fun _ => 0 := by
          have hnodup : mem ∉ rest := by
            have hsub := (setupkvm_outOfReach (P := fun _ => False) (fun _ _ hf => hf) hsetup).2.2
            have := hnd.sublist (hsub d rfl).2
            rw [hfree] at this
            exact (List.nodup_cons.mp this).1
          have hav : Avoids (fun f => f = mem) (fun _ => False)
              ⟨d, memset mem 0 { ph with freelist := rest }, []⟩ :=
            ⟨fun f hf heq => hnodup (heq ▸ hf), fun f hf => (by cases hf), fun _ h => h.elim⟩
          have hkeep := ((hrun []).avoids (fun p hp => by cases hp)
            (fun p e he => by cases he) hav).2 mem rfl
          rw [hkeep]
          exact Function.update_self _ _ _
        have hwrite : Accounted d' ph₂ d' (ph₂.write mem 0 init) := by
          refine ⟨rfl, fun f hf => ?_⟩
          rw [Multiset.mem_add, not_or] at hf
          have hne : f ≠ mem := by
            rintro rfl
            exact hf.2 (hframe ▸ PgDir.mem_frames (by decide) hpage)
          exact Function.update_of_ne hne _ _
        refine ⟨Took.accounted htook (hacc.trans hwrite), fun page hlt hge => ?_,
          (hgrow.evolved (growing_bounded _ _)).guarded (fun page pte hin _ => ?_) hguarded, ?_⟩
        · refine hothers page hlt ?_
          have hsize : pgRoundUp pgsize = 4096 := by decide
          omega
        · exact ⟨hin.1.lt_kernPage (by decide), Pte.plain_of_flags hin.2⟩
        · funext page
          rw [initSpace]
          dsimp only
          split
          · rename_i hz
            subst hz
            have hbytes : content d' (ph₂.write mem 0 init) 0 = fun i => init.getD i 0 := by
              have he : (d'.pte 0).e = false := by
                rw [hpte]
                rfl
              rw [content, if_neg (by rw [he]; decide), hframe]
              funext i
              change Function.update ph₂.mem mem _ mem i = _
              rw [Function.update_self, if_pos (Nat.zero_le i), hzero, Nat.sub_zero]
            have hu : (d'.pte 0).u = true := by
              rw [hpte]
              rfl
            rw [view_some (by decide) hpage, hbytes, hu]
          · rename_i hne
            exact view_none fun hlt => hothers page hlt hne

end CS537.Pager
