import CS537.Pager.Pages

/-!
# Pager — the functions on page directories as runs

One lemma for each function of `vm.c` that changes a page directory: which run of
steps it is, and how it ends. Nothing after this module unfolds one of them.
-/

namespace CS537.Pager

open MachineInt

/-! ## Mapping -/

theorem kalloc_eq_some {ph ph' : Phys} {f : Nat} (h : kalloc ph = some (f, ph')) :
    ∃ rest, ph.freelist = f :: rest ∧ ph' = { ph with freelist := rest } := by
  unfold kalloc at h
  split at h
  · cases h
  · rename_i g rest hfree
    cases h
    exact ⟨rest, hfree, rfl⟩

theorem walkpgdirAlloc_run {d d' : PgDir} {ph ph' : Phys} {va : Nat} (held : List Nat)
    (h : walkpgdirAlloc d va ph = some (d', ph')) :
    VmRun (fun e => e = .table (ppn va)) ⟨d, ph, held⟩ ⟨d', ph', held⟩
      ∧ d'.hasTable (ppn va) := by
  unfold walkpgdirAlloc at h
  split at h
  · rename_i ht
    cases h
    exact ⟨.refl _, ht⟩
  · rename_i ht
    cases hk : kalloc ph with
    | none =>
        rw [hk] at h
        cases h
    | some r =>
        obtain ⟨f, ph₁⟩ := r
        rw [hk] at h
        obtain ⟨rest, hfree, rfl⟩ := kalloc_eq_some hk
        cases h
        refine ⟨.single rfl (.table (by simpa using ht) hfree), ?_⟩
        simp [PgDir.newTable_hasTable]

/-- `mappages` of one page. -/
theorem mappages_page {a pa : Nat} {perm : Flags} {d : PgDir} {ph : Phys}
    (ha : a % 4096 = 0) :
    mappages a pgsize pa perm d ph = mapLoop perm 1 a pa d ph := by
  have hcount : u32 (pgRoundDown (u32 (a + pgsize + 4294967295)) + 4294967296
      - pgRoundDown a) / 4096 + 1 = 1 := by
    simp only [u32, pgRoundDown, pgsize]
    omega
  have hstart : pgRoundDown a = a := by
    unfold pgRoundDown
    omega
  simp only [mappages]
  rw [hcount, hstart]

/-- `mappages` of one page: a page table if need be, and then the entry. -/
theorem mapPage_spec {a pa : Nat} {perm : Flags} {d d' : PgDir} {ph ph' : Phys} {b : Bool}
    (h : mapLoop perm 1 a pa d ph = .ok (b, d', ph')) :
    ∃ d₁, (∀ held, VmRun (fun e => e = .table (ppn a)) ⟨d, ph, held⟩ ⟨d₁, ph', held⟩)
      ∧ ((b = false ∧ d' = d₁)
        ∨ (b = true ∧ d₁.hasTable (ppn a) ∧ (d₁.pte (ppn a)).mapped = false
          ∧ d' = d₁.set (ppn a) (mapEntry pa perm))) := by
  rw [mapLoop] at h
  cases hw : walkpgdirAlloc d a ph with
  | none =>
      rw [hw] at h
      cases h
      exact ⟨d, fun _ => .refl _, .inl ⟨rfl, rfl⟩⟩
  | some r =>
      obtain ⟨d₁, ph₁⟩ := r
      rw [hw] at h
      simp only [mapLoop] at h
      split at h
      · cases h
      · rename_i hm
        cases h
        refine ⟨d₁, fun held => (walkpgdirAlloc_run held hw).1, .inr ⟨rfl, ?_, ?_, rfl⟩⟩
        · exact (walkpgdirAlloc_run [] hw).2
        · simpa using hm

theorem mapEntry_frame (mem : Nat) (perm : Flags) :
    (mapEntry (mem * 4096) perm).frame = mem := by
  unfold mapEntry
  split <;> exact Nat.mul_div_cancel mem (by decide)

/-- Mapping a frame just taken. -/
theorem mapPage_run {a mem : Nat} {perm : Flags} {d d' : PgDir} {ph ph' : Phys} {b : Bool}
    (held : List Nat) (h : mapLoop perm 1 a (mem * 4096) d ph = .ok (b, d', ph')) :
    (b = true ∧ VmRun (fun e => e = .table (ppn a)
            ∨ e = .map (ppn a) (mapEntry (mem * 4096) perm))
          ⟨d, ph, mem :: held⟩ ⟨d', ph', held⟩)
      ∨ (b = false ∧ VmRun (fun e => e = .table (ppn a))
          ⟨d, ph, mem :: held⟩ ⟨d', ph', mem :: held⟩) := by
  obtain ⟨d₁, hrun, ⟨rfl, rfl⟩ | ⟨rfl, ht, hm, rfl⟩⟩ := mapPage_spec h
  · exact .inr ⟨rfl, hrun _⟩
  · have hmem : (mapEntry (mem * 4096) perm).frame ∈ mem :: held := by
      rw [mapEntry_frame]
      exact List.mem_cons_self
    have hmap := @VmStep.map d₁ ph' _ _ _ ht hm hmem
    rw [mapEntry_frame, List.erase_cons_head] at hmap
    exact .inl ⟨rfl, ((hrun _).mono fun _ he => .inl he).trans (.single (.inr rfl) hmap)⟩

/-- Mapping kernel pages. -/
theorem kmapPages_run {perm : Flags} (hu : perm.u = false) {lo : Nat}
    (hlo : kernPage ≤ ppn lo) {n a pa : Nat} {d d' : PgDir} {ph ph' : Phys} {b : Bool}
    (hle : lo ≤ a) (hhi : a + n * 4096 ≤ 4294967296)
    (h : mapLoop perm n a pa d ph = .ok (b, d', ph')) :
    VmRun (fun e => (∃ page, e = .table page ∧ kernPage ≤ page ∧ page < 1048576)
        ∨ ∃ page pte, e = .kmap page pte) ⟨d, ph, []⟩ ⟨d', ph', []⟩ := by
  induction n generalizing a pa d ph with
  | zero =>
      cases h
      exact .refl _
  | succ n ih =>
      rw [mapLoop] at h
      cases hw : walkpgdirAlloc d a ph with
      | none =>
          rw [hw] at h
          cases h
          exact .refl _
      | some r =>
          obtain ⟨d₁, ph₁⟩ := r
          rw [hw] at h
          obtain ⟨hrun, ht⟩ := walkpgdirAlloc_run [] hw
          simp only at h
          split at h
          · cases h
          · rename_i hm
            have hpage : kernPage ≤ ppn a := Nat.le_trans hlo (Nat.div_le_div_right hle)
            have hentry : (mapEntry pa perm).u = false := by
              unfold mapEntry
              split <;> exact hu
            have hstep : VmStep ⟨d₁, ph₁, []⟩ (.kmap (ppn a) (mapEntry pa perm))
                ⟨d₁.set (ppn a) (mapEntry pa perm), ph₁, []⟩ :=
              .kmap ht (by simpa using hm) hpage hentry
            have hbound : ppn a < 1048576 := by
              unfold ppn
              omega
            refine (hrun.mono fun e he => .inl ⟨_, he, hpage, hbound⟩).trans
              ((VmRun.single (.inr ⟨_, _, rfl⟩) hstep).trans ?_)
            cases n with
            | zero =>
                cases h
                exact .refl _
            | succ n =>
                have hnext : u32 (a + 4096) = a + 4096 := u32_of_lt (by omega)
                rw [hnext] at h
                exact ih (by omega) (by omega) h

/-- `mappages` of whole pages. -/
theorem mappages_pages {a size pa : Nat} {perm : Flags} {d : PgDir} {ph : Phys}
    (ha : a % 4096 = 0) (hs : size % 4096 = 0) (hpos : 0 < size)
    (hhi : a + size ≤ 4294967296) :
    mappages a size pa perm d ph = mapLoop perm (size / 4096) a pa d ph := by
  have hcount : u32 (pgRoundDown (u32 (a + size + 4294967295)) + 4294967296
      - pgRoundDown a) / 4096 + 1 = size / 4096 := by
    simp only [u32, pgRoundDown]
    omega
  have hstart : pgRoundDown a = a := by
    unfold pgRoundDown
    omega
  simp only [mappages]
  rw [hcount, hstart]

/-- A region of `kmap`: whole pages of the kernel, not for the user. -/
structure Kmap.Region (k : Kmap) : Prop where
  aligned : k.virt % 4096 = 0
  kernel : kernbase ≤ k.virt
  size : u32 (k.physEnd + 4294967296 - k.physStart) % 4096 = 0
  pos : 0 < u32 (k.physEnd + 4294967296 - k.physStart)
  fits : k.virt + u32 (k.physEnd + 4294967296 - k.physStart) ≤ 4294967296
  user : k.perm.u = false

theorem kmap_region {data : Nat} (h : 256 < data ∧ data < 57344) :
    ∀ k ∈ kmap data, k.Region := by
  intro k hk
  simp only [kmap, List.mem_cons, List.not_mem_nil, or_false] at hk
  rcases hk with rfl | rfl | rfl | rfl
  · exact ⟨by decide, by decide, by decide, by decide, by decide, rfl⟩
  · constructor <;> simp only [u32, kernbase, kernlink, extmem, Flags.none] <;> omega
  · constructor <;> simp only [u32, kernbase, phystop, Flags.write, Flags.none] <;> omega
  · exact ⟨by decide, by decide, by decide, by decide, by decide, rfl⟩

/-- The steps of `setupkvm`. -/
def KernelSetup (e : VmEvent) : Prop :=
  (∃ page, e = .table page ∧ kernPage ≤ page ∧ page < 1048576)
    ∨ ∃ page pte, e = .kmap page pte

theorem kmapLoop_run {ks : List Kmap} (hks : ∀ k ∈ ks, k.Region) {d d' : PgDir}
    {ph ph' : Phys} {b : Bool} (h : kmapLoop ks d ph = .ok (b, d', ph')) :
    VmRun KernelSetup ⟨d, ph, []⟩ ⟨d', ph', []⟩ := by
  induction ks generalizing d ph with
  | nil =>
      cases h
      exact .refl _
  | cons k ks ih =>
      rw [List.forall_mem_cons] at hks
      obtain ⟨hk, hks⟩ := hks
      rw [kmapLoop, bind_eq_ok] at h
      obtain ⟨⟨b₁, d₁, ph₁⟩, hmap, h⟩ := h
      rw [mappages_pages hk.aligned hk.size hk.pos hk.fits] at hmap
      have hfits : k.virt + u32 (k.physEnd + 4294967296 - k.physStart) / 4096 * 4096
          ≤ 4294967296 := by
        have := hk.fits
        omega
      have hlo : kernPage ≤ ppn k.virt := by
        have := hk.kernel
        unfold ppn
        simp only [kernPage, kernbase] at *
        omega
      have hrun := kmapPages_run hk.user hlo (Nat.le_refl _) hfits hmap
      cases b₁ with
      | true => exact hrun.trans (ih hks h)
      | false =>
          cases h
          exact hrun

/-- The directory `setupkvm` starts from. -/
def emptyDir (f : Nat) : PgDir := ⟨f, fun _ => none, fun _ => Pte.zero⟩

/-- `setupkvm` as a run, from a frame it takes, and what is left of it if it
fails. -/
theorem setupkvm_run {ph ph' : Phys} {r : Option PgDir} (h : setupkvm ph = .ok (r, ph')) :
    (ph.freelist = [] ∧ r = none ∧ ph' = ph)
      ∨ ∃ f rest d ph₁, ph.freelist = f :: rest
        ∧ VmRun KernelSetup ⟨emptyDir f, memset f 0 { ph with freelist := rest }, []⟩
            ⟨d, ph₁, []⟩
        ∧ ((r = some d ∧ ph' = ph₁) ∨ (r = none ∧ freevm d ph₁ = .ok ph')) := by
  unfold setupkvm at h
  cases hk : kalloc ph with
  | none =>
      rw [hk] at h
      cases h
      refine .inl ⟨?_, rfl, rfl⟩
      unfold kalloc at hk
      split at hk
      · assumption
      · cases hk
  | some r₁ =>
      obtain ⟨f, ph₁⟩ := r₁
      rw [hk] at h
      obtain ⟨rest, hfree, rfl⟩ := kalloc_eq_some hk
      simp only [bind_eq_ok] at h
      obtain ⟨⟨b, d, ph₂⟩, hmap, h⟩ := h
      refine .inr ⟨f, rest, d, ph₂, hfree, kmapLoop_run (kmap_region ph.data_mem) hmap, ?_⟩
      cases b with
      | true =>
          cases h
          exact .inl ⟨rfl, rfl⟩
      | false =>
          simp only [Bool.false_eq_true, if_false, bind_eq_ok] at h
          obtain ⟨ph₃, hfreevm, h⟩ := h
          cases h
          exact .inr ⟨rfl, hfreevm⟩

/-! ## Taking pages down -/

/-- Pages from address `lo` up to size `hi`. -/
def Within (lo hi page : Nat) : Prop := lo ≤ 4096 * page ∧ 4096 * page < hi

/-- The steps of `deallocuvm`. -/
def Unmapping (lo hi : Nat) (e : VmEvent) : Prop := ∃ page, e = .unmap page ∧ Within lo hi page

theorem unmapping_bounded (lo hi : Nat) :
    Bounded (Unmapping lo hi) (fun _ _ => False) (Within lo hi) where
  map := by
    intro page pte ⟨_, he, _⟩
    cases he
  kmap := by
    intro page pte ⟨_, he, _⟩
    cases he
  unmap := by
    intro page ⟨_, he, hin⟩
    cases he
    exact hin

theorem Unmapping.mono {a a' oldsz : Nat} {e : VmEvent} (hle : a ≤ a')
    (h : Unmapping a' oldsz e) : Unmapping a oldsz e := by
  obtain ⟨page, he, h1, h2⟩ := h
  exact ⟨page, he, Nat.le_trans hle h1, h2⟩

theorem deallocLoop_run {oldsz : Nat} (hsz : oldsz ≤ kernbase) {n a : Nat}
    (ha : a % 4096 = 0) {d d' : PgDir} {ph ph' : Phys} (held : List Nat)
    (h : deallocLoop oldsz n a d ph = .ok (d', ph')) :
    VmRun (Unmapping a oldsz) ⟨d, ph, held⟩ ⟨d', ph', held⟩
      ∧ ∀ page, Within a oldsz page → d'.hasTable page → (d'.pte page).mapped = false := by
  simp only [kernbase] at hsz
  induction n generalizing a d ph with
  | zero =>
      rw [deallocLoop] at h
      split at h
      · cases h
      · cases h
        refine ⟨.refl _, ?_⟩
        intro page hin
        obtain ⟨h1, h2⟩ := hin
        omega
  | succ n ih =>
      rw [deallocLoop] at h
      split at h
      · rename_i hlt
        cases hw : walkpgdir d a with
        | none =>
            -- no page table: on to the pages of the next one
            rw [hw] at h
            have hno := walkpgdir_eq_none.mp hw
            have hnext : u32 ((pdx (ppn a) + 1) * 4194304) = (pdx (ppn a) + 1) * 4194304 := by
              apply u32_of_lt
              unfold pdx ppn
              omega
            simp only [hnext] at h
            have halign : (pdx (ppn a) + 1) * 4194304 % 4096 = 0 := by omega
            have hge : a ≤ (pdx (ppn a) + 1) * 4194304 := by
              unfold pdx ppn
              omega
            obtain ⟨hrun, hdone⟩ := ih halign h
            refine ⟨hrun.mono fun _ => Unmapping.mono hge, ?_⟩
            · intro page hin ht
              obtain ⟨h1, h2⟩ := hin
              rcases Nat.lt_or_ge (4096 * page) ((pdx (ppn a) + 1) * 4194304) with hin | hout
              · have hsame : pdx page = pdx (ppn a) := by
                  unfold pdx ppn at *
                  omega
                have htab := hrun.table_eq (by simp [Unmapping])
                rw [PgDir.hasTable_congr hsame, PgDir.hasTable, htab] at ht
                rw [PgDir.hasTable] at hno
                rw [ht] at hno
                cases hno
              · exact hdone page ⟨hout, h2⟩ ht
        | some ptr =>
            rw [hw] at h
            obtain ⟨ht, rfl⟩ := walkpgdir_eq_some.mp hw
            have hnext : u32 (a + 4096) = a + 4096 := u32_of_lt (by omega)
            have hpage : 4096 * ppn a = a := by
              unfold ppn
              omega
            simp only [hnext] at h
            -- the rest of the loop leaves this entry as it is
            have hkeep : ∀ {d₁ : PgDir} {ph₁ : Phys},
                VmRun (Unmapping (a + 4096) oldsz) ⟨d₁, ph₁, held⟩ ⟨d', ph', held⟩ →
                (d₁.pte (ppn a)).mapped = false → (d'.pte (ppn a)).mapped = false := by
              intro d₁ ph₁ hrun hm
              rcases (hrun.evolved (unmapping_bounded _ _)).pte (ppn a) with heq | ⟨heq, _⟩ | hF
              · change d'.pte (ppn a) = d₁.pte (ppn a) at heq
                rw [heq, hm]
              · change d'.pte (ppn a) = Pte.zero at heq
                rw [heq]
                rfl
              · exact hF.2.elim
            have hcover : ∀ page, Within a oldsz page → page ≠ ppn a →
                Within (a + 4096) oldsz page := by
              intro page hin hne
              obtain ⟨h1, h2⟩ := hin
              exact ⟨by omega, h2⟩
            split at h
            · rename_i hm
              obtain ⟨hrun, hdone⟩ := ih (by omega) h
              refine ⟨hrun.mono fun _ => Unmapping.mono (Nat.le_add_right a 4096), ?_⟩
              intro page hin ht'
              by_cases heq : page = ppn a
              · rw [heq]
                exact hkeep hrun (by simpa using hm)
              · exact hdone page (hcover page hin heq) ht'
            · rename_i hm
              split at h
              · cases h
              rw [bind_eq_ok] at h
              obtain ⟨ph₁, hfree, h⟩ := h
              have hstep : VmStep ⟨d, ph, held⟩ (.unmap (ppn a))
                  ⟨d.set (ppn a) Pte.zero, ph₁, held⟩ := .unmap ht (by simpa using hm) hfree
              obtain ⟨hrun, hdone⟩ := ih (by omega) h
              constructor
              · exact (VmRun.single ⟨_, rfl, by omega, by omega⟩ hstep).trans
                  (hrun.mono fun _ => Unmapping.mono (Nat.le_add_right a 4096))
              · intro page hin ht'
                by_cases heq : page = ppn a
                · rw [heq]
                  apply hkeep hrun
                  rw [PgDir.set_pte, if_pos rfl]
                  rfl
                · exact hdone page (hcover page hin heq) ht'
      · cases h
        refine ⟨.refl _, ?_⟩
        intro page hin
        obtain ⟨h1, h2⟩ := hin
        omega

theorem pgRoundUp_aligned (sz : Nat) : pgRoundUp sz % 4096 = 0 := by
  unfold pgRoundUp
  omega

theorem deallocuvm_spec {oldsz newsz r : Nat} (hsz : oldsz ≤ kernbase) {d d' : PgDir}
    {ph ph' : Phys} (held : List Nat) (h : deallocuvm oldsz newsz d ph = .ok (r, d', ph')) :
    (oldsz ≤ newsz ∧ r = oldsz ∧ d' = d ∧ ph' = ph)
      ∨ (newsz < oldsz ∧ r = newsz
        ∧ VmRun (Unmapping (pgRoundUp newsz) oldsz) ⟨d, ph, held⟩ ⟨d', ph', held⟩
        ∧ ∀ page, Within (pgRoundUp newsz) oldsz page → d'.hasTable page →
            (d'.pte page).mapped = false) := by
  unfold deallocuvm at h
  split at h
  · rename_i hge
    cases h
    exact .inl ⟨hge, rfl, rfl, rfl⟩
  · rename_i hlt
    rw [bind_eq_ok] at h
    obtain ⟨⟨d₁, ph₁⟩, hloop, h⟩ := h
    cases h
    obtain ⟨hrun, hdone⟩ := deallocLoop_run hsz (pgRoundUp_aligned newsz) held hloop
    exact .inr ⟨by omega, rfl, hrun, hdone⟩

theorem freeTables_spec {P : Nat → Prop} {d : PgDir} (ht : ∀ i f, d.table i = some f → ¬ P f)
    {is : List Nat} {ph ph' : Phys} (hfree : ∀ f ∈ ph.freelist, ¬ P f)
    (h : freeTables d is ph = .ok ph') :
    (∀ f ∈ ph'.freelist, ¬ P f) ∧ ∀ f, P f → ph'.mem f = ph.mem f := by
  induction is generalizing ph with
  | nil =>
      cases h
      exact ⟨hfree, fun _ _ => rfl⟩
  | cons i is ih =>
      rw [freeTables] at h
      cases hi : d.table i with
      | none =>
          rw [hi] at h
          exact ih hfree h
      | some g =>
          rw [hi] at h
          simp only [bind_eq_ok] at h
          obtain ⟨ph₁, hk, h⟩ := h
          have hg := ht i g hi
          have hfree₁ : ∀ f ∈ ph₁.freelist, ¬ P f := by
            intro f hf
            rw [kfree_freelist hk, List.mem_cons] at hf
            rcases hf with rfl | hf
            · exact hg
            · exact hfree f hf
          obtain ⟨hfree', hmem⟩ := ih hfree₁ h
          refine ⟨hfree', ?_⟩
          intro f hf
          rw [hmem f hf]
          apply kfree_mem hk
          intro heq
          exact hg (heq ▸ hf)

/-- `freevm` reaches no frame of `P` if neither the directory nor any of its user
pages and tables is one. -/
theorem freevm_spec {P : Nat → Prop} {d : PgDir} {ph ph' : Phys}
    (hav : Avoids P (fun page => page < kernPage) ⟨d, ph, []⟩)
    (ht : ∀ i f, d.table i = some f → ¬ P f) (hd : ¬ P d.frame)
    (h : freevm d ph = .ok ph') :
    (∀ f ∈ ph'.freelist, ¬ P f) ∧ ∀ f, P f → ph'.mem f = ph.mem f := by
  unfold freevm at h
  simp only [bind_eq_ok] at h
  obtain ⟨⟨r, d₁, ph₁⟩, hde, ph₂, htab, hk⟩ := h
  rcases deallocuvm_spec (Nat.le_refl _) [] hde with ⟨hle, _⟩ | ⟨_, _, hrun, _⟩
  · exact absurd hle (by decide)
  · have hgone : ∀ page, Unmapping (pgRoundUp 0) kernbase (.unmap page) → page < kernPage := by
      intro page ⟨_, he, _, hlt⟩
      cases he
      simp only [kernbase] at hlt
      change page < 524288
      omega
    obtain ⟨hav₁, hmem₁⟩ := hrun.avoids hgone (by simp [Unmapping]) hav
    have htable : d₁.table = d.table := hrun.table_eq (by simp [Unmapping])
    have hframe : d₁.frame = d.frame := (hrun.evolved (unmapping_bounded _ _)).frame
    obtain ⟨hfree₂, hmem₂⟩ := freeTables_spec (by rwa [htable]) hav₁.free htab
    rw [hframe] at hk
    constructor
    · intro f hf
      rw [kfree_freelist hk, List.mem_cons] at hf
      rcases hf with rfl | hf
      · exact hd
      · exact hfree₂ f hf
    · intro f hf
      have hne : f ≠ d.frame := by
        intro heq
        exact hd (heq ▸ hf)
      rw [kfree_mem hk hne, hmem₂ f hf]
      exact hmem₁ f hf

/-! ## Growing -/

/-- The flags `allocuvm` maps a page with. -/
def userFlags : Flags := ⟨true, true, true, false, false⟩

theorem mapEntry_user (pa : Nat) : (mapEntry pa Flags.user).toFlags = userFlags := rfl

/-- The steps by which `allocuvm` grows a process. -/
inductive Growing (lo hi : Nat) : VmEvent → Prop
  | table {page : Nat} : Within lo hi page → Growing lo hi (.table page)
  | alloc : Growing lo hi .alloc
  | fill {f : Nat} : Growing lo hi (.fill f)
  | map {page : Nat} {pte : Pte} :
      Within lo hi page → pte.toFlags = userFlags → Growing lo hi (.map page pte)

/-- The steps by which it gives up. -/
def Retreating (lo hi : Nat) (e : VmEvent) : Prop :=
  Unmapping lo hi e ∨ ∃ f, e = .release f

theorem Growing.mono {lo lo' hi : Nat} {e : VmEvent} (hle : lo ≤ lo')
    (h : Growing lo' hi e) : Growing lo hi e := by
  cases h with
  | table hin => exact .table ⟨Nat.le_trans hle hin.1, hin.2⟩
  | alloc => exact .alloc
  | fill => exact .fill
  | map hin hf => exact .map ⟨Nat.le_trans hle hin.1, hin.2⟩ hf

theorem growing_bounded (lo hi : Nat) :
    Bounded (Growing lo hi) (fun page pte => Within lo hi page ∧ pte.toFlags = userFlags)
      (fun _ => False) where
  map := by
    intro page pte h
    cases h with
    | map hin hf => exact ⟨hin, hf⟩
  kmap := by
    intro page pte h
    cases h
  unmap := by
    intro page h
    cases h

theorem retreating_bounded (lo hi : Nat) :
    Bounded (Retreating lo hi) (fun _ _ => False) (Within lo hi) where
  map := by
    intro page pte h
    rcases h with ⟨_, he, _⟩ | ⟨_, he⟩ <;> cases he
  kmap := by
    intro page pte h
    rcases h with ⟨_, he, _⟩ | ⟨_, he⟩ <;> cases he
  unmap := by
    intro page h
    rcases h with ⟨_, he, hin⟩ | ⟨_, he⟩
    · cases he
      exact hin
    · cases he

theorem le_pgRoundUp {sz : Nat} (h : sz ≤ kernbase) : sz ≤ pgRoundUp sz := by
  unfold pgRoundUp u32
  simp only [kernbase] at h
  omega

/-- What `allocuvm` does when it tries to grow: it gets there, or it takes back
what it has mapped. -/
inductive Grown (oldsz newsz lo : Nat) (d : PgDir) (ph : Phys) : Nat → PgDir → Phys → Prop
  | done {d' : PgDir} {ph' : Phys} :
      VmRun (Growing lo newsz) ⟨d, ph, []⟩ ⟨d', ph', []⟩ →
      Grown oldsz newsz lo d ph newsz d' ph'
  | failed {d' : PgDir} {ph' : Phys} {mid : Vm} :
      VmRun (Growing lo newsz) ⟨d, ph, []⟩ mid →
      VmRun (Retreating (pgRoundUp oldsz) newsz) mid ⟨d', ph', []⟩ →
      (∀ page, Within (pgRoundUp oldsz) newsz page → d'.hasTable page →
        (d'.pte page).mapped = false) →
      Grown oldsz newsz lo d ph 0 d' ph'

/-- Taking a frame and clearing it. -/
theorem growing_take (lo hi : Nat) (d : PgDir) {ph : Phys} {mem : Nat} {rest : List Nat}
    (hfree : ph.freelist = mem :: rest) :
    VmRun (Growing lo hi) ⟨d, ph, []⟩ ⟨d, memset mem 0 { ph with freelist := rest }, [mem]⟩ :=
  (VmRun.single .alloc (.alloc hfree)).trans
    (.single .fill (.fill (fun _ => 0) List.mem_cons_self))

/-- One round of `allocuvm` that maps a page. -/
theorem growing_round {a newsz mem : Nat} {rest : List Nat} (hpage : Within a newsz (ppn a))
    {d d₂ : PgDir} {ph ph₂ : Phys} (hfree : ph.freelist = mem :: rest)
    (hmap : mapLoop Flags.user 1 a (mem * 4096) d (memset mem 0 { ph with freelist := rest })
      = .ok (true, d₂, ph₂)) : VmRun (Growing a newsz) ⟨d, ph, []⟩ ⟨d₂, ph₂, []⟩ := by
  rcases mapPage_run [] hmap with ⟨_, hrun⟩ | ⟨hb, _⟩
  · refine (growing_take a newsz d hfree).trans (hrun.mono ?_)
    intro e he
    rcases he with rfl | rfl
    · exact .table hpage
    · exact .map hpage (mapEntry_user _)
  · cases hb

theorem allocLoop_run {oldsz newsz n a : Nat} (hle : oldsz ≤ newsz) (hlt : newsz < kernbase)
    (ha : a % 4096 = 0) (hlo : pgRoundUp oldsz ≤ a) {d d' : PgDir} {ph ph' : Phys} {r : Nat}
    (h : allocLoop oldsz newsz n a d ph = .ok (r, d', ph')) :
    Grown oldsz newsz a d ph r d' ph' := by
  induction n generalizing a d ph with
  | zero =>
      rw [allocLoop] at h
      split at h
      · cases h
      · cases h
        exact .done (.refl _)
  | succ n ih =>
      rw [allocLoop] at h
      split at h
      · rename_i hin
        have hpage : Within a newsz (ppn a) := by
          unfold Within ppn
          omega
        have hold : ¬ newsz ≤ oldsz := by
          have := @le_pgRoundUp oldsz (by omega)
          omega
        cases hk : kalloc ph with
        | none =>
            rw [hk] at h
            simp only [bind_eq_ok] at h
            obtain ⟨⟨r₁, d₁, ph₁⟩, hde, h⟩ := h
            cases h
            rcases deallocuvm_spec (Nat.le_of_lt hlt) [] hde with ⟨hge, _⟩ | ⟨_, _, hrun, hdone⟩
            · exact absurd hge hold
            · exact .failed (.refl _) (hrun.mono fun _ he => .inl he) hdone
        | some r₁ =>
            obtain ⟨mem, ph₁⟩ := r₁
            rw [hk] at h
            obtain ⟨rest, hfree, rfl⟩ := kalloc_eq_some hk
            simp only [bind_eq_ok] at h
            obtain ⟨⟨b, d₂, ph₂⟩, hmap, h⟩ := h
            rw [mappages_page ha] at hmap
            have htake := growing_take a newsz d hfree
            rcases mapPage_run [] hmap with ⟨rfl, hrun⟩ | ⟨rfl, hrun⟩
            · have hnext : u32 (a + 4096) = a + 4096 := by
                apply u32_of_lt
                simp only [kernbase] at hlt
                omega
              simp only [if_true, hnext] at h
              have hfirst := growing_round hpage hfree hmap
              have hmono : ∀ e, Growing (a + 4096) newsz e → Growing a newsz e :=
                fun e he => he.mono (by omega)
              cases ih (by omega) (by omega) h with
              | done hrest => exact .done (hfirst.trans (hrest.mono hmono))
              | failed hrest hback hdone =>
                  exact .failed (hfirst.trans (hrest.mono hmono)) hback hdone
            · simp only [Bool.false_eq_true, if_false, bind_eq_ok] at h
              obtain ⟨⟨r₃, d₃, ph₃⟩, hde, ph₄, hkf, h⟩ := h
              cases h
              rcases deallocuvm_spec (Nat.le_of_lt hlt) [mem] hde
                with ⟨hge, _⟩ | ⟨_, _, hback, hdone⟩
              · exact absurd hge hold
              · have hrel := @VmStep.release d₃ ph₃ _ [mem] mem List.mem_cons_self hkf
                rw [List.erase_cons_head] at hrel
                refine .failed (htake.trans (hrun.mono ?_))
                  ((hback.mono fun _ he => .inl he).trans (.single (.inr ⟨mem, rfl⟩) hrel)) hdone
                intro e he
                rw [he]
                exact .table hpage
      · cases h
        exact .done (.refl _)

/-- The specification of `allocuvm`. -/
theorem allocuvm_spec {oldsz newsz r : Nat} {d d' : PgDir} {ph ph' : Phys}
    (h : allocuvm oldsz newsz d ph = .ok (r, d', ph')) :
    (kernbase ≤ newsz ∧ r = 0 ∧ d' = d ∧ ph' = ph)
      ∨ (newsz < kernbase ∧ newsz < oldsz ∧ r = oldsz ∧ d' = d ∧ ph' = ph)
      ∨ (newsz < kernbase ∧ oldsz ≤ newsz
        ∧ Grown oldsz newsz (pgRoundUp oldsz) d ph r d' ph') := by
  unfold allocuvm at h
  split at h
  · rename_i hge
    cases h
    exact .inl ⟨hge, rfl, rfl, rfl⟩
  · rename_i hlt
    split at h
    · rename_i hless
      cases h
      exact .inr (.inl ⟨by omega, hless, rfl, rfl, rfl⟩)
    · rename_i hle
      exact .inr (.inr ⟨by omega, by omega, allocLoop_run (by omega) (by omega)
        (pgRoundUp_aligned _) (Nat.le_refl _) h⟩)

/-! ## Copying -/

/-- The steps by which `copyuvm` copies the pages of `pgdir`. -/
inductive Copying (pgdir : PgDir) (lo hi : Nat) : VmEvent → Prop
  | table {page : Nat} : Within lo hi page → Copying pgdir lo hi (.table page)
  | alloc : Copying pgdir lo hi .alloc
  | fill {f : Nat} : Copying pgdir lo hi (.fill f)
  | map {page : Nat} {pte : Pte} :
      Within lo hi page → (pgdir.pte page).mapped → pte.toFlags = (pgdir.pte page).toFlags →
      Copying pgdir lo hi (.map page pte)

theorem Copying.mono {pgdir : PgDir} {lo lo' hi : Nat} {e : VmEvent} (hle : lo ≤ lo')
    (h : Copying pgdir lo' hi e) : Copying pgdir lo hi e := by
  cases h with
  | table hin => exact .table ⟨Nat.le_trans hle hin.1, hin.2⟩
  | alloc => exact .alloc
  | fill => exact .fill
  | map hin hm hf => exact .map ⟨Nat.le_trans hle hin.1, hin.2⟩ hm hf

theorem copying_bounded (pgdir : PgDir) (lo hi : Nat) :
    Bounded (Copying pgdir lo hi)
      (fun page pte => Within lo hi page ∧ pte.toFlags = (pgdir.pte page).toFlags)
      (fun _ => False) where
  map := by
    intro page pte h
    cases h with
    | map hin _ hf => exact ⟨hin, hf⟩
  kmap := by
    intro page pte h
    cases h
  unmap := by
    intro page h
    cases h

/-- `mappages` gives a copy of a mapped page its flags. -/
theorem mapEntry_copy {pte : Pte} (h : pte.mapped) (pa : Nat) :
    (mapEntry pa pte.toFlags).toFlags = pte.toFlags := by
  obtain ⟨⟨p, w, u, a, e⟩, f⟩ := pte
  cases e with
  | true => rfl
  | false =>
      cases p with
      | true => rfl
      | false => cases h

/-- One page of `copyuvm`: what it reads and what it leaves. -/
structure CopiedPage (pgdir : PgDir) (page : Nat) (d : PgDir) (ph : Phys) (d₂ : PgDir)
    (ph₂ : Phys) : Prop where
  source : pgdir.hasTable page ∧ (pgdir.pte page).mapped
  step : ∃ (mem : Nat) (rest : List Nat) (d₁ : PgDir),
    ph.freelist = mem :: rest
      ∧ (∀ held, VmRun (fun e => e = .table page)
          ⟨d, memmove mem (pgdir.pte page).frame { ph with freelist := rest }, held⟩
          ⟨d₁, ph₂, held⟩)
      ∧ d₁.hasTable page ∧ (d₁.pte page).mapped = false
      ∧ d₂ = d₁.set page (mapEntry (mem * 4096) (pgdir.pte page).toFlags)

/-- The loop of `copyuvm`, one page at a time. `false` is `goto bad`. -/
inductive Copied (pgdir : PgDir) (sz : Nat) :
    Nat → PgDir → Phys → Bool → PgDir → Phys → Prop
  | nil {i : Nat} {d : PgDir} {ph : Phys} : sz ≤ i → Copied pgdir sz i d ph true d ph
  | cons {i : Nat} {d d₂ d' : PgDir} {ph ph₂ ph' : Phys} {b : Bool} :
      i < sz → i % 4096 = 0 → CopiedPage pgdir (ppn i) d ph d₂ ph₂ →
      Copied pgdir sz (i + 4096) d₂ ph₂ b d' ph' → Copied pgdir sz i d ph b d' ph'
  | bad {i : Nat} {d d' : PgDir} {ph ph' : Phys} :
      i < sz → i % 4096 = 0 →
      VmRun (fun e => Copying pgdir i sz e ∨ ∃ f, e = .release f) ⟨d, ph, []⟩
        ⟨d', ph', []⟩ →
      Copied pgdir sz i d ph false d' ph'

theorem copyLoop_copied {pgdir : PgDir} {sz : Nat} (hsz : sz ≤ kernbase) {n i : Nat}
    (hi : i % 4096 = 0) {d d' : PgDir} {ph ph' : Phys} {b : Bool}
    (h : copyLoop pgdir sz n i d ph = .ok (b, d', ph')) :
    Copied pgdir sz i d ph b d' ph' := by
  induction n generalizing i d ph with
  | zero =>
      rw [copyLoop] at h
      split at h
      · cases h
      · rename_i hge
        cases h
        exact .nil (by omega)
  | succ n ih =>
      rw [copyLoop] at h
      split at h
      · rename_i hlt
        have hpage : Within i sz (ppn i) := by
          unfold Within ppn
          omega
        cases hw : walkpgdir pgdir i with
        | none =>
            rw [hw] at h
            cases h
        | some ptr =>
            rw [hw] at h
            obtain ⟨ht, rfl⟩ := walkpgdir_eq_some.mp hw
            simp only at h
            split at h
            · rename_i hm
              cases hk : kalloc ph with
              | none =>
                  rw [hk] at h
                  cases h
                  exact .bad hlt hi (.refl _)
              | some r =>
                  obtain ⟨mem, ph₁⟩ := r
                  rw [hk] at h
                  obtain ⟨rest, hfree, rfl⟩ := kalloc_eq_some hk
                  simp only [bind_eq_ok] at h
                  obtain ⟨⟨b₂, d₂, ph₂⟩, hmap, h⟩ := h
                  rw [mappages_page hi] at hmap
                  obtain ⟨d₁, hrun, ⟨rfl, rfl⟩ | ⟨rfl, ht₁, hm₁, rfl⟩⟩ := mapPage_spec hmap
                  · simp only [Bool.false_eq_true, if_false, bind_eq_ok] at h
                    obtain ⟨ph₃, hkf, h⟩ := h
                    cases h
                    have hrel := @VmStep.release d' ph₂ _ [mem] mem List.mem_cons_self hkf
                    rw [List.erase_cons_head] at hrel
                    refine .bad hlt hi ((VmRun.single (.inl .alloc) (.alloc hfree)).trans
                      ((VmRun.single (.inl .fill) (.fill _ List.mem_cons_self)).trans
                        (((hrun [mem]).mono ?_).trans (.single (.inr ⟨mem, rfl⟩) hrel))))
                    intro e he
                    rw [he]
                    exact .inl (.table hpage)
                  · have hnext : u32 (i + 4096) = i + 4096 := by
                      apply u32_of_lt
                      simp only [kernbase] at hsz
                      omega
                    simp only [if_true, hnext] at h
                    exact .cons hlt hi ⟨⟨ht, hm⟩, mem, rest, d₁, hfree, hrun, ht₁, hm₁, rfl⟩
                      (ih (by omega) h)
            · cases h
      · rename_i hge
        cases h
        exact .nil (by omega)

/-- One page of `copyuvm` as a run. -/
theorem CopiedPage.run {pgdir d d₂ : PgDir} {ph ph₂ : Phys} {page lo hi : Nat}
    (hin : Within lo hi page) (h : CopiedPage pgdir page d ph d₂ ph₂) :
    VmRun (Copying pgdir lo hi) ⟨d, ph, []⟩ ⟨d₂, ph₂, []⟩ := by
  obtain ⟨⟨_, hm⟩, mem, rest, d₁, hfree, hrun, ht₁, hm₁, rfl⟩ := h
  have hmem : (mapEntry (mem * 4096) (pgdir.pte page).toFlags).frame ∈ [mem] := by
    rw [mapEntry_frame]
    exact List.mem_cons_self
  have hmap := @VmStep.map d₁ ph₂ _ _ _ ht₁ hm₁ hmem
  rw [mapEntry_frame, List.erase_cons_head] at hmap
  refine (VmRun.single .alloc (.alloc hfree)).trans
    ((VmRun.single .fill (.fill _ List.mem_cons_self)).trans
      (((hrun [mem]).mono ?_).trans (.single (.map hin hm (mapEntry_copy hm _)) hmap)))
  intro e he
  rw [he]
  exact .table hin

/-- The loop of `copyuvm` as a run. -/
theorem Copied.run {pgdir d d' : PgDir} {ph ph' : Phys} {sz i : Nat} {b : Bool}
    (h : Copied pgdir sz i d ph b d' ph') :
    VmRun (fun e => Copying pgdir i sz e ∨ ∃ f, e = .release f) ⟨d, ph, []⟩ ⟨d', ph', []⟩
      ∧ (b = true → VmRun (Copying pgdir i sz) ⟨d, ph, []⟩ ⟨d', ph', []⟩) := by
  induction h with
  | nil _ => exact ⟨.refl _, fun _ => .refl _⟩
  | @cons i d d₂ d' ph ph₂ ph' b hlt hi hpage _ ih =>
      have hin : Within i sz (ppn i) := by
        unfold Within ppn
        omega
      have hfirst := hpage.run hin
      have hmono : ∀ e, Copying pgdir (i + 4096) sz e → Copying pgdir i sz e :=
        fun e he => he.mono (by omega)
      constructor
      · refine (hfirst.mono fun _ he => .inl he).trans (ih.1.mono ?_)
        intro e he
        exact he.imp (hmono e) id
      · intro hb
        exact hfirst.trans ((ih.2 hb).mono hmono)
  | bad _ _ hrun => exact ⟨hrun, fun hb => by cases hb⟩

/-- The entry of a page copied before stays as it is. -/
theorem Copied.entry {pgdir d d' : PgDir} {ph ph' : Phys} {sz i j : Nat} {b : Bool}
    (h : Copied pgdir sz (i + 4096) d ph b d' ph') (hb : b = true) (hj : ¬ i < j)
    (ht : d.hasTable (ppn j)) : d'.hasTable (ppn j) ∧ d'.pte (ppn j) = d.pte (ppn j) := by
  have hev := (h.run.2 hb).evolved (copying_bounded pgdir (i + 4096) sz)
  refine ⟨hev.table _ ht, ?_⟩
  rcases hev.pte (ppn j) with h | ⟨_, hF | hno⟩ | ⟨_, ⟨h1, _⟩, _⟩
  · exact h
  · exact hF.elim
  · change d.hasTable (ppn j) = false at hno
    rw [ht] at hno
    cases hno
  · unfold ppn at h1
    omega

/-- What `copyuvm` leaves of each page: an entry with its flags. -/
theorem Copied.flags {pgdir d d' : PgDir} {ph ph' : Phys} {sz i : Nat} {b : Bool}
    (h : Copied pgdir sz i d ph b d' ph') (hb : b = true) :
    ∀ page, Within i sz page →
      d'.hasTable page ∧ pgdir.hasTable page ∧ (pgdir.pte page).mapped
        ∧ (d'.pte page).toFlags = (pgdir.pte page).toFlags := by
  induction h with
  | nil hge =>
      intro page ⟨h1, h2⟩
      omega
  | bad _ _ _ => cases hb
  | @cons i d d₂ d' ph ph₂ ph' b hlt hi hpage hrest ih =>
      intro page hin
      by_cases heq : page = ppn i
      · -- the page copied now: the later ones do not touch its entry
        subst heq
        obtain ⟨⟨ht, hm⟩, mem, rest, d₁, _, _, ht₁, _, hd₂⟩ := hpage
        have ht₂ : d₂.hasTable (ppn i) := by
          rw [hd₂]
          exact ht₁
        have hsame := hrest.entry hb (Nat.lt_irrefl _) ht₂
        refine ⟨hsame.1, ht, hm, ?_⟩
        rw [hsame.2, hd₂, PgDir.set_pte, if_pos rfl, mapEntry_copy hm]
      · apply ih hb page
        obtain ⟨h1, h2⟩ := hin
        unfold Within
        unfold ppn at heq
        omega

/-- Its bytes are copied to the frame of that entry. -/
theorem Copied.copies {pgdir d d' : PgDir} {ph ph' : Phys} {sz i : Nat} {b : Bool}
    (h : Copied pgdir sz i d ph b d' ph') (hb : b = true) (hnd : ph.freelist.Nodup)
    (hsrc : ∀ page, Within i sz page → (pgdir.pte page).frame ∉ ph.freelist) :
    ∀ page, Within i sz page →
      ph'.mem (d'.pte page).frame = ph.mem (pgdir.pte page).frame := by
  induction h with
  | nil hge =>
      intro page ⟨h1, h2⟩
      omega
  | bad _ _ _ => cases hb
  | @cons i d d₂ d' ph ph₂ ph' b hlt hi hpage hrest ih =>
      intro page hin
      obtain ⟨_, mem, rest, d₁, hfree, hrun, ht₁, _, hd₂⟩ := hpage
      rw [hfree] at hnd hsrc
      rw [List.nodup_cons] at hnd
      have hsub : ph₂.freelist.Sublist rest := (hrun []).freelist (by simp) (by simp)
      -- the frames that must not be written any more: the copy, and the pages to come
      let P : Nat → Prop := fun f =>
        f = mem ∨ ∃ q, Within i sz q ∧ f = (pgdir.pte q).frame
      have hP : ∀ f ∈ rest, ¬ P f := by
        intro f hf hPf
        rcases hPf with rfl | ⟨q, hq, rfl⟩
        · exact hnd.1 hf
        · exact hsrc q hq (List.mem_cons_of_mem _ hf)
      have hav : Avoids P (fun _ => False)
          ⟨d, memmove mem (pgdir.pte (ppn i)).frame { ph with freelist := rest }, []⟩ :=
        ⟨hP, by simp, fun _ hF => hF.elim⟩
      have hmem₂ := ((hrun []).avoids (by simp) (by simp) hav).2
      by_cases heq : page = ppn i
      · subst heq
        have ht₂ : d₂.hasTable (ppn i) := by
          rw [hd₂]
          exact ht₁
        have hav₂ : Avoids P (fun _ => False) ⟨d₂, ph₂, []⟩ :=
          ⟨fun f hf => hP f (hsub.subset hf), by simp, fun _ hF => hF.elim⟩
        have hmem' := (((hrest.run).2 hb).avoids (fun _ h => by cases h)
          (fun _ _ h => by cases h) hav₂).2
        rw [(hrest.entry hb (Nat.lt_irrefl _) ht₂).2, hd₂, PgDir.set_pte, if_pos rfl,
          mapEntry_frame]
        have h1 : ph'.mem mem = ph₂.mem mem := hmem' mem (.inl rfl)
        have h2 := hmem₂ mem (.inl rfl)
        rw [h1, h2]
        exact Function.update_self _ _ _
      · have hin' : Within (i + 4096) sz page := by
          obtain ⟨h1, h2⟩ := hin
          unfold Within
          unfold ppn at heq
          omega
        have hsrc₂ : ∀ q, Within (i + 4096) sz q → (pgdir.pte q).frame ∉ ph₂.freelist := by
          intro q ⟨h1, h2⟩ hmem
          exact hsrc q ⟨by omega, h2⟩ (List.mem_cons_of_mem _ (hsub.subset hmem))
        have hne : (pgdir.pte page).frame ≠ mem := by
          intro heq
          exact hsrc page hin (heq ▸ List.mem_cons_self)
        have h2 := hmem₂ (pgdir.pte page).frame (.inr ⟨page, hin, rfl⟩)
        rw [ih hb (hnd.2.sublist hsub) hsrc₂ page hin', h2]
        exact Function.update_of_ne hne _ _

/-- The specification of `copyuvm`: no directory at all, one that is complete, or
one that is taken down again. -/
theorem copyuvm_spec {pgdir : PgDir} {sz : Nat} (hsz : sz ≤ kernbase) {ph ph' : Phys}
    {r : Option PgDir} (h : copyuvm pgdir sz ph = .ok (r, ph')) :
    (∃ ph₀, setupkvm ph = .ok (none, ph₀) ∧ r = none ∧ ph' = ph₀)
      ∨ ∃ d₀ ph₀ d ph₁ b, setupkvm ph = .ok (some d₀, ph₀)
        ∧ Copied pgdir sz 0 d₀ ph₀ b d ph₁
        ∧ ((b = true ∧ r = some d ∧ ph' = ph₁)
          ∨ (b = false ∧ r = none ∧ freevm d ph₁ = .ok ph')) := by
  unfold copyuvm at h
  rw [bind_eq_ok] at h
  obtain ⟨⟨r₀, ph₀⟩, hsetup, h⟩ := h
  cases r₀ with
  | none =>
      cases h
      exact .inl ⟨ph', hsetup, rfl, rfl⟩
  | some d₀ =>
      simp only [bind_eq_ok] at h
      obtain ⟨⟨b, d, ph₁⟩, hloop, h⟩ := h
      refine .inr ⟨d₀, ph₀, d, ph₁, b, hsetup, copyLoop_copied hsz (by decide) hloop, ?_⟩
      cases b with
      | true =>
          cases h
          exact .inl ⟨rfl, rfl, rfl⟩
      | false =>
          simp only [Bool.false_eq_true, if_false, bind_eq_ok] at h
          obtain ⟨ph₂, hfree, h⟩ := h
          cases h
          exact .inr ⟨rfl, rfl, hfree⟩

end CS537.Pager
