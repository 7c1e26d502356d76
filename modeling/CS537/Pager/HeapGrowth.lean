import CS537.Pager.Heap
import CS537.Pager.WorkingSet

/-!
# Pager — what `growproc` encrypts

`growproc` asks `mencrypt` for `n / PGSIZE` pages from the page of the old size on,
and `allocuvm` maps the pages from the end of the old size's page to the new size.
The two ranges agree when both size and amount are whole pages; else the last new page
stays in the clear, if there is a new page.
-/

namespace CS537.Pager

open MachineInt

/-! ## What is claimed -/

/-- The pages a call has mapped are encrypted and hold zeros, and the bits of the
others are as they were. -/
structure GrowthEncrypted (m m' : Machine) : Prop where
  fresh : ∀ page < kernPage, m.pgdir.pageFrame page = none →
    (m'.pgdir.pageFrame page).isSome →
      (m'.pgdir.pte page).e = true ∧ (m'.pgdir.pte page).p = false ∧
        content m'.pgdir m'.phys page = fun _ => 0
  kept : ∀ page < kernPage, (m.pgdir.pageFrame page).isSome →
    (m'.pgdir.pte page).p = (m.pgdir.pte page).p ∧
      (m'.pgdir.pte page).e = (m.pgdir.pte page).e

variable {m m' : Machine}

/-! ## New pages -/

theorem growing_apart {lo hi : Nat} {s t : Vm} (h : VmRun (Growing lo hi) s t) (hs : s.Apart) :
    t.Apart := by
  apply h.apart _ _ hs
  · intro page pte h
    cases h
  · intro page h
    cases h

/-- The pages `allocuvm` maps were not mapped, and hold zeros. -/
theorem allocLoop_zero {oldsz newsz n a r : Nat} (hle : oldsz ≤ newsz) (hlt : newsz < kernbase)
    (ha : a % 4096 = 0) (hlo : pgRoundUp oldsz ≤ a) {d d' : PgDir} {ph ph' : Phys}
    (hap : Vm.Apart ⟨d, ph, []⟩) (h : allocLoop oldsz newsz n a d ph = .ok (r, d', ph'))
    (hr : r ≠ 0) : ∀ page, Within a newsz page →
      d.pageFrame page = none ∧ ph'.mem (d'.pte page).frame = fun _ => 0 := by
  induction n generalizing a d ph with
  | zero =>
      rw [allocLoop] at h
      split at h
      · cases h
      · intro page hin
        obtain ⟨h1, h2⟩ := hin
        omega
  | succ n ih =>
      by_cases hin : a < newsz
      · obtain ⟨mem, rest, d₂, ph₂, hfree, hmap, h⟩ := allocLoop_round hlt ha hin h hr
        have hpage : Within a newsz (ppn a) := by
          unfold Within ppn
          omega
        have hfirst := growing_round hpage hfree hmap
        have hap₂ := growing_apart hfirst hap
        have hrest := ih (by omega) (by omega) hap₂ h
        obtain ⟨d₁, hrun, ⟨hb, _⟩ | ⟨_, ht₁, hm₁, hd₂⟩⟩ := mapPage_spec hmap
        · cases hb
        · have hsame : ∀ q, d₁.pageFrame q = d.pageFrame q := by
            intro q
            apply (hrun []).pageFrame
            rintro e rfl hw
            exact hw
          intro page hin'
          by_cases heq : page = ppn a
          · subst heq
            refine ⟨(hsame _).symm.trans (PgDir.pageFrame_none fun _ => hm₁), ?_⟩
            have hpte : d₂.pte (ppn a) = mapEntry (mem * 4096) Flags.user := by
              rw [hd₂, PgDir.set_pte, if_pos rfl]
            have hframe : (d₂.pte (ppn a)).frame = mem := by
              rw [hpte, mapEntry_frame]
            -- the frame is cleared, and no page table is made of it
            have hmem₂ : ph₂.mem mem = fun _ => 0 := by
              have hnodup : mem ∉ rest := by
                have := hap.nodup
                rw [hfree] at this
                exact (List.nodup_cons.mp this).1
              have hav : Avoids (fun f => f = mem) (fun _ => False)
                  ⟨d, memset mem 0 { ph with freelist := rest }, []⟩ :=
                ⟨fun f hf heq => hnodup (heq ▸ hf), fun f hf => (by cases hf), fun _ h => h.elim⟩
              have hkeep := ((hrun []).avoids (fun p hp => by cases hp)
                (fun p e he => by cases he) hav).2 mem rfl
              rw [hkeep]
              exact Function.update_self _ _ _
            have hum : d₂.UserMapped (ppn a) := by
              refine ⟨?_, ?_, .inl (hpage.lt_kernPage (Nat.le_of_lt hlt))⟩
              · rw [hd₂]
                exact ht₁
              · rw [hpte]
                rfl
            cases allocLoop_run hle hlt (by omega) (by omega) h with
            | failed _ _ _ => exact absurd rfl hr
            | done hgrow =>
                obtain ⟨hpte', hmem'⟩ := hgrow.keeps (fun q h => by cases h) hap₂ hum
                change d'.pte (ppn a) = d₂.pte (ppn a) at hpte'
                change ph'.mem (d₂.pte (ppn a)).frame = ph₂.mem (d₂.pte (ppn a)).frame at hmem'
                rw [hpte', hmem', hframe, hmem₂]
          · have hlater : Within (a + 4096) newsz page := by
              obtain ⟨h1, h2⟩ := hin'
              unfold Within
              unfold ppn at heq
              omega
            obtain ⟨hnone, hzero⟩ := hrest page hlater
            rw [hd₂, PgDir.pageFrame_set _ heq, hsame] at hnone
            exact ⟨hnone, hzero⟩
      · intro page hin
        obtain ⟨h1, h2⟩ := hin
        omega

/-! ## `growproc` -/

/-- What `allocuvm` has done when it succeeds: its range is mapped to cleared frames,
and the other pages are as they were. -/
structure Extended (m : Machine) (n : Int) (d : PgDir) (ph : Phys) : Prop where
  fits : (m.sz : Int) + n < kernbase
  separate : Separate (m.withVm d ph)
  fresh : ∀ page, Within (pgRoundUp m.sz) (m.sz + n).toNat page →
    m.pgdir.pageFrame page = none ∧ d.hasTable page ∧ (d.pte page).toFlags = userFlags ∧
      ph.mem (d.pte page).frame = fun _ => 0
  old : ∀ page, ¬ Within (pgRoundUp m.sz) (m.sz + n).toNat page →
    d.pageFrame page = m.pgdir.pageFrame page
  same : ∀ page, m.pgdir.UserMapped page → d.pte page = m.pgdir.pte page

theorem growproc_extends {n : Int} (hs : Separate m) (hn : IsInt n) (hpos : 0 < n)
    (h : growproc n m = .ok (0, m')) :
    ∃ d ph, Extended m n d ph ∧ Recoded (m.withVm d ph) { m' with sz := m.sz } ∧
      ∀ q, m'.pgdir.pte q =
        if q ∈ mencryptPages m.sz (n.tdiv 4096) then (d.pte q).encrypted else d.pte q := by
  have hsz := hs.size
  simp only [kernbase] at hsz
  have hadd : toU32 (m.sz + n) = (m.sz + n).toNat := by
    have := hn.2
    unfold toU32
    omega
  unfold growproc at h
  rw [if_pos hpos, hadd] at h
  simp only [bind_eq_ok] at h
  obtain ⟨⟨sz, d, ph⟩, halloc, h⟩ := h
  dsimp only at h
  split at h
  · cases h
  · rename_i hne
    simp only [bind_eq_ok] at h
    obtain ⟨⟨r₁, m₁⟩, henc, h⟩ := h
    cases h
    rcases allocuvm_spec halloc with ⟨_, h0, _⟩ | ⟨_, hless, _⟩ | ⟨hlt, hle, hgrown⟩
    · exact absurd h0 hne
    · omega
    · have hsep := (hgrown.content hs hlt).1
      have hrec : Recoded (m.withVm d ph) m₁ := mencrypt_recoded hsep henc
      obtain ⟨_, hm₁⟩ := mencrypt_spec henc
      have hnew := allocuvm_mapped hle hlt halloc hne
      have hzero : ∀ page, Within (pgRoundUp m.sz) (m.sz + n).toNat page →
          m.pgdir.pageFrame page = none ∧ ph.mem (d.pte page).frame = fun _ => 0 := by
        rw [allocuvm_grow hle hlt] at halloc
        exact allocLoop_zero hle hlt (pgRoundUp_aligned _) (Nat.le_refl _) hs.apart halloc hne
      cases hgrown with
      | failed _ _ _ => exact absurd rfl hne
      | done hrun =>
          refine ⟨d, ph, ⟨?_, hsep, fun page hin => ?_, fun page hin => grown_pageFrame hrun hin,
            fun page hp => ?_⟩, ?_, fun q => ?_⟩
          · simp only [kernbase] at hlt ⊢
            omega
          · obtain ⟨hnone, hmem⟩ := hzero page hin
            obtain ⟨ht, hflags⟩ := hnew page hin
            exact ⟨hnone, ht, hflags, hmem⟩
          · exact (hrun.keeps (fun q h => by cases h) hs.apart hp).1
          · have hsize : m₁.sz = m.sz := hrec.size
            exact ⟨rfl, hrec.frame, hrec.table, hrec.free, hrec.pte, hrec.content⟩
          · dsimp only
            rw [hm₁, Machine.encryptAll_pte]

/-- The last page of a process that grows unevenly is not in the range. -/
theorem last_page_outside {sz : Nat} {n : Int} (hn : 0 < n) (hfits : (sz : Int) + n < kernbase)
    (huneven : ¬ (sz % 4096 = 0 ∧ n % 4096 = 0)) :
    (((sz : Int) + n).toNat - 1) / 4096 ∉ mencryptPages sz (n.tdiv 4096) := by
  simp only [kernbase] at hfits
  have hal : pgRoundDown sz % 4096 = 0 := by
    unfold pgRoundDown
    omega
  rw [mencryptPages, tdiv_pagesize hn, mem_pagesFrom hal (by unfold pgRoundDown; omega)]
  unfold ppn pgRoundDown
  omega

/-- **Heap growth**: `growproc` encrypts exactly the pages it maps when size and amount
are whole pages, or when it maps none, and in no other case. -/
theorem growth_encrypted_iff {n : Int} (hs : Separate m) (hn : IsInt n) (hpos : 0 < n)
    (h : growproc n m = .ok (0, m')) : GrowthEncrypted m m' ↔ m.GrowsEvenly n := by
  obtain ⟨d, ph, hext, hrec, hpte⟩ := growproc_extends hs hn hpos h
  have hfits := hext.fits
  simp only [kernbase] at hfits
  have hle : (m.sz + n).toNat ≤ kernbase := by
    simp only [kernbase]
    omega
  have hpages : ∀ page, m'.pgdir.pageFrame page = d.pageFrame page := fun page =>
    hrec.pageFrame page
  constructor
  · intro henc
    by_contra hno
    rw [Machine.GrowsEvenly, not_or] at hno
    obtain ⟨huneven, hmore⟩ := hno
    -- the last new page
    generalize hlast : ((m.sz : Int) + n).toNat - 1 = last
    have hin : Within (pgRoundUp m.sz) (m.sz + n).toNat (last / 4096) := by
      have hsz := hs.size
      simp only [kernbase] at hsz
      unfold pgRoundUp u32 at hmore
      unfold Within pgRoundUp u32
      omega
    obtain ⟨hnone, ht, hflags, _⟩ := hext.fresh _ hin
    have hmapped : (m'.pgdir.pageFrame (last / 4096)).isSome := by
      rw [hpages, PgDir.pageFrame_isSome]
      refine ⟨ht, ?_⟩
      change (d.pte (last / 4096)).toFlags.p || (d.pte (last / 4096)).toFlags.e
      rw [hflags]
      rfl
    have hout := last_page_outside hpos hext.fits huneven
    rw [hlast] at hout
    have hclear := (henc.fresh _ (hin.lt_kernPage hle) hnone hmapped).1
    rw [hpte, if_neg hout] at hclear
    change (d.pte (last / 4096)).toFlags.e = true at hclear
    rw [hflags] at hclear
    cases hclear
  · intro heven
    have hrange : ∀ page, page ∈ mencryptPages m.sz (n.tdiv 4096) ↔
        Within (pgRoundUp m.sz) (m.sz + n).toNat page := by
      intro page
      rcases heven with ⟨hsz, hn4⟩ | hnone
      · rw [mem_growPages hsz hpos hext.fits]
        unfold Within pgRoundUp u32
        omega
      · have hlt : m.sz < kernbase := by
          simp only [kernbase]
          omega
        rw [growPages_nil hlt hpos hext.fits hnone]
        unfold pgRoundUp u32 at hnone
        unfold Within pgRoundUp u32
        simp only [List.not_mem_nil, false_iff]
        omega
    constructor
    · intro page hpage hnone hsome
      have hin : Within (pgRoundUp m.sz) (m.sz + n).toNat page := by
        by_contra hout
        rw [hpages, hext.old page hout, hnone] at hsome
        cases hsome
      obtain ⟨_, ht, hflags, hmem⟩ := hext.fresh page hin
      have he : (d.pte page).e = false := by
        rw [hflags]
        rfl
      have hentry : m'.pgdir.pte page = { d.pte page with p := false, e := true } := by
        rw [hpte, if_pos ((hrange page).mpr hin), Pte.encrypted, if_pos]
        change ((d.pte page).toFlags.p || (d.pte page).toFlags.e) && (d.pte page).toFlags.u
          && !(d.pte page).toFlags.e
        rw [hflags]
        rfl
      have hum : (m.withVm d ph).pgdir.UserMapped page :=
        PgDir.userMapped_of_pageFrame hpage (hpages page ▸ hsome)
      refine ⟨by rw [hentry], by rw [hentry], ?_⟩
      calc content m'.pgdir m'.phys page = content d ph page := hrec.content page hum
        _ = ph.mem (d.pte page).frame := by rw [content, if_neg (by simp [he])]
        _ = fun _ => 0 := hmem
    · intro page hpage hsome
      have hout : page ∉ mencryptPages m.sz (n.tdiv 4096) := by
        intro hmem
        rw [(hext.fresh page ((hrange page).mp hmem)).1] at hsome
        cases hsome
      rw [hpte, if_neg hout, hext.same page (PgDir.userMapped_of_pageFrame hpage hsome)]
      exact ⟨rfl, rfl⟩

/-- `heapPage` with free memory. -/
def roomyHeapPage : Machine :=
  { heapPage with phys := { heapPage.phys with freelist := [2000, 2001] } }

theorem separate_roomyHeapPage : Separate roomyHeapPage := by
  refine ⟨by decide, fun p q hp hq _ => ?_, by decide, fun p hp => ?_⟩
  · rw [heapPage_pte hp.mapped, heapPage_pte hq.mapped]
  · rw [heapPage_pte hp.mapped]
    decide

/-- It grows to two pages. -/
theorem roomyHeapPage_alloc {newsz : Nat} (hlo : 4096 < newsz) (hhi : newsz ≤ 8192) :
    ∃ d ph, allocuvm 4096 newsz roomyHeapPage.pgdir roomyHeapPage.phys = .ok (newsz, d, ph) ∧
      d.hasTable 1 ∧ (d.pte 1).toFlags = userFlags := by
  have hlt : newsz < kernbase := by
    simp only [kernbase]
    omega
  have hup : pgRoundUp newsz = 8192 := by
    unfold pgRoundUp u32
    omega
  have hframes : framesFor (newPages 4096 newsz) (ppn (pgRoundUp 4096)) roomyHeapPage.pgdir ≤
      roomyHeapPage.phys.freelist.length := by
    rw [newPages, hup]
    decide
  obtain ⟨d, ph, hok⟩ := (allocuvm_iff (by omega) hlt (by omega) (by
    intro page hin
    have hne : page ≠ 0 := by
      intro heq
      have := hin.1
      rw [heq] at this
      exact absurd this (by decide)
    rw [show roomyHeapPage.pgdir.pte page = Pte.zero from if_neg hne]
    rfl)).mpr hframes
  have hmapped := allocuvm_mapped (by omega) hlt hok (by omega) 1 ⟨by decide, by omega⟩
  exact ⟨d, ph, hok, hmapped⟩

/-- `growproc` when `allocuvm` succeeds. -/
theorem roomyHeapPage_grow {n : Int} {newsz : Nat} {d : PgDir} {ph : Phys} {m₁ : Machine}
    (hpos : 0 < n) (hnew : toU32 ((roomyHeapPage.sz : Int) + n) = newsz) (hne : newsz ≠ 0)
    (hok : allocuvm 4096 newsz roomyHeapPage.pgdir roomyHeapPage.phys = .ok (newsz, d, ph))
    (henc : mencrypt 4096 (n.tdiv 4096) (roomyHeapPage.withVm d ph) = .ok (0, m₁)) :
    growproc n roomyHeapPage = .ok (0, { m₁ with sz := newsz }) := by
  unfold growproc
  rw [if_pos hpos, hnew]
  change (allocuvm 4096 newsz roomyHeapPage.pgdir roomyHeapPage.phys >>= _) = _
  rw [hok, ok_bind]
  dsimp only
  rw [if_neg hne]
  change (mencrypt 4096 (n.tdiv 4096) (roomyHeapPage.withVm d ph) >>= _) = _
  rw [henc]
  rfl

/-- `sbrk(4096)` encrypts the new page. -/
theorem growth_encrypted_iff_roomyHeapPage :
    ∃ m', growproc 4096 roomyHeapPage = .ok (0, m') ∧ GrowthEncrypted roomyHeapPage m' := by
  obtain ⟨d, ph, hok, ht, _⟩ := @roomyHeapPage_alloc 8192 (by decide) (by decide)
  have hgrow := @roomyHeapPage_grow 4096 8192 d ph _ (by decide) (by decide) (by decide) hok
    (@mencrypt_one 4096 (roomyHeapPage.withVm d ph) ht)
  exact ⟨_, hgrow, (growth_encrypted_iff separate_roomyHeapPage ⟨by decide, by decide⟩
    (by decide) hgrow).mpr (.inl ⟨rfl, rfl⟩)⟩

/-- `sbrk(1)` leaves it in the clear. -/
theorem growth_left_in_clear : Separate roomyHeapPage ∧
    ∃ m', growproc 1 roomyHeapPage = .ok (0, m') ∧
      roomyHeapPage.pgdir.pageFrame 1 = none ∧ (m'.pgdir.pageFrame 1).isSome ∧
        (m'.pgdir.pte 1).e = false := by
  obtain ⟨d, ph, hok, ht, hflags⟩ := @roomyHeapPage_alloc 4097 (by decide) (by decide)
  have hgrow := @roomyHeapPage_grow 1 4097 d ph _ (by decide) (by decide) (by decide) hok
    (show mencrypt 4096 0 (roomyHeapPage.withVm d ph) = _ from rfl)
  refine ⟨separate_roomyHeapPage, _, hgrow, rfl, ?_, ?_⟩
  · rw [PgDir.pageFrame_isSome]
    refine ⟨ht, ?_⟩
    change (d.pte 1).toFlags.p || (d.pte 1).toFlags.e
    rw [hflags]
    rfl
  · change (d.pte 1).toFlags.e = false
    rw [hflags]
    rfl

end CS537.Pager
