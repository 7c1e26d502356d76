import CS537.Pager.ClockRefine
import CS537.Pager.Frames
import CS537.Pager.Kernel

/-!
# Pager — the state after `exec`

A process that has completed `exec` has an empty queue, and all its user pages are
encrypted. The second half shows that `exec` can complete: with enough free
frames it loads an image without segments.
-/

namespace CS537.Pager

open MachineInt

/-! ## What `exec` leaves -/

/-- The user pages of an image under construction: below its size, in the clear. -/
def UserBelow (d : PgDir) (sz : Nat) : Prop :=
  ∀ page, (d.pte page).u → d.hasTable page ∧ 4096 * page < sz
    ∧ (d.pte page).p ∧ (d.pte page).e = false

theorem UserBelow.mono {d : PgDir} {sz sz' : Nat} (hle : sz ≤ sz') (h : UserBelow d sz) :
    UserBelow d sz' := by
  intro page hu
  obtain ⟨ht, hlt, hp⟩ := h page hu
  exact ⟨ht, Nat.lt_of_lt_of_le hlt hle, hp⟩

/-- `setupkvm` maps kernel pages only. -/
theorem setupkvm_pte {ph ph' : Phys} {d : PgDir} (h : setupkvm ph = .ok (some d, ph')) :
    ∀ page, d.pte page = Pte.zero ∨ (kernPage ≤ page ∧ (d.pte page).u = false) := by
  rcases setupkvm_run h with ⟨_, hn, _⟩ | ⟨f, rest, d₁, ph₁, _, hrun, hend⟩
  · cases hn
  · rcases hend with ⟨hd, _⟩ | ⟨hd, _⟩
    · cases hd
      have hb : Bounded KernelSetup (fun page pte => kernPage ≤ page ∧ pte.u = false)
          (fun _ => False) := by
        constructor
        · intro page pte h
          rcases h with ⟨_, he, _⟩ | ⟨_, _, he⟩ <;> cases he
        · intro page pte _ hk hu
          exact ⟨hk, hu⟩
        · intro page h
          rcases h with ⟨_, he, _⟩ | ⟨_, _, he⟩ <;> cases he
      intro page
      rcases (hrun.evolved hb).pte page with h | ⟨h, _⟩ | ⟨_, h⟩
      · exact .inl h
      · exact .inl h
      · exact .inr h
    · cases hd

theorem setupkvm_userBelow {ph ph' : Phys} {d : PgDir} (h : setupkvm ph = .ok (some d, ph')) :
    UserBelow d 0 := by
  intro page hu
  rcases setupkvm_pte h page with hz | ⟨_, hn⟩
  · rw [hz] at hu
    cases hu
  · rw [hn] at hu
    cases hu

theorem allocuvm_userBelow {oldsz newsz r : Nat} {d d' : PgDir} {ph ph' : Phys}
    (hlt : oldsz ≤ kernbase) (hu : UserBelow d oldsz)
    (h : allocuvm oldsz newsz d ph = .ok (r, d', ph')) (hr : r ≠ 0) :
    UserBelow d' r ∧ ((r = newsz ∧ newsz < kernbase) ∨ r = oldsz) := by
  rcases allocuvm_spec h with ⟨_, h0, _⟩ | ⟨_, _, rfl, rfl, rfl⟩ | ⟨hlt', hle, hgrown⟩
  · exact absurd h0 hr
  · exact ⟨hu, .inr rfl⟩
  · cases hgrown with
    | failed _ _ _ => exact absurd rfl hr
    | done hrun =>
        refine ⟨?_, .inl ⟨rfl, hlt'⟩⟩
        have hev := hrun.evolved (growing_bounded _ _)
        intro page hup
        rcases hev.pte page with hs | ⟨hz, _⟩ | ⟨ht, ⟨_, hin⟩, hf⟩
        · change d'.pte page = d.pte page at hs
          rw [hs] at hup ⊢
          obtain ⟨ht, hb, hp⟩ := hu page hup
          exact ⟨hev.table page ht, Nat.lt_of_lt_of_le hb hle, hp⟩
        · change d'.pte page = Pte.zero at hz
          rw [hz] at hup
          cases hup
        · exact ⟨ht, hin, congrArg Flags.p hf, congrArg Flags.e hf⟩

theorem segLoop_userBelow {ip : List UInt8} {n off sz sz' : Nat} {d d' : PgDir}
    {ph ph' : Phys} (hlt : sz < kernbase) (hu : UserBelow d sz)
    (h : segLoop ip n off sz d ph = .ok (some sz', d', ph')) :
    sz' < kernbase ∧ UserBelow d' sz' := by
  induction n generalizing off sz d ph with
  | zero =>
      cases h
      exact ⟨hlt, hu⟩
  | succ n ih =>
      rw [segLoop] at h
      split at h
      · cases h
      split at h
      · exact ih hlt hu h
      split at h
      · cases h
      split at h
      · cases h
      · rw [bind_eq_ok] at h
        obtain ⟨⟨sz₁, d₁, ph₁⟩, halloc, h⟩ := h
        simp only at h
        split at h
        · cases h
        · rename_i hne
          obtain ⟨hu₁, hsz₁⟩ := allocuvm_userBelow (Nat.le_of_lt hlt) hu halloc hne
          have hlt₁ : sz₁ < kernbase := by
            rcases hsz₁ with ⟨rfl, hn⟩ | rfl
            · exact hn
            · exact hlt
          split at h
          · cases h
          · rw [bind_eq_ok] at h
            obtain ⟨⟨ok, ph₂⟩, _, h⟩ := h
            simp only at h
            split at h
            · cases h
            · exact ih hlt₁ hu₁ h

theorem clearpteu_userBelow {d d' : PgDir} {va sz : Nat} (hu : UserBelow d sz)
    (h : clearpteu va d = .ok d') : UserBelow d' sz := by
  unfold clearpteu at h
  cases hw : walkpgdir d va with
  | none =>
      rw [hw] at h
      cases h
  | some ptr =>
      rw [hw] at h
      cases h
      intro page hup
      rw [PgDir.set_pte] at hup ⊢
      split at hup
      · cases hup
      · rename_i hne
        rw [if_neg hne]
        exact hu page hup

theorem loadImage_userBelow {ip elf : List UInt8} {argv : List (List UInt8)}
    {d d' : PgDir} {ph ph' : Phys} {sz : Nat} (hu : UserBelow d 0)
    (h : loadImage ip elf argv d ph = .ok (some sz, d', ph')) :
    sz % 4096 = 0 ∧ sz < kernbase ∧ UserBelow d' sz := by
  unfold loadImage at h
  rw [bind_eq_ok] at h
  obtain ⟨⟨res, d₁, ph₁⟩, hseg, h⟩ := h
  cases res with
  | none => cases h
  | some sz₁ =>
      obtain ⟨hlt₁, hu₁⟩ := segLoop_userBelow (by decide) hu hseg
      simp only [bind_eq_ok] at h
      obtain ⟨⟨sz₂, d₂, ph₂⟩, halloc, h⟩ := h
      simp only at h
      split at h
      · cases h
      · rename_i hne
        have hup : pgRoundUp sz₁ ≤ kernbase := by
          unfold pgRoundUp u32
          simp only [kernbase] at hlt₁ ⊢
          omega
        obtain ⟨hu₂, hsz₂⟩ := allocuvm_userBelow hup
          (hu₁.mono (le_pgRoundUp (Nat.le_of_lt hlt₁))) halloc hne
        have hadd : u32 (pgRoundUp sz₁ + 8192) = pgRoundUp sz₁ + 8192 := by
          apply u32_of_lt
          simp only [kernbase] at hup
          omega
        have hal : (pgRoundUp sz₁ + 8192) % 4096 = 0 := by
          rw [Nat.add_mod, pgRoundUp_aligned]
        rw [hadd] at halloc hsz₂
        have hsz : sz₂ % 4096 = 0 ∧ sz₂ < kernbase := by
          rcases hsz₂ with ⟨rfl, hn⟩ | heq
          · exact ⟨hal, hn⟩
          · -- two pages more than a size below `KERNBASE` is no smaller
            rcases allocuvm_spec halloc with ⟨_, h0, _⟩ | ⟨_, hless, _⟩ | ⟨hn, _, hgrown⟩
            · exact absurd h0 hne
            · omega
            · cases hgrown with
              | failed _ _ _ => exact absurd rfl hne
              | done _ => exact ⟨hal, hn⟩
        simp only [bind_eq_ok] at h
        obtain ⟨d₃, hclear, ⟨res, ph₃⟩, _, h⟩ := h
        cases res with
        | none => cases h
        | some r =>
            obtain ⟨sp, args⟩ := r
            simp only [bind_eq_ok] at h
            obtain ⟨⟨ok, ph₄⟩, _, h⟩ := h
            simp only at h
            split at h
            · cases h
            · cases h
              exact ⟨hsz.1, hsz.2, clearpteu_userBelow hu₂ hclear⟩

/-- The pages of a range that does not wrap. -/
theorem mem_pagesFrom {n a page : Nat} (ha : a % 4096 = 0) (hn : a + n * 4096 ≤ 4294967296) :
    page ∈ pagesFrom n a ↔ ppn a ≤ page ∧ page < ppn a + n := by
  induction n generalizing a with
  | zero => simp [pagesFrom]
  | succ n ih =>
      rw [pagesFrom, List.mem_cons]
      cases n with
      | zero =>
          simp only [pagesFrom, List.not_mem_nil, or_false]
          omega
      | succ n =>
          have hnext : u32 (a + 4096) = a + 4096 := u32_of_lt (by omega)
          have hppn : ppn (a + 4096) = ppn a + 1 := by
            unfold ppn
            omega
          rw [hnext, ih (by omega) (by omega), hppn]
          omega

/-- The state of a process that has just completed `exec`. -/
structure Fresh (m : Machine) : Prop where
  reset : Reset m
  size : m.sz < kernbase
  user : ∀ page, (m.pgdir.pte page).u → m.pgdir.hasTable page ∧ 4096 * page < m.sz
    ∧ (m.pgdir.pte page).p = false ∧ (m.pgdir.pte page).e

/-- The specification of `exec`: it succeeds and the process is fresh, or it fails
and only physical memory has changed. -/
theorem exec_spec {file : Option (List UInt8)} {argv : List (List UInt8)} {name : Nat}
    {r : Int} {m m' : Machine} (h : exec file argv name m = .ok (r, m')) :
    (r = 0 ∧ Fresh m') ∨ (r = -1 ∧ ∃ ph, m' = { m with phys := ph }) := by
  unfold exec at h
  cases file with
  | none =>
      cases h
      exact .inr ⟨rfl, m.phys, rfl⟩
  | some ip =>
      simp only at h
      split at h
      · cases h
        exact .inr ⟨rfl, m.phys, rfl⟩
      split at h
      · cases h
        exact .inr ⟨rfl, m.phys, rfl⟩
      rw [bind_eq_ok] at h
      obtain ⟨⟨rd, ph⟩, hsetup, h⟩ := h
      cases rd with
      | none =>
          cases h
          exact .inr ⟨rfl, ph, rfl⟩
      | some d =>
          simp only [bind_eq_ok] at h
          obtain ⟨⟨res, d₁, ph₁⟩, himage, h⟩ := h
          cases res with
          | none =>
              simp only [bind_eq_ok] at h
              obtain ⟨ph₂, _, h⟩ := h
              cases h
              exact .inr ⟨rfl, ph₂, rfl⟩
          | some sz =>
              obtain ⟨hal, hlt, hu⟩ :=
                loadImage_userBelow (setupkvm_userBelow hsetup) himage
              simp only [bind_eq_ok] at h
              obtain ⟨ph₂, _, ⟨r₃, m₃⟩, henc, h⟩ := h
              obtain ⟨_, rfl⟩ := mencrypt_spec henc
              cases h
              refine .inl ⟨rfl, ⟨rfl, fun _ _ => rfl⟩, by simpa [Machine.resetQueue] using hlt, ?_⟩
              intro page hup
              simp only [Machine.resetQueue, Machine.encryptAll_pte, Machine.encryptAll_hasTable,
                Machine.encryptAll_sz] at hup ⊢
              -- the call goes over every page below the size
              have hall : 4096 * page < sz →
                  page ∈ mencryptPages 0 ((sz / 4096 : Nat) : Int) := by
                intro hb
                simp only [kernbase] at hlt
                rw [mencryptPages, Int.toNat_natCast, mem_pagesFrom (by decide)]
                · simp only [ppn, pgRoundDown]
                  omega
                · simp only [pgRoundDown]
                  omega
              by_cases hin : page ∈ mencryptPages 0 ((sz / 4096 : Nat) : Int)
              · rw [if_pos hin] at hup ⊢
                have hu' : (d₁.pte page).u := by
                  unfold Pte.encrypted at hup
                  split at hup
                  · exact hup
                  · exact hup
                obtain ⟨ht, hb, hp, he⟩ := hu page hu'
                have hc : (d₁.pte page).clear = true := by
                  simp [Pte.clear, Pte.mapped, hp, he, hu']
                rw [Pte.encrypted, if_pos hc]
                exact ⟨ht, hb, rfl, rfl⟩
              · rw [if_neg hin] at hup
                obtain ⟨_, hb, _⟩ := hu page hup
                exact absurd (hall hb) hin

/-! ## `exec` completes -/

/-- An ELF header and nothing else. -/
def bareElf : List UInt8 := [127, 69, 76, 70] ++ List.replicate 48 0

/-- Nothing is mapped by a directory without page tables, and `freevm` gives back
its frame. -/
theorem freevm_empty {d : PgDir} {ph ph' : Phys} (hd : ∀ i, d.table i = none)
    (hk : kfree d.frame ph = .ok ph') : freevm d ph = .ok ph' := by
  have hloop : ∀ n a, kernbase ≤ a + n * 4194304 → a % 4194304 = 0 → a ≤ kernbase →
      deallocLoop kernbase n a d ph = .ok (d, ph) := by
    intro n
    induction n with
    | zero =>
        intro a h1 _ _
        rw [deallocLoop, if_neg (by omega)]
    | succ n ih =>
        intro a h1 h2 h3
        have hw : walkpgdir d a = none := by
          rw [walkpgdir_eq_none, PgDir.hasTable, hd]
          rfl
        simp only [kernbase] at *
        rw [deallocLoop]
        split
        · have hnext : u32 ((pdx (ppn a) + 1) * 4194304) = a + 4194304 := by
            unfold u32 pdx ppn
            omega
          rw [hw]
          simp only [hnext]
          exact ih _ (by omega) (by omega) (by omega)
        · rfl
  have htables : ∀ is, freeTables d is ph = .ok ph := by
    intro is
    induction is with
    | nil => rfl
    | cons i is ih => rw [freeTables, hd i, ih]
  have hde : deallocuvm kernbase 0 d ph = .ok (0, d, ph) := by
    have := hloop (kernbase / 4096 + 1) (pgRoundUp 0) (by decide) (by decide) (by decide)
    rw [deallocuvm, if_neg (by decide), this]
    rfl
  simp only [freevm, hde, htables, ok_bind, hk]

/-- Sixteen bytes at the end of page 1, which the user may write. -/
theorem copyout_page {d : PgDir} {buf : List UInt8} (hbuf : buf.length = 16)
    (ht : d.hasTable 1) (hm : (d.pte 1).mapped) (hu : (d.pte 1).u) (ph : Phys) :
    ∃ ph', copyout 8176 buf d ph = .ok (true, ph') ∧ ph'.firstFree = ph.firstFree := by
  have hne : buf ≠ [] := by
    intro h
    rw [h] at hbuf
    cases hbuf
  have hka : uva2ka d 4096 = .ok (some (d.pte 1).frame) := by
    have := @uva2ka_eq d 4096 ht
    rw [this, show ppn 4096 = 1 from rfl, hm, hu]
    rfl
  have hend : ∀ k va (buf : List UInt8) ph, buf = [] →
      copyoutLoop d k va buf ph = .ok (true, ph) := by
    intro k va buf ph hnil
    cases k with
    | zero => rw [copyoutLoop, if_pos hnil]
    | succ k => rw [copyoutLoop, if_pos hnil]
  have hmin : min (4096 - (8176 - pgRoundDown 8176)) buf.length = 16 := by
    rw [hbuf]
    rfl
  refine ⟨ph.write (d.pte 1).frame 4080 (buf.take 16), ?_, rfl⟩
  rw [copyout, copyoutLoop, if_neg hne]
  simp only [show pgRoundDown 8176 = 4096 from rfl] at hmin ⊢
  rw [hka, ok_bind]
  simp only [hmin]
  apply hend
  rw [List.drop_eq_nil_iff]
  omega

/-- With five free frames or more the image without segments loads. -/
theorem loadImage_bare {d : PgDir} {ph : Phys} (hun : ∀ page < 2, (d.pte page).mapped = false)
    (hfree : 4 ≤ ph.freelist.length) :
    ∃ d' ph', loadImage bareElf ((readi bareElf 0 52).getD []) [] d ph = .ok (some 8192, d', ph')
      ∧ (∀ page < 2, d'.hasTable page) ∧ (d'.pte 1).toFlags = userFlags
      ∧ ph'.firstFree = ph.firstFree := by
  have hin : ∀ page, Within (pgRoundUp 0) 8192 page ↔ page < 2 := by
    intro page
    rw [Within, show pgRoundUp 0 = 0 from rfl]
    omega
  have hunmapped : ∀ page, Within (pgRoundUp 0) 8192 page → (d.pte page).mapped = false :=
    fun page h => hun page ((hin page).mp h)
  have hneed : framesFor (newPages 0 8192) (ppn (pgRoundUp 0)) d ≤ ph.freelist.length :=
    Nat.le_trans (framesFor_le _ _ _) hfree
  obtain ⟨d₁, ph₁, halloc⟩ := (allocuvm_iff (by decide) (by decide) (by decide) hunmapped).mpr
    hneed
  have hmapped := allocuvm_mapped (by decide) (by decide) halloc (by decide)
  have hff : ph₁.firstFree = ph.firstFree := by
    rcases allocuvm_spec halloc with ⟨h, _⟩ | ⟨_, h, _⟩ | ⟨_, _, hgrown⟩
    · exact absurd h (by decide)
    · exact absurd h (by decide)
    · cases hgrown with
      | done hrun => exact hrun.firstFree
  -- the guard page below the stack
  let d₂ := d₁.set 0 { d₁.pte 0 with u := false }
  have hclear : clearpteu (8192 - 8192) d₁ = .ok d₂ := by
    have hw : walkpgdir d₁ 0 = some ⟨d₁.frame, 0⟩ :=
      walkpgdir_eq_some.mpr ⟨(hmapped 0 ((hin 0).mpr (by decide))).1, rfl⟩
    rw [clearpteu, show 8192 - 8192 = 0 from rfl, hw]
  obtain ⟨ht, hf⟩ := hmapped 1 ((hin 1).mpr (by decide))
  have hpte : d₂.pte 1 = d₁.pte 1 := rfl
  obtain ⟨ph₂, hcopy, hff₂⟩ := @copyout_page d₂
    ([4294967295, 0, toU32 ((8192 : Nat) - (0 + 1) * 4 : Int)] ++ [] ++ [0] |>.flatMap uintBytes)
    rfl ht (by rw [hpte, Pte.mapped, show (d₁.pte 1).p = true from congrArg Flags.p hf]; rfl)
    (congrArg Flags.u hf) ph₁
  refine ⟨d₂, ph₂, ?_, ?_, hf, by rw [hff₂, hff]⟩
  · have hnum : field ((readi bareElf 0 52).getD []) 44 2 = 0 := by decide
    have hround : pgRoundUp 0 = 0 := rfl
    have hsum : u32 (0 + 8192) = 8192 := rfl
    simp only [loadImage, hnum, segLoop, ok_bind, hround, hsum, halloc]
    rw [if_neg (by decide), hclear, ok_bind, argLoop, ok_bind]
    simp only [List.length_nil]
    rw [show toU32 (((8192 : Nat) : Int) - (3 + ((0 : Nat) : Int) + 1) * 4) = 8176 from rfl]
    exact congrArg (· >>= _) hcopy
  · intro page hpage
    exact (hmapped page ((hin page).mpr hpage)).1

/-- A process without page tables, and 126 free frames. -/
structure Blank (m : Machine) : Prop where
  table : ∀ i, m.pgdir.table i = none
  frame : m.phys.firstFree ≤ m.pgdir.frame ∧ m.pgdir.frame < phystop / 4096
  free : 126 ≤ m.phys.freelist.length

/-- Such a process can load the image without segments. -/
theorem exec_ok {m : Machine} (h : Blank m) (name : Nat) :
    ∃ m', exec (some bareElf) [] name m = .ok (0, m') ∧ m'.sz = 8192
      ∧ m'.pgdir.hasTable 1 ∧ (m'.pgdir.pte 1).sealed := by
  have hfree := h.free
  obtain ⟨d, ph, hsetup, hle, hff⟩ := setupkvm_ok (Nat.le_trans (by decide) hfree)
  have hun : ∀ page < 2, (d.pte page).mapped = false := by
    intro page hpage
    rcases setupkvm_pte hsetup page with hz | ⟨hk, _⟩
    · rw [hz]
      rfl
    · change 524288 ≤ page at hk
      omega
  have hfour : 4 ≤ ph.freelist.length := by omega
  obtain ⟨d₁, ph₁, hload, ht, hf, hff₁⟩ := loadImage_bare hun hfour
  obtain ⟨ph₂, hkfree⟩ : ∃ ph₂, kfree m.pgdir.frame ph₁ = .ok ph₂ := by
    rw [kfree, if_neg]
    · exact ⟨_, rfl⟩
    · have := h.frame
      rw [hff₁, hff]
      omega
  have hfreevm := freevm_empty h.table hkfree
  let m₁ : Machine := { m with phys := ph₂, pgdir := d₁, sz := 8192, nameTail := name }
  have hpages : mencryptPages 0 ((8192 / 4096 : Nat) : Int) = [0, 1] := rfl
  have henc : mencrypt 0 ((8192 / 4096 : Nat) : Int) m₁ = .ok (0, m₁.encryptAll [0, 1]) := by
    have hloop : mencryptLoop 2 (pgRoundDown 0) m₁ = .ok (m₁.encryptAll [0, 1]) := by
      rw [mencryptLoop_eq_ok]
      constructor
      · intro page hpage
        apply ht page
        have : page = 0 ∨ page = 1 := by simpa [pagesFrom, ppn, pgRoundDown, u32] using hpage
        omega
      · rfl
    rw [mencrypt_of_pos (by decide)]
    change (mencryptLoop 2 (pgRoundDown 0) m₁ >>= _) = _
    rw [hloop]
    rfl
  refine ⟨(m₁.encryptAll [0, 1]).resetQueue, ?_, ?_, ?_, ?_⟩
  · have hlen : ((readi bareElf 0 52).getD []).length = 52 := by decide
    have hmagic : field ((readi bareElf 0 52).getD []) 0 4 = 1179403647 := by decide
    simp only [exec, hlen, hmagic, ne_eq, not_true_eq_false, if_false, hsetup, ok_bind, hload,
      hfreevm]
    change (mencrypt 0 ((8192 / 4096 : Nat) : Int) m₁ >>= _) = _
    rw [henc]
    rfl
  · simp [Machine.resetQueue, m₁]
  · simpa [Machine.resetQueue, m₁] using ht 1 (by decide)
  · have hclear : (d₁.pte 1).clear = true := by
      have hp : (d₁.pte 1).p = true := congrArg Flags.p hf
      have hu : (d₁.pte 1).u = true := congrArg Flags.u hf
      have he : (d₁.pte 1).e = false := congrArg Flags.e hf
      simp [Pte.clear, Pte.mapped, hp, hu, he]
    have hpte : (m₁.encryptAll [0, 1]).pgdir.pte 1 = (d₁.pte 1).encrypted := by
      rw [Machine.encryptAll_pte, if_pos (by decide)]
    have hu : (d₁.pte 1).u = true := congrArg Flags.u hf
    simp only [Machine.resetQueue, hpte, Pte.encrypted, if_pos hclear, Pte.sealed, hu]
    rfl

/-- The machine before the first `exec` of the examples below. -/
def blank : Machine where
  phys := .zeroed (List.range' 2000 200)
  pgdir := ⟨1024, fun _ => none, fun _ => Pte.zero⟩
  sz := 0
  clockQueue := fun _ => ⟨noVpn, none⟩
  clockIndex := -1
  nameTail := 0

/-- A process can complete `exec`, and has an encrypted page then. -/
theorem execs_bare :
    ∃ m, Execs m ∧ m.sz = 8192 ∧ m.pgdir.hasTable 1 ∧ (m.pgdir.pte 1).sealed := by
  have hblank : Blank blank := ⟨fun _ => rfl, by decide, by simp [blank, Phys.zeroed]⟩
  obtain ⟨m, hm, hrest⟩ := exec_ok hblank 0
  exact ⟨m, ⟨blank, _, _, _, hm⟩, hrest⟩

end CS537.Pager
