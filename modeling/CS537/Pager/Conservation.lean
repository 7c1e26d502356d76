import CS537.Lib.Inventory
import CS537.Lib.Lts
import CS537.Pager.Frames
import Mathlib.Algebra.Order.Group.Multiset

/-!
# Pager — physical pages are conserved

Every physical page is on the free list, or it is a page directory, a page table
or the frame of a user page with `PTE_P` or `PTE_E` set, and only one of these.
Each step on a page directory moves one page from one place to another, so runs
keep the inventory, and the functions of `vm.c` with them.
-/

namespace CS537.Pager

open MachineInt

/-! ## Inventories -/

/-- The frame of a user page, encrypted or not. -/
def PgDir.pageFrame (d : PgDir) (page : Nat) : Option Nat :=
  if d.hasTable page && (d.pte page).mapped then some (d.pte page).frame else none

/-- The frames of the user pages. -/
def PgDir.pages (d : PgDir) : Multiset Nat := Inventory.contents kernPage d.pageFrame

/-- The frames of the page tables. -/
def PgDir.tables (d : PgDir) : Multiset Nat := Inventory.contents npdentries d.table

/-- The physical pages of a page directory. -/
def PgDir.frames (d : PgDir) : Multiset Nat := d.frame ::ₘ (d.tables + d.pages)

/-- The physical pages of a directory that is worked on. -/
def Vm.frames (s : Vm) : Multiset Nat :=
  (s.phys.freelist : Multiset Nat) + s.held + s.dir.frames

/-- The step is about a user page, or a page table of the directory. -/
def VmEvent.InRange : VmEvent → Prop
  | .table page => page < 1048576
  | .map page pte => page < kernPage ∧ pte.mapped
  | .unmap page => page < kernPage
  | _ => True

/-- The step writes the entry of a page. -/
def VmEvent.Writes (page : Nat) : VmEvent → Prop
  | .map q _ => q = page
  | .kmap q _ => q = page
  | .unmap q => q = page
  | _ => False

theorem PgDir.pageFrame_set (d : PgDir) {page q : Nat} (hne : q ≠ page) (pte : Pte) :
    (d.set page pte).pageFrame q = d.pageFrame q := by
  simp only [pageFrame, set_hasTable, PgDir.set_pte, if_neg hne]

/-- A new page table maps nothing. -/
theorem PgDir.pageFrame_newTable {d : PgDir} {page f : Nat} (h : d.hasTable page = false)
    (q : Nat) : (d.newTable page f).pageFrame q = d.pageFrame q := by
  simp only [pageFrame, newTable_hasTable, newTable_pte]
  by_cases hq : pdx q = pdx page
  · rw [if_pos hq, hasTable_congr hq, h]
    simp [Pte.zero, Pte.mapped, Flags.none]
  · simp [hq]

/-- Only a step that writes it changes the entry of a page. -/
theorem VmRun.pageFrame {ok : VmEvent → Prop} {q : Nat} (hq : ∀ e, ok e → ¬ e.Writes q)
    {s t : Vm} (h : VmRun ok s t) : t.dir.pageFrame q = s.dir.pageFrame q := by
  refine h.invariant (I := fun t => t.dir.pageFrame q = s.dir.pageFrame q) ?_ rfl
  intro a e b hok hsame hst
  have hw := hq e hok
  cases hst with
  | table ht _ => exact (PgDir.pageFrame_newTable ht q).trans hsame
  | alloc _ => exact hsame
  | fill _ _ => exact hsame
  | map _ _ _ => exact (PgDir.pageFrame_set _ (fun h => hw h.symm) _).trans hsame
  | kmap _ _ _ _ => exact (PgDir.pageFrame_set _ (fun h => hw h.symm) _).trans hsame
  | unmap _ _ _ => exact (PgDir.pageFrame_set _ (fun h => hw h.symm) _).trans hsame
  | release _ _ => exact hsame

/-! ## One step -/

theorem PgDir.set_tables (d : PgDir) (page : Nat) (pte : Pte) :
    (d.set page pte).tables = d.tables := rfl

/-- A new page table. -/
theorem PgDir.newTable_frames {d : PgDir} {page : Nat} (f : Nat)
    (h : d.hasTable page = false) (hpage : page < 1048576) :
    (d.newTable page f).frames = f ::ₘ d.frames := by
  have hpages : (d.newTable page f).pages = d.pages :=
    Inventory.contents_congr fun q _ => pageFrame_newTable h q
  have htables : (d.newTable page f).tables = f ::ₘ d.tables := by
    apply Inventory.contents_put (i := pdx page)
    · change page / 1024 < 1024
      omega
    · rw [hasTable] at h
      simpa using h
    · simp [newTable]
    · intro j _ hj
      exact Function.update_of_ne hj _ _
  rw [frames, frames, hpages, htables, Multiset.cons_add, Multiset.cons_swap]
  rfl

/-- Mapping a user page. -/
theorem PgDir.map_frames {d : PgDir} {page : Nat} {pte : Pte} (ht : d.hasTable page)
    (hm : (d.pte page).mapped = false) (hpte : pte.mapped) (hpage : page < kernPage) :
    (d.set page pte).frames = pte.frame ::ₘ d.frames := by
  have hpages : (d.set page pte).pages = pte.frame ::ₘ d.pages := by
    apply Inventory.contents_put hpage
    · simp [pageFrame, hm]
    · simp [pageFrame, ht, PgDir.set_pte, hpte]
    · intro q _ hq
      exact pageFrame_set d hq pte
  rw [frames, frames, hpages, set_tables, Multiset.add_cons, Multiset.cons_swap]
  rfl

/-- Taking a user page down. -/
theorem PgDir.unmap_frames {d : PgDir} {page : Nat} (ht : d.hasTable page)
    (hm : (d.pte page).mapped) (hpage : page < kernPage) :
    d.frames = (d.pte page).frame ::ₘ (d.set page Pte.zero).frames := by
  have hpages : d.pages = (d.pte page).frame ::ₘ (d.set page Pte.zero).pages := by
    apply Inventory.contents_put hpage
    · simp [pageFrame, PgDir.set_pte, Pte.zero, Pte.mapped, Flags.none]
    · simp [pageFrame, ht, hm]
    · intro q _ hq
      exact (pageFrame_set d hq _).symm
  rw [frames, hpages, ← set_tables d page Pte.zero, Multiset.add_cons, Multiset.cons_swap]
  rfl

/-- Mapping a page of the kernel takes no frame. -/
theorem PgDir.kmap_frames {d : PgDir} {page : Nat} (pte : Pte) (hpage : kernPage ≤ page) :
    (d.set page pte).frames = d.frames := by
  have hpages : (d.set page pte).pages = d.pages := by
    apply Inventory.contents_congr
    intro q hq
    exact pageFrame_set d (by omega) pte
  rw [frames, frames, hpages]
  rfl

/-- No step loses or doubles a physical page. -/
theorem VmStep.frames {s t : Vm} {e : VmEvent} (h : VmStep s e t) (hin : e.InRange) :
    t.frames = s.frames := by
  cases h with
  | @table d ph held rest f page ht hfree =>
      change (rest : Multiset Nat) + held + (d.newTable page f).frames
        = ph.freelist + held + d.frames
      rw [hfree, PgDir.newTable_frames f ht hin, Multiset.add_cons, ← Multiset.cons_coe,
        Multiset.cons_add, Multiset.cons_add]
  | @alloc d ph held rest f hfree =>
      change (rest : Multiset Nat) + (f :: held : List Nat) + d.frames
        = ph.freelist + held + d.frames
      rw [hfree, ← Multiset.cons_coe, ← Multiset.cons_coe, Multiset.add_cons,
        Multiset.cons_add f (rest : Multiset Nat)]
  | fill _ _ => rfl
  | @map d ph held page pte ht hm hheld =>
      change (ph.freelist : Multiset Nat) + (held.erase pte.frame : List Nat)
        + (d.set page pte).frames = ph.freelist + held + d.frames
      have hcons : (held : Multiset Nat) = pte.frame ::ₘ (held.erase pte.frame : List Nat) :=
        Multiset.coe_eq_coe.mpr (List.perm_cons_erase hheld)
      rw [PgDir.map_frames ht hm hin.2 hin.1, hcons, Multiset.add_cons, Multiset.add_cons,
        Multiset.cons_add]
  | @kmap d ph held page pte _ _ hk _ =>
      change (ph.freelist : Multiset Nat) + held + (d.set page pte).frames
        = ph.freelist + held + d.frames
      rw [PgDir.kmap_frames pte hk]
  | @unmap d ph ph' held page ht hm hfree =>
      change (ph'.freelist : Multiset Nat) + held + (d.set page Pte.zero).frames
        = ph.freelist + held + d.frames
      rw [PgDir.unmap_frames ht hm hin, kfree_freelist hfree, ← Multiset.cons_coe,
        Multiset.cons_add, Multiset.cons_add, Multiset.add_cons]
  | @release d ph ph' held f hheld hfree =>
      change (ph'.freelist : Multiset Nat) + (held.erase f : List Nat) + d.frames
        = ph.freelist + held + d.frames
      have hcons : (held : Multiset Nat) = f ::ₘ (held.erase f : List Nat) :=
        Multiset.coe_eq_coe.mpr (List.perm_cons_erase hheld)
      rw [kfree_freelist hfree, hcons, ← Multiset.cons_coe, Multiset.cons_add,
        Multiset.add_cons]

/-- Nor does a run of steps. -/
theorem VmRun.frames {ok : VmEvent → Prop} (hin : ∀ e, ok e → e.InRange) {s t : Vm}
    (h : VmRun ok s t) : t.frames = s.frames := by
  refine h.invariant (I := fun t => t.frames = s.frames) ?_ rfl
  intro a e b hok hsame hst
  exact (hst.frames (hin e hok)).trans hsame

/-- A run that starts and ends with no page in hand. -/
theorem VmRun.conserves {ok : VmEvent → Prop} (hin : ∀ e, ok e → e.InRange) {d d' : PgDir}
    {ph ph' : Phys} (h : VmRun ok ⟨d, ph, []⟩ ⟨d', ph', []⟩) :
    (ph'.freelist : Multiset Nat) + d'.frames = ph.freelist + d.frames := by
  have := h.frames hin
  simpa [Vm.frames] using this

/-! ## The kinds of steps -/

theorem Within.lt_kernPage {lo hi page : Nat} (h : Within lo hi page) (hhi : hi ≤ kernbase) :
    page < kernPage := by
  have := h.2
  simp only [kernbase] at hhi
  change page < 524288
  omega

theorem KernelSetup.inRange {e : VmEvent} (h : KernelSetup e) : e.InRange := by
  rcases h with ⟨page, rfl, _, hlt⟩ | ⟨page, pte, rfl⟩
  · exact hlt
  · trivial

theorem Unmapping.inRange {lo hi : Nat} (hhi : hi ≤ kernbase) {e : VmEvent}
    (h : Unmapping lo hi e) : e.InRange := by
  obtain ⟨page, rfl, hin⟩ := h
  exact hin.lt_kernPage hhi

theorem Retreating.inRange {lo hi : Nat} (hhi : hi ≤ kernbase) {e : VmEvent}
    (h : Retreating lo hi e) : e.InRange := by
  rcases h with h | ⟨f, rfl⟩
  · exact h.inRange hhi
  · trivial

theorem Within.table {lo hi page : Nat} (h : Within lo hi page) (hhi : hi ≤ kernbase) :
    page < 1048576 :=
  Nat.lt_trans (h.lt_kernPage hhi) (by decide)

theorem Growing.inRange {lo hi : Nat} (hhi : hi ≤ kernbase) {e : VmEvent}
    (h : Growing lo hi e) : e.InRange := by
  cases h with
  | table hin => exact hin.table hhi
  | alloc => trivial
  | fill => trivial
  | @map page pte hin hf =>
      refine ⟨hin.lt_kernPage hhi, ?_⟩
      have hp : pte.p = true := congrArg Flags.p hf
      simp [Pte.mapped, hp]

theorem Copying.inRange {pgdir : PgDir} {lo hi : Nat} (hhi : hi ≤ kernbase) {e : VmEvent}
    (h : Copying pgdir lo hi e) : e.InRange := by
  cases h with
  | table hin => exact hin.table hhi
  | alloc => trivial
  | fill => trivial
  | @map page pte hin hm hf =>
      refine ⟨hin.lt_kernPage hhi, ?_⟩
      have hp : pte.p = (pgdir.pte page).p := congrArg Flags.p hf
      have he : pte.e = (pgdir.pte page).e := congrArg Flags.e hf
      rw [Pte.mapped, hp, he]
      exact hm

/-! ## `freevm` -/

theorem freeTables_frames {d : PgDir} {is : List Nat} {ph ph' : Phys}
    (h : freeTables d is ph = .ok ph') :
    (ph'.freelist : Multiset Nat) = ph.freelist + (is.filterMap d.table : List Nat) := by
  induction is generalizing ph with
  | nil =>
      cases h
      simp
  | cons i is ih =>
      rw [freeTables] at h
      cases hi : d.table i with
      | none =>
          rw [hi] at h
          rw [ih h, List.filterMap_cons_none hi]
      | some f =>
          rw [hi] at h
          simp only [bind_eq_ok] at h
          obtain ⟨ph₁, hk, h⟩ := h
          rw [ih h, kfree_freelist hk, List.filterMap_cons_some hi, ← Multiset.cons_coe,
            ← Multiset.cons_coe, Multiset.cons_add, Multiset.add_cons]

/-- `freevm` gives back every page of the directory once. -/
theorem freevm_frames {d : PgDir} {ph ph' : Phys} (h : freevm d ph = .ok ph') :
    (ph'.freelist : Multiset Nat) = ph.freelist + d.frames := by
  unfold freevm at h
  simp only [bind_eq_ok] at h
  obtain ⟨⟨r, d₁, ph₁⟩, hde, ph₂, htab, hk⟩ := h
  rcases deallocuvm_spec (Nat.le_refl _) [] hde with ⟨hle, _⟩ | ⟨_, _, hrun, hdone⟩
  · exact absurd hle (by decide)
  · have hcons := hrun.conserves fun _ he => he.inRange (Nat.le_refl _)
    have htable : d₁.table = d.table := hrun.table_eq (by simp [Unmapping])
    -- no user page is left
    have hpages : d₁.pages = 0 := by
      apply Inventory.contents_none
      intro page hpage
      have hin : Within (pgRoundUp 0) kernbase page := by
        change page < 524288 at hpage
        rw [Within, show pgRoundUp 0 = 0 from rfl]
        simp only [kernbase]
        omega
      rw [PgDir.pageFrame, if_neg]
      simp only [Bool.and_eq_true, not_and, Bool.not_eq_true]
      exact hdone page hin
    have htables : (List.filterMap d₁.table (List.range npdentries) : Multiset Nat)
        = d₁.tables := rfl
    rw [kfree_freelist hk, ← Multiset.cons_coe, freeTables_frames htab, htables, ← hcons,
      PgDir.frames, hpages, Multiset.add_zero, Multiset.add_cons]

/-- A frame `kfree` accepts. -/
def Phys.Valid (ph : Phys) (f : Nat) : Prop := ph.firstFree ≤ f ∧ f < phystop / 4096

theorem kfree_ok {ph : Phys} {f : Nat} (h : ph.Valid f) : ∃ ph', kfree f ph = .ok ph' := by
  obtain ⟨h1, h2⟩ := h
  rw [kfree, if_neg (by omega)]
  exact ⟨_, rfl⟩

theorem Phys.Valid.of_eq {ph ph' : Phys} {f : Nat} (h : ph.Valid f)
    (heq : ph'.firstFree = ph.firstFree) : ph'.Valid f := by
  rw [Valid, heq]
  exact h

/-- `deallocuvm` returns if the frames it gives back are valid. -/
theorem deallocLoop_ok {oldsz : Nat} (hsz : oldsz ≤ kernbase) {n a : Nat} (ha : a % 4096 = 0)
    (hfuel : oldsz ≤ a + n * 4096) {d : PgDir} {ph : Phys} (hpos : 0 < ph.firstFree)
    (hvalid : ∀ page, Within a oldsz page → ∀ f, d.pageFrame page = some f → ph.Valid f) :
    ∃ d' ph', deallocLoop oldsz n a d ph = .ok (d', ph') ∧ ph'.firstFree = ph.firstFree := by
  induction n generalizing a d ph with
  | zero =>
      rw [deallocLoop, if_neg (by omega)]
      exact ⟨d, ph, rfl, rfl⟩
  | succ n ih =>
      simp only [kernbase] at hsz
      rw [deallocLoop]
      split
      · rename_i hlt
        have hmono : ∀ b, a ≤ b → ∀ page, Within b oldsz page → ∀ f,
            d.pageFrame page = some f → ph.Valid f := by
          intro b hb page hin
          exact hvalid page ⟨Nat.le_trans hb hin.1, hin.2⟩
        cases hw : walkpgdir d a with
        | none =>
            have hnext : u32 ((pdx (ppn a) + 1) * 4194304) = (pdx (ppn a) + 1) * 4194304 := by
              apply u32_of_lt
              unfold pdx ppn
              omega
            have hge : a + 4096 ≤ (pdx (ppn a) + 1) * 4194304 := by
              unfold pdx ppn
              omega
            simp only [hnext]
            exact ih (by omega) (by omega) hpos (hmono _ (by omega))
        | some ptr =>
            obtain ⟨ht, rfl⟩ := walkpgdir_eq_some.mp hw
            have hnext : u32 (a + 4096) = a + 4096 := u32_of_lt (by omega)
            have hpage : 4096 * ppn a = a := by
              unfold ppn
              omega
            simp only [hnext]
            split
            · exact ih (by omega) (by omega) hpos (hmono _ (by omega))
            · rename_i hm
              have hframe : d.pageFrame (ppn a) = some (d.pte (ppn a)).frame := by
                simp only [PgDir.pageFrame, ht, Bool.true_and]
                exact if_pos (by simpa using hm)
              have hv := hvalid (ppn a) ⟨by omega, by omega⟩ _ hframe
              have hne : (d.pte (ppn a)).frame ≠ 0 := by
                have := hv.1
                omega
              obtain ⟨ph₁, hk⟩ := kfree_ok hv
              have hff := kfree_firstFree hk
              simp only [if_neg hne, hk, ok_bind]
              have hvalid₁ : ∀ page, Within (a + 4096) oldsz page → ∀ f,
                  (d.set (ppn a) Pte.zero).pageFrame page = some f → ph₁.Valid f := by
                intro page hin f hf
                rw [PgDir.pageFrame_set d (by obtain ⟨h1, _⟩ := hin; omega)] at hf
                exact (hmono _ (by omega) page hin f hf).of_eq hff
              obtain ⟨d', ph', hok, hff'⟩ := ih (a := a + 4096) (by omega) (by omega)
                (by rw [hff]; exact hpos) hvalid₁
              exact ⟨d', ph', hok, hff'.trans hff⟩
      · exact ⟨d, ph, rfl, rfl⟩

theorem freeTables_ok {d : PgDir} {is : List Nat} {ph : Phys}
    (hvalid : ∀ i ∈ is, ∀ f, d.table i = some f → ph.Valid f) :
    ∃ ph', freeTables d is ph = .ok ph' ∧ ph'.firstFree = ph.firstFree := by
  induction is generalizing ph with
  | nil => exact ⟨ph, rfl, rfl⟩
  | cons i is ih =>
      rw [List.forall_mem_cons] at hvalid
      rw [freeTables]
      cases hi : d.table i with
      | none => exact ih hvalid.2
      | some f =>
          obtain ⟨ph₁, hk⟩ := kfree_ok (hvalid.1 f hi)
          have hff := kfree_firstFree hk
          obtain ⟨ph', hok, hff'⟩ := ih fun j hj g hg => (hvalid.2 j hj g hg).of_eq hff
          refine ⟨ph', ?_, hff'.trans hff⟩
          simp only [hk, ok_bind]
          exact hok

/-- `freevm` returns if the pages of the directory are valid. -/
theorem freevm_ok {d : PgDir} {ph : Phys} (hpos : 0 < ph.firstFree)
    (hvalid : ∀ f ∈ d.frames, ph.Valid f) : ∃ ph', freevm d ph = .ok ph' := by
  have hpages : ∀ page, Within (pgRoundUp 0) kernbase page → ∀ f,
      d.pageFrame page = some f → ph.Valid f := by
    intro page hin f hf
    apply hvalid
    rw [PgDir.frames, Multiset.mem_cons, Multiset.mem_add]
    exact .inr (.inr (Inventory.mem_contents.mpr ⟨page, hin.lt_kernPage (Nat.le_refl _), hf⟩))
  obtain ⟨d₁, ph₁, hloop, hff₁⟩ := deallocLoop_ok (Nat.le_refl kernbase)
    (pgRoundUp_aligned 0) (n := kernbase / 4096 + 1) (by decide) hpos hpages
  obtain ⟨hrun, _⟩ := deallocLoop_run (Nat.le_refl _) (pgRoundUp_aligned 0) [] hloop
  have htable : d₁.table = d.table := hrun.table_eq (by simp [Unmapping])
  have hframe : d₁.frame = d.frame := (hrun.evolved (unmapping_bounded _ _)).frame
  have htables : ∀ i ∈ List.range npdentries, ∀ f, d₁.table i = some f → ph₁.Valid f := by
    intro i hi f hf
    rw [htable] at hf
    refine (hvalid f ?_).of_eq hff₁
    rw [PgDir.frames, Multiset.mem_cons, Multiset.mem_add]
    exact .inr (.inl (Inventory.mem_contents.mpr ⟨i, List.mem_range.mp hi, hf⟩))
  obtain ⟨ph₂, hfree, hff₂⟩ := freeTables_ok htables
  have hdir : ph₂.Valid d₁.frame := by
    rw [hframe]
    refine ((hvalid d.frame ?_).of_eq hff₁).of_eq hff₂
    exact Multiset.mem_cons_self _ _
  obtain ⟨ph₃, hk⟩ := kfree_ok hdir
  refine ⟨ph₃, ?_⟩
  have hde : deallocuvm kernbase 0 d ph = .ok (0, d₁, ph₁) := by
    rw [deallocuvm, if_neg (by decide), hloop]
    rfl
  simp only [freevm, hde, ok_bind, hfree, hk]

/-! ## The other functions -/

theorem emptyDir_frames (f : Nat) : (emptyDir f).frames = {f} := by
  have hpages : (emptyDir f).pages = 0 := Inventory.contents_none fun _ _ => rfl
  have htables : (emptyDir f).tables = 0 := Inventory.contents_none fun _ _ => rfl
  rw [PgDir.frames, hpages, htables]
  rfl

/-- What `setupkvm` takes it uses for the directory, or gives back. -/
theorem setupkvm_frames {ph ph' : Phys} {r : Option PgDir} (h : setupkvm ph = .ok (r, ph')) :
    (ph'.freelist : Multiset Nat) + (r.map PgDir.frames).getD 0 = ph.freelist := by
  rcases setupkvm_run h with ⟨_, rfl, rfl⟩ | ⟨f, rest, d, ph₁, hfree, hrun, hend⟩
  · simp
  · have hcons := hrun.conserves fun _ he => he.inRange
    rw [emptyDir_frames] at hcons
    have hall : (ph₁.freelist : Multiset Nat) + d.frames = ph.freelist := by
      rw [hcons, hfree, Multiset.add_comm, Multiset.singleton_add]
      rfl
    rcases hend with ⟨rfl, rfl⟩ | ⟨rfl, hfreevm⟩
    · simpa using hall
    · rw [freevm_frames hfreevm, hall]
      simp

/-- No user page is mapped at or above a size. -/
def PgDir.Covers (d : PgDir) (sz : Nat) : Prop :=
  ∀ page < kernPage, pgRoundUp sz ≤ 4096 * page → d.pageFrame page = none

theorem deallocuvm_frames {oldsz newsz r : Nat} (hsz : oldsz ≤ kernbase) {d d' : PgDir}
    {ph ph' : Phys} (h : deallocuvm oldsz newsz d ph = .ok (r, d', ph')) :
    (ph'.freelist : Multiset Nat) + d'.frames = ph.freelist + d.frames := by
  rcases deallocuvm_spec hsz [] h with ⟨_, _, rfl, rfl⟩ | ⟨_, _, hrun, _⟩
  · rfl
  · exact hrun.conserves fun _ he => he.inRange hsz

theorem Grown.frames {oldsz newsz lo r : Nat} (hlt : newsz < kernbase) {d d' : PgDir}
    {ph ph' : Phys} (h : Grown oldsz newsz lo d ph r d' ph') :
    (ph'.freelist : Multiset Nat) + d'.frames = ph.freelist + d.frames := by
  have hle := Nat.le_of_lt hlt
  cases h with
  | done hrun => exact hrun.conserves fun _ he => he.inRange hle
  | failed hrun hback _ =>
      have h1 := hrun.frames fun _ he => he.inRange hle
      have h2 := hback.frames fun _ he => he.inRange hle
      simpa [Vm.frames] using h2.trans h1

theorem allocuvm_frames {oldsz newsz r : Nat} {d d' : PgDir} {ph ph' : Phys}
    (h : allocuvm oldsz newsz d ph = .ok (r, d', ph')) :
    (ph'.freelist : Multiset Nat) + d'.frames = ph.freelist + d.frames := by
  rcases allocuvm_spec h with ⟨_, _, rfl, rfl⟩ | ⟨_, _, _, rfl, rfl⟩ | ⟨hlt, _, hgrown⟩
  · rfl
  · rfl
  · exact hgrown.frames hlt

/-- `allocuvm` that fails leaves the user pages as they were. -/
theorem Grown.pageFrame_failed {oldsz newsz : Nat} {d d' : PgDir} {ph ph' : Phys}
    (hcov : d.Covers oldsz) (h : Grown oldsz newsz (pgRoundUp oldsz) d ph 0 d' ph') :
    ∀ page < kernPage, d'.pageFrame page = d.pageFrame page := by
  intro page hpage
  generalize hr : (0 : Nat) = r at h
  cases h with
  | done hrun =>
      subst hr
      apply hrun.pageFrame
      intro e he hw
      cases he with
      | table _ => exact hw
      | alloc => exact hw
      | fill => exact hw
      | map hin _ => exact absurd hin.2 (Nat.not_lt_zero _)
  | @failed _ _ mid hrun hback hdone =>
      by_cases hin : Within (pgRoundUp oldsz) newsz page
      · -- a page in the range was not mapped, and is not any more
        rw [hcov page hpage hin.1, PgDir.pageFrame, if_neg]
        simp only [Bool.and_eq_true, not_and, Bool.not_eq_true]
        exact hdone page hin
      · have h1 : mid.dir.pageFrame page = d.pageFrame page := by
          apply hrun.pageFrame
          intro e he hw
          cases he with
          | table _ => exact hw
          | alloc => exact hw
          | fill => exact hw
          | @map q _ hq _ =>
              have heq : q = page := hw
              exact hin (heq ▸ hq)
        have h2 : d'.pageFrame page = mid.dir.pageFrame page := by
          apply hback.pageFrame
          intro e he hw
          rcases he with ⟨q, rfl, hq⟩ | ⟨_, rfl⟩
          · have heq : q = page := hw
            exact hin (heq ▸ hq)
          · exact hw
        rw [h2, h1]

theorem Grown.frame {oldsz newsz lo r : Nat} {d d' : PgDir} {ph ph' : Phys}
    (h : Grown oldsz newsz lo d ph r d' ph') : d'.frame = d.frame := by
  cases h with
  | done hrun => exact (hrun.evolved (growing_bounded _ _)).frame
  | failed hrun hback _ =>
      exact (hback.evolved (retreating_bounded _ _)).frame.trans
        (hrun.evolved (growing_bounded _ _)).frame

/-- `allocuvm` that fails gives back what it took for user pages; the page tables
it took stay. -/
theorem allocuvm_failed {oldsz newsz : Nat} {d d' : PgDir} {ph ph' : Phys}
    (hcov : d.Covers oldsz) (h : allocuvm oldsz newsz d ph = .ok (0, d', ph')) :
    d'.pages = d.pages
      ∧ (ph'.freelist : Multiset Nat) + d'.tables = ph.freelist + d.tables := by
  obtain ⟨hpages, hframe⟩ : d'.pages = d.pages ∧ d'.frame = d.frame := by
    rcases allocuvm_spec h with ⟨_, _, rfl, rfl⟩ | ⟨_, _, _, rfl, rfl⟩ | ⟨hlt, hle, hgrown⟩
    · exact ⟨rfl, rfl⟩
    · exact ⟨rfl, rfl⟩
    · exact ⟨Inventory.contents_congr (hgrown.pageFrame_failed hcov), hgrown.frame⟩
  refine ⟨hpages, ?_⟩
  have hcons := allocuvm_frames h
  rw [PgDir.frames, PgDir.frames, hpages, hframe, Multiset.add_cons, Multiset.add_cons,
    Multiset.cons_inj_right, ← Multiset.add_assoc, ← Multiset.add_assoc] at hcons
  exact Multiset.add_left_inj.mp hcons

/-- What `copyuvm` takes it uses for the copy, or gives back. -/
theorem copyuvm_frames {pgdir : PgDir} {sz : Nat} (hsz : sz ≤ kernbase) {ph ph' : Phys}
    {r : Option PgDir} (h : copyuvm pgdir sz ph = .ok (r, ph')) :
    (ph'.freelist : Multiset Nat) + (r.map PgDir.frames).getD 0 = ph.freelist := by
  rcases copyuvm_spec hsz h with ⟨ph₀, hsetup, rfl, rfl⟩
    | ⟨d₀, ph₀, d, ph₁, b, hsetup, hcop, hend⟩
  · exact setupkvm_frames hsetup
  · have hstart : (ph₀.freelist : Multiset Nat) + d₀.frames = ph.freelist := by
      simpa using setupkvm_frames hsetup
    have hcons := hcop.run.1.conserves (by
      intro e he
      rcases he with he | ⟨f, rfl⟩
      · exact he.inRange hsz
      · trivial)
    have hall : (ph₁.freelist : Multiset Nat) + d.frames = ph.freelist := hcons.trans hstart
    rcases hend with ⟨_, rfl, rfl⟩ | ⟨_, rfl, hfreevm⟩
    · simpa using hall
    · rw [freevm_frames hfreevm, hall]
      simp

/-! ## Any sequence of calls -/

/-- Physical memory, and the page directories in use. -/
structure Pool where
  phys : Phys
  dirs : List PgDir

/-- All the physical pages. -/
def Pool.frames (s : Pool) : Multiset Nat :=
  (s.phys.freelist : Multiset Nat) + (s.dirs.map PgDir.frames).sum

inductive Call where
  | setupkvm
  | allocuvm (oldsz newsz : Nat)
  | deallocuvm (oldsz newsz : Nat)
  | copyuvm (sz : Nat)
  | freevm
  /-- Bytes and flags change, but no page is mapped or taken down. -/
  | other

/-- The entries of `d'` map what those of `d` do. -/
structure Remarked (d d' : PgDir) : Prop where
  frame : d'.frame = d.frame
  table : d'.table = d.table
  page : ∀ page < kernPage, d'.pageFrame page = d.pageFrame page

/-- One call that returns, on one of the directories. -/
inductive PoolStep : Pool → Call → Pool → Prop
  | setupkvm {ph ph' : Phys} {ds : List PgDir} {r : Option PgDir} :
      setupkvm ph = .ok (r, ph') → PoolStep ⟨ph, ds⟩ .setupkvm ⟨ph', r.toList ++ ds⟩
  | allocuvm {ph ph' : Phys} {ds ds' : List PgDir} {d d' : PgDir} {oldsz newsz r : Nat} :
      allocuvm oldsz newsz d ph = .ok (r, d', ph') →
      PoolStep ⟨ph, ds ++ d :: ds'⟩ (.allocuvm oldsz newsz) ⟨ph', ds ++ d' :: ds'⟩
  | deallocuvm {ph ph' : Phys} {ds ds' : List PgDir} {d d' : PgDir} {oldsz newsz r : Nat} :
      oldsz ≤ kernbase → deallocuvm oldsz newsz d ph = .ok (r, d', ph') →
      PoolStep ⟨ph, ds ++ d :: ds'⟩ (.deallocuvm oldsz newsz) ⟨ph', ds ++ d' :: ds'⟩
  | copyuvm {ph ph' : Phys} {ds ds' : List PgDir} {d : PgDir} {sz : Nat}
      {r : Option PgDir} :
      sz ≤ kernbase → copyuvm d sz ph = .ok (r, ph') →
      PoolStep ⟨ph, ds ++ d :: ds'⟩ (.copyuvm sz) ⟨ph', r.toList ++ (ds ++ d :: ds')⟩
  | freevm {ph ph' : Phys} {ds ds' : List PgDir} {d : PgDir} :
      freevm d ph = .ok ph' → PoolStep ⟨ph, ds ++ d :: ds'⟩ .freevm ⟨ph', ds ++ ds'⟩
  | other {ph ph' : Phys} {ds ds' : List PgDir} {d d' : PgDir} :
      ph'.freelist = ph.freelist → ph'.firstFree = ph.firstFree → Remarked d d' →
      PoolStep ⟨ph, ds ++ d :: ds'⟩ .other ⟨ph', ds ++ d' :: ds'⟩

theorem freevm_firstFree {d : PgDir} {ph ph' : Phys} (h : freevm d ph = .ok ph') :
    ph'.firstFree = ph.firstFree := by
  have htables : ∀ (is : List Nat) (ph ph' : Phys) (d : PgDir),
      freeTables d is ph = .ok ph' → ph'.firstFree = ph.firstFree := by
    intro is
    induction is with
    | nil =>
        intro ph ph' d h
        cases h
        rfl
    | cons i is ih =>
        intro ph ph' d h
        rw [freeTables] at h
        cases hi : d.table i with
        | none =>
            rw [hi] at h
            exact ih ph ph' d h
        | some f =>
            rw [hi] at h
            simp only [bind_eq_ok] at h
            obtain ⟨ph₁, hk, h⟩ := h
            rw [ih ph₁ ph' d h, kfree_firstFree hk]
  unfold freevm at h
  simp only [bind_eq_ok] at h
  obtain ⟨⟨r, d₁, ph₁⟩, hde, ph₂, htab, hk⟩ := h
  rcases deallocuvm_spec (Nat.le_refl _) [] hde with ⟨hle, _⟩ | ⟨_, _, hrun, _⟩
  · exact absurd hle (by decide)
  · rw [kfree_firstFree hk, htables _ _ _ _ htab]
    exact hrun.firstFree

theorem setupkvm_firstFree {ph ph' : Phys} {r : Option PgDir}
    (h : setupkvm ph = .ok (r, ph')) : ph'.firstFree = ph.firstFree := by
  rcases setupkvm_run h with ⟨_, _, rfl⟩ | ⟨f, rest, d, ph₁, _, hrun, hend⟩
  · rfl
  · have hff : ph₁.firstFree = ph.firstFree := hrun.firstFree
    rcases hend with ⟨_, rfl⟩ | ⟨_, hfreevm⟩
    · exact hff
    · rw [freevm_firstFree hfreevm, hff]

theorem PoolStep.firstFree {s t : Pool} {c : Call} (h : PoolStep s c t) :
    t.phys.firstFree = s.phys.firstFree := by
  cases h with
  | setupkvm hok => exact setupkvm_firstFree hok
  | allocuvm hok =>
      rcases allocuvm_spec hok with ⟨_, _, _, rfl⟩ | ⟨_, _, _, _, rfl⟩ | ⟨_, _, hgrown⟩
      · rfl
      · rfl
      · cases hgrown with
        | done hrun => exact hrun.firstFree
        | failed hrun hback _ => exact hback.firstFree.trans hrun.firstFree
  | deallocuvm hsz hok =>
      rcases deallocuvm_spec hsz [] hok with ⟨_, _, _, rfl⟩ | ⟨_, _, hrun, _⟩
      · rfl
      · exact hrun.firstFree
  | copyuvm hsz hok =>
      rcases copyuvm_spec hsz hok with ⟨ph₀, hsetup, _, rfl⟩
        | ⟨d₀, ph₀, d₁, ph₁, b, hsetup, hcop, hend⟩
      · exact setupkvm_firstFree hsetup
      · have hff : ph₁.firstFree = ph₀.firstFree := hcop.run.1.firstFree
        rcases hend with ⟨_, _, rfl⟩ | ⟨_, _, hfreevm⟩
        · exact hff.trans (setupkvm_firstFree hsetup)
        · exact (freevm_firstFree hfreevm).trans (hff.trans (setupkvm_firstFree hsetup))
  | freevm hok => exact freevm_firstFree hok
  | other _ hff _ => exact hff

/-- The inventory of all the physical pages, one directory apart. -/
theorem Pool.frames_split (ph : Phys) (ds ds' : List PgDir) (d : PgDir) :
    Pool.frames ⟨ph, ds ++ d :: ds'⟩
      = (ph.freelist : Multiset Nat) + d.frames + ((ds ++ ds').map PgDir.frames).sum := by
  simp only [Pool.frames, List.map_append, List.map_cons, List.sum_append, List.sum_cons]
  ac_rfl

theorem Pool.frames_cons (ph : Phys) (ds : List PgDir) (r : Option PgDir) :
    Pool.frames ⟨ph, r.toList ++ ds⟩
      = (ph.freelist : Multiset Nat) + (r.map PgDir.frames).getD 0
        + (ds.map PgDir.frames).sum := by
  cases r with
  | none => simp [Pool.frames]
  | some d => simp [Pool.frames, Multiset.add_assoc]

/-- A call that returns conserves the physical pages. -/
theorem PoolStep.frames {s t : Pool} {c : Call} (h : PoolStep s c t) : t.frames = s.frames := by
  cases h with
  | setupkvm hok => rw [Pool.frames_cons, setupkvm_frames hok, Pool.frames]
  | allocuvm hok => rw [Pool.frames_split, Pool.frames_split, allocuvm_frames hok]
  | deallocuvm hsz hok =>
      rw [Pool.frames_split, Pool.frames_split, deallocuvm_frames hsz hok]
  | copyuvm hsz hok => rw [Pool.frames_cons, copyuvm_frames hsz hok, Pool.frames]
  | freevm hok => rw [Pool.frames_split, ← freevm_frames hok, Pool.frames]
  | @other ph ph' ds ds' d d' hfree _ hre =>
      have hpages : d'.pages = d.pages := Inventory.contents_congr hre.page
      have htables : d'.tables = d.tables := by rw [PgDir.tables, hre.table, PgDir.tables]
      have hframes : d'.frames = d.frames := by
        rw [PgDir.frames, hpages, htables, hre.frame, PgDir.frames]
      rw [Pool.frames_split, Pool.frames_split, hframes, hfree]

/-- The pages handed to the allocator at boot: each once, and all of them ones
`kfree` accepts. -/
structure Phys.Boot (ph : Phys) : Prop where
  nodup : ph.freelist.Nodup
  valid : ∀ f ∈ ph.freelist, ph.Valid f
  pos : 0 < ph.firstFree

/-- After any sequence of calls every physical page is in exactly one place. A
call of `allocuvm` or `copyuvm` that fails gives back what it took for user data,
and `freevm` returns, and gives back every page of its directory once. -/
theorem pages_conserved {ph₀ : Phys} {cs : List Call} {s : Pool} (h₀ : ph₀.Boot)
    (hrun : Lts.Run PoolStep ⟨ph₀, []⟩ cs s) :
    s.frames = ph₀.freelist ∧ s.frames.Nodup
      ∧ (∀ d ∈ s.dirs, ∀ oldsz newsz d' ph', d.Covers oldsz →
          allocuvm oldsz newsz d s.phys = .ok (0, d', ph') →
          d'.pages = d.pages
            ∧ (ph'.freelist : Multiset Nat) + d'.tables = s.phys.freelist + d.tables)
      ∧ (∀ d ∈ s.dirs, ∀ sz ph', sz ≤ kernbase → copyuvm d sz s.phys = .ok (none, ph') →
          (ph'.freelist : Multiset Nat) = s.phys.freelist)
      ∧ ∀ d ∈ s.dirs, ∃ ph', freevm d s.phys = .ok ph'
          ∧ (ph'.freelist : Multiset Nat) = s.phys.freelist + d.frames := by
  obtain ⟨hframes, hff⟩ : s.frames = ph₀.freelist ∧ s.phys.firstFree = ph₀.firstFree := by
    refine hrun.invariant (I := fun s => s.frames = (ph₀.freelist : Multiset Nat)
      ∧ s.phys.firstFree = ph₀.firstFree) ?_ ⟨by simp [Pool.frames], rfl⟩
    intro s c t ⟨h1, h2⟩ hs
    exact ⟨hs.frames.trans h1, hs.firstFree.trans h2⟩
  refine ⟨hframes, ?_, ?_, ?_, ?_⟩
  · rw [hframes]
    exact Multiset.coe_nodup.mpr h₀.nodup
  · intro d _ oldsz newsz d' ph' hcov hok
    exact allocuvm_failed hcov hok
  · intro d _ sz ph' hsz hok
    simpa using copyuvm_frames hsz hok
  · intro d hd
    have hvalid : ∀ f ∈ d.frames, s.phys.Valid f := by
      intro f hf
      refine (h₀.valid f ?_).of_eq hff
      rw [← Multiset.mem_coe, ← hframes]
      obtain ⟨ds, ds', hds⟩ := List.append_of_mem hd
      obtain ⟨ph, dirs⟩ := s
      subst hds
      rw [Pool.frames_split, Multiset.mem_add, Multiset.mem_add]
      exact .inl (.inr hf)
    have hpos : 0 < s.phys.firstFree := by
      rw [hff]
      exact h₀.pos
    obtain ⟨ph', hok⟩ := freevm_ok hpos hvalid
    exact ⟨ph', hok, freevm_frames hok⟩

theorem pages_conserved_setupkvm :
    ∃ s : Pool, s.dirs ≠ [] ∧ s.frames = (List.range' 2000 200 : List Nat) := by
  let ph₀ : Phys := .zeroed (List.range' 2000 200)
  have h₀ : ph₀.Boot := by
    refine ⟨List.nodup_range', ?_, by decide⟩
    intro f hf
    obtain ⟨i, hi, rfl⟩ := List.mem_range'.mp hf
    change 1024 ≤ 2000 + 1 * i ∧ 2000 + 1 * i < 234881024 / 4096
    omega
  obtain ⟨d, ph, hok, _⟩ := @setupkvm_ok ph₀ (by simp [ph₀, Phys.zeroed])
  have hrun : Lts.Run PoolStep ⟨ph₀, []⟩ [.setupkvm] ⟨ph, [d]⟩ :=
    Lts.Run.single (.setupkvm hok)
  exact ⟨⟨ph, [d]⟩, List.cons_ne_nil _ _, (pages_conserved h₀ hrun).1⟩

end CS537.Pager
