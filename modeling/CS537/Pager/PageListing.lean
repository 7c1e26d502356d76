import CS537.Pager.Heap
import CS537.Pager.NullTable

/-!
# Pager — the listing of the pages

`getpgtable` starts from the page of `sz` and goes down `sz / PGSIZE` pages. So it
comes by pages `sz / PGSIZE` to 1: never by page 0, and by a page that is not below
`sz` if that is a multiple of `PGSIZE`. Which pages it reports of those it takes from
their entries alone, and how many it may store is checked by `argptr` on a length
that wraps around.
-/

namespace CS537.Pager

open MachineInt

variable {m m' : Machine} {Q : List Nat}

/-! ## What the loop comes by -/

/-- The pages the loop of `getpgtable` goes over, in this order. -/
def Machine.walked (m : Machine) : List Nat := (List.range' 1 (m.sz / 4096)).reverse

/-- What `getpgtable` reports of some pages. -/
def PgDir.listing (d : PgDir) (wsetOnly : Int) (pages : List Nat) : List PtEntry :=
  (pages.filter fun page => (d.pte page).reported wsetOnly).map fun page =>
    ptEntry page (d.pte page)

theorem PgDir.listing_cons (d : PgDir) (wsetOnly : Int) (page : Nat) (pages : List Nat) :
    d.listing wsetOnly (page :: pages) =
      (if (d.pte page).reported wsetOnly then [ptEntry page (d.pte page)] else []) ++
        d.listing wsetOnly pages := by
  unfold listing
  rw [List.filter_cons]
  split <;> rfl

theorem range'_reverse_succ (left : Nat) :
    (List.range' 1 (left + 1)).reverse = (left + 1) :: (List.range' 1 left).reverse := by
  rw [List.range'_concat, List.reverse_append, Nat.one_mul, Nat.add_comm 1 left]
  rfl

theorem Machine.mem_walked {page : Nat} :
    page ∈ m.walked ↔ 1 ≤ page ∧ page ≤ m.sz / 4096 := by
  rw [walked, List.mem_reverse, List.mem_range'_1]
  omega

theorem Machine.walked_nodup (m : Machine) : m.walked.Nodup :=
  List.nodup_reverse.mpr List.nodup_range'

/-- One step of the loop, over a page that has a table. -/
theorem pgtableLoop_page {d : PgDir} {num wsetOnly : Int} {left : Nat}
    (hlt : left < kernPage) (ht : d.hasTable (left + 1)) (entries : List PtEntry) :
    pgtableLoop d num wsetOnly (left + 1) (4096 * (left + 1)) entries =
      if (entries.length : Int) < num then
        pgtableLoop d num wsetOnly left (4096 * left)
          (entries ++ d.listing wsetOnly [left + 1])
      else .ok entries := by
  have hpage : ppn (4096 * (left + 1)) = left + 1 := CS537.Pager.ppn_mul _
  have hwalk : walkpgdir d (4096 * (left + 1)) = some ⟨d.frame, left + 1⟩ := by
    rw [walkpgdir_eq_some, hpage]
    exact ⟨ht, rfl⟩
  have hnext : u32 (4096 * (left + 1) + 4294963200) = 4096 * left := by
    unfold u32
    simp only [kernPage] at hlt
    omega
  rw [pgtableLoop, hwalk, PgDir.listing_cons]
  simp only [hnext]
  split
  · split <;> simp [PgDir.listing]
  · rfl

/-- The loop stores what it comes by, up to `num` entries. -/
theorem pgtableLoop_listing {d : PgDir} {num wsetOnly : Int} {left : Nat}
    (hlt : left ≤ kernPage) (ht : ∀ page, 1 ≤ page → page ≤ left → d.hasTable page)
    (entries : List PtEntry) :
    pgtableLoop d num wsetOnly left (4096 * left) entries =
      .ok (entries ++ (d.listing wsetOnly (List.range' 1 left).reverse).take
        (num.toNat - entries.length)) := by
  induction left generalizing entries with
  | zero =>
      rw [pgtableLoop]
      simp [PgDir.listing]
  | succ left ih =>
      have ih' := ih (by omega) (fun page h1 h2 => ht page h1 (by omega))
      rw [pgtableLoop_page (by omega) (ht _ (by omega) (Nat.le_refl _)), range'_reverse_succ]
      by_cases hnum : (entries.length : Int) < num
      · rw [if_pos hnum, ih', PgDir.listing_cons, PgDir.listing_cons]
        split
        · -- the page fills one of the entries that are left
          have hsucc : num.toNat - entries.length =
              num.toNat - (entries.length + 1) + 1 := by omega
          simp [PgDir.listing, hsucc]
        · simp [PgDir.listing]
      · have hzero : num.toNat - entries.length = 0 := by omega
        rw [if_neg hnum, hzero]
        simp

/-- `getpgtable` where each page it goes over has a page table. -/
theorem getpgtable_listing {ptr : Nat} {num wsetOnly : Int} (hsz : m.sz ≤ kernbase)
    (hptr : ptr ≠ 0) (hw : wsetOnly = 0 ∨ wsetOnly = 1)
    (ht : ∀ page ∈ m.walked, m.pgdir.hasTable page) :
    getpgtable ptr num wsetOnly m =
      .ok (((m.pgdir.listing wsetOnly m.walked).take num.toNat).length,
        (m.pgdir.listing wsetOnly m.walked).take num.toNat) := by
  have hround : pgRoundDown m.sz = 4096 * (m.sz / 4096) := pgRoundDown_ppn _
  have hloop := @pgtableLoop_listing m.pgdir num wsetOnly (m.sz / 4096)
    (by simp only [kernbase] at hsz; simp only [kernPage]; omega)
    (fun page h1 h2 => ht page (Machine.mem_walked.mpr ⟨h1, h2⟩)) []
  rw [getpgtable, if_neg (by omega), hround, hloop]
  rfl

/-! ## Every page -/

/-- The number of pages that lie below `sz`, be it in part. -/
def Machine.pageCount (m : Machine) : Nat := (m.sz + 4095) / 4096

/-- The pages below `sz` with `PTE_P` or `PTE_E`, from the top down. -/
def Machine.validPages (m : Machine) : List Nat :=
  (List.range m.pageCount).reverse.filter fun page => (m.pgdir.pte page).mapped

/-- Every page below `sz` is mapped. -/
def Machine.AllMapped (m : Machine) : Prop :=
  ∀ page, 4096 * page < m.sz → m.pgdir.hasTable page ∧ (m.pgdir.pte page).mapped

/-- The call returns the number of valid pages, `num` at most, and fills in the
entries of the topmost ones. -/
def ListsTopPages (m : Machine) (ptr : Nat) (num : Int) : Prop :=
  getpgtable ptr num 0 m = .ok ((min num.toNat m.validPages.length : Nat),
    (m.validPages.take num.toNat).map fun page => ptEntry page (m.pgdir.pte page))

theorem Pte.reported_all (pte : Pte) : pte.reported 0 = pte.mapped := by
  rw [reported, if_pos rfl, mapped, Bool.or_comm]

/-- The page an entry is about. -/
def PtEntry.page (e : PtEntry) : Nat := e.pdx * 1024 + e.ptx

theorem ptEntry_page (page : Nat) (pte : Pte) : (ptEntry page pte).page = page := by
  change page / 1024 * 1024 + page % 1024 = page
  omega

theorem Machine.lt_pageCount {page : Nat} : page < m.pageCount ↔ 4096 * page < m.sz := by
  rw [pageCount]
  omega

theorem Machine.AllMapped.validPages (h : m.AllMapped) :
    m.validPages = (List.range m.pageCount).reverse := by
  apply List.filter_eq_self.mpr
  intro page hpage
  rw [List.mem_reverse, List.mem_range, Machine.lt_pageCount] at hpage
  exact (h page hpage).2

/-- The entries of mapped pages. -/
theorem PgDir.listing_mapped {d : PgDir} {pages : List Nat}
    (h : ∀ page ∈ pages, (d.pte page).mapped) :
    d.listing 0 pages = pages.map fun page => ptEntry page (d.pte page) := by
  rw [listing, List.filter_eq_self.mpr]
  intro page hpage
  rw [Pte.reported_all]
  exact h page hpage

/-- Below page `top` the loop comes by all pages but page 0. -/
theorem Machine.AllMapped.listing (h : m.AllMapped) {top : Nat}
    (htop : top + 1 = m.pageCount) (num : Nat) :
    ((m.pgdir.listing 0 (List.range' 1 top).reverse).take num =
        (m.validPages.take num).map fun page => ptEntry page (m.pgdir.pte page))
      ↔ num < m.pageCount := by
  have hsplit : (List.range (top + 1)).reverse = (List.range' 1 top).reverse ++ [0] := by
    rw [List.range_succ_eq_map, List.reverse_cons, List.range'_eq_map_range]
    simp [Nat.add_comm]
  have hmapped : ∀ page ∈ (List.range' 1 top).reverse, (m.pgdir.pte page).mapped := by
    intro page hpage
    rw [List.mem_reverse, List.mem_range'_1] at hpage
    exact (h page (Machine.lt_pageCount.mp (by omega))).2
  rw [PgDir.listing_mapped hmapped, h.validPages, ← htop, hsplit, List.map_take]
  constructor
  · intro heq
    have hlen := congrArg List.length heq
    simp only [List.length_take, List.length_map, List.length_append, List.length_reverse,
      List.length_range', List.length_singleton] at hlen
    omega
  · intro hlt
    rw [← List.map_take, ← List.map_take, List.take_append_of_le_length]
    simp only [List.length_reverse, List.length_range']
    omega

/-- Nothing is asked for. -/
theorem getpgtable_none {ptr : Nat} {num wsetOnly : Int} (hptr : ptr ≠ 0)
    (hw : wsetOnly = 0 ∨ wsetOnly = 1) (hnum : num ≤ 0) :
    getpgtable ptr num wsetOnly m = .ok (0, []) := by
  have hloop : pgtableLoop m.pgdir num wsetOnly (m.sz / 4096) (pgRoundDown m.sz) [] =
      .ok [] := by
    cases m.sz / 4096 with
    | zero => rfl
    | succ left => rw [pgtableLoop, if_neg (by simpa using hnum)]
  rw [getpgtable, if_neg (by omega), hloop]
  rfl

theorem listsTopPages_iff {ptr : Nat} {num : Int}
    (hsz : m.sz ≤ kernbase) (hptr : ptr ≠ 0)
    (ht : ∀ page ∈ m.walked, m.pgdir.hasTable page) :
    ListsTopPages m ptr num ↔
      (m.pgdir.listing 0 m.walked).take num.toNat =
        (m.validPages.take num.toNat).map fun page => ptEntry page (m.pgdir.pte page) := by
  rw [ListsTopPages, getpgtable_listing hsz hptr (.inl rfl) ht]
  constructor
  · intro heq
    exact congrArg Prod.snd (Except.ok.inj heq)
  · intro heq
    rw [heq, List.length_map, List.length_take]

/-- A process with two pages in the clear, the upper one in use up to address 6000. -/
def twoPages : Machine :=
  { heapPage with
    sz := 6000
    pgdir := { heapPage.pgdir with
      pte := fun page => if page < 2 then ⟨userFlags, 1026 + page⟩ else Pte.zero } }

theorem allMapped_twoPages : twoPages.AllMapped := by
  intro page hpage
  change 4096 * page < 6000 at hpage
  have hlt : page = 0 ∨ page = 1 := by omega
  rcases hlt with rfl | rfl
  · exact ⟨rfl, rfl⟩
  · exact ⟨rfl, rfl⟩

/-- The call reports each page below `sz` that a slot names, once, and no other. -/
def ReportsWorkingSet (m : Machine) (ptr : Nat) (num : Int) : Prop :=
  ∃ entries, getpgtable ptr num 1 m = .ok (entries.length, entries) ∧
    ∀ page, 4096 * page < m.sz →
      (m.Named page → (entries.map PtEntry.page).count page = 1) ∧
        (¬ m.Named page → (entries.map PtEntry.page).count page = 0)

theorem Pte.reported_wset (pte : Pte) : pte.reported 1 ↔ pte.p ∧ pte.e = false := by
  rw [reported, if_neg (by decide), Bool.and_eq_true, Bool.not_eq_true', and_comm]

/-- The pages of a listing. -/
theorem PgDir.listing_pages (d : PgDir) (wsetOnly : Int) (pages : List Nat) :
    (d.listing wsetOnly pages).map PtEntry.page =
      pages.filter fun page => (d.pte page).reported wsetOnly := by
  rw [listing, List.map_map]
  exact (List.map_congr_left fun page _ => ptEntry_page page _).trans (List.map_id _)

/-- With room for all pages, what is reported are the pages from 1 on that are present
and not encrypted. -/
theorem reportsWorkingSet_iff {ptr : Nat} {num : Int} (hsz : m.sz ≤ kernbase)
    (hnum : (m.pageCount : Int) ≤ num) :
    ReportsWorkingSet m ptr num ↔ ptr ≠ 0 ∧ (∀ page ∈ m.walked, m.pgdir.hasTable page) ∧
      ∀ page, 4096 * page < m.sz →
        (m.Named page ↔ 1 ≤ page ∧ (m.pgdir.pte page).p ∧ (m.pgdir.pte page).e = false) := by
  have hcount : m.sz / 4096 ≤ m.pageCount := by
    rw [Machine.pageCount]
    omega
  by_cases hptr : ptr = 0
  · apply iff_of_false _ (fun hc => hc.1 hptr)
    rintro ⟨entries, heq, -⟩
    rw [getpgtable, if_pos (.inl hptr)] at heq
    have hneg := congrArg Prod.fst (Except.ok.inj heq)
    simp only at hneg
    omega
  rw [and_iff_right hptr]
  by_cases ht : ∀ page ∈ m.walked, m.pgdir.hasTable page
  · have hall : (m.pgdir.listing 1 m.walked).length ≤ num.toNat := by
      have hle : (m.pgdir.listing 1 m.walked).length ≤ m.walked.length := by
        rw [PgDir.listing, List.length_map]
        exact List.length_filter_le _ _
      rw [Machine.walked, List.length_reverse, List.length_range'] at hle
      rw [Machine.walked]
      omega
    have hcall := @getpgtable_listing _ _ num _ hsz hptr (.inr rfl) ht
    rw [List.take_of_length_le hall] at hcall
    have hnd : (m.walked.filter fun page => (m.pgdir.pte page).reported 1).Nodup :=
      m.walked_nodup.filter _
    have hmem : ∀ page, 4096 * page < m.sz →
        (page ∈ m.walked.filter (fun page => (m.pgdir.pte page).reported 1) ↔
          1 ≤ page ∧ (m.pgdir.pte page).p ∧ (m.pgdir.pte page).e = false) := by
      intro page hpage
      rw [List.mem_filter, Pte.reported_wset, Machine.mem_walked,
        and_iff_left (show page ≤ m.sz / 4096 by omega)]
    rw [and_iff_right ht]
    constructor
    · rintro ⟨entries, heq, hpages⟩ page hpage
      rw [hcall] at heq
      obtain rfl : m.pgdir.listing 1 m.walked = entries :=
        congrArg Prod.snd (Except.ok.inj heq)
      obtain ⟨hone, hzero⟩ := hpages page hpage
      rw [PgDir.listing_pages] at hone hzero
      rw [← hmem page hpage]
      constructor
      · intro hn
        exact List.count_pos_iff.mp (by rw [hone hn]; exact Nat.one_pos)
      · intro hin
        by_contra hn
        have := List.count_pos_iff.mpr hin
        rw [hzero hn] at this
        omega
    · intro hpages
      refine ⟨_, hcall, fun page hpage => ?_⟩
      rw [PgDir.listing_pages, hpages page hpage, ← hmem page hpage]
      exact ⟨fun hin => List.count_eq_one_of_mem hnd hin, fun hn => List.count_eq_zero.mpr hn⟩
  · -- a missing page table is come by
    apply iff_of_false _ (fun hc => ht hc.1)
    rintro ⟨entries, heq, -⟩
    have hnull := (@getpgtable_null m ptr num 1 (by simp only [kernbase] at hsz; omega) hptr
      (.inr rfl)).mp (by rw [heq]; simp)
    apply ht
    intro page hpage
    obtain ⟨h1, h2⟩ := Machine.mem_walked.mp hpage
    have hk := hnull (m.sz / 4096 - page) (by omega) ?_
    · rwa [show ppn m.sz - (m.sz / 4096 - page) = page by unfold ppn; omega] at hk
    · have hle : m.reported 1 (m.sz / 4096 - page) ≤ m.sz / 4096 - page := by
        refine Nat.le_trans List.countP_le_length ?_
        rw [List.length_range]
      omega

/-- `argptr`, for the pointer it finds: whether it accepts a block of that size. -/
def argptr (m : Machine) (ptr : Nat) (size : Int) : Bool :=
  !(size < 0 || ptr ≥ m.sz || u32 (ptr + toU32 size) > m.sz)

/-- `num * sizeof(struct pt_entry)`, handed on as an `int`. -/
def entriesSize (num : Int) : Int := i32 ((toU32 num * 8 : Nat) : Int)

/-- `sys_getpgtable`, once the arguments are fetched. -/
def sysGetpgtable (ptr : Nat) (num wsetOnly : Int) (m : Machine) :
    Except Fault (Int × List PtEntry) :=
  if argptr m ptr (entriesSize num) then getpgtable ptr num wsetOnly m else .ok (-1, [])

/-- How many entries the loop has filled in when it ends, be it at a null `pte_t *`;
`filled` are filled in already. -/
def pgtableStores (d : PgDir) (num wsetOnly : Int) : Nat → Nat → Nat → Nat
  | 0, _, filled => filled
  | left + 1, currAddr, filled =>
      if (filled : Int) < num then
        match walkpgdir d currAddr with
        | none => filled
        | some ptr =>
            pgtableStores d num wsetOnly left (u32 (currAddr + 4294963200))
              (if (d.pte ptr.page).reported wsetOnly then filled + 1 else filled)
      else filled

/-- How many entries `sys_getpgtable` fills in. -/
def sysGetpgtableStores (ptr : Nat) (num wsetOnly : Int) (m : Machine) : Nat :=
  if argptr m ptr (entriesSize num) ∧ ptr ≠ 0 ∧ (wsetOnly = 0 ∨ wsetOnly = 1) then
    pgtableStores m.pgdir num wsetOnly (m.sz / 4096) (pgRoundDown m.sz) 0
  else 0

/-- The entries that are returned are those that have been filled in. -/
theorem pgtableLoop_stores {d : PgDir} {num wsetOnly : Int} {left a : Nat}
    {entries entries' : List PtEntry}
    (h : pgtableLoop d num wsetOnly left a entries = .ok entries') :
    entries'.length = pgtableStores d num wsetOnly left a entries.length := by
  induction left generalizing a entries with
  | zero =>
      cases h
      rfl
  | succ left ih =>
      rw [pgtableLoop] at h
      rw [pgtableStores]
      split at h
      · rename_i hnum
        rw [if_pos hnum]
        cases hw : walkpgdir d a with
        | none =>
            rw [hw] at h
            cases h
        | some ptr =>
            rw [hw] at h
            rw [ih h]
            simp only
            split
            · rw [List.length_append, List.length_singleton]
            · rfl
      · rename_i hnum
        cases h
        rw [if_neg hnum]

theorem sysGetpgtable_stores {ptr : Nat} {num wsetOnly r : Int} {entries : List PtEntry}
    (h : sysGetpgtable ptr num wsetOnly m = .ok (r, entries)) :
    entries.length = sysGetpgtableStores ptr num wsetOnly m := by
  rw [sysGetpgtable] at h
  rw [sysGetpgtableStores]
  split at h
  · rename_i harg
    rw [getpgtable] at h
    split at h
    · rename_i hbad
      cases h
      rw [if_neg (by omega)]
      rfl
    · rename_i hok
      rw [bind_eq_ok] at h
      obtain ⟨entries', hloop, h⟩ := h
      cases h
      rw [if_pos ⟨harg, by omega⟩]
      exact pgtableLoop_stores hloop
  · rename_i harg
    cases h
    rw [if_neg (fun hc => harg hc.1)]
    rfl

/-- The pages the loop can come by: those before the first one without a page
table. -/
def Machine.passed (m : Machine) : List Nat := m.walked.takeWhile m.pgdir.hasTable

/-- How many entries `getpgtable` could fill in if `num` were no limit. -/
def Machine.fillable (m : Machine) (wsetOnly : Int) : Nat :=
  m.passed.countP fun page => (m.pgdir.pte page).reported wsetOnly

theorem pgtableStores_eq {d : PgDir} {num wsetOnly : Int} {left : Nat} (hlt : left ≤ kernPage)
    (filled : Nat) :
    pgtableStores d num wsetOnly left (4096 * left) filled =
      filled + min (num.toNat - filled) (((List.range' 1 left).reverse.takeWhile d.hasTable).countP
        fun page => (d.pte page).reported wsetOnly) := by
  induction left generalizing filled with
  | zero =>
      rw [pgtableStores]
      simp
  | succ left ih =>
      have hpage : ppn (4096 * (left + 1)) = left + 1 := CS537.Pager.ppn_mul _
      have hnext : u32 (4096 * (left + 1) + 4294963200) = 4096 * left := by
        unfold u32
        simp only [kernPage] at hlt
        omega
      rw [pgtableStores, range'_reverse_succ]
      by_cases hnum : (filled : Int) < num
      · rw [if_pos hnum, List.takeWhile_cons]
        cases ht : d.hasTable (left + 1) with
        | false =>
            have hwalk : walkpgdir d (4096 * (left + 1)) = none := by
              rw [walkpgdir_eq_none, hpage, ht]
            rw [hwalk]
            simp
        | true =>
            have hwalk : walkpgdir d (4096 * (left + 1)) = some ⟨d.frame, left + 1⟩ := by
              rw [walkpgdir_eq_some, hpage]
              exact ⟨ht, rfl⟩
            rw [hwalk]
            simp only [hnext, if_true]
            rw [ih (by omega), List.countP_cons]
            split
            · omega
            · omega
      · rw [if_neg hnum]
        omega

theorem sysGetpgtableStores_eq {ptr : Nat} {num wsetOnly : Int} (hsz : m.sz ≤ kernbase) :
    sysGetpgtableStores ptr num wsetOnly m =
      if argptr m ptr (entriesSize num) ∧ ptr ≠ 0 ∧ (wsetOnly = 0 ∨ wsetOnly = 1) then
        min num.toNat (m.fillable wsetOnly)
      else 0 := by
  have hround : pgRoundDown m.sz = 4096 * (m.sz / 4096) := pgRoundDown_ppn _
  have hle : m.sz / 4096 ≤ kernPage := by
    simp only [kernbase] at hsz
    simp only [kernPage]
    omega
  rw [sysGetpgtableStores, hround, pgtableStores_eq hle, Nat.zero_add, Nat.sub_zero]
  rfl

/-- Each byte of the entries that are filled in lies in the process, at or above the
pointer. An entry has 8 bytes. -/
def WritesChecked (m : Machine) (ptr : Nat) (num wsetOnly : Int) : Prop :=
  ∀ k < sysGetpgtableStores ptr num wsetOnly m, ∀ i < 8,
    ptr ≤ ptr + 8 * k + i ∧ ptr + 8 * k + i < m.sz

/-- What `argptr` checks. -/
theorem argptr_iff {ptr : Nat} {size : Int} (hsz : m.sz ≤ kernbase) (hsize : IsInt size) :
    argptr m ptr size ↔ 0 ≤ size ∧ ptr < m.sz ∧ ptr + size ≤ m.sz := by
  obtain ⟨h1, h2⟩ := hsize
  simp only [kernbase] at hsz
  rw [argptr]
  simp only [Bool.not_eq_true', Bool.or_eq_false_iff, decide_eq_false_iff_not]
  by_cases hneg : size < 0
  · omega
  · by_cases hptr : ptr < m.sz
    · have hto := toU32_of_nonneg (by omega) h2
      rw [u32_of_lt (by omega)]
      omega
    · omega

end CS537.Pager
