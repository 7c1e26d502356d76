import Mathlib.Algebra.Ring.Nat
import CS537.Pager.PageRuns

/-!
# Pager — when memory suffices

How many free frames the functions that build page directories take. With that
many `allocuvm` grows the process, with fewer it does not.
-/

namespace CS537.Pager

open MachineInt

/-- The frames it takes to map `n` pages from `page` on: one a page, and one for
each page table that is missing. -/
def framesFor : Nat → Nat → PgDir → Nat
  | 0, _, _ => 0
  | n + 1, page, d =>
      if d.hasTable page then framesFor n (page + 1) d + 1
      else framesFor n (page + 1) (d.newTable page 0) + 2

/-- The pages `allocuvm` maps to grow from `oldsz` to `newsz`. -/
def newPages (oldsz newsz : Nat) : Nat := (pgRoundUp newsz - pgRoundUp oldsz) / 4096

/-- Only the tables matter. -/
theorem framesFor_congr {n page : Nat} {d d' : PgDir}
    (h : ∀ q, d'.hasTable q = d.hasTable q) : framesFor n page d' = framesFor n page d := by
  induction n generalizing page d d' with
  | zero => rfl
  | succ n ih =>
      have hnew : ∀ q, (d'.newTable page 0).hasTable q = (d.newTable page 0).hasTable q := by
        intro q
        rw [PgDir.newTable_hasTable, PgDir.newTable_hasTable, h]
      rw [framesFor, framesFor, h, ih h, ih hnew]

theorem framesFor_le (n page : Nat) (d : PgDir) : framesFor n page d ≤ 2 * n := by
  induction n generalizing page d with
  | zero => exact Nat.le_refl _
  | succ n ih =>
      rw [framesFor]
      split
      · have := ih (page + 1) d
        omega
      · have := ih (page + 1) (d.newTable page 0)
        omega

/-! ## One page -/

theorem walkpgdirAlloc_of_table {d : PgDir} {va : Nat} (h : d.hasTable (ppn va)) (ph : Phys) :
    walkpgdirAlloc d va ph = some (d, ph) := by
  rw [walkpgdirAlloc, if_pos h]

theorem walkpgdirAlloc_of_free {d : PgDir} {va f : Nat} {rest : List Nat} {ph : Phys}
    (h : d.hasTable (ppn va) = false) (hfree : ph.freelist = f :: rest) :
    walkpgdirAlloc d va ph
      = some (d.newTable (ppn va) f, memset f 0 { ph with freelist := rest }) := by
  rw [walkpgdirAlloc, if_neg (by simp [h])]
  simp only [kalloc, hfree]

theorem walkpgdirAlloc_of_nil {d : PgDir} {va : Nat} {ph : Phys}
    (h : d.hasTable (ppn va) = false) (hfree : ph.freelist = []) :
    walkpgdirAlloc d va ph = none := by
  rw [walkpgdirAlloc, if_neg (by simp [h])]
  simp only [kalloc, hfree]

/-- What `mappages` of one page does when it gets the memory it needs. -/
structure Mapped (a : Nat) (d : PgDir) (ph : Phys) (d' : PgDir) (ph' : Phys) : Prop where
  frames : ph.freelist.length
    = ph'.freelist.length + if d.hasTable (ppn a) then 0 else 1
  table : ∀ q, d'.hasTable q
    = if d.hasTable (ppn a) then d.hasTable q else (d.newTable (ppn a) 0).hasTable q
  others : ∀ q, q ≠ ppn a → (d.pte q).mapped = false → (d'.pte q).mapped = false
  firstFree : ph'.firstFree = ph.firstFree
  data : ph'.data = ph.data

theorem walkpgdirAlloc_mapped {a : Nat} {d d₁ : PgDir} {ph ph₁ : Phys}
    (h : walkpgdirAlloc d a ph = some (d₁, ph₁)) (v : Pte) :
    Mapped a d ph (d₁.set (ppn a) v) ph₁
      ∧ ((d.pte (ppn a)).mapped = false → (d₁.pte (ppn a)).mapped = false) := by
  cases ht : d.hasTable (ppn a) with
  | true =>
      rw [walkpgdirAlloc_of_table ht] at h
      cases h
      refine ⟨⟨by simp [ht], by simp [ht], ?_, rfl, rfl⟩, id⟩
      intro q hq hm
      rw [PgDir.set_pte, if_neg hq]
      exact hm
  | false =>
      cases hfree : ph.freelist with
      | nil =>
          rw [walkpgdirAlloc_of_nil ht hfree] at h
          cases h
      | cons f rest =>
          rw [walkpgdirAlloc_of_free ht hfree] at h
          cases h
          -- a new table maps nothing
          have hold : ∀ q, (d.pte q).mapped = false →
              ((d.newTable (ppn a) f).pte q).mapped = false := by
            intro q hm
            rw [PgDir.newTable_pte]
            split
            · rfl
            · exact hm
          refine ⟨⟨by simp [ht, hfree, memset], ?_, ?_, rfl, rfl⟩, hold _⟩
          · intro q
            simp [ht, PgDir.newTable_hasTable]
          · intro q hq hm
            rw [PgDir.set_pte, if_neg hq]
            exact hold q hm

theorem mapPage_mapped {a pa : Nat} {perm : Flags} {d d' : PgDir} {ph ph' : Phys}
    (h : mapLoop perm 1 a pa d ph = .ok (true, d', ph')) : Mapped a d ph d' ph' := by
  rw [mapLoop] at h
  cases hw : walkpgdirAlloc d a ph with
  | none =>
      rw [hw] at h
      cases h
  | some r =>
      obtain ⟨d₁, ph₁⟩ := r
      rw [hw] at h
      simp only [mapLoop] at h
      split at h
      · cases h
      · cases h
        exact (walkpgdirAlloc_mapped hw _).1

/-- `mappages` of one page succeeds if the page is not mapped and there is memory
for the page table. -/
theorem mapPage_ok {a pa : Nat} {perm : Flags} {d : PgDir} {ph : Phys} {n : Nat}
    (hm : (d.pte (ppn a)).mapped = false)
    (hfree : (if d.hasTable (ppn a) then 0 else 1) ≤ ph.freelist.length) :
    ∃ d' ph', Mapped a d ph d' ph'
      ∧ mapLoop perm (n + 1) a pa d ph
        = mapLoop perm n (u32 (a + 4096)) (u32 (pa + 4096)) d' ph' := by
  obtain ⟨d₁, ph₁, hw⟩ : ∃ d₁ ph₁, walkpgdirAlloc d a ph = some (d₁, ph₁) := by
    cases ht : d.hasTable (ppn a) with
    | true => exact ⟨d, ph, walkpgdirAlloc_of_table ht ph⟩
    | false =>
        cases hl : ph.freelist with
        | nil =>
            rw [ht, hl] at hfree
            cases hfree
        | cons f rest => exact ⟨_, _, walkpgdirAlloc_of_free ht hl⟩
  obtain ⟨hmap, hkeep⟩ := walkpgdirAlloc_mapped hw (mapEntry pa perm)
  refine ⟨_, _, hmap, ?_⟩
  rw [mapLoop, hw]
  simp [hkeep hm]

/-! ## `allocuvm` -/

theorem Mapped.framesFor_succ {a : Nat} {d d' : PgDir} {ph ph' : Phys}
    (h : Mapped a d ph d' ph') (n : Nat) :
    framesFor (n + 1) (ppn a) d + ph'.freelist.length
      = framesFor n (ppn a + 1) d' + ph.freelist.length + 1 := by
  have hf := h.frames
  have ht := h.table
  rw [framesFor]
  cases hta : d.hasTable (ppn a) with
  | true =>
      simp only [hta, if_true] at hf ht ⊢
      rw [framesFor_congr ht]
      omega
  | false =>
      simp only [hta, Bool.false_eq_true, if_false] at hf ht ⊢
      rw [framesFor_congr ht]
      omega

/-- The pages left to map, at a page below the new size. -/
theorem pagesLeft_succ {newsz a : Nat} (hlt : newsz < kernbase) (ha : a % 4096 = 0)
    (hin : a < newsz) :
    (pgRoundUp newsz - a) / 4096 = (pgRoundUp newsz - (a + 4096)) / 4096 + 1 := by
  have hle := le_pgRoundUp (Nat.le_of_lt hlt)
  have hal := pgRoundUp_aligned newsz
  omega

/-- One round of `allocuvm` that does not fail: a frame is taken, cleared and mapped. -/
theorem allocLoop_round {oldsz newsz n a r : Nat} (hlt : newsz < kernbase)
    (ha : a % 4096 = 0) (hin : a < newsz) {d d' : PgDir} {ph ph' : Phys}
    (h : allocLoop oldsz newsz (n + 1) a d ph = .ok (r, d', ph')) (hr : r ≠ 0) :
    ∃ mem rest d₂ ph₂, ph.freelist = mem :: rest
      ∧ mapLoop Flags.user 1 a (mem * 4096) d (memset mem 0 { ph with freelist := rest })
        = .ok (true, d₂, ph₂)
      ∧ allocLoop oldsz newsz n (a + 4096) d₂ ph₂ = .ok (r, d', ph') := by
  rw [allocLoop, if_pos hin] at h
  cases hk : kalloc ph with
  | none =>
      rw [hk] at h
      simp only [bind_eq_ok] at h
      obtain ⟨_, _, h⟩ := h
      cases h
      exact absurd rfl hr
  | some r₁ =>
      obtain ⟨mem, ph₁⟩ := r₁
      rw [hk] at h
      obtain ⟨rest, hfree, rfl⟩ := kalloc_eq_some hk
      simp only [bind_eq_ok] at h
      obtain ⟨⟨b, d₂, ph₂⟩, hmap, h⟩ := h
      rw [mappages_page ha] at hmap
      cases b with
      | true =>
          have hnext : u32 (a + 4096) = a + 4096 := by
            apply u32_of_lt
            simp only [kernbase] at hlt
            omega
          simp only [if_true, hnext] at h
          exact ⟨mem, rest, d₂, ph₂, hfree, hmap, h⟩
      | false =>
          simp only [Bool.false_eq_true, if_false, bind_eq_ok] at h
          obtain ⟨_, _, _, _, h⟩ := h
          cases h
          exact absurd rfl hr

/-- `allocuvm` that grows had the frames for it. -/
theorem allocLoop_frames {oldsz newsz n a r : Nat} (hlt : newsz < kernbase)
    (ha : a % 4096 = 0) {d d' : PgDir} {ph ph' : Phys}
    (h : allocLoop oldsz newsz n a d ph = .ok (r, d', ph')) (hr : r ≠ 0) :
    framesFor ((pgRoundUp newsz - a) / 4096) (ppn a) d ≤ ph.freelist.length := by
  have hdone : ∀ {a : Nat}, a % 4096 = 0 → ¬ a < newsz → (pgRoundUp newsz - a) / 4096 = 0 := by
    intro a ha hge
    have hal := pgRoundUp_aligned newsz
    have hup : pgRoundUp newsz < newsz + 4096 := by
      unfold pgRoundUp u32
      omega
    omega
  induction n generalizing a d ph with
  | zero =>
      rw [allocLoop] at h
      split at h
      · cases h
      · rename_i hge
        rw [hdone ha hge]
        exact Nat.zero_le _
  | succ n ih =>
      by_cases hin : a < newsz
      · obtain ⟨mem, rest, d₂, ph₂, hfree, hmap, h⟩ := allocLoop_round hlt ha hin h hr
        have hrest := ih (by omega) h
        have hstep := (mapPage_mapped hmap).framesFor_succ
          ((pgRoundUp newsz - (a + 4096)) / 4096)
        have hppn : ppn (a + 4096) = ppn a + 1 := by
          unfold ppn
          omega
        rw [hppn] at hrest
        rw [pagesLeft_succ hlt ha hin, hfree, List.length_cons]
        simp only [memset] at hstep
        omega
      · rw [hdone ha hin]
        exact Nat.zero_le _

/-- `allocuvm` that grows has mapped every page it should. -/
theorem allocLoop_mapped {oldsz newsz n a r : Nat} (hle : oldsz ≤ newsz)
    (hlt : newsz < kernbase) (ha : a % 4096 = 0) (hlo : pgRoundUp oldsz ≤ a)
    {d d' : PgDir} {ph ph' : Phys}
    (h : allocLoop oldsz newsz n a d ph = .ok (r, d', ph')) (hr : r ≠ 0) :
    ∀ page, Within a newsz page →
      d'.hasTable page ∧ (d'.pte page).toFlags = userFlags := by
  induction n generalizing a d ph with
  | zero =>
      rw [allocLoop] at h
      split at h
      · cases h
      · intro page hin
        obtain ⟨h1, h2⟩ := hin
        omega
  | succ n ih =>
      by_cases hin : a < newsz
      · obtain ⟨mem, rest, d₂, ph₂, _, hmap, h⟩ := allocLoop_round hlt ha hin h hr
        intro page hpage
        by_cases heq : page = ppn a
        · -- the page mapped now: the later ones do not touch its entry
          obtain ⟨d₁, _, ⟨hb, _⟩ | ⟨_, ht₁, _, hd₂⟩⟩ := mapPage_spec hmap
          · cases hb
          · have hpte : (d₂.pte (ppn a)).toFlags = userFlags := by
              rw [hd₂, PgDir.set_pte, if_pos rfl, mapEntry_user]
            have ht₂ : d₂.hasTable (ppn a) := by
              rw [hd₂]
              exact ht₁
            cases allocLoop_run hle hlt (by omega) (by omega) h with
            | failed _ _ _ => exact absurd rfl hr
            | done hrest =>
                have hev := hrest.evolved (growing_bounded _ _)
                rw [heq]
                refine ⟨hev.table _ ht₂, ?_⟩
                rcases hev.pte (ppn a) with hs | ⟨_, hF | hno⟩ | ⟨_, ⟨h1, _⟩, _⟩
                · change d'.pte (ppn a) = d₂.pte (ppn a) at hs
                  rw [hs, hpte]
                · exact hF.elim
                · change d₂.hasTable (ppn a) = false at hno
                  rw [ht₂] at hno
                  cases hno
                · unfold ppn at h1
                  omega
        · apply ih (by omega) (by omega) h
          obtain ⟨h1, h2⟩ := hpage
          unfold Within
          unfold ppn at heq
          omega
      · intro page hin
        obtain ⟨h1, h2⟩ := hin
        omega

/-- With the frames for the pages that are left, the next page is mapped to the first of them,
whatever is put into it, and the frames for the other pages stay. -/
theorem mapNext_ok {lim a : Nat} (hlt : lim < kernbase) (ha : a % 4096 = 0) (hin : a < lim)
    {d : PgDir} {ph : Phys} (hun : ∀ page, Within a lim page → (d.pte page).mapped = false)
    (hfree : framesFor ((pgRoundUp lim - a) / 4096) (ppn a) d ≤ ph.freelist.length) :
    ∃ mem rest, ph.freelist = mem :: rest ∧
      ∀ (perm : Flags) (ph₁ : Phys), ph₁.freelist = rest →
        ∃ d₂ ph₂, mappages a pgsize (mem * 4096) perm d ph₁ = .ok (true, d₂, ph₂) ∧
          (∀ page, Within (a + 4096) lim page → (d₂.pte page).mapped = false) ∧
          framesFor ((pgRoundUp lim - (a + 4096)) / 4096) (ppn (a + 4096)) d₂
            ≤ ph₂.freelist.length := by
  have hpage : 4096 * ppn a = a := by
    unfold ppn
    omega
  rw [pagesLeft_succ hlt ha hin] at hfree
  -- the frame of the page, and then perhaps one for its table
  have hone : 1 + (if d.hasTable (ppn a) then 0 else 1) ≤ ph.freelist.length := by
    rw [framesFor] at hfree
    split at hfree
    · rename_i ht
      rw [if_pos ht]
      omega
    · rename_i ht
      rw [if_neg ht]
      omega
  obtain ⟨mem, rest, hl⟩ : ∃ mem rest, ph.freelist = mem :: rest := by
    cases hl : ph.freelist with
    | nil =>
        rw [hl, List.length_nil] at hone
        omega
    | cons mem rest => exact ⟨mem, rest, rfl⟩
  rw [hl, List.length_cons] at hone hfree
  refine ⟨mem, rest, hl, fun perm ph₁ hph₁ => ?_⟩
  have htab : (if d.hasTable (ppn a) then 0 else 1) ≤ ph₁.freelist.length := by
    rw [hph₁]
    omega
  obtain ⟨d₂, ph₂, hmap, heq⟩ := @mapPage_ok a (mem * 4096) perm d ph₁ 0
    (hun (ppn a) ⟨by omega, by omega⟩) htab
  have hstep := hmap.framesFor_succ ((pgRoundUp lim - (a + 4096)) / 4096)
  have hppn : ppn (a + 4096) = ppn a + 1 := by
    unfold ppn
    omega
  rw [hph₁] at hstep
  refine ⟨d₂, ph₂, ?_, ?_, ?_⟩
  · rw [mappages_page ha]
    exact heq
  · intro page hpages
    obtain ⟨h1, h2⟩ := hpages
    exact hmap.others page (by omega) (hun page ⟨by omega, h2⟩)
  · rw [hppn]
    omega

/-- With the frames for it, and nothing mapped where it goes, `allocuvm` grows. -/
theorem allocLoop_ok {oldsz newsz n a : Nat} (hlt : newsz < kernbase) (ha : a % 4096 = 0)
    (hfuel : newsz ≤ a + n * 4096) {d : PgDir} {ph : Phys}
    (hun : ∀ page, Within a newsz page → (d.pte page).mapped = false)
    (hfree : framesFor ((pgRoundUp newsz - a) / 4096) (ppn a) d ≤ ph.freelist.length) :
    ∃ d' ph', allocLoop oldsz newsz n a d ph = .ok (newsz, d', ph') := by
  induction n generalizing a d ph with
  | zero =>
      rw [allocLoop, if_neg (by omega)]
      exact ⟨d, ph, rfl⟩
  | succ n ih =>
      rw [allocLoop]
      split
      · rename_i hin
        obtain ⟨mem, rest, hl, hmap⟩ := mapNext_ok hlt ha hin hun hfree
        obtain ⟨d₂, ph₂, hone, hun₂, hfree₂⟩ := hmap Flags.user
          (memset mem 0 { ph with freelist := rest }) rfl
        have hnext : u32 (a + 4096) = a + 4096 := by
          apply u32_of_lt
          simp only [kernbase] at hlt
          omega
        obtain ⟨d', ph', hok⟩ := ih (by omega) (by omega) hun₂ hfree₂
        refine ⟨d', ph', ?_⟩
        simp only [kalloc, hl, hone, ok_bind, if_true, hnext]
        exact hok
      · exact ⟨d, ph, rfl⟩

theorem allocuvm_grow {oldsz newsz : Nat} (hle : oldsz ≤ newsz) (hlt : newsz < kernbase)
    (d : PgDir) (ph : Phys) :
    allocuvm oldsz newsz d ph
      = allocLoop oldsz newsz (newsz / 4096 + 1) (pgRoundUp oldsz) d ph := by
  rw [allocuvm, if_neg (by omega), if_neg (by omega)]

/-- A process that `allocuvm` grows had the frames for it. -/
theorem allocuvm_enough {oldsz newsz r : Nat} (hle : oldsz ≤ newsz) (hlt : newsz < kernbase)
    {d d' : PgDir} {ph ph' : Phys} (h : allocuvm oldsz newsz d ph = .ok (r, d', ph'))
    (hr : r ≠ 0) :
    framesFor (newPages oldsz newsz) (ppn (pgRoundUp oldsz)) d ≤ ph.freelist.length := by
  rw [allocuvm_grow hle hlt] at h
  exact allocLoop_frames hlt (pgRoundUp_aligned _) h hr

theorem allocuvm_mapped {oldsz newsz r : Nat} (hle : oldsz ≤ newsz) (hlt : newsz < kernbase)
    {d d' : PgDir} {ph ph' : Phys} (h : allocuvm oldsz newsz d ph = .ok (r, d', ph'))
    (hr : r ≠ 0) :
    ∀ page, Within (pgRoundUp oldsz) newsz page →
      d'.hasTable page ∧ (d'.pte page).toFlags = userFlags := by
  rw [allocuvm_grow hle hlt] at h
  exact allocLoop_mapped hle hlt (pgRoundUp_aligned _) (Nat.le_refl _) h hr

/-- `allocuvm` grows a process, with nothing mapped where it goes, exactly if there
are the frames for it. -/
theorem allocuvm_iff {oldsz newsz : Nat} (hle : oldsz ≤ newsz) (hlt : newsz < kernbase)
    (hpos : 0 < newsz) {d : PgDir} {ph : Phys}
    (hun : ∀ page, Within (pgRoundUp oldsz) newsz page → (d.pte page).mapped = false) :
    (∃ d' ph', allocuvm oldsz newsz d ph = .ok (newsz, d', ph'))
      ↔ framesFor (newPages oldsz newsz) (ppn (pgRoundUp oldsz)) d ≤ ph.freelist.length := by
  constructor
  · intro ⟨d', ph', h⟩
    exact allocuvm_enough hle hlt h (by omega)
  · intro hfree
    rw [allocuvm_grow hle hlt]
    exact allocLoop_ok hlt (pgRoundUp_aligned _) (by omega) hun hfree

/-! ## `setupkvm` -/

/-- What mapping `n` pages from address `a` on does when it gets the memory. -/
structure MappedPages (n a : Nat) (d : PgDir) (ph : Phys) (d' : PgDir) (ph' : Phys) :
    Prop where
  frames : ph.freelist.length ≤ ph'.freelist.length
    + ((if d.hasTable (ppn a) then 0 else 1) + (pdx (ppn a + (n - 1)) - pdx (ppn a)))
  others : ∀ q, q < ppn a ∨ ppn a + n ≤ q → (d.pte q).mapped = false →
    (d'.pte q).mapped = false
  firstFree : ph'.firstFree = ph.firstFree
  data : ph'.data = ph.data

/-- `mappages` of pages that are not mapped succeeds with a frame for each page
table they lie in. -/
theorem mapLoop_ok {perm : Flags} {n a pa : Nat} (ha : a % 4096 = 0)
    (hhi : a + (n + 1) * 4096 ≤ 4294967296) {d : PgDir} {ph : Phys}
    (hun : ∀ q, ppn a ≤ q → q < ppn a + (n + 1) → (d.pte q).mapped = false)
    (hfree : (if d.hasTable (ppn a) then 0 else 1) + (pdx (ppn a + n) - pdx (ppn a))
      ≤ ph.freelist.length) :
    ∃ d' ph', mapLoop perm (n + 1) a pa d ph = .ok (true, d', ph')
      ∧ MappedPages (n + 1) a d ph d' ph' := by
  induction n generalizing a pa d ph with
  | zero =>
      obtain ⟨d', ph', hmap, heq⟩ := @mapPage_ok a pa perm d ph 0
        (hun (ppn a) (Nat.le_refl _) (by omega)) (by omega)
      refine ⟨d', ph', heq, ?_, ?_, hmap.firstFree, hmap.data⟩
      · have := hmap.frames
        omega
      · intro q hq hm
        exact hmap.others q (by omega) hm
  | succ n ih =>
      obtain ⟨d₁, ph₁, hmap, heq⟩ := @mapPage_ok a pa perm d ph (n + 1)
        (hun (ppn a) (Nat.le_refl _) (by omega)) (by omega)
      have hnext : u32 (a + 4096) = a + 4096 := u32_of_lt (by omega)
      have hppn : ppn (a + 4096) = ppn a + 1 := by
        unfold ppn
        omega
      -- the next page needs a table only if it is the first of one
      have htab : (if d.hasTable (ppn a) then 0 else 1)
          + ((if d₁.hasTable (ppn (a + 4096)) then 0 else 1)
            + (pdx (ppn (a + 4096) + n) - pdx (ppn (a + 4096))))
          ≤ (if d.hasTable (ppn a) then 0 else 1) + (pdx (ppn a + (n + 1)) - pdx (ppn a)) := by
        rw [hppn, show ppn a + 1 + n = ppn a + (n + 1) by omega]
        by_cases hsame : pdx (ppn a + 1) = pdx (ppn a)
        · have ht : d₁.hasTable (ppn a + 1) = true := by
            rw [hmap.table]
            split
            · rename_i h
              rw [PgDir.hasTable_congr hsame, h]
            · rw [PgDir.newTable_hasTable, hsame]
              simp
          rw [if_pos ht, hsame]
          omega
        · have hpdx : pdx (ppn a + 1) = pdx (ppn a) + 1
              ∧ pdx (ppn a + 1) ≤ pdx (ppn a + (n + 1)) := by
            unfold pdx at hsame ⊢
            omega
          have hone : (if d₁.hasTable (ppn a + 1) then 0 else 1) ≤ 1 := by
            split <;> omega
          omega
      have hf := hmap.frames
      obtain ⟨d', ph', hok, hrest⟩ := @ih (a + 4096) (u32 (pa + 4096)) (by omega) (by omega)
        d₁ ph₁
        (fun q h1 h2 => hmap.others q (by omega) (hun q (by omega) (by omega))) (by omega)
      refine ⟨d', ph', ?_, ?_, ?_, ?_, ?_⟩
      · rw [heq, hnext]
        exact hok
      · have := hrest.frames
        simp only [Nat.add_sub_cancel] at this ⊢
        omega
      · intro q hq hm
        exact hrest.others q (by omega) (hmap.others q (by omega) hm)
      · rw [hrest.firstFree, hmap.firstFree]
      · rw [hrest.data, hmap.data]

/-- The first page of a region. -/
def Kmap.first (k : Kmap) : Nat := ppn k.virt

/-- The pages of a region. -/
def Kmap.count (k : Kmap) : Nat := u32 (k.physEnd + 4294967296 - k.physStart) / 4096

/-- The page tables a region lies in. -/
def Kmap.tables (k : Kmap) : Nat := 1 + (pdx (k.first + (k.count - 1)) - pdx k.first)

/-- Two regions have no page in common. -/
def Kmap.Apart (k l : Kmap) : Prop :=
  k.first + k.count ≤ l.first ∨ l.first + l.count ≤ k.first

theorem kmapLoop_ok {ks : List Kmap} (hks : ∀ k ∈ ks, k.Region)
    (hapart : ks.Pairwise Kmap.Apart) {d : PgDir} {ph : Phys}
    (hun : ∀ k ∈ ks, ∀ q, k.first ≤ q → q < k.first + k.count → (d.pte q).mapped = false)
    (hfree : (ks.map Kmap.tables).sum ≤ ph.freelist.length) :
    ∃ d' ph', kmapLoop ks d ph = .ok (true, d', ph')
      ∧ ph.freelist.length ≤ ph'.freelist.length + (ks.map Kmap.tables).sum
      ∧ ph'.firstFree = ph.firstFree := by
  induction ks generalizing d ph with
  | nil => exact ⟨d, ph, rfl, Nat.le_refl _, rfl⟩
  | cons k ks ih =>
      rw [List.forall_mem_cons] at hks hun
      obtain ⟨hk, hks⟩ := hks
      obtain ⟨hunk, hun⟩ := hun
      obtain ⟨hak, hapart⟩ := List.pairwise_cons.mp hapart
      rw [List.map_cons, List.sum_cons] at hfree
      obtain ⟨n, hn⟩ : ∃ n, k.count = n + 1 := by
        have hpos := hk.pos
        have hsize := hk.size
        refine ⟨k.count - 1, ?_⟩
        unfold Kmap.count
        omega
      have hfits : k.virt + (n + 1) * 4096 ≤ 4294967296 := by
        have hf := hk.fits
        rw [← hn]
        unfold Kmap.count
        omega
      have htables : (if d.hasTable (ppn k.virt) then 0 else 1)
          + (pdx (ppn k.virt + n) - pdx (ppn k.virt)) ≤ k.tables := by
        have : (if d.hasTable (ppn k.virt) then 0 else 1) ≤ 1 := by
          split <;> omega
        rw [Kmap.tables, hn, Nat.add_sub_cancel]
        exact Nat.add_le_add_right this _
      obtain ⟨d₁, ph₁, hok, hmap⟩ := @mapLoop_ok k.perm n k.virt k.physStart hk.aligned hfits
        d ph (by rw [← hn]; exact hunk) (by omega)
      have hframes := hmap.frames
      simp only [Nat.add_sub_cancel] at hframes
      have hun₁ : ∀ l ∈ ks, ∀ q, l.first ≤ q → q < l.first + l.count →
          (d₁.pte q).mapped = false := by
        intro l hl q h1 h2
        apply hmap.others q _ (hun l hl q h1 h2)
        have hkl := hak l hl
        unfold Kmap.Apart at hkl
        rw [hn] at hkl
        unfold Kmap.first at *
        omega
      have hfree₁ : (ks.map Kmap.tables).sum ≤ ph₁.freelist.length := by omega
      obtain ⟨d', ph', hok', hle, hff⟩ := ih hks hapart hun₁ hfree₁
      refine ⟨d', ph', ?_, ?_, ?_⟩
      · rw [kmapLoop, mappages_pages hk.aligned hk.size hk.pos hk.fits]
        change (mapLoop k.perm k.count k.virt k.physStart d ph >>= _) = _
        rw [hn, hok]
        exact hok'
      · rw [List.map_cons, List.sum_cons]
        omega
      · rw [hff, hmap.firstFree]

/-- The pages of the regions of `kmap`. -/
theorem kmap_pages {data : Nat} (h : 256 < data ∧ data < 57344) :
    (kmap data).map (fun k => (k.first, k.count))
      = [(524288, 256), (524544, data - 256), (524288 + data, 57344 - data),
          (1040384, 8192)] := by
  have htext : u32 (data * 4096 + 4294967296 - 1048576) / 4096 = data - 256 := by
    unfold u32
    omega
  have hdata : u32 (234881024 + 4294967296 - data * 4096) / 4096 = 57344 - data := by
    unfold u32
    omega
  have hfirst : (2147483648 + data * 4096) / 4096 = 524288 + data := by omega
  simp only [kmap, List.map_cons, List.map_nil, Kmap.first, Kmap.count, ppn, htext, hdata,
    hfirst]
  rfl

theorem kmap_apart {data : Nat} (h : 256 < data ∧ data < 57344) :
    (kmap data).Pairwise Kmap.Apart := by
  have hpages : ((kmap data).map fun k => (k.first, k.count)).Pairwise
      fun p q => p.1 + p.2 ≤ q.1 ∨ q.1 + q.2 ≤ p.1 := by
    rw [kmap_pages h]
    simp only [List.pairwise_cons, List.mem_cons, List.not_mem_nil, or_false,
      forall_eq_or_imp, forall_eq]
    refine ⟨⟨?_, ?_, ?_⟩, ⟨?_, ?_⟩, ?_, fun _ h => h.elim, .nil⟩ <;> omega
  rw [List.pairwise_map] at hpages
  exact hpages

/-- Page tables for the kernel: 1, 56, 56 and 8 at most. -/
theorem kmap_tables {data : Nat} (h : 256 < data ∧ data < 57344) :
    ((kmap data).map Kmap.tables).sum ≤ 121 := by
  have hpages : (kmap data).map Kmap.tables
      = ((kmap data).map fun k => (k.first, k.count)).map
          fun p => 1 + (pdx (p.1 + (p.2 - 1)) - pdx p.1) := by
    rw [List.map_map]
    rfl
  rw [hpages, kmap_pages h]
  simp only [List.map_cons, List.map_nil, List.sum_cons, List.sum_nil, pdx]
  omega

/-- With 122 free frames `setupkvm` succeeds. -/
theorem setupkvm_ok {ph : Phys} (hfree : 122 ≤ ph.freelist.length) :
    ∃ d ph', setupkvm ph = .ok (some d, ph')
      ∧ ph.freelist.length ≤ ph'.freelist.length + 122 ∧ ph'.firstFree = ph.firstFree := by
  obtain ⟨f, rest, hl⟩ : ∃ f rest, ph.freelist = f :: rest := by
    cases hl : ph.freelist with
    | nil =>
        rw [hl] at hfree
        cases hfree
    | cons f rest => exact ⟨f, rest, rfl⟩
  have htables := kmap_tables ph.data_mem
  rw [hl, List.length_cons] at hfree ⊢
  obtain ⟨d, ph', hok, hle, hff⟩ := @kmapLoop_ok (kmap ph.data) (kmap_region ph.data_mem)
    (kmap_apart ph.data_mem) (emptyDir f) (memset f 0 { ph with freelist := rest })
    (fun _ _ _ _ _ => rfl) (by change _ ≤ rest.length; omega)
  change rest.length ≤ _ at hle
  refine ⟨d, ph', ?_, by omega, hff⟩
  rw [emptyDir] at hok
  simp only [setupkvm, kalloc, hl, hok, ok_bind, if_true, pure_eq_ok]

/-! ## `copyuvm` -/

/-- With the frames for it, `copyuvm` copies the pages of a directory. -/
theorem copyLoop_ok {pgdir : PgDir} {sz n i : Nat} (hlt : sz < kernbase) (hi : i % 4096 = 0)
    (hfuel : sz ≤ i + n * 4096) {d : PgDir} {ph : Phys}
    (hsrc : ∀ page, Within i sz page → pgdir.hasTable page ∧ (pgdir.pte page).mapped)
    (hun : ∀ page, Within i sz page → (d.pte page).mapped = false)
    (hfree : framesFor ((pgRoundUp sz - i) / 4096) (ppn i) d ≤ ph.freelist.length) :
    ∃ d' ph', copyLoop pgdir sz n i d ph = .ok (true, d', ph') := by
  induction n generalizing i d ph with
  | zero =>
      rw [copyLoop, if_neg (by omega)]
      exact ⟨d, ph, rfl⟩
  | succ n ih =>
      rw [copyLoop]
      split
      · rename_i hin
        have hpage : 4096 * ppn i = i := by
          unfold ppn
          omega
        obtain ⟨ht, hm⟩ := hsrc (ppn i) ⟨by omega, by omega⟩
        have hw : walkpgdir pgdir i = some ⟨pgdir.frame, ppn i⟩ :=
          walkpgdir_eq_some.mpr ⟨ht, rfl⟩
        obtain ⟨mem, rest, hl, hmap⟩ := mapNext_ok hlt hi hin hun hfree
        obtain ⟨d₂, ph₂, hone, hun₂, hfree₂⟩ := hmap (pgdir.pte (ppn i)).toFlags
          (memmove mem (pgdir.pte (ppn i)).frame { ph with freelist := rest }) rfl
        have hnext : u32 (i + 4096) = i + 4096 := by
          apply u32_of_lt
          simp only [kernbase] at hlt
          omega
        have hsrc₂ : ∀ page, Within (i + 4096) sz page →
            pgdir.hasTable page ∧ (pgdir.pte page).mapped := by
          intro page hin
          obtain ⟨h1, h2⟩ := hin
          exact hsrc page ⟨by omega, h2⟩
        obtain ⟨d', ph', hok⟩ := ih (by omega) (by omega) hsrc₂ hun₂ hfree₂
        refine ⟨d', ph', ?_⟩
        simp only [hw, hm, if_true, kalloc, hl, hone, ok_bind, hnext]
        exact hok
      · exact ⟨d, ph, rfl⟩

end CS537.Pager
