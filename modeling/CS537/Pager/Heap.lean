import CS537.Pager.Conservation
import CS537.Pager.Transparency

/-!
# Pager — `growproc` is exact or has no effect

`allocuvm` and `deallocuvm` return the new size, or 0 for an error, and `growproc`
takes the 0 for an error whoever returns it. So to give up all memory takes the pages
and fails, and to give up more is a success that does nothing. With any other amount
`growproc` does what it returns.
-/

namespace CS537.Pager

open MachineInt

/-! ## What is claimed -/

/-- The user pages that are mapped are those below `PGROUNDUP(sz)`. -/
def Machine.HeapMapped (m : Machine) : Prop :=
  ∀ page < kernPage, (m.pgdir.pageFrame page).isSome ↔ 4096 * page < pgRoundUp m.sz

/-- A call of `growproc` with result `r`: on 0 the size is the old one plus `n`, the
pages below it are mapped, and those that were have their frames; on -1 size, pages,
contents and queue are as they were. -/
structure GrowExact (n : Int) (m : Machine) (r : Int) (m' : Machine) : Prop where
  done : r = 0 → (m'.sz : Int) = m.sz + n ∧ m'.HeapMapped ∧
    ∀ page < kernPage, (m.pgdir.pageFrame page).isSome → (m'.pgdir.pageFrame page).isSome →
      m'.pgdir.pageFrame page = m.pgdir.pageFrame page
  refused : r = -1 → m'.sz = m.sz ∧
    (∀ page < kernPage, m'.pgdir.pageFrame page = m.pgdir.pageFrame page) ∧
    (∀ page < kernPage, (m.pgdir.pageFrame page).isSome →
      content m'.pgdir m'.phys page = content m.pgdir m.phys page) ∧
    m'.clockQueue = m.clockQueue ∧ m'.clockIndex = m.clockIndex

variable {m m' : Machine}

/-! ## Pages -/

theorem PgDir.pageFrame_isSome {d : PgDir} {page : Nat} :
    (d.pageFrame page).isSome ↔ d.hasTable page ∧ (d.pte page).mapped := by
  unfold pageFrame
  split
  · rename_i h
    simpa using h
  · rename_i h
    simpa using h

theorem PgDir.userMapped_of_pageFrame {d : PgDir} {page : Nat} (hpage : page < kernPage)
    (h : (d.pageFrame page).isSome) : d.UserMapped page := by
  obtain ⟨ht, hm⟩ := pageFrame_isSome.mp h
  exact ⟨ht, hm, .inl hpage⟩

theorem PgDir.pageFrame_none {d : PgDir} {page : Nat}
    (h : d.hasTable page → (d.pte page).mapped = false) : d.pageFrame page = none := by
  unfold pageFrame
  rw [if_neg]
  simp only [Bool.and_eq_true, not_and, Bool.not_eq_true]
  exact h

/-- Encryption and decryption leave the frames of the pages alone. -/
theorem Recoded.pageFrame (h : Recoded m m') (page : Nat) :
    m'.pgdir.pageFrame page = m.pgdir.pageFrame page := by
  obtain ⟨hf, _, hm⟩ := h.pte page
  unfold PgDir.pageFrame PgDir.hasTable
  rw [h.table, hf, hm]

/-- Pages lie below a size when they lie below its last page's end. -/
theorem page_lt_pgRoundUp {sz page : Nat} (hsz : sz ≤ kernbase) :
    4096 * page < pgRoundUp sz ↔ 4096 * page < sz := by
  simp only [kernbase] at hsz
  unfold pgRoundUp u32
  omega

theorem Machine.HeapMapped.covers (h : m.HeapMapped) : m.pgdir.Covers m.sz := by
  intro page hpage hge
  have hno : ¬ (m.pgdir.pageFrame page).isSome := by
    rw [h page hpage]
    omega
  simpa using hno

/-! ## Growing -/

/-- What `allocuvm` has mapped when it succeeds. -/
theorem grown_pageFrame {oldsz newsz : Nat} {d d' : PgDir}
    {ph ph' : Phys} (hrun : VmRun (Growing (pgRoundUp oldsz) newsz) ⟨d, ph, []⟩ ⟨d', ph', []⟩)
    {page : Nat} (hin : ¬ Within (pgRoundUp oldsz) newsz page) :
    d'.pageFrame page = d.pageFrame page := by
  apply hrun.pageFrame
  intro e he hw
  cases he with
  | table _ => exact hw
  | alloc => exact hw
  | fill => exact hw
  | @map q _ hq _ =>
      have heq : q = page := hw
      exact hin (heq ▸ hq)

/-- `growproc` of more memory. -/
theorem growproc_grows {n r : Int} (hs : Separate m) (hmap : m.HeapMapped) (hn : IsInt n)
    (hpos : 0 < n) (h : growproc n m = .ok (r, m')) : GrowExact n m r m' := by
  have hsz := hs.size
  simp only [kernbase] at hsz
  have hadd : toU32 (m.sz + n) = (m.sz + n).toNat := by
    have := hn.2
    unfold toU32
    omega
  unfold growproc at h
  rw [if_pos hpos, hadd] at h
  simp only [bind_eq_ok] at h
  obtain ⟨⟨sz, d, ph⟩, halloc, h⟩ := h
  have hspec := allocuvm_spec halloc
  dsimp only at h
  split at h
  · -- no memory, or no addresses
    rename_i hzero
    cases h
    refine ⟨fun h => (by cases h), fun _ => ?_⟩
    rcases hspec with ⟨_, _, rfl, rfl⟩ | ⟨_, hless, _⟩ | ⟨hlt, hle, hgrown⟩
    · exact ⟨rfl, fun _ _ => rfl, fun _ _ _ => rfl, rfl, rfl⟩
    · omega
    · rw [hzero] at hgrown
      have hsame := hgrown.pageFrame_failed hmap.covers
      refine ⟨rfl, hsame, fun page hpage hm => ?_, rfl, rfl⟩
      apply (hgrown.content hs hlt).2
      · exact PgDir.userMapped_of_pageFrame hpage hm
      · exact PgDir.userMapped_of_pageFrame hpage ((hsame page hpage).symm ▸ hm)
  · rename_i hne
    simp only [bind_eq_ok] at h
    obtain ⟨⟨r₁, m₁⟩, henc, h⟩ := h
    cases h
    refine ⟨fun _ => ?_, fun h => (by cases h)⟩
    rcases hspec with ⟨_, h0, _⟩ | ⟨_, hless, _⟩ | ⟨hlt, hle, hgrown⟩
    · exact absurd h0 hne
    · omega
    · have hrec : Recoded (m.withVm d ph) m₁ := mencrypt_recoded (hgrown.content hs hlt).1 henc
      have hnew := allocuvm_mapped hle hlt halloc hne
      cases hgrown with
      | failed _ _ _ => exact absurd rfl hne
      | done hrun =>
          have hout : ∀ page, ¬ Within (pgRoundUp m.sz) (m.sz + n).toNat page →
              m₁.pgdir.pageFrame page = m.pgdir.pageFrame page := by
            intro page hin
            rw [hrec.pageFrame]
            exact grown_pageFrame hrun hin
          have hup := pgRoundUp_aligned m.sz
          have hle' := le_pgRoundUp hs.size
          refine ⟨by dsimp only; omega, fun page hpage => ?_, fun page hpage hm _ => ?_⟩
          · rw [page_lt_pgRoundUp (by simp only [kernbase] at hlt ⊢; omega)]
            dsimp only
            by_cases hin : Within (pgRoundUp m.sz) (m.sz + n).toNat page
            · have hmapped : (m₁.pgdir.pageFrame page).isSome := by
                rw [hrec.pageFrame, PgDir.pageFrame_isSome]
                obtain ⟨ht, hflags⟩ := hnew page hin
                refine ⟨ht, ?_⟩
                change (d.pte page).toFlags.p || (d.pte page).toFlags.e
                rw [hflags]
                rfl
              exact ⟨fun _ => hin.2, fun _ => hmapped⟩
            · rw [hout page hin, hmap page hpage]
              unfold Within at hin
              have := @page_lt_pgRoundUp _ page hs.size
              omega
          · apply hout page
            intro hin
            have := (hmap page hpage).mp hm
            exact absurd hin.1 (by omega)

/-! ## Shrinking -/

theorem removeLoop_recoded {sz k page : Nat} (hs : Separate m)
    (h : removeLoop sz k page m = .ok m') : Recoded m m' := by
  induction k generalizing m page with
  | zero =>
      rw [removeLoop] at h
      split at h
      · cases h
      · cases h
        exact .refl _
  | succ k ih =>
      rw [removeLoop] at h
      split at h
      · rw [bind_eq_ok] at h
        obtain ⟨m₁, hrem, h⟩ := h
        have hfirst := removeQueue_recoded hs hrem
        exact hfirst.trans (ih (hfirst.separate hs) h)
      · cases h
        exact .refl _

instance (lo hi page : Nat) : Decidable (Within lo hi page) :=
  inferInstanceAs (Decidable (_ ∧ _))

/-- What `deallocuvm` leaves when it takes pages down. -/
theorem shrunk_pageFrame {oldsz newsz : Nat} {d d' : PgDir} {ph ph' : Phys}
    (hrun : VmRun (Unmapping (pgRoundUp newsz) oldsz) ⟨d, ph, []⟩ ⟨d', ph', []⟩)
    (hdone : ∀ page, Within (pgRoundUp newsz) oldsz page → d'.hasTable page →
      (d'.pte page).mapped = false) (page : Nat) :
    d'.pageFrame page = if Within (pgRoundUp newsz) oldsz page then none else d.pageFrame page := by
  split
  · rename_i hin
    exact PgDir.pageFrame_none (hdone page hin)
  · rename_i hin
    apply hrun.pageFrame
    intro e ⟨q, he, hq⟩ hw
    subst he
    have heq : q = page := hw
    exact hin (heq ▸ hq)

/-- Taking pages down leaves the others separate. -/
theorem Separate.unmapped (hs : Separate m) {lo hi : Nat} (hhi : hi ≤ kernbase) {d : PgDir}
    {ph : Phys} (hrun : VmRun (Unmapping lo hi) ⟨m.pgdir, m.phys, []⟩ ⟨d, ph, []⟩) :
    Separate (m.withVm d ph) := by
  apply hs.of_apart
  apply hrun.apart _ _ hs.apart
  · intro page pte ⟨q, he, _⟩
    cases he
  · intro page ⟨q, he, hq⟩
    cases he
    exact hq.lt_kernPage hhi

/-- The entry of `deallocuvm` in `growproc`. -/
theorem growproc_dealloc {n r : Int} (hneg : n < 0) (h : growproc n m = .ok (r, m')) :
    ∃ sz d ph, deallocuvm m.sz (toU32 (m.sz + n)) m.pgdir m.phys = .ok (sz, d, ph) ∧
      ((sz = 0 ∧ r = -1 ∧ m' = m.withVm d ph) ∨
        (sz ≠ 0 ∧ r = 0 ∧ ∃ k page m₁, removeLoop sz k page (m.withVm d ph) = .ok m₁ ∧
          m' = { m₁ with sz := sz })) := by
  unfold growproc at h
  rw [if_neg (by omega), if_pos hneg] at h
  simp only [bind_eq_ok] at h
  obtain ⟨⟨sz, d, ph⟩, hde, h⟩ := h
  refine ⟨sz, d, ph, hde, ?_⟩
  dsimp only at h
  split at h
  · rename_i hzero
    cases h
    exact .inl ⟨hzero, rfl, rfl⟩
  · rename_i hne
    simp only [bind_eq_ok] at h
    obtain ⟨m₁, hloop, h⟩ := h
    cases h
    exact .inr ⟨hne, rfl, _, _, m₁, hloop, rfl⟩

/-- `growproc` that gives up part of the memory. -/
theorem growproc_shrinks {n r : Int} (hs : Separate m) (hmap : m.HeapMapped) (hneg : n < 0)
    (hpart : -(m.sz : Int) < n) (h : growproc n m = .ok (r, m')) : GrowExact n m r m' := by
  have hsz := hs.size
  simp only [kernbase] at hsz
  obtain ⟨sz, d, ph, hde, hend⟩ := growproc_dealloc hneg h
  have hadd : toU32 (m.sz + n) = (m.sz + n).toNat := by
    unfold toU32
    omega
  rw [hadd] at hde
  rcases deallocuvm_spec hs.size [] hde with ⟨hge, _⟩ | ⟨hlt, rfl, hrun, hdone⟩
  · omega
  · rcases hend with ⟨hzero, _⟩ | ⟨hne, rfl, k, page, m₁, hloop, rfl⟩
    · omega
    · have hrec := removeLoop_recoded (hs.unmapped hs.size hrun) hloop
      have hframe : ∀ q, m₁.pgdir.pageFrame q =
          if Within (pgRoundUp (m.sz + n).toNat) m.sz q then none else m.pgdir.pageFrame q := by
        intro q
        rw [hrec.pageFrame]
        exact shrunk_pageFrame hrun hdone q
      have hup : (m.sz + n).toNat ≤ kernbase := by
        simp only [kernbase]
        omega
      refine ⟨fun _ => ⟨by dsimp only; omega, fun q hq => ?_, fun q _ _ hq => ?_⟩,
        fun h => (by cases h)⟩
      · dsimp only
        rw [hframe]
        have hold := @page_lt_pgRoundUp _ q hs.size
        have hnew := @page_lt_pgRoundUp _ q hup
        split
        · rename_i hin
          have := hin.1
          simp only [Option.isSome_none, Bool.false_eq_true, false_iff]
          omega
        · rename_i hin
          rw [hmap q hq]
          unfold Within at hin
          omega
      · dsimp only at hq ⊢
        rw [hframe] at hq ⊢
        split
        · rename_i hin
          rw [if_pos hin] at hq
          cases hq
        · rfl

/-! ## Giving up everything, or more -/

/-- To give up all memory takes the pages down and fails. -/
theorem growproc_all {n r : Int} (hs : Separate m) (hmap : m.HeapMapped) (hsz : 0 < m.sz)
    (hall : n = -(m.sz : Int)) (h : growproc n m = .ok (r, m')) : ¬ GrowExact n m r m' := by
  intro hexact
  obtain ⟨sz, d, ph, hde, hend⟩ := growproc_dealloc (by omega) h
  have hadd : toU32 (m.sz + n) = 0 := by
    unfold toU32
    omega
  rw [hadd] at hde
  rcases deallocuvm_spec hs.size [] hde with ⟨hge, _⟩ | ⟨_, rfl, hrun, hdone⟩
  · omega
  · rcases hend with ⟨_, hr, rfl⟩ | ⟨hne, _⟩
    · obtain ⟨_, hsame, _⟩ := hexact.refused hr
      have hin : Within (pgRoundUp 0) m.sz 0 := ⟨by decide, by omega⟩
      have hgone := shrunk_pageFrame hrun hdone 0
      rw [if_pos hin] at hgone
      have hthere : (m.pgdir.pageFrame 0).isSome := by
        rw [hmap 0 (by decide), page_lt_pgRoundUp hs.size]
        omega
      rw [← hsame 0 (by decide)] at hthere
      change (d.pageFrame 0).isSome at hthere
      rw [hgone] at hthere
      cases hthere
    · exact absurd rfl hne

/-- To give up more than there is does nothing and succeeds. -/
theorem growproc_more {n r : Int} (hs : Separate m) (hn : IsInt n) (hsz : 0 < m.sz)
    (hmore : n < -(m.sz : Int)) (h : growproc n m = .ok (r, m')) : ¬ GrowExact n m r m' := by
  intro hexact
  have hle := hs.size
  simp only [kernbase] at hle
  obtain ⟨sz, d, ph, hde, hend⟩ := growproc_dealloc (by omega) h
  have hadd : m.sz ≤ toU32 (m.sz + n) := by
    have := hn.1
    unfold toU32
    omega
  rcases deallocuvm_spec hs.size [] hde with ⟨_, rfl, rfl, rfl⟩ | ⟨hlt, _⟩
  · rcases hend with ⟨hzero, _⟩ | ⟨_, hr, k, page, m₁, _, rfl⟩
    · omega
    · obtain ⟨hnew, _⟩ := hexact.done hr
      dsimp only at hnew
      omega
  · omega

/-- A process without memory has none to give up. -/
theorem growproc_empty {n r : Int} (hneg : n < 0) (hsz : m.sz = 0)
    (h : growproc n m = .ok (r, m')) : GrowExact n m r m' := by
  obtain ⟨sz, d, ph, hde, hend⟩ := growproc_dealloc hneg h
  rw [hsz] at hde
  unfold deallocuvm at hde
  rw [if_pos (Nat.zero_le _)] at hde
  cases hde
  rcases hend with ⟨_, rfl, rfl⟩ | ⟨hne, _⟩
  · exact ⟨fun h => (by cases h), fun _ => ⟨rfl, fun _ _ => rfl, fun _ _ _ => rfl, rfl, rfl⟩⟩
  · exact absurd rfl hne

/-- **Exact or no effect**: `growproc` does what it returns exactly when it does not
give up all memory or more, unless there is none. -/
theorem growproc_exact_iff {n r : Int} (hs : Separate m) (hmap : m.HeapMapped) (hn : IsInt n)
    (h : growproc n m = .ok (r, m')) : GrowExact n m r m' ↔ m.sz = 0 ∨ -(m.sz : Int) < n := by
  constructor
  · intro hexact
    by_contra hno
    rw [not_or] at hno
    rcases Int.lt_or_eq_of_le (Int.not_lt.mp hno.2) with hmore | hall
    · exact growproc_more hs hn (by omega) hmore h hexact
    · exact growproc_all hs hmap (by omega) hall h hexact
  · intro hok
    by_cases hpos : 0 < n
    · exact growproc_grows hs hmap hn hpos h
    · by_cases hneg : n < 0
      · by_cases hzero : m.sz = 0
        · exact growproc_empty hneg hzero h
        · exact growproc_shrinks hs hmap hneg (hok.resolve_left hzero) h
      · have hn0 : n = 0 := by omega
        subst hn0
        cases h
        exact ⟨fun _ => ⟨by omega, hmap, fun _ _ _ _ => rfl⟩, fun h => (by cases h)⟩

/-- A process with one page. -/
def heapPage : Machine where
  phys := .zeroed []
  pgdir := ⟨1024, fun i => if i = 0 then some 1025 else none,
    fun page => if page = 0 then ⟨userFlags, 1026⟩ else Pte.zero⟩
  sz := 4096
  clockQueue := fun _ => ⟨noVpn, none⟩
  clockIndex := -1
  nameTail := 0

theorem heapPage_pte {page : Nat} (h : (heapPage.pgdir.pte page).mapped) : page = 0 := by
  by_contra hne
  rw [show heapPage.pgdir.pte page = Pte.zero from if_neg hne] at h
  cases h

theorem separate_heapPage : Separate heapPage := by
  refine ⟨by decide, fun p q hp hq _ => ?_, List.nodup_nil, fun p _ h => (by cases h)⟩
  rw [heapPage_pte hp.mapped, heapPage_pte hq.mapped]

theorem heapMapped_heapPage : heapPage.HeapMapped := by
  intro page _
  rw [page_lt_pgRoundUp (by decide), PgDir.pageFrame_isSome]
  constructor
  · intro h
    rw [heapPage_pte h.2]
    decide
  · intro h
    have hzero : page = 0 := by
      change 4096 * page < 4096 at h
      omega
    rw [hzero]
    exact ⟨rfl, rfl⟩

theorem heapPage_sbrk_back : growproc (-1) heapPage = .ok (0, { heapPage with sz := 4095 }) := by
  have hnew : toU32 ((heapPage.sz : Int) + -1) = 4095 := by decide
  have hde : deallocuvm heapPage.sz 4095 heapPage.pgdir heapPage.phys =
      .ok (4095, heapPage.pgdir, heapPage.phys) := by
    unfold deallocuvm
    rw [if_neg (by decide), show pgRoundUp 4095 = 4096 by decide, deallocLoop,
      if_neg (by decide)]
    rfl
  have hpage : pgRoundDown (toU32 ((heapPage.sz : Int) - 1)) = 0 := by decide
  unfold growproc
  rw [if_neg (by decide), if_pos (by decide), hnew, hde]
  simp only [ok_bind, hpage]
  rfl

/-- `sbrk(-1)` keeps the page. -/
theorem growproc_exact_iff_heapPage :
    GrowExact (-1) heapPage 0 { heapPage with sz := 4095 } := by
  apply (growproc_exact_iff separate_heapPage heapMapped_heapPage ⟨by decide, by decide⟩
    heapPage_sbrk_back).mpr
  exact .inr (by decide)

/-- `sbrk(-4096)` fails, and the page is gone. -/
theorem growproc_takes_all : Separate heapPage ∧ heapPage.HeapMapped ∧
    ∃ m', growproc (-4096) heapPage = .ok (-1, m') ∧
      (heapPage.pgdir.pageFrame 0).isSome ∧ m'.pgdir.pageFrame 0 = none := by
  have hnew : toU32 ((heapPage.sz : Int) + -4096) = 0 := by decide
  have hde : ∃ ph, deallocuvm heapPage.sz 0 heapPage.pgdir heapPage.phys =
      .ok (0, heapPage.pgdir.set 0 Pte.zero, ph) := by
    unfold deallocuvm
    rw [if_neg (by decide), show pgRoundUp 0 = 0 by decide]
    exact ⟨_, rfl⟩
  obtain ⟨ph, hde⟩ := hde
  refine ⟨separate_heapPage, heapMapped_heapPage,
    heapPage.withVm (heapPage.pgdir.set 0 Pte.zero) ph, ?_, rfl, ?_⟩
  · unfold growproc
    rw [if_neg (by decide), if_pos (by decide), hnew, hde]
    rfl
  · exact PgDir.pageFrame_none fun _ => rfl

end CS537.Pager
