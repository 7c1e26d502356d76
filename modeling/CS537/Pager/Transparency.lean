import CS537.Pager.Kernel
import CS537.Pager.PageRuns

/-!
# Pager — encryption is transparent

What a user page holds, whether it is encrypted or not, and that the pager never
changes it. Every change to a page in place flips its bytes and its `PTE_E` bit
together, and leaves the other pages alone because they have other frames
(`Recoded`); whatever else the pager writes is a frame it has just taken from the
allocator, which no page has.
-/

namespace CS537.Pager

open MachineInt

/-! ## Logical content -/

/-- A mapped page of user memory. -/
structure PgDir.UserMapped (d : PgDir) (page : Nat) : Prop where
  table : d.hasTable page
  mapped : (d.pte page).mapped
  user : page < kernPage ∨ (d.pte page).u

/-- The bytes a process sees in a page: those of its frame, xored with `0xFF` while
the page is encrypted. -/
def content (d : PgDir) (ph : Phys) (page : Nat) : Nat → UInt8 :=
  if (d.pte page).e then fun i => ph.mem (d.pte page).frame i ^^^ 255
  else ph.mem (d.pte page).frame

/-- Distinct user pages have distinct frames, and no free frame is one of them. The
process is no larger than `allocuvm` makes one. -/
structure Separate (m : Machine) : Prop where
  size : m.sz ≤ kernbase
  distinct : ∀ p q, m.pgdir.UserMapped p → m.pgdir.UserMapped q →
    (m.pgdir.pte p).frame = (m.pgdir.pte q).frame → p = q
  nodup : m.phys.freelist.Nodup
  free : ∀ p, m.pgdir.UserMapped p → (m.pgdir.pte p).frame ∉ m.phys.freelist

/-- The pages that stay mapped keep their content. -/
def SameContent (m m' : Machine) : Prop :=
  ∀ page, m.pgdir.UserMapped page → m'.pgdir.UserMapped page →
    content m'.pgdir m'.phys page = content m.pgdir m.phys page

/-! ## Changes in place -/

/-- The pages and frames of `m'` are those of `m`, with the same contents. -/
structure Recoded (m m' : Machine) : Prop where
  size : m'.sz = m.sz
  frame : m'.pgdir.frame = m.pgdir.frame
  table : m'.pgdir.table = m.pgdir.table
  free : m'.phys.freelist = m.phys.freelist
  pte : ∀ page, (m'.pgdir.pte page).frame = (m.pgdir.pte page).frame
    ∧ (m'.pgdir.pte page).u = (m.pgdir.pte page).u
    ∧ (m'.pgdir.pte page).mapped = (m.pgdir.pte page).mapped
  content : ∀ page, m.pgdir.UserMapped page →
    content m'.pgdir m'.phys page = content m.pgdir m.phys page

variable {m m' m'' : Machine}

theorem Recoded.userMapped (h : Recoded m m') {page : Nat} :
    m'.pgdir.UserMapped page ↔ m.pgdir.UserMapped page := by
  obtain ⟨_, hu, hm⟩ := h.pte page
  have ht : m'.pgdir.hasTable page = m.pgdir.hasTable page := by
    rw [PgDir.hasTable, PgDir.hasTable, h.table]
  constructor
  · intro hpage
    obtain ⟨h1, h2, h3⟩ := hpage
    exact ⟨ht ▸ h1, hm ▸ h2, hu ▸ h3⟩
  · intro hpage
    obtain ⟨h1, h2, h3⟩ := hpage
    exact ⟨by rwa [ht], by rwa [hm], by rwa [hu]⟩

theorem Recoded.separate (h : Recoded m m') (hs : Separate m) : Separate m' where
  size := by
    rw [h.size]
    exact hs.size
  distinct := by
    intro p q hp hq heq
    rw [(h.pte p).1, (h.pte q).1] at heq
    exact hs.distinct p q (h.userMapped.mp hp) (h.userMapped.mp hq) heq
  nodup := by
    rw [h.free]
    exact hs.nodup
  free := by
    intro p hp
    rw [(h.pte p).1, h.free]
    exact hs.free p (h.userMapped.mp hp)

theorem Recoded.refl (m : Machine) : Recoded m m :=
  ⟨rfl, rfl, rfl, rfl, fun _ => ⟨rfl, rfl, rfl⟩, fun _ _ => rfl⟩

theorem Recoded.trans (h : Recoded m m') (h' : Recoded m' m'') : Recoded m m'' where
  size := h'.size.trans h.size
  frame := h'.frame.trans h.frame
  table := h'.table.trans h.table
  free := h'.free.trans h.free
  pte := by
    intro page
    obtain ⟨h1, h2, h3⟩ := h.pte page
    obtain ⟨h1', h2', h3'⟩ := h'.pte page
    exact ⟨h1'.trans h1, h2'.trans h2, h3'.trans h3⟩
  content := by
    intro page hp
    rw [h'.content page (h.userMapped.mpr hp), h.content page hp]

theorem Recoded.sameContent (h : Recoded m m') : SameContent m m' :=
  fun page hp _ => h.content page hp

theorem xor_xor (b : UInt8) : b ^^^ 255 ^^^ 255 = b := by
  rw [UInt8.xor_assoc, UInt8.xor_self, UInt8.xor_zero]

/-- Flipping the bytes of a page together with its `PTE_E` bit. -/
theorem Recoded.toggle (hs : Separate m) {page : Nat} (hp : m.pgdir.UserMapped page)
    {pte : Pte} (hf : pte.frame = (m.pgdir.pte page).frame)
    (hu : pte.u = (m.pgdir.pte page).u) (hm : pte.mapped = (m.pgdir.pte page).mapped)
    (he : pte.e = !(m.pgdir.pte page).e) :
    Recoded m ((m.setPte page pte).flip (m.pgdir.pte page).frame) where
  size := rfl
  frame := rfl
  table := rfl
  free := rfl
  pte := by
    intro q
    simp only [Machine.flip_pgdir, Machine.setPte_pgdir, PgDir.set_pte]
    split
    · rename_i hq
      rw [hq]
      exact ⟨hf, hu, hm⟩
    · exact ⟨rfl, rfl, rfl⟩
  content := by
    intro q hq
    unfold Pager.content
    simp only [Machine.flip_pgdir, Machine.setPte_pgdir, PgDir.set_pte, Machine.flip_phys,
      Machine.setPte_phys, Phys.flip_mem]
    by_cases heq : q = page
    · subst heq
      rw [if_pos rfl, hf, if_pos rfl, he]
      cases (m.pgdir.pte q).e with
      | false => simp [xor_xor]
      | true => simp
    · have hne : (m.pgdir.pte q).frame ≠ (m.pgdir.pte page).frame :=
        fun hfr => heq (hs.distinct q page hq hp hfr)
      rw [if_neg heq, if_neg hne]

/-- Changing the reference bit of a page. -/
theorem Recoded.setRef (m : Machine) (page : Nat) (b : Bool) :
    Recoded m (m.setPte page { m.pgdir.pte page with a := b }) where
  size := rfl
  frame := rfl
  table := rfl
  free := rfl
  pte := by
    intro q
    simp only [Machine.setPte_pgdir, PgDir.set_pte]
    split
    · rename_i hq
      rw [hq]
      exact ⟨rfl, rfl, rfl⟩
    · exact ⟨rfl, rfl, rfl⟩
  content := by
    intro q _
    unfold Pager.content
    simp only [Machine.setPte_pgdir, PgDir.set_pte, Machine.setPte_phys]
    split
    · rename_i hq
      rw [hq]
    · rfl

/-- The queue is no part of it. -/
theorem Recoded.of_queue (hp : m'.phys = m.phys) (hd : m'.pgdir = m.pgdir)
    (hs : m'.sz = m.sz) : Recoded m m' := by
  refine ⟨hs, by rw [hd], by rw [hd], by rw [hp], ?_, ?_⟩
  · intro page
    rw [hd]
    exact ⟨rfl, rfl, rfl⟩
  · intro page _
    rw [hd, hp]

theorem Recoded.encryptAt (hs : Separate m) {page : Nat} (ht : m.pgdir.hasTable page) :
    Recoded m (m.encryptAt page) := by
  unfold Machine.encryptAt
  split
  · rename_i hc
    simp only [Pte.clear, Bool.and_eq_true, Bool.not_eq_true'] at hc
    obtain ⟨⟨hm, hu⟩, he⟩ := hc
    apply Recoded.toggle hs ⟨ht, hm, .inr hu⟩
    · rfl
    · rfl
    · rw [hm]
      simp [Pte.mapped]
    · simp [he]
  · exact .refl m

theorem Recoded.encryptAll (hs : Separate m) {pages : List Nat}
    (ht : ∀ page ∈ pages, m.pgdir.hasTable page) : Recoded m (m.encryptAll pages) := by
  induction pages generalizing m with
  | nil => exact .refl m
  | cons page pages ih =>
      rw [List.forall_mem_cons] at ht
      have hfirst := Recoded.encryptAt hs ht.1
      rw [Machine.encryptAll_cons]
      refine hfirst.trans (ih (hfirst.separate hs) ?_)
      intro q hq
      simpa using ht.2 q hq

theorem Recoded.decryptAt (hs : Separate m) {page : Nat} (ht : m.pgdir.hasTable page)
    (h : (m.pgdir.pte page).sealed) : Recoded m (m.decryptAt page) := by
  simp only [Pte.sealed, Bool.and_eq_true, Bool.not_eq_true'] at h
  obtain ⟨⟨he, hp⟩, hu⟩ := h
  have hm : (m.pgdir.pte page).mapped = true := by simp [Pte.mapped, he]
  apply Recoded.toggle hs ⟨ht, hm, .inr hu⟩
  · rfl
  · rfl
  · rw [hm]
    simp [Pte.mapped]
  · simp [he]

/-! ## `mencrypt`, `mdecrypt` and `removeQueue` -/

theorem mencrypt_recoded {va : Nat} {len r : Int} (hs : Separate m)
    (h : mencrypt va len m = .ok (r, m')) : Recoded m m' := by
  obtain ⟨ht, rfl⟩ := mencrypt_spec h
  exact .encryptAll hs ht

/-- `insertQueue` encrypts and clears reference bits in any queue, be a page in it
twice. -/
theorem insertLoop_recoded {vpn slots : Nat} {pte : Option PtePtr} (hs : Separate m)
    (h : insertLoop vpn pte slots m = .ok m') : Recoded m m' := by
  induction slots generalizing m with
  | zero => cases h
  | succ slots ih =>
      simp only [insertLoop, bind_eq_ok] at h
      obtain ⟨i, _, h⟩ := h
      -- a step of the index
      generalize hm₁ : m.setIndex ((m.clockIndex + 1).tmod clocksize) = m₁ at h
      have hidx : Recoded m m₁ := by
        rw [← hm₁]
        exact .of_queue rfl rfl rfl
      have hs₁ := hidx.separate hs
      split at h
      · cases h
        exact hidx.trans (.of_queue rfl rfl rfl)
      · simp only [bind_eq_ok] at h
        obtain ⟨page, _, h⟩ := h
        split at h
        · simp only [bind_eq_ok] at h
          obtain ⟨⟨r, m₂⟩, henc, h⟩ := h
          cases h
          exact hidx.trans ((mencrypt_recoded hs₁ henc).trans (.of_queue rfl rfl rfl))
        · have hset := Recoded.setRef m₁ page false
          exact hidx.trans (hset.trans (ih (hset.separate hs₁) h))

theorem mdecrypt_recoded {slots depth va : Nat} {r : Int} (hs : Separate m)
    (h : mdecrypt slots depth va m = .ok (r, m')) : Recoded m m' := by
  induction depth generalizing m m' va r with
  | zero =>
      obtain ⟨_, ⟨_, _, rfl⟩ | ⟨_, _, hins⟩⟩ := mdecryptWith_spec h
      · exact .refl _
      · cases hins
  | succ depth ih =>
      obtain ⟨ht, ⟨_, _, rfl⟩ | ⟨hsealed, _, hins⟩⟩ := mdecryptWith_spec h
      · exact .refl _
      · have hdec := Recoded.decryptAt hs ht hsealed
        have hs₁ := hdec.separate hs
        simp only [insertQueue, bind_eq_ok] at hins
        obtain ⟨m₂, hloop, ⟨r', m₃⟩, hrec, hok⟩ := hins
        cases hok
        have hl := insertLoop_recoded hs₁ hloop
        exact hdec.trans (hl.trans (ih (hl.separate hs₁) hrec))

theorem shiftLoop_recoded {s : Int} {fuel i : Nat} (h : shiftLoop s fuel i m = .ok m') :
    Recoded m m' := by
  induction fuel generalizing m i with
  | zero =>
      rw [shiftLoop] at h
      split at h
      · cases h
        exact .refl _
      · cases h
  | succ fuel ih =>
      rw [shiftLoop] at h
      split at h
      · cases h
        exact .refl _
      · have hset : Recoded m (m.setSlot i (m.clockQueue ((i + 1) % clocksize))) :=
          .of_queue rfl rfl rfl
        exact hset.trans (ih h)

theorem removeQueue_recoded {vpn : Nat} (hs : Separate m)
    (h : removeQueue vpn m = .ok m') : Recoded m m' := by
  simp only [removeQueue, bind_eq_ok] at h
  obtain ⟨j, _, h⟩ := h
  split at h
  · cases h
    exact .refl _
  · simp only [bind_eq_ok] at h
    obtain ⟨i, _, ⟨r, m₁⟩, henc, m₂, hshift, s, _, h⟩ := h
    cases h
    have h₁ := mencrypt_recoded hs henc
    exact h₁.trans ((shiftLoop_recoded hshift).trans (.of_queue rfl rfl rfl))

/-! ## Growing -/

/-- Distinct user pages, frames taken and free frames are all apart. -/
structure Vm.Apart (s : Vm) : Prop where
  distinct : ∀ p q, s.dir.UserMapped p → s.dir.UserMapped q →
    (s.dir.pte p).frame = (s.dir.pte q).frame → p = q
  nodup : (s.held ++ s.phys.freelist).Nodup
  free : ∀ p, s.dir.UserMapped p → (s.dir.pte p).frame ∉ s.held ++ s.phys.freelist

theorem Separate.apart (h : Separate m) : Vm.Apart ⟨m.pgdir, m.phys, []⟩ :=
  ⟨h.distinct, h.nodup, h.free⟩

/-- Another entry for one page. -/
theorem PgDir.UserMapped.of_set {d : PgDir} {page q : Nat} {pte : Pte} (hne : q ≠ page)
    (h : (d.set page pte).UserMapped q) : d.UserMapped q := by
  obtain ⟨ht, hm, hu⟩ := h
  rw [PgDir.set_pte, if_neg hne] at hm hu
  exact ⟨ht, hm, hu⟩

/-- A new page table maps nothing. -/
theorem PgDir.UserMapped.of_newTable {d : PgDir} {page f q : Nat}
    (h : (d.newTable page f).UserMapped q) :
    d.UserMapped q ∧ (d.newTable page f).pte q = d.pte q := by
  obtain ⟨ht, hm, hu⟩ := h
  rw [PgDir.newTable_pte] at hm hu ⊢
  by_cases hq : pdx q = pdx page
  · rw [if_pos hq] at hm
    cases hm
  · rw [if_neg hq] at hm hu ⊢
    rw [PgDir.newTable_hasTable] at ht
    exact ⟨⟨by simpa [hq] using ht, hm, hu⟩, rfl⟩

/-- No step on a directory gives two pages one frame. -/
theorem VmStep.apart {s t : Vm} {e : VmEvent} (hk : ∀ page pte, e ≠ .kmap page pte)
    (hun : ∀ page, e = .unmap page → page < kernPage) (h : VmStep s e t)
    (hs : s.Apart) : t.Apart := by
  obtain ⟨hdis, hnd, hfr⟩ := hs
  cases h with
  | @table d ph held rest f page _ hfree =>
      simp only [hfree] at hnd hfr
      have hsub : (held ++ rest).Sublist (held ++ f :: rest) :=
        List.Sublist.append_left (List.sublist_cons_self _ _) _
      refine ⟨?_, hnd.sublist hsub, ?_⟩
      · intro p q hp hq heq
        obtain ⟨hp', hpe⟩ := hp.of_newTable
        obtain ⟨hq', hqe⟩ := hq.of_newTable
        simp only [hpe, hqe] at heq
        exact hdis p q hp' hq' heq
      · intro p hp hmem
        obtain ⟨hp', hpe⟩ := hp.of_newTable
        simp only [hpe] at hmem
        exact hfr p hp' (hsub.subset hmem)
  | @alloc d ph held rest f hfree =>
      simp only [hfree] at hnd hfr
      have hperm : (held ++ f :: rest).Perm (f :: held ++ rest) := List.perm_middle
      refine ⟨hdis, hperm.nodup_iff.mp hnd, ?_⟩
      intro p hp hmem
      exact hfr p hp (hperm.mem_iff.mpr hmem)
  | fill _ _ => exact ⟨hdis, hnd, hfr⟩
  | @map d ph held page pte _ _ hf =>
      have hperm : (held ++ ph.freelist).Perm (pte.frame :: (held.erase pte.frame ++ ph.freelist)) :=
        (List.perm_cons_erase hf).append_right _
      have hnd' := hperm.nodup_iff.mp hnd
      rw [List.nodup_cons] at hnd'
      have hother : ∀ q, q ≠ page → (d.set page pte).UserMapped q →
          (d.pte q).frame ≠ pte.frame := by
        intro q hne hq heq
        apply hfr q (hq.of_set hne)
        rw [heq]
        exact List.mem_append_left _ hf
      refine ⟨?_, hnd'.2, ?_⟩
      · intro p q hp hq heq
        simp only [PgDir.set_pte] at heq
        by_cases hpp : p = page
        · by_cases hqp : q = page
          · rw [hpp, hqp]
          · rw [if_pos hpp, if_neg hqp] at heq
            exact absurd heq.symm (hother q hqp hq)
        · by_cases hqp : q = page
          · rw [if_neg hpp, if_pos hqp] at heq
            exact absurd heq (hother p hpp hp)
          · rw [if_neg hpp, if_neg hqp] at heq
            exact hdis p q (hp.of_set hpp) (hq.of_set hqp) heq
      · intro p hp hmem
        simp only [PgDir.set_pte] at hmem
        by_cases hpp : p = page
        · rw [if_pos hpp] at hmem
          exact hnd'.1 hmem
        · rw [if_neg hpp] at hmem
          exact hfr p (hp.of_set hpp) (hperm.mem_iff.mpr (List.mem_cons_of_mem _ hmem))
  | kmap _ _ _ _ => exact absurd rfl (hk _ _)
  | @unmap d ph ph' held page ht hm hfree =>
      have hmap : d.UserMapped page := ⟨ht, hm, .inl (hun page rfl)⟩
      have hgone : ¬ (d.set page Pte.zero).UserMapped page := by
        intro hpage
        obtain ⟨_, hm', _⟩ := hpage
        rw [PgDir.set_pte, if_pos rfl] at hm'
        cases hm'
      have hperm : (held ++ (d.pte page).frame :: ph.freelist).Perm
          ((d.pte page).frame :: (held ++ ph.freelist)) := List.perm_middle
      refine ⟨?_, ?_, ?_⟩
      · intro p q hp hq heq
        have hpp : p ≠ page := fun h => hgone (h ▸ hp)
        have hqp : q ≠ page := fun h => hgone (h ▸ hq)
        simp only [PgDir.set_pte, if_neg hpp, if_neg hqp] at heq
        exact hdis p q (hp.of_set hpp) (hq.of_set hqp) heq
      · rw [kfree_freelist hfree, hperm.nodup_iff, List.nodup_cons]
        exact ⟨hfr page hmap, hnd⟩
      · intro p hp hmem
        have hpp : p ≠ page := fun h => hgone (h ▸ hp)
        simp only [PgDir.set_pte, if_neg hpp] at hmem
        rw [kfree_freelist hfree, hperm.mem_iff, List.mem_cons] at hmem
        rcases hmem with heq | hmem
        · exact hpp (hdis p page (hp.of_set hpp) hmap heq)
        · exact hfr p (hp.of_set hpp) hmem
  | @release d ph ph' held f hf hfree =>
      have hperm : (held.erase f ++ f :: ph.freelist).Perm (held ++ ph.freelist) :=
        List.perm_middle.trans ((List.perm_cons_erase hf).symm.append_right _)
      refine ⟨hdis, ?_, ?_⟩
      · rw [kfree_freelist hfree, hperm.nodup_iff]
        exact hnd
      · intro p hp hmem
        rw [kfree_freelist hfree, hperm.mem_iff] at hmem
        exact hfr p hp hmem

theorem VmRun.apart {ok : VmEvent → Prop} {s t : Vm} (hk : ∀ page pte, ¬ ok (.kmap page pte))
    (hun : ∀ page, ok (.unmap page) → page < kernPage) (h : VmRun ok s t)
    (hs : s.Apart) : t.Apart := by
  apply h.invariant (I := Vm.Apart) _ hs
  intro a e b hok ha hst
  apply hst.apart _ _ ha
  · intro page pte he
    exact hk page pte (he ▸ hok)
  · intro page he
    exact hun page (he ▸ hok)

/-- Steps that unmap nothing keep every page that is mapped, its frame and its
bytes. -/
theorem VmRun.keeps {ok : VmEvent → Prop} {s t : Vm} (hun : ∀ page, ¬ ok (.unmap page))
    (h : VmRun ok s t) (hs : s.Apart) {page : Nat} (hp : s.dir.UserMapped page) :
    t.dir.pte page = s.dir.pte page
      ∧ t.phys.mem (s.dir.pte page).frame = s.phys.mem (s.dir.pte page).frame := by
  constructor
  · refine (h.invariant (I := fun t => t.dir.hasTable page ∧ t.dir.pte page = s.dir.pte page)
      ?_ ⟨hp.table, rfl⟩).2
    intro a e b hok ⟨ht, hpte⟩ hst
    cases hst with
    | @table d ph held rest f q hq _ =>
        have hne : pdx page ≠ pdx q := by
          intro heq
          rw [PgDir.hasTable_congr heq] at ht
          change d.hasTable q at ht
          rw [hq] at ht
          cases ht
        refine ⟨?_, ?_⟩
        · rw [PgDir.newTable_hasTable, ht, Bool.or_true]
        · rw [PgDir.newTable_pte, if_neg hne]
          exact hpte
    | alloc _ => exact ⟨ht, hpte⟩
    | fill _ _ => exact ⟨ht, hpte⟩
    | @map d ph held q pte _ hm _ =>
        have hne : page ≠ q := by
          intro heq
          have := hp.mapped
          rw [← hpte, heq] at this
          change (d.pte q).mapped at this
          rw [hm] at this
          cases this
        exact ⟨ht, by rw [PgDir.set_pte, if_neg hne]; exact hpte⟩
    | @kmap d ph held q pte _ hm _ _ =>
        have hne : page ≠ q := by
          intro heq
          have := hp.mapped
          rw [← hpte, heq] at this
          change (d.pte q).mapped at this
          rw [hm] at this
          cases this
        exact ⟨ht, by rw [PgDir.set_pte, if_neg hne]; exact hpte⟩
    | unmap _ _ _ => exact absurd hok (hun _)
    | release _ _ => exact ⟨ht, hpte⟩
  · have hav : Avoids (fun f => f = (s.dir.pte page).frame) (fun _ => False) s := by
      refine ⟨?_, ?_, fun _ hF => hF.elim⟩
      · intro f hf heq
        exact hs.free page hp (heq ▸ List.mem_append_right _ hf)
      · intro f hf heq
        exact hs.free page hp (heq ▸ List.mem_append_left _ hf)
    exact (h.avoids (fun p hok => hun p hok) (fun _ _ _ _ hF => hF) hav).2 _ rfl

/-- Steps that map nothing change nothing about the pages they leave mapped. -/
theorem VmRun.leaves {lo hi : Nat} (hhi : hi ≤ kernbase) {s t : Vm}
    (h : VmRun (Retreating lo hi) s t) (hs : s.Apart) {page : Nat}
    (hp : t.dir.UserMapped page) :
    s.dir.UserMapped page ∧ t.dir.pte page = s.dir.pte page
      ∧ t.phys.mem (s.dir.pte page).frame = s.phys.mem (s.dir.pte page).frame := by
  have hlow : ∀ q, Retreating lo hi (.unmap q) → q < kernPage := by
    intro q hq
    rcases hq with ⟨_, he, _, hlt⟩ | ⟨_, he⟩
    · cases he
      simp only [kernbase] at hhi
      change q < 524288
      omega
    · cases he
  have hnok : ∀ q pte, ¬ Retreating lo hi (.kmap q pte) := by
    intro q pte hq
    rcases hq with ⟨_, he, _⟩ | ⟨_, he⟩ <;> cases he
  refine (h.invariant (I := fun t => t.Apart ∧ ∀ page, t.dir.UserMapped page →
    s.dir.UserMapped page ∧ t.dir.pte page = s.dir.pte page
      ∧ t.phys.mem (s.dir.pte page).frame = s.phys.mem (s.dir.pte page).frame)
    ?_ ⟨hs, fun _ hp => ⟨hp, rfl, rfl⟩⟩).2 page hp
  intro a e b hok ⟨hap, hI⟩ hst
  have hap' : b.Apart := by
    apply hst.apart _ _ hap
    · intro q pte he
      exact hnok q pte (he ▸ hok)
    · intro q he
      exact hlow q (he ▸ hok)
  refine ⟨hap', ?_⟩
  rcases hok with ⟨q, rfl, _⟩ | ⟨f, rfl⟩
  · cases hst with
    | @unmap d ph ph' held _ ht hm hfree =>
        intro p hp
        have hgone : p ≠ q := by
          intro heq
          have := hp.mapped
          rw [heq] at this
          change ((d.set q Pte.zero).pte q).mapped at this
          rw [PgDir.set_pte, if_pos rfl] at this
          cases this
        have hpd : d.UserMapped p := hp.of_set hgone
        obtain ⟨h1, h2, h3⟩ := hI p hpd
        have hq : d.UserMapped q := by
          refine ⟨ht, hm, .inl ?_⟩
          apply hlow q
          rename_i hin
          exact .inl ⟨q, rfl, hin⟩
        change d.pte p = s.dir.pte p at h2
        refine ⟨h1, ?_, ?_⟩
        · rw [PgDir.set_pte, if_neg hgone]
          exact h2
        · have hfr : (s.dir.pte p).frame ≠ (d.pte q).frame := by
            rw [← h2]
            exact fun heq => hgone (hap.distinct p q hpd hq heq)
          have := kfree_mem hfree hfr
          exact this.trans h3
  · cases hst with
    | @release d ph ph' held _ hf hfree =>
        intro p hp
        obtain ⟨h1, h2, h3⟩ := hI p hp
        refine ⟨h1, h2, ?_⟩
        have hfr : (s.dir.pte p).frame ≠ f := by
          rw [← h2]
          intro heq
          exact hap.free p hp (heq ▸ List.mem_append_left _ hf)
        have := kfree_mem hfree hfr
        exact this.trans h3

/-- The machine with another directory and memory. -/
def Machine.withVm (m : Machine) (d : PgDir) (ph : Phys) : Machine :=
  { m with pgdir := d, phys := ph }

theorem Separate.of_apart (hs : Separate m) {d : PgDir} {ph : Phys}
    (h : Vm.Apart ⟨d, ph, []⟩) : Separate (m.withVm d ph) :=
  ⟨hs.size, h.distinct, h.nodup, h.free⟩

theorem Grown.content {oldsz newsz lo r : Nat} {d : PgDir} {ph : Phys} (hs : Separate m)
    (hlt : newsz < kernbase) (h : Grown oldsz newsz lo m.pgdir m.phys r d ph) :
    Separate (m.withVm d ph) ∧ SameContent m (m.withVm d ph) := by
  have hgrow : ∀ {t : Vm}, VmRun (Growing lo newsz) ⟨m.pgdir, m.phys, []⟩ t → t.Apart := by
    intro t hrun
    apply hrun.apart _ _ hs.apart
    · intro page pte h
      cases h
    · intro page h
      cases h
  have hno : ∀ page, ¬ Growing lo newsz (.unmap page) := by
    intro page h
    cases h
  cases h with
  | done hrun =>
      refine ⟨hs.of_apart (hgrow hrun), ?_⟩
      intro page hp _
      obtain ⟨hpte, hmem⟩ := hrun.keeps hno hs.apart hp
      change d.pte page = m.pgdir.pte page at hpte
      change ph.mem (m.pgdir.pte page).frame = m.phys.mem (m.pgdir.pte page).frame at hmem
      simp only [Pager.content, Machine.withVm, hpte, hmem]
  | @failed _ _ mid hrun hback _ =>
      have hmid := hgrow hrun
      have hend : Vm.Apart ⟨d, ph, []⟩ := by
        apply hback.apart _ _ hmid
        · intro page pte h
          rcases h with ⟨_, he, _⟩ | ⟨_, he⟩ <;> cases he
        · intro page h
          rcases h with ⟨_, he, _, hin⟩ | ⟨_, he⟩
          · cases he
            simp only [kernbase] at hlt
            change page < 524288
            omega
          · cases he
      refine ⟨hs.of_apart hend, ?_⟩
      intro page hp hp'
      obtain ⟨hpte, hmem⟩ := hrun.keeps hno hs.apart hp
      obtain ⟨_, hpte', hmem'⟩ := hback.leaves (Nat.le_of_lt hlt) hmid hp'
      rw [hpte] at hpte' hmem'
      change d.pte page = m.pgdir.pte page at hpte'
      change ph.mem (m.pgdir.pte page).frame = _ at hmem'
      have hbytes := hmem'.trans hmem
      change _ = m.phys.mem (m.pgdir.pte page).frame at hbytes
      simp only [Pager.content, Machine.withVm, hpte', hbytes]

/-- Growing a process. -/
theorem growproc_content {n r : Int} (hs : Separate m) (hn : 0 < n)
    (h : growproc n m = .ok (r, m')) : SameContent m m' := by
  simp only [growproc, if_pos hn, bind_eq_ok] at h
  obtain ⟨⟨sz, d, ph⟩, halloc, h⟩ := h
  have hmid : Separate (m.withVm d ph) ∧ SameContent m (m.withVm d ph) := by
    rcases allocuvm_spec halloc with ⟨_, _, rfl, rfl⟩ | ⟨_, _, _, rfl, rfl⟩ | ⟨hlt, _, hgrown⟩
    · exact ⟨hs, fun _ _ _ => rfl⟩
    · exact ⟨hs, fun _ _ _ => rfl⟩
    · exact hgrown.content hs hlt
  obtain ⟨hs₁, hsame⟩ := hmid
  split at h
  · cases h
    exact hsame
  · simp only [bind_eq_ok] at h
    obtain ⟨⟨r₂, m₂⟩, henc, h⟩ := h
    cases h
    have hrec : Recoded (m.withVm d ph) m₂ := mencrypt_recoded hs₁ henc
    intro page hp hp'
    have hp₁ := hrec.userMapped.mp hp'
    exact (hrec.content page hp₁).trans (hsame page hp hp₁)

/-! ## Forking -/

/-- The frames of the user pages of a directory. -/
def UserFrame (d : PgDir) (f : Nat) : Prop := ∃ page, d.UserMapped page ∧ f = (d.pte page).frame

/-- A page directory and memory that reach no frame of `P`. -/
structure OutOfReach (P : Nat → Prop) (d : PgDir) (ph : Phys) : Prop where
  avoids : Avoids P (fun page => page < kernPage) ⟨d, ph, []⟩
  tables : ∀ i f, d.table i = some f → ¬ P f
  frame : ¬ P d.frame

theorem OutOfReach.run {P : Nat → Prop} {ok : VmEvent → Prop} {d d' : PgDir} {ph ph' : Phys}
    (h : OutOfReach P d ph) (hun : ∀ page, ¬ ok (.unmap page))
    (hrun : VmRun ok ⟨d, ph, []⟩ ⟨d', ph', []⟩) :
    OutOfReach P d' ph' ∧ ∀ f, P f → ph'.mem f = ph.mem f := by
  have hgone : ∀ page, ok (.unmap page) → page < kernPage := fun p hp => absurd hp (hun p)
  have hkern : ∀ page pte, ok (.kmap page pte) → kernPage ≤ page → ¬ page < kernPage :=
    fun _ _ _ hge => Nat.not_lt.mpr hge
  obtain ⟨hav, hmem⟩ := hrun.avoids hgone hkern h.avoids
  refine ⟨⟨hav, hrun.tables hgone hkern h.avoids h.tables, ?_⟩, hmem⟩
  have hframe : d'.frame = d.frame :=
    (@VmRun.evolved ok (fun _ _ => True) (fun _ => True) _ _
      ⟨fun _ _ _ => trivial, fun _ _ _ _ _ => trivial, fun _ _ => trivial⟩ hrun).frame
  rw [hframe]
  exact h.frame

theorem OutOfReach.freevm {P : Nat → Prop} {d : PgDir} {ph ph' : Phys}
    (h : OutOfReach P d ph) (hfree : freevm d ph = .ok ph') :
    (∀ f ∈ ph'.freelist, ¬ P f) ∧ ∀ f, P f → ph'.mem f = ph.mem f :=
  freevm_spec h.avoids h.tables h.frame hfree

/-- `setupkvm` reaches no frame that is not free. -/
theorem setupkvm_outOfReach {P : Nat → Prop} {ph ph' : Phys} {r : Option PgDir}
    (hfree : ∀ f ∈ ph.freelist, ¬ P f) (h : setupkvm ph = .ok (r, ph')) :
    (∀ f ∈ ph'.freelist, ¬ P f) ∧ (∀ f, P f → ph'.mem f = ph.mem f)
      ∧ ∀ d, r = some d → OutOfReach P d ph' ∧ ph'.freelist.Sublist ph.freelist := by
  rcases setupkvm_run h with ⟨_, rfl, rfl⟩ | ⟨f, rest, d, ph₁, hcons, hrun, hend⟩
  · exact ⟨hfree, fun _ _ => rfl, fun _ hd => by cases hd⟩
  · rw [hcons] at hfree ⊢
    have hf : ¬ P f := hfree f List.mem_cons_self
    have hstart : OutOfReach P (emptyDir f) (memset f 0 { ph with freelist := rest }) := by
      refine ⟨⟨fun g hg => hfree g (List.mem_cons_of_mem _ hg), by simp, ?_⟩, ?_, hf⟩
      · intro page _ hm
        cases hm
      · intro i g hg
        cases hg
    have hno : ∀ page, ¬ KernelSetup (.unmap page) := by
      intro page h
      rcases h with ⟨_, he, _⟩ | ⟨_, _, he⟩ <;> cases he
    have hnr : ∀ g, ¬ KernelSetup (.release g) := by
      intro g h
      rcases h with ⟨_, he, _⟩ | ⟨_, _, he⟩ <;> cases he
    obtain ⟨hout, hmem⟩ := hstart.run hno hrun
    have hmem' : ∀ g, P g → ph₁.mem g = ph.mem g := by
      intro g hg
      rw [hmem g hg]
      apply Function.update_of_ne
      intro heq
      exact hf (heq ▸ hg)
    rcases hend with ⟨rfl, rfl⟩ | ⟨rfl, hfv⟩
    · refine ⟨hout.avoids.free, hmem', ?_⟩
      intro d' hd'
      cases hd'
      exact ⟨hout, (hrun.freelist hno hnr).trans (List.sublist_cons_self _ _)⟩
    · obtain ⟨hfree', hmem''⟩ := hout.freevm hfv
      refine ⟨hfree', ?_, fun _ hd => by cases hd⟩
      intro g hg
      rw [hmem'' g hg, hmem' g hg]

/-- `copyuvm` changes no user page of the parent, and the copy of each of its pages
below `sz` holds what the page does. -/
theorem copyuvm_content {ph ph' : Phys} {d : PgDir} {sz : Nat} {r : Option PgDir}
    (hsz : sz ≤ kernbase) (hnd : ph.freelist.Nodup)
    (hfree : ∀ f ∈ ph.freelist, ¬ UserFrame d f) (h : copyuvm d sz ph = .ok (r, ph')) :
    (∀ f, UserFrame d f → ph'.mem f = ph.mem f)
      ∧ ∀ d', r = some d' → ∀ page, 4096 * page < sz →
          content d' ph' page = content d ph page := by
  rcases copyuvm_spec hsz h with ⟨ph₀, hsetup, rfl, rfl⟩
    | ⟨d₀, ph₀, d₁, ph₁, b, hsetup, hcop, hend⟩
  · exact ⟨(setupkvm_outOfReach hfree hsetup).2.1, fun _ hd => by cases hd⟩
  · obtain ⟨hfree₀, hmem₀, hsome⟩ := setupkvm_outOfReach hfree hsetup
    obtain ⟨hout₀, hsub⟩ := hsome d₀ rfl
    have hno : ∀ page, ¬ (Copying d 0 sz (.unmap page) ∨ ∃ f, VmEvent.unmap page = .release f) := by
      intro page h
      rcases h with h | ⟨_, he⟩
      · cases h
      · cases he
    obtain ⟨hout₁, hmem₁⟩ := hout₀.run hno hcop.run.1
    have hparent : ∀ f, UserFrame d f → ph₁.mem f = ph.mem f := by
      intro f hf
      rw [hmem₁ f hf, hmem₀ f hf]
    rcases hend with ⟨rfl, rfl, rfl⟩ | ⟨rfl, rfl, hfv⟩
    · refine ⟨hparent, ?_⟩
      intro d' hd' page hlt
      cases hd'
      have huser : ∀ q, Within 0 sz q → UserFrame d (d.pte q).frame := by
        intro q hq
        obtain ⟨_, ht, hm, _⟩ := hcop.flags rfl q hq
        refine ⟨q, ⟨ht, hm, .inl ?_⟩, rfl⟩
        have := hq.2
        simp only [kernbase] at hsz
        change q < 524288
        omega
      have hsrc : ∀ q, Within 0 sz q → (d.pte q).frame ∉ ph₀.freelist :=
        fun q hq hmem => hfree₀ _ hmem (huser q hq)
      have hin : Within 0 sz page := ⟨Nat.zero_le _, hlt⟩
      have he : (d₁.pte page).e = (d.pte page).e :=
        congrArg Flags.e (hcop.flags rfl page hin).2.2.2
      have hbytes := hcop.copies rfl (hnd.sublist hsub) hsrc page hin
      simp only [Pager.content, he, hbytes, hmem₀ _ (huser page hin)]
    · refine ⟨?_, fun _ hd => by cases hd⟩
      intro f hf
      rw [(hout₁.freevm hfv).2 f hf, hparent f hf]

/-! ## The outcome of `fork` -/

/-- The child of `m` with page directory `d`. -/
def Machine.childOf (m : Machine) (d : PgDir) (ph : Phys) (name : Nat) : Machine where
  phys := ph
  pgdir := d
  sz := m.sz
  clockQueue := fun i => ⟨(m.clockQueue i).vpn, walkpgdir d (m.clockQueue i).vpn⟩
  clockIndex := m.clockIndex
  nameTail := name

/-- What `fork` comes to. -/
inductive Forked (pid : Option Int) (name : Nat) (m : Machine) :
    Int → Option Machine → Machine → Prop
  /-- No slot of the process table, or no frame for the kernel stack. -/
  | refused : Forked pid name m (-1) none m
  /-- No memory for the copy. -/
  | failed {kstack : Nat} {rest : List Nat} {ph ph' : Phys} :
      m.phys.freelist = kstack :: rest →
      copyuvm m.pgdir m.sz { m.phys with freelist := rest } = .ok (none, ph) →
      kfree kstack ph = .ok ph' →
      Forked pid name m (-1) none { m with phys := ph' }
  | child {n : Int} {kstack : Nat} {rest : List Nat} {d : PgDir} {ph : Phys} :
      pid = some n → m.phys.freelist = kstack :: rest →
      copyuvm m.pgdir m.sz { m.phys with freelist := rest } = .ok (some d, ph) →
      Forked pid name m n (some (m.childOf d ph name)) { m with phys := ph }

theorem fork_spec {pid : Option Int} {name : Nat} {r : Int} {child : Option Machine}
    (h : fork pid name m = .ok (r, child, m')) : Forked pid name m r child m' := by
  unfold fork at h
  cases pid with
  | none =>
      cases h
      exact .refused
  | some n =>
      cases hk : kalloc m.phys with
      | none =>
          rw [hk] at h
          cases h
          exact .refused
      | some r₁ =>
          obtain ⟨kstack, ph⟩ := r₁
          rw [hk] at h
          obtain ⟨rest, hcons, rfl⟩ := kalloc_eq_some hk
          simp only [bind_eq_ok] at h
          obtain ⟨⟨rd, ph₁⟩, hcopy, h⟩ := h
          cases rd with
          | none =>
              simp only [bind_eq_ok] at h
              obtain ⟨ph₂, hkf, h⟩ := h
              cases h
              exact .failed hcons hcopy hkf
          | some d =>
              cases h
              exact .child rfl hcons hcopy

/-- Forking. -/
theorem fork_content {pid : Option Int} {name : Nat} {r : Int} {child : Option Machine}
    (hs : Separate m) (h : fork pid name m = .ok (r, child, m')) :
    SameContent m m' ∧ ∀ c, child = some c → ∀ page, 4096 * page < m.sz →
      content c.pgdir c.phys page = content m.pgdir m.phys page := by
  have hsame : ∀ {ph : Phys}, (∀ f, UserFrame m.pgdir f → ph.mem f = m.phys.mem f) →
      SameContent m { m with phys := ph } := by
    intro ph hmem page hp _
    have := hmem _ ⟨page, hp, rfl⟩
    simp only [Pager.content, this]
  have hfree : ∀ f ∈ m.phys.freelist, ¬ UserFrame m.pgdir f := by
    intro f hf hex
    obtain ⟨page, hp, heq⟩ := hex
    exact hs.free page hp (heq ▸ hf)
  -- what the copy leaves, with the kernel stack off the list
  have hcopied : ∀ {kstack : Nat} {rest : List Nat} {rd : Option PgDir} {ph : Phys},
      m.phys.freelist = kstack :: rest →
      copyuvm m.pgdir m.sz { m.phys with freelist := rest } = .ok (rd, ph) →
      (∀ f, UserFrame m.pgdir f → ph.mem f = m.phys.mem f) ∧
        ∀ d, rd = some d → ∀ page, 4096 * page < m.sz →
          content d ph page = content m.pgdir m.phys page := by
    intro kstack rest rd ph hcons hcopy
    have hnd := hs.nodup
    rw [hcons, List.nodup_cons] at hnd
    have hrest : ∀ f ∈ rest, ¬ UserFrame m.pgdir f := by
      intro f hf
      exact hfree f (by rw [hcons]; exact List.mem_cons_of_mem _ hf)
    exact @copyuvm_content { m.phys with freelist := rest } ph _ _ _ hs.size hnd.2 hrest hcopy
  cases fork_spec h with
  | refused => exact ⟨fun _ _ _ => rfl, fun _ hc => by cases hc⟩
  | @failed kstack rest ph ph' hcons hcopy hkf =>
      refine ⟨hsame ?_, fun _ hc => by cases hc⟩
      intro f hf
      have hne : f ≠ kstack := by
        intro heq
        exact hfree kstack (by rw [hcons]; exact List.mem_cons_self) (heq ▸ hf)
      rw [kfree_mem hkf hne, (hcopied hcons hcopy).1 f hf]
  | child hpid hcons hcopy =>
      obtain ⟨hmem, hchild⟩ := hcopied hcons hcopy
      refine ⟨hsame hmem, ?_⟩
      intro c hc page hlt
      cases hc
      exact hchild _ rfl page hlt

/-! ## All operations -/

/-- No operation of the pager that returns changes the content of a user page that
stays mapped, and a child starts with the contents of its parent. -/
theorem content_unchanged (hs : Separate m) :
    (∀ slots depth va r m', mdecrypt slots depth va m = .ok (r, m') → SameContent m m')
    ∧ (∀ va len r m', mencrypt va len m = .ok (r, m') → SameContent m m')
    ∧ (∀ vpn m', 0 ≤ m.clockIndex → m.clockIndex < clocksize →
        removeQueue vpn m = .ok m' → SameContent m m')
    ∧ (∀ n r m', 0 < n → growproc n m = .ok (r, m') → SameContent m m')
    ∧ ∀ pid name r child m', fork pid name m = .ok (r, child, m') →
        SameContent m m' ∧ ∀ c, child = some c → ∀ page, 4096 * page < m.sz →
          content c.pgdir c.phys page = content m.pgdir m.phys page :=
  ⟨fun _ _ _ _ _ h => (mdecrypt_recoded hs h).sameContent,
    fun _ _ _ _ h => (mencrypt_recoded hs h).sameContent,
    fun _ _ _ _ h => (removeQueue_recoded hs h).sameContent,
    fun _ _ _ hn h => growproc_content hs hn h,
    fun _ _ _ _ _ h => fork_content hs h⟩

theorem onePage_separate : Separate onePage := by
  have honly : ∀ p, onePage.pgdir.UserMapped p → p = 1 := by
    intro p hp
    by_contra hne
    have hm := hp.mapped
    simp only [onePage, if_neg hne] at hm
    cases hm
  exact ⟨by decide, fun p q hp hq _ => (honly p hp).trans (honly q hq).symm, .nil,
    by simp [onePage, Phys.zeroed]⟩

theorem content_unchanged_onePage :
    ∃ m', mencrypt 4096 1 onePage = .ok (0, m')
      ∧ content m'.pgdir m'.phys 1 = content onePage.pgdir onePage.phys 1 := by
  have henc : mencrypt 4096 1 onePage = .ok (0, onePage.encryptAt 1) := mencrypt_one rfl
  exact ⟨_, henc, (content_unchanged onePage_separate).2.1 _ _ _ _ henc 1 ⟨rfl, rfl, .inr rfl⟩
    ⟨rfl, rfl, .inr rfl⟩⟩

end CS537.Pager
