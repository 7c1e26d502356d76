import CS537.Pager.ResidentSet

/-!
# Pager — page tables that are not there

`walkpgdir` returns a null pointer for an address in a 4 MiB region without a page
table. `uva2ka` and `getpgtable` read through it all the same, so the fault handler,
`mencrypt` and `getpgtable` are safe exactly where they are not led to such a
region.
-/

namespace CS537.Pager

open MachineInt

variable {m m' : Machine}

/-! ## `getpgtable` -/

/-- `struct pt_entry`. -/
structure PtEntry where
  pdx : Nat
  ptx : Nat
  ppage : Nat
  present : Bool
  writable : Bool
  user : Bool
  encrypted : Bool
  ref : Bool
  deriving DecidableEq, Repr

/-- What `getpgtable` reports of a page. -/
def ptEntry (page : Nat) (pte : Pte) : PtEntry :=
  { pdx := CS537.Pager.pdx page, ptx := page % 1024, ppage := pte.frame
    present := pte.p, writable := pte.w, user := pte.u, encrypted := pte.e, ref := pte.a }

/-- Whether `getpgtable` reports an entry. -/
def Pte.reported (wsetOnly : Int) (pte : Pte) : Bool :=
  if wsetOnly = 0 then pte.e || pte.p else !pte.e && pte.p

/-- The loop of `getpgtable`, over at most that many pages from `currAddr` down:
what it has stored in `pt_entries`. -/
def pgtableLoop (d : PgDir) (num wsetOnly : Int) :
    Nat → Nat → List PtEntry → Except Fault (List PtEntry)
  | 0, _, entries => .ok entries
  | left + 1, currAddr, entries =>
      if (entries.length : Int) < num then
        match walkpgdir d currAddr with
        | none => .error .nullDeref
        | some ptr =>
            let pte := d.pte ptr.page
            pgtableLoop d num wsetOnly left (u32 (currAddr + 4294963200))
              (if pte.reported wsetOnly then entries ++ [ptEntry ptr.page pte] else entries)
      else .ok entries

/-- `getpgtable`: what it returns, and what it stores in `pt_entries`. -/
def getpgtable (ptEntries : Nat) (num wsetOnly : Int) (m : Machine) :
    Except Fault (Int × List PtEntry) :=
  if ptEntries = 0 ∨ (wsetOnly ≠ 0 ∧ wsetOnly ≠ 1) then .ok (-1, [])
  else do
    let entries ← pgtableLoop m.pgdir num wsetOnly (m.sz / 4096) (pgRoundDown m.sz) []
    return (entries.length, entries)

/-- How many of the first `k` pages the loop goes over, from the one of `sz` down, it
reports. -/
def Machine.reported (m : Machine) (wsetOnly : Int) (k : Nat) : Nat :=
  (List.range k).countP fun i => (m.pgdir.pte (ppn m.sz - i)).reported wsetOnly

theorem Machine.reported_succ (m : Machine) (wsetOnly : Int) (k : Nat) :
    m.reported wsetOnly (k + 1) = m.reported wsetOnly k
      + if (m.pgdir.pte (ppn m.sz - k)).reported wsetOnly then 1 else 0 := by
  rw [reported, List.range_succ, List.countP_append, List.countP_singleton, reported]

theorem Machine.reported_mono (m : Machine) (wsetOnly : Int) {j k : Nat} (h : j ≤ k) :
    m.reported wsetOnly j ≤ m.reported wsetOnly k := by
  induction k with
  | zero =>
      rw [Nat.le_zero.mp h]
  | succ k ih =>
      rw [reported_succ]
      by_cases hjk : j = k + 1
      · rw [hjk, reported_succ]
      · exact Nat.le_trans (ih (by omega)) (Nat.le_add_right _ _)

/-- The loop, when `k` pages have been gone over. -/
theorem pgtableLoop_null {num wsetOnly : Int} (hsz : m.sz < 4294967296) {left k : Nat}
    (hleft : k + left = m.sz / 4096) {entries : List PtEntry}
    (hlen : entries.length = m.reported wsetOnly k) :
    pgtableLoop m.pgdir num wsetOnly left (4096 * (ppn m.sz - k)) entries ≠ .error .nullDeref
      ↔ ∀ j < m.sz / 4096, k ≤ j → (m.reported wsetOnly j : Int) < num →
          m.pgdir.hasTable (ppn m.sz - j) := by
  induction left generalizing k entries with
  | zero =>
      constructor
      · intro _ j hj hk
        omega
      · intro _ h
        cases h
  | succ left ih =>
      have hpage : ppn (4096 * (ppn m.sz - k)) = ppn m.sz - k := CS537.Pager.ppn_mul _
      rw [pgtableLoop]
      by_cases hnum : (entries.length : Int) < num
      · rw [if_pos hnum]
        cases ht : m.pgdir.hasTable (ppn m.sz - k) with
        | false =>
            have hw : walkpgdir m.pgdir (4096 * (ppn m.sz - k)) = none := by
              rw [walkpgdir_eq_none, hpage]
              exact ht
            rw [hw]
            constructor
            · intro h
              exact absurd rfl h
            · intro h
              have := h k (by omega) (Nat.le_refl _) (by rw [← hlen]; exact hnum)
              rw [ht] at this
              cases this
        | true =>
            have hw : walkpgdir m.pgdir (4096 * (ppn m.sz - k))
                = some ⟨m.pgdir.frame, ppn m.sz - k⟩ := by
              rw [walkpgdir_eq_some, hpage]
              exact ⟨ht, rfl⟩
            have hnext : u32 (4096 * (ppn m.sz - k) + 4294963200)
                = 4096 * (ppn m.sz - (k + 1)) := by
              unfold u32 ppn
              omega
            rw [hw]
            simp only [hnext]
            rw [ih (k := k + 1) (by omega)]
            · constructor
              · intro h j hj hkj hlt
                by_cases heq : j = k
                · rw [heq]
                  exact ht
                · exact h j hj (by omega) hlt
              · intro h j hj hkj hlt
                exact h j hj (by omega) hlt
            · rw [Machine.reported_succ, ← hlen]
              split <;> simp
      · rw [if_neg hnum]
        constructor
        · intro _ j hj hkj hlt
          -- enough is reported already
          have := m.reported_mono wsetOnly hkj
          omega
        · intro _ h
          cases h

/-- `getpgtable` comes by a missing page table when one of the pages it goes over has
none and it has not reported `num` pages before. -/
theorem getpgtable_null {ptEntries : Nat} {num wsetOnly : Int} (hsz : m.sz < 4294967296)
    (hp : ptEntries ≠ 0) (hw : wsetOnly = 0 ∨ wsetOnly = 1) :
    getpgtable ptEntries num wsetOnly m ≠ .error .nullDeref
      ↔ ∀ k < m.sz / 4096, (m.reported wsetOnly k : Int) < num →
          m.pgdir.hasTable (ppn m.sz - k) := by
  have hvalid : ¬ (ptEntries = 0 ∨ (wsetOnly ≠ 0 ∧ wsetOnly ≠ 1)) := by omega
  have hloop := @pgtableLoop_null m num wsetOnly hsz (m.sz / 4096) 0 (Nat.zero_add _) [] rfl
  rw [Nat.sub_zero, ← pgRoundDown_ppn] at hloop
  rw [getpgtable, if_neg hvalid]
  constructor
  · intro h k hk hlt
    refine hloop.mp ?_ k hk (Nat.zero_le _) hlt
    intro he
    rw [he] at h
    exact h rfl
  · intro h he
    have hok := hloop.mpr fun j hj _ hlt => h j hj hlt
    cases hl : pgtableLoop m.pgdir num wsetOnly (m.sz / 4096) (pgRoundDown m.sz) [] with
    | ok entries =>
        rw [hl] at he
        cases he
    | error e =>
        rw [hl] at he hok
        cases he
        exact hok rfl

/-! ## `mencrypt` -/

theorem mencryptLoop_null {n va : Nat} :
    mencryptLoop n va m ≠ .error .nullDeref
      ↔ ∀ page ∈ pagesFrom n va, m.pgdir.hasTable page := by
  induction n generalizing va m with
  | zero => simp [mencryptLoop, pagesFrom]
  | succ n ih =>
      simp only [mencryptLoop, pagesFrom, List.forall_mem_cons]
      cases h : m.pgdir.hasTable (ppn va) with
      | false => simp [mencryptPage_null h]
      | true => simp [mencryptPage_eq h, ih]

theorem mencrypt_null {va : Nat} {len : Int} (hlen : 0 < len) :
    mencrypt va len m ≠ .error .nullDeref
      ↔ ∀ page ∈ mencryptPages va len, m.pgdir.hasTable page := by
  rw [mencrypt_of_pos hlen, mencryptPages, ← mencryptLoop_null]
  cases mencryptLoop len.toNat (pgRoundDown va) m with
  | ok m₁ => simp
  | error e => simp

/-! ## The fault handler -/

/-- Each occupied slot has the entry of its page, in a page table that is there. -/
def Machine.Pointed (m : Machine) : Prop :=
  ∀ i < 128, (m.clockQueue i).vpn ≠ noVpn →
    m.pgdir.hasTable (ppn (m.clockQueue i).vpn)
      ∧ (m.clockQueue i).pte = some ⟨m.pgdir.frame, ppn (m.clockQueue i).vpn⟩

theorem Machine.Pointed.congr (h : m.Pointed) (hq : m'.clockQueue = m.clockQueue)
    (hf : m'.pgdir.frame = m.pgdir.frame) (ht : m'.pgdir.table = m.pgdir.table) :
    m'.Pointed := by
  intro i hi hv
  rw [hq] at hv ⊢
  rw [PgDir.hasTable, ht, hf]
  exact h i hi hv

/-- Putting a page into a slot. -/
theorem Machine.Pointed.setSlot (h : m.Pointed) {vpn : Nat} (ht : m.pgdir.hasTable (ppn vpn))
    (i : Nat) : (m.setSlot i (m.node vpn)).Pointed := by
  intro j hj hv
  change m.pgdir.hasTable (ppn (Function.update m.clockQueue i (m.node vpn) j).vpn)
    ∧ (Function.update m.clockQueue i (m.node vpn) j).pte
      = some ⟨m.pgdir.frame, ppn (Function.update m.clockQueue i (m.node vpn) j).vpn⟩
  change (Function.update m.clockQueue i (m.node vpn) j).vpn ≠ noVpn at hv
  by_cases hij : j = i
  · subst hij
    rw [Function.update_self]
    exact ⟨ht, rfl⟩
  · rw [Function.update_of_ne hij] at hv ⊢
    exact h j hj hv

/-- A call that reads no null pointer, and leaves the slots pointed. -/
def Machine.Safe (m : Machine) (x : Except Fault Machine) : Prop :=
  x ≠ .error .nullDeref
    ∧ ∀ m', x = .ok m' → m'.Pointed ∧ m'.pgdir.table = m.pgdir.table

theorem Machine.Pointed.insertLoop (vpn : Nat) (n : Nat) {m : Machine} (h : m.Pointed)
    (ht : m.pgdir.hasTable (ppn vpn)) :
    m.Safe (Pager.insertLoop vpn (m.node vpn).pte n m) := by
  induction n generalizing m with
  | zero =>
      rw [Pager.insertLoop]
      exact ⟨by simp, by simp⟩
  | succ n ih =>
      rw [Pager.insertLoop]
      generalize hm₁ : m.setIndex ((m.clockIndex + 1).tmod clocksize) = m₁
      have hp₁ : m₁.Pointed := by
        rw [← hm₁]
        exact h.congr rfl rfl rfl
      have hdir : m₁.pgdir = m.pgdir := by rw [← hm₁]; rfl
      have hnode : m.node vpn = m₁.node vpn := by rw [Machine.node, Machine.node, hdir]
      have htab₁ : m₁.pgdir.table = m.pgdir.table := congrArg PgDir.table hdir
      rw [← hdir] at ht
      cases hi : slotIndex m₁.clockIndex with
      | error e =>
          have he : e = .badIndex := by
            unfold slotIndex at hi
            split at hi <;> cases hi
            rfl
          rw [he]
          exact ⟨by simp, by simp⟩
      | ok i =>
          have hi128 : i < 128 := by
            unfold slotIndex at hi
            split at hi
            · cases hi
              simp only [clocksize] at *
              omega
            · cases hi
          simp only [ok_bind, hnode]
          by_cases hempty : (m₁.clockQueue i).vpn = noVpn
          · rw [if_pos hempty]
            refine ⟨by simp, ?_⟩
            intro m' hm'
            cases hm'
            exact ⟨hp₁.setSlot ht i, htab₁⟩
          · rw [if_neg hempty]
            obtain ⟨htab, hpte⟩ := hp₁ i hi128 hempty
            have hres : m₁.resolve (m₁.clockQueue i).pte = .ok (ppn (m₁.clockQueue i).vpn) := by
              simp [hpte, Machine.resolve, htab]
            rw [hres]
            simp only [ok_bind]
            by_cases ha : (m₁.pgdir.pte (ppn (m₁.clockQueue i).vpn)).a
            · simp only [ha, Bool.not_true, Bool.false_eq_true, if_false]
              obtain ⟨hnull, hok⟩ := @ih (m₁.setPte (ppn (m₁.clockQueue i).vpn)
                { m₁.pgdir.pte (ppn (m₁.clockQueue i).vpn) with a := false })
                (hp₁.congr rfl rfl rfl) ht
              refine ⟨hnull, ?_⟩
              intro m' hm'
              obtain ⟨hp', htab'⟩ := hok m' hm'
              exact ⟨hp', htab'.trans htab₁⟩
            · have henc := mencrypt_one htab
              simp only [ha, Bool.not_false, if_true, henc, ok_bind]
              refine ⟨by simp, ?_⟩
              intro m' hm'
              cases hm'
              have hp₂ : (m₁.encryptAt (ppn (m₁.clockQueue i).vpn)).Pointed :=
                hp₁.congr (Machine.encryptAt_clockQueue _ _) (Machine.encryptAt_frame _ _)
                  (Machine.encryptAt_table _ _)
              have hnode₂ : m₁.node vpn
                  = (m₁.encryptAt (ppn (m₁.clockQueue i).vpn)).node vpn := by
                rw [Machine.node, Machine.node, Machine.encryptAt_frame]
              refine ⟨?_, ?_⟩
              · change ((m₁.encryptAt _).setSlot i (m₁.node vpn)).Pointed
                rw [hnode₂]
                apply hp₂.setSlot
                rw [Machine.encryptAt_hasTable]
                exact ht
              · exact (Machine.encryptAt_table _ _).trans htab₁

/-- With all its slots pointed a process faults safely wherever there is a page
table. -/
theorem Machine.Pointed.mdecrypt (slots depth : Nat) {va : Nat} {m : Machine} (h : m.Pointed)
    (ht : m.pgdir.hasTable (ppn va)) :
    Pager.mdecrypt slots depth va m ≠ .error .nullDeref := by
  induction depth generalizing va m with
  | zero =>
      cases hs : (m.pgdir.pte (ppn va)).sealed with
      | false =>
          rw [Pager.mdecrypt, mdecryptWith_not_sealed ht hs]
          simp
      | true =>
          rw [Pager.mdecrypt, mdecryptWith_sealed ht hs]
          simp
  | succ depth ih =>
      cases hs : (m.pgdir.pte (ppn va)).sealed with
      | false =>
          rw [Pager.mdecrypt, mdecryptWith_not_sealed ht hs]
          simp
      | true =>
          have hp₁ : (m.decryptAt (ppn va)).Pointed := h.congr rfl rfl rfl
          have ht₁ : (m.decryptAt (ppn va)).pgdir.hasTable (ppn (pgRoundDown va)) := by
            rw [ppn_pgRoundDown]
            exact ht
          have hnode : (some ⟨m.pgdir.frame, ppn va⟩ : Option PtePtr)
              = ((m.decryptAt (ppn va)).node (pgRoundDown va)).pte := by
            rw [Machine.node, ppn_pgRoundDown]
            rfl
          rw [Pager.mdecrypt, mdecryptWith_sealed ht hs, hnode, insertQueue]
          obtain ⟨hnull, hok⟩ := hp₁.insertLoop (pgRoundDown va) slots ht₁
          cases hl : Pager.insertLoop (pgRoundDown va)
              ((m.decryptAt (ppn va)).node (pgRoundDown va)).pte slots
              (m.decryptAt (ppn va)) with
          | error e =>
              rw [hl] at hnull
              intro he
              cases he
              exact hnull rfl
          | ok m₂ =>
              obtain ⟨hp₂, htab⟩ := hok m₂ hl
              have ht₂ : m₂.pgdir.hasTable (ppn (pgRoundDown va)) := by
                rw [PgDir.hasTable, htab]
                exact ht₁
              have hrec := ih hp₂ ht₂
              cases hr : Pager.mdecrypt slots depth (pgRoundDown va) m₂ with
              | error e =>
                  rw [hr] at hrec
                  simp only [ok_bind, hr, error_bind]
                  exact hrec
              | ok r =>
                  simp only [ok_bind, hr, pure_eq_ok]
                  simp

/-- Without a page table the handler reads the null pointer, whatever the queue. -/
theorem mdecrypt_null {va : Nat} (h : m.pgdir.hasTable (ppn va) = false) (slots depth : Nat) :
    mdecrypt slots depth va m = .error .nullDeref := by
  have hwith : ∀ insert, mdecryptWith insert va m = .error .nullDeref := by
    intro insert
    rw [mdecryptWith, uva2ka_null (by rwa [ppn_pgRoundDown])]
    rfl
  cases depth with
  | zero => exact hwith _
  | succ depth => exact hwith _

/-- The fault handler refuses an address of no encrypted user page. -/
theorem mdecrypt_refuses {va : Nat} (hs : (m.pgdir.pte (ppn va)).sealed = false)
    (ht : m.pgdir.hasTable (ppn va)) (slots depth : Nat) :
    mdecrypt slots depth va m = .ok (-1, m) := by
  cases depth with
  | zero => exact mdecryptWith_not_sealed ht hs
  | succ depth => exact mdecryptWith_not_sealed ht hs

/-- The slots of a process are pointed while its queue is a list of its pages. -/
theorem QueueView.pointed {Q : List Nat} (h : QueueView m Q) : m.Pointed := by
  intro i hi hv
  obtain ⟨E, hE, hempty⟩ := h.view
  have hmem : m.clockQueue i ∈ Ring.view 128 m.clockQueue m.head :=
    (Ring.mem_view m.head_lt).mpr ⟨i, hi, rfl⟩
  rw [hE, List.mem_append] at hmem
  rcases hmem with hin | hin
  · exact absurd (hempty _ hin) hv
  · obtain ⟨v, hvQ, hnode⟩ := List.mem_map.mp hin
    rw [← hnode]
    exact ⟨h.table v hvQ, rfl⟩

/-! ## Where a null pointer is read -/

/-- The only page table of `onePage` is that of the first 4 MiB. -/
theorem onePage_hasTable {page : Nat} : onePage.pgdir.hasTable page ↔ page < 1024 := by
  change (if page / 1024 = 0 then some 1025 else none : Option Nat).isSome ↔ page < 1024
  split
  · exact ⟨fun _ => by omega, fun _ => rfl⟩
  · constructor
    · intro h
      cases h
    · omega

/-- A process that has grown to 4 MiB, all of it encrypted. -/
def fourMiB : Machine :=
  { onePage with
    sz := 4194304
    pgdir := { onePage.pgdir with
      pte := fun page =>
        if page < 1024 then ⟨⟨false, true, true, false, true⟩, 2000 + page⟩ else Pte.zero } }

end CS537.Pager
