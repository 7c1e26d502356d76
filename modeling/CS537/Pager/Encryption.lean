import CS537.Pager.Queue

/-!
# Pager — what encryption does

`mencrypt` page by page: whether a page is looked up at all depends only on its
page table, and then the effect on the machine is that of `encryptAt`, which no
other lemma unfolds `mencrypt` to find. `decryptAt` is the same for the first
half of `mdecrypt`.
-/

namespace CS537.Pager

open MachineInt

/-! ## Addresses and pages -/

theorem ppn_pgRoundDown (va : Nat) : ppn (pgRoundDown va) = ppn va := by
  unfold ppn pgRoundDown; omega

theorem pgRoundDown_ppn (va : Nat) : pgRoundDown va = 4096 * ppn va := by
  unfold ppn pgRoundDown; omega

theorem ppn_mul (page : Nat) : ppn (4096 * page) = page := by
  unfold ppn; omega

theorem walkpgdir_eq_some {d : PgDir} {va : Nat} {ptr : PtePtr} :
    walkpgdir d va = some ptr ↔ d.hasTable (ppn va) ∧ ptr = ⟨d.frame, ppn va⟩ := by
  unfold walkpgdir
  split
  · rename_i h
    simp [h, eq_comm]
  · rename_i h
    simp [h]

theorem walkpgdir_eq_none {d : PgDir} {va : Nat} :
    walkpgdir d va = none ↔ d.hasTable (ppn va) = false := by
  unfold walkpgdir
  split
  · rename_i h
    simp [h]
  · rename_i h
    simpa using h

/-- `uva2ka` finds the frame of a page the process may use. -/
theorem uva2ka_eq {d : PgDir} {va : Nat} (h : d.hasTable (ppn va)) :
    uva2ka d va = .ok (if (d.pte (ppn va)).mapped && (d.pte (ppn va)).u
      then some (d.pte (ppn va)).frame else none) := by
  simp only [uva2ka, walkpgdir, h, if_true]
  cases (d.pte (ppn va)).mapped <;> cases (d.pte (ppn va)).u <;> rfl

theorem uva2ka_null {d : PgDir} {va : Nat} (h : d.hasTable (ppn va) = false) :
    uva2ka d va = .error .nullDeref := by
  simp [uva2ka, walkpgdir, h]

/-! ## One page -/

/-- A page `mencrypt` changes. -/
def Pte.clear (pte : Pte) : Bool := pte.mapped && pte.u && !pte.e

/-- The entry `mencrypt` leaves. -/
def Pte.encrypted (pte : Pte) : Pte :=
  if pte.clear then { pte with p := false, e := true } else pte

/-- The effect of `mencrypt` on one page. -/
def Machine.encryptAt (m : Machine) (page : Nat) : Machine :=
  if (m.pgdir.pte page).clear then
    (m.setPte page { m.pgdir.pte page with p := false, e := true }).flip
      (m.pgdir.pte page).frame
  else m

theorem mencryptPage_eq {m : Machine} {va : Nat} (h : m.pgdir.hasTable (ppn va)) :
    mencryptPage va m = .ok (m.encryptAt (ppn va)) := by
  simp only [mencryptPage, uva2ka_eq h, ok_bind, Machine.encryptAt]
  by_cases hmu : ((m.pgdir.pte (ppn va)).mapped && (m.pgdir.pte (ppn va)).u) = true
  · rw [if_pos hmu]
    have hc : (m.pgdir.pte (ppn va)).clear = !(m.pgdir.pte (ppn va)).e := by
      rw [Pte.clear, hmu, Bool.true_and]
    cases he : (m.pgdir.pte (ppn va)).e <;> simp [hc, he]
  · rw [if_neg hmu]
    have hc : (m.pgdir.pte (ppn va)).clear = false := by
      rw [Pte.clear, Bool.eq_false_iff.mpr hmu, Bool.false_and]
    simp [hc]

theorem mencryptPage_null {m : Machine} {va : Nat} (h : m.pgdir.hasTable (ppn va) = false) :
    mencryptPage va m = .error .nullDeref := by
  simp [mencryptPage, uva2ka_null h]

section EncryptAt

variable (m : Machine) (page : Nat)

@[simp] theorem Machine.encryptAt_sz : (m.encryptAt page).sz = m.sz := by
  unfold encryptAt
  split <;> rfl

@[simp] theorem Machine.encryptAt_clockQueue :
    (m.encryptAt page).clockQueue = m.clockQueue := by
  unfold encryptAt
  split <;> rfl

@[simp] theorem Machine.encryptAt_clockIndex :
    (m.encryptAt page).clockIndex = m.clockIndex := by
  unfold encryptAt
  split <;> rfl

@[simp] theorem Machine.encryptAt_frame :
    (m.encryptAt page).pgdir.frame = m.pgdir.frame := by
  unfold encryptAt
  split <;> rfl

@[simp] theorem Machine.encryptAt_table :
    (m.encryptAt page).pgdir.table = m.pgdir.table := by
  unfold encryptAt
  split <;> rfl

@[simp] theorem Machine.encryptAt_hasTable (q : Nat) :
    (m.encryptAt page).pgdir.hasTable q = m.pgdir.hasTable q := by
  simp [PgDir.hasTable]

theorem Machine.encryptAt_pte (q : Nat) :
    (m.encryptAt page).pgdir.pte q
      = if q = page then (m.pgdir.pte q).encrypted else m.pgdir.pte q := by
  unfold encryptAt Pte.encrypted
  split
  · rename_i h
    simp only [flip_pgdir, setPte_pgdir, PgDir.set_pte]
    split
    · rename_i hq
      rw [hq, if_pos h]
    · rfl
  · rename_i h
    split
    · rename_i hq
      rw [hq, if_neg h]
    · rfl

end EncryptAt

/-- A page that is not in the clear is left alone. -/
theorem Machine.encryptAt_of_not_clear {m : Machine} {page : Nat}
    (h : (m.pgdir.pte page).clear = false) : m.encryptAt page = m := by
  simp [encryptAt, h]

/-! ## A range of pages -/

/-- The pages the loop of `mencrypt` goes over. -/
def pagesFrom : Nat → Nat → List Nat
  | 0, _ => []
  | n + 1, a => ppn a :: pagesFrom n (u32 (a + 4096))

/-- The pages of a call of `mencrypt`. -/
def mencryptPages (va : Nat) (len : Int) : List Nat := pagesFrom len.toNat (pgRoundDown va)

/-- The effect of `mencrypt` on some pages. -/
def Machine.encryptAll (m : Machine) (pages : List Nat) : Machine :=
  pages.foldl Machine.encryptAt m

@[simp] theorem Machine.encryptAll_nil (m : Machine) : m.encryptAll [] = m := rfl

theorem Machine.encryptAll_cons (m : Machine) (page : Nat) (pages : List Nat) :
    m.encryptAll (page :: pages) = (m.encryptAt page).encryptAll pages := rfl

/-- The loop of `mencrypt` goes over the range unless a page table is missing. -/
theorem mencryptLoop_eq_ok {n va : Nat} {m m' : Machine} :
    mencryptLoop n va m = .ok m'
      ↔ (∀ page ∈ pagesFrom n va, m.pgdir.hasTable page)
        ∧ m' = m.encryptAll (pagesFrom n va) := by
  induction n generalizing va m with
  | zero =>
      constructor
      · intro h
        cases h
        exact ⟨by simp [pagesFrom], rfl⟩
      · intro h
        rw [h.2]
        rfl
  | succ n ih =>
      simp only [mencryptLoop, pagesFrom, List.forall_mem_cons, Machine.encryptAll_cons]
      cases h : m.pgdir.hasTable (ppn va) with
      | false => simp [mencryptPage_null h]
      | true => simp [mencryptPage_eq h, ih]

theorem mencrypt_of_pos {va : Nat} {len : Int} (h : 0 < len) (m : Machine) :
    mencrypt va len m
      = (do let m ← mencryptLoop len.toNat (pgRoundDown va) m; return (0, m)) := by
  rw [mencrypt, if_neg (by omega), if_neg (by omega)]

/-- `mencrypt` of no page or fewer does nothing. -/
theorem mencrypt_of_nonpos {len : Int} (h : len ≤ 0) (va : Nat) (m : Machine) :
    ∃ r, mencrypt va len m = .ok (r, m) := by
  rw [mencrypt]
  split
  · exact ⟨0, rfl⟩
  · rw [if_pos (by omega)]
    exact ⟨-1, rfl⟩

theorem mencryptPages_of_nonpos {va : Nat} {len : Int} (h : len ≤ 0) :
    mencryptPages va len = [] := by
  rw [mencryptPages, Int.toNat_of_nonpos h]
  rfl

/-- The specification of `mencrypt`: when it returns, it has gone over the range. -/
theorem mencrypt_spec {va : Nat} {len r : Int} {m m' : Machine}
    (h : mencrypt va len m = .ok (r, m')) :
    (∀ page ∈ mencryptPages va len, m.pgdir.hasTable page)
      ∧ m' = m.encryptAll (mencryptPages va len) := by
  by_cases hpos : 0 < len
  · rw [mencrypt_of_pos hpos, bind_eq_ok] at h
    obtain ⟨m₁, hm₁, hr⟩ := h
    cases hr
    exact mencryptLoop_eq_ok.mp hm₁
  · have hle : len ≤ 0 := by omega
    obtain ⟨r', hr'⟩ := mencrypt_of_nonpos hle va m
    rw [hr'] at h
    cases h
    rw [mencryptPages_of_nonpos hle]
    exact ⟨by simp, rfl⟩

/-- `mencrypt` of one page. -/
theorem mencrypt_one {va : Nat} {m : Machine} (h : m.pgdir.hasTable (ppn va)) :
    mencrypt va 1 m = .ok (0, m.encryptAt (ppn va)) := by
  have hloop : mencryptLoop 1 (pgRoundDown va) m = .ok (m.encryptAt (ppn va)) := by
    rw [mencryptLoop_eq_ok]
    simp [pagesFrom, ppn_pgRoundDown, h, Machine.encryptAll]
  rw [mencrypt_of_pos (by decide), Int.toNat_one, hloop]
  rfl

section EncryptAll

variable (m : Machine) (pages : List Nat)

@[simp] theorem Machine.encryptAll_sz : (m.encryptAll pages).sz = m.sz := by
  induction pages generalizing m with
  | nil => rfl
  | cons page pages ih => rw [encryptAll_cons, ih, encryptAt_sz]

@[simp] theorem Machine.encryptAll_clockQueue :
    (m.encryptAll pages).clockQueue = m.clockQueue := by
  induction pages generalizing m with
  | nil => rfl
  | cons page pages ih => rw [encryptAll_cons, ih, encryptAt_clockQueue]

@[simp] theorem Machine.encryptAll_clockIndex :
    (m.encryptAll pages).clockIndex = m.clockIndex := by
  induction pages generalizing m with
  | nil => rfl
  | cons page pages ih => rw [encryptAll_cons, ih, encryptAt_clockIndex]

@[simp] theorem Machine.encryptAll_frame :
    (m.encryptAll pages).pgdir.frame = m.pgdir.frame := by
  induction pages generalizing m with
  | nil => rfl
  | cons page pages ih => rw [encryptAll_cons, ih, encryptAt_frame]

@[simp] theorem Machine.encryptAll_hasTable (q : Nat) :
    (m.encryptAll pages).pgdir.hasTable q = m.pgdir.hasTable q := by
  induction pages generalizing m with
  | nil => rfl
  | cons page pages ih => rw [encryptAll_cons, ih, encryptAt_hasTable]

/-- Encrypting a page twice is encrypting it once. -/
theorem Pte.encrypted_idem (pte : Pte) : pte.encrypted.encrypted = pte.encrypted := by
  obtain ⟨⟨p, w, u, a, e⟩, f⟩ := pte
  cases p <;> cases u <;> cases e <;> rfl

/-- A range may come by a page twice. -/
theorem Machine.encryptAll_pte (q : Nat) :
    (m.encryptAll pages).pgdir.pte q
      = if q ∈ pages then (m.pgdir.pte q).encrypted else m.pgdir.pte q := by
  induction pages generalizing m with
  | nil => simp
  | cons page pages ih =>
      rw [encryptAll_cons, ih, encryptAt_pte]
      by_cases hq : q = page
      · simp [hq, Pte.encrypted_idem]
      · simp [hq]

end EncryptAll

/-- A range without a page in the clear is left alone. -/
theorem Machine.encryptAll_of_not_clear {m : Machine} {pages : List Nat}
    (h : ∀ page ∈ pages, (m.pgdir.pte page).clear = false) : m.encryptAll pages = m := by
  induction pages with
  | nil => rfl
  | cons page pages ih =>
      rw [List.forall_mem_cons] at h
      rw [encryptAll_cons, encryptAt_of_not_clear h.1, ih h.2]

/-! ## Decryption -/

/-- A page `mdecrypt` changes. -/
def Pte.sealed (pte : Pte) : Bool := pte.e && !pte.p && pte.u

/-- What `mdecrypt` does before it calls `insertQueue`. -/
def Machine.decryptAt (m : Machine) (page : Nat) : Machine :=
  (m.flip (m.pgdir.pte page).frame).setPte page
    { m.pgdir.pte page with p := true, e := false }

theorem mdecryptWith_sealed {insert : Nat → Option PtePtr → Machine → Except Fault Machine}
    {va : Nat} {m : Machine} (ht : m.pgdir.hasTable (ppn va))
    (h : (m.pgdir.pte (ppn va)).sealed) :
    mdecryptWith insert va m
      = (do
          let m ← insert (pgRoundDown va) (some ⟨m.pgdir.frame, ppn va⟩)
            (m.decryptAt (ppn va))
          return (0, m)) := by
  simp only [Pte.sealed, Bool.and_eq_true, Bool.not_eq_true'] at h
  obtain ⟨⟨he, hp⟩, hu⟩ := h
  have ht' : m.pgdir.hasTable (ppn (pgRoundDown va)) := by rwa [ppn_pgRoundDown]
  have hw : walkpgdir m.pgdir (pgRoundDown va) = some ⟨m.pgdir.frame, ppn va⟩ := by
    rw [walkpgdir_eq_some, ppn_pgRoundDown]
    exact ⟨ht, rfl⟩
  simp only [mdecryptWith, uva2ka_eq ht', hw, ppn_pgRoundDown, Pte.mapped, he, hp, hu,
    Bool.or_true, Bool.and_true, Bool.not_false, if_true, ok_bind, Machine.decryptAt]

/-- `mdecrypt` of a page that is not encrypted, or not the user's, fails. -/
theorem mdecryptWith_not_sealed
    {insert : Nat → Option PtePtr → Machine → Except Fault Machine}
    {va : Nat} {m : Machine} (ht : m.pgdir.hasTable (ppn va))
    (h : (m.pgdir.pte (ppn va)).sealed = false) :
    mdecryptWith insert va m = .ok (-1, m) := by
  have ht' : m.pgdir.hasTable (ppn (pgRoundDown va)) := by rwa [ppn_pgRoundDown]
  simp only [mdecryptWith, uva2ka_eq ht', ok_bind, ppn_pgRoundDown]
  revert h
  unfold Pte.sealed Pte.mapped
  cases hp : (m.pgdir.pte (ppn va)).p <;> cases hu : (m.pgdir.pte (ppn va)).u <;>
    cases he : (m.pgdir.pte (ppn va)).e <;> simp

/-- The specification of `mdecrypt`, as seen from a call that returned. -/
theorem mdecryptWith_spec {insert : Nat → Option PtePtr → Machine → Except Fault Machine}
    {va : Nat} {r : Int} {m m' : Machine} (h : mdecryptWith insert va m = .ok (r, m')) :
    m.pgdir.hasTable (ppn va)
      ∧ (((m.pgdir.pte (ppn va)).sealed = false ∧ r = -1 ∧ m' = m)
        ∨ ((m.pgdir.pte (ppn va)).sealed ∧ r = 0
          ∧ insert (pgRoundDown va) (some ⟨m.pgdir.frame, ppn va⟩)
              (m.decryptAt (ppn va)) = .ok m')) := by
  cases ht : m.pgdir.hasTable (ppn va) with
  | false =>
      rw [mdecryptWith, uva2ka_null (by rwa [ppn_pgRoundDown])] at h
      cases h
  | true =>
      refine ⟨rfl, ?_⟩
      cases hs : (m.pgdir.pte (ppn va)).sealed with
      | false =>
          rw [mdecryptWith_not_sealed ht hs] at h
          cases h
          exact .inl ⟨rfl, rfl, rfl⟩
      | true =>
          rw [mdecryptWith_sealed ht hs, bind_eq_ok] at h
          obtain ⟨m₁, hm₁, hr⟩ := h
          cases hr
          exact .inr ⟨rfl, rfl, hm₁⟩

end CS537.Pager
