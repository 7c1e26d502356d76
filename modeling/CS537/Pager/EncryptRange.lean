import CS537.Pager.Exec
import CS537.Pager.Transparency

/-!
# Pager — a range is encrypted as a whole

The system call is to encrypt all pages of a range or none. `sys_mencrypt` refuses
an address at or above the size and a length of zero; the loop of `mencrypt` skips
the pages it may not touch and encrypts the others.
-/

namespace CS537.Pager

open MachineInt

variable {m m' : Machine}

/-! ## What is claimed -/

/-- The pages of `[PGROUNDDOWN(va), PGROUNDDOWN(va) + len * PGSIZE)`, without
wrap-around. -/
def InRange (va : Nat) (len : Int) (page : Nat) : Prop :=
  ppn va ≤ page ∧ (page : Int) < ppn va + len

instance (va : Nat) (len : Int) (page : Nat) : Decidable (InRange va len page) :=
  inferInstanceAs (Decidable (_ ∧ _))

/-- A page the process may use. -/
structure PgDir.Accessible (d : PgDir) (page : Nat) : Prop where
  table : d.hasTable page
  mapped : (d.pte page).mapped
  user : (d.pte page).u

/-- Every page of the range lies in user space and may be used. -/
def ValidRange (m : Machine) (va : Nat) (len : Int) : Prop :=
  ∀ page, InRange va len page → page < kernPage ∧ m.pgdir.Accessible page

/-- The pages of the range are encrypted, and nothing else has changed. -/
structure RangeEncrypted (m : Machine) (va : Nat) (len : Int) (m' : Machine) : Prop where
  encrypted : ∀ page, InRange va len page → (m.pgdir.pte page).e = false →
    m'.pgdir.pte page = { m.pgdir.pte page with p := false, e := true } ∧
      m'.phys.mem (m.pgdir.pte page).frame =
        fun i => m.phys.mem (m.pgdir.pte page).frame i ^^^ 255
  kept : ∀ page, InRange va len page → (m.pgdir.pte page).e →
    m'.pgdir.pte page = m.pgdir.pte page ∧
      m'.phys.mem (m.pgdir.pte page).frame = m.phys.mem (m.pgdir.pte page).frame
  outside : ∀ page, ¬ InRange va len page → m'.pgdir.pte page = m.pgdir.pte page
  bytes : ∀ f, (∀ page, InRange va len page → (m.pgdir.pte page).frame ≠ f) →
    m'.phys.mem f = m.phys.mem f

/-- What a call should do: nothing for length 0, all of a valid range, and fail
without a change in every other case. -/
def AllOrNothing (m : Machine) (va : Nat) (len : Int) : Prop :=
  ∃ r m', sysMencrypt va len m = .ok (r, m') ∧
    (len = 0 → r = 0 ∧ m' = m) ∧
    (0 < len → ValidRange m va len → r = 0 ∧ RangeEncrypted m va len m') ∧
    (len < 0 ∨ 0 < len ∧ ¬ ValidRange m va len → r = -1 ∧ m' = m)

/-! ## The bytes of a range -/

/-- Encryption of one page, seen from a frame. -/
theorem Machine.encryptAt_mem (m : Machine) (page f : Nat) :
    (m.encryptAt page).phys.mem f =
      if (m.pgdir.pte page).clear ∧ f = (m.pgdir.pte page).frame then
        fun i => m.phys.mem f i ^^^ 255
      else m.phys.mem f := by
  unfold Machine.encryptAt
  by_cases hc : (m.pgdir.pte page).clear = true
  · rw [if_pos hc, Machine.flip_phys, Phys.flip_mem, Machine.setPte_phys]
    by_cases hf : f = (m.pgdir.pte page).frame
    · rw [if_pos hf, if_pos ⟨hc, hf⟩, hf]
    · rw [if_neg hf, if_neg (fun h => hf h.2)]
  · rw [if_neg hc, if_neg (fun h => hc h.1)]

/-- A frame no page of the list has keeps its bytes. -/
theorem Machine.encryptAll_mem_other (m : Machine) {pages : List Nat} {f : Nat}
    (hf : ∀ page ∈ pages, (m.pgdir.pte page).frame ≠ f) :
    (m.encryptAll pages).phys.mem f = m.phys.mem f := by
  induction pages generalizing m with
  | nil => rfl
  | cons page pages ih =>
      rw [List.forall_mem_cons] at hf
      have hframe : ∀ q, ((m.encryptAt page).pgdir.pte q).frame = (m.pgdir.pte q).frame := by
        intro q
        rw [Machine.encryptAt_pte]
        split
        · unfold Pte.encrypted
          split <;> rfl
        · rfl
      rw [Machine.encryptAll_cons, ih]
      · rw [Machine.encryptAt_mem, if_neg (fun h => hf.1 h.2.symm)]
      · intro q hq
        rw [hframe]
        exact hf.2 q hq

/-- The frame of a page that comes by once, and whose frame is its own, is flipped
if the page was in the clear. -/
theorem Machine.encryptAll_mem (m : Machine) {pages : List Nat} (hnd : pages.Nodup)
    (hown : ∀ p ∈ pages, ∀ q ∈ pages, (m.pgdir.pte p).frame = (m.pgdir.pte q).frame → p = q)
    {page : Nat} (hpage : page ∈ pages) :
    (m.encryptAll pages).phys.mem (m.pgdir.pte page).frame =
      if (m.pgdir.pte page).clear then fun i => m.phys.mem (m.pgdir.pte page).frame i ^^^ 255
      else m.phys.mem (m.pgdir.pte page).frame := by
  induction pages generalizing m with
  | nil => cases hpage
  | cons p pages ih =>
      obtain ⟨hp, hnd'⟩ := List.nodup_cons.mp hnd
      rw [Machine.encryptAll_cons]
      have hpte : ∀ q ∈ pages, (m.encryptAt p).pgdir.pte q = m.pgdir.pte q := by
        intro q hq
        have hqp : q ≠ p := fun h => hp (by rw [← h]; exact hq)
        rw [Machine.encryptAt_pte, if_neg hqp]
      by_cases heq : page = p
      · subst heq
        rw [Machine.encryptAll_mem_other, Machine.encryptAt_mem]
        · simp
        · intro q hq hf
          rw [hpte q hq] at hf
          have hqp : q = page := hown q (by simp [hq]) page (by simp) hf
          exact hp (by rw [← hqp]; exact hq)
      · have hmem : page ∈ pages := by
          rcases List.mem_cons.mp hpage with h | h
          · exact absurd h heq
          · exact h
        have hother : (m.pgdir.pte page).frame ≠ (m.pgdir.pte p).frame :=
          fun hf => heq (hown page hpage p (by simp) hf)
        have htail := ih (m.encryptAt p) hnd' (by
          intro a ha b hb hf
          rw [hpte a ha, hpte b hb] at hf
          exact hown a (by simp [ha]) b (by simp [hb]) hf) hmem
        have hbytes : (m.encryptAt p).phys.mem (m.pgdir.pte page).frame =
            m.phys.mem (m.pgdir.pte page).frame := by
          rw [Machine.encryptAt_mem, if_neg (fun h => hother h.2)]
        rw [hpte page hmem, hbytes] at htail
        exact htail

/-! ## A valid range -/

theorem pagesFrom_nodup {n a : Nat} (ha : a % 4096 = 0) (hn : a + n * 4096 ≤ 4294967296) :
    (pagesFrom n a).Nodup := by
  induction n generalizing a with
  | zero => simp [pagesFrom]
  | succ n ih =>
      rw [pagesFrom, List.nodup_cons]
      cases n with
      | zero => simp [pagesFrom]
      | succ n =>
          have hnext : u32 (a + 4096) = a + 4096 := u32_of_lt (by omega)
          rw [hnext]
          refine ⟨?_, ih (by omega) (by omega)⟩
          intro hmem
          have hin := (mem_pagesFrom (by omega) (by omega)).mp hmem
          unfold ppn at hin
          omega

/-- A range in user space has its last page below `KERNBASE`. -/
theorem ValidRange.bounded {va : Nat} {len : Int} (h : ValidRange m va len) (hlen : 0 < len) :
    ppn va + len.toNat ≤ kernPage := by
  have hlast := (h (ppn va + len.toNat - 1) ⟨by omega, by omega⟩).1
  simp only [kernPage] at hlast ⊢
  omega

theorem mem_mencryptPages {va : Nat} {len : Int} (hlen : 0 < len)
    (hb : ppn va + len.toNat ≤ kernPage) {page : Nat} :
    page ∈ mencryptPages va len ↔ InRange va len page := by
  simp only [kernPage] at hb
  have hround : pgRoundDown va = 4096 * ppn va := pgRoundDown_ppn va
  rw [mencryptPages, mem_pagesFrom (by omega) (by omega), ppn_pgRoundDown, InRange]
  omega

/-- On a valid range `mencrypt` succeeds and encrypts all of it. -/
theorem ValidRange.encrypts {va : Nat} {len : Int} (hs : Separate m) (hlen : 0 < len)
    (h : ValidRange m va len) :
    ∃ m', mencrypt va len m = .ok (0, m') ∧ RangeEncrypted m va len m' := by
  have hb := h.bounded hlen
  have hmem := @mem_mencryptPages va len hlen hb
  have hnd : (mencryptPages va len).Nodup := by
    simp only [kernPage] at hb
    have hround : pgRoundDown va = 4096 * ppn va := pgRoundDown_ppn va
    exact pagesFrom_nodup (by omega) (by omega)
  have hown : ∀ p ∈ mencryptPages va len, ∀ q ∈ mencryptPages va len,
      (m.pgdir.pte p).frame = (m.pgdir.pte q).frame → p = q := by
    intro p hp q hq hf
    obtain ⟨-, hap⟩ := h p (hmem.mp hp)
    obtain ⟨-, haq⟩ := h q (hmem.mp hq)
    exact hs.distinct p q ⟨hap.table, hap.mapped, .inr hap.user⟩
      ⟨haq.table, haq.mapped, .inr haq.user⟩ hf
  refine ⟨m.encryptAll (mencryptPages va len), ?_, ?_, ?_, ?_, ?_⟩
  · have hloop : mencryptLoop len.toNat (pgRoundDown va) m =
        .ok (m.encryptAll (mencryptPages va len)) := by
      rw [mencryptLoop_eq_ok]
      exact ⟨fun page hp => (h page (hmem.mp hp)).2.table, rfl⟩
    rw [mencrypt_of_pos hlen, hloop]
    rfl
  · intro page hin he
    obtain ⟨-, ha⟩ := h page hin
    have hclear : (m.pgdir.pte page).clear = true := by
      simp [Pte.clear, ha.mapped, ha.user, he]
    rw [Machine.encryptAll_pte, if_pos (hmem.mpr hin), Pte.encrypted, if_pos hclear,
      Machine.encryptAll_mem m hnd hown (hmem.mpr hin), if_pos hclear]
    exact ⟨rfl, rfl⟩
  · intro page hin he
    have hclear : (m.pgdir.pte page).clear = false := by
      simp [Pte.clear, he]
    have hnot : ¬ (m.pgdir.pte page).clear = true := by simp [hclear]
    rw [Machine.encryptAll_pte, if_pos (hmem.mpr hin), Pte.encrypted, if_neg hnot,
      Machine.encryptAll_mem m hnd hown (hmem.mpr hin), if_neg hnot]
    exact ⟨rfl, rfl⟩
  · intro page hout
    rw [Machine.encryptAll_pte, if_neg (fun hp => hout (hmem.mp hp))]
  · intro f hf
    exact m.encryptAll_mem_other fun page hp => hf page (hmem.mp hp)

/-! ## The system call -/

theorem sysMencrypt_refused {va : Nat} {len : Int} (h : len ≤ 0 ∨ m.sz ≤ va) :
    sysMencrypt va len m = .ok (-1, m) := by
  rw [sysMencrypt]
  split
  · rfl
  · rw [if_pos (by omega)]

theorem sysMencrypt_accepted {va : Nat} {len : Int} (hs : Separate m) (hlen : 0 < len)
    (hva : va < m.sz) : sysMencrypt va len m = mencrypt va len m := by
  have hsz := hs.size
  simp only [kernbase] at hsz
  have hone : u32 (va + 1) = va + 1 := u32_of_lt (by omega)
  rw [sysMencrypt, if_neg (by omega), hone, if_neg (by omega), if_neg]
  simp only [kernbase, phystop]
  omega

/-- **All or nothing**: the call does what it should exactly for a negative length,
and for a positive one if the address is below the size just when the whole range is
valid. -/
theorem mencrypt_all_or_nothing_iff (hs : Separate m) (va : Nat) (len : Int) :
    AllOrNothing m va len ↔ len < 0 ∨ 0 < len ∧ (va < m.sz ↔ ValidRange m va len) := by
  rcases Int.lt_trichotomy len 0 with hneg | hzero | hpos
  · apply iff_of_true _ (.inl hneg)
    exact ⟨-1, m, sysMencrypt_refused (.inl (by omega)), by omega, by omega,
      fun _ => ⟨rfl, rfl⟩⟩
  · -- length 0 is refused
    apply iff_of_false _ (by omega)
    rintro ⟨r, m', hcall, h0, -⟩
    rw [sysMencrypt_refused (.inl (by omega))] at hcall
    cases hcall
    exact absurd (h0 hzero).1 (by decide)
  · rw [or_iff_right (by omega), and_iff_right hpos]
    by_cases hva : va < m.sz
    · rw [iff_true_left hva]
      constructor
      · rintro ⟨r, m', hcall, -, -, hfail⟩
        by_contra hinvalid
        rw [sysMencrypt_accepted hs hpos hva, mencrypt_of_pos hpos, bind_eq_ok] at hcall
        obtain ⟨m₁, -, hr⟩ := hcall
        cases hr
        exact absurd (hfail (.inr ⟨hpos, hinvalid⟩)).1 (by decide)
      · intro hvalid
        obtain ⟨m', hcall, hrange⟩ := hvalid.encrypts hs hpos
        rw [← sysMencrypt_accepted hs hpos hva] at hcall
        refine ⟨0, m', hcall, by omega, fun _ _ => ⟨rfl, hrange⟩, ?_⟩
        rintro (hneg | ⟨-, hinvalid⟩)
        · omega
        · exact absurd hvalid hinvalid
    · rw [iff_false_left hva]
      have hcall : sysMencrypt va len m = .ok (-1, m) := sysMencrypt_refused (.inr (by omega))
      constructor
      · rintro ⟨r, m', hcall', -, hok, -⟩ hvalid
        rw [hcall] at hcall'
        cases hcall'
        exact absurd (hok hpos hvalid).1 (by decide)
      · intro hinvalid
        exact ⟨-1, m, hcall, by omega, fun _ hvalid => absurd hvalid hinvalid,
          fun _ => ⟨rfl, rfl⟩⟩

theorem mencrypt_all_or_nothing_onePage : AllOrNothing onePage 4096 1 := by
  apply (mencrypt_all_or_nothing_iff onePage_separate 4096 1).mpr
  refine .inr ⟨by decide, iff_of_true (by decide) ?_⟩
  intro page hin
  have hpage : page = 1 := by
    have h1 : 1 ≤ page := hin.1
    have h2 : (page : Int) < 1 + 1 := hin.2
    omega
  subst hpage
  exact ⟨by decide, rfl, rfl, rfl⟩

/-- A range of two pages of which the second is not mapped: the call reports success
and has encrypted the first. -/
theorem range_half_encrypted : ¬ ∀ m va len, Separate m → IsInt len → AllOrNothing m va len := by
  intro h
  obtain ⟨r, m', hcall, -, -, hfail⟩ := h onePage 4096 2 onePage_separate ⟨by decide, by decide⟩
  have hinvalid : ¬ ValidRange onePage 4096 2 := by
    intro hvalid
    have hmapped := (hvalid 2 ⟨by decide, by decide⟩).2.mapped
    cases hmapped
  have hr := (hfail (.inr ⟨by decide, hinvalid⟩)).1
  rw [sysMencrypt_accepted onePage_separate (by decide) (by decide), mencrypt_of_pos (by decide),
    bind_eq_ok] at hcall
  obtain ⟨m₁, -, hr'⟩ := hcall
  cases hr'
  cases hr

end CS537.Pager
