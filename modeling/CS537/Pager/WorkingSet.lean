import CS537.Pager.Exec

/-!
# Pager — the working set

The invariant of a process between two events, with the list `Q` its queue reads
as. `Paged` is what the fault handler needs: a queued page is in the clear or not
mapped at all, and a user page is in the clear or encrypted. `Covered` says
besides that every page in the clear is queued. One lemma for each event says
what it keeps of the two, and under which condition.
-/

namespace CS537.Pager

open MachineInt

/-- What holds of a process whose queue reads as `Q`. -/
structure Paged (m : Machine) (Q : List Nat) : Prop where
  view : QueueView m Q
  size : m.sz < kernbase
  aligned : ∀ v ∈ Q, v % 4096 = 0
  below : ∀ v ∈ Q, v < m.sz
  queued : ∀ v ∈ Q, (m.pgdir.pte (ppn v)).Decrypted ∨ (m.pgdir.pte (ppn v)).mapped = false
  table : ∀ page, (m.pgdir.pte page).u → m.pgdir.hasTable page
  user : ∀ page, (m.pgdir.pte page).u → 4096 * page < m.sz
  coded : ∀ page, (m.pgdir.pte page).u →
    (m.pgdir.pte page).Decrypted ∨ (m.pgdir.pte page).sealed

/-- Every page in the clear is queued. -/
def Covered (m : Machine) (Q : List Nat) : Prop :=
  ∀ page, (m.pgdir.pte page).Decrypted → 4096 * page ∈ Q

/-- A page some slot names. -/
def Machine.Named (m : Machine) (page : Nat) : Prop :=
  ∃ i < clocksize, (m.clockQueue i).vpn = 4096 * page

variable {m m' : Machine} {Q : List Nat}

/-! ## Entries -/

theorem Pte.sealed_iff {pte : Pte} : pte.sealed = true ↔ pte.e ∧ pte.p = false ∧ pte.u := by
  rw [sealed, Bool.and_eq_true, Bool.and_eq_true, Bool.not_eq_true', and_assoc]

theorem Pte.Decrypted.not_sealed {pte : Pte} (h : pte.Decrypted) : pte.sealed = false := by
  simp [sealed, h.plain]

theorem Pte.Decrypted.mapped {pte : Pte} (h : pte.Decrypted) : pte.mapped = true := by
  simp [Pte.mapped, h.present]

theorem Pte.sealed_mapped {pte : Pte} (h : pte.sealed) : pte.mapped = true := by
  rw [sealed_iff] at h
  simp [mapped, h.1]

/-- Encryption of a page in the clear. -/
theorem Pte.Decrypted.encrypted {pte : Pte} (h : pte.Decrypted) : pte.encrypted.sealed := by
  rw [Pte.encrypted, if_pos h.clear, sealed_iff]
  exact ⟨rfl, rfl, h.user⟩

theorem Pte.encrypted_of_not_clear {pte : Pte} (h : pte.clear = false) :
    pte.encrypted = pte := by
  simp [encrypted, h]

theorem Pte.sealed_not_clear {pte : Pte} (h : pte.sealed) : pte.clear = false := by
  rw [sealed_iff] at h
  simp [clear, h.1]

theorem Pte.unmapped_not_clear {pte : Pte} (h : pte.mapped = false) : pte.clear = false := by
  simp [clear, h]

theorem Pte.encrypted_user {pte : Pte} : pte.encrypted.u = pte.u := by
  unfold encrypted
  split <;> rfl

/-! ## Names -/

theorem QueueView.named_iff (h : QueueView m Q) {page : Nat} (hp : 4096 * page < noVpn) :
    m.Named page ↔ 4096 * page ∈ Q := by
  rw [Machine.Named, h.mem_iff hp]

theorem QueueView.named (h : QueueView m Q) {page : Nat} (hp : 4096 * page ∈ Q) :
    m.Named page := (h.named_iff (h.vpn_lt _ hp)).mpr hp

/-- A queued address is that of its page. -/
theorem Paged.ppn_mul (h : Paged m Q) {v : Nat} (hv : v ∈ Q) : 4096 * ppn v = v := by
  have := h.aligned v hv
  unfold ppn
  omega

theorem Paged.mem_of_ppn (h : Paged m Q) {page : Nat} (hp : page ∈ Q.map ppn) :
    4096 * page ∈ Q := by
  obtain ⟨v, hv, rfl⟩ := List.mem_map.mp hp
  rw [h.ppn_mul hv]
  exact hv

/-! ## Changes of entries -/

/-- A change that leaves the queue alone keeps `Paged` if it keeps what `Paged`
says of each entry. -/
theorem Paged.update (h : Paged m Q) (hq : m'.clockQueue = m.clockQueue)
    (hi : m'.clockIndex = m.clockIndex) (hf : m'.pgdir.frame = m.pgdir.frame)
    (ht : ∀ page, m.pgdir.hasTable page → m'.pgdir.hasTable page)
    (hsz : m.sz ≤ m'.sz) (hlt : m'.sz < kernbase)
    (hqueued : ∀ v ∈ Q,
      (m'.pgdir.pte (ppn v)).Decrypted ∨ (m'.pgdir.pte (ppn v)).mapped = false)
    (huser : ∀ page, (m'.pgdir.pte page).u →
      m'.pgdir.hasTable page ∧ 4096 * page < m'.sz
        ∧ ((m'.pgdir.pte page).Decrypted ∨ (m'.pgdir.pte page).sealed)) :
    Paged m' Q where
  view := h.view.congr hq hi hf fun _ _ => ht _
  size := hlt
  aligned := h.aligned
  below := fun v hv => Nat.lt_of_lt_of_le (h.below v hv) hsz
  queued := hqueued
  table := fun page hu => (huser page hu).1
  user := fun page hu => (huser page hu).2.1
  coded := fun page hu => (huser page hu).2.2

/-- Others may do to physical memory what they like. -/
theorem Paged.other (h : Paged m Q) (ph : Phys) : Paged { m with phys := ph } Q :=
  h.update rfl rfl rfl (fun _ ht => ht) (Nat.le_refl _) h.size h.queued
    fun page hu => ⟨h.table page hu, h.user page hu, h.coded page hu⟩

/-- The hardware sets `PTE_A`. -/
theorem Paged.touch (h : Paged m Q) {page : Nat} (hp : (m.pgdir.pte page).p)
    (hu : (m.pgdir.pte page).u) :
    Paged (m.setPte page { m.pgdir.pte page with a := true }) Q
      ∧ (Covered m Q → Covered (m.setPte page { m.pgdir.pte page with a := true }) Q) := by
  have hdec : (m.pgdir.pte page).Decrypted := by
    rcases h.coded page hu with hd | hs
    · exact hd
    · rw [Pte.sealed_iff, hp] at hs
      cases hs.2.1
  have hpte : ∀ q, (m.setPte page { m.pgdir.pte page with a := true }).pgdir.pte q
      = if q = page then { m.pgdir.pte page with a := true } else m.pgdir.pte q := by
    intro q
    exact PgDir.set_pte _ _ _ _
  constructor
  · refine h.update rfl rfl rfl (fun _ ht => ht) (Nat.le_refl _) h.size ?_ ?_
    · intro v hv
      rw [hpte]
      split
      · exact .inl (hdec.setRef true)
      · exact h.queued v hv
    · intro q hq
      rw [hpte] at hq ⊢
      split at hq
      · rename_i heq
        rw [if_pos heq, heq]
        exact ⟨h.table page hu, h.user page hu, .inl (hdec.setRef true)⟩
      · rename_i hne
        rw [if_neg hne]
        exact ⟨h.table q hq, h.user q hq, h.coded q hq⟩
  · intro hc q hq
    rw [hpte] at hq
    split at hq
    · rename_i heq
      rw [heq]
      exact hc page hdec
    · exact hc q hq

/-- Encrypting pages that are not queued. -/
theorem Paged.encryptAll (h : Paged m Q) {pages : List Nat}
    (hout : ∀ page ∈ pages, (m.pgdir.pte page).clear → 4096 * page ∉ Q) :
    Paged (m.encryptAll pages) Q := by
  refine h.update (by simp) (by simp) (by simp) (by simp) (by simp) (by simpa using h.size)
    ?_ ?_
  · intro v hv
    rw [Machine.encryptAll_pte]
    rcases h.queued v hv with hd | hm
    · split
      · rename_i hin
        have := hout _ hin hd.clear
        rw [h.ppn_mul hv] at this
        exact absurd hv this
      · exact .inl hd
    · rw [Pte.encrypted_of_not_clear (Pte.unmapped_not_clear hm), ite_self]
      exact .inr hm
  · intro page hu
    have hu' : (m.pgdir.pte page).u := by
      rw [Machine.encryptAll_pte] at hu
      split at hu
      · rwa [Pte.encrypted_user] at hu
      · exact hu
    refine ⟨by simpa using h.table page hu', by simpa using h.user page hu', ?_⟩
    rw [Machine.encryptAll_pte]
    split
    · rcases h.coded page hu' with hd | hs
      · exact .inr hd.encrypted
      · rw [Pte.encrypted_of_not_clear (Pte.sealed_not_clear hs)]
        exact .inr hs
    · exact h.coded page hu'

/-! ## Fuel -/

theorem insertLoop_mono {vpn n n' : Nat} {pte : Option PtePtr} (hle : n ≤ n') {m m' : Machine}
    (h : insertLoop vpn pte n m = .ok m') : insertLoop vpn pte n' m = .ok m' := by
  induction n generalizing n' m with
  | zero => cases h
  | succ n ih =>
      obtain ⟨k, rfl⟩ : ∃ k, n' = k + 1 := ⟨n' - 1, by omega⟩
      rw [insertLoop, bind_eq_ok] at h ⊢
      obtain ⟨i, hi, h⟩ := h
      refine ⟨i, hi, ?_⟩
      simp only at h ⊢
      split at h
      · rename_i hempty
        rw [if_pos hempty]
        exact h
      · rename_i hocc
        rw [if_neg hocc]
        rw [bind_eq_ok] at h ⊢
        obtain ⟨page, hpage, h⟩ := h
        refine ⟨page, hpage, ?_⟩
        split at h
        · rename_i ha
          rw [if_pos ha]
          exact h
        · rename_i ha
          rw [if_neg ha]
          exact ih (by omega) h

/-- More slots and more depth do not change what a call that returned came to. -/
theorem mdecryptWith_mono {ins ins' : Nat → Option PtePtr → Machine → Except Fault Machine}
    (hins : ∀ v pte m m', ins v pte m = .ok m' → ins' v pte m = .ok m') {va : Nat} {r : Int}
    {m m' : Machine} (h : mdecryptWith ins va m = .ok (r, m')) :
    mdecryptWith ins' va m = .ok (r, m') := by
  obtain ⟨ht, ⟨hs, rfl, rfl⟩ | ⟨hs, rfl, hok⟩⟩ := mdecryptWith_spec h
  · exact mdecryptWith_not_sealed ht hs
  · rw [mdecryptWith_sealed ht hs, hins _ _ _ _ hok]
    rfl

theorem mdecrypt_mono {slots slots' depth depth' : Nat} (hs : slots ≤ slots')
    (hd : depth ≤ depth') {va : Nat} {r : Int} {m m' : Machine}
    (h : mdecrypt slots depth va m = .ok (r, m')) :
    mdecrypt slots' depth' va m = .ok (r, m') := by
  induction depth generalizing depth' va r m m' with
  | zero =>
      have hfail : ∀ ins, mdecryptWith ins va m = .ok (r, m') := by
        intro ins
        exact mdecryptWith_mono (fun _ _ _ _ hok => by cases hok) h
      cases depth' with
      | zero => exact hfail _
      | succ depth' => exact hfail _
  | succ depth ih =>
      obtain ⟨k, rfl⟩ : ∃ k, depth' = k + 1 := ⟨depth' - 1, by omega⟩
      apply mdecryptWith_mono _ h
      intro v pte m₁ m₂ hok
      unfold insertQueue at hok ⊢
      simp only [bind_eq_ok] at hok ⊢
      obtain ⟨m₃, hloop, ⟨r₄, m₄⟩, hend, heq⟩ := hok
      exact ⟨m₃, insertLoop_mono hs hloop, ⟨r₄, m₄⟩, ih (by omega) hend, heq⟩

/-- Two calls that returned came to the same. -/
theorem mdecrypt_agree {s₁ d₁ s₂ d₂ va : Nat} {r₁ r₂ : Int} {m m₁ m₂ : Machine}
    (h₁ : mdecrypt s₁ d₁ va m = .ok (r₁, m₁)) (h₂ : mdecrypt s₂ d₂ va m = .ok (r₂, m₂)) :
    r₁ = r₂ ∧ m₁ = m₂ := by
  have h₁' := mdecrypt_mono (Nat.le_max_left s₁ s₂) (Nat.le_max_left d₁ d₂) h₁
  have h₂' := mdecrypt_mono (Nat.le_max_right s₁ s₂) (Nat.le_max_right d₁ d₂) h₂
  rw [h₁'] at h₂'
  cases h₂'
  exact ⟨rfl, rfl⟩
/-! ## Page faults -/

theorem Machine.decryptAt_pte (m : Machine) (page q : Nat) :
    (m.decryptAt page).pgdir.pte q
      = if q = page then { m.pgdir.pte page with p := true, e := false }
        else m.pgdir.pte q := PgDir.set_pte _ _ _ _

/-- An encrypted page is not queued. -/
theorem Paged.not_queued (h : Paged m Q) {page : Nat} (hs : (m.pgdir.pte page).sealed) :
    page ∉ Q.map ppn := by
  intro hmem
  have hin := h.mem_of_ppn hmem
  have hq := h.queued _ hin
  rw [CS537.Pager.ppn_mul] at hq
  rcases hq with hd | hm
  · rw [hd.not_sealed] at hs
    cases hs
  · rw [Pte.sealed_mapped hs] at hm
    cases hm

/-- `mdecrypt` of an encrypted page is `insertQueue` of a new page. -/
theorem Paged.insertable (h : Paged m Q) {va : Nat} (hs : (m.pgdir.pte (ppn va)).sealed) :
    QueueView (m.decryptAt (ppn va)) Q
      ∧ Insertable (m.decryptAt (ppn va)) Q (pgRoundDown va)
      ∧ ((m.decryptAt (ppn va)).pgdir.pte (ppn va)).Decrypted := by
  have hs' := Pte.sealed_iff.mp hs
  have ht := h.table _ hs'.2.2
  have hdec : ((m.decryptAt (ppn va)).pgdir.pte (ppn va)).Decrypted := by
    rw [Machine.decryptAt_pte, if_pos rfl]
    exact ⟨rfl, rfl, hs'.2.2⟩
  refine ⟨h.view.congr rfl rfl rfl fun _ _ ht => ht, ?_, hdec⟩
  have hlt := h.user _ hs'.2.2
  have hsz := h.size
  constructor
  · rw [pgRoundDown_ppn]
    simp only [kernbase] at hsz
    simp only [noVpn]
    omega
  · rw [ppn_pgRoundDown]
    exact ht
  · rw [ppn_pgRoundDown]
    exact h.not_queued hs
  · rw [ppn_pgRoundDown]
    exact hdec.present
  · rw [ppn_pgRoundDown]
    exact hdec.plain

/-- What the fault handler makes of the machine and its queue: the page is in the
clear and queued, and any other entry keeps all but its reference bit, or is that
of a page encrypted to make room. -/
structure Faulted (m m' : Machine) (Q Q' : List Nat) (page : Nat) : Prop where
  view : QueueView m' Q'
  sz : m'.sz = m.sz
  table : ∀ q, m'.pgdir.hasTable q = m.pgdir.hasTable q
  decrypted : (m'.pgdir.pte page).Decrypted
  new : 4096 * page ∈ Q'
  old : ∀ v ∈ Q', v = 4096 * page ∨ v ∈ Q
  entry : ∀ q, q ≠ page →
    ((∃ b, m'.pgdir.pte q = { m.pgdir.pte q with a := b })
        ∧ (4096 * q ∈ Q → 4096 * q ∈ Q'))
      ∨ ((∃ b, m'.pgdir.pte q = Pte.encrypted { m.pgdir.pte q with a := b })
        ∧ 4096 * q ∉ Q')

/-- `insertQueue` on a queue with room. -/
theorem Paged.faulted_append (h : Paged m Q) {va : Nat}
    (hs : (m.pgdir.pte (ppn va)).sealed) (hlen : Q.length < 128) :
    ∃ m', insertQueue 129 (mdecrypt 129 0) (pgRoundDown va) (some ⟨m.pgdir.frame, ppn va⟩)
        (m.decryptAt (ppn va)) = .ok m'
      ∧ Faulted m m' Q (Q ++ [pgRoundDown va]) (ppn va) := by
  obtain ⟨hview, hins, hdec⟩ := h.insertable hs
  have hwalk : walkpgdir (m.decryptAt (ppn va)).pgdir (pgRoundDown va)
      = some ⟨m.pgdir.frame, ppn va⟩ := by
    rw [walkpgdir_eq_some, ppn_pgRoundDown]
    exact ⟨h.table _ (Pte.sealed_iff.mp hs).2.2, rfl⟩
  obtain ⟨hok, hview'⟩ := insertQueue_append hview hlen hins 128 129 0
  rw [hwalk] at hok
  refine ⟨_, hok, ⟨hview', rfl, fun _ => rfl, hdec, ?_, ?_, ?_⟩⟩
  · rw [← pgRoundDown_ppn]
    exact List.mem_append_right _ (List.mem_singleton_self _)
  · intro v hv
    rw [← pgRoundDown_ppn]
    rcases List.mem_append.mp hv with hv | hv
    · exact .inr hv
    · exact .inl (List.mem_singleton.mp hv)
  · intro q hq
    refine .inl ⟨⟨(m.pgdir.pte q).a, ?_⟩, fun hin => List.mem_append_left _ hin⟩
    change (m.decryptAt (ppn va)).pgdir.pte q = _
    rw [Machine.decryptAt_pte, if_neg hq]

/-- `insertQueue` on a full queue. -/
theorem Paged.faulted_sweep (h : Paged m Q) {va : Nat}
    (hs : (m.pgdir.pte (ppn va)).sealed) (hlen : Q.length = 128) :
    ∃ m' Q', insertQueue 129 (mdecrypt 129 0) (pgRoundDown va)
        (some ⟨m.pgdir.frame, ppn va⟩) (m.decryptAt (ppn va)) = .ok m'
      ∧ Faulted m m' Q Q' (ppn va) := by
  obtain ⟨hview, hins, hdec⟩ := h.insertable hs
  have hnew := h.not_queued hs
  have hwalk : walkpgdir (m.decryptAt (ppn va)).pgdir (pgRoundDown va)
      = some ⟨m.pgdir.frame, ppn va⟩ := by
    rw [walkpgdir_eq_some, ppn_pgRoundDown]
    exact ⟨h.table _ (Pte.sealed_iff.mp hs).2.2, rfl⟩
  obtain ⟨n, v, r, m', hsweep, hok, hsw⟩ := insertQueue_sweep hview hlen hins 129 0
  rw [hwalk] at hok
  have hperm : (v :: r.map Prod.fst).Perm Q := by
    simpa using hsweep.perm
  have hv : v ∈ Q := hperm.subset List.mem_cons_self
  have hnd : (v :: r.map Prod.fst).Nodup :=
    hperm.nodup_iff.mpr (List.Nodup.of_map _ hview.nodup)
  have hne : ∀ w ∈ Q, ppn w ≠ ppn va := by
    intro w hw heq
    exact hnew (heq ▸ List.mem_map_of_mem hw)
  -- the entries before the call of `insertQueue`
  have hpte : ∀ q, q ≠ ppn va → (m.decryptAt (ppn va)).pgdir.pte q = m.pgdir.pte q := by
    intro q hq
    rw [Machine.decryptAt_pte, if_neg hq]
  refine ⟨m', r.map Prod.fst ++ [pgRoundDown va], hok, ⟨hsw.view, hsw.sz, ?_, ?_, ?_, ?_, ?_⟩⟩
  · intro q
    rw [PgDir.hasTable, hsw.table]
    rfl
  · rw [hsw.others _ hnew]
    exact hdec
  · rw [← pgRoundDown_ppn]
    exact List.mem_append_right _ (List.mem_singleton_self _)
  · intro w hw
    rw [← pgRoundDown_ppn]
    rcases List.mem_append.mp hw with hw | hw
    · exact .inr (hperm.subset (List.mem_cons_of_mem _ hw))
    · exact .inl (List.mem_singleton.mp hw)
  · intro q hq
    by_cases hin : q ∈ Q.map ppn
    · have hqQ := h.mem_of_ppn hin
      rcases List.mem_cons.mp (hperm.symm.subset hqQ) with heq | hrest
      · -- the victim
        refine .inr ⟨⟨false, ?_⟩, ?_⟩
        · have := hsw.victim
          rw [← heq, CS537.Pager.ppn_mul, hpte q hq] at this
          exact this
        · rw [heq, List.mem_append, List.mem_singleton, not_or]
          refine ⟨(List.nodup_cons.mp hnd).1, ?_⟩
          intro hva
          apply hne v hv
          rw [hva, ppn_pgRoundDown]
      · obtain ⟨⟨w, b⟩, hmem, hw⟩ := List.mem_map.mp hrest
        simp only at hw
        refine .inl ⟨⟨b, ?_⟩, fun _ => List.mem_append_left _ hrest⟩
        have := hsw.kept w b hmem
        rw [hw, CS537.Pager.ppn_mul, hpte q hq] at this
        exact this
    · refine .inl ⟨⟨(m.pgdir.pte q).a, ?_⟩, ?_⟩
      · rw [hsw.others q hin, hpte q hq]
      · intro hqQ
        exact absurd (List.mem_map.mpr ⟨_, hqQ, CS537.Pager.ppn_mul q⟩) hin

theorem Pte.encrypted_not_decrypted (pte : Pte) : ¬ pte.encrypted.Decrypted := by
  intro h
  by_cases hc : pte.clear
  · rw [encrypted, if_pos hc] at h
    cases h.present
  · rw [encrypted_of_not_clear (by simpa using hc)] at h
    exact hc h.clear

/-- The fault handler keeps the invariant. -/
theorem Faulted.paged {Q' : List Nat} {page : Nat} (hf : Faulted m m' Q Q' page)
    (h : Paged m Q) (hs : (m.pgdir.pte page).sealed) :
    Paged m' Q' ∧ (Covered m Q → Covered m' Q') := by
  have hu := (Pte.sealed_iff.mp hs).2.2
  -- what the other entries say
  have huser : ∀ q, (m'.pgdir.pte q).u → (m.pgdir.pte q).u := by
    intro q hq
    by_cases heq : q = page
    · rw [heq]
      exact hu
    · rcases hf.entry q heq with ⟨⟨b, hb⟩, _⟩ | ⟨⟨b, hb⟩, _⟩
      · rw [hb] at hq
        exact hq
      · rw [hb, Pte.encrypted_user] at hq
        exact hq
  refine ⟨?_, ?_⟩
  · constructor
    · exact hf.view
    · rw [hf.sz]
      exact h.size
    · intro v hv
      rcases hf.old v hv with rfl | hv
      · exact Nat.mul_mod_right _ _
      · exact h.aligned v hv
    · intro v hv
      rw [hf.sz]
      rcases hf.old v hv with rfl | hv
      · exact h.user page hu
      · exact h.below v hv
    · intro v hv
      by_cases heq : ppn v = page
      · rw [heq]
        exact .inl hf.decrypted
      · have hvQ : v ∈ Q := by
          rcases hf.old v hv with rfl | hvQ
          · exact absurd (CS537.Pager.ppn_mul page) heq
          · exact hvQ
        rcases hf.entry _ heq with ⟨⟨b, hb⟩, _⟩ | ⟨_, hout⟩
        · rw [hb]
          rcases h.queued v hvQ with hd | hm
          · exact .inl (hd.setRef b)
          · exact .inr hm
        · rw [h.ppn_mul hvQ] at hout
          exact absurd hv hout
    · intro q hq
      rw [hf.table]
      exact h.table q (huser q hq)
    · intro q hq
      rw [hf.sz]
      exact h.user q (huser q hq)
    · intro q hq
      by_cases heq : q = page
      · rw [heq]
        exact .inl hf.decrypted
      · have hcoded := h.coded q (huser q hq)
        rcases hf.entry q heq with ⟨⟨b, hb⟩, _⟩ | ⟨⟨b, hb⟩, _⟩
        · rw [hb]
          rcases hcoded with hd | hsq
          · exact .inl (hd.setRef b)
          · exact .inr hsq
        · rw [hb]
          rcases hcoded with hd | hsq
          · exact .inr (hd.setRef b).encrypted
          · have hclear : Pte.clear { m.pgdir.pte q with a := b } = false :=
              Pte.sealed_not_clear hsq
            rw [Pte.encrypted_of_not_clear hclear]
            exact .inr hsq
  · intro hc q hd
    by_cases heq : q = page
    · rw [heq]
      exact hf.new
    · rcases hf.entry q heq with ⟨⟨b, hb⟩, hkeep⟩ | ⟨⟨b, hb⟩, _⟩
      · rw [hb] at hd
        exact hkeep (hc q ⟨hd.present, hd.plain, hd.user⟩)
      · rw [hb] at hd
        exact absurd hd (Pte.encrypted_not_decrypted _)

/-- The fault handler brings an encrypted page into the working set. It examines
one slot more than there are at most, and does not call `insertQueue` again. -/
theorem Paged.fault (h : Paged m Q) {va : Nat} (hs : (m.pgdir.pte (ppn va)).sealed) :
    ∃ m' Q', mdecrypt (clocksize + 1) 1 va m = .ok (0, m') ∧ Paged m' Q'
      ∧ (m'.pgdir.pte (ppn va)).Decrypted ∧ (Covered m Q → Covered m' Q') := by
  have ht := h.table _ (Pte.sealed_iff.mp hs).2.2
  obtain ⟨m', Q', hok, hf⟩ : ∃ m' Q', insertQueue 129 (mdecrypt 129 0) (pgRoundDown va)
      (some ⟨m.pgdir.frame, ppn va⟩) (m.decryptAt (ppn va)) = .ok m'
        ∧ Faulted m m' Q Q' (ppn va) := by
    rcases Nat.lt_or_eq_of_le h.view.length_le with hlen | hlen
    · obtain ⟨m', hok, hf⟩ := h.faulted_append hs hlen
      exact ⟨m', _, hok, hf⟩
    · exact h.faulted_sweep hs hlen
  obtain ⟨hpaged, hcov⟩ := hf.paged h hs
  refine ⟨m', Q', ?_, hpaged, hf.decrypted, hcov⟩
  change mdecryptWith (insertQueue 129 (mdecrypt 129 0)) va m = _
  rw [mdecryptWith_sealed ht hs, hok]
  rfl

/-! ## Growing -/

theorem Machine.encryptAll_withSz (m : Machine) (pages : List Nat) (sz : Nat) :
    { m.encryptAll pages with sz := sz } = ({ m with sz := sz } : Machine).encryptAll pages := by
  induction pages generalizing m with
  | nil => rfl
  | cons page pages ih =>
      rw [Machine.encryptAll_cons, Machine.encryptAll_cons, ih]
      congr 1
      unfold Machine.encryptAt
      split <;> rfl

/-- New pages in the clear, none of them queued. -/
theorem Paged.grown (h : Paged m Q) {d : PgDir} {ph : Phys} {newsz : Nat}
    (hle : m.sz ≤ newsz) (hlt : newsz < kernbase)
    (hev : Evolved (fun page pte => Within (pgRoundUp m.sz) newsz page ∧ pte.toFlags = userFlags)
      (fun _ => False) m.pgdir d) :
    Paged { m with pgdir := d, phys := ph, sz := newsz } Q
      ∧ ∀ page, (d.pte page).Decrypted →
        (m.pgdir.pte page).Decrypted ∨ Within (pgRoundUp m.sz) newsz page := by
  have hold : ∀ page, (d.pte page).u → d.pte page = m.pgdir.pte page
      ∨ (d.hasTable page ∧ Within (pgRoundUp m.sz) newsz page ∧ (d.pte page).Decrypted) := by
    intro page hu
    rcases hev.pte page with heq | ⟨hz, _⟩ | ⟨ht, hin, hf⟩
    · exact .inl heq
    · rw [hz] at hu
      cases hu
    · exact .inr ⟨ht, hin, congrArg Flags.p hf, congrArg Flags.e hf, hu⟩
  constructor
  · refine h.update rfl rfl hev.frame hev.table hle hlt ?_ ?_
    · intro v hv
      rcases hev.pte (ppn v) with heq | ⟨hz, _⟩ | ⟨_, ⟨h1, _⟩, _⟩
      · change (d.pte (ppn v)).Decrypted ∨ (d.pte (ppn v)).mapped = false
        rw [heq]
        exact h.queued v hv
      · change (d.pte (ppn v)).Decrypted ∨ (d.pte (ppn v)).mapped = false
        rw [hz]
        exact .inr rfl
      · -- a queued page is below the old size
        have hb := h.below v hv
        rw [h.ppn_mul hv] at h1
        have := le_pgRoundUp (Nat.le_of_lt h.size)
        omega
    · intro page hu
      change (d.pte page).u = true at hu
      change d.hasTable page = true ∧ 4096 * page < newsz
        ∧ ((d.pte page).Decrypted ∨ (d.pte page).sealed = true)
      rcases hold page hu with heq | ⟨ht, ⟨_, hb⟩, hd⟩
      · rw [heq] at hu ⊢
        exact ⟨hev.table page (h.table page hu), Nat.lt_of_lt_of_le (h.user page hu) hle,
          h.coded page hu⟩
      · exact ⟨ht, hb, .inl hd⟩
  · intro page hd
    rcases hold page hd.user with heq | ⟨_, hin, _⟩
    · rw [heq] at hd
      exact .inl hd
    · exact .inr hin

/-- Some pages are taken down. -/
theorem Paged.taken (h : Paged m Q) {d : PgDir} (ph : Phys)
    (hf : d.frame = m.pgdir.frame) (ht : ∀ page, m.pgdir.hasTable page → d.hasTable page)
    (hpte : ∀ page, d.pte page = m.pgdir.pte page ∨ d.pte page = Pte.zero) :
    Paged { m with pgdir := d, phys := ph } Q
      ∧ (Covered m Q → Covered { m with pgdir := d, phys := ph } Q) := by
  constructor
  · refine h.update rfl rfl hf ht (Nat.le_refl _) h.size ?_ ?_
    · intro v hv
      change (d.pte (ppn v)).Decrypted ∨ (d.pte (ppn v)).mapped = false
      rcases hpte (ppn v) with heq | hz
      · rw [heq]
        exact h.queued v hv
      · rw [hz]
        exact .inr rfl
    · intro page hu
      change (d.pte page).u = true at hu
      change d.hasTable page = true ∧ 4096 * page < m.sz
        ∧ ((d.pte page).Decrypted ∨ (d.pte page).sealed = true)
      rcases hpte page with heq | hz
      · rw [heq] at hu ⊢
        exact ⟨ht page (h.table page hu), h.user page hu, h.coded page hu⟩
      · rw [hz] at hu
        cases hu
  · intro hc page hd
    change (d.pte page).Decrypted at hd
    rcases hpte page with heq | hz
    · rw [heq] at hd
      exact hc page hd
    · rw [hz] at hd
      cases hd.present

/-- A directory that was grown and taken down again has lost pages at most. -/
theorem grown_failed {oldsz newsz lo : Nat} {d d' : PgDir} {ph ph' : Phys} {mid : Vm}
    (hlo : pgRoundUp oldsz ≤ lo) (hrun : VmRun (Growing lo newsz) ⟨d, ph, []⟩ mid)
    (hback : VmRun (Retreating (pgRoundUp oldsz) newsz) mid ⟨d', ph', []⟩)
    (hdone : ∀ page, Within (pgRoundUp oldsz) newsz page → d'.hasTable page →
      (d'.pte page).mapped = false) :
    d'.frame = d.frame ∧ (∀ page, d.hasTable page → d'.hasTable page)
      ∧ ∀ page, d'.pte page = d.pte page ∨ d'.pte page = Pte.zero := by
  have hev := hrun.evolved (growing_bounded _ _)
  have hev' := hback.evolved (retreating_bounded _ _)
  refine ⟨hev'.frame.trans hev.frame, fun page ht => hev'.table page (hev.table page ht), ?_⟩
  intro page
  rcases hev'.pte page with heq | ⟨hz, _⟩ | ⟨_, hF⟩
  · change d'.pte page = mid.dir.pte page at heq
    rcases hev.pte page with hsame | ⟨hz, _⟩ | ⟨ht, hin, hfl⟩
    · exact .inl (heq.trans hsame)
    · exact .inr (heq.trans hz)
    · -- a page mapped on the way has been taken down
      have hm := hdone page ⟨Nat.le_trans hlo hin.1, hin.2⟩ (hev'.table page ht)
      have hp : (d'.pte page).p = true := by
        rw [heq]
        exact congrArg Flags.p hfl
      rw [Pte.mapped, hp] at hm
      cases hm
  · exact .inr hz
  · exact hF.elim

/-! ## Shrinking -/

/-- The loop of `growproc` removes the queued pages from `sz` on, which are not
mapped any more. -/
theorem removeLoop_spec {sz k page : Nat} (hsz : 0 < sz) (hal : page % 4096 = 0)
    (hpage : page < 4294967296) (h : QueueView m Q) (haligned : ∀ v ∈ Q, v % 4096 = 0)
    (hle : ∀ v ∈ Q, v ≤ page)
    (hun : ∀ v ∈ Q, sz ≤ v → (m.pgdir.pte (ppn v)).mapped = false)
    (hok : removeLoop sz k page m = .ok m') :
    ∃ Q', QueueView m' Q' ∧ (∀ v, v ∈ Q' ↔ v ∈ Q ∧ v < sz) ∧ m'.pgdir = m.pgdir
      ∧ m'.phys = m.phys ∧ m'.sz = m.sz := by
  induction k generalizing m Q page with
  | zero =>
      rw [removeLoop] at hok
      split at hok
      · cases hok
      · cases hok
        refine ⟨Q, h, ?_, rfl, rfl, rfl⟩
        intro v
        constructor
        · intro hv
          have := hle v hv
          exact ⟨hv, by omega⟩
        · intro hv
          exact hv.1
  | succ k ih =>
      rw [removeLoop] at hok
      split at hok
      · rename_i hge
        rw [bind_eq_ok] at hok
        obtain ⟨m₁, hrem, hok⟩ := hok
        have hnext : u32 (page + 4294963200) = page - 4096 := by
          unfold u32
          omega
        rw [hnext] at hok
        -- what one call comes to
        obtain ⟨Q₁, h₁, hmem₁, hd₁, hph₁, hsz₁⟩ : ∃ Q₁, QueueView m₁ Q₁
            ∧ (∀ v, v ∈ Q₁ ↔ v ∈ Q ∧ v ≠ page) ∧ m₁.pgdir = m.pgdir ∧ m₁.phys = m.phys
            ∧ m₁.sz = m.sz := by
          by_cases hin : page ∈ Q
          · have hc : 0 ≤ m.clockIndex := by
              by_contra hneg
              have := h.fresh (by have := h.index.1; omega)
              rw [this] at hin
              cases hin
            obtain ⟨m₂, hrem₂, h₂, hd₂, hph₂, hsz₂⟩ := removeQueue_spec h hc hin
            rw [hrem] at hrem₂
            cases hrem₂
            have hclear := Pte.unmapped_not_clear (hun page hin hge)
            rw [Machine.encryptAt_of_not_clear hclear] at hd₂ hph₂
            refine ⟨Q.erase page, h₂, ?_, hd₂, hph₂, hsz₂⟩
            intro v
            rw [(List.Nodup.of_map _ h.nodup).mem_erase_iff, and_comm]
          · have hv : page < noVpn := by
              simp only [noVpn]
              omega
            rw [removeQueue_absent h hv hin] at hrem
            cases hrem
            refine ⟨Q, h, ?_, rfl, rfl, rfl⟩
            intro v
            constructor
            · intro hv
              exact ⟨hv, fun heq => hin (heq ▸ hv)⟩
            · intro hv
              exact hv.1
        obtain ⟨Q', h', hmem', hd', hph', hsz'⟩ := ih (m := m₁) (Q := Q₁) (by omega) (by omega)
          h₁ (fun v hv => haligned v ((hmem₁ v).mp hv).1)
          (by
            intro v hv
            obtain ⟨hvQ, hne⟩ := (hmem₁ v).mp hv
            have h1 := hle v hvQ
            have h2 := haligned v hvQ
            omega)
          (by
            intro v hv hge'
            rw [hd₁]
            exact hun v ((hmem₁ v).mp hv).1 hge') hok
        refine ⟨Q', h', ?_, hd'.trans hd₁, hph'.trans hph₁, hsz'.trans hsz₁⟩
        intro v
        rw [hmem', hmem₁]
        constructor
        · intro ⟨⟨hvQ, _⟩, hlt⟩
          exact ⟨hvQ, hlt⟩
        · intro ⟨hvQ, hlt⟩
          exact ⟨⟨hvQ, by omega⟩, hlt⟩
      · cases hok
        refine ⟨Q, h, ?_, rfl, rfl, rfl⟩
        intro v
        constructor
        · intro hv
          have := hle v hv
          exact ⟨hv, by omega⟩
        · intro hv
          exact hv.1

/-! ## `growproc` -/

/-- `sbrk(n)` gets the memory it asks for. -/
structure Machine.Grows (m : Machine) (n : Int) : Prop where
  pos : 0 < n
  fits : m.sz + n < kernbase
  frames : framesFor (newPages m.sz (m.sz + n).toNat) (ppn (pgRoundUp m.sz)) m.pgdir
    ≤ m.phys.freelist.length

/-- What `growproc` comes to. -/
inductive Resized (m : Machine) (n : Int) : Machine → Prop
  /-- The process has grown, and part of it is encrypted. -/
  | grown {d : PgDir} {ph : Phys} :
      m.Grows n →
      Evolved (fun page pte => Within (pgRoundUp m.sz) (m.sz + n).toNat page
        ∧ pte.toFlags = userFlags) (fun _ => False) m.pgdir d →
      Resized m n (({ m with pgdir := d, phys := ph, sz := (m.sz + n).toNat } : Machine).encryptAll
        (mencryptPages m.sz (n.tdiv 4096)))
  /-- The size stays, but pages may be gone. -/
  | kept {d : PgDir} {ph : Phys} :
      d.frame = m.pgdir.frame → (∀ page, m.pgdir.hasTable page → d.hasTable page) →
      (∀ page, d.pte page = m.pgdir.pte page ∨ d.pte page = Pte.zero) →
      Resized m n { m with pgdir := d, phys := ph }
  /-- The process has shrunk. -/
  | shrunk {d : PgDir} {ph : Phys} {k sz page : Nat} {m' : Machine} :
      0 < sz → sz < m.sz → d.frame = m.pgdir.frame →
      (∀ page, m.pgdir.hasTable page → d.hasTable page) →
      (∀ page, d.pte page = m.pgdir.pte page ∨ d.pte page = Pte.zero) →
      (∀ page, Within (pgRoundUp sz) m.sz page → d.hasTable page →
        (d.pte page).mapped = false) →
      page = pgRoundDown (m.sz - 1) →
      removeLoop sz k page { m with pgdir := d, phys := ph } = .ok m' →
      Resized m n { m' with sz := sz }

theorem growproc_pos {n r : Int} (hsz : m.sz < kernbase) (hn : IsInt n) (hpos : 0 < n)
    (hok : growproc n m = .ok (r, m')) : Resized m n m' := by
  have hadd : toU32 (m.sz + n) = (m.sz + n).toNat := by
    simp only [kernbase] at hsz
    have := hn.2
    unfold toU32
    omega
  unfold growproc at hok
  rw [if_pos hpos, hadd] at hok
  simp only [bind_eq_ok] at hok
  obtain ⟨⟨sz, d, ph⟩, halloc, hok⟩ := hok
  simp only at hok
  split at hok
  · -- no memory, or no addresses
    cases hok
    rename_i hzero
    rcases allocuvm_spec halloc with ⟨_, _, rfl, rfl⟩ | ⟨_, hless, _⟩ | ⟨_, _, hgrown⟩
    · exact .kept rfl (fun _ h => h) fun _ => .inl rfl
    · omega
    · cases hgrown with
      | done hrun =>
          have hev := hrun.evolved (growing_bounded _ _)
          omega
      | failed hrun hback hdone =>
          obtain ⟨hf, ht, hpte⟩ := grown_failed (Nat.le_refl _) hrun hback hdone
          exact .kept hf ht hpte
  · rename_i hne
    simp only [bind_eq_ok] at hok
    obtain ⟨⟨r', m₁⟩, henc, hok⟩ := hok
    cases hok
    obtain ⟨_, rfl⟩ := mencrypt_spec henc
    rcases allocuvm_spec halloc with ⟨_, h0, _⟩ | ⟨_, hless, _⟩ | ⟨hlt, hle, hgrown⟩
    · exact absurd h0 hne
    · omega
    · have henough := allocuvm_enough hle hlt halloc hne
      cases hgrown with
      | failed _ _ _ => exact absurd rfl hne
      | done hrun =>
          have hgrows : m.Grows n := ⟨hpos, by simp only [kernbase] at hlt ⊢; omega, henough⟩
          rw [Machine.encryptAll_withSz]
          exact .grown hgrows (hrun.evolved (growing_bounded _ _))

theorem growproc_neg {n r : Int} (hsz : m.sz < kernbase) (hn : n < 0)
    (hok : growproc n m = .ok (r, m')) : Resized m n m' := by
  unfold growproc at hok
  rw [if_neg (by omega), if_pos hn] at hok
  simp only [bind_eq_ok] at hok
  obtain ⟨⟨sz, d, ph⟩, hde, hok⟩ := hok
  simp only at hok
  rcases deallocuvm_spec (Nat.le_of_lt hsz) [] hde with
    ⟨_, rfl, rfl, rfl⟩ | ⟨hlt, rfl, hrun, hdone⟩
  · -- nothing to take down
    split at hok
    · cases hok
      exact .kept rfl (fun _ h => h) fun _ => .inl rfl
    · rename_i hne
      simp only [bind_eq_ok] at hok
      obtain ⟨m₁, hloop, hok⟩ := hok
      cases hok
      have hpage : pgRoundDown (toU32 ((m.sz : Int) - 1)) < m.sz := by
        simp only [kernbase] at hsz
        unfold pgRoundDown toU32
        omega
      have hstay : ∀ k page, page < m.sz → removeLoop m.sz k page m = .ok m := by
        intro k page hlt
        cases k with
        | zero => rw [removeLoop, if_neg (by omega)]
        | succ k => rw [removeLoop, if_neg (by omega)]
      change removeLoop m.sz _ _ m = _ at hloop
      rw [hstay _ _ hpage] at hloop
      cases hloop
      exact .kept rfl (fun _ h => h) fun _ => .inl rfl
  · have hev := hrun.evolved (unmapping_bounded _ _)
    have hpte : ∀ page, d.pte page = m.pgdir.pte page ∨ d.pte page = Pte.zero := by
      intro page
      rcases hev.pte page with heq | ⟨hz, _⟩ | ⟨_, hF⟩
      · exact .inl heq
      · exact .inr hz
      · exact hF.elim
    split at hok
    · cases hok
      exact .kept hev.frame hev.table hpte
    · rename_i hne
      simp only [bind_eq_ok] at hok
      obtain ⟨m₁, hloop, hok⟩ := hok
      cases hok
      have hpage : toU32 ((m.sz : Int) - 1) = m.sz - 1 := by
        simp only [kernbase] at hsz
        unfold toU32
        omega
      rw [hpage] at hloop
      exact .shrunk (by omega) hlt hev.frame hev.table hpte hdone rfl hloop

/-- The specification of `growproc`. -/
theorem growproc_spec {n r : Int} (hsz : m.sz < kernbase) (hn : IsInt n)
    (hok : growproc n m = .ok (r, m')) : Resized m n m' := by
  by_cases hpos : 0 < n
  · exact growproc_pos hsz hn hpos hok
  · by_cases hneg : n < 0
    · exact growproc_neg hsz hneg hok
    · unfold growproc at hok
      rw [if_neg hpos, if_neg hneg] at hok
      cases hok
      exact .kept rfl (fun _ h => h) fun _ => .inl rfl

/-- The page before a size is the last queued one at most. -/
theorem Paged.le_last (h : Paged m Q) {v : Nat} (hv : v ∈ Q) : v ≤ pgRoundDown (m.sz - 1) := by
  have h1 := h.aligned v hv
  have h2 := h.below v hv
  unfold pgRoundDown
  omega

theorem pgRoundUp_le {sz v : Nat} (hal : v % 4096 = 0) (hle : sz ≤ v) : pgRoundUp sz ≤ v := by
  unfold pgRoundUp u32
  omega

/-- Growing, with the range it encrypts. -/
theorem Paged.grow (h : Paged m Q) {n : Int} {d : PgDir} {ph : Phys} (hg : m.Grows n)
    (hev : Evolved (fun page pte => Within (pgRoundUp m.sz) (m.sz + n).toNat page
      ∧ pte.toFlags = userFlags) (fun _ => False) m.pgdir d)
    (hspare : ∀ page ∈ mencryptPages m.sz (n.tdiv 4096),
      (m.pgdir.pte page).clear → ¬ m.Named page) :
    Paged (({ m with pgdir := d, phys := ph, sz := (m.sz + n).toNat } : Machine).encryptAll
      (mencryptPages m.sz (n.tdiv 4096))) Q := by
  have hpos := hg.pos
  have hfits := hg.fits
  obtain ⟨hpaged, _⟩ := @Paged.grown _ _ h _ ph _ (by omega) (by omega) hev
  apply hpaged.encryptAll
  intro page hin hclear hQ
  have hb := h.below _ hQ
  have hq := h.queued _ hQ
  rw [CS537.Pager.ppn_mul] at hq
  change (d.pte page).clear = true at hclear
  rcases hev.pte page with heq | ⟨hz, _⟩ | ⟨_, ⟨h1, _⟩, _⟩
  · rw [heq] at hclear
    exact hspare page hin hclear (h.view.named hQ)
  · rw [hz] at hclear
    cases hclear
  · have := le_pgRoundUp (Nat.le_of_lt h.size)
    omega

/-- Growing by whole pages from a page boundary, or within the last page. -/
def Machine.GrowsEvenly (m : Machine) (n : Int) : Prop :=
  (m.sz % 4096 = 0 ∧ n % 4096 = 0) ∨ pgRoundUp (m.sz + n).toNat = pgRoundUp m.sz

theorem tdiv_pagesize {n : Int} (h : 0 < n) : n.tdiv 4096 = n / 4096 :=
  Int.tdiv_eq_ediv_of_nonneg (by omega)

/-- The range a process encrypts when it grows by whole pages. -/
theorem mem_growPages {sz : Nat} {n : Int} (hsz : sz % 4096 = 0) (hn : 0 < n)
    (hfits : sz + n < kernbase) {page : Nat} :
    page ∈ mencryptPages sz (n.tdiv 4096)
      ↔ sz ≤ 4096 * page ∧ 4096 * page < sz + n / 4096 * 4096 := by
  simp only [kernbase] at hfits
  have hdown : pgRoundDown sz = sz := by
    unfold pgRoundDown
    omega
  rw [mencryptPages, tdiv_pagesize hn, hdown, mem_pagesFrom hsz (by omega)]
  unfold ppn
  omega

/-- A process that grows within its last page encrypts nothing. -/
theorem growPages_nil {sz : Nat} {n : Int} (hsz : sz < kernbase) (hn : 0 < n)
    (hfits : sz + n < kernbase) (h : pgRoundUp (sz + n).toNat = pgRoundUp sz) :
    mencryptPages sz (n.tdiv 4096) = [] := by
  simp only [kernbase] at hsz hfits
  have hlt : n < 4096 := by
    unfold pgRoundUp u32 at h
    omega
  have hzero : n / 4096 = 0 := by omega
  rw [mencryptPages, tdiv_pagesize hn, hzero]
  rfl

/-- A process that grows evenly encrypts no page it had. -/
theorem Machine.GrowsEvenly.spares {n : Int} (he : m.GrowsEvenly n) (h : Paged m Q)
    (hg : m.Grows n) : ∀ page ∈ mencryptPages m.sz (n.tdiv 4096),
      (m.pgdir.pte page).clear → ¬ m.Named page := by
  intro page hin hclear _
  rcases he with ⟨hsz, _⟩ | hsame
  · have hge := ((mem_growPages hsz hg.pos hg.fits).mp hin).1
    have hu : (m.pgdir.pte page).u = true := by
      rw [Pte.clear, Bool.and_eq_true, Bool.and_eq_true] at hclear
      exact hclear.1.2
    have := h.user page hu
    omega
  · rw [growPages_nil h.size hg.pos hg.fits hsame] at hin
    cases hin

/-- All the new pages of a process that grows evenly are encrypted. -/
theorem Paged.grow_covered (h : Paged m Q) (hc : Covered m Q) {n : Int} {d : PgDir}
    {ph : Phys} (hg : m.Grows n) (he : m.GrowsEvenly n)
    (hev : Evolved (fun page pte => Within (pgRoundUp m.sz) (m.sz + n).toNat page
      ∧ pte.toFlags = userFlags) (fun _ => False) m.pgdir d) :
    Covered (({ m with pgdir := d, phys := ph, sz := (m.sz + n).toNat } : Machine).encryptAll
      (mencryptPages m.sz (n.tdiv 4096))) Q := by
  have hpos := hg.pos
  have hfits := hg.fits
  obtain ⟨_, hdec⟩ := @Paged.grown _ _ h _ ph _ (by omega) (by omega) hev
  intro page hd
  rw [Machine.encryptAll_pte] at hd
  split at hd
  · exact absurd hd (Pte.encrypted_not_decrypted _)
  · rename_i hout
    rcases hdec page hd with hold | ⟨h1, h2⟩
    · exact hc page hold
    · exfalso
      rcases he with ⟨hsz, hn⟩ | hsame
      · apply hout
        rw [mem_growPages hsz hpos hfits]
        have := le_pgRoundUp (Nat.le_of_lt h.size)
        omega
      · have hle : (m.sz + n).toNat ≤ pgRoundUp (m.sz + n).toNat := by
          apply le_pgRoundUp
          omega
        omega

/-- What `growproc` keeps. -/
theorem Resized.paged {n : Int} (hr : Resized m n m') (h : Paged m Q)
    (hspare : m.Grows n → ∀ page ∈ mencryptPages m.sz (n.tdiv 4096),
      (m.pgdir.pte page).clear → ¬ m.Named page) :
    ∃ Q', Paged m' Q'
      ∧ (Covered m Q → (m.Grows n → m.GrowsEvenly n) → Covered m' Q') := by
  cases hr with
  | grown hg hev =>
      exact ⟨Q, h.grow hg hev (hspare hg), fun hc he => h.grow_covered hc hg (he hg) hev⟩
  | @kept d ph hf ht hpte =>
      obtain ⟨hp, hc⟩ := h.taken ph hf ht hpte
      exact ⟨Q, hp, fun h _ => hc h⟩
  | @shrunk d ph k sz page m₂ hpos hlt hf ht hpte hdone hpage hloop =>
      obtain ⟨hp, hc⟩ := h.taken ph hf ht hpte
      have hgone : ∀ q, sz ≤ 4096 * q → 4096 * q < m.sz → d.hasTable q →
          (d.pte q).mapped = false := by
        intro q h1 h2 htq
        exact hdone q ⟨pgRoundUp_le (Nat.mul_mod_right _ _) h1, h2⟩ htq
      have hlast : page % 4096 = 0 ∧ page < 4294967296 := by
        have := h.size
        simp only [kernbase] at this
        rw [hpage]
        unfold pgRoundDown
        omega
      obtain ⟨Q', hview, hmem, hd', hph', hsz'⟩ := removeLoop_spec hpos hlast.1 hlast.2 hp.view
        hp.aligned (fun v hv => hpage ▸ h.le_last hv)
        (by
          intro v hv hge
          have hb := h.below v hv
          rw [← h.ppn_mul hv] at hge hb
          exact hgone _ hge hb (hp.view.table v hv)) hloop
      -- user pages are below the new size
      have huser : ∀ q, (d.pte q).u → 4096 * q < sz := by
        intro q hu
        by_contra hge
        have hm := hgone q (by omega) (hp.user q hu) (hp.table q hu)
        rcases hp.coded q hu with hd | hs
        · have := hd.mapped
          change (d.pte q).mapped = true at this
          rw [hm] at this
          cases this
        · have := Pte.sealed_mapped hs
          change (d.pte q).mapped = true at this
          rw [hm] at this
          cases this
      have hsize := h.size
      refine ⟨Q', ?_, ?_⟩
      · constructor
        · exact hview.congr rfl rfl rfl fun _ _ ht => ht
        · change sz < kernbase
          omega
        · exact fun v hv => hp.aligned v ((hmem v).mp hv).1
        · exact fun v hv => ((hmem v).mp hv).2
        · intro v hv
          change (m₂.pgdir.pte (ppn v)).Decrypted ∨ (m₂.pgdir.pte (ppn v)).mapped = false
          rw [hd']
          exact hp.queued v ((hmem v).mp hv).1
        · intro q hu
          change (m₂.pgdir.pte q).u = true at hu
          change m₂.pgdir.hasTable q = true
          rw [hd'] at hu ⊢
          exact hp.table q hu
        · intro q hu
          change (m₂.pgdir.pte q).u = true at hu
          rw [hd'] at hu
          exact huser q hu
        · intro q hu
          change (m₂.pgdir.pte q).u = true at hu
          change (m₂.pgdir.pte q).Decrypted ∨ (m₂.pgdir.pte q).sealed = true
          rw [hd'] at hu ⊢
          exact hp.coded q hu
      · intro hcov _ q hdec
        change (m₂.pgdir.pte q).Decrypted at hdec
        rw [hd'] at hdec
        exact (hmem _).mpr ⟨hc hcov q hdec, huser q hdec.user⟩

end CS537.Pager
