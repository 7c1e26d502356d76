import CS537.Pager.Fork

/-!
# Pager — the fault handler ends

`mdecrypt`, `insertQueue` and `mencrypt` call each other. The handler ends as long
as no slot of the queue names a page that has been encrypted behind its back. A
`mencrypt` of a queued page, or an `sbrk` whose range starts on one, leaves such a
slot; enough of them, and `insertQueue` encrypts the page it inserts for ever.
-/

namespace CS537.Pager

open MachineInt

variable {m m' : Machine} {Q : List Nat}

/-! ## One event -/

/-- The event encrypts no page that a slot names. -/
def Spares (m : Machine) : Event → Prop
  | .mencrypt va len => va < m.sz → ∀ page ∈ mencryptPages va len,
      (m.pgdir.pte page).clear → ¬ m.Named page
  | .sbrk n => m.Grows n → ∀ page ∈ mencryptPages m.sz (n.tdiv 4096),
      (m.pgdir.pte page).clear → ¬ m.Named page
  | _ => True

/-- The event encrypts no page that is in the clear, and all the pages it maps. -/
def Balances (m : Machine) : Event → Prop
  | .mencrypt va len => va < m.sz → ∀ page ∈ mencryptPages va len,
      (m.pgdir.pte page).clear = false
  | .sbrk n => m.Grows n → m.GrowsEvenly n
  | _ => True

/-- A process that balances its pages spares those in the queue. -/
theorem Balances.spares {e : Event} (h : Paged m Q) (hb : Balances m e) : Spares m e := by
  cases e with
  | mencrypt va len =>
      intro hlt page hin hclear
      rw [hb hlt page hin] at hclear
      cases hclear
  | sbrk n =>
      intro hg
      exact (hb hg).spares h hg
  | access _ => trivial
  | fork _ _ => trivial
  | child _ _ => trivial
  | exec _ _ _ => trivial
  | other _ => trivial

/-- What `sys_mencrypt` comes to. -/
theorem sysMencrypt_spec {va : Nat} {len r : Int} (h : sysMencrypt va len m = .ok (r, m')) :
    m' = m ∨ (va < m.sz ∧ m' = m.encryptAll (mencryptPages va len)) := by
  unfold sysMencrypt at h
  split at h
  · cases h
    exact .inl rfl
  · split at h
    · cases h
      exact .inl rfl
    · rename_i hlt
      split at h
      · cases h
        exact .inl rfl
      · exact .inr ⟨by omega, (mencrypt_spec h).2⟩

/-- The queue of a process that has completed `exec` is empty. -/
theorem Fresh.paged (h : Fresh m) : Paged m [] ∧ Covered m [] := by
  refine ⟨?_, ?_⟩
  · constructor
    · exact h.reset.holds.view
    · exact h.size
    · simp
    · simp
    · simp
    · exact fun page hu => (h.user page hu).1
    · exact fun page hu => (h.user page hu).2.1
    · intro page hu
      obtain ⟨_, _, hp, he⟩ := h.user page hu
      exact .inr (Pte.sealed_iff.mpr ⟨he, hp, hu⟩)
  · intro page hd
    have hp := (h.user page hd.user).2.2.1
    rw [hd.present] at hp
    cases hp

/-- An access that faults and goes on was one to an encrypted page. -/
theorem Paged.fault_step (h : Paged m Q) {va slots depth : Nat}
    (hok : mdecrypt slots depth va m = .ok (0, m')) :
    ∃ Q', Paged m' Q' ∧ (Covered m Q → Covered m' Q') := by
  have hspec : (m.pgdir.pte (ppn va)).sealed = true := by
    have hcase : ∀ {ins}, mdecryptWith ins va m = .ok (0, m') →
        (m.pgdir.pte (ppn va)).sealed = true := by
      intro ins hok
      obtain ⟨_, ⟨_, hr, _⟩ | ⟨hs, _, _⟩⟩ := mdecryptWith_spec hok
      · cases hr
      · exact hs
    cases depth with
    | zero => exact hcase hok
    | succ depth => exact hcase hok
  obtain ⟨m₁, Q', hok₁, hpaged, _, hcov⟩ := h.fault hspec
  obtain ⟨_, rfl⟩ := mdecrypt_agree hok hok₁
  exact ⟨Q', hpaged, hcov⟩

/-- What one event keeps of the invariant. -/
theorem Step.paged {e : Event} (hs : Step m e m') (h : Paged m Q) (hspare : Spares m e) :
    ∃ Q', Paged m' Q' ∧ (Covered m Q → Balances m e → Covered m' Q') := by
  cases hs with
  | touch _ _ hp hu =>
      obtain ⟨hpaged, hcov⟩ := h.touch hp hu
      exact ⟨Q, hpaged, fun hc _ => hcov hc⟩
  | fault _ _ _ hok =>
      obtain ⟨Q', hpaged, hcov⟩ := h.fault_step hok
      exact ⟨Q', hpaged, fun hc _ => hcov hc⟩
  | mencrypt _ _ hok =>
      rcases sysMencrypt_spec hok with rfl | ⟨hlt, rfl⟩
      · exact ⟨Q, h, fun hc _ => hc⟩
      · refine ⟨Q, h.encryptAll ?_, ?_⟩
        · intro page hin hclear hQ
          exact hspare hlt page hin hclear (h.view.named hQ)
        · intro hc hb
          rw [Machine.encryptAll_of_not_clear (hb hlt)]
          exact hc
  | sbrk hn hok => exact (growproc_spec h.size hn hok).paged h hspare
  | fork hok =>
      obtain ⟨ph, rfl⟩ := (fork_spec hok).parent
      exact ⟨Q, h.other ph, fun hc _ => hc⟩
  | child hok =>
      cases fork_spec hok with
      | @child n kstack rest d ph _ _ hcopy =>
          obtain ⟨hpaged, hcov⟩ :=
            h.childOf (copyuvm_copyOf (Nat.le_of_lt h.size) hcopy) ph _
          exact ⟨Q, hpaged, fun hc _ => hcov hc⟩
  | exec hok =>
      rcases exec_spec hok with ⟨_, hfresh⟩ | ⟨_, ph, rfl⟩
      · exact ⟨[], hfresh.paged.1, fun _ _ => hfresh.paged.2⟩
      · exact ⟨Q, h.other ph, fun hc _ => hc⟩
  | other => exact ⟨Q, h.other _, fun hc _ => hc⟩

theorem Execs.fresh (h : Execs m) : Fresh m := by
  obtain ⟨m₀, file, argv, name, hok⟩ := h
  rcases exec_spec hok with ⟨_, hfresh⟩ | ⟨hr, _⟩
  · exact hfresh
  · cases hr

/-- The invariant holds in every run that encrypts no page a slot names. -/
theorem reachable_paged (h : Lts.Reachable Execs (Lts.Guarded Spares Step) m) :
    ∃ Q, Paged m Q := by
  refine h.invariant (I := fun m => ∃ Q, Paged m Q) ?_ ?_
  · intro m hm
    exact ⟨[], (Execs.fresh hm).paged.1⟩
  · intro m e m' ⟨Q, hQ⟩ ⟨hspare, hs⟩
    obtain ⟨Q', hQ', _⟩ := hs.paged hQ hspare
    exact ⟨Q', hQ'⟩

/-! ## The handler -/

/-- A user page that is encrypted. -/
def Machine.Encrypted (m : Machine) (page : Nat) : Prop :=
  (m.pgdir.pte page).e ∧ (m.pgdir.pte page).u

/-- The handler of a fault at `va` returns: no call of `insertQueue` examines more
than `CLOCKSIZE + 1` slots, the `mdecrypt` it ends in does not call it again, and
the page is in the clear. -/
def Machine.Handles (m : Machine) (va : Nat) : Prop :=
  ∃ m', mdecrypt (clocksize + 1) 1 va m = .ok (0, m')
    ∧ (m'.pgdir.pte (ppn va)).p ∧ (m'.pgdir.pte (ppn va)).e = false

/-- In every run that encrypts no page a slot names, every access to an encrypted
page is handled. -/
theorem faultHandler_ends {va : Nat}
    (h : Lts.Reachable Execs (Lts.Guarded Spares Step) m) (he : m.Encrypted (ppn va)) :
    m.Handles va := by
  obtain ⟨Q, hQ⟩ := reachable_paged h
  have hs : (m.pgdir.pte (ppn va)).sealed = true := by
    rcases hQ.coded _ he.2 with hd | hs
    · have hplain := hd.plain
      rw [he.1] at hplain
      cases hplain
    · exact hs
  obtain ⟨m', _, hok, _, hdec, _⟩ := hQ.fault hs
  exact ⟨m', hok, hdec.present, hdec.plain⟩

theorem faultHandler_ends_bare : ∃ m, Execs m ∧ m.Handles 4096 := by
  obtain ⟨m, hm, _, _, hs⟩ := execs_bare
  have hs' := Pte.sealed_iff.mp hs
  exact ⟨m, hm, faultHandler_ends (Lts.Reachable.initial hm) ⟨hs'.1, hs'.2.2⟩⟩

/-! ## A queue of one page -/

/-- The first `k` slots name page 1. -/
structure Filled (k : Nat) (m : Machine) : Prop where
  index : m.clockIndex = k - 1
  full : ∀ i < k, m.clockQueue i = m.node 4096
  rest : ∀ i < clocksize, k ≤ i → (m.clockQueue i).vpn = noVpn
  size : m.sz = 8192
  table : m.pgdir.hasTable 1

theorem Filled.congr {k : Nat} (h : Filled k m) (hq : m'.clockQueue = m.clockQueue)
    (hi : m'.clockIndex = m.clockIndex) (hsz : m'.sz = m.sz)
    (hf : m'.pgdir.frame = m.pgdir.frame) (ht : m'.pgdir.hasTable 1) : Filled k m' where
  index := hi.trans h.index
  full := by
    intro i hlt
    rw [hq, h.full i hlt, Machine.node, Machine.node, hf]
  rest := by
    rw [hq]
    exact h.rest
  size := hsz.trans h.size
  table := ht

/-- Touching the page takes one more slot. -/
theorem Filled.access {k : Nat} (h : Filled k m) (hk : k < 128)
    (hs : (m.pgdir.pte 1).sealed) :
    ∃ m', Step m (.access 4096) m' ∧ Filled (k + 1) m' ∧ (m'.pgdir.pte 1).Decrypted := by
  have hs' := Pte.sealed_iff.mp hs
  have hppn : ppn 4096 = 1 := rfl
  have hdec : ((m.decryptAt 1).pgdir.pte 1).Decrypted := by
    rw [Machine.decryptAt_pte, if_pos rfl]
    exact ⟨rfl, rfl, hs'.2.2⟩
  have hhead : (m.decryptAt 1).head = k := by
    have hi : (m.decryptAt 1).clockIndex = k - 1 := h.index
    rw [Machine.head, hi]
    omega
  let m' := ((m.decryptAt 1).setIndex k).setSlot k (m.node 4096)
  have hloop : insertLoop 4096 (some ⟨m.pgdir.frame, 1⟩) 1 (m.decryptAt 1) = .ok m' := by
    have hc : -1 ≤ (m.decryptAt 1).clockIndex := by
      have hi : (m.decryptAt 1).clockIndex = k - 1 := h.index
      omega
    have := @insertLoop_empty (m.decryptAt 1) 4096 0 (some ⟨m.pgdir.frame, 1⟩) hc
      (by rw [hhead]; exact h.rest k hk (Nat.le_refl _))
    rw [hhead] at this
    exact this
  have hins : insertQueue 1 (mdecrypt 1 0) 4096 (some ⟨m.pgdir.frame, 1⟩) (m.decryptAt 1)
      = .ok m' :=
    insertQueue_of_loop hloop h.table hdec.plain
  have hok : mdecrypt 1 1 4096 m = .ok (0, m') := by
    change mdecryptWith (insertQueue 1 (mdecrypt 1 0)) 4096 m = _
    rw [mdecryptWith_sealed h.table hs]
    change (insertQueue 1 (mdecrypt 1 0) 4096 (some ⟨m.pgdir.frame, 1⟩) (m.decryptAt 1)
      >>= _) = _
    rw [hins]
    rfl
  refine ⟨m', .fault (by decide) h.table hs'.2.1 hok, ?_, hdec⟩
  constructor
  · change ((k : Nat) : Int) = (k + 1 : Nat) - 1
    omega
  · intro i hi
    change Function.update m.clockQueue k (m.node 4096) i = m.node 4096
    rw [Function.update_apply]
    split
    · rfl
    · exact h.full i (by omega)
  · intro i hi hle
    change (Function.update m.clockQueue k (m.node 4096) i).vpn = noVpn
    rw [Function.update_of_ne (by omega)]
    exact h.rest i hi (by omega)
  · exact h.size
  · exact h.table

/-- Encrypting the page leaves its slots as they are. -/
theorem Filled.encrypt {k : Nat} (h : Filled k m) (hd : (m.pgdir.pte 1).Decrypted) :
    ∃ m', Step m (.mencrypt 4096 1) m' ∧ Filled k m' ∧ (m'.pgdir.pte 1).sealed := by
  have hok : sysMencrypt 4096 1 m = .ok (0, m.encryptAt 1) := by
    have hsz := h.size
    rw [sysMencrypt, if_neg (by decide), if_neg (by rw [hsz]; decide), if_neg (by decide)]
    exact mencrypt_one h.table
  refine ⟨m.encryptAt 1, .mencrypt (by decide) ⟨by decide, by decide⟩ hok, ?_, ?_⟩
  · exact h.congr (by simp) (by simp) (by simp) (by simp) (by simpa using h.table)
  · rw [Machine.encryptAt_pte, if_pos rfl]
    exact hd.encrypted

theorem Fresh.filled (h : Fresh m) (hsz : m.sz = 8192) (ht : m.pgdir.hasTable 1) :
    Filled 0 m where
  index := h.reset.index
  full := by
    intro i hi
    omega
  rest := fun i hi _ => h.reset.empty i hi
  size := hsz
  table := ht

/-- A process can fill its queue with one page. -/
theorem exists_filled : ∀ k ≤ 128,
    ∃ m, Lts.Reachable Execs Step m ∧ Filled k m ∧ (m.pgdir.pte 1).sealed := by
  intro k
  induction k with
  | zero =>
      intro _
      obtain ⟨m, hm, hsz, ht, hs⟩ := execs_bare
      exact ⟨m, .initial hm, (Execs.fresh hm).filled hsz ht, hs⟩
  | succ k ih =>
      intro hk
      obtain ⟨m, hm, hfill, hs⟩ := ih (by omega)
      obtain ⟨m₁, hstep₁, hfill₁, hd₁⟩ := hfill.access (by omega) hs
      obtain ⟨m₂, hstep₂, hfill₂, hs₂⟩ := hfill₁.encrypt hd₁
      exact ⟨m₂, (hm.step hstep₁).step hstep₂, hfill₂, hs₂⟩

/-- All slots name page 1. -/
structure Stuck (m : Machine) : Prop where
  index : -1 ≤ m.clockIndex ∧ m.clockIndex < 128
  full : ∀ i < 128, m.clockQueue i = m.node 4096
  table : m.pgdir.hasTable 1

theorem Filled.stuck (h : Filled 128 m) : Stuck m where
  index := by
    have := h.index
    omega
  full := h.full
  table := h.table

/-- `insertQueue` encrypts the very page it inserts. -/
theorem Stuck.insertLoop (n : Nat) : ∀ {m m' : Machine}, Stuck m → (m.pgdir.pte 1).Decrypted →
    insertLoop 4096 (some ⟨m.pgdir.frame, 1⟩) n m = .ok m' →
    Stuck m' ∧ (m'.pgdir.pte 1).sealed := by
  induction n with
  | zero =>
      intro m m' _ _ hok
      cases hok
  | succ n ih =>
      intro m m' h hd hok
      have hslot := h.full m.head m.head_lt
      have hhead : -1 ≤ ((m.head : Nat) : Int) ∧ ((m.head : Nat) : Int) < 128 := by
        have := m.head_lt
        omega
      cases ha : m.ref 4096 with
      | true =>
          rw [insertLoop_pass h.index.1 hslot (by decide) h.table ha] at hok
          have hd' : Pte.Decrypted { m.pgdir.pte 1 with a := false } := hd.setRef false
          apply ih (m := (m.setIndex m.head).setPte 1 { m.pgdir.pte 1 with a := false })
            ⟨hhead, h.full, h.table⟩ _ hok
          simp only [Machine.setPte_pgdir, PgDir.set_pte, if_true]
          exact hd'
      | false =>
          rw [insertLoop_evict h.index.1 hslot (by decide) h.table ha] at hok
          cases hok
          refine ⟨⟨?_, ?_, ?_⟩, ?_⟩
          · simpa using hhead
          · intro i hi
            have hnode : ∀ m₁ : Machine, m₁.pgdir.frame = m.pgdir.frame →
                m₁.node 4096 = m.node 4096 := by
              intro m₁ hf
              rw [Machine.node, Machine.node, hf]
            rw [hnode _ (by simp)]
            simp only [Machine.setSlot_clockQueue, Machine.encryptAt_clockQueue,
              Machine.setIndex_clockQueue, Function.update_apply]
            split
            · rfl
            · exact h.full i hi
          · simpa using h.table
          · simp only [Machine.setSlot_pgdir, Machine.encryptAt_pte, Machine.setIndex_pgdir]
            exact hd.encrypted

/-- However many slots and calls it is given, the handler does not return. -/
theorem Stuck.mdecrypt (slots depth : Nat) : ∀ {m : Machine}, Stuck m →
    (m.pgdir.pte 1).sealed → ∀ r m', mdecrypt slots depth 4096 m ≠ .ok (r, m') := by
  induction depth with
  | zero =>
      intro m h hs r m' hok
      obtain ⟨_, ⟨hn, _⟩ | ⟨_, _, hins⟩⟩ := mdecryptWith_spec hok
      · change (m.pgdir.pte 1).sealed = false at hn
        rw [hs] at hn
        cases hn
      · cases hins
  | succ depth ih =>
      intro m h hs r m' hok
      obtain ⟨_, ⟨hn, _⟩ | ⟨_, _, hins⟩⟩ := mdecryptWith_spec hok
      · change (m.pgdir.pte 1).sealed = false at hn
        rw [hs] at hn
        cases hn
      · unfold insertQueue at hins
        simp only [bind_eq_ok] at hins
        obtain ⟨m₁, hloop, ⟨r₂, m₂⟩, hend, _⟩ := hins
        have hdec : ((m.decryptAt 1).pgdir.pte 1).Decrypted := by
          rw [Machine.decryptAt_pte, if_pos rfl]
          exact ⟨rfl, rfl, (Pte.sealed_iff.mp hs).2.2⟩
        have hstuck : Stuck (m.decryptAt 1) := ⟨h.index, h.full, h.table⟩
        obtain ⟨hstuck₁, hs₁⟩ := Stuck.insertLoop slots hstuck hdec hloop
        exact ih hstuck₁ hs₁ _ _ hend

/-- A process can get into a state in which the handler of a fault at an encrypted
page never returns. -/
theorem faultHandler_can_loop :
    ∃ m, Lts.Reachable Execs Step m ∧ m.Encrypted (ppn 4096)
      ∧ ∀ slots depth r m', mdecrypt slots depth 4096 m ≠ .ok (r, m') := by
  obtain ⟨m, hm, hfill, hs⟩ := exists_filled 128 (Nat.le_refl _)
  have hs' := Pte.sealed_iff.mp hs
  exact ⟨m, hm, ⟨hs'.1, hs'.2.2⟩, fun slots depth => Stuck.mdecrypt slots depth hfill.stuck hs⟩

end CS537.Pager
