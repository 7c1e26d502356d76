import CS537.Pager.Clock

/-!
# Pager — the clock queue is FIFO with second chance

Runs of `insertQueue` and `removeQueue` from an empty queue. In between, user
code and the rest of the kernel may set reference bits as they like and do
anything to pages that are not queued.

The simulation relation is `Holds`: the ring buffer reads as a list of page
addresses, and each page of that list is in the clear.
-/

namespace CS537.Pager

open MachineInt

/-- The entry of a user page in the clear. -/
structure Pte.Decrypted (pte : Pte) : Prop where
  present : pte.p
  plain : pte.e = false
  user : pte.u

/-- The reference bit does not matter. -/
theorem Pte.Decrypted.setRef {pte : Pte} (h : pte.Decrypted) (b : Bool) :
    Pte.Decrypted { pte with a := b } := ⟨h.present, h.plain, h.user⟩

theorem Pte.Decrypted.clear {pte : Pte} (h : pte.Decrypted) : pte.clear = true := by
  simp [Pte.clear, Pte.mapped, h.present, h.plain, h.user]

/-- The queue `exec` leaves. -/
structure Reset (m : Machine) : Prop where
  index : m.clockIndex = -1
  empty : ∀ i < clocksize, (m.clockQueue i).vpn = noVpn

/-- A page `insertQueue` may be called for: not in the queue, its entry not that
of a queued page, and in the clear. -/
structure Newcomer (m : Machine) (vpn : Nat) : Prop where
  vpn_lt : vpn < noVpn
  table : m.pgdir.hasTable (ppn vpn)
  decrypted : (m.pgdir.pte (ppn vpn)).Decrypted
  fresh : ∀ i < clocksize, (m.clockQueue i).vpn ≠ noVpn →
    (m.clockQueue i).vpn ≠ vpn ∧ (m.clockQueue i).pte ≠ walkpgdir m.pgdir vpn

/-- What may happen to `m` between two calls: the reference bits become `ref`,
and pages that are not queued change. -/
structure Marked (ref : Nat → Bool) (m m' : Machine) : Prop where
  clockQueue : m'.clockQueue = m.clockQueue
  clockIndex : m'.clockIndex = m.clockIndex
  frame : m'.pgdir.frame = m.pgdir.frame
  table : ∀ page, m.pgdir.hasTable page → m'.pgdir.hasTable page
  queued : ∀ i < clocksize, (m.clockQueue i).vpn ≠ noVpn →
    m'.pgdir.pte (ppn (m.clockQueue i).vpn)
      = { m.pgdir.pte (ppn (m.clockQueue i).vpn) with a := ref (m.clockQueue i).vpn }

/-- `insertQueue` as the pager calls it. -/
def insert (vpn : Nat) (m : Machine) : Except Fault Machine :=
  insertQueue (clocksize + 1) (mdecrypt (clocksize + 1) 0) vpn (walkpgdir m.pgdir vpn) m

/-- One call, or what happens between two. -/
inductive QueueStep : Machine → SecondChance.Event Nat → Machine → Prop
  | insert {m m' : Machine} {vpn : Nat} :
      Newcomer m vpn → insert vpn m = .ok m' → QueueStep m (.insert vpn (m.ref vpn)) m'
  | remove {m m' : Machine} {vpn : Nat} :
      vpn < noVpn → 0 ≤ m.clockIndex → removeQueue vpn m = .ok m' →
      QueueStep m (.remove vpn) m'
  | mark {m m' : Machine} {ref : Nat → Bool} :
      Marked ref m m' → QueueStep m (.mark ref) m'

/-- The simulation relation. -/
structure Holds (m : Machine) (Q : List Nat) : Prop where
  view : QueueView m Q
  decrypted : ∀ v ∈ Q, (m.pgdir.pte (ppn v)).Decrypted

variable {m m' : Machine} {Q : List Nat} {vpn : Nat}

theorem Reset.holds (h : Reset m) : Holds m [] where
  view :=
    { index := by rw [h.index]; decide
      fresh := fun _ => rfl
      view := by
        refine ⟨_, (List.append_nil _).symm, ?_⟩
        intro x hx
        obtain ⟨i, hi, rfl⟩ := (Ring.mem_view m.head_lt).mp hx
        exact h.empty i hi
      vpn_lt := by simp
      table := by simp
      nodup := by simp }
  decrypted := by simp

/-- The entries of queued pages are those of other pages. -/
theorem QueueView.not_mem_ppn (h : QueueView m Q) (hnew : Newcomer m vpn) :
    ppn vpn ∉ Q.map ppn := by
  intro hmem
  obtain ⟨v, hv, heq⟩ := List.mem_map.mp hmem
  obtain ⟨i, hi, hnode⟩ := h.slot hv
  have hocc : (m.clockQueue i).vpn ≠ noVpn := by
    rw [hnode]
    exact Nat.ne_of_lt (h.vpn_lt v hv)
  apply (hnew.fresh i hi hocc).2
  rw [hnode, Machine.node, heq]
  exact (walkpgdir_eq_some.mpr ⟨hnew.table, rfl⟩).symm

theorem QueueView.insertable (h : QueueView m Q) (hnew : Newcomer m vpn) :
    Insertable m Q vpn where
  vpn_lt := hnew.vpn_lt
  table := hnew.table
  fresh := h.not_mem_ppn hnew
  present := hnew.decrypted.present
  plain := hnew.decrypted.plain

/-! ## One call -/

/-- What `insertQueue` comes to. With room, the page is appended and nothing else
changes. A full queue is swept: the victim `v` is encrypted and dropped, the pages
passed by lose their reference bit and go to the tail. -/
inductive Inserted (m : Machine) (Q : List Nat) (vpn : Nat) : Machine → List Nat → Prop
  | append :
      Q.length < clocksize → (m.clockQueue m.head).vpn = noVpn →
      Inserted m Q vpn ((m.setIndex m.head).setSlot m.head (m.node vpn)) (Q ++ [vpn])
  | sweep {n v : Nat} {r : List (Nat × Bool)} {m' : Machine} :
      Q.length = clocksize → SecondChance.Sweep n (SecondChance.mark m.ref Q) v r →
      Swept m m' Q v r vpn →
      (m'.pgdir.pte (ppn v)).p = false → (m'.pgdir.pte (ppn v)).e →
      m'.phys = m.phys.flip (m.pgdir.pte (ppn v)).frame →
      Inserted m Q vpn m' (r.map Prod.fst ++ [vpn])

/-- `insertQueue` returns. -/
theorem Holds.insert_ok (h : Holds m Q) (hnew : Newcomer m vpn) :
    ∃ m' Q', insert vpn m = .ok m' ∧ Inserted m Q vpn m' Q' := by
  have hins := h.view.insertable hnew
  rcases Nat.lt_or_eq_of_le h.view.length_le with hlt | heq
  · obtain ⟨_, _, _, _, hempty⟩ := h.view.head_empty hlt
    exact ⟨_, _, (insertQueue_append h.view hlt hins 128 129 0).1, .append hlt hempty⟩
  · obtain ⟨n, v, r, m', hs, hm', hsw⟩ := insertQueue_sweep h.view heq hins 129 0
    have hv : (m.pgdir.pte (ppn v)).Decrypted := by
      apply h.decrypted
      simpa using hs.victim_mem
    have hvictim := hsw.victim
    rw [Pte.encrypted, if_pos (hv.setRef false).clear] at hvictim
    refine ⟨m', _, hm', .sweep heq hs hsw ?_ ?_ ?_⟩
    · rw [hvictim]
    · rw [hvictim]
    · rw [hsw.phys, Machine.encryptAt_phys, if_pos hv.clear]

/-- The simulation relation after `insertQueue`, and the step it simulates. -/
theorem Inserted.holds {Q' : List Nat} (h : Holds m Q) (hnew : Newcomer m vpn)
    (hins : Inserted m Q vpn m' Q') :
    Holds m' Q' ∧ SecondChance.Step clocksize (SecondChance.mark m.ref Q)
      (.insert vpn (m.ref vpn)) (SecondChance.mark m'.ref Q') := by
  have hfresh := h.view.not_mem_ppn hnew
  cases hins with
  | append hlen _ =>
      refine ⟨⟨h.view.append hlen hnew.vpn_lt hnew.table hfresh, ?_⟩, ?_⟩
      · intro v hv
        rcases List.mem_append.mp hv with hv | hv
        · exact h.decrypted v hv
        · rw [List.mem_singleton.mp hv]
          exact hnew.decrypted
      · have happ : SecondChance.mark m.ref (Q ++ [vpn])
            = SecondChance.mark m.ref Q ++ [(vpn, m.ref vpn)] := by
          simp [SecondChance.mark]
        change SecondChance.Step _ _ _ (SecondChance.mark m.ref (Q ++ [vpn]))
        rw [happ]
        exact .append (by simpa using hlen)
  | @sweep n v r _ hlen hs hsw _ _ _ =>
      -- what the sweep keeps of the pages that stay
      have hkept : ∀ w ∈ r.map Prod.fst, ∃ b, (w, b) ∈ r ∧ w ∈ Q := by
        intro w hw
        obtain ⟨⟨w', b⟩, hmem, rfl⟩ := List.mem_map.mp hw
        refine ⟨b, hmem, ?_⟩
        have := hs.perm.subset (List.mem_cons_of_mem _ hw)
        simpa using this
      refine ⟨⟨hsw.view, ?_⟩, ?_⟩
      · intro w hw
        rcases List.mem_append.mp hw with hw | hw
        · obtain ⟨b, hmem, hwQ⟩ := hkept w hw
          rw [hsw.kept w b hmem]
          exact (h.decrypted w hwQ).setRef b
        · rw [List.mem_singleton.mp hw, hsw.others _ hfresh]
          exact hnew.decrypted
      · have hmark : SecondChance.mark m'.ref (r.map Prod.fst ++ [vpn])
            = r ++ [(vpn, m.ref vpn)] := by
          have hr : SecondChance.mark m'.ref (r.map Prod.fst) = r := by
            apply SecondChance.mark_fst
            intro w b hmem
            rw [Machine.ref, hsw.kept w b hmem]
          have hvpn : m'.ref vpn = m.ref vpn := by
            rw [Machine.ref, hsw.others _ hfresh]
            rfl
          rw [SecondChance.mark, List.map_append, List.map_singleton, hvpn]
          exact congrArg (· ++ [(vpn, m.ref vpn)]) hr
        rw [hmark]
        exact .replace (by simpa using hlen) hs

/-- What `removeQueue` comes to: it drops and encrypts a page that is queued, and
changes nothing for one that is not. -/
inductive Removed (m : Machine) (Q : List Nat) (vpn : Nat) : Machine → Prop
  | found {m' : Machine} :
      vpn ∈ Q → m'.pgdir = (m.encryptAt (ppn vpn)).pgdir →
      m'.phys = (m.encryptAt (ppn vpn)).phys → QueueView m' (Q.erase vpn) →
      Removed m Q vpn m'
  | absent : vpn ∉ Q → Removed m Q vpn m

/-- `removeQueue` returns. -/
theorem Holds.remove_ok (h : Holds m Q) (hv : vpn < noVpn) (hc : 0 ≤ m.clockIndex) :
    ∃ m', removeQueue vpn m = .ok m' ∧ Removed m Q vpn m' := by
  by_cases hmem : vpn ∈ Q
  · obtain ⟨m', hm', hview, hd, hph, _⟩ := removeQueue_spec h.view hc hmem
    exact ⟨m', hm', .found hmem hd hph hview⟩
  · exact ⟨m, removeQueue_absent h.view hv hmem, .absent hmem⟩

/-- The simulation relation after `removeQueue`, and the step it simulates. -/
theorem Removed.holds (h : Holds m Q) (hrem : Removed m Q vpn m') :
    ∃ Q', Holds m' Q' ∧ SecondChance.Step clocksize (SecondChance.mark m.ref Q)
      (.remove vpn) (SecondChance.mark m'.ref Q') := by
  cases hrem with
  | absent hmem => exact ⟨Q, h, .absent (by simpa using hmem)⟩
  | found hmem hd _ hview =>
      have hdup : Q.Nodup := List.Nodup.of_map _ h.view.nodup
      -- the entries of the pages that stay are not the one encrypted
      have hsame : ∀ w ∈ Q.erase vpn, m'.pgdir.pte (ppn w) = m.pgdir.pte (ppn w) := by
        intro w hw
        obtain ⟨hne, hwQ⟩ := hdup.mem_erase_iff.mp hw
        rw [hd, Machine.encryptAt_pte, if_neg]
        intro heq
        exact hne (h.view.ppn_inj hwQ hmem heq)
      refine ⟨Q.erase vpn, ⟨hview, ?_⟩, ?_⟩
      · intro w hw
        rw [hsame w hw]
        exact h.decrypted w (List.mem_of_mem_erase hw)
      · obtain ⟨q₁, q₂, hnot, hQ, herase⟩ := List.exists_erase_eq hmem
        have hmark : SecondChance.mark m'.ref (Q.erase vpn)
            = SecondChance.mark m.ref (Q.erase vpn) := by
          apply List.map_congr_left
          intro w hw
          rw [Machine.ref, Machine.ref, hsame w hw]
        rw [hmark, herase, hQ, SecondChance.mark, SecondChance.mark, List.map_append,
          List.map_append, List.map_cons]
        exact .remove _ _ _ _

theorem Marked.holds {ref : Nat → Bool} (h : Holds m Q) (hm : Marked ref m m') :
    Holds m' Q ∧ SecondChance.mark m'.ref Q = SecondChance.mark ref Q := by
  have hpte : ∀ v ∈ Q, m'.pgdir.pte (ppn v) = { m.pgdir.pte (ppn v) with a := ref v } := by
    intro v hv
    obtain ⟨i, hi, hnode⟩ := h.view.slot hv
    have hocc : (m.clockQueue i).vpn ≠ noVpn := by
      rw [hnode]
      exact Nat.ne_of_lt (h.view.vpn_lt v hv)
    have := hm.queued i hi hocc
    rwa [hnode] at this
  refine ⟨⟨h.view.congr hm.clockQueue hm.clockIndex hm.frame fun v _ => hm.table _, ?_⟩, ?_⟩
  · intro v hv
    rw [hpte v hv]
    exact (h.decrypted v hv).setRef _
  · apply List.map_congr_left
    intro v hv
    rw [Machine.ref, hpte v hv]

/-! ## Runs -/

/-- A run of the queue simulates a run of FIFO with second chance. -/
theorem QueueStep.simulates {e : SecondChance.Event Nat} (h : Holds m Q)
    (hs : QueueStep m e m') :
    ∃ Q', Holds m' Q' ∧ SecondChance.Step clocksize (SecondChance.mark m.ref Q) e
      (SecondChance.mark m'.ref Q') := by
  cases hs with
  | insert hnew hok =>
      obtain ⟨m₁, Q', hm₁, hins⟩ := h.insert_ok hnew
      rw [hok] at hm₁
      cases hm₁
      obtain ⟨hholds, hstep⟩ := hins.holds h hnew
      exact ⟨Q', hholds, hstep⟩
  | remove hv hc hok =>
      obtain ⟨m₁, hm₁, hrem⟩ := h.remove_ok hv hc
      rw [hok] at hm₁
      cases hm₁
      exact hrem.holds h
  | @mark _ ref hm =>
      obtain ⟨hholds, hmark⟩ := hm.holds h
      refine ⟨Q, hholds, ?_⟩
      rw [hmark]
      have := @SecondChance.Step.mark Nat 128 (SecondChance.mark m.ref Q) ref
      rwa [SecondChance.mark_map_fst] at this

theorem Reset.simulates {es : List (SecondChance.Event Nat)} {m₀ : Machine} (h : Reset m₀)
    (hrun : Lts.Run QueueStep m₀ es m) :
    ∃ Q, Holds m Q ∧
      Lts.Run (SecondChance.Step clocksize) [] es (SecondChance.mark m.ref Q) := by
  induction hrun with
  | nil => exact ⟨[], h.holds, .nil []⟩
  | snoc _ hs ih =>
      obtain ⟨Q, hholds, hrun⟩ := ih
      obtain ⟨Q', hholds', hstep⟩ := hs.simulates hholds
      exact ⟨Q', hholds', hrun.snoc hstep⟩

/-- In every run from an empty queue, the ring buffer reads as a list `Q`, which
is the queue FIFO with second chance comes to, and the next call of `insertQueue`
or `removeQueue` uses no index out of range and does to `Q` what it should. -/
theorem clockQueue_refines {es : List (SecondChance.Event Nat)} {m₀ m : Machine}
    (h : Reset m₀) (hrun : Lts.Run QueueStep m₀ es m) :
    ∃ Q, QueueView m Q
      ∧ Lts.Run (SecondChance.Step clocksize) [] es (SecondChance.mark m.ref Q)
      ∧ (∀ vpn, Newcomer m vpn →
          ∃ m' Q', insert vpn m = .ok m' ∧ QueueView m' Q' ∧ Inserted m Q vpn m' Q')
      ∧ ∀ vpn < noVpn, 0 ≤ m.clockIndex →
          (∀ i : Nat, 0 ≤ (m.clockIndex + i).tmod clocksize
            ∧ (m.clockIndex + i).tmod clocksize < clocksize)
          ∧ ∃ m', removeQueue vpn m = .ok m' ∧ Removed m Q vpn m' := by
  obtain ⟨Q, hholds, habs⟩ := h.simulates hrun
  refine ⟨Q, hholds.view, habs, ?_, ?_⟩
  · intro vpn hnew
    obtain ⟨m', Q', hok, hins⟩ := hholds.insert_ok hnew
    exact ⟨m', Q', hok, (hins.holds hholds hnew).1.view, hins⟩
  · intro vpn hv hc
    refine ⟨?_, hholds.remove_ok hv hc⟩
    intro i
    exact ⟨Int.tmod_nonneg _ (by omega), Int.tmod_lt_of_pos _ (by decide)⟩

theorem clockQueue_refines_onePage :
    ∃ m Q, QueueView m Q ∧ Lts.Run (SecondChance.Step clocksize) [] [.insert 4096 true]
      (SecondChance.mark m.ref Q) := by
  have hreset : Reset onePage := ⟨rfl, fun _ _ => rfl⟩
  have hnew : Newcomer onePage 4096 :=
    ⟨by decide, rfl, ⟨rfl, rfl, rfl⟩, fun _ _ hocc => absurd rfl hocc⟩
  obtain ⟨m, _, hok, _⟩ := hreset.holds.insert_ok hnew
  obtain ⟨Q, hview, hrun, _⟩ := clockQueue_refines hreset (Lts.Run.single (.insert hnew hok))
  exact ⟨m, Q, hview, hrun⟩

end CS537.Pager
