import CS537.Lib.Lts
import CS537.Lib.Ring
import CS537.Lib.SecondChance
import CS537.Pager.Encryption
import Mathlib.Data.List.Nodup

/-!
# Pager — the clock queue

The ring buffer of a process read as a list, and `insertQueue` and `removeQueue`
as operations on that list: FIFO with second chance.

The head of the queue is implicit. The slot after `clockIndex` is either empty,
and then the next page goes there, or the queue is full and it is the head.
-/

namespace CS537.Pager

open MachineInt

/-! ## The queue as a list -/

/-- The slot `insertQueue` examines next. -/
def Machine.head (m : Machine) : Nat := (m.clockIndex + 1).toNat % 128

/-- The slot contents that name page address `v`. -/
def Machine.node (m : Machine) (v : Nat) : Node := ⟨v, some ⟨m.pgdir.frame, ppn v⟩⟩

/-- The reference bit of the page at address `v`. -/
def Machine.ref (m : Machine) (v : Nat) : Bool := (m.pgdir.pte (ppn v)).a

/-- The ring buffer of `m`, read from the slot after `clockIndex` round to
`clockIndex`, is some empty slots and then the page addresses `Q`, each with its
own entry. -/
structure QueueView (m : Machine) (Q : List Nat) : Prop where
  index : -1 ≤ m.clockIndex ∧ m.clockIndex < 128
  fresh : m.clockIndex = -1 → Q = []
  view : ∃ E : List Node, Ring.view 128 m.clockQueue m.head = E ++ Q.map m.node
    ∧ ∀ x ∈ E, x.vpn = noVpn
  vpn_lt : ∀ v ∈ Q, v < noVpn
  table : ∀ v ∈ Q, m.pgdir.hasTable (ppn v)
  nodup : (Q.map ppn).Nodup

theorem Machine.head_lt (m : Machine) : m.head < 128 := Nat.mod_lt _ (by decide)

theorem Machine.head_of_index {m : Machine} {i : Nat} (h : m.clockIndex = i) :
    m.head = (i + 1) % 128 := by
  rw [head, h]
  rfl

variable {m m' : Machine} {Q : List Nat}

theorem QueueView.length_le (h : QueueView m Q) : Q.length ≤ 128 := by
  obtain ⟨E, hE, _⟩ := h.view
  have := congrArg List.length hE
  rw [Ring.view_length, List.length_append, List.length_map] at this
  omega

/-- Each page of the queue has a slot. -/
theorem QueueView.slot (h : QueueView m Q) {v : Nat} (hv : v ∈ Q) :
    ∃ i < 128, m.clockQueue i = m.node v := by
  obtain ⟨E, hE, _⟩ := h.view
  have : m.node v ∈ Ring.view 128 m.clockQueue m.head := by
    rw [hE]
    exact List.mem_append_right _ (List.mem_map_of_mem hv)
  exact (Ring.mem_view m.head_lt).mp this

/-- The occupied slots are those that name a page of the queue. -/
theorem QueueView.mem_iff (h : QueueView m Q) {v : Nat} (hv : v < noVpn) :
    v ∈ Q ↔ ∃ i < 128, (m.clockQueue i).vpn = v := by
  obtain ⟨E, hE, hempty⟩ := h.view
  constructor
  · intro hmem
    obtain ⟨i, hi, hnode⟩ := h.slot hmem
    exact ⟨i, hi, by rw [hnode]; rfl⟩
  · intro ⟨i, hi, hvpn⟩
    have : m.clockQueue i ∈ Ring.view 128 m.clockQueue m.head :=
      (Ring.mem_view m.head_lt).mpr ⟨i, hi, rfl⟩
    rw [hE, List.mem_append] at this
    rcases this with hin | hin
    · have := hempty _ hin
      omega
    · obtain ⟨w, hw, hnode⟩ := List.mem_map.mp hin
      rw [← hnode] at hvpn
      exact hvpn ▸ hw

/-- Two addresses of the queue on one page are the same. -/
theorem QueueView.ppn_inj (h : QueueView m Q) {v w : Nat} (hv : v ∈ Q) (hw : w ∈ Q)
    (heq : ppn v = ppn w) : v = w :=
  List.inj_on_of_nodup_map h.nodup hv hw heq

/-- The view depends on the queue, the directory and which tables it has. -/
theorem QueueView.congr (h : QueueView m Q) (hq : m'.clockQueue = m.clockQueue)
    (hi : m'.clockIndex = m.clockIndex) (hf : m'.pgdir.frame = m.pgdir.frame)
    (ht : ∀ v ∈ Q, m.pgdir.hasTable (ppn v) → m'.pgdir.hasTable (ppn v)) :
    QueueView m' Q where
  index := by rw [hi]; exact h.index
  fresh := by rw [hi]; exact h.fresh
  view := by
    have hhead : m'.head = m.head := by rw [Machine.head, Machine.head, hi]
    have hnode : m'.node = m.node := by
      funext v
      rw [Machine.node, Machine.node, hf]
    rw [hq, hhead, hnode]
    exact h.view
  vpn_lt := h.vpn_lt
  table := fun v hv => ht v hv (h.table v hv)
  nodup := h.nodup

/-! ## One slot -/

theorem setIndex_next (h : -1 ≤ m.clockIndex) :
    (m.clockIndex + 1).tmod 128 = m.head := by
  obtain ⟨k, hk⟩ : ∃ k : Nat, m.clockIndex + 1 = k := ⟨(m.clockIndex + 1).toNat, by omega⟩
  rw [Machine.head, hk, Int.toNat_natCast]
  exact (Int.ofNat_tmod k 128).symm

theorem slotIndex_head : slotIndex (m.head : Int) = .ok m.head := by
  have h : (0 : Int) ≤ m.head ∧ (m.head : Int) < (128 : Nat) := by
    have := m.head_lt
    omega
  rw [slotIndex, if_pos h, Int.toNat_natCast]

/-- `insertQueue` finds an empty slot. -/
theorem insertLoop_empty {vpn n : Nat} {pte : Option PtePtr} (hc : -1 ≤ m.clockIndex)
    (hempty : (m.clockQueue m.head).vpn = noVpn) :
    insertLoop vpn pte (n + 1) m
      = .ok ((m.setIndex m.head).setSlot m.head ⟨vpn, pte⟩) := by
  simp [insertLoop, setIndex_next hc, slotIndex_head, hempty]

theorem resolve_node {v : Nat} (ht : m.pgdir.hasTable (ppn v)) (c : Int) :
    (m.setIndex c).resolve (m.node v).pte = .ok (ppn v) := by
  simp [Machine.resolve, Machine.node, ht]

/-- `insertQueue` finds a page that has not been accessed. -/
theorem insertLoop_evict {vpn n v : Nat} {pte : Option PtePtr} (hc : -1 ≤ m.clockIndex)
    (hslot : m.clockQueue m.head = m.node v) (hv : v < noVpn)
    (ht : m.pgdir.hasTable (ppn v)) (ha : m.ref v = false) :
    insertLoop vpn pte (n + 1) m
      = .ok (((m.setIndex m.head).encryptAt (ppn v)).setSlot m.head ⟨vpn, pte⟩) := by
  have hne : (m.node v).vpn ≠ noVpn := Nat.ne_of_lt hv
  have ha' : (m.pgdir.pte (ppn v)).a = false := ha
  have henc : mencrypt (m.node v).vpn 1 (m.setIndex m.head)
      = .ok (0, (m.setIndex m.head).encryptAt (ppn v)) := mencrypt_one ht
  simp [insertLoop, setIndex_next hc, slotIndex_head, hslot, hne, resolve_node ht, ha', henc]

/-- `insertQueue` gives a page that has been accessed a second chance. -/
theorem insertLoop_pass {vpn n v : Nat} {pte : Option PtePtr} (hc : -1 ≤ m.clockIndex)
    (hslot : m.clockQueue m.head = m.node v) (hv : v < noVpn)
    (ht : m.pgdir.hasTable (ppn v)) (ha : m.ref v = true) :
    insertLoop vpn pte (n + 1) m
      = insertLoop vpn pte n ((m.setIndex m.head).setPte (ppn v)
          { m.pgdir.pte (ppn v) with a := false }) := by
  have hne : (m.node v).vpn ≠ noVpn := Nat.ne_of_lt hv
  have ha' : (m.pgdir.pte (ppn v)).a = true := ha
  rw [insertLoop]
  simp [setIndex_next hc, slotIndex_head, hslot, hne, resolve_node ht, ha']

/-! ## Inserting -/

/-- The head slot of a queue that is not full is empty. -/
theorem QueueView.head_empty (h : QueueView m Q) (hlen : Q.length < 128) :
    ∃ E x, Ring.view 128 m.clockQueue m.head = x :: (E ++ Q.map m.node)
      ∧ (∀ x ∈ E, x.vpn = noVpn) ∧ (m.clockQueue m.head).vpn = noVpn := by
  obtain ⟨E, hE, hempty⟩ := h.view
  cases E with
  | nil =>
      have := congrArg List.length hE
      rw [Ring.view_length, List.nil_append, List.length_map] at this
      omega
  | cons x E =>
      have hx : m.clockQueue m.head = x := by
        have := Ring.view_eq_cons (f := m.clockQueue) m.head_lt
        rw [hE] at this
        exact (List.cons.inj this).1.symm
      exact ⟨E, x, hE, fun y hy => hempty y (List.mem_cons_of_mem _ hy),
        hx ▸ hempty x List.mem_cons_self⟩

/-- The head slot of a full queue names its head. -/
theorem QueueView.head_full {v : Nat} (h : QueueView m (v :: Q))
    (hlen : (v :: Q).length = 128) :
    Ring.view 128 m.clockQueue m.head = m.node v :: Q.map m.node
      ∧ m.clockQueue m.head = m.node v := by
  obtain ⟨E, hE, _⟩ := h.view
  have hnil : E = [] := by
    have := congrArg List.length hE
    rw [Ring.view_length, List.length_append, List.length_map] at this
    exact List.length_eq_zero_iff.mp (by omega)
  rw [hnil, List.nil_append, List.map_cons] at hE
  have hcons := Ring.view_eq_cons (f := m.clockQueue) m.head_lt
  rw [hE] at hcons
  exact ⟨hE, (List.cons.inj hcons).1.symm⟩

/-- Appending to a queue with room. -/
theorem QueueView.append (h : QueueView m Q) (hlen : Q.length < 128) {vpn : Nat}
    (hvpn : vpn < noVpn) (ht : m.pgdir.hasTable (ppn vpn)) (hnew : ppn vpn ∉ Q.map ppn) :
    QueueView ((m.setIndex m.head).setSlot m.head (m.node vpn)) (Q ++ [vpn]) where
  index := by
    have := m.head_lt
    constructor
    · simp only [Machine.setSlot_clockIndex, Machine.setIndex_clockIndex]
      omega
    · simp only [Machine.setSlot_clockIndex, Machine.setIndex_clockIndex]
      omega
  fresh := by
    intro hneg
    simp only [Machine.setSlot_clockIndex, Machine.setIndex_clockIndex] at hneg
    omega
  view := by
    obtain ⟨E, x, hE, hempty, _⟩ := h.head_empty hlen
    have hhead : ((m.setIndex m.head).setSlot m.head (m.node vpn)).head
        = (m.head + 1) % 128 := Machine.head_of_index rfl
    refine ⟨E, ?_, hempty⟩
    rw [hhead, Machine.setSlot_clockQueue,
      Machine.setIndex_clockQueue, Ring.view_write_step m.head_lt, hE, List.tail_cons,
      List.map_append, List.append_assoc]
    rfl
  vpn_lt := by
    intro v hv
    rcases List.mem_append.mp hv with hv | hv
    · exact h.vpn_lt v hv
    · rw [List.mem_singleton.mp hv]
      exact hvpn
  table := by
    intro v hv
    rcases List.mem_append.mp hv with hv | hv
    · exact h.table v hv
    · rw [List.mem_singleton.mp hv]
      exact ht
  nodup := by
    rw [List.map_append, List.map_singleton]
    exact List.Nodup.append h.nodup (List.nodup_singleton _)
      (List.disjoint_singleton.mpr hnew)

/-- A second chance: the head goes to the tail. -/
theorem QueueView.rotate {v : Nat} (h : QueueView m (v :: Q))
    (hlen : (v :: Q).length = 128) (pte : Pte) :
    QueueView ((m.setIndex m.head).setPte (ppn v) pte) (Q ++ [v]) where
  index := by
    have := m.head_lt
    constructor
    · simp only [Machine.setPte_clockIndex, Machine.setIndex_clockIndex]
      omega
    · simp only [Machine.setPte_clockIndex, Machine.setIndex_clockIndex]
      omega
  fresh := by
    intro hneg
    simp only [Machine.setPte_clockIndex, Machine.setIndex_clockIndex] at hneg
    omega
  view := by
    obtain ⟨hview, hslot⟩ := h.head_full hlen
    have hhead : ((m.setIndex m.head).setPte (ppn v) pte).head = (m.head + 1) % 128 :=
      Machine.head_of_index rfl
    refine ⟨[], ?_, by simp⟩
    rw [hhead, Machine.setPte_clockQueue,
      Machine.setIndex_clockQueue, Ring.view_step m.head_lt, hview, hslot, List.tail_cons,
      List.map_append, List.nil_append]
    rfl
  vpn_lt := by
    intro w hw
    exact h.vpn_lt w (by simpa [or_comm] using hw)
  table := by
    intro w hw
    exact h.table w (by simpa [or_comm] using hw)
  nodup := by
    have := h.nodup
    rw [List.map_cons, List.nodup_cons] at this
    rw [List.map_append, List.map_singleton]
    exact List.Nodup.append this.2 (List.nodup_singleton _)
      (List.disjoint_singleton.mpr this.1)

/-- A full queue loses its head to a new page. -/
theorem QueueView.replace {v : Nat} (h : QueueView m (v :: Q))
    (hlen : (v :: Q).length = 128) {vpn : Nat} (hvpn : vpn < noVpn)
    (ht : m.pgdir.hasTable (ppn vpn)) (hnew : ppn vpn ∉ (v :: Q).map ppn) :
    QueueView (((m.setIndex m.head).encryptAt (ppn v)).setSlot m.head (m.node vpn))
      (Q ++ [vpn]) where
  index := by
    have := m.head_lt
    simp only [Machine.setSlot_clockIndex, Machine.encryptAt_clockIndex,
      Machine.setIndex_clockIndex]
    omega
  fresh := by
    intro hneg
    simp only [Machine.setSlot_clockIndex, Machine.encryptAt_clockIndex,
      Machine.setIndex_clockIndex] at hneg
    omega
  view := by
    obtain ⟨hview, _⟩ := h.head_full hlen
    have hhead : (((m.setIndex m.head).encryptAt (ppn v)).setSlot m.head (m.node vpn)).head
        = (m.head + 1) % 128 := by
      apply Machine.head_of_index
      rw [Machine.setSlot_clockIndex, Machine.encryptAt_clockIndex,
        Machine.setIndex_clockIndex]
    have hnode : (((m.setIndex m.head).encryptAt (ppn v)).setSlot m.head (m.node vpn)).node
        = m.node := by
      funext w
      simp [Machine.node]
    refine ⟨[], ?_, by simp⟩
    rw [hhead, hnode, Machine.setSlot_clockQueue, Machine.encryptAt_clockQueue,
      Machine.setIndex_clockQueue, Ring.view_write_step m.head_lt, hview, List.tail_cons,
      List.map_append, List.nil_append]
    rfl
  vpn_lt := by
    intro w hw
    rcases List.mem_append.mp hw with hw | hw
    · exact h.vpn_lt w (List.mem_cons_of_mem _ hw)
    · rw [List.mem_singleton.mp hw]
      exact hvpn
  table := by
    intro w hw
    simp only [Machine.setSlot_pgdir, Machine.encryptAt_hasTable, Machine.setIndex_pgdir]
    rcases List.mem_append.mp hw with hw | hw
    · exact h.table w (List.mem_cons_of_mem _ hw)
    · rw [List.mem_singleton.mp hw]
      exact ht
  nodup := by
    have hnd := h.nodup
    rw [List.map_cons, List.nodup_cons] at hnd
    rw [List.map_cons, List.mem_cons, not_or] at hnew
    rw [List.map_append, List.map_singleton]
    exact List.Nodup.append hnd.2 (List.nodup_singleton _)
      (List.disjoint_singleton.mpr hnew.2)

/-- What `insertQueue` makes of a full queue `Q`: it drops and encrypts `v`, the
entries kept have the reference bits of `r`, and no other page changes. -/
structure Swept (m m' : Machine) (Q : List Nat) (v : Nat) (r : List (Nat × Bool))
    (vpn : Nat) : Prop where
  view : QueueView m' (r.map Prod.fst ++ [vpn])
  frame : m'.pgdir.frame = m.pgdir.frame
  table : m'.pgdir.table = m.pgdir.table
  sz : m'.sz = m.sz
  kept : ∀ x b, (x, b) ∈ r →
    m'.pgdir.pte (ppn x) = { m.pgdir.pte (ppn x) with a := b }
  victim : m'.pgdir.pte (ppn v) = Pte.encrypted { m.pgdir.pte (ppn v) with a := false }
  others : ∀ page, page ∉ Q.map ppn → m'.pgdir.pte page = m.pgdir.pte page
  phys : m'.phys = (m.encryptAt (ppn v)).phys

theorem Machine.encryptAt_phys (m : Machine) (page : Nat) :
    (m.encryptAt page).phys
      = if (m.pgdir.pte page).clear then m.phys.flip (m.pgdir.pte page).frame
        else m.phys := by
  unfold encryptAt
  split <;> rfl

/-- The loop of `insertQueue` on a full queue is the sweep of that queue. -/
theorem insertLoop_sweep {n : Nat} {q r : List (Nat × Bool)} {v : Nat}
    (hs : SecondChance.Sweep n q v r) :
    ∀ {m : Machine} {Q : List Nat}, QueueView m Q → Q.length = 128 →
    q = SecondChance.mark m.ref Q → ∀ {vpn : Nat}, vpn < noVpn →
    m.pgdir.hasTable (ppn vpn) → ppn vpn ∉ Q.map ppn → ∀ k,
    ∃ m', insertLoop vpn (m.node vpn).pte (n + k) m = .ok m' ∧ Swept m m' Q v r vpn := by
  induction hs with
  | evict x t =>
      intro m Q h hlen hq vpn hvpn ht hnew k
      cases Q with
      | nil => cases hq
      | cons y Q =>
          rw [SecondChance.mark_cons] at hq
          obtain ⟨hxy, rfl⟩ := List.cons.inj hq
          obtain ⟨rfl, href⟩ := Prod.mk.inj hxy
          have hx := h.vpn_lt x List.mem_cons_self
          have hxt := h.table x List.mem_cons_self
          have hnd := (List.nodup_cons.mp h.nodup).1
          refine ⟨((m.setIndex m.head).encryptAt (ppn x)).setSlot m.head (m.node vpn), ?_, ?_⟩
          · rw [Nat.add_comm]
            exact insertLoop_evict h.index.1 (h.head_full hlen).2 hx hxt href.symm
          · have hne : ∀ w ∈ Q, ppn w ≠ ppn x := by
              intro w hw heq
              exact hnd (heq ▸ List.mem_map_of_mem hw)
            constructor
            · simpa using h.replace hlen hvpn ht hnew
            · simp
            · simp
            · simp
            · intro w b hw
              obtain ⟨hwQ, rfl⟩ := SecondChance.mem_mark.mp hw
              simp only [Machine.setSlot_pgdir, Machine.encryptAt_pte, if_neg (hne w hwQ),
                Machine.setIndex_pgdir]
              rfl
            · simp only [Machine.setSlot_pgdir, Machine.encryptAt_pte, if_true,
                Machine.setIndex_pgdir]
              congr 1
              rw [show false = m.ref x from href]
              rfl
            · intro page hpage
              rw [List.map_cons, List.mem_cons, not_or] at hpage
              simp only [Machine.setSlot_pgdir, Machine.encryptAt_pte, if_neg hpage.1,
                Machine.setIndex_pgdir]
            · simp only [Machine.setSlot_phys, Machine.encryptAt_phys, Machine.setIndex_pgdir,
                Machine.setIndex_phys]
              rfl
  | @pass n x v t r _ ih =>
      intro m Q h hlen hq vpn hvpn ht hnew k
      cases Q with
      | nil => cases hq
      | cons y Q =>
          rw [SecondChance.mark_cons] at hq
          obtain ⟨hxy, rfl⟩ := List.cons.inj hq
          obtain ⟨rfl, href⟩ := Prod.mk.inj hxy
          have hx := h.vpn_lt x List.mem_cons_self
          have hxt := h.table x List.mem_cons_self
          have hnd := (List.nodup_cons.mp h.nodup).1
          -- the machine after this slot
          let m₁ := (m.setIndex m.head).setPte (ppn x) { m.pgdir.pte (ppn x) with a := false }
          have hpte : ∀ page, m₁.pgdir.pte page
              = if page = ppn x then { m.pgdir.pte (ppn x) with a := false }
                else m.pgdir.pte page := by
            intro page
            exact PgDir.set_pte _ _ _ _
          have h₁ : QueueView m₁ (Q ++ [x]) := h.rotate hlen _
          have hmark : SecondChance.mark m.ref Q ++ [(x, false)]
              = SecondChance.mark m₁.ref (Q ++ [x]) := by
            rw [SecondChance.mark, SecondChance.mark, List.map_append, List.map_singleton]
            congr 1
            · apply List.map_congr_left
              intro w hw
              have hne : ppn w ≠ ppn x := fun heq => hnd (heq ▸ List.mem_map_of_mem hw)
              rw [Machine.ref, Machine.ref, hpte, if_neg hne]
            · rw [Machine.ref, hpte, if_pos rfl]
          have hnew' : ppn vpn ∉ (Q ++ [x]).map ppn := by
            simpa [or_comm] using hnew
          have hlen' : (Q ++ [x]).length = 128 := by simpa using hlen
          obtain ⟨m', hm', hsw⟩ := ih h₁ hlen' hmark hvpn (by simpa [m₁] using ht) hnew' k
          refine ⟨m', ?_, ?_⟩
          · rw [Nat.add_right_comm, insertLoop_pass h.index.1 (h.head_full hlen).2 hx hxt
              href.symm]
            exact hm'
          · constructor
            · exact hsw.view
            · rw [hsw.frame]
              rfl
            · rw [hsw.table]
              rfl
            · rw [hsw.sz]
              rfl
            · intro w b hw
              rw [hsw.kept w b hw, hpte]
              split
              · rename_i heq
                rw [heq]
              · rfl
            · rw [hsw.victim, hpte]
              split
              · rename_i heq
                rw [heq]
              · rfl
            · intro page hpage
              rw [List.map_cons, List.mem_cons, not_or] at hpage
              rw [hsw.others page (by simpa [or_comm] using hpage), hpte, if_neg hpage.1]
            · rw [hsw.phys, Machine.encryptAt_phys, Machine.encryptAt_phys, hpte]
              split
              · rename_i heq
                rw [heq]
                rfl
              · rfl

/-- A page `insertQueue` may be called for: not in the queue, in the clear, with
its page table present. -/
structure Insertable (m : Machine) (Q : List Nat) (vpn : Nat) : Prop where
  vpn_lt : vpn < noVpn
  table : m.pgdir.hasTable (ppn vpn)
  fresh : ppn vpn ∉ Q.map ppn
  present : (m.pgdir.pte (ppn vpn)).p
  plain : (m.pgdir.pte (ppn vpn)).e = false

/-- The `mdecrypt` that `insertQueue` ends in finds nothing to do. -/
theorem insertQueue_of_loop {slots s d vpn : Nat} {pte : Option PtePtr}
    (hloop : insertLoop vpn pte slots m = .ok m') (ht : m'.pgdir.hasTable (ppn vpn))
    (hplain : (m'.pgdir.pte (ppn vpn)).e = false) :
    insertQueue slots (mdecrypt s d) vpn pte m = .ok m' := by
  have hend : mdecrypt s d vpn m' = .ok (-1, m') := by
    have hsealed : (m'.pgdir.pte (ppn vpn)).sealed = false := by
      simp [Pte.sealed, hplain]
    cases d with
    | zero => exact mdecryptWith_not_sealed ht hsealed
    | succ d => exact mdecryptWith_not_sealed ht hsealed
  simp [insertQueue, hloop, hend]

/-- The specification of `insertQueue` on a queue with room: it fills the empty
slot after `clockIndex` and changes nothing else. -/
theorem insertQueue_append (h : QueueView m Q) (hlen : Q.length < 128) {vpn : Nat}
    (hins : Insertable m Q vpn) (n s d : Nat) :
    insertQueue (n + 1) (mdecrypt s d) vpn (walkpgdir m.pgdir vpn) m
        = .ok ((m.setIndex m.head).setSlot m.head (m.node vpn))
      ∧ QueueView ((m.setIndex m.head).setSlot m.head (m.node vpn)) (Q ++ [vpn]) := by
  have hw : walkpgdir m.pgdir vpn = (m.node vpn).pte :=
    walkpgdir_eq_some.mpr ⟨hins.table, rfl⟩
  obtain ⟨_, _, _, _, hempty⟩ := h.head_empty hlen
  constructor
  · rw [hw]
    exact insertQueue_of_loop (insertLoop_empty h.index.1 hempty) hins.table hins.plain
  · exact h.append hlen hins.vpn_lt hins.table hins.fresh

/-- The specification of `insertQueue` on a full queue: it examines one slot more
than there are at most. -/
theorem insertQueue_sweep (h : QueueView m Q) (hlen : Q.length = 128) {vpn : Nat}
    (hins : Insertable m Q vpn) (s d : Nat) :
    ∃ n v r m', SecondChance.Sweep n (SecondChance.mark m.ref Q) v r
      ∧ insertQueue 129 (mdecrypt s d) vpn (walkpgdir m.pgdir vpn) m = .ok m'
      ∧ Swept m m' Q v r vpn := by
  have hw : walkpgdir m.pgdir vpn = (m.node vpn).pte :=
    walkpgdir_eq_some.mpr ⟨hins.table, rfl⟩
  have hne : SecondChance.mark m.ref Q ≠ [] := by
    intro hnil
    have := congrArg List.length hnil
    rw [SecondChance.mark_length, hlen] at this
    cases this
  obtain ⟨n, hn, v, r, hs⟩ := SecondChance.exists_sweep hne
  rw [SecondChance.mark_length, hlen] at hn
  obtain ⟨m', hm', hsw⟩ :=
    insertLoop_sweep hs h hlen rfl hins.vpn_lt hins.table hins.fresh (129 - n)
  rw [show n + (129 - n) = 129 by omega] at hm'
  refine ⟨n, v, r, m', hs, ?_, hsw⟩
  have ht' : m'.pgdir.hasTable (ppn vpn) := by
    rw [PgDir.hasTable, hsw.table]
    exact hins.table
  rw [hw]
  apply insertQueue_of_loop hm' ht'
  rw [hsw.others _ hins.fresh]
  exact hins.plain

/-! ## Removing -/

theorem findIndex {i s : Nat} (h : m.clockIndex = s) :
    (m.clockIndex + i).tmod 128 = ((s + i) % 128 : Nat) := by
  rw [h]
  exact (Int.ofNat_tmod (s + i) 128).symm

theorem vpnAt_slot {i : Nat} (h : i < 128) : m.vpnAt i = .ok (m.clockQueue i).vpn := by
  have hi : (0 : Int) ≤ i ∧ (i : Int) < (128 : Nat) := by omega
  rw [Machine.vpnAt, if_pos hi, Int.toNat_natCast]

/-- One step of the scan of `removeQueue`, at a slot. -/
theorem findLoop_slot {vpn n i k : Nat} (hidx : (m.clockIndex + i).tmod 128 = (k : Nat))
    (hk : k < 128) :
    findLoop vpn m (n + 1) i
      = if (m.clockQueue k).vpn = vpn then .ok (k : Int) else findLoop vpn m n (i + 1) := by
  have hidx' : (m.clockIndex + i).tmod (clocksize : Nat) = (k : Nat) := hidx
  simp only [findLoop, hidx', vpnAt_slot hk, ok_bind, pure_eq_ok]

/-- The scan of `removeQueue` finds no page that no slot names, whatever `name`
holds. -/
theorem findLoop_absent {vpn : Nat} (hc : -1 ≤ m.clockIndex)
    (habs : ∀ i < 128, (m.clockQueue i).vpn ≠ vpn) (n i : Nat) :
    findLoop vpn m n i = .ok (-1) := by
  induction n generalizing i with
  | zero => rfl
  | succ n ih =>
      obtain ⟨k, hk⟩ | hneg : (∃ k : Nat, m.clockIndex + i = k) ∨ m.clockIndex + i = -1 := by
        rcases Int.lt_or_le (m.clockIndex + i) 0 with h | h
        · exact .inr (by omega)
        · exact .inl ⟨_, (Int.toNat_of_nonneg h).symm⟩
      · have hlt : k % 128 < 128 := Nat.mod_lt _ (by decide)
        have hidx : (m.clockIndex + i).tmod 128 = (k % 128 : Nat) := by
          rw [hk]
          exact (Int.ofNat_tmod k 128).symm
        rw [findLoop_slot hidx hlt, if_neg (habs _ hlt)]
        exact ih (i + 1)
      · -- the word before the array: a match there counts as none
        have hidx : (m.clockIndex + i).tmod 128 = -1 := by
          rw [hneg]
          rfl
        simp [findLoop, hidx, Machine.vpnAt, ih]

/-- The scan finds a slot that names the page if there is one. -/
theorem findLoop_present {vpn s : Nat} (hc : m.clockIndex = s) (n i : Nat)
    (hpres : ∃ k < n, (m.clockQueue ((s + (i + k)) % 128)).vpn = vpn) :
    ∃ j < 128, findLoop vpn m n i = .ok (Nat.cast j) ∧ (m.clockQueue j).vpn = vpn := by
  induction n generalizing i with
  | zero =>
      obtain ⟨k, hk, _⟩ := hpres
      omega
  | succ n ih =>
      have hlt : (s + i) % 128 < 128 := Nat.mod_lt _ (by decide)
      rw [findLoop_slot (findIndex hc) hlt]
      split
      · rename_i hv
        exact ⟨_, hlt, rfl, hv⟩
      · rename_i hv
        apply ih
        obtain ⟨k, hk, hk'⟩ := hpres
        cases k with
        | zero => exact absurd hk' hv
        | succ k =>
            refine ⟨k, by omega, ?_⟩
            rw [show s + (i + 1 + k) = s + (i + (k + 1)) by omega]
            exact hk'

/-- The second loop of `removeQueue` shifts the slots up to `clockIndex`. -/
theorem shiftLoop_eq {h s : Nat} (hs : s = (h + 127) % 128) (n : Nat) :
    ∀ (fuel j : Nat) (m : Machine), j + n = 127 → n ≤ fuel →
    shiftLoop s fuel ((h + j) % 128) m
      = .ok { m with clockQueue := Ring.shift 128 m.clockQueue ((h + j) % 128) n } := by
  induction n with
  | zero =>
      intro fuel j m hj _
      have hend : (((h + j) % 128 : Nat) : Int) = s := by rw [hs, show j = 127 by omega]
      cases fuel with
      | zero => rw [shiftLoop, if_pos hend, Ring.shift]
      | succ fuel => rw [shiftLoop, if_pos hend, Ring.shift]
  | succ n ih =>
      intro fuel j m hj hfuel
      cases fuel with
      | zero => omega
      | succ fuel =>
          have hne : ¬ (((h + j) % 128 : Nat) : Int) = s := by
            intro heq
            rw [hs, Int.natCast_inj] at heq
            have := (Ring.pos_inj (N := 128) (by omega) (by omega)).mp heq
            omega
          rw [shiftLoop, if_neg hne, Ring.shift, Ring.pos_succ, ih fuel (j + 1) _ (by omega)
            (by omega)]
          rfl

/-- `removeQueue` of a page that is not queued does nothing. -/
theorem removeQueue_absent (h : QueueView m Q) {vpn : Nat} (hv : vpn < noVpn)
    (hmem : vpn ∉ Q) : removeQueue vpn m = .ok m := by
  have habs : ∀ i < 128, (m.clockQueue i).vpn ≠ vpn := by
    intro i hi heq
    exact hmem ((h.mem_iff hv).mpr ⟨i, hi, heq⟩)
  simp [removeQueue, findLoop_absent h.index.1 habs]

/-- The slots after `removeQueue` has shifted and emptied them. -/
theorem QueueView.removed (h : QueueView m Q) {vpn s i : Nat} (hc : m.clockIndex = s)
    (hi : i < 128) (hvpn : (m.clockQueue i).vpn = vpn) (hv : vpn < noVpn) :
    ∃ j ≤ 127, i = (m.head + j) % 128 ∧ s = (m.head + 127) % 128 ∧
      ∀ y : Node, y.vpn = noVpn → ∃ E : List Node,
        Ring.view 128 (Function.update (Ring.shift 128 m.clockQueue i (127 - j)) s y) s
          = E ++ (Q.erase vpn).map m.node ∧ ∀ x ∈ E, x.vpn = noVpn := by
  have hs : s < 128 := by
    have := h.index.2
    omega
  have hhead : m.head = (s + 1) % 128 := Machine.head_of_index hc
  obtain ⟨j, hj, rfl⟩ := Ring.exists_pos m.head_lt hi
  refine ⟨j, by omega, rfl, by omega, ?_⟩
  intro y hy
  have hlast : (m.head + (128 - 1)) % 128 = s := by omega
  have hrem := Ring.view_remove (N := 128) (f := m.clockQueue) (s := m.head) hj y
  rw [hlast, show 128 - 1 - j = 127 - j by omega] at hrem
  obtain ⟨E, hE, hempty⟩ := h.view
  -- position `j` of the view lies behind the empty slots
  have hgetj : (E ++ Q.map m.node)[j]? = some (m.clockQueue ((m.head + j) % 128)) := by
    rw [← hE, List.getElem?_eq_getElem (by simpa using hj), Ring.view_getElem]
  have hjE : E.length ≤ j := by
    by_contra hlt
    rw [List.getElem?_append_left (by omega)] at hgetj
    have := hempty _ (List.mem_of_getElem? hgetj)
    omega
  rw [List.getElem?_append_right hjE, List.getElem?_map, Option.map_eq_some_iff] at hgetj
  obtain ⟨w, hw, hnode⟩ := hgetj
  have hwv : w = vpn := by rw [← hvpn, ← hnode]; rfl
  subst hwv
  have hdup : Q.Nodup := List.Nodup.of_map _ h.nodup
  obtain ⟨hlt, hget⟩ := List.getElem?_eq_some_iff.mp hw
  have herase : Q.erase w = Q.eraseIdx (j - E.length) := by
    rw [← hget]
    exact hdup.erase_getElem _ _
  refine ⟨y :: E, ?_, ?_⟩
  · rw [hrem, hE, List.eraseIdx_append_of_length_le hjE, herase, List.eraseIdx_map,
      List.cons_append]
  · intro x hx
    rcases List.mem_cons.mp hx with rfl | hx
    · exact hy
    · exact hempty x hx

/-- The specification of `removeQueue`: it drops and encrypts the page, keeps the
order of the others, and changes no other page. -/
theorem removeQueue_spec (h : QueueView m Q) (hc : 0 ≤ m.clockIndex) {vpn : Nat}
    (hmem : vpn ∈ Q) :
    ∃ m', removeQueue vpn m = .ok m' ∧ QueueView m' (Q.erase vpn)
      ∧ m'.pgdir = (m.encryptAt (ppn vpn)).pgdir ∧ m'.phys = (m.encryptAt (ppn vpn)).phys
      ∧ m'.sz = m.sz := by
  have hv := h.vpn_lt vpn hmem
  obtain ⟨s, hs⟩ : ∃ s : Nat, m.clockIndex = s := ⟨_, (Int.toNat_of_nonneg hc).symm⟩
  have hs128 : s < 128 := by
    have := h.index.2
    omega
  obtain ⟨i₀, hi₀, hvpn₀⟩ := (h.mem_iff hv).mp hmem
  obtain ⟨k, hk, rfl⟩ := Ring.exists_pos hs128 hi₀
  obtain ⟨i, hi, hfind, hvpn⟩ := findLoop_present hs 128 0 ⟨k, hk, by simpa using hvpn₀⟩
  obtain ⟨j, hj, hij, hsh, hview⟩ := h.removed hs hi hvpn hv
  -- the machine once the page is encrypted
  let m₁ := m.encryptAt (ppn vpn)
  have henc : mencrypt (m.clockQueue i).vpn 1 m = .ok (0, m₁) := by
    rw [hvpn]
    exact mencrypt_one (h.table vpn hmem)
  have hshift : shiftLoop s 128 i m₁
      = .ok { m₁ with clockQueue := Ring.shift 128 m.clockQueue i (127 - j) } := by
    rw [hij, shiftLoop_eq hsh (127 - j) 128 j m₁ (by omega) (by omega)]
    simp [m₁]
  have hslot : ∀ a : Nat, a < 128 → slotIndex a = .ok a := by
    intro a ha
    have : (0 : Int) ≤ a ∧ (a : Int) < (128 : Nat) := by omega
    rw [slotIndex, if_pos this, Int.toNat_natCast]
  have hne : ¬ (i : Int) = -1 := by omega
  have hidx : m₁.clockIndex = s := by simpa [m₁] using hs
  let y : Node := { Ring.shift 128 m.clockQueue i (127 - j) s with vpn := noVpn }
  let c' : Int := if (s : Int) = 0 then 128 - 1 else s - 1
  refine ⟨(Machine.setSlot { m₁ with
      clockQueue := Ring.shift 128 m.clockQueue i (127 - j) } s y).setIndex c', ?_, ?_, ?_⟩
  · rw [removeQueue]
    simp only [hfind, ok_bind, if_neg hne, hslot i hi, henc, hidx, hshift, hslot s hs128,
      pure_eq_ok]
    simp [Machine.setSlot, Machine.setIndex, y, c']
  · have hsz : 0 ≤ c' ∧ c' < 128 := by
      simp only [c']
      split <;> omega
    obtain ⟨E, hE, hempty⟩ := hview y rfl
    constructor
    · exact ⟨by simp only [Machine.setIndex_clockIndex]; omega, hsz.2⟩
    · intro hneg
      simp only [Machine.setIndex_clockIndex] at hneg
      omega
    · refine ⟨E, ?_, hempty⟩
      have hhead : ((Machine.setSlot { m₁ with
          clockQueue := Ring.shift 128 m.clockQueue i (127 - j) } s y).setIndex c').head
          = s := by
        rw [Machine.head, Machine.setIndex_clockIndex]
        simp only [c']
        split <;> omega
      have hnode : ((Machine.setSlot { m₁ with
          clockQueue := Ring.shift 128 m.clockQueue i (127 - j) } s y).setIndex c').node
          = m.node := by
        funext w
        simp [Machine.node, m₁]
      rw [hhead, hnode, ← hE]
      rfl
    · intro w hw
      exact h.vpn_lt w (List.mem_of_mem_erase hw)
    · intro w hw
      simpa [m₁] using h.table w (List.mem_of_mem_erase hw)
    · exact h.nodup.sublist (List.Sublist.map _ List.erase_sublist)
  · exact ⟨rfl, rfl, by simp [m₁]⟩

end CS537.Pager
