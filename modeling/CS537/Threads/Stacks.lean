import CS537.Threads.Proc
import Mathlib.Data.Fintype.Card
import Mathlib.Data.List.Pairwise

/-!
# Threads — the stacks of the thread library

`P3B: xv6 Kernel threads/ulib.c`: `thread_create` and `thread_join`, and the two
tables they keep. What `malloc`, `clone` and `join` return are arguments. Next to the
tables a session records every block `malloc` returned, the stack in it, and how often
it was freed.
-/

namespace CS537.Threads

open MachineInt

/-! ## The library -/

/-- `addressArray` and `pidsArray`. -/
structure StackTable where
  addressArray : Fin 64 → Nat
  pidsArray : Fin 64 → Int

/-- The page of a block that `thread_create` passes to `clone`. -/
def stackIn (stackAddr : Nat) : Nat :=
  let extraSpace := (s32 stackAddr).tmod 4096
  if extraSpace ≠ 0 then toU32 ((stackAddr : Int) + 4096 - extraSpace) else stackAddr

/-- What one call does: what it returns, the page it passes to `clone`, and the
addresses it frees, in order. -/
structure Outcome where
  ret : Int
  stack : Option Nat
  freed : List Nat
  table : StackTable

/-- The loop that records a new thread. -/
def StackTable.record (t : StackTable) (stackAddr : Nat) (childPid : Int) : StackTable :=
  match (List.finRange 64).find? fun i => t.addressArray i = 0 with
  | none => t
  | some i =>
      { addressArray := fun j => if j = i then stackAddr else t.addressArray j
        pidsArray := fun j => if j = i then childPid else t.pidsArray j }

/-- `thread_create`, when `malloc` returns `stackAddr` and `clone`, if it is called,
`childPid`. -/
def threadCreate (stackAddr : Nat) (childPid : Int) (t : StackTable) : Outcome :=
  if stackAddr = 0 then ⟨-1, none, [], t⟩
  else
    let stack := stackIn stackAddr
    if childPid ≠ -1 then ⟨childPid, some stack, [], t.record stackAddr childPid⟩
    else ⟨childPid, some stack, [stackAddr], t⟩

/-- `thread_join`, when `join` returns `childPid`. Each round of the loop reads and
writes its own slot only. -/
def threadJoin (childPid : Int) (t : StackTable) : Outcome :=
  if childPid ≠ -1 then
    { ret := childPid
      stack := none
      freed := ((List.finRange 64).filter fun i => t.pidsArray i = childPid).map t.addressArray
      table :=
        { addressArray := fun i => if t.pidsArray i = childPid then 0 else t.addressArray i
          pidsArray := fun i => if t.pidsArray i = childPid then -1 else t.pidsArray i } }
  else ⟨-1, none, [], t⟩

/-! ## Sessions -/

/-- A block that `malloc` returned to `thread_create`: the page passed to `clone`, what
`clone` returned, whether that thread was joined, and how often the block was freed. -/
structure Block where
  addr : Nat
  stack : Nat
  pid : Int
  joined : Bool
  frees : Nat
  deriving DecidableEq, Repr

/-- The block of a thread that was created and not yet joined. -/
def Block.Unjoined (b : Block) : Prop := b.pid ≠ -1 ∧ b.joined = false

instance (b : Block) : Decidable b.Unjoined := inferInstanceAs (Decidable (_ ∧ _))

/-- Two stretches of `n` bytes that share none. -/
def Apart (n a b : Nat) : Prop := a + n ≤ b ∨ b + n ≤ a

instance (n a b : Nat) : Decidable (Apart n a b) := inferInstanceAs (Decidable (_ ∨ _))

/-- The tables, the blocks there have been, the newest first, and how many calls of
`free` were given an address at which there has been none. -/
structure Session where
  table : StackTable
  blocks : List Block
  wild : Nat

/-- `free` of the newest block at an address. -/
def freeBlock (addr : Nat) : List Block → Option (List Block)
  | [] => none
  | b :: bs =>
      if b.addr = addr then some ({ b with frees := b.frees + 1 } :: bs)
      else (freeBlock addr bs).map (b :: ·)

def Session.free (s : Session) (addr : Nat) : Session :=
  match freeBlock addr s.blocks with
  | none => { s with wild := s.wild + 1 }
  | some bs => { s with blocks := bs }

inductive LibraryCall where
  | create (stackAddr : Nat) (childPid : Int)
  | join (childPid : Int)
  deriving DecidableEq, Repr

/-- What `malloc`, `clone` and `join` may return: null or a block of user memory that
overlaps none that is not freed; -1 or a new process id (0 is the id of no process), with
at most 64 threads not joined; -1 or the id of a thread not joined. -/
def Session.allows (s : Session) : LibraryCall → Prop
  | .create stackAddr childPid =>
      stackAddr ≠ 0 →
        stackAddr + 8192 ≤ kernbase ∧
        (∀ b ∈ s.blocks, b.frees = 0 → Apart 8192 stackAddr b.addr) ∧
        (childPid ≠ -1 → childPid ≠ 0 ∧ (∀ b ∈ s.blocks, b.pid ≠ childPid) ∧
          (s.blocks.filter fun b => b.Unjoined).length < 64)
  | .join childPid => childPid ≠ -1 → ∃ b ∈ s.blocks, b.Unjoined ∧ b.pid = childPid

/-- What a call does to the session. -/
def Session.after (s : Session) : LibraryCall → Session
  | .create stackAddr childPid =>
      let out := threadCreate stackAddr childPid s.table
      let blocks := match out.stack with
        | none => s.blocks
        | some stack => ⟨stackAddr, stack, childPid, false, 0⟩ :: s.blocks
      out.freed.foldl Session.free { s with table := out.table, blocks := blocks }
  | .join childPid =>
      let out := threadJoin childPid s.table
      let blocks := s.blocks.map fun b =>
        if childPid ≠ -1 ∧ b.pid = childPid then { b with joined := true } else b
      out.freed.foldl Session.free { s with table := out.table, blocks := blocks }

def Session.Step (s : Session) (c : LibraryCall) (s' : Session) : Prop :=
  s.allows c ∧ s' = s.after c

/-- The tables are zero when the program starts. -/
def Session.start : Session where
  table := ⟨fun _ => 0, fun _ => 0⟩
  blocks := []
  wild := 0

/-! ## The page inside its block -/

theorem stackIn_inside {a : Nat} (h : a + 8192 ≤ kernbase) :
    stackIn a % 4096 = 0 ∧ a ≤ stackIn a ∧ stackIn a + 4096 ≤ a + 8192 := by
  simp only [kernbase] at h
  have hs : s32 a = (a : Int) := by
    unfold s32 u32
    rw [if_pos (by omega)]
    omega
  have hrem : (a : Int).tmod 4096 = (a : Int) % 4096 :=
    Int.tmod_eq_emod_of_nonneg (by omega)
  unfold stackIn toU32
  dsimp only
  rw [hs, hrem]
  split
  · omega
  · omega

theorem Apart.symm {n a b : Nat} (h : Apart n a b) : Apart n b a := Or.symm h

theorem Apart.ne {a b : Nat} (h : Apart 8192 a b) : a ≠ b := by
  unfold Apart at h
  omega

/-- Pages inside blocks that are apart are apart. -/
theorem Apart.pages {a b p q : Nat} (h : Apart 8192 a b) (hp : a ≤ p ∧ p + 4096 ≤ a + 8192)
    (hq : b ≤ q ∧ q + 4096 ≤ b + 8192) : Apart 4096 p q := by
  unfold Apart at h ⊢
  omega

/-! ## The invariant -/

/-- The blocks: each was apart from the older ones that were live, thread ids differ, and
a block has been freed once if `clone` failed or its thread was joined. -/
structure Ledger (bs : List Block) : Prop where
  inside : ∀ b ∈ bs, b.stack % 4096 = 0 ∧ b.addr ≤ b.stack ∧ b.stack + 4096 ≤ b.addr + 8192
  nonnull : ∀ b ∈ bs, b.addr ≠ 0 ∧ b.pid ≠ 0
  spread : bs.Pairwise fun new old => old.frees = 0 → Apart 8192 new.addr old.addr
  pids : bs.Pairwise fun new old => new.pid = old.pid → new.pid = -1
  frees : ∀ b ∈ bs, b.frees = if b.pid = -1 ∨ b.joined then 1 else 0

/-- The tables name the threads not joined, one slot each. -/
structure StackTable.InStep (t : StackTable) (bs : List Block) : Prop where
  markers : ∀ i, t.addressArray i = 0 → t.pidsArray i = 0 ∨ t.pidsArray i = -1
  used : ∀ i, t.addressArray i ≠ 0 →
    ∃ b ∈ bs, b.Unjoined ∧ b.addr = t.addressArray i ∧ b.pid = t.pidsArray i
  own : ∀ i j, t.addressArray i ≠ 0 → t.addressArray j ≠ 0 →
    t.pidsArray i = t.pidsArray j → i = j
  recorded : ∀ b ∈ bs, b.Unjoined → ∃ i, t.addressArray i = b.addr ∧ t.pidsArray i = b.pid

/-- What holds between calls. -/
structure Session.Kept (s : Session) : Prop where
  ledger : Ledger s.blocks
  inStep : s.table.InStep s.blocks
  wild : s.wild = 0

theorem Session.kept_start : Session.start.Kept := by
  refine ⟨⟨?_, ?_, .nil, .nil, ?_⟩, ⟨fun _ _ => .inl rfl, fun _ h => absurd rfl h,
    fun _ _ h => absurd rfl h, ?_⟩, rfl⟩
  all_goals
    intro b hb
    cases hb

theorem Block.Unjoined.frees {b : Block} (hu : b.Unjoined) :
    (if b.pid = -1 ∨ b.joined then 1 else 0) = 0 := by
  rw [if_neg]
  rintro (hpid | hjoined)
  · exact hu.1 hpid
  · rw [hu.2] at hjoined
    cases hjoined

/-- The block of a thread that was not joined is live. -/
theorem Ledger.live {bs : List Block} (h : Ledger bs) {b : Block} (hb : b ∈ bs)
    (hu : b.Unjoined) : b.frees = 0 :=
  (h.frees b hb).trans hu.frees

/-- With fewer than 64 threads not joined there is a free slot. -/
theorem StackTable.InStep.room {t : StackTable} {bs : List Block} (h : t.InStep bs)
    (hfew : (bs.filter fun b => b.Unjoined).length < 64) : ∃ i, t.addressArray i = 0 := by
  by_contra hfull
  have hused : ∀ i, t.addressArray i ≠ 0 := fun i hi => hfull ⟨i, hi⟩
  let pids := ((bs.filter fun b => b.Unjoined).map Block.pid).toFinset
  have hsub : Finset.univ.image t.pidsArray ⊆ pids := by
    intro pid hpid
    obtain ⟨i, _, rfl⟩ := Finset.mem_image.mp hpid
    obtain ⟨b, hb, hu, _, hpid⟩ := h.used i (hused i)
    rw [List.mem_toFinset, List.mem_map]
    exact ⟨b, List.mem_filter.mpr ⟨hb, decide_eq_true hu⟩, hpid⟩
  have hinj : Function.Injective t.pidsArray := fun i j => h.own i j (hused i) (hused j)
  have hcard : (Finset.univ.image t.pidsArray).card = 64 := by
    rw [Finset.card_image_of_injective _ hinj, Finset.card_univ, Fintype.card_fin]
  have hle : pids.card ≤ (bs.filter fun b => b.Unjoined).length := by
    calc pids.card ≤ ((bs.filter fun b => b.Unjoined).map Block.pid).length :=
          List.toFinset_card_le _
      _ = _ := List.length_map _
  have := Finset.card_le_card hsub
  omega

/-! ## `thread_create` -/

/-- A new block, apart from those that are live, with an id of its own. -/
theorem Ledger.cons {bs : List Block} (h : Ledger bs) {b : Block}
    (hin : b.stack % 4096 = 0 ∧ b.addr ≤ b.stack ∧ b.stack + 4096 ≤ b.addr + 8192)
    (hnonnull : b.addr ≠ 0 ∧ b.pid ≠ 0)
    (hfresh : ∀ c ∈ bs, c.frees = 0 → Apart 8192 b.addr c.addr)
    (hpid : ∀ c ∈ bs, b.pid = c.pid → b.pid = -1)
    (hfrees : b.frees = if b.pid = -1 ∨ b.joined then 1 else 0) : Ledger (b :: bs) := by
  constructor
  · exact List.forall_mem_cons.mpr ⟨hin, h.inside⟩
  · exact List.forall_mem_cons.mpr ⟨hnonnull, h.nonnull⟩
  · exact List.pairwise_cons.mpr ⟨hfresh, h.spread⟩
  · exact List.pairwise_cons.mpr ⟨hpid, h.pids⟩
  · exact List.forall_mem_cons.mpr ⟨hfrees, h.frees⟩

/-- A block whose `clone` failed has no slot. -/
theorem StackTable.InStep.cons {t : StackTable} {bs : List Block} (h : t.InStep bs) {b : Block}
    (hb : ¬ b.Unjoined) : t.InStep (b :: bs) := by
  refine ⟨h.markers, fun i hi => ?_, h.own, fun c hc hu => ?_⟩
  · obtain ⟨c, hc, hfacts⟩ := h.used i hi
    exact ⟨c, List.mem_cons_of_mem b hc, hfacts⟩
  · rcases List.mem_cons.mp hc with rfl | hc
    · exact absurd hu hb
    · exact h.recorded c hc hu

theorem StackTable.record_some {t : StackTable} {i : Fin 64} (h : t.addressArray i = 0)
    (stackAddr : Nat) (childPid : Int) : ∃ j, t.addressArray j = 0 ∧
      t.record stackAddr childPid =
        ⟨fun k => if k = j then stackAddr else t.addressArray k,
          fun k => if k = j then childPid else t.pidsArray k⟩ := by
  unfold StackTable.record
  cases hfind : (List.finRange 64).find? fun i => t.addressArray i = 0 with
  | none =>
      have hno := List.find?_eq_none.mp hfind i (List.mem_finRange i)
      exact absurd (decide_eq_true h) hno
  | some j =>
      have hfound := List.find?_some hfind
      exact ⟨j, of_decide_eq_true hfound, rfl⟩

/-- A new thread gets the first free slot. -/
theorem StackTable.InStep.record {t : StackTable} {bs : List Block} (h : t.InStep bs) {b : Block}
    (hfew : (bs.filter fun b => b.Unjoined).length < 64) (hu : b.Unjoined) (hnull : b.addr ≠ 0)
    (hpid : ∀ c ∈ bs, c.pid ≠ b.pid) (hnonnull : ∀ c ∈ bs, c.addr ≠ 0) :
    (t.record b.addr b.pid).InStep (b :: bs) := by
  obtain ⟨i, hi⟩ := h.room hfew
  obtain ⟨j, hj, heq⟩ := record_some hi b.addr b.pid
  rw [heq]
  have hother : ∀ k, t.addressArray k ≠ 0 → t.pidsArray k ≠ b.pid := by
    intro k hk heq
    obtain ⟨c, hc, _, _, hcp⟩ := h.used k hk
    exact hpid c hc (hcp.trans heq)
  constructor
  · intro k hk
    dsimp only at hk ⊢
    split at hk
    · exact absurd hk hnull
    · rename_i hkj
      rw [if_neg hkj]
      exact h.markers k hk
  · intro k hk
    dsimp only at hk ⊢
    by_cases hkj : k = j
    · rw [if_pos hkj, if_pos hkj]
      exact ⟨b, List.mem_cons_self, hu, rfl, rfl⟩
    · rw [if_neg hkj] at hk
      rw [if_neg hkj, if_neg hkj]
      obtain ⟨c, hc, hfacts⟩ := h.used k hk
      exact ⟨c, List.mem_cons_of_mem b hc, hfacts⟩
  · intro k l hk hl hkl
    dsimp only at hk hl hkl
    by_cases hkj : k = j
    · by_cases hlj : l = j
      · rw [hkj, hlj]
      · rw [if_pos hkj, if_neg hlj] at hkl
        rw [if_neg hlj] at hl
        exact absurd hkl.symm (hother l hl)
    · rw [if_neg hkj] at hk hkl
      by_cases hlj : l = j
      · rw [if_pos hlj] at hkl
        exact absurd hkl (hother k hk)
      · rw [if_neg hlj] at hl hkl
        exact h.own k l hk hl hkl
  · intro c hc hcu
    rcases List.mem_cons.mp hc with rfl | hc
    · exact ⟨j, if_pos rfl, if_pos rfl⟩
    · obtain ⟨k, hk, hkp⟩ := h.recorded c hc hcu
      have hkj : k ≠ j := by
        intro hkj
        rw [hkj, hj] at hk
        exact hnonnull c hc hk.symm
      exact ⟨k, (if_neg hkj).trans hk, (if_neg hkj).trans hkp⟩

/-- What `thread_create` does to the session. -/
theorem Session.after_create (s : Session) (stackAddr : Nat) (childPid : Int) :
    s.after (.create stackAddr childPid) =
      if stackAddr = 0 then s
      else if childPid = -1 then
        { s with blocks := ⟨stackAddr, stackIn stackAddr, -1, false, 1⟩ :: s.blocks }
      else
        { s with table := s.table.record stackAddr childPid
                 blocks := ⟨stackAddr, stackIn stackAddr, childPid, false, 0⟩ :: s.blocks } := by
  unfold Session.after threadCreate
  dsimp only
  split
  · rfl
  · by_cases hpid : childPid = -1
    · simp [hpid, Session.free, freeBlock]
    · simp [hpid]

theorem Session.Kept.create {s s' : Session} {stackAddr : Nat} {childPid : Int} (h : s.Kept)
    (hs : s.Step (.create stackAddr childPid) s') : s'.Kept := by
  obtain ⟨hallow, rfl⟩ := hs
  rw [Session.after_create]
  split
  · exact h
  · rename_i hnull
    obtain ⟨hroom, hfresh, hclone⟩ := hallow hnull
    have hin := stackIn_inside hroom
    split
    · exact ⟨h.ledger.cons hin ⟨hnull, (by simp)⟩ hfresh (fun _ _ _ => rfl) rfl,
        h.inStep.cons fun hu => hu.1 rfl, h.wild⟩
    · rename_i hpid
      obtain ⟨hzero, hnew, hfew⟩ := hclone hpid
      have hu : Block.Unjoined ⟨stackAddr, stackIn stackAddr, childPid, false, 0⟩ := ⟨hpid, rfl⟩
      exact ⟨h.ledger.cons hin ⟨hnull, hzero⟩ hfresh
          (fun c hc heq => absurd heq.symm (hnew c hc)) hu.frees.symm,
        h.inStep.record hfew hu hnull hnew fun c hc => (h.ledger.nonnull c hc).1, h.wild⟩

/-! ## `thread_join` -/

/-- A thread is joined and its block freed. -/
def Block.leave (pid : Int) (b : Block) : Block :=
  if b.pid = pid then { b with joined := true, frees := b.frees + 1 } else b

/-- `free` of the address of a thread's block finds that block. -/
theorem freeBlock_thread {bs : List Block} {b : Block} (h : Ledger bs) (hb : b ∈ bs)
    (hu : b.Unjoined) :
    freeBlock b.addr (bs.map fun c => if c.pid = b.pid then { c with joined := true } else c) =
      some (bs.map (Block.leave b.pid)) := by
  have hlive := h.live hb hu
  have hspread := h.spread
  have hpids := h.pids
  clear h
  induction bs with
  | nil => cases hb
  | cons c cs ih =>
      obtain ⟨hapart, hspread⟩ := List.pairwise_cons.mp hspread
      obtain ⟨hpid, hpids⟩ := List.pairwise_cons.mp hpids
      rcases List.mem_cons.mp hb with rfl | hb
      · -- the older blocks belong to other threads
        have hrest : ∀ d ∈ cs, d.pid ≠ b.pid := fun d hd heq => hu.1 (hpid d hd heq.symm)
        have hmark : cs.map (fun c => if c.pid = b.pid then { c with joined := true } else c) =
            cs.map (Block.leave b.pid) := by
          apply List.map_congr_left
          intro d hd
          rw [if_neg (hrest d hd), Block.leave, if_neg (hrest d hd)]
        simp only [List.map_cons, if_true, freeBlock, hmark, Block.leave]
      · have hne : c.pid ≠ b.pid := fun heq => hu.1 (heq ▸ hpid b hb heq)
        have haddr : c.addr ≠ b.addr := (hapart b hb hlive).ne
        simp only [List.map_cons, if_neg hne, freeBlock, if_neg haddr, ih hb hspread hpids,
          Option.map_some, Block.leave]

theorem Session.after_join (s : Session) {b : Block} (hkept : s.Kept) (hb : b ∈ s.blocks)
    (hu : b.Unjoined) :
    s.after (.join b.pid) =
      { s with table := (threadJoin b.pid s.table).table
               blocks := s.blocks.map (Block.leave b.pid) } := by
  obtain ⟨i, hi, hpid⟩ := hkept.inStep.recorded b hb hu
  have hslot : ∀ j, s.table.pidsArray j = b.pid ↔ j = i := by
    intro j
    constructor
    · intro hj
      apply hkept.inStep.own j i
      · intro hzero
        rcases hkept.inStep.markers j hzero with h | h
        · exact (hkept.ledger.nonnull b hb).2 (hj.symm.trans h)
        · exact hu.1 (hj.symm.trans h)
      · rw [hi]
        exact (hkept.ledger.nonnull b hb).1
      · rw [hj, hpid]
    · intro hj
      rw [hj, hpid]
  have hfilter : ((List.finRange 64).filter fun j => s.table.pidsArray j = b.pid) = [i] := by
    simp only [hslot]
    rw [List.filter_eq, List.count_eq_one_of_mem (List.nodup_finRange 64) (List.mem_finRange i)]
    rfl
  have hfreed : (threadJoin b.pid s.table).freed = [b.addr] := by
    unfold threadJoin
    rw [if_pos hu.1, hfilter, List.map_singleton, hi]
  unfold Session.after
  dsimp only
  rw [hfreed]
  simp only [List.foldl_cons, List.foldl_nil, Session.free, hu.1, ne_eq, not_false_iff, true_and,
    freeBlock_thread hkept.ledger hb hu]

theorem Block.leave_same (pid : Int) (b : Block) : (b.leave pid).addr = b.addr ∧
    (b.leave pid).stack = b.stack ∧ (b.leave pid).pid = b.pid ∧ b.frees ≤ (b.leave pid).frees := by
  unfold Block.leave
  split
  · exact ⟨rfl, rfl, rfl, Nat.le_succ _⟩
  · exact ⟨rfl, rfl, rfl, Nat.le_refl _⟩

/-- No two threads have the same id. -/
theorem Ledger.same_thread {bs : List Block} {b c : Block} (h : Ledger bs) (hb : b ∈ bs)
    (hc : c ∈ bs) (hu : b.Unjoined) (heq : c.pid = b.pid) : b = c := by
  have hsymm : Std.Symm fun d e : Block => d.pid = e.pid → d.pid = -1 :=
    ⟨fun d e hde h => h.trans (hde h.symm)⟩
  by_contra hne
  exact hu.1 (h.pids.forall hb hc hne heq.symm)

theorem Ledger.leave {bs : List Block} {b : Block} (h : Ledger bs) (hb : b ∈ bs)
    (hu : b.Unjoined) : Ledger (bs.map (Block.leave b.pid)) := by
  constructor
  · rw [List.forall_mem_map]
    intro c hc
    obtain ⟨haddr, hstack, _⟩ := c.leave_same b.pid
    rw [haddr, hstack]
    exact h.inside c hc
  · rw [List.forall_mem_map]
    intro c hc
    obtain ⟨haddr, _, hpid, _⟩ := c.leave_same b.pid
    rw [haddr, hpid]
    exact h.nonnull c hc
  · rw [List.pairwise_map]
    apply h.spread.imp
    intro c d hcd hfrees
    rw [(c.leave_same b.pid).1, (d.leave_same b.pid).1]
    apply hcd
    have := (d.leave_same b.pid).2.2.2
    omega
  · rw [List.pairwise_map]
    apply h.pids.imp
    intro c d hcd
    rw [(c.leave_same b.pid).2.2.1, (d.leave_same b.pid).2.2.1]
    exact hcd
  · rw [List.forall_mem_map]
    intro c hc
    unfold Block.leave
    split
    · rename_i hpid
      -- of the blocks with this id only one is there, that of the thread
      obtain rfl := h.same_thread hb hc hu hpid
      simp [h.live hc hu]
    · exact h.frees c hc

theorem StackTable.InStep.leave {t : StackTable} {bs : List Block} {b : Block} (h : t.InStep bs)
    (hu : b.Unjoined) : (threadJoin b.pid t).table.InStep (bs.map (Block.leave b.pid)) := by
  unfold threadJoin
  rw [if_pos hu.1]
  constructor
  · intro i hi
    dsimp only at hi ⊢
    split
    · exact .inr rfl
    · rename_i hne
      rw [if_neg hne] at hi
      exact h.markers i hi
  · intro i hi
    dsimp only at hi ⊢
    split at hi
    · exact absurd rfl hi
    · rename_i hne
      obtain ⟨c, hc, hcu, haddr, hpid⟩ := h.used i hi
      have hsame : c.leave b.pid = c := by
        unfold Block.leave
        rw [if_neg (hpid ▸ hne)]
      rw [if_neg hne, if_neg hne]
      exact ⟨c, List.mem_map.mpr ⟨c, hc, hsame⟩, hcu, haddr, hpid⟩
  · intro i j hi hj heq
    dsimp only at hi hj heq
    split at hi
    · exact absurd rfl hi
    · rename_i hni
      split at hj
      · exact absurd rfl hj
      · rename_i hnj
        rw [if_neg hni, if_neg hnj] at heq
        exact h.own i j hi hj heq
  · rw [List.forall_mem_map]
    intro c hc hcu
    unfold Block.leave at hcu ⊢
    split at hcu
    · cases hcu.2
    · rename_i hne
      rw [if_neg hne]
      obtain ⟨i, hi, hpid⟩ := h.recorded c hc hcu
      have hni : t.pidsArray i ≠ b.pid := hpid ▸ hne
      exact ⟨i, (if_neg hni).trans hi, (if_neg hni).trans hpid⟩

theorem Session.Kept.join {s s' : Session} {childPid : Int} (h : s.Kept)
    (hs : s.Step (.join childPid) s') : s'.Kept := by
  obtain ⟨hallow, rfl⟩ := hs
  by_cases hpid : childPid = -1
  · have hsame : s.after (.join childPid) = s := by
      unfold Session.after threadJoin
      simp [hpid]
    rw [hsame]
    exact h
  · obtain ⟨b, hb, hu, rfl⟩ := hallow hpid
    rw [Session.after_join s h hb hu]
    exact ⟨h.ledger.leave hb hu, h.inStep.leave hu, h.wild⟩

/-! ## Runs -/

theorem Session.kept_reachable {s : Session}
    (h : Lts.Reachable (· = Session.start) Session.Step s) : s.Kept := by
  apply Lts.Reachable.invariant _ _ h
  · intro s hs
    rw [hs]
    exact kept_start
  · intro s c s' ih hs
    cases c with
    | create stackAddr childPid => exact ih.create hs
    | join childPid => exact ih.join hs

/-- **Stacks**: `clone` gets a page-aligned page inside the block, the pages of threads
not yet joined are disjoint, and a block is freed once when `clone` fails or the thread
is joined, and not before. -/
theorem stacks_apart {s : Session} (h : Lts.Reachable (· = Session.start) Session.Step s) :
    (∀ b ∈ s.blocks, b.stack % pgsize = 0 ∧ b.addr ≤ b.stack ∧
      b.stack + pgsize ≤ b.addr + 2 * pgsize) ∧
    (s.blocks.Pairwise fun b c => b.Unjoined → c.Unjoined → Apart pgsize b.stack c.stack) ∧
    (∀ b ∈ s.blocks, b.frees = if b.pid = -1 ∨ b.joined then 1 else 0) ∧ s.wild = 0 := by
  have hkept := Session.kept_reachable h
  refine ⟨hkept.ledger.inside, ?_, hkept.ledger.frees, hkept.wild⟩
  apply hkept.ledger.spread.imp_of_mem
  intro b c hb hc hapart _ hcu
  have hblocks := hapart (hkept.ledger.live hc hcu)
  exact hblocks.pages (hkept.ledger.inside b hb).2 (hkept.ledger.inside c hc).2

/-- A thread is created and joined; between them `clone` fails once. -/
def joinedThread : Session :=
  ((Session.start.after (.create 4104 3)).after (.create 20480 (-1))).after (.join 3)

theorem joinedThread_blocks :
    joinedThread.blocks = [⟨20480, 20480, -1, false, 1⟩, ⟨4104, 8192, 3, true, 1⟩] := by
  decide +kernel

theorem stacks_apart_joinedThread :
    ∃ s : Session, s.blocks = [⟨20480, 20480, -1, false, 1⟩, ⟨4104, 8192, 3, true, 1⟩] ∧
      (∀ b ∈ s.blocks, b.frees = if b.pid = -1 ∨ b.joined then 1 else 0) ∧ s.wild = 0 := by
  have h₁ : Session.Step .start (.create 4104 3) (Session.start.after (.create 4104 3)) := by
    refine ⟨fun _ => ⟨by decide, fun b hb => (by cases hb), fun _ => ⟨by decide,
      fun b hb => (by cases hb), by decide⟩⟩, rfl⟩
  have hblocks : (Session.start.after (.create 4104 3)).blocks = [⟨4104, 8192, 3, false, 0⟩] := by
    decide +kernel
  have h₂ : Session.Step (Session.start.after (.create 4104 3)) (.create 20480 (-1))
      ((Session.start.after (.create 4104 3)).after (.create 20480 (-1))) := by
    refine ⟨fun _ => ⟨by decide, ?_, fun h => absurd rfl h⟩, rfl⟩
    rw [hblocks]
    decide
  have hblocks' : ((Session.start.after (.create 4104 3)).after (.create 20480 (-1))).blocks =
      [⟨20480, 20480, -1, false, 1⟩, ⟨4104, 8192, 3, false, 0⟩] := by
    decide +kernel
  have h₃ : Session.Step ((Session.start.after (.create 4104 3)).after (.create 20480 (-1)))
      (.join 3) joinedThread := by
    refine ⟨fun _ => ?_, rfl⟩
    rw [hblocks']
    decide
  have hrun := ((Lts.Run.single h₁).snoc h₂).snoc h₃
  have hsafe := stacks_apart ⟨_, _, rfl, hrun⟩
  exact ⟨joinedThread, joinedThread_blocks, hsafe.2.2⟩

end CS537.Threads
