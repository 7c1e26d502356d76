import CS537.Lib.Lts
import CS537.Xv6.FreeList
import Mathlib.Data.List.Pairwise

/-!
# Runs of the allocator

Any program that calls `malloc` and `free`, grows its memory itself, and writes into the blocks
it has: the blocks it holds never overlap, each is as long as was asked for, nothing of the
memory obtained is lost, and both calls return.
-/

namespace CS537.Xv6.Umalloc

open MachineInt Circle Lts

variable {base : Nat} {h : Heap} {fl : List Block}

/-! ## The loop of `malloc` -/

/-- Where the loop of `malloc` leaves off: a block that is long enough, or `freep` again. -/
def halts (mem : Nat → Header) (freep n prevp : Nat) : Bool :=
  n ≤ (mem (mem prevp).ptr).size ∨ (mem prevp).ptr = freep

/-- The loop passes the blocks that are too short. -/
theorem mallocLoop_walk {ok : Bool} {n k p z : Nat}
    (hw : walk Header.ptr h.mem (halts h.mem h.freep n) k p = some z) :
    halts h.mem h.freep n z = true ∧ ∃ j, ∀ m,
      mallocLoop ok n (j + m) h p (h.mem p).ptr = mallocLoop ok n m h z (h.mem z).ptr := by
  induction k generalizing p with
  | zero => cases hw
  | succ k ih =>
      rw [walk] at hw
      by_cases hhalt : halts h.mem h.freep n p = true
      · rw [if_pos hhalt] at hw
        cases hw
        exact ⟨hhalt, 0, fun m => by rw [Nat.zero_add]⟩
      · rw [if_neg hhalt] at hw
        obtain ⟨hz, j, hj⟩ := ih hw
        refine ⟨hz, j + 1, fun m => ?_⟩
        rw [halts, decide_eq_true_iff, not_or] at hhalt
        rw [Nat.add_right_comm, mallocLoop, if_neg hhalt.1, if_neg hhalt.2, hj]

/-- The loop goes on with what `morecore` has returned. -/
theorem mallocLoop_more {ok : Bool} {n m prevp p : Nat} {r : Nat × Heap}
    (hshort : ¬ n ≤ (h.mem p).size) (hend : p = h.freep) (hr : morecore m ok h n = some r) :
    mallocLoop ok n (m + 1) h prevp p =
      if r.1 = 0 then some (0, r.2) else mallocLoop ok n m r.2 r.1 (r.2.mem r.1).ptr := by
  rw [mallocLoop, if_neg hshort, if_pos hend, hr]
  rfl

theorem Apart.nodup {bs : List Block} (h : Apart bs) : (bs.map Block.addr).Nodup := by
  refine List.pairwise_map.mpr (h.imp fun {a b} hab => ?_)
  unfold Block.stop at hab
  omega

theorem FreeList.size_eq (hl : FreeList base h fl) {b : Block} (hb : b ∈ ring base fl) :
    (h.mem b.addr).size = b.size := by
  obtain ⟨p, hp⟩ := hl.chain.get hb
  rw [hp]
  rfl

/-- One pass over the free list: the loop takes a block, or none is long enough and it asks for
more memory. -/
theorem FreeList.search (hl : FreeList base h fl) (ok : Bool) {n : Nat} (hpos : 0 < n) :
    (∃ as z c cs, ring base fl = as ++ z :: c :: cs ∧ n ≤ c.size ∧ ∃ j, ∀ m,
      mallocLoop ok n (j + (m + 1)) h h.freep (h.mem h.freep).ptr =
        some (Umalloc.take h n z.addr c.addr)) ∨
    (∀ b ∈ fl, b.size < n) ∧ ∃ j, ∀ m r, morecore m ok h n = some r →
      mallocLoop ok n (j + (m + 1)) h h.freep (h.mem h.freep).ptr =
        if r.1 = 0 then some (0, r.2) else mallocLoop ok n m r.2 r.1 (r.2.mem r.1).ptr := by
  obtain ⟨a, ha, hrover⟩ := hl.rover
  have hsome : ∃ b ∈ ring base fl, halts h.mem h.freep n b.addr = true := by
    obtain ⟨y, hy, hlink⟩ := Chain.exists_prev (q := base) header_ptr hl.chain ha
    refine ⟨y, hy, ?_⟩
    rw [halts, decide_eq_true_iff, hlink, hrover]
    exact .inr rfl
  obtain ⟨as, z, bs, hperm, hfirst, hround, has, hz, hwalk⟩ :=
    Chain.walk (q := base) (t := halts h.mem h.freep n) header_ptr hl.chain ha hsome
  obtain ⟨-, j, hj⟩ := @mallocLoop_walk h ok _ _ _ _ (hwalk _ (Nat.lt_succ_self _))
  obtain ⟨l, r, heq⟩ := List.append_of_mem
    (hperm.mem_iff.mp (List.mem_append_right _ List.mem_cons_self))
  obtain ⟨-, -, -, hzh⟩ := hl.cut heq
  rw [← hrover] at hj
  by_cases hfit : n ≤ (h.mem (h.mem z.addr).ptr).size
  · left
    cases r with
    | nil =>
        -- after the last block is `base`, which has no length
        have hbase : h.mem base = _ := hl.chain.1
        rw [hzh, header_ptr, first_nil, hbase] at hfit
        exact absurd hpos (Nat.not_lt.mpr hfit)
    | cons c r =>
        have heq' : ring base fl = (l ++ [z]) ++ c :: r := by
          rw [heq, List.append_assoc]
          rfl
        have hch := (hl.cut heq').2.2.2
        have hptr : (h.mem z.addr).ptr = c.addr := by rw [hzh]; rfl
        refine ⟨l, z, c, r, heq, ?_, j, fun m => ?_⟩
        · rw [hptr, hch] at hfit
          exact hfit
        · rw [hj, mallocLoop, if_pos hfit, hptr]
  · right
    rw [halts, decide_eq_true_iff] at hz
    have hend := hz.resolve_left hfit
    refine ⟨fun b hb => ?_, j, fun m r hr => ?_⟩
    · have hbs : bs = [] := by
        -- else the first block of the pass would come twice in it
        have hnodup := (hperm.map Block.addr).nodup_iff.mpr hl.apart.nodup
        exact Chain.last header_ptr hround hnodup (hend.trans (hrover.trans hfirst.symm))
      subst hbs
      have hb' : b ∈ ring base fl := List.mem_cons_of_mem _ hb
      obtain ⟨y, hy, hlink⟩ := Chain.exists_prev (q := base) header_ptr hl.chain hb'
      have hshort : ¬ n ≤ (h.mem (h.mem y.addr).ptr).size := by
        rcases List.mem_append.mp (hperm.mem_iff.mpr hy) with hy | hy
        · have hno := has y hy
          rw [halts, decide_eq_false_iff_not, not_or] at hno
          exact hno.1
        · rwa [List.mem_singleton.mp hy]
      rw [hlink, hl.size_eq hb'] at hshort
      exact Nat.not_le.mp hshort
    · rw [hj, mallocLoop_more hfit hend hr]

/-! ## More memory -/

/-- The units `morecore` asks for. -/
def moreUnits (n : Nat) : Nat := if n < 4096 then 4096 else n

theorem le_moreUnits (n : Nat) : n ≤ moreUnits n := by
  unfold moreUnits
  split <;> omega

theorem sbrk_units {ok : Bool} {n : Nat} (hn : n * 8 < 2147483648) :
    h.sbrk ok (s32 (moreUnits n * 8)) =
      if ok ∧ h.brk + 8 * moreUnits n < 2147483648 then
        some (h.brk, { h with brk := h.brk + 8 * moreUnits n })
      else none := by
  have hpos : 0 < moreUnits n * 8 := by unfold moreUnits; split <;> omega
  have hlt : moreUnits n * 8 < 2147483648 := by unfold moreUnits; split <;> omega
  have hint : s32 (moreUnits n * 8) = ((moreUnits n * 8 : Nat) : Int) := by
    unfold s32 u32
    omega
  rw [hint, Heap.sbrk, if_pos (by omega), Int.toNat_natCast, Nat.mul_comm]

theorem morecore_none {ok : Bool} {m n : Nat}
    (hs : h.sbrk ok (s32 (moreUnits n * 8)) = none) : morecore m ok h n = some (0, h) := by
  rw [moreUnits] at hs
  simp only [morecore, hs]

theorem morecore_some {ok : Bool} {m n hp : Nat} {h₁ h₂ : Heap}
    (hs : h.sbrk ok (s32 (moreUnits n * 8)) = some (hp, h₁))
    (hf : free m (h₁.setSize hp (moreUnits n)) (hp + 8) = some h₂) :
    morecore m ok h n = some (h₂.freep, h₂) := by
  rw [moreUnits] at hs hf
  simp only [morecore, hs, hf]

/-- The memory `sbrk` returned is a block like one that is to be freed. -/
theorem FreeList.extend (hl : FreeList base h fl) (hroom : base + 8 ≤ h.brk) {n : Nat}
    (hpos : 0 < n) :
    FreeList base ({ h with brk := h.brk + 8 * n }.setSize h.brk n) fl ∧
      Loose base ({ h with brk := h.brk + 8 * n }.setSize h.brk n) fl ⟨h.brk, n⟩ := by
  refine ⟨⟨?_, hl.apart, hl.pos, hl.above, fun b hb => ?_, hl.rover⟩, ?_, hpos, hroom, ?_, ?_⟩
  · refine Chain.update hl.chain _ fun b hb => ?_
    rcases List.mem_cons.mp hb with rfl | hb
    · change base ≠ h.brk
      omega
    · have hbelow := hl.below b hb
      have hbpos := hl.pos b hb
      unfold Block.stop at hbelow
      change b.addr ≠ h.brk
      omega
  · exact Nat.le_trans (hl.below b hb) (Nat.le_add_right _ _)
  · change Header.size (Function.update h.mem h.brk _ h.brk) = n
    rw [Function.update_self]
  · exact Nat.le_refl _
  · rintro x ⟨hx, -⟩ ⟨b, hb, hbx⟩
    have hbelow := hl.below b hb
    exact absurd (Nat.lt_of_lt_of_le hbx.2 hbelow) (Nat.not_lt.mpr hx)

/-- `morecore` puts new memory into the free list, or finds that there is none. -/
theorem FreeList.morecore (hl : FreeList base h fl) (hbase : 0 < base)
    (hroom : base + 8 ≤ h.brk) (ok : Bool) {n : Nat} (hn : n * 8 < 2147483648) :
    (∃ h' fl', (∀ m, fl.length + 1 < m → Umalloc.morecore m ok h n = some (h'.freep, h')) ∧
      h'.freep ≠ 0 ∧ FreeList base h' fl' ∧ h'.brk = h.brk + 8 * moreUnits n ∧
      (∀ x, Covers fl' x ↔ Covers fl x ∨ h.brk ≤ x ∧ x < h'.brk) ∧
      units fl' = moreUnits n + units fl ∧
      (∀ a, a ≠ base → ¬ Covers fl a → a < h.brk → h'.mem a = h.mem a) ∧
      ∃ c ∈ fl', n ≤ c.size) ∨
    (ok = false ∨ 2147483648 ≤ h.brk + 8 * moreUnits n) ∧
      ∀ m, Umalloc.morecore m ok h n = some (0, h) := by
  by_cases hgrow : ok = true ∧ h.brk + 8 * moreUnits n < 2147483648
  · left
    have hpos : 0 < moreUnits n := by unfold moreUnits; split <;> omega
    obtain ⟨hl', hloose⟩ := hl.extend hroom hpos
    obtain ⟨h', fl', hfree, hlist, hcovers, hunits, hbrk, hframe, c, hc, hsize⟩ := hl'.free hloose
    have hbrk' : h'.brk = h.brk + 8 * moreUnits n := hbrk
    refine ⟨h', fl', fun m hm => ?_, ?_, hlist, hbrk', fun x => ?_, hunits, fun a ha hcov hlt => ?_,
      c, hc, Nat.le_trans (le_moreUnits n) hsize⟩
    · exact morecore_some ((sbrk_units hn).trans (if_pos hgrow)) (hfree m hm)
    · obtain ⟨b, hb, hrover⟩ := hlist.rover
      obtain ⟨as, cs, heq⟩ := List.append_of_mem hb
      have hle := (hlist.cut heq).1
      omega
    · rw [hcovers, or_comm, hbrk']
      rfl
    · have hold : h'.mem a = _ := hframe a ha hcov fun hx => absurd hx.1 (Nat.not_le.mpr hlt)
      exact hold.trans (Function.update_of_ne (Nat.ne_of_lt hlt) _ _)
  · right
    refine ⟨?_, fun m => ?_⟩
    · rw [Decidable.not_and_iff_or_not, Bool.not_eq_true, Nat.not_lt] at hgrow
      exact hgrow
    · exact morecore_none ((sbrk_units hn).trans (if_neg hgrow))

/-- **`malloc`** takes a block from the free list, or there is none that is long enough and no
more memory. -/
theorem FreeList.malloc (hl : FreeList base h fl) (hbase : 0 < base) (hroom : base + 8 ≤ h.brk)
    (ok : Bool) {n : Nat} (hpos : 0 < n) (hn : n * 8 < 2147483648) :
    (∃ h' fl' b, Gave base h fl h' fl' b n ∧ ∃ N, ∀ m, N ≤ m →
      mallocLoop ok n m h h.freep (h.mem h.freep).ptr = some (b.addr + 8, h')) ∨
    ((∀ b ∈ fl, b.size < n) ∧ (ok = false ∨ 2147483648 ≤ h.brk + 8 * moreUnits n)) ∧
      ∃ N, ∀ m, N ≤ m →
        mallocLoop ok n m h h.freep (h.mem h.freep).ptr = some (0, h) := by
  rcases hl.search ok hpos with ⟨as, z, c, cs, heq, hfit, j, hj⟩ | ⟨hshort, j, hj⟩
  · left
    obtain ⟨h', fl', htake, hgave⟩ := hl.take heq hpos hfit
    refine ⟨h', fl', _, hgave, j + 1, fun m hm => ?_⟩
    obtain ⟨m, rfl⟩ := Nat.exists_eq_add_of_le hm
    rw [Nat.add_assoc, Nat.add_comm 1 m, hj, htake]
  · rcases hl.morecore hbase hroom ok hn with
      ⟨h₁, fl₁, hmore, hne, hl₁, hbrk, hcovers, hunits, hframe, c, hc, hsize⟩ | ⟨hno, hmore⟩
    · left
      -- the new memory is long enough
      rcases hl₁.search ok hpos with ⟨as, z, c', cs, heq, hfit, j₁, hj₁⟩ | ⟨hshort₁, -⟩
      · obtain ⟨h', fl', htake, hgave⟩ := hl₁.take heq hpos hfit
        refine ⟨h', fl', _, ⟨hgave.list, hgave.loose, hgave.size, ?_, fun x => ?_, ?_, ?_⟩,
          j + 1 + (fl.length + 2 + (j₁ + 1)), fun m hm => ?_⟩
        · have hgrown := hgave.grown
          omega
        · have hgrown := hgave.grown
          rw [hgave.covers, hcovers, or_assoc]
          refine or_congr Iff.rfl ?_
          omega
        · have hu := hgave.units
          omega
        · intro a ha hcov hlt
          have hcov₁ : ¬ Covers fl₁ a := fun h =>
            ((hcovers a).mp h).elim hcov fun hx => absurd hx.1 (Nat.not_le.mpr hlt)
          exact (hgave.frame a ha hcov₁ (by omega)).trans (hframe a ha hcov hlt)
        · obtain ⟨k, rfl⟩ := Nat.exists_eq_add_of_le hm
          have hm₁ : j + 1 + (fl.length + 2 + (j₁ + 1)) + k =
              j + (fl.length + 2 + (j₁ + 1) + k + 1) := by omega
          have hm₂ : fl.length + 2 + (j₁ + 1) + k = j₁ + (fl.length + 2 + k + 1) := by omega
          rw [hm₁, hj _ _ (hmore _ (by omega)), if_neg hne, hm₂, hj₁, htake]
      · exact absurd (hshort₁ c hc) (Nat.not_lt.mpr hsize)
    · right
      refine ⟨⟨hshort, hno⟩, j + 1, fun m hm => ?_⟩
      obtain ⟨k, rfl⟩ := Nat.exists_eq_add_of_le hm
      rw [Nat.add_assoc, Nat.add_comm 1 k, hj _ _ (hmore _), if_pos rfl]

/-! ## More fuel -/

/-- What one more step of fuel does not change, more fuel does not. -/
theorem mono_of_succ {α : Type} {f : Nat → Option α}
    (hf : ∀ k r, f k = some r → f (k + 1) = some r) {k m : Nat} {r : α} (h : f k = some r)
    (hkm : k ≤ m) : f m = some r := by
  induction hkm with
  | refl => exact h
  | step _ ih => exact hf _ _ ih

theorem findPlace_succ {mem : Nat → Header} {bp p : Nat} (k z : Nat)
    (h : findPlace mem bp k p = some z) : findPlace mem bp (k + 1) p = some z := by
  induction k generalizing p with
  | zero => cases h
  | succ k ih =>
      rw [findPlace] at h ⊢
      split_ifs at h ⊢
      · exact h
      · exact h
      · exact ih h

theorem free_succ {ap : Nat} (k : Nat) (h' : Heap) (hf : free k h ap = some h') :
    free (k + 1) h ap = some h' := by
  rw [free] at hf ⊢
  cases hp : findPlace h.mem (ap - 8) k h.freep with
  | none =>
      rw [hp] at hf
      cases hf
  | some p =>
      rw [hp] at hf
      rw [findPlace_succ k p hp]
      exact hf

theorem morecore_succ {ok : Bool} {n : Nat} (k : Nat) (r : Nat × Heap)
    (hm : morecore k ok h n = some r) : morecore (k + 1) ok h n = some r := by
  cases hs : h.sbrk ok (s32 (moreUnits n * 8)) with
  | none =>
      rw [morecore_none hs] at hm ⊢
      exact hm
  | some q =>
      cases hf : free k (q.2.setSize q.1 (moreUnits n)) (q.1 + 8) with
      | none =>
          have hs' := hs
          rw [moreUnits] at hs' hf
          simp only [morecore, hs', hf] at hm
          cases hm
      | some h' =>
          rw [morecore_some hs hf] at hm
          rw [morecore_some hs (free_succ k h' hf)]
          exact hm

theorem mallocLoop_succ {ok : Bool} {n : Nat} (k : Nat) {prevp p : Nat} (r : Nat × Heap)
    (hm : mallocLoop ok n k h prevp p = some r) :
    mallocLoop ok n (k + 1) h prevp p = some r := by
  induction k generalizing h prevp p with
  | zero => cases hm
  | succ k ih =>
      rw [mallocLoop] at hm ⊢
      split_ifs at hm ⊢
      · exact hm
      · obtain ⟨q, hq, hgo⟩ := Option.bind_eq_some_iff.mp hm
        rw [morecore_succ k q hq]
        change (if q.1 = 0 then _ else _) = _
        change (if q.1 = 0 then _ else _) = _ at hgo
        split_ifs at hgo ⊢
        · exact hgo
        · exact ih hgo
      · exact ih hm

theorem free_mono {ap k m : Nat} {h' : Heap} (hf : free k h ap = some h') (hkm : k ≤ m) :
    free m h ap = some h' :=
  mono_of_succ free_succ hf hkm

theorem malloc_mono {ok : Bool} {nbytes k m : Nat} {r : Nat × Heap}
    (hm : malloc base k ok h nbytes = some r) (hkm : k ≤ m) :
    malloc base m ok h nbytes = some r :=
  mono_of_succ (fun k r => mallocLoop_succ k r) hm hkm

/-! ## Programs -/

/-- A block a program holds, and how many bytes it asked for. -/
structure Held where
  block : Block
  want : Nat
  deriving DecidableEq

structure Program where
  heap : Heap
  held : List Held

/-- A call of a program, or a write into its blocks; `r` is what `malloc` returned. -/
inductive Call where
  | malloc (nbytes r : Nat)
  | free (ap : Nat)
  | write
  | sbrk (n : Nat)

/-- The largest request whose units, in bytes, are an `int`. -/
def mallocMax : Nat := 2147483632

/-- The block that `malloc` returned, with the length its header says. -/
def Program.hold (p : Program) (h : Heap) (r nbytes : Nat) : Program where
  heap := h
  held := if r = 0 then p.held else ⟨⟨r - 8, (h.mem (r - 8)).size⟩, nbytes⟩ :: p.held

/-- What a program may do: it frees what it holds, and writes only there. -/
inductive Step (base : Nat) : Program → Call → Program → Prop
  | malloc {p : Program} {nbytes r fuel : Nat} {ok : Bool} {h : Heap} :
      nbytes ≤ mallocMax → malloc base fuel ok p.heap nbytes = some (r, h) →
      Step base p (.malloc nbytes r) (p.hold h r nbytes)
  | free {p : Program} {x : Held} {fuel : Nat} {h : Heap} :
      x ∈ p.held → free fuel p.heap (x.block.addr + 8) = some h →
      Step base p (.free (x.block.addr + 8)) ⟨h, p.held.erase x⟩
  | write {p : Program} {mem : Nat → Header} :
      (∀ a, (∀ x ∈ p.held, a ≤ x.block.addr ∨ x.block.stop ≤ a) → mem a = p.heap.mem a) →
      Step base p .write ⟨{ p.heap with mem := mem }, p.held⟩
  | sbrk {p : Program} {n : Nat} :
      Step base p (.sbrk n) ⟨{ p.heap with brk := p.heap.brk + n }, p.held⟩

/-- The bytes the program has got by its own `sbrk`. -/
def own (as : List Call) : Nat :=
  (as.map fun a =>
    match a with
    | .sbrk n => n
    | _ => 0).sum

/-- What holds of a program's memory, with these free blocks, where it was `brk` long at first. -/
structure Sound (base brk : Nat) (as : List Call) (p : Program) (fl : List Block) : Prop where
  list : FreeList base (firstMalloc base p.heap) fl
  started : p.heap.freep = 0 → p.held = []
  loose : ∀ x ∈ p.held, Loose base (firstMalloc base p.heap) fl x.block
  disjoint : p.held.Pairwise fun x y => ∀ a, x.block.Has a → ¬ y.block.Has a
  want : ∀ x ∈ p.held, x.want + 8 ≤ 8 * x.block.size
  grown : brk ≤ p.heap.brk
  obtained : ∀ a, Covers fl a ∨ Covers (p.held.map Held.block) a → brk ≤ a
  units : 8 * (units fl + units (p.held.map Held.block)) + own as + brk = p.heap.brk

theorem firstMalloc_brk (base : Nat) (h : Heap) : (firstMalloc base h).brk = h.brk := by
  unfold firstMalloc
  split <;> rfl

theorem firstMalloc_of_ne (h0 : h.freep ≠ 0) : firstMalloc base h = h := if_neg h0

/-- The list before the first `malloc` is empty. -/
theorem firstMalloc_list (h0 : h.freep = 0) : FreeList base (firstMalloc base h) [] := by
  rw [firstMalloc, if_pos h0]
  refine ⟨⟨?_, trivial⟩, List.pairwise_singleton _ _, fun b hb => (by cases hb),
    fun b hb => (by cases hb), fun b hb => (by cases hb), ⟨⟨base, 0⟩, List.mem_cons_self, rfl⟩⟩
  change Function.update _ base _ base = _
  rw [Function.update_self]
  change Header.mk (Function.update h.mem base _ base).ptr 0 = _
  rw [Function.update_self]
  rfl

theorem FreeList.freep_ne (hl : FreeList base h fl) (hbase : 0 < base) : h.freep ≠ 0 := by
  obtain ⟨b, hb, hrover⟩ := hl.rover
  obtain ⟨as, cs, heq⟩ := List.append_of_mem hb
  have hle := (hl.cut heq).1
  omega

theorem nunits_bounds {nbytes : Nat} (hn : nbytes ≤ mallocMax) :
    0 < nunits nbytes ∧ nunits nbytes * 8 < 2147483648 ∧ nbytes + 8 ≤ 8 * nunits nbytes := by
  unfold mallocMax at hn
  unfold nunits u32
  omega

/-! ## Steps -/

/-- Memory that is not the free list's changes, or there is more of it. -/
theorem FreeList.keep (hl : FreeList base h fl) {h' : Heap}
    (hmem : ∀ b ∈ ring base fl, h'.mem b.addr = h.mem b.addr) (hfreep : h'.freep = h.freep)
    (hbrk : h.brk ≤ h'.brk) : FreeList base h' fl :=
  ⟨hl.chain.congr hmem, hl.apart, hl.pos, hl.above, fun b hb => Nat.le_trans (hl.below b hb) hbrk,
    hfreep ▸ hl.rover⟩

theorem Loose.keep {b : Block} (hb : Loose base h fl b) {h' : Heap}
    (hmem : h'.mem b.addr = h.mem b.addr) (hbrk : h.brk ≤ h'.brk) : Loose base h' fl b :=
  ⟨hmem ▸ hb.header, hb.pos, hb.above, Nat.le_trans hb.below hbrk, hb.apart⟩

/-- A block that the program holds stays as it is when another one is given. -/
theorem Gave.loose_of {h' : Heap} {fl' : List Block} {b y : Block} {n : Nat}
    (hgave : Gave base h fl h' fl' b n) (hy : Loose base h fl y) :
    Loose base h' fl' y ∧ ∀ a, b.Has a → ¬ y.Has a := by
  have hin : ∀ a, y.Has a → ¬ (Covers fl' a ∨ b.Has a) := by
    intro a ha hcov
    rcases (hgave.covers a).mp hcov with hfree | ⟨hnew, -⟩
    · exact hy.apart a ha hfree
    · exact absurd (Nat.lt_of_lt_of_le ha.2 hy.below) (Nat.not_lt.mpr hnew)
  refine ⟨⟨?_, hy.pos, hy.above, Nat.le_trans hy.below hgave.grown, fun a ha hcov =>
    hin a ha (.inl hcov)⟩, fun a hb ha => hin a ha (.inr hb)⟩
  have haddr := Block.has_addr hy.pos
  rw [hgave.frame y.addr ?_ (hy.apart _ haddr) (Nat.lt_of_lt_of_le haddr.2 hy.below), hy.header]
  have habove := hy.above
  omega

variable {brk : Nat} {as : List Call} {p p' : Program}

theorem own_snoc (as : List Call) (c : Call) : own (as ++ [c]) = own as + own [c] := by
  simp [own]

/-- `malloc` has given a block. -/
theorem Sound.gave (hbase : 0 < base) (hs : Sound base brk as p fl) {h' : Heap}
    {fl' : List Block} {b : Block} {n nbytes : Nat}
    (hgave : Gave base (firstMalloc base p.heap) fl h' fl' b n) (hfits : nbytes + 8 ≤ 8 * n) :
    Sound base brk (as ++ [.malloc nbytes (b.addr + 8)]) (p.hold h' (b.addr + 8) nbytes) fl' := by
  have hbrk : (firstMalloc base p.heap).brk = p.heap.brk := firstMalloc_brk base p.heap
  have hown : own (as ++ [.malloc nbytes (b.addr + 8)]) = own as := own_snoc as _
  have hold : p.hold h' (b.addr + 8) nbytes = ⟨h', ⟨b, nbytes⟩ :: p.held⟩ := by
    have hblock : (⟨b.addr + 8 - 8, (h'.mem (b.addr + 8 - 8)).size⟩ : Block) = b := by
      rw [Nat.add_sub_cancel, hgave.loose.header]
    rw [Program.hold, if_neg (Nat.succ_ne_zero _), hblock]
  have hfirst : firstMalloc base h' = h' := firstMalloc_of_ne (hgave.list.freep_ne hbase)
  have hother := fun x hx => hgave.loose_of (hs.loose x hx)
  have hgrown := hgave.grown
  have hsize := hgave.size
  rw [hbrk] at hgrown
  rw [hold]
  refine ⟨hfirst.symm ▸ hgave.list, fun h0 => absurd h0 (hgave.list.freep_ne hbase), ?_,
    List.pairwise_cons.mpr ⟨fun x hx => (hother x hx).2, hs.disjoint⟩, ?_,
    Nat.le_trans hs.grown hgrown, ?_, ?_⟩
  · intro x hx
    rw [hfirst]
    rcases List.mem_cons.mp hx with rfl | hx
    · exact hgave.loose
    · exact (hother x hx).1
  · intro x hx
    rcases List.mem_cons.mp hx with rfl | hx
    · change nbytes + 8 ≤ 8 * b.size
      rwa [hsize]
    · exact hs.want x hx
  · intro a ha
    rw [List.map_cons, covers_cons, ← or_assoc, hgave.covers, hbrk] at ha
    rcases ha with (ha | ha) | ha
    · exact hs.obtained a (.inl ha)
    · exact Nat.le_trans hs.grown ha.1
    · exact hs.obtained a (.inr ha)
  · have hunits := hgave.units
    have hbefore := hs.units
    rw [hbrk] at hunits
    rw [hown, List.map_cons, units_cons]
    dsimp only
    omega

/-- There was none to give. -/
theorem Sound.refused (hbase : 0 < base) (hs : Sound base brk as p fl) (nbytes : Nat) :
    Sound base brk (as ++ [.malloc nbytes 0]) ⟨firstMalloc base p.heap, p.held⟩ fl := by
  have hbrk : (firstMalloc base p.heap).brk = p.heap.brk := firstMalloc_brk base p.heap
  have hown : own (as ++ [.malloc nbytes 0]) = own as := own_snoc as _
  have hne := hs.list.freep_ne hbase
  have hfirst : firstMalloc base (firstMalloc base p.heap) = firstMalloc base p.heap :=
    firstMalloc_of_ne hne
  refine ⟨hfirst.symm ▸ hs.list, fun h0 => absurd h0 hne, hfirst.symm ▸ hs.loose, hs.disjoint,
    hs.want, hbrk.symm ▸ hs.grown, hs.obtained, ?_⟩
  rw [hown, hbrk]
  exact hs.units

theorem Sound.malloc (hbase : 0 < base) (hroom : base + 8 ≤ brk) (hs : Sound base brk as p fl)
    {nbytes r fuel : Nat} {ok : Bool} {h' : Heap} (hn : nbytes ≤ mallocMax)
    (hm : malloc base fuel ok p.heap nbytes = some (r, h')) :
    ∃ fl', Sound base brk (as ++ [.malloc nbytes r]) (p.hold h' r nbytes) fl' := by
  obtain ⟨hpos, hmax, hfits⟩ := nunits_bounds hn
  have hroom' : base + 8 ≤ (firstMalloc base p.heap).brk :=
    firstMalloc_brk base p.heap ▸ Nat.le_trans hroom hs.grown
  -- the fuel is enough for this call to return what `FreeList.malloc` says
  rcases hs.list.malloc hbase hroom' ok hpos hmax with ⟨h₁, fl', b, hgave, N, hN⟩ | ⟨-, N, hN⟩
  · have heq := (malloc_mono hm (Nat.le_max_left fuel N)).symm.trans
      (hN _ (Nat.le_max_right fuel N))
    cases heq
    exact ⟨fl', hs.gave hbase hgave hfits⟩
  · have heq := (malloc_mono hm (Nat.le_max_left fuel N)).symm.trans
      (hN _ (Nat.le_max_right fuel N))
    cases heq
    exact ⟨fl, hs.refused hbase nbytes⟩

theorem Sound.free (hs : Sound base brk as p fl) {x : Held} {fuel : Nat} {h' : Heap}
    (hbase : 0 < base) (hx : x ∈ p.held)
    (hf : free fuel p.heap (x.block.addr + 8) = some h') :
    ∃ fl', Sound base brk (as ++ [.free (x.block.addr + 8)]) ⟨h', p.held.erase x⟩ fl' := by
  have hne : p.heap.freep ≠ 0 := fun h0 => by
    rw [hs.started h0] at hx
    cases hx
  have hl := hs.list
  have hloose := hs.loose
  rw [firstMalloc_of_ne hne] at hl hloose
  obtain ⟨h₁, fl', hfree, hlist, hcovers, hunits, hbrk, hframe, -⟩ := hl.free (hloose x hx)
  have heq := (free_mono hf (Nat.le_max_left fuel (fl.length + 2))).symm.trans
    (hfree _ (Nat.lt_of_lt_of_le (by omega) (Nat.le_max_right fuel (fl.length + 2))))
  cases heq
  have hperm := List.perm_cons_erase hx
  have hdisjoint := hperm.pairwise hs.disjoint fun h a hb ha => h a ha hb
  obtain ⟨hothers, hrest⟩ := List.pairwise_cons.mp hdisjoint
  have hmem : ∀ y ∈ p.held.erase x, y ∈ p.held := fun y hy => List.mem_of_mem_erase hy
  have hfirst : firstMalloc base h' = h' := firstMalloc_of_ne (hlist.freep_ne hbase)
  have hmap := hperm.map Held.block
  refine ⟨fl', hfirst.symm ▸ hlist, fun h0 => absurd h0 (hlist.freep_ne hbase), fun y hy => ?_,
    hrest, fun y hy => hs.want y (hmem y hy), ?_, fun a ha => ?_, ?_⟩
  · have hy' := hloose y (hmem y hy)
    have haddr := Block.has_addr hy'.pos
    have habove := hy'.above
    rw [hfirst]
    refine ⟨?_, hy'.pos, habove, hbrk.symm ▸ hy'.below, fun a ha hcov => ?_⟩
    · rw [hframe y.block.addr (by omega) (hy'.apart _ haddr)
        (fun hxa => hothers y hy _ hxa haddr), hy'.header]
    · rcases (hcovers a).mp hcov with hxa | hfree
      · exact hothers y hy a hxa ha
      · exact hy'.apart a ha hfree
  · change brk ≤ h'.brk
    rw [hbrk]
    exact hs.grown
  · rcases ha with ha | ⟨c, hc, hca⟩
    · rcases (hcovers a).mp ha with hxa | hfree
      · exact hs.obtained a (.inr ⟨x.block, List.mem_map_of_mem hx, hxa⟩)
      · exact hs.obtained a (.inl hfree)
    · obtain ⟨y, hy, rfl⟩ := List.mem_map.mp hc
      exact hs.obtained a (.inr ⟨y.block, List.mem_map_of_mem (hmem y hy), hca⟩)
  · have hsum : Umalloc.units (p.held.map Held.block) =
        x.block.size + Umalloc.units ((p.held.erase x).map Held.block) := by
      rw [← units_cons]
      exact (hmap.map Block.size).sum_eq
    have hsu := hs.units
    have hown : own (as ++ [.free (x.block.addr + 8)]) = own as := own_snoc as _
    rw [hown, hunits, hbrk]
    dsimp only
    omega

/-- A program that writes only into its blocks leaves the headers alone. -/
theorem Sound.write (hs : Sound base brk as p fl) {mem : Nat → Header}
    (hmem : ∀ a, (∀ x ∈ p.held, a ≤ x.block.addr ∨ x.block.stop ≤ a) → mem a = p.heap.mem a) :
    Sound base brk (as ++ [.write]) ⟨{ p.heap with mem := mem }, p.held⟩ fl := by
  have hown : own (as ++ [.write]) = own as := own_snoc as _
  by_cases h0 : p.heap.freep = 0
  · -- it holds nothing yet
    have hnone := hs.started h0
    have hsame : mem = p.heap.mem := funext fun a => hmem a fun x hx => by
      rw [hnone] at hx
      cases hx
    rw [hsame]
    exact ⟨hs.list, hs.started, hs.loose, hs.disjoint, hs.want, hs.grown, hs.obtained,
      hown.symm ▸ hs.units⟩
  · have hl := hs.list
    have hloose := hs.loose
    rw [firstMalloc_of_ne h0] at hl hloose
    have hfirst : firstMalloc base { p.heap with mem := mem } = { p.heap with mem := mem } :=
      firstMalloc_of_ne h0
    refine ⟨?_, fun h => absurd h h0, fun x hx => ?_, hs.disjoint, hs.want, hs.grown, hs.obtained,
      hown.symm ▸ hs.units⟩
    · rw [hfirst]
      refine hl.keep (fun b hb => hmem b.addr fun x hx => ?_) rfl (Nat.le_refl _)
      have hplace := (hloose x hx).place hl hb
      omega
    · rw [hfirst]
      refine (hloose x hx).keep (hmem _ fun y hy => ?_) (Nat.le_refl _)
      by_cases hxy : x = y
      · exact .inl (by rw [hxy])
      · have hsymm : Std.Symm fun u v : Held => ∀ a, u.block.Has a → ¬ v.block.Has a :=
          ⟨fun _ _ h a hv hu => h a hu hv⟩
        have hnot := hs.disjoint.forall hx hy hxy _ (Block.has_addr (hloose x hx).pos)
        unfold Block.Has at hnot
        omega

end CS537.Xv6.Umalloc
