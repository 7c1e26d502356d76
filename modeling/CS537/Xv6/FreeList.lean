import CS537.Lib.Circle
import CS537.Xv6.Malloc
import Mathlib.Algebra.Order.BigOperators.Group.List
import Mathlib.Algebra.Ring.Nat

/-!
# The free list of the allocator

The free blocks as a list: in the order of their addresses, and no two touch. `free` puts a
block into it, and `malloc` takes one, or the end of one, out.
-/

namespace CS537.Xv6.Umalloc

open Circle

/-! ## Blocks -/

/-- A block: where its header is and its length in headers. -/
structure Block where
  addr : Nat
  size : Nat
  deriving DecidableEq

namespace Block

/-- The address after the block. -/
def stop (b : Block) : Nat := b.addr + 8 * b.size

/-- The address lies in the block. -/
def Has (b : Block) (x : Nat) : Prop := b.addr ≤ x ∧ x < b.stop

/-- The header of a free block, linked to `p`. -/
def header (b : Block) (p : Nat) : Header := { ptr := p, size := b.size }

/-- The block before the blocks after it. -/
def joinNext (b : Block) : List Block → List Block
  | [] => [b]
  | c :: cs => if b.stop = c.addr then ⟨b.addr, b.size + c.size⟩ :: cs else b :: c :: cs

/-- The block after which others were put. -/
def joinPrev (p : Block) : List Block → List Block
  | [] => [p]
  | b :: bs => if p.stop = b.addr then ⟨p.addr, p.size + b.size⟩ :: bs else p :: b :: bs

end Block

/-- The address lies in one of the blocks. -/
def Covers (bs : List Block) (x : Nat) : Prop := ∃ b ∈ bs, b.Has x

/-- The length of the blocks together. -/
def units (bs : List Block) : Nat := (bs.map Block.size).sum

/-- In the order of their addresses, and none touches the next. -/
def Apart (bs : List Block) : Prop := bs.Pairwise fun a b => a.stop < b.addr

theorem covers_cons {b : Block} {bs : List Block} {x : Nat} :
    Covers (b :: bs) x ↔ b.Has x ∨ Covers bs x := by
  rw [Covers, List.exists_mem_cons_iff]
  rfl

theorem covers_append {as bs : List Block} {x : Nat} :
    Covers (as ++ bs) x ↔ Covers as x ∨ Covers bs x := by
  induction as with
  | nil => simp [Covers]
  | cons a as ih => rw [List.cons_append, covers_cons, covers_cons, ih, or_assoc]

@[simp] theorem units_nil : units [] = 0 := rfl

@[simp] theorem units_cons {b : Block} {bs : List Block} : units (b :: bs) = b.size + units bs := by
  simp [units]

@[simp] theorem units_append {as bs : List Block} : units (as ++ bs) = units as + units bs := by
  simp [units]

namespace Block

variable {b p : Block} {bs : List Block} {x : Nat}

/-- What is joined is what was there. -/
theorem has_join {b c : Block} (h : b.stop = c.addr) :
    Has ⟨b.addr, b.size + c.size⟩ x ↔ b.Has x ∨ c.Has x := by
  unfold Has stop at *
  dsimp only at *
  omega

theorem covers_joinNext : Covers (b.joinNext bs) x ↔ b.Has x ∨ Covers bs x := by
  cases bs with
  | nil => exact covers_cons
  | cons c cs =>
      rw [joinNext]
      split
      · rename_i h
        rw [covers_cons, covers_cons, has_join h, or_assoc]
      · exact covers_cons

theorem covers_joinPrev : Covers (p.joinPrev bs) x ↔ p.Has x ∨ Covers bs x := by
  cases bs with
  | nil => exact covers_cons
  | cons b bs =>
      rw [joinPrev]
      split
      · rename_i h
        rw [covers_cons, covers_cons, has_join h, or_assoc]
      · exact covers_cons

theorem units_joinNext : units (b.joinNext bs) = b.size + units bs := by
  cases bs with
  | nil => exact units_cons
  | cons c cs =>
      rw [joinNext]
      split
      · rw [units_cons, units_cons, Nat.add_assoc]
      · exact units_cons

theorem units_joinPrev : units (p.joinPrev bs) = p.size + units bs := by
  cases bs with
  | nil => exact units_cons
  | cons b bs =>
      rw [joinPrev]
      split
      · rw [units_cons, units_cons, Nat.add_assoc]
      · exact units_cons

/-- The block keeps its place, and the others that are left theirs. -/
theorem joinNext_eq (b : Block) (bs : List Block) :
    ∃ x rest, b.joinNext bs = x :: rest ∧ x.addr = b.addr ∧ b.size ≤ x.size ∧
      ∀ c ∈ rest, c ∈ bs := by
  cases bs with
  | nil => exact ⟨b, [], rfl, rfl, Nat.le_refl _, fun c hc => hc⟩
  | cons c cs =>
      rw [joinNext]
      split
      · exact ⟨_, cs, rfl, rfl, Nat.le_add_right _ _, fun d hd => List.mem_cons_of_mem _ hd⟩
      · exact ⟨b, c :: cs, rfl, rfl, Nat.le_refl _, fun d hd => hd⟩

theorem joinNext_apart (h : Apart bs) (hb : ∀ c ∈ bs, b.stop ≤ c.addr) : Apart (b.joinNext bs) := by
  cases bs with
  | nil => exact List.pairwise_singleton _ _
  | cons c cs =>
      have hc := hb c List.mem_cons_self
      have hrest := List.pairwise_cons.mp h
      rw [joinNext]
      split
      · rename_i heq
        refine List.pairwise_cons.mpr ⟨fun d hd => ?_, hrest.2⟩
        have hd := hrest.1 d hd
        unfold stop at *
        dsimp only at *
        omega
      · refine List.pairwise_cons.mpr ⟨fun d hd => ?_, h⟩
        rcases List.mem_cons.mp hd with rfl | hd
        · omega
        · have hd := hrest.1 d hd
          unfold stop at *
          omega

theorem joinPrev_apart (h : Apart (b :: bs)) (hp : p.stop ≤ b.addr) :
    Apart (p.joinPrev (b :: bs)) := by
  have hrest := List.pairwise_cons.mp h
  rw [joinPrev]
  split
  · rename_i heq
    refine List.pairwise_cons.mpr ⟨fun d hd => ?_, hrest.2⟩
    have hd := hrest.1 d hd
    unfold stop at *
    dsimp only at *
    omega
  · refine List.pairwise_cons.mpr ⟨fun d hd => ?_, h⟩
    rcases List.mem_cons.mp hd with rfl | hd
    · omega
    · have hd := hrest.1 d hd
      unfold stop at *
      omega

end Block

/-! ## The free list -/

/-- The circle: the header `base`, of no length, and the free blocks. -/
def ring (base : Nat) (fl : List Block) : List Block := ⟨base, 0⟩ :: fl

/-- The free blocks are in memory as `umalloc.c` has them. -/
structure FreeList (base : Nat) (h : Heap) (fl : List Block) : Prop where
  chain : Chain Block.addr Block.header h.mem base (ring base fl)
  apart : Apart (ring base fl)
  pos : ∀ b ∈ fl, 0 < b.size
  above : ∀ b ∈ fl, base + 8 ≤ b.addr
  below : ∀ b ∈ fl, b.stop ≤ h.brk
  rover : ∃ b ∈ ring base fl, h.freep = b.addr

variable {base : Nat} {h : Heap} {fl : List Block}

theorem header_ptr (b : Block) (p : Nat) : (b.header p).ptr = p := rfl

/-- In a list in order there is a place for each address that is not in it. -/
theorem Apart.split {bs : List Block} (h : Apart bs) {p : Nat} (hp : ∀ b ∈ bs, b.addr ≠ p) :
    ∃ as cs, bs = as ++ cs ∧ (∀ a ∈ as, a.addr < p) ∧ ∀ c ∈ cs, p < c.addr := by
  induction bs with
  | nil => exact ⟨[], [], rfl, fun a ha => (by cases ha), fun c hc => (by cases hc)⟩
  | cons b bs ih =>
      obtain ⟨hb, hbs⟩ := List.pairwise_cons.mp h
      rcases Nat.lt_or_gt_of_ne (hp b List.mem_cons_self) with hlt | hgt
      · obtain ⟨as, cs, rfl, has, hcs⟩ := ih hbs fun c hc => hp c (List.mem_cons_of_mem _ hc)
        refine ⟨b :: as, cs, rfl, fun a ha => ?_, hcs⟩
        rcases List.mem_cons.mp ha with rfl | ha
        · exact hlt
        · exact has a ha
      · refine ⟨[], b :: bs, rfl, fun a ha => (by cases ha), fun c hc => ?_⟩
        rcases List.mem_cons.mp hc with rfl | hc
        · exact hgt
        · have hc := hb c hc
          unfold Block.stop at hc
          omega

/-- What is known of a block of the circle: its header, and where the others lie. -/
theorem FreeList.cut (hl : FreeList base h fl) {as cs : List Block} {p : Block}
    (heq : ring base fl = as ++ p :: cs) :
    base ≤ p.addr ∧ (∀ a ∈ as, a.stop < p.addr) ∧ (∀ c ∈ cs, p.stop < c.addr) ∧
      h.mem p.addr = p.header (first Block.addr base cs) := by
  have hapart := hl.apart
  have hchain := hl.chain
  rw [heq] at hapart hchain
  obtain ⟨-, hrest, hbefore⟩ := List.pairwise_append.mp hapart
  refine ⟨?_, fun a ha => hbefore a ha p List.mem_cons_self, (List.pairwise_cons.mp hrest).1,
    ((chain_append.mp hchain).2).1⟩
  cases as with
  | nil =>
      rw [ring, List.nil_append, List.cons.injEq] at heq
      rw [← heq.1]
  | cons a as =>
      rw [ring, List.cons_append, List.cons.injEq] at heq
      have hlt := hbefore a List.mem_cons_self p List.mem_cons_self
      rw [← heq.1] at hlt
      exact Nat.le_of_lt hlt

/-- Where the loop of `free` stops. -/
def stops (mem : Nat → Header) (bp p : Nat) : Bool :=
  p < bp ∧ bp < (mem p).ptr ∨ (mem p).ptr ≤ p ∧ (p < bp ∨ bp < (mem p).ptr)

theorem findPlace_eq (mem : Nat → Header) (bp fuel p : Nat) :
    findPlace mem bp fuel p = walk Header.ptr mem (stops mem bp) fuel p := by
  induction fuel generalizing p with
  | zero => rfl
  | succ fuel ih =>
      rw [findPlace, walk, ih, stops]
      by_cases hbetween : p < bp ∧ bp < (mem p).ptr
      · rw [if_pos hbetween, if_pos (decide_eq_true (Or.inl hbetween))]
      · rw [if_neg hbetween]
        by_cases hlast : (mem p).ptr ≤ p ∧ (p < bp ∨ bp < (mem p).ptr)
        · rw [if_pos hlast, if_pos (decide_eq_true (Or.inr hlast))]
        · rw [if_neg hlast, if_neg]
          rw [decide_eq_true_iff]
          exact not_or.mpr ⟨hbetween, hlast⟩

/-- The loop of `free` stops at the block after which `bp` belongs, and only there. -/
theorem FreeList.stops_iff (hl : FreeList base h fl) {as cs : List Block} {p : Block} {bp : Nat}
    (hbase : base < bp) (heq : ring base fl = as ++ p :: cs) :
    stops h.mem bp p.addr = true ↔ p.addr < bp ∧ ∀ c ∈ cs, bp < c.addr := by
  obtain ⟨hfirst, -, hafter, hheader⟩ := hl.cut heq
  rw [stops, decide_eq_true_iff, hheader, header_ptr]
  cases cs with
  | nil =>
      rw [first_nil]
      refine ⟨fun h => ⟨by omega, fun c hc => by cases hc⟩, fun h => ?_⟩
      exact .inr ⟨hfirst, .inl h.1⟩
  | cons c cs =>
      rw [first_cons]
      have hpc := hafter c List.mem_cons_self
      unfold Block.stop at hpc
      refine ⟨fun h => ?_, fun h => .inl ⟨h.1, h.2 c List.mem_cons_self⟩⟩
      have hbc : p.addr < bp ∧ bp < c.addr := by omega
      refine ⟨hbc.1, fun d hd => ?_⟩
      rcases List.mem_cons.mp hd with rfl | hd
      · exact hbc.2
      · have heq' : ring base fl = (as ++ [p]) ++ c :: cs := by simpa using heq
        have hcd := (hl.cut heq').2.2.1 d hd
        unfold Block.stop at hcd
        omega

/-- The loop of `free` finds the block of the circle after which the new one belongs. -/
theorem FreeList.findPlace (hl : FreeList base h fl) {bp : Nat} (hbase : base < bp)
    (hnew : ∀ b ∈ fl, b.addr ≠ bp) :
    ∃ as p cs, ring base fl = as ++ p :: cs ∧ p.addr < bp ∧ (∀ c ∈ cs, bp < c.addr) ∧
      ∀ n, fl.length + 1 < n → Umalloc.findPlace h.mem bp n h.freep = some p.addr := by
  have hsome : ∃ b ∈ ring base fl, stops h.mem bp b.addr = true := by
    have hne : ∀ b ∈ ring base fl, b.addr ≠ bp := by
      intro b hb
      rcases List.mem_cons.mp hb with rfl | hb
      · exact Nat.ne_of_lt hbase
      · exact hnew b hb
    obtain ⟨as, cs, heq, has, hcs⟩ := hl.apart.split hne
    rcases List.eq_nil_or_concat as with rfl | ⟨as, p, rfl⟩
    · have hfirst := hcs ⟨base, 0⟩ (by rw [← List.nil_append cs, ← heq]; exact List.mem_cons_self)
      exact absurd hbase (Nat.lt_asymm hfirst)
    · rw [List.concat_eq_append] at heq has
      rw [List.append_assoc, List.singleton_append] at heq
      refine ⟨p, by rw [heq]; exact List.mem_append_right _ List.mem_cons_self, ?_⟩
      exact (hl.stops_iff hbase heq).mpr
        ⟨has p (List.mem_append_right _ List.mem_cons_self), hcs⟩
  obtain ⟨a, ha, hrover⟩ := hl.rover
  obtain ⟨_, z, _, hperm, -, -, -, hz, hwalk⟩ :=
    Chain.walk (q := base) (t := stops h.mem bp) header_ptr hl.chain ha hsome
  obtain ⟨as, cs, heq⟩ := List.append_of_mem
    (hperm.mem_iff.mp (List.mem_append_right _ List.mem_cons_self))
  obtain ⟨hlt, hgt⟩ := (hl.stops_iff hbase heq).mp hz
  refine ⟨as, z, cs, heq, hlt, hgt, fun n hn => ?_⟩
  rw [findPlace_eq, hrover]
  exact hwalk n hn

/-! ## Freeing -/

@[simp] theorem joinNext_brk (h : Heap) (p bp : Nat) : (joinNext h p bp).brk = h.brk := by
  unfold joinNext
  split <;> rfl

@[simp] theorem joinPrev_brk (h : Heap) (p bp : Nat) : (joinPrev h p bp).brk = h.brk := by
  unfold joinPrev
  split <;> rfl

/-- What `joinNext` writes: the header of the block, with what it was joined to. -/
theorem joinNext_mem {p bp : Nat} {b x : Block} {cs rest : List Block} (hp : bp ≠ p)
    (hsize : (h.mem bp).size = b.size) (hbp : b.addr = bp)
    (hptr : (h.mem p).ptr = first Block.addr base cs)
    (hcs : ∀ c ∈ cs, c.addr ≠ bp) (hbase : cs = [] → b.stop ≠ base)
    (hchain : Chain Block.addr Block.header h.mem base cs) (hx : b.joinNext cs = x :: rest) :
    (joinNext h p bp).mem =
        Function.update h.mem bp (x.header (first Block.addr base rest)) ∧
      Chain Block.addr Block.header h.mem base rest := by
  subst hbp
  have hstop : b.addr + 8 * (h.mem b.addr).size = b.stop := by rw [hsize]; rfl
  rw [Umalloc.joinNext, hstop, hptr]
  cases cs with
  | nil =>
      cases hx
      rw [first_nil, if_neg (hbase rfl), Heap.setPtr_mem, Block.header, hsize]
      exact ⟨rfl, trivial⟩
  | cons c cs =>
      have hc := hcs c List.mem_cons_self
      rw [first_cons]
      rw [Block.joinNext] at hx
      by_cases heq : b.stop = c.addr
      · rw [if_pos heq] at hx ⊢
        cases hx
        refine ⟨?_, hchain.2⟩
        simp only [Heap.setPtr_mem, Heap.setSize_mem, Function.update_self, Function.update_idem,
          Function.update_of_ne hp.symm, hptr, first_cons, Function.update_of_ne hc, hsize,
          hchain.1]
        rfl
      · rw [if_neg heq] at hx ⊢
        cases hx
        rw [Heap.setPtr_mem, Block.header, hsize]
        exact ⟨rfl, hchain⟩

/-- What `joinPrev` writes: the header of the block before, with what was joined to it. -/
theorem joinPrev_mem {b p : Block} {x : Block} {rest : List Block} {q : Nat}
    (hne : b.addr ≠ p.addr) (hsize : (h.mem p.addr).size = p.size) (hx : x.addr = b.addr)
    (hb : h.mem b.addr = x.header (first Block.addr q rest)) :
    ∃ p' rest', p.joinPrev (x :: rest) = p' :: rest' ∧ p'.addr = p.addr ∧
      (joinPrev h p.addr b.addr).mem =
        Function.update h.mem p.addr (p'.header (first Block.addr q rest')) := by
  have hstop : p.addr + 8 * (h.mem p.addr).size = p.stop := by rw [hsize]; rfl
  rw [Umalloc.joinPrev, hstop, Block.joinPrev, hx]
  split
  · refine ⟨_, rest, rfl, rfl, ?_⟩
    simp only [Heap.setPtr_mem, Heap.setSize_mem, Function.update_self, Function.update_idem,
      Function.update_of_ne hne, hb, hsize]
    rfl
  · refine ⟨p, x :: rest, rfl, rfl, ?_⟩
    rw [Heap.setPtr_mem, hsize, first_cons, hx]
    rfl

/-- A block of the circle: `base`, or one in the process's memory. -/
def Good (base brk : Nat) (b : Block) : Prop :=
  b = ⟨base, 0⟩ ∨ 0 < b.size ∧ base + 8 ≤ b.addr ∧ b.stop ≤ brk

theorem FreeList.good (hl : FreeList base h fl) {b : Block} (hb : b ∈ ring base fl) :
    Good base h.brk b :=
  (List.mem_cons.mp hb).imp id fun hb => ⟨hl.pos b hb, hl.above b hb, hl.below b hb⟩

theorem FreeList.of_ring (hchain : Chain Block.addr Block.header h.mem base (ring base fl))
    (hapart : Apart (ring base fl)) (hgood : ∀ b ∈ ring base fl, Good base h.brk b)
    (hrover : ∃ b ∈ ring base fl, h.freep = b.addr) : FreeList base h fl := by
  have hin : ∀ b ∈ fl, 0 < b.size ∧ base + 8 ≤ b.addr ∧ b.stop ≤ h.brk := by
    intro b hb
    refine (hgood b (List.mem_cons_of_mem _ hb)).resolve_left ?_
    rintro rfl
    have hlt := (List.pairwise_cons.mp hapart).1 _ hb
    exact absurd hlt (Nat.lt_irrefl base)
  exact ⟨hchain, hapart, fun b hb => (hin b hb).1, fun b hb => (hin b hb).2.1,
    fun b hb => (hin b hb).2.2, hrover⟩

theorem covers_ring (base : Nat) (fl : List Block) {x : Nat} :
    Covers (ring base fl) x ↔ Covers fl x := by
  rw [ring, covers_cons]
  refine or_iff_right fun h => ?_
  unfold Block.Has Block.stop at h
  dsimp only at h
  omega

theorem units_ring (base : Nat) (fl : List Block) : units (ring base fl) = units fl := by
  rw [ring, units_cons, Nat.zero_add]

/-- A block that is not free, with its header as `malloc` leaves it. -/
structure Loose (base : Nat) (h : Heap) (fl : List Block) (b : Block) : Prop where
  header : (h.mem b.addr).size = b.size
  pos : 0 < b.size
  above : base + 8 ≤ b.addr
  below : b.stop ≤ h.brk
  apart : ∀ x, b.Has x → ¬ Covers fl x

theorem Block.has_addr {b : Block} (hb : 0 < b.size) : b.Has b.addr := by
  unfold Block.Has Block.stop
  omega

/-- The free blocks lie before or after a block that is not free. -/
theorem Loose.place (hl : FreeList base h fl) {b : Block} (hb : Loose base h fl b) {c : Block}
    (hc : c ∈ ring base fl) :
    (c.addr < b.addr → c.stop ≤ b.addr) ∧ (b.addr < c.addr → b.stop ≤ c.addr) ∧
      c.addr ≠ b.addr := by
  have habove := hb.above
  rcases List.mem_cons.mp hc with rfl | hc
  · unfold Block.stop
    dsimp only
    omega
  · have hpos := hl.pos c hc
    have hbpos := hb.pos
    have hnoc : ¬ b.Has c.addr := fun hx => hb.apart _ hx ⟨c, hc, Block.has_addr hpos⟩
    have hnob : ¬ c.Has b.addr := fun hx => hb.apart _ (Block.has_addr hbpos) ⟨c, hc, hx⟩
    unfold Block.Has Block.stop at *
    omega

theorem good_joinNext {brk : Nat} {b : Block} {cs : List Block} (hpos : 0 < b.size)
    (habove : base + 8 ≤ b.addr) (hbelow : b.stop ≤ brk) (hcs : ∀ c ∈ cs, Good base brk c) :
    ∀ d ∈ b.joinNext cs, Good base brk d := by
  have hb : Good base brk b := .inr ⟨hpos, habove, hbelow⟩
  cases cs with
  | nil =>
      intro d hd
      rw [List.mem_singleton.mp hd]
      exact hb
  | cons c cs =>
      rw [Block.joinNext]
      split
      · rename_i heq
        intro d hd
        rcases List.mem_cons.mp hd with rfl | hd
        · rcases hcs c List.mem_cons_self with rfl | hc
          · unfold Block.stop at heq
            dsimp only at heq
            omega
          · right
            unfold Block.stop at *
            dsimp only at *
            omega
        · exact hcs d (List.mem_cons_of_mem _ hd)
      · intro d hd
        rcases List.mem_cons.mp hd with rfl | hd
        · exact hb
        · exact hcs d hd

theorem good_joinPrev {brk : Nat} {p x : Block} {rest : List Block} (hx : base + 8 ≤ x.addr)
    (hp : Good base brk p) (hrest : ∀ c ∈ x :: rest, Good base brk c) :
    ∀ d ∈ p.joinPrev (x :: rest), Good base brk d := by
  rw [Block.joinPrev]
  split
  · rename_i heq
    intro d hd
    rcases List.mem_cons.mp hd with rfl | hd
    · have hxgood := (hrest x List.mem_cons_self).resolve_left (by
        rintro rfl
        exact absurd hx (by simp))
      rcases hp with rfl | hp
      · unfold Block.stop at heq
        dsimp only at heq
        omega
      · right
        unfold Block.stop at *
        dsimp only at *
        omega
    · exact hrest d (List.mem_cons_of_mem _ hd)
  · intro d hd
    rcases List.mem_cons.mp hd with rfl | hd
    · exact hp
    · exact hrest d hd

/-- What is left of the blocks after the joined one is still linked. -/
theorem chain_joinPrev {mem : Nat → Header} {q : Nat} {p x p' : Block} {rest rest' : List Block}
    (hjoin : p.joinPrev (x :: rest) = p' :: rest')
    (h : Chain Block.addr Block.header mem q (x :: rest)) :
    Chain Block.addr Block.header mem q rest' := by
  rw [Block.joinPrev] at hjoin
  split at hjoin
  · cases hjoin
    exact h.2
  · cases hjoin
    exact h

/-- From one of its blocks on, the circle is replaced by blocks that start at the same address. -/
theorem FreeList.splice (hl : FreeList base h fl) {as cs ts : List Block} {p p' : Block}
    {h' : Heap} (heq : ring base fl = as ++ p :: cs) (haddr : p'.addr = p.addr)
    (hframe : ∀ a ∈ as, h'.mem a.addr = h.mem a.addr)
    (hchain : Chain Block.addr Block.header h'.mem base (p' :: ts)) (hapart : Apart (p' :: ts))
    (hgood : ∀ d ∈ p' :: ts, Good base h.brk d) (hbrk : h'.brk = h.brk)
    (hfreep : h'.freep = p.addr) :
    ∃ fl', as ++ p' :: ts = ring base fl' ∧ FreeList base h' fl' := by
  obtain ⟨-, hbefore, -, -⟩ := hl.cut heq
  have hring : ∃ fl', as ++ p' :: ts = ring base fl' := by
    cases as with
    | nil =>
        rw [ring, List.nil_append, List.cons.injEq] at heq
        have hbase : p'.addr = base := by rw [haddr, ← heq.1]
        have hp' : p' = ⟨base, 0⟩ := (hgood p' List.mem_cons_self).resolve_right fun hin => by
          have habove := hin.2.1
          omega
        exact ⟨ts, by rw [hp']; rfl⟩
    | cons a as =>
        rw [ring, List.cons_append, List.cons.injEq] at heq
        exact ⟨as ++ p' :: ts, by rw [ring, heq.1]; rfl⟩
  obtain ⟨fl', hring⟩ := hring
  refine ⟨fl', hring, .of_ring ?_ ?_ ?_ ⟨p', ?_, hfreep.trans haddr.symm⟩⟩
  · have hold := (chain_append.mp (heq ▸ hl.chain)).1
    rw [← hring]
    refine chain_append.mpr ⟨?_, hchain⟩
    rw [first_cons] at hold ⊢
    rw [haddr]
    exact hold.congr hframe
  · rw [← hring]
    refine List.pairwise_append.mpr
      ⟨(List.pairwise_append.mp (heq ▸ hl.apart)).1, hapart, fun a ha d hd => ?_⟩
    have hlt := hbefore a ha
    rcases List.mem_cons.mp hd with rfl | hd
    · exact haddr ▸ hlt
    · have hafter := (List.pairwise_cons.mp hapart).1 d hd
      unfold Block.stop at *
      omega
  · rw [← hring]
    intro d hd
    rw [hbrk]
    rcases List.mem_append.mp hd with hd | hd
    · exact hl.good (heq ▸ List.mem_append_left _ hd)
    · exact hgood d hd
  · rw [← hring]
    exact List.mem_append_right _ List.mem_cons_self

/-- **`free`** joins the block to the free ones: it returns, and the free list is in order again,
with the bytes of the block. Nothing else of memory is changed. -/
theorem FreeList.free (hl : FreeList base h fl) {b : Block} (hb : Loose base h fl b) :
    ∃ h' fl', (∀ n, fl.length + 1 < n → Umalloc.free n h (b.addr + 8) = some h') ∧
      FreeList base h' fl' ∧ (∀ x, Covers fl' x ↔ b.Has x ∨ Covers fl x) ∧
      units fl' = b.size + units fl ∧ h'.brk = h.brk ∧
      (∀ a, a ≠ base → ¬ Covers fl a → ¬ b.Has a → h'.mem a = h.mem a) ∧
      ∃ c ∈ fl', b.size ≤ c.size := by
  have habove := hb.above
  obtain ⟨as, p, cs, heq, hlt, hgt, hfind⟩ := hl.findPlace (show base < b.addr by omega)
    fun c hc => (Loose.place hl hb (List.mem_cons_of_mem _ hc)).2.2
  obtain ⟨-, hbefore, hafter, hheader⟩ := hl.cut heq
  have hmem : ∀ c ∈ as ++ p :: cs, c ∈ ring base fl := fun c hc => heq ▸ hc
  have hp := hmem p (List.mem_append_right _ List.mem_cons_self)
  have hcs : ∀ c ∈ cs, c ∈ ring base fl := fun c hc =>
    hmem c (List.mem_append_right _ (List.mem_cons_of_mem _ hc))
  have hchain := chain_append.mp (heq ▸ hl.chain)
  obtain ⟨-, hcsApart, -⟩ := List.pairwise_append.mp (heq ▸ hl.apart)
  -- the block is joined to the free one after it
  obtain ⟨x, rest, hx, hxaddr, hxsize, hrest⟩ := Block.joinNext_eq b cs
  obtain ⟨hnextMem, hrestChain⟩ := joinNext_mem (h := h) (p := p.addr) (b := b) (x := x)
    (Nat.ne_of_gt hlt) hb.header rfl (by rw [hheader]; rfl)
    (fun c hc => (hb.place hl (hcs c hc)).2.2)
    (fun _ => by unfold Block.stop; omega) hchain.2.2 hx
  have hrestNe : ∀ c ∈ rest, c.addr ≠ b.addr ∧ c.addr ≠ p.addr := fun c hc => by
    have hgt := hgt c (hrest c hc)
    omega
  have hsize : ((joinNext h p.addr b.addr).mem p.addr).size = p.size := by
    rw [hnextMem, Function.update_of_ne (Nat.ne_of_lt hlt), hheader]
    rfl
  -- and to the free one before it
  obtain ⟨p', rest', hp', hpaddr, hmem'⟩ := joinPrev_mem (Nat.ne_of_gt hlt) hsize hxaddr
    (show (joinNext h p.addr b.addr).mem b.addr = x.header (first Block.addr base rest) by
      rw [hnextMem, Function.update_self])
  have hxabove : base + 8 ≤ x.addr := hxaddr ▸ habove
  have hjoined : Chain Block.addr Block.header
      (joinPrev (joinNext h p.addr b.addr) p.addr b.addr).mem base (x :: rest) := by
    have hone : Chain Block.addr Block.header (joinNext h p.addr b.addr).mem base (x :: rest) := by
      rw [hnextMem]
      refine ⟨?_, hrestChain.update _ fun c hc => (hrestNe c hc).1⟩
      rw [hxaddr, Function.update_self]
    rw [hmem']
    refine hone.update _ fun c hc => ?_
    rcases List.mem_cons.mp hc with rfl | hc
    · exact hxaddr ▸ Nat.ne_of_gt hlt
    · exact (hrestNe c hc).2
  have hsort : Apart (p' :: rest') := by
    have hxapart : Apart (x :: rest) := by
      rw [← hx]
      exact Block.joinNext_apart (List.pairwise_cons.mp hcsApart).2 fun c hc =>
        (hb.place hl (hcs c hc)).2.1 (hgt c hc)
    rw [← hp']
    exact Block.joinPrev_apart hxapart (hxaddr ▸ (hb.place hl hp).1 hlt)
  have hgood : ∀ d ∈ p' :: rest', Good base h.brk d := by
    rw [← hp']
    refine good_joinPrev hxabove (hl.good hp) ?_
    rw [← hx]
    exact good_joinNext hb.pos habove hb.below fun c hc => hl.good (hcs c hc)
  have hlist : ∃ fl', as ++ p' :: rest' = ring base fl' ∧ FreeList base
      { joinPrev (joinNext h p.addr b.addr) p.addr b.addr with freep := p.addr } fl' := by
    refine hl.splice heq hpaddr (fun a ha => ?_) ⟨?_, chain_joinPrev hp' hjoined⟩ hsort hgood ?_ rfl
    · have hap := hbefore a ha
      have hpb : a.addr < p.addr := by
        unfold Block.stop at hap
        omega
      dsimp only
      rw [hmem', hnextMem, Function.update_of_ne (Nat.ne_of_lt hpb),
        Function.update_of_ne (Nat.ne_of_lt (Nat.lt_trans hpb hlt))]
    · dsimp only
      rw [hmem', hpaddr, Function.update_self]
    · dsimp only
      rw [joinPrev_brk, joinNext_brk]
  obtain ⟨fl', hring, hlist⟩ := hlist
  have hcover : ∀ y, Covers (as ++ p' :: rest') y ↔ b.Has y ∨ Covers fl y := by
    intro y
    rw [← hp', covers_append, Block.covers_joinPrev, ← hx, Block.covers_joinNext,
      ← covers_ring base fl, heq, covers_append, covers_cons]
    tauto
  have hunits : units (as ++ p' :: rest') = b.size + units fl := by
    rw [← hp', units_append, Block.units_joinPrev, ← hx, Block.units_joinNext,
      ← units_ring base fl, heq, units_append, units_cons]
    omega
  refine ⟨{ joinPrev (joinNext h p.addr b.addr) p.addr b.addr with freep := p.addr }, fl',
    fun n hn => ?_, hlist, fun y => ?_, ?_, ?_, fun a ha hfree hnot => ?_, ?_⟩
  · rw [Umalloc.free, Nat.add_sub_cancel, hfind n hn]
  · rw [← covers_ring base _, ← hring, hcover]
  · rw [← units_ring base _, ← hring, hunits]
  · rw [joinPrev_brk, joinNext_brk]
  · rw [hmem', hnextMem]
    have hne : a ≠ p.addr := by
      rintro rfl
      rcases List.mem_cons.mp hp with hpb | hpfl
      · exact ha (congrArg Block.addr hpb)
      · exact hfree ⟨p, hpfl, Block.has_addr (hl.pos p hpfl)⟩
    have hne' : a ≠ b.addr := by
      rintro rfl
      exact hnot (Block.has_addr hb.pos)
    rw [Function.update_of_ne hne, Function.update_of_ne hne']
  · have hlarge : ∃ c ∈ p' :: rest', b.size ≤ c.size := by
      rw [← hp', Block.joinPrev]
      split
      · exact ⟨_, List.mem_cons_self, Nat.le_add_left_of_le hxsize⟩
      · exact ⟨x, List.mem_cons_of_mem _ List.mem_cons_self, hxsize⟩
    obtain ⟨c, hc, hsize⟩ := hlarge
    have hin : c ∈ ring base fl' := hring ▸ List.mem_append_right _ hc
    refine ⟨c, (List.mem_cons.mp hin).resolve_left ?_, hsize⟩
    rintro rfl
    exact absurd hb.pos (Nat.not_lt.mpr hsize)

/-! ## Taking a block -/

/-- The part of a free block that `malloc` gives away: all of it, or its end. -/
def Block.given (c : Block) (n : Nat) : Block := ⟨c.addr + 8 * (c.size - n), n⟩

/-- What is left of it. -/
def Block.left (c : Block) (n : Nat) : List Block :=
  if c.size = n then [] else [⟨c.addr, c.size - n⟩]

theorem Block.has_given {c : Block} {n x : Nat} (hn : n ≤ c.size) :
    c.Has x ↔ Covers (c.left n) x ∨ (c.given n).Has x := by
  unfold Block.left
  split
  · rename_i heq
    unfold Block.given Block.Has Block.stop
    simp [Covers, heq]
  · rw [covers_cons]
    unfold Block.given Block.Has Block.stop Covers
    simp only [List.not_mem_nil, false_and, exists_false, or_false]
    omega

theorem Block.left_not_given {c : Block} {n x : Nat} (hx : (c.given n).Has x) :
    ¬ Covers (c.left n) x := by
  rintro ⟨d, hd, hdx⟩
  unfold Block.left at hd
  split at hd
  · cases hd
  · rw [List.mem_singleton.mp hd] at hdx
    unfold Block.given Block.Has Block.stop at *
    dsimp only at *
    omega

theorem Block.units_left {c : Block} {n : Nat} (hn : n ≤ c.size) :
    units (c.left n) + n = c.size := by
  unfold Block.left
  split
  · rename_i heq
    rw [heq]
    exact Nat.zero_add n
  · exact Nat.sub_add_cancel hn

/-- What is left of a block is where it was. -/
theorem Block.left_mem {c d : Block} {n : Nat} (hn : n ≤ c.size) (hd : d ∈ c.left n) :
    d.addr = c.addr ∧ d.stop ≤ c.stop ∧ 0 < d.size := by
  unfold Block.left at hd
  split at hd
  · cases hd
  · rw [List.mem_singleton.mp hd]
    unfold Block.stop
    dsimp only
    omega

theorem Block.left_apart {z c : Block} {n : Nat} {cs : List Block} (hn : n ≤ c.size)
    (h : Apart (z :: c :: cs)) : Apart (z :: (c.left n ++ cs)) := by
  obtain ⟨hz, hrest⟩ := List.pairwise_cons.mp h
  obtain ⟨hc, hcs⟩ := List.pairwise_cons.mp hrest
  refine List.pairwise_cons.mpr ⟨fun d hd => ?_, List.pairwise_append.mpr ⟨?_, hcs, ?_⟩⟩
  · rcases List.mem_append.mp hd with hd | hd
    · rw [(Block.left_mem hn hd).1]
      exact hz c List.mem_cons_self
    · exact hz d (List.mem_cons_of_mem _ hd)
  · unfold Block.left
    split
    · exact .nil
    · exact List.pairwise_singleton _ _
  · intro d hd e he
    exact Nat.lt_of_le_of_lt (Block.left_mem hn hd).2.1 (hc e he)

/-- The block that is given ends where it ended. -/
theorem Block.given_stop {c : Block} {n : Nat} (hn : n ≤ c.size) : (c.given n).stop = c.stop := by
  unfold Block.given Block.stop
  dsimp only
  omega

theorem first_left {c : Block} {n q : Nat} {cs : List Block} :
    first Block.addr q (c.left n ++ cs) = if c.size = n then first Block.addr q cs else c.addr := by
  unfold Block.left
  split <;> rfl

/-- What `take` leaves and returns. -/
theorem take_eq {n : Nat} {z c : Block} {q : Nat} {cs : List Block}
    (hlt : z.addr < c.addr) (hc : h.mem c.addr = c.header (first Block.addr q cs)) (hn : n ≤ c.size)
    (hlink : h.mem z.addr = z.header c.addr) :
    ∃ h', take h n z.addr c.addr = ((c.given n).addr + 8, h') ∧ h'.brk = h.brk ∧
      h'.freep = z.addr ∧ (h'.mem (c.given n).addr).size = n ∧
      (∀ a, a ≠ z.addr → a ≠ c.addr → a ≠ (c.given n).addr → h'.mem a = h.mem a) ∧
      h'.mem z.addr = z.header (first Block.addr q (c.left n ++ cs)) ∧
      Chain Block.addr Block.header h'.mem (first Block.addr q cs) (c.left n) := by
  have hsize : (h.mem c.addr).size = c.size := by rw [hc]; rfl
  rw [first_left, Umalloc.take, hsize, Block.left]
  by_cases heq : c.size = n
  · have hgiven : c.given n = c := by
      rw [Block.given, heq, Nat.sub_self, ← heq]
      rfl
    rw [if_pos heq, if_pos heq, if_pos heq, hgiven]
    refine ⟨_, rfl, rfl, rfl, ?_, fun a ha _ _ => ?_, ?_, trivial⟩
    · change Header.size (Function.update h.mem _ _ c.addr) = n
      rw [Function.update_of_ne (Nat.ne_of_gt hlt), hsize, heq]
    · exact Function.update_of_ne ha _ _
    · change Function.update _ _ _ z.addr = _
      rw [Function.update_self, hc, hlink]
      rfl
  · rw [if_neg heq, if_neg heq, if_neg heq]
    have hq : c.addr + 8 * ((h.setSize c.addr (c.size - n)).mem c.addr).size =
        (c.given n).addr := by
      rw [Heap.setSize_mem, Function.update_self]
      rfl
    have hgt : c.addr < (c.given n).addr := by
      unfold Block.given
      dsimp only
      omega
    dsimp only
    rw [hq]
    refine ⟨_, rfl, rfl, rfl, ?_, fun a _ ha hb => ?_, ?_, ?_, trivial⟩
    · change Header.size
        (Function.update (h.setSize c.addr (c.size - n)).mem _ _ (c.given n).addr) = n
      rw [Function.update_self]
    · change Function.update _ _ _ a = _
      rw [Function.update_of_ne hb, Heap.setSize_mem, Function.update_of_ne ha]
    · change Function.update _ _ _ z.addr = _
      rw [Function.update_of_ne (Nat.ne_of_lt (Nat.lt_trans hlt hgt)), Heap.setSize_mem,
        Function.update_of_ne (Nat.ne_of_lt hlt), hlink]
    · change Function.update _ _ _ c.addr = _
      rw [Function.update_of_ne (Nat.ne_of_lt hgt), Heap.setSize_mem, Function.update_self, hc]
      rfl

/-- What `malloc` has done: it has taken the block out of the free list, which may have grown by
new memory, and has left the rest of memory as it was. -/
structure Gave (base : Nat) (h : Heap) (fl : List Block) (h' : Heap) (fl' : List Block) (b : Block)
    (n : Nat) : Prop where
  list : FreeList base h' fl'
  loose : Loose base h' fl' b
  size : b.size = n
  grown : h.brk ≤ h'.brk
  covers : ∀ x, Covers fl' x ∨ b.Has x ↔ Covers fl x ∨ h.brk ≤ x ∧ x < h'.brk
  units : 8 * (units fl' + n) + h.brk = 8 * units fl + h'.brk
  frame : ∀ a, a ≠ base → ¬ Covers fl a → a < h.brk → h'.mem a = h.mem a

/-- Taking a block from the free list. -/
theorem FreeList.take (hl : FreeList base h fl) {as cs : List Block} {z c : Block} {n : Nat}
    (heq : ring base fl = as ++ z :: c :: cs) (hpos : 0 < n) (hn : n ≤ c.size) :
    ∃ h' fl', Umalloc.take h n z.addr c.addr = ((c.given n).addr + 8, h') ∧
      Gave base h fl h' fl' (c.given n) n := by
  have heq' : ring base fl = (as ++ [z]) ++ c :: cs := by
    rw [heq, List.append_assoc]
    rfl
  obtain ⟨hbaseZ, hasZ, hzc, hzh⟩ := hl.cut heq
  obtain ⟨-, -, hccs, hch⟩ := hl.cut heq'
  have hzltc : z.addr < c.addr := by
    have hlt := hzc c List.mem_cons_self
    unfold Block.stop at hlt
    omega
  have hcfl : c ∈ fl := by
    have hc : c ∈ ring base fl := heq' ▸ List.mem_append_right _ List.mem_cons_self
    refine (List.mem_cons.mp hc).resolve_left ?_
    rintro rfl
    exact absurd hzltc (Nat.not_lt.mpr hbaseZ)
  obtain ⟨h', htake, hbrk, hfreep, hsize, hframe, hz', hleft⟩ :=
    take_eq hzltc hch hn (by rw [hzh]; rfl)
  -- where the block that is given lies
  have hgivenAddr : c.addr ≤ (c.given n).addr := Nat.le_add_right _ _
  have hgivenStop := Block.given_stop hn
  have hbefore : ∀ a ∈ as ++ [z], a.addr < c.addr ∧ a.stop < c.addr := by
    intro a ha
    have hlt := (hl.cut heq').2.1 a ha
    refine ⟨?_, hlt⟩
    unfold Block.stop at hlt
    omega
  have hcpos := hl.pos c hcfl
  have hbetween : (c.given n).addr < c.stop := by
    rw [← hgivenStop]
    unfold Block.stop Block.given
    dsimp only
    omega
  have hfar : ∀ d ∈ cs, d.addr ≠ z.addr ∧ d.addr ≠ c.addr ∧ d.addr ≠ (c.given n).addr := by
    intro d hd
    have hlt := hccs d hd
    unfold Block.stop at *
    omega
  have hlist : ∃ fl', as ++ z :: (c.left n ++ cs) = ring base fl' ∧ FreeList base h' fl' := by
    have hold := chain_append.mp (heq' ▸ hl.chain)
    have hapart := (List.pairwise_append.mp (heq ▸ hl.apart)).2.1
    refine hl.splice heq rfl (fun a ha => ?_) ⟨hz', chain_append.mpr ⟨hleft, ?_⟩⟩
      (Block.left_apart hn hapart) (fun d hd => ?_) hbrk hfreep
    · have hac := hbefore a (List.mem_append_left _ ha)
      have haz := hasZ a ha
      unfold Block.stop at haz
      exact hframe _ (by omega) (by omega) (by omega)
    · exact Chain.congr hold.2.2 fun d hd => hframe _ (hfar d hd).1 (hfar d hd).2.1 (hfar d hd).2.2
    · have hor : d ∈ ring base fl ∨ d ∈ c.left n := by
        rw [heq]
        simp only [List.mem_append, List.mem_cons] at hd ⊢
        tauto
      rcases hor with hd | hd
      · exact hl.good hd
      · obtain ⟨haddr, hstop, hsize⟩ := Block.left_mem hn hd
        exact .inr ⟨hsize, haddr ▸ hl.above c hcfl, Nat.le_trans hstop (hl.below c hcfl)⟩
  obtain ⟨fl', hring, hlist⟩ := hlist
  have hcover : ∀ x, Covers fl' x ∨ (c.given n).Has x ↔ Covers fl x := by
    intro x
    rw [← covers_ring base fl, ← covers_ring base fl', ← hring,
      heq, covers_append, covers_append, covers_cons, covers_cons, covers_cons, covers_append,
      Block.has_given hn]
    tauto
  have hunits : units fl' + n = units fl := by
    have hu := Block.units_left hn
    rw [← units_ring base fl, ← units_ring base fl', ← hring,
      heq, units_append, units_append, units_cons, units_cons, units_cons, units_append]
    omega
  refine ⟨h', fl', htake, hlist, ⟨hsize, hpos, ?_, ?_, ?_⟩, rfl, Nat.le_of_eq hbrk.symm, ?_, ?_,
    ?_⟩
  · exact Nat.le_trans (hl.above c hcfl) hgivenAddr
  · rw [hgivenStop, hbrk]
    exact hl.below c hcfl
  · intro x hx hcov
    have hxc : c.addr ≤ x ∧ x < c.stop := ⟨Nat.le_trans hgivenAddr hx.1, hgivenStop ▸ hx.2⟩
    rw [← covers_ring base _, ← hring] at hcov
    obtain ⟨d, hd, hdx⟩ := hcov
    have hor : d ∈ as ++ [z] ∨ d ∈ c.left n ∨ d ∈ cs := by
      simp only [List.mem_append, List.mem_cons] at hd ⊢
      tauto
    rcases hor with hd | hd | hd
    · have hlt := (hbefore d hd).2
      unfold Block.Has at hdx
      omega
    · exact Block.left_not_given hx ⟨d, hd, hdx⟩
    · have hlt := hccs d hd
      unfold Block.Has at hdx
      omega
  · intro x
    rw [hcover, hbrk]
    exact ⟨.inl, fun h => h.resolve_right fun hx => absurd hx.1 (Nat.not_le.mpr hx.2)⟩
  · rw [hunits, hbrk]
  · intro a ha hfree _
    refine hframe a ?_ ?_ ?_
    · rintro rfl
      have hz : z ∈ ring base fl := heq ▸ List.mem_append_right _ List.mem_cons_self
      rcases List.mem_cons.mp hz with hzb | hzfl
      · exact ha (congrArg Block.addr hzb)
      · exact hfree ⟨z, hzfl, Block.has_addr (hl.pos z hzfl)⟩
    · rintro rfl
      exact hfree ⟨c, hcfl, Block.has_addr hcpos⟩
    · rintro rfl
      exact hfree ⟨c, hcfl, hgivenAddr, hbetween⟩

end CS537.Xv6.Umalloc
