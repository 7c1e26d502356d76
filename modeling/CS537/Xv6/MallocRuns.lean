import CS537.Xv6.MallocSafety

/-!
# Programs that use the allocator

What holds in any run of a program from its start, in whatever order it calls `malloc` and
`free`, grows its memory itself and writes into its blocks.
-/

namespace CS537.Xv6.Umalloc

open MachineInt Lts

variable {base brk : Nat} {h₀ : Heap} {fl : List Block} {as : List Call} {p : Program}

/-- A program starts with `base` in its data, and no block. -/
structure Starts (base : Nat) (h : Heap) : Prop where
  data : 0 < base
  room : base + 8 ≤ h.brk
  fresh : h.freep = 0

theorem Starts.sound (h : Starts base h₀) : Sound base h₀.brk [] ⟨h₀, []⟩ [] where
  list := firstMalloc_list h.fresh
  started _ := rfl
  loose x hx := by cases hx
  disjoint := .nil
  want x hx := by cases hx
  grown := Nat.le_refl _
  obtained a ha := by rcases ha with ⟨b, hb, -⟩ | ⟨b, hb, -⟩ <;> cases hb
  units := by simp [Umalloc.units, own]

theorem firstMalloc_grow (base brk : Nat) (h : Heap) :
    firstMalloc base { h with brk := brk } = { firstMalloc base h with brk := brk } := by
  by_cases h0 : h.freep = 0
  · have hfirst : firstMalloc base h = _ := if_pos h0
    rw [hfirst]
    exact if_pos h0
  · rw [firstMalloc_of_ne h0]
    exact if_neg h0

theorem Sound.sbrk (hs : Sound base brk as p fl) (n : Nat) :
    Sound base brk (as ++ [.sbrk n]) ⟨{ p.heap with brk := p.heap.brk + n }, p.held⟩ fl := by
  have hle : (firstMalloc base p.heap).brk ≤ p.heap.brk + n := by
    rw [firstMalloc_brk]
    exact Nat.le_add_right _ _
  have hown : own (as ++ [.sbrk n]) = own as + n := own_snoc as _
  refine ⟨?_, hs.started, fun x hx => ?_, hs.disjoint, hs.want, ?_, hs.obtained, ?_⟩
  · rw [firstMalloc_grow]
    exact hs.list.keep (fun b _ => rfl) rfl hle
  · rw [firstMalloc_grow]
    exact (hs.loose x hx).keep rfl hle
  · exact Nat.le_trans hs.grown (Nat.le_add_right _ _)
  · have hunits := hs.units
    rw [hown]
    dsimp only
    omega

theorem sound_run (hstart : Starts base h₀) (hrun : Run (Step base) ⟨h₀, []⟩ as p) :
    ∃ fl, Sound base h₀.brk as p fl := by
  induction hrun with
  | nil => exact ⟨[], hstart.sound⟩
  | snoc _ hstep ih =>
      obtain ⟨fl, hsound⟩ := ih
      cases hstep with
      | malloc hn hm => exact hsound.malloc hstart.data hstart.room hn hm
      | free hx hf => exact hsound.free hstart.data hx hf
      | write hmem => exact ⟨fl, hsound.write hmem⟩
      | sbrk => exact ⟨fl, hsound.sbrk _⟩

/-! ## What a program may rely on -/

/-- The memory of a process of one page. -/
def newHeap : Heap := { mem := fun _ => ⟨0, 0⟩, freep := 0, brk := 4096 }

theorem newHeap_starts : Starts 4000 newHeap := ⟨by decide, by decide, rfl⟩

theorem newHeap_malloc :
    ((malloc 4000 5 true newHeap 100).bind fun q => (free 5 q.2 36760).map fun _ =>
      (q.1, (q.2.mem 36752).size)) = some (36760, 14) := by
  decide

/-- A program that allocates a block, and frees it. -/
theorem newHeap_run : ∃ h h', Run (Step 4000) ⟨newHeap, []⟩ [.malloc 100 36760]
      ⟨h, [⟨⟨36752, 14⟩, 100⟩]⟩ ∧
    Run (Step 4000) ⟨newHeap, []⟩ [.malloc 100 36760, .free 36760] ⟨h', []⟩ := by
  obtain ⟨⟨r, h⟩, hm, hrest⟩ := Option.bind_eq_some_iff.mp newHeap_malloc
  obtain ⟨h', hf, heq⟩ := Option.map_eq_some_iff.mp hrest
  obtain ⟨rfl, hsize⟩ := Prod.mk.inj heq
  have hstep : Step 4000 ⟨newHeap, []⟩ (.malloc 100 36760) ⟨h, [⟨⟨36752, 14⟩, 100⟩]⟩ := by
    have hmade := Step.malloc (p := ⟨newHeap, []⟩) (by decide) hm
    rw [Program.hold, if_neg (by decide)] at hmade
    dsimp only at hsize
    rwa [hsize] at hmade
  have hrun := Run.single hstep
  refine ⟨h, h', hrun, hrun.snoc ?_⟩
  exact Step.free (p := ⟨h, [⟨⟨36752, 14⟩, 100⟩]⟩) List.mem_cons_self hf

/-- **The blocks a program holds** do not overlap, are as long as it asked for, and lie in the
memory it got after its start; the free list is in order, has none of them, and has all the
rest of the memory that `malloc` got. -/
theorem malloc_safe (hstart : Starts base h₀) (hrun : Run (Step base) ⟨h₀, []⟩ as p) :
    (p.held.Pairwise fun x y => ∀ a, x.block.Has a → ¬ y.block.Has a) ∧
      (∀ x ∈ p.held, x.want + 8 ≤ 8 * x.block.size ∧ h₀.brk ≤ x.block.addr ∧
        x.block.stop ≤ p.heap.brk ∧ (p.heap.mem x.block.addr).size = x.block.size) ∧
      ∃ fl, FreeList base (firstMalloc base p.heap) fl ∧
        (∀ x ∈ p.held, ∀ a, x.block.Has a → ¬ Covers fl a) ∧
        8 * (units fl + units (p.held.map Held.block)) + own as + h₀.brk = p.heap.brk := by
  obtain ⟨fl, hs⟩ := sound_run hstart hrun
  refine ⟨hs.disjoint, fun x hx => ?_, fl, hs.list, fun x hx => (hs.loose x hx).apart, hs.units⟩
  have hx' := hs.loose x hx
  have hne : p.heap.freep ≠ 0 := fun h0 => by
    rw [hs.started h0] at hx
    cases hx
  rw [firstMalloc_of_ne hne] at hx'
  exact ⟨hs.want x hx, hs.obtained _ (.inr ⟨_, List.mem_map_of_mem hx, Block.has_addr hx'.pos⟩),
    hx'.below, hx'.header⟩

theorem malloc_safe_one : ∃ (p : Program) (fl : List Block), p.held = [⟨⟨36752, 14⟩, 100⟩] ∧
    FreeList 4000 (firstMalloc 4000 p.heap) fl ∧ 8 * (units fl + 14) + 4096 = p.heap.brk := by
  obtain ⟨h, -, hrun, -⟩ := newHeap_run
  obtain ⟨-, -, fl, hl, -, hunits⟩ := malloc_safe newHeap_starts hrun
  exact ⟨_, fl, rfl, hl, hunits⟩

/-- **The calls return.** `malloc` finds a block unless no free block is long enough and there is
no more memory, and each block that a program holds can be freed. -/
theorem malloc_returns (hstart : Starts base h₀) (hrun : Run (Step base) ⟨h₀, []⟩ as p) :
    (∃ fl, FreeList base (firstMalloc base p.heap) fl ∧
      ∀ nbytes ok, nbytes ≤ mallocMax → ∃ fuel r h, malloc base fuel ok p.heap nbytes = some (r, h) ∧
        (r = 0 → (∀ b ∈ fl, b.size < nunits nbytes) ∧
          (ok = false ∨ 2147483648 ≤ p.heap.brk + 8 * moreUnits (nunits nbytes)))) ∧
      ∀ x ∈ p.held, ∃ fuel h, free fuel p.heap (x.block.addr + 8) = some h := by
  obtain ⟨fl, hs⟩ := sound_run hstart hrun
  have hbrk : (firstMalloc base p.heap).brk = p.heap.brk := firstMalloc_brk base p.heap
  refine ⟨⟨fl, hs.list, fun nbytes ok hn => ?_⟩, fun x hx => ?_⟩
  · obtain ⟨hpos, hmax, -⟩ := nunits_bounds hn
    have hroom : base + 8 ≤ (firstMalloc base p.heap).brk :=
      hbrk ▸ Nat.le_trans hstart.room hs.grown
    rcases hs.list.malloc hstart.data hroom ok hpos hmax with ⟨h, _, b, -, N, hN⟩ | ⟨hnone, N, hN⟩
    · exact ⟨N, b.addr + 8, h, hN N (Nat.le_refl N), fun h0 => absurd h0 (Nat.succ_ne_zero _)⟩
    · rw [hbrk] at hnone
      exact ⟨N, 0, _, hN N (Nat.le_refl N), fun _ => hnone⟩
  · have hne : p.heap.freep ≠ 0 := fun h0 => by
      rw [hs.started h0] at hx
      cases hx
    have hl := hs.list
    have hloose := hs.loose x hx
    rw [firstMalloc_of_ne hne] at hl hloose
    obtain ⟨h, -, hfree, -⟩ := hl.free hloose
    exact ⟨_, h, hfree _ (Nat.lt_succ_self _)⟩

theorem malloc_returns_one : ∃ (p : Program) (fl : List Block), p.held = [⟨⟨36752, 14⟩, 100⟩] ∧
    FreeList 4000 (firstMalloc 4000 p.heap) fl ∧
    (∃ fuel r h, malloc 4000 fuel true p.heap 1000 = some (r, h)) ∧
    ∃ fuel h, free fuel p.heap 36760 = some h := by
  obtain ⟨h, -, hrun, -⟩ := newHeap_run
  obtain ⟨⟨fl, hl, hmalloc⟩, hfree⟩ := malloc_returns newHeap_starts hrun
  obtain ⟨fuel, r, h', hm, -⟩ := hmalloc 1000 true (by decide)
  exact ⟨_, fl, rfl, hl, ⟨fuel, r, h', hm⟩, hfree _ List.mem_cons_self⟩

/-- A request whose length in headers does not fit in a `uint` gets a block of its header only. -/
theorem malloc_wraps (hstart : Starts base h₀) (hrun : Run (Step base) ⟨h₀, []⟩ as p) {nbytes : Nat}
    (hlo : 4294967289 ≤ nbytes) (hhi : nbytes < 4294967296) (ok : Bool) :
    ∃ fuel r h, malloc base fuel ok p.heap nbytes = some (r, h) ∧
      (r ≠ 0 → (h.mem (r - 8)).size = 1) ∧
      (r = 0 → ok = false ∨ 2147483648 ≤ p.heap.brk + 32768) := by
  obtain ⟨fl, hs⟩ := sound_run hstart hrun
  have hbrk : (firstMalloc base p.heap).brk = p.heap.brk := firstMalloc_brk base p.heap
  have hroom : base + 8 ≤ (firstMalloc base p.heap).brk :=
    hbrk ▸ Nat.le_trans hstart.room hs.grown
  have hone : nunits nbytes = 1 := by
    unfold nunits u32
    omega
  rcases hs.list.malloc hstart.data hroom ok Nat.one_pos (by decide) with
    ⟨h, _, b, hgave, N, hN⟩ | ⟨⟨-, hnone⟩, N, hN⟩
  · rw [← hone] at hN
    refine ⟨N, b.addr + 8, h, hN N (Nat.le_refl N), fun _ => ?_, fun h0 => ?_⟩
    · rw [Nat.add_sub_cancel, hgave.loose.header, hgave.size]
    · exact absurd h0 (Nat.succ_ne_zero _)
  · rw [← hone] at hN
    refine ⟨N, 0, _, hN N (Nat.le_refl N), fun h0 => absurd rfl h0, fun _ => ?_⟩
    rw [hbrk] at hnone
    exact hnone

theorem malloc_wraps_one : ∃ p : Program, p.held = [⟨⟨36752, 14⟩, 100⟩] ∧
    ∃ fuel r h, malloc 4000 fuel true p.heap 4294967295 = some (r, h) ∧
      (r ≠ 0 → (h.mem (r - 8)).size = 1) ∧
      (r = 0 → true = false ∨ 2147483648 ≤ p.heap.brk + 32768) := by
  obtain ⟨h, -, hrun, -⟩ := newHeap_run
  exact ⟨_, rfl, malloc_wraps newHeap_starts hrun (by decide) (by decide) true⟩

/-! ## When all has been freed -/

/-- Blocks in order, in a range, are no longer than it. -/
theorem Apart.units_le {bs : List Block} (h : Apart bs) {lo hi : Nat} (hlo : ∀ b ∈ bs, lo ≤ b.addr)
    (hhi : ∀ b ∈ bs, b.stop ≤ hi) (hle : lo ≤ hi) : 8 * units bs + lo ≤ hi := by
  induction bs generalizing lo with
  | nil => simpa [units] using hle
  | cons b bs ih =>
      obtain ⟨hb, hbs⟩ := List.pairwise_cons.mp h
      have hmore := ih hbs (fun c hc => Nat.le_of_lt (hb c hc))
        (fun c hc => hhi c (List.mem_cons_of_mem _ hc)) (hhi b List.mem_cons_self)
      have hlob := hlo b List.mem_cons_self
      rw [units_cons]
      unfold Block.stop at hmore
      omega

/-- **All that was allocated, freed, is one block again**, in a program that leaves `sbrk` to
`malloc`. -/
theorem all_freed (hstart : Starts base h₀) (hrun : Run (Step base) ⟨h₀, []⟩ as p)
    (hown : own as = 0) (hheld : p.held = []) :
    ∃ fl, FreeList base (firstMalloc base p.heap) fl ∧
      (fl = [] ∧ p.heap.brk = h₀.brk ∨
        ∃ n, fl = [⟨h₀.brk, n⟩] ∧ p.heap.brk = h₀.brk + 8 * n) := by
  obtain ⟨fl, hs⟩ := sound_run hstart hrun
  have hunits : 8 * units fl + h₀.brk = p.heap.brk := by
    have hunits := hs.units
    rw [hown, hheld] at hunits
    exact hunits
  have hlo : ∀ b ∈ fl, h₀.brk ≤ b.addr := fun b hb =>
    hs.obtained _ (.inl ⟨b, hb, Block.has_addr (hs.list.pos b hb)⟩)
  have hhi : ∀ b ∈ fl, b.stop ≤ p.heap.brk := fun b hb =>
    firstMalloc_brk base p.heap ▸ hs.list.below b hb
  have hapart : Apart fl := (List.pairwise_cons.mp hs.list.apart).2
  refine ⟨fl, hs.list, ?_⟩
  cases fl with
  | nil =>
      rw [units_nil] at hunits
      exact .inl ⟨rfl, by omega⟩
  | cons b bs =>
      right
      have hb := hlo b List.mem_cons_self
      have hbhi := hhi b List.mem_cons_self
      obtain ⟨hafter, hbs⟩ := List.pairwise_cons.mp hapart
      rw [units_cons] at hunits
      cases bs with
      | nil =>
          rw [units_nil] at hunits
          unfold Block.stop at hbhi
          obtain ⟨addr, n⟩ := b
          obtain rfl : addr = h₀.brk := by
            dsimp only at *
            omega
          exact ⟨n, rfl, by dsimp only at *; omega⟩
      | cons c cs =>
          -- else there is a gap between two free blocks
          have hgap := hafter c List.mem_cons_self
          have hc := hhi c (List.mem_cons_of_mem _ List.mem_cons_self)
          have hrest := @Apart.units_le (c :: cs) hbs (b.stop + 1) _ hafter
            (fun d hd => hhi d (List.mem_cons_of_mem _ hd)) (by unfold Block.stop at *; omega)
          unfold Block.stop at hrest
          omega

theorem all_freed_one : ∃ (p : Program) (fl : List Block), p.held = [] ∧
    FreeList 4000 (firstMalloc 4000 p.heap) fl ∧
    (fl = [] ∧ p.heap.brk = 4096 ∨ ∃ n, fl = [⟨4096, n⟩] ∧ p.heap.brk = 4096 + 8 * n) := by
  obtain ⟨-, h, -, hrun⟩ := newHeap_run
  obtain ⟨fl, hl, hor⟩ := all_freed newHeap_starts hrun rfl rfl
  exact ⟨_, fl, rfl, hl, hor⟩

end CS537.Xv6.Umalloc
