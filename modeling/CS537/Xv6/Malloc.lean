import CS537.Lib.MachineInt
import Mathlib.Logic.Function.Basic

/-!
# The allocator

`umalloc.c`: `malloc` and `free` of the user programs, over the headers in memory. The free
blocks are a circular list, in the order of their addresses, that starts at the static header
`base`; a block that is freed is joined to the free blocks it touches.
-/

namespace CS537.Xv6.Umalloc

open MachineInt

/-- `Header`. -/
structure Header where
  ptr : Nat
  size : Nat
  deriving DecidableEq

/-- The headers at the addresses of memory, `freep` (0 before the first `malloc`), and the end of
the process's memory. -/
structure Heap where
  mem : Nat → Header
  freep : Nat
  brk : Nat

namespace Heap

/-- `p->s.ptr = v`. -/
def setPtr (h : Heap) (p v : Nat) : Heap :=
  { h with mem := Function.update h.mem p { h.mem p with ptr := v } }

/-- `p->s.size = n`. -/
def setSize (h : Heap) (p n : Nat) : Heap :=
  { h with mem := Function.update h.mem p { h.mem p with size := n } }

theorem setPtr_mem (h : Heap) (p v : Nat) :
    (h.setPtr p v).mem = Function.update h.mem p ⟨v, (h.mem p).size⟩ := rfl

theorem setSize_mem (h : Heap) (p n : Nat) :
    (h.setSize p n).mem = Function.update h.mem p ⟨(h.mem p).ptr, n⟩ := rfl

/-- The system call, with `growproc`: the old end of memory, or -1. `ok` says whether there are
pages left. -/
def sbrk (ok : Bool) (n : Int) (h : Heap) : Option (Nat × Heap) :=
  if 0 < n then
    if ok ∧ h.brk + n.toNat < 2147483648 then some (h.brk, { h with brk := h.brk + n.toNat })
    else none
  else if n < 0 then
    let newsz := toU32 (h.brk + n)
    let sz := if h.brk ≤ newsz then h.brk else newsz
    if sz = 0 then none else some (h.brk, { h with brk := sz })
  else some (h.brk, h)

end Heap

/-! ## `free` -/

/-- The loop of `free`, for the free block after which `bp` belongs. -/
def findPlace (mem : Nat → Header) (bp : Nat) : Nat → Nat → Option Nat
  | 0, _ => none
  | fuel + 1, p =>
      if p < bp ∧ bp < (mem p).ptr then some p
      else if (mem p).ptr ≤ p ∧ (p < bp ∨ bp < (mem p).ptr) then some p
      else findPlace mem bp fuel (mem p).ptr

/-- The block is joined to the free block after it, or linked to it. -/
def joinNext (h : Heap) (p bp : Nat) : Heap :=
  if bp + 8 * (h.mem bp).size = (h.mem p).ptr then
    let h := h.setSize bp ((h.mem bp).size + (h.mem (h.mem p).ptr).size)
    h.setPtr bp (h.mem (h.mem p).ptr).ptr
  else h.setPtr bp (h.mem p).ptr

/-- The block is joined to the free block before it, or that one is linked to it. -/
def joinPrev (h : Heap) (p bp : Nat) : Heap :=
  if p + 8 * (h.mem p).size = bp then
    let h := h.setSize p ((h.mem p).size + (h.mem bp).size)
    h.setPtr p (h.mem bp).ptr
  else h.setPtr p bp

/-- `free`. -/
def free (fuel : Nat) (h : Heap) (ap : Nat) : Option Heap :=
  let bp := ap - 8
  match findPlace h.mem bp fuel h.freep with
  | none => none
  | some p => some { joinPrev (joinNext h p bp) p bp with freep := p }

/-! ## `malloc` -/

/-- `morecore`; 0 where there is no memory. -/
def morecore (fuel : Nat) (ok : Bool) (h : Heap) (nu : Nat) : Option (Nat × Heap) :=
  let nu := if nu < 4096 then 4096 else nu
  match h.sbrk ok (s32 (nu * 8)) with
  | none => some (0, h)
  | some (hp, h) =>
      match free fuel (h.setSize hp nu) (hp + 8) with
      | none => none
      | some h => some (h.freep, h)

/-- The block `p` after `prevp`, or its end, is taken. -/
def take (h : Heap) (nunits prevp p : Nat) : Nat × Heap :=
  if (h.mem p).size = nunits then
    (p + 8, { h.setPtr prevp (h.mem p).ptr with freep := prevp })
  else
    let h := h.setSize p ((h.mem p).size - nunits)
    let q := p + 8 * (h.mem p).size
    (q + 8, { h.setSize q nunits with freep := prevp })

/-- The loop of `malloc`. -/
def mallocLoop (ok : Bool) (nunits : Nat) : Nat → Heap → Nat → Nat → Option (Nat × Heap)
  | 0, _, _, _ => none
  | fuel + 1, h, prevp, p =>
      if nunits ≤ (h.mem p).size then some (take h nunits prevp p)
      else if p = h.freep then do
        let (p, h) ← morecore fuel ok h nunits
        if p = 0 then some (0, h) else mallocLoop ok nunits fuel h p (h.mem p).ptr
      else mallocLoop ok nunits fuel h p (h.mem p).ptr

/-- The headers for a request of `nbytes`, its own included. -/
def nunits (nbytes : Nat) : Nat := u32 (nbytes + 8 - 1) / 8 + 1

/-- The list before the first `malloc`. -/
def firstMalloc (base : Nat) (h : Heap) : Heap :=
  if h.freep = 0 then
    let h := { h.setPtr base base with freep := base }
    h.setSize base 0
  else h

/-- `malloc`, where the header `base` is at this address. -/
def malloc (base fuel : Nat) (ok : Bool) (h : Heap) (nbytes : Nat) : Option (Nat × Heap) :=
  let h := firstMalloc base h
  mallocLoop ok (nunits nbytes) fuel h h.freep (h.mem h.freep).ptr

end CS537.Xv6.Umalloc
