import CS537.Lib.PrivateMemory
import CS537.Pager.ExecImage
import CS537.Pager.ForkCopy
import CS537.Xv6.Slots
import Mathlib.Algebra.BigOperators.Fin

/-!
# Pager — all processes

The process table over one physical memory, and what the processes do in any order: loads
and stores of user code, page faults, and the calls that map, encrypt, copy and free pages.
A process that has exited keeps its memory until `wait` frees it.
-/

namespace CS537.Pager

open MachineInt
open scoped BigOperators

/-- A process of the table: what `Machine` has of it, and the frame of `kstack`. -/
structure Process where
  pgdir : PgDir
  sz : Nat
  clockQueue : Nat → Node
  clockIndex : Int
  nameTail : Nat
  kstack : Nat

/-- The process as the current one. -/
def Process.machine (p : Process) (ph : Phys) : Machine where
  phys := ph
  pgdir := p.pgdir
  sz := p.sz
  clockQueue := p.clockQueue
  clockIndex := p.clockIndex
  nameTail := p.nameTail

/-- What is kept of the current process. -/
def Machine.process (m : Machine) (kstack : Nat) : Process where
  pgdir := m.pgdir
  sz := m.sz
  clockQueue := m.clockQueue
  clockIndex := m.clockIndex
  nameTail := m.nameTail
  kstack := kstack

/-- Physical memory and `ptable.proc`; `none` is an `UNUSED` slot. -/
structure Kernel where
  phys : Phys
  proc : Slot → Option Process

namespace Kernel

/-- The slot `allocproc` finds. -/
def unused (k : Kernel) : Option Slot := findSlot fun s => (k.proc s).isNone

/-- The process of a slot has run. -/
def put (k : Kernel) (s : Slot) (m : Machine) (kstack : Nat) : Kernel where
  phys := m.phys
  proc := Function.update k.proc s (some (m.process kstack))

end Kernel

/-- `inituvm`. The result of `mappages` is not looked at. -/
def inituvm (init : List UInt8) (d : PgDir) (ph : Phys) : Except Fault (PgDir × Phys) :=
  if init.length ≥ pgsize then .error .panic
  else
    match kalloc ph with
    -- `memset` writes to address 0, where nothing is mapped
    | none => .error .panic
    | some (mem, ph) => do
        let (_, d, ph) ← mappages 0 pgsize (mem * 4096) Flags.user d (memset mem 0 ph)
        return (d, ph.write mem 0 init)

/-- The process `userinit` makes. -/
def initProcess (d : PgDir) (kstack : Nat) : Process where
  pgdir := d
  sz := pgsize
  clockQueue := fun _ => ⟨noVpn, none⟩
  clockIndex := -1
  nameTail := 0
  kstack := kstack

/-- User code can touch the address without a page fault. -/
structure PgDir.Touchable (d : PgDir) (va : Nat) : Prop where
  address : va < 4294967296
  table : d.hasTable (ppn va)
  present : (d.pte (ppn va)).p
  user : (d.pte (ppn va)).u

/-- The hardware sets `PTE_A`. -/
def Machine.touch (m : Machine) (va : Nat) : Machine :=
  m.setPte (ppn va) { m.pgdir.pte (ppn va) with a := true }

/-- A byte is stored at an address that is mapped. -/
def Machine.poke (m : Machine) (va : Nat) (b : UInt8) : Machine :=
  { m with phys := m.phys.write (m.pgdir.pte (ppn va)).frame (va % 4096) [b] }

inductive KernelEvent where
  /-- `userinit`, with the bytes of `initcode`. -/
  | userinit (init : List UInt8)
  | load (s : Slot) (va : Nat) (b : UInt8)
  | store (s : Slot) (va : Nat) (b : UInt8)
  | fault (s : Slot) (va : Nat)
  | mencrypt (s : Slot) (va : Nat) (len : Int)
  | sbrk (s : Slot) (n : Int)
  /-- `fork`, and the slot of the child if there is one. -/
  | fork (s : Slot) (child : Option Slot)
  /-- `exec` that returns 0: the program, its arguments, and the size it comes to. -/
  | exec (s : Slot) (ip : List UInt8) (argv : List (List UInt8)) (sz : Nat)
  /-- `exec` that returns -1. -/
  | noexec (s : Slot)
  /-- `wait` finds the `ZOMBIE` in the slot. -/
  | wait (s : Slot)

/-- One event. A run does not go on after a fault of the kernel, nor does a process after
an access that gets it killed. At boot there is memory to map `initcode`. -/
inductive KernelStep : Kernel → KernelEvent → Kernel → Prop
  | userinit {k : Kernel} {init : List UInt8} {kstack : Nat} {rest : List Nat} {d d' : PgDir}
      {ph ph' : Phys} :
      (∀ s, k.proc s = none) → k.phys.freelist = kstack :: rest →
      setupkvm { k.phys with freelist := rest } = .ok (some d, ph) →
      inituvm init d ph = .ok (d', ph') → (d'.pageFrame 0).isSome →
      KernelStep k (.userinit init)
        ⟨ph', Function.update k.proc 0 (some (initProcess d' kstack))⟩
  | load {k : Kernel} {s : Slot} {p : Process} {va : Nat} :
      k.proc s = some p → p.pgdir.Touchable va →
      KernelStep k (.load s va (k.phys.mem (p.pgdir.pte (ppn va)).frame (va % 4096)))
        (k.put s ((p.machine k.phys).touch va) p.kstack)
  | store {k : Kernel} {s : Slot} {p : Process} {va : Nat} {b : UInt8} :
      k.proc s = some p → p.pgdir.Touchable va → (p.pgdir.pte (ppn va)).w →
      KernelStep k (.store s va b) (k.put s (((p.machine k.phys).touch va).poke va b) p.kstack)
  | fault {k : Kernel} {s : Slot} {p : Process} {va slots depth : Nat} {m : Machine} :
      k.proc s = some p → va < 4294967296 → p.pgdir.hasTable (ppn va) →
      (p.pgdir.pte (ppn va)).p = false →
      mdecrypt slots depth va (p.machine k.phys) = .ok (0, m) →
      KernelStep k (.fault s va) (k.put s m p.kstack)
  | mencrypt {k : Kernel} {s : Slot} {p : Process} {va : Nat} {len r : Int} {m : Machine} :
      k.proc s = some p → va < 4294967296 → IsInt len →
      sysMencrypt va len (p.machine k.phys) = .ok (r, m) →
      KernelStep k (.mencrypt s va len) (k.put s m p.kstack)
  | sbrk {k : Kernel} {s : Slot} {p : Process} {n r : Int} {m : Machine} :
      k.proc s = some p → IsInt n → growproc n (p.machine k.phys) = .ok (r, m) →
      KernelStep k (.sbrk s n) (k.put s m p.kstack)
  | nofork {k : Kernel} {s : Slot} {p : Process} {pid r : Int} {name : Nat} {m : Machine} :
      k.proc s = some p →
      Pager.fork (k.unused.map fun _ => pid) name (p.machine k.phys) = .ok (r, none, m) →
      KernelStep k (.fork s none) (k.put s m p.kstack)
  | fork {k : Kernel} {s child : Slot} {p : Process} {pid r : Int} {name kstack : Nat}
      {rest : List Nat} {m c : Machine} :
      k.proc s = some p → k.unused = some child → k.phys.freelist = kstack :: rest →
      Pager.fork (some pid) name (p.machine k.phys) = .ok (r, some c, m) →
      KernelStep k (.fork s (some child))
        ⟨m.phys, Function.update (k.put s m p.kstack).proc child (some (c.process kstack))⟩
  | exec {k : Kernel} {s : Slot} {p : Process} {ip : List UInt8} {argv : List (List UInt8)}
      {name : Nat} {m : Machine} :
      k.proc s = some p → Pager.exec (some ip) argv name (p.machine k.phys) = .ok (0, m) →
      KernelStep k (.exec s ip argv m.sz) (k.put s m p.kstack)
  | noexec {k : Kernel} {s : Slot} {p : Process} {file : Option (List UInt8)}
      {argv : List (List UInt8)} {name : Nat} {m : Machine} :
      k.proc s = some p → Pager.exec file argv name (p.machine k.phys) = .ok (-1, m) →
      KernelStep k (.noexec s) (k.put s m p.kstack)
  | wait {k : Kernel} {s : Slot} {p : Process} {ph ph' : Phys} :
      k.proc s = some p → kfree p.kstack k.phys = .ok ph → freevm p.pgdir ph = .ok ph' →
      KernelStep k (.wait s) ⟨ph', Function.update k.proc s none⟩

/-! ## Frames -/

/-- The physical pages of a process. -/
def Process.frames (p : Process) : Multiset Nat := p.kstack ::ₘ p.pgdir.frames

/-- The physical pages of a slot. -/
def frames (p : Option Process) : Multiset Nat := (p.map Process.frames).getD 0

/-- All the physical pages. -/
def Kernel.frames (k : Kernel) : Multiset Nat :=
  (k.phys.freelist : Multiset Nat) + ∑ s, Pager.frames (k.proc s)

/-- A page that is present is not encrypted. -/
def Pte.Plain (pte : Pte) : Prop := pte.p → pte.e = false

/-- What a process may touch: no page of the kernel, and a page that is present as it is. -/
def PgDir.Guarded (d : PgDir) : Prop :=
  ∀ page, (d.pte page).u → page < kernPage ∧ (d.pte page).Plain

/-- A process is no larger than `allocuvm` makes one, and has no page behind its size. -/
structure Process.Sound (p : Process) : Prop where
  size : p.sz ≤ kernbase
  covers : p.pgdir.Covers p.sz
  guarded : p.pgdir.Guarded

/-- Each physical page is in one place. -/
structure Kernel.Sound (k : Kernel) : Prop where
  nodup : k.frames.Nodup
  procs : ∀ s p, k.proc s = some p → p.Sound

/-- The physical pages of the other slots. -/
def Kernel.others (k : Kernel) (s : Slot) : Multiset Nat :=
  ∑ j ∈ Finset.univ.erase s, Pager.frames (k.proc j)

variable {k : Kernel} {s : Slot}

theorem Kernel.frames_eq (k : Kernel) (s : Slot) :
    k.frames = (k.phys.freelist : Multiset Nat) + Pager.frames (k.proc s) + k.others s := by
  rw [frames, others, add_assoc,
    Finset.add_sum_erase _ (fun j => Pager.frames (k.proc j)) (Finset.mem_univ s)]

theorem Kernel.others_update (k : Kernel) (s : Slot) (ph : Phys) (p : Option Process) :
    others ⟨ph, Function.update k.proc s p⟩ s = k.others s := by
  apply Finset.sum_congr rfl
  intro j hj
  dsimp only
  rw [Function.update_of_ne (Finset.ne_of_mem_erase hj)]

theorem Kernel.mem_others {j : Slot} {f : Nat} (hne : j ≠ s) (hf : f ∈ Pager.frames (k.proc j)) :
    f ∈ k.others s :=
  Multiset.mem_sum.mpr ⟨j, Finset.mem_erase.mpr ⟨hne, Finset.mem_univ j⟩, hf⟩

/-! ## What a process sees -/

/-- The pages below the kernel, and the bytes in them. -/
def view (d : PgDir) (ph : Phys) (page : Nat) : Option (PrivateMemory.Page (Fin 4096) UInt8) :=
  if page < kernPage ∧ (d.pageFrame page).isSome then
    some ⟨(d.pte page).u, fun i => content d ph page i⟩
  else none

/-- The memory of a process. -/
def Process.space (p : Process) (ph : Phys) : PrivateMemory.Space (Fin 4096) UInt8 :=
  ⟨p.sz, view p.pgdir ph⟩

/-- The memories of all processes. -/
def Kernel.spaces (k : Kernel) : Slot → Option (PrivateMemory.Space (Fin 4096) UInt8) :=
  fun s => (k.proc s).map fun p => p.space k.phys

theorem view_congr {d d' : PgDir} {ph ph' : Phys} {page : Nat}
    (hmap : page < kernPage → (d'.pageFrame page).isSome = (d.pageFrame page).isSome)
    (hpage : d.UserMapped page → d'.UserMapped page →
      (d'.pte page).u = (d.pte page).u ∧ content d' ph' page = content d ph page) :
    view d' ph' page = view d ph page := by
  rw [view, view]
  by_cases hlt : page < kernPage
  · rw [hmap hlt]
    split
    · rename_i hsome
      have hm := PgDir.userMapped_of_pageFrame hlt hsome.2
      have hm' := PgDir.userMapped_of_pageFrame hlt ((hmap hlt).symm ▸ hsome.2)
      obtain ⟨hu, hc⟩ := hpage hm hm'
      rw [hu, hc]
    · rfl
  · rw [if_neg fun h => hlt h.1, if_neg fun h => hlt h.1]

theorem view_none {d : PgDir} {ph : Phys} {page : Nat}
    (h : page < kernPage → d.pageFrame page = none) : view d ph page = none := by
  rw [view, if_neg]
  intro hpage
  rw [h hpage.1] at hpage
  cases hpage.2

theorem view_some {d : PgDir} {ph : Phys} {page : Nat} (hlt : page < kernPage)
    (hm : (d.pageFrame page).isSome) :
    view d ph page = some ⟨(d.pte page).u, fun i => content d ph page i⟩ :=
  if_pos ⟨hlt, hm⟩

/-- The frames of a process alone decide what it sees. -/
theorem Process.space_congr {p : Process} {ph ph' : Phys}
    (h : ∀ f ∈ p.frames, ph'.mem f = ph.mem f) : p.space ph' = p.space ph := by
  rw [space, space]
  congr 1
  funext page
  rw [view, view]
  split
  · rename_i hpage
    have hmem : (p.pgdir.pte page).frame ∈ p.frames :=
      Multiset.mem_cons_of_mem (PgDir.mem_frames hpage.1 hpage.2)
    simp only [content, h _ hmem]
  · rfl

/-- One slot changes: what it takes it takes from the free pages and from what it had, and
it writes to these only. The other processes see what they saw. -/
theorem Kernel.Sound.put (h : k.Sound) {p : Option Process} {ph : Phys}
    (hp : ∀ q, p = some q → q.Sound)
    (hframes : (ph.freelist : Multiset Nat) + Pager.frames p ≤
      k.phys.freelist + Pager.frames (k.proc s))
    (houtside : ∀ f, f ∉ (k.phys.freelist : Multiset Nat) + Pager.frames (k.proc s) →
      ph.mem f = k.phys.mem f) :
    Kernel.Sound ⟨ph, Function.update k.proc s p⟩ ∧
      Kernel.spaces ⟨ph, Function.update k.proc s p⟩ =
        Function.update k.spaces s (p.map fun q => q.space ph) := by
  have hnodup := h.nodup
  rw [k.frames_eq s] at hnodup
  refine ⟨⟨?_, ?_⟩, ?_⟩
  · rw [Kernel.frames_eq _ s, Kernel.others_update]
    dsimp only
    rw [Function.update_self]
    exact Multiset.nodup_of_le (add_le_add_left hframes _) hnodup
  · intro j q hq
    dsimp only at hq
    rw [Function.update_apply] at hq
    split at hq
    · exact hp q hq
    · exact h.procs j q hq
  · funext j
    rw [Function.update_apply, Kernel.spaces]
    dsimp only
    rw [Function.update_apply]
    split
    · rfl
    · rename_i hne
      rw [Kernel.spaces]
      cases hj : k.proc j with
      | none => rfl
      | some q =>
          rw [Option.map_some, Option.map_some]
          refine congrArg some (Process.space_congr fun f hf => houtside f ?_)
          have hother : f ∈ k.others s := Kernel.mem_others hne (by rw [hj]; exact hf)
          exact fun hin => Multiset.disjoint_left.mp (Multiset.nodup_add.mp hnodup).2.2 hin hother

end CS537.Pager
