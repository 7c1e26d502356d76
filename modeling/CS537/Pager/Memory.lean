import CS537.Lib.MachineInt
import Mathlib.Logic.Function.Basic

/-!
# Pager — memory and processes

`P4: xv6 Memory Encryption`: physical memory, page directories, and the part of
`struct proc` the pager uses. What runs is one process at a time, so a `Machine`
is the memory of the machine with the process that is current.

Addresses are `Nat`, below `2 ^ 32` where the code has an address. A frame is
the number of a page of physical memory, a page the number of a page of virtual
memory. The contents of page directories and page tables are kept in `PgDir`;
a page directory and each of its tables still has a frame of its own.
-/

namespace CS537.Pager

open MachineInt

/-- `PGSIZE`. -/
abbrev pgsize : Nat := 4096

/-- `NPDENTRIES`. -/
abbrev npdentries : Nat := 1024

/-- `KERNBASE`. -/
abbrev kernbase : Nat := 2147483648

/-- `EXTMEM`. -/
abbrev extmem : Nat := 1048576

/-- `KERNLINK`. -/
abbrev kernlink : Nat := 2148532224

/-- `PHYSTOP`. -/
abbrev phystop : Nat := 234881024

/-- `DEVSPACE`. -/
abbrev devspace : Nat := 4261412864

/-- `CLOCKSIZE`. -/
abbrev clocksize : Nat := 128

/-- `-1` as a `uint`: the `vpn` of an empty slot. -/
abbrev noVpn : Nat := 4294967295

/-- `PGROUNDUP`. -/
def pgRoundUp (sz : Nat) : Nat := u32 (sz + 4095) / 4096 * 4096

/-- `PGROUNDDOWN`. -/
def pgRoundDown (a : Nat) : Nat := a / 4096 * 4096

/-- `V2P`. -/
def v2p (a : Nat) : Nat := u32 (a + 2147483648)

/-- The page of an address. -/
def ppn (va : Nat) : Nat := va / 4096

/-- `PDX`, of a page. -/
def pdx (page : Nat) : Nat := page / 1024

/-- How the kernel stops, or what it reads that C does not define. -/
inductive Fault where
  /-- `panic`. -/
  | panic
  /-- A null `pte_t *` is read. -/
  | nullDeref
  /-- A `pte_t *` into another directory, or into no page table, is read. -/
  | wildPte
  /-- An element before or after an array is written, or read after it. -/
  | badIndex
  /-- The loop or the recursion is not over yet. -/
  | outOfFuel
  deriving DecidableEq, Repr

/-- A call that stops with a fault passes it on. -/
theorem bind_eq_ok {α β : Type} {x : Except Fault α} {f : α → Except Fault β} {b : β} :
    x >>= f = .ok b ↔ ∃ a, x = .ok a ∧ f a = .ok b := by
  cases x with
  | error e => simp [bind, Except.bind]
  | ok a => simp [bind, Except.bind]

@[simp] theorem ok_bind {α β : Type} (a : α) (f : α → Except Fault β) :
    (Except.ok a >>= f) = f a := rfl

@[simp] theorem error_bind {α β : Type} (e : Fault) (f : α → Except Fault β) :
    (Except.error e >>= f) = Except.error e := rfl

@[simp] theorem pure_eq_ok {α : Type} (a : α) : (pure a : Except Fault α) = .ok a := rfl

/-! ## Page tables -/

/-- `PTE_P`, `PTE_W`, `PTE_U`, `PTE_A` and `PTE_E`. -/
structure Flags where
  p : Bool
  w : Bool
  u : Bool
  a : Bool
  e : Bool
  deriving DecidableEq, Repr

/-- A page-table entry: `PTE_FLAGS`, and the frame of `PTE_ADDR`. -/
structure Pte extends Flags where
  frame : Nat
  deriving DecidableEq, Repr

/-- `*pte & (PTE_P | PTE_E)`. -/
def Pte.mapped (pte : Pte) : Bool := pte.p || pte.e

/-- No flag. -/
def Flags.none : Flags := ⟨false, false, false, false, false⟩

/-- The entry `0`. -/
def Pte.zero : Pte := { Flags.none with frame := 0 }

/-- A page directory: its frame, the frame of the page table of each of its
entries that is present, and the entries of these tables, by page. -/
structure PgDir where
  frame : Nat
  table : Nat → Option Nat
  pte : Nat → Pte

/-- A `pte_t *`: the entry of a page in the tables of a directory. -/
structure PtePtr where
  dir : Nat
  page : Nat
  deriving DecidableEq, Repr

/-- Whether the page table of a page is present. -/
def PgDir.hasTable (d : PgDir) (page : Nat) : Bool := (d.table (pdx page)).isSome

/-- `*pte = v`, for the entry of a page. -/
def PgDir.set (d : PgDir) (page : Nat) (v : Pte) : PgDir :=
  { d with pte := Function.update d.pte page v }

@[simp] theorem PgDir.set_frame (d : PgDir) (page : Nat) (v : Pte) :
    (d.set page v).frame = d.frame := rfl

@[simp] theorem PgDir.set_table (d : PgDir) (page : Nat) (v : Pte) :
    (d.set page v).table = d.table := rfl

@[simp] theorem PgDir.set_hasTable (d : PgDir) (page : Nat) (v : Pte) (q : Nat) :
    (d.set page v).hasTable q = d.hasTable q := rfl

theorem PgDir.set_pte (d : PgDir) (page : Nat) (v : Pte) (q : Nat) :
    (d.set page v).pte q = if q = page then v else d.pte q := by
  simp [PgDir.set, Function.update_apply]

/-! ## Physical memory -/

/-- The bytes of each frame, `kmem.freelist`, the first frame after the kernel
(`end`) and the first one of the kernel's data (`data`). The kernel lies between
`EXTMEM` and `PHYSTOP` and has some text. -/
structure Phys where
  mem : Nat → Nat → UInt8
  freelist : List Nat
  firstFree : Nat
  data : Nat
  data_mem : 256 < data ∧ data < 57344

/-- A memory of zeros with a free list. -/
def Phys.zeroed (freelist : List Nat) : Phys := ⟨fun _ _ => 0, freelist, 1024, 512, by decide⟩

/-- `kalloc`. -/
def kalloc (ph : Phys) : Option (Nat × Phys) :=
  match ph.freelist with
  | [] => none
  | f :: rest => some (f, { ph with freelist := rest })

/-- `memset` of a page. -/
def memset (frame : Nat) (c : UInt8) (ph : Phys) : Phys :=
  { ph with mem := Function.update ph.mem frame fun _ => c }

/-- `kfree`. The link through the first word of a free page is left out. -/
def kfree (frame : Nat) (ph : Phys) : Except Fault Phys :=
  if frame < ph.firstFree ∨ phystop / 4096 ≤ frame then .error .panic
  else
    let ph := memset frame 1 ph
    .ok { ph with freelist := frame :: ph.freelist }

/-- `^= 0xFF` on each byte of a page. -/
def Phys.flip (frame : Nat) (ph : Phys) : Phys :=
  { ph with mem := Function.update ph.mem frame fun i => ph.mem frame i ^^^ 255 }

@[simp] theorem Phys.flip_freelist (frame : Nat) (ph : Phys) :
    (ph.flip frame).freelist = ph.freelist := rfl

theorem Phys.flip_mem (frame : Nat) (ph : Phys) (f : Nat) :
    (ph.flip frame).mem f
      = if f = frame then fun i => ph.mem frame i ^^^ 255 else ph.mem f := by
  simp [Phys.flip, Function.update_apply]

/-! ## The current process -/

/-- `struct node`. -/
structure Node where
  vpn : Nat
  pte : Option PtePtr
  deriving DecidableEq, Repr

/-- Physical memory, and the fields of the current process: `clockQueue`,
`clockIndex`, and the word of `name` that lies where `clockQueue[-1].vpn` would
be. -/
structure Machine where
  phys : Phys
  pgdir : PgDir
  sz : Nat
  clockQueue : Nat → Node
  clockIndex : Int
  nameTail : Nat

/-- `*pte = v`, for the current process's entry of a page. -/
def Machine.setPte (m : Machine) (page : Nat) (v : Pte) : Machine :=
  { m with pgdir := m.pgdir.set page v }

/-- `^= 0xFF` on each byte of a page. -/
def Machine.flip (m : Machine) (frame : Nat) : Machine :=
  { m with phys := m.phys.flip frame }

def Machine.setSlot (m : Machine) (i : Nat) (v : Node) : Machine :=
  { m with clockQueue := Function.update m.clockQueue i v }

def Machine.setIndex (m : Machine) (i : Int) : Machine :=
  { m with clockIndex := i }

section FieldLemmas

variable (m : Machine) (page frame i : Nat) (v : Pte) (n : Node) (c : Int)

@[simp] theorem Machine.setPte_pgdir : (m.setPte page v).pgdir = m.pgdir.set page v := rfl
@[simp] theorem Machine.setPte_phys : (m.setPte page v).phys = m.phys := rfl
@[simp] theorem Machine.setPte_sz : (m.setPte page v).sz = m.sz := rfl
@[simp] theorem Machine.setPte_clockQueue :
    (m.setPte page v).clockQueue = m.clockQueue := rfl
@[simp] theorem Machine.setPte_clockIndex :
    (m.setPte page v).clockIndex = m.clockIndex := rfl

@[simp] theorem Machine.flip_pgdir : (m.flip frame).pgdir = m.pgdir := rfl
@[simp] theorem Machine.flip_phys : (m.flip frame).phys = m.phys.flip frame := rfl
@[simp] theorem Machine.flip_sz : (m.flip frame).sz = m.sz := rfl
@[simp] theorem Machine.flip_clockQueue : (m.flip frame).clockQueue = m.clockQueue := rfl
@[simp] theorem Machine.flip_clockIndex : (m.flip frame).clockIndex = m.clockIndex := rfl

@[simp] theorem Machine.setSlot_pgdir : (m.setSlot i n).pgdir = m.pgdir := rfl
@[simp] theorem Machine.setSlot_phys : (m.setSlot i n).phys = m.phys := rfl
@[simp] theorem Machine.setSlot_sz : (m.setSlot i n).sz = m.sz := rfl
@[simp] theorem Machine.setSlot_clockQueue :
    (m.setSlot i n).clockQueue = Function.update m.clockQueue i n := rfl
@[simp] theorem Machine.setSlot_clockIndex :
    (m.setSlot i n).clockIndex = m.clockIndex := rfl

@[simp] theorem Machine.setIndex_pgdir : (m.setIndex c).pgdir = m.pgdir := rfl
@[simp] theorem Machine.setIndex_phys : (m.setIndex c).phys = m.phys := rfl
@[simp] theorem Machine.setIndex_sz : (m.setIndex c).sz = m.sz := rfl
@[simp] theorem Machine.setIndex_clockQueue :
    (m.setIndex c).clockQueue = m.clockQueue := rfl
@[simp] theorem Machine.setIndex_clockIndex : (m.setIndex c).clockIndex = c := rfl

end FieldLemmas

/-- A process with an empty queue whose only page, page 1, is in the clear and has
been accessed. -/
def onePage : Machine where
  phys := .zeroed []
  pgdir := ⟨1024, fun i => if i = 0 then some 1025 else none,
    fun page => if page = 1 then ⟨⟨true, true, true, true, false⟩, 1026⟩ else Pte.zero⟩
  sz := 8192
  clockQueue := fun _ => ⟨noVpn, none⟩
  clockIndex := -1
  nameTail := 0

end CS537.Pager
