import Mathlib.Algebra.Ring.Nat
import Mathlib.Data.List.FinRange

/-!
# The xv6 process table — slots

What the process tables of the xv6 assignments share: their size, the order in
which the kernel scans them, and the states of a process.
-/

namespace CS537

/-- `NPROC`. -/
abbrev nproc : Nat := 64

instance : NeZero nproc := ⟨Nat.succ_ne_zero 63⟩

/-- A slot of `ptable.proc`, standing for a `struct proc *`. -/
abbrev Slot := Fin nproc

/-- The slots in the order a loop over `ptable.proc` visits them. -/
def slots : List Slot := List.finRange nproc

theorem mem_slots (s : Slot) : s ∈ slots := List.mem_finRange s

inductive ProcState where
  | unused | embryo | sleeping | runnable | running | zombie
  deriving DecidableEq, Repr

/-- The first slot of the table that meets a test. -/
def findSlot (test : Slot → Bool) : Option Slot := slots.find? test

theorem findSlot_some {test : Slot → Bool} {s : Slot} (h : findSlot test = some s) :
    test s = true := List.find?_some h

theorem findSlot_none {test : Slot → Bool} (h : findSlot test = none) (s : Slot) :
    test s = false := by
  have := List.find?_eq_none.mp h s (mem_slots s)
  simpa using this

end CS537
