import CS537.Threads.SharedSize

/-!
# Threads — the history of the process table

`fork` and `clone` release `ptable.lock` between `allocproc` and the moment the
child becomes `RUNNABLE`, so here they take two steps. The other calls are the
steps of the process table. Next to the kernel the state keeps a history: a serial
number for each process, how it was created, which processes were reaped, and what
`join` stored.
-/

namespace CS537.Threads

open MachineInt

/-! ## The kernel with its history -/

/-- The call a process is in the middle of creating a child in. -/
inductive Creation where
  | fork
  | clone (stack : Nat)
  deriving DecidableEq, Repr

/-- The stack pointer a creation was given, if it is a `clone`. -/
def Creation.stack : Creation → Option Nat
  | .fork => none
  | .clone stack => some stack

/-- One child reaped by `join`: the stack pointer it was cloned with, if it was
cloned, and what was stored at the user address. -/
structure Joined where
  origin : Option Nat
  addr : Nat
  value : Nat
  deriving DecidableEq, Repr

/-- The kernel, the children that are being created, and the history. `count` is
the number of processes there have been. -/
structure History where
  kernel : Kernel
  making : Slot → Option (Slot × Creation)
  count : Nat
  serial : Slot → Nat
  origin : Slot → Option Nat
  reaped : List Nat
  joined : List Joined

/-- What the scheduler does before the process goes on. -/
def pick (s : Slot) (k : Kernel) : Kernel :=
  k.upd s fun p => { p with state := .running, chan := none, call := none }

/-- The child an event reaps, and the call that reaps it. -/
def reapedBy (k : Kernel) : Event → Option (Call × Slot)
  | .wait s => (scan .wait s k).map fun t => (.wait, t)
  | .join s stack => (scan (.join stack) s k).map fun t => (.join stack, t)
  | .schedule s =>
      match (k.proc s).call with
      | none => none
      | some c => (scan c s (pick s k)).map fun t => (c, t)
  | _ => none

/-- `fork` and `clone` up to the `release` in `allocproc`, with the checks `clone`
makes before. -/
def startChild (s : Slot) (c : Creation) (k : Kernel) : Option (Slot × Kernel) :=
  let refused := match c with
    | .fork => false
    | .clone stack =>
        stack % pgsize ≠ 0 || u32 ((k.proc s).sz + (4294967296 - stack)) < pgsize
  if refused then none
  else (k.find fun p => p.state = .unused).map fun np => (np, takeSlot np k)

/-- The rest of `fork` and `clone`. A `clone` only fails for want of a kernel
stack. -/
def finishChild (s np : Slot) (mem : ForkMemory) (c : Creation) (k : Kernel) : Kernel :=
  match c with
  | .fork =>
      match mem with
      | .noKstack => k.upd np fun p => { p with state := .unused }
      | _ =>
          match copyuvm mem k with
          | (none, k') => k'.upd np fun p => { p with pgdir := none, state := .unused }
          | (some d, k') => k'.upd np fun p =>
              { p with pgdir := some d, sz := (k.proc s).sz, parent := some s, state := .runnable,
                       call := none }
  | .clone stack =>
      match mem with
      | .noKstack => k.upd np fun p => { p with state := .unused }
      | _ => k.upd np fun p =>
          { p with pgdir := (k.proc s).pgdir, sz := (k.proc s).sz, parent := some s,
                   stack := stack, state := .runnable, call := none }

/-- A step between two release points. -/
inductive Action where
  | start (s : Slot) (c : Creation)
  | finish (s : Slot) (mem : ForkMemory)
  | call (e : Event)
  deriving DecidableEq, Repr

/-- The directory an allocation of the second half hands out. -/
def ForkMemory.fresh : ForkMemory → Option PgDir
  | .noKstack => none
  | .noPages d => d
  | .copied d => some d

/-- The events that are whole calls: not `fork` and `clone`, and a process in the
middle of these can only be preempted. -/
def History.allows (y : History) : Event → Bool
  | .fork _ _ | .clone _ _ _ => false
  | .yield _ => true
  | e => e.actor.all fun s => (y.making s).isNone

/-- One step, with what it adds to the history. -/
def History.step (y : History) : Action → Option History
  | .start s c =>
      if (y.kernel.proc s).state = .running ∧ y.making s = none then
        match startChild s c y.kernel with
        | none => some y
        | some (np, k') =>
            some { y with
              kernel := k'
              making := fun t => if t = s then some (np, c) else y.making t
              count := y.count + 1
              serial := fun t => if t = np then y.count else y.serial t }
      else none
  | .finish s mem =>
      match y.making s with
      | none => none
      | some (np, c) =>
          if (y.kernel.proc s).state = .running ∧ ∀ d ∈ mem.fresh, y.kernel.allocated d = false then
            some { y with
              kernel := finishChild s np mem c y.kernel
              making := fun t => if t = s then none else y.making t
              origin := fun t => if t = np then c.stack else y.origin t }
          else none
  | .call e =>
      if y.allows e then
        (Threads.step y.kernel e).map fun k' =>
          match reapedBy y.kernel e with
          | none => { y with kernel := k' }
          | some (c, t) =>
              { y with
                kernel := k'
                reaped := y.reaped ++ [y.serial t]
                joined := match c with
                  | .wait => y.joined
                  | .join addr => y.joined ++ [⟨y.origin t, addr, (y.kernel.proc t).stack⟩] }
      else none

/-- `History.step` as a relation. -/
def History.Step (y : History) (a : Action) (y' : History) : Prop := y.step a = some y'

/-- After boot: init has number 0 and the shell number 1. -/
def History.boot : History where
  kernel := Threads.boot
  making _ := none
  count := 2
  serial s := s.val
  origin _ := none
  reaped := []
  joined := []

end CS537.Threads
