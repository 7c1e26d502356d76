import CS537.Lib.MachineInt
import CS537.Lib.Lts
import CS537.Xv6.Slots

/-!
# Threads — the process table

`P3B: xv6 Kernel threads/proc.c` and `exec.c`: processes and threads, which
share a page directory with the process that cloned them. A function of the
kernel runs in one step, except that `wait` and `join` may sleep and scan the
table again when they wake.

A page directory is the frame that holds it. Which directories are allocated is
part of the state, and every call of `freevm` is recorded with the processes
that have the directory at that moment. The pages under a directory, files and
the trap frame are left out, except that an allocation may fail: what it yields
is an argument of the event.
-/

namespace CS537.Threads

open MachineInt

/-- `PGSIZE`. -/
abbrev pgsize : Nat := 4096

/-- `KERNBASE`. -/
abbrev kernbase : Nat := 2147483648

/-- The frame of a page directory, standing for a `pde_t *`. -/
abbrev PgDir := Nat

/-- A wait channel: a process (slept on by `wait` and `join`), or any other
kernel address. -/
inductive Chan where
  | proc (s : Slot)
  | other (addr : Nat)
  deriving DecidableEq, Repr

/-- The call a process sleeps in, with the user address `join` was given. -/
inductive Call where
  | wait
  | join (stack : Nat)
  deriving DecidableEq, Repr

/-- The fields of `struct proc` these functions use, and the call whose frame
is on the kernel stack. -/
structure Proc where
  sz : Nat
  pgdir : Option PgDir
  state : ProcState
  pid : Int
  parent : Option Slot
  chan : Option Chan
  killed : Bool
  stack : Nat
  call : Option Call
  deriving DecidableEq, Repr

/-- One call of `freevm`: the directory, the process being reaped or running
`exec` if there is one, the processes not `UNUSED` that have the directory, and
whether it was allocated. -/
structure Freevm where
  dir : PgDir
  subject : Option Slot
  holders : List Slot
  allocated : Bool
  deriving DecidableEq, Repr

structure Kernel where
  proc : Slot → Proc
  initproc : Slot
  nextpid : Int
  allocated : PgDir → Bool
  freed : List Freevm

/-- Overwrite one slot. -/
def Kernel.upd (k : Kernel) (s : Slot) (f : Proc → Proc) : Kernel :=
  { k with proc := fun t => if t = s then f (k.proc s) else k.proc t }

@[simp] theorem Kernel.upd_proc (k : Kernel) (s t : Slot) (f : Proc → Proc) :
    (k.upd s f).proc t = if t = s then f (k.proc s) else k.proc t := rfl

@[simp] theorem Kernel.upd_initproc (k : Kernel) (s : Slot) (f : Proc → Proc) :
    (k.upd s f).initproc = k.initproc := rfl

@[simp] theorem Kernel.upd_allocated (k : Kernel) (s : Slot) (f : Proc → Proc) :
    (k.upd s f).allocated = k.allocated := rfl

@[simp] theorem Kernel.upd_freed (k : Kernel) (s : Slot) (f : Proc → Proc) :
    (k.upd s f).freed = k.freed := rfl

/-- The first process of the table that meets a test. -/
def Kernel.find (k : Kernel) (test : Proc → Bool) : Option Slot :=
  findSlot fun s => test (k.proc s)

/-! ## Page directories -/

/-- `setupkvm`, when it hands out `d`. -/
def setupkvm (d : PgDir) (k : Kernel) : Kernel :=
  { k with allocated := fun e => if e = d then true else k.allocated e }

/-- The processes that have a page directory. -/
def holders (d : PgDir) (k : Kernel) : List Slot :=
  slots.filter fun s => (k.proc s).state ≠ .unused ∧ (k.proc s).pgdir = some d

/-- `freevm`. -/
def freevm (subject : Option Slot) (d : PgDir) (k : Kernel) : Kernel :=
  { k with
    allocated := fun e => if e = d then false else k.allocated e,
    freed := k.freed ++ [⟨d, subject, holders d k, k.allocated d⟩] }

/-- `allocuvm`; `enough` says whether it finds the pages. `none` is its 0. -/
def allocuvm (enough : Bool) (oldsz newsz : Nat) : Option Nat :=
  if newsz ≥ kernbase then none
  else if newsz < oldsz then some oldsz
  else if enough then some newsz else none

/-- `deallocuvm`. -/
def deallocuvm (oldsz newsz : Nat) : Nat :=
  if newsz ≥ oldsz then oldsz else newsz

/-! ## Sleep and wakeup -/

/-- The part of `sleep` before `sched`. -/
def sleep (s : Slot) (chan : Chan) (call : Option Call) (k : Kernel) : Kernel :=
  k.upd s fun p => { p with chan := some chan, state := .sleeping, call := call }

/-- `wakeup1`. No iteration touches another process's slot, so the loop is a
map over the table. -/
def wakeup1 (chan : Option Chan) (k : Kernel) : Kernel :=
  { k with proc := fun s =>
      let p := k.proc s
      if p.state = .sleeping ∧ p.chan = chan then { p with state := .runnable } else p }

/-- `kill`. -/
def kill (pid : Int) (k : Kernel) : Int × Kernel :=
  match k.find fun p => p.pid = pid with
  | none => (-1, k)
  | some s =>
      (0, k.upd s fun p =>
        { p with killed := true,
                 state := if p.state = .sleeping then .runnable else p.state })

/-! ## Creation -/

/-- The part of `allocproc` that takes a slot. -/
def takeSlot (np : Slot) (k : Kernel) : Kernel :=
  { k.upd np fun p => { p with state := .embryo, pid := k.nextpid, stack := 0 } with
    nextpid := i32 (k.nextpid + 1) }

/-- `allocproc`; `kstack` says whether `kalloc` finds a page for the kernel
stack. -/
def allocproc (kstack : Bool) (k : Kernel) : Option Slot × Kernel :=
  match k.find fun p => p.state = .unused with
  | none => (none, k)
  | some np =>
      if kstack then (some np, takeSlot np k)
      else (none, (takeSlot np k).upd np fun p => { p with state := .unused })

/-- How far the allocations of one `fork` get: no kernel stack, `copyuvm` fails
(with the directory it allocated and freed again, if it got that far), or
`copyuvm` returns a directory. -/
inductive ForkMemory where
  | noKstack
  | noPages (d : Option PgDir)
  | copied (d : PgDir)
  deriving DecidableEq, Repr

/-- `copyuvm`. -/
def copyuvm (mem : ForkMemory) (k : Kernel) : Option PgDir × Kernel :=
  match mem with
  | .noPages (some d) => (none, freevm none d (setupkvm d k))
  | .copied d => (some d, setupkvm d k)
  | _ => (none, k)

/-- `fork` by the process in slot `s`. -/
def fork (mem : ForkMemory) (s : Slot) (k : Kernel) : Int × Kernel :=
  match allocproc (mem ≠ .noKstack) k with
  | (none, k') => (-1, k')
  | (some np, k') =>
      match copyuvm mem k' with
      | (none, k'') =>
          (-1, k''.upd np fun p => { p with pgdir := none, state := .unused })
      | (some d, k'') =>
          let k'' := k''.upd np fun p =>
            { p with pgdir := some d, sz := (k.proc s).sz, parent := some s, state := .runnable,
                     call := none }
          ((k''.proc np).pid, k'')

/-- `clone` by the process in slot `s`. -/
def clone (kstack : Bool) (stack : Nat) (s : Slot) (k : Kernel) : Int × Kernel :=
  if stack % pgsize ≠ 0 then (-1, k)
  else if u32 ((k.proc s).sz + (4294967296 - stack)) < pgsize then (-1, k)
  else
    match allocproc kstack k with
    | (none, k') => (-1, k')
    | (some np, k') =>
        let k' := k'.upd np fun p =>
          { p with pgdir := (k.proc s).pgdir, sz := (k.proc s).sz, parent := some s,
                   stack := stack, state := .runnable, call := none }
        ((k'.proc np).pid, k')

/-! ## Exec -/

/-- How one `exec` ends: it fails (with the directory it allocated and freed
again, if it got that far), or it has built an image of size `sz`. -/
inductive ExecResult where
  | bad (d : Option PgDir)
  | image (d : PgDir) (sz : Nat)
  deriving DecidableEq, Repr

/-- `exec` by the process in slot `s`; `none` is `panic("freevm: no pgdir")`. -/
def exec (r : ExecResult) (s : Slot) (k : Kernel) : Option (Int × Kernel) :=
  match r with
  | .bad none => some (-1, k)
  | .bad (some d) => some (-1, freevm (some s) d (setupkvm d k))
  | .image d sz =>
      let k' := (setupkvm d k).upd s fun p => { p with pgdir := some d, sz := sz }
      (k.proc s).pgdir.map fun oldpgdir => (0, freevm (some s) oldpgdir k')

/-- `growproc` by the process in slot `s`, and its loop over the processes that
share its directory. -/
def growproc (enough : Bool) (n : Int) (s : Slot) (k : Kernel) : Int × Kernel :=
  let sz := (k.proc s).sz
  let newsz := toU32 (sz + n)
  let r :=
    if n > 0 then allocuvm enough sz newsz
    else if n < 0 then (if deallocuvm sz newsz = 0 then none else some (deallocuvm sz newsz))
    else some sz
  match r with
  | none => (-1, k)
  | some sz =>
      (0, { k with proc := fun t =>
              let p := k.proc t
              if p.pgdir = (k.proc s).pgdir then { p with sz := sz } else p })

/-! ## Exit, wait and join -/

/-- The loop of `exit` that passes abandoned children to init. -/
def reparent (s : Slot) : List Slot → Kernel → Kernel
  | [], k => k
  | t :: ts, k =>
      if (k.proc t).parent = some s then
        let k' := k.upd t fun p => { p with parent := some k.initproc }
        if (k'.proc t).state = .zombie then
          reparent s ts (wakeup1 (some (.proc k.initproc)) k')
        else reparent s ts k'
      else reparent s ts k

/-- `exit`, from the moment it takes `ptable.lock`; `none` is
`panic("init exiting")`. -/
def exit (s : Slot) (k : Kernel) : Option Kernel :=
  if s = k.initproc then none
  else
    let k' := reparent s slots (wakeup1 ((k.proc s).parent.map .proc) k)
    some (k'.upd s fun p => { p with state := .zombie })

/-- What `wait` and `join` do to the slot of the child they found. -/
def Proc.reap (p : Proc) : Proc :=
  { p with pid := 0, parent := none, killed := false, state := .unused }

/-- One scan of the table by `wait`, and what follows it: a child reaped, `-1`,
or asleep. -/
def wait (s : Slot) (k : Kernel) : Option Kernel :=
  let kid : Proc → Bool := fun p => p.parent = some s ∧ p.pgdir ≠ (k.proc s).pgdir
  match k.find fun p => kid p ∧ p.state = .zombie with
  | some t => (k.proc t).pgdir.map fun d => (freevm (some t) d k).upd t Proc.reap
  | none =>
      if k.find kid = none ∨ (k.proc s).killed then some k
      else some (sleep s (.proc s) (some .wait) k)

/-- The same for `join`, which frees no directory. -/
def join (stack : Nat) (s : Slot) (k : Kernel) : Kernel :=
  let kid : Proc → Bool := fun p =>
    p.parent = some s ∧ p.pid ≠ (k.proc s).pid ∧ p.pgdir = (k.proc s).pgdir
  match k.find fun p => kid p ∧ p.state = .zombie with
  | some t => k.upd t Proc.reap
  | none =>
      if k.find kid = none ∨ (k.proc s).killed then k
      else sleep s (.proc s) (some (.join stack)) k

/-- The children a call of the process in slot `s` looks for. -/
def Call.kid (c : Call) (s : Slot) (caller p : Proc) : Bool :=
  match c with
  | .wait => p.parent = some s ∧ p.pgdir ≠ caller.pgdir
  | .join _ => p.parent = some s ∧ p.pid ≠ caller.pid ∧ p.pgdir = caller.pgdir

/-- The child that one scan of the table finds to reap. -/
def scan (c : Call) (s : Slot) (k : Kernel) : Option Slot :=
  k.find fun p => c.kid s (k.proc s) p ∧ p.state = .zombie

theorem wait_scan (s : Slot) (k : Kernel) : wait s k =
    match scan .wait s k with
    | some t => (k.proc t).pgdir.map fun d => (freevm (some t) d k).upd t Proc.reap
    | none =>
        if k.find (Call.kid .wait s (k.proc s)) = none ∨ (k.proc s).killed then some k
        else some (sleep s (.proc s) (some .wait) k) := rfl

theorem join_scan (stack : Nat) (s : Slot) (k : Kernel) : join stack s k =
    match scan (.join stack) s k with
    | some t => k.upd t Proc.reap
    | none =>
        if k.find (Call.kid (.join stack) s (k.proc s)) = none ∨ (k.proc s).killed then k
        else sleep s (.proc s) (some (.join stack)) k := rfl

/-- The scheduler picks the process in slot `s`: it runs in user space, or goes
on in the call it slept in and scans the table again. -/
def schedule (s : Slot) (k : Kernel) : Option Kernel :=
  let k' := k.upd s fun p => { p with state := .running, chan := none, call := none }
  match (k.proc s).call with
  | none => some k'
  | some .wait => wait s k'
  | some (.join stack) => some (join stack s k')

/-! ## The kernel as a transition system -/

/-- What can happen next, on any processor. A process acts in the slot it is
named by. -/
inductive Event where
  | schedule (s : Slot)
  | yield (s : Slot)
  | sleep (s : Slot) (addr : Nat)
  | wakeup (addr : Nat)
  | kill (pid : Int)
  | fork (s : Slot) (mem : ForkMemory)
  | clone (s : Slot) (stack : Nat) (kstack : Bool)
  | exec (s : Slot) (r : ExecResult)
  | sbrk (s : Slot) (n : Int) (enough : Bool)
  | exit (s : Slot)
  | wait (s : Slot)
  | join (s : Slot) (stack : Nat)
  deriving DecidableEq, Repr

/-- The directory an event's allocation hands out. -/
def Event.fresh : Event → Option PgDir
  | .fork _ (.noPages d) => d
  | .fork _ (.copied d) => some d
  | .exec _ (.bad d) => d
  | .exec _ (.image d _) => some d
  | _ => none

/-- The slot of the process that acts, if it must be running. -/
def Event.actor : Event → Option Slot
  | .yield s | .sleep s _ | .fork s _ | .clone s _ _ | .exec s _ | .sbrk s _ _ | .exit s
  | .wait s | .join s _ => some s
  | _ => none

/-- What an event does when it can happen. -/
def effect (k : Kernel) : Event → Option Kernel
  | .schedule s => if (k.proc s).state = .runnable then schedule s k else none
  | .yield s => some (k.upd s fun p => { p with state := .runnable })
  | .sleep s addr => some (sleep s (.other addr) none k)
  | .wakeup addr => some (wakeup1 (some (.other addr)) k)
  | .kill pid => some (kill pid k).2
  | .fork s mem => some (fork mem s k).2
  | .clone s stack kstack => some (clone kstack stack s k).2
  | .exec s r => (exec r s k).map Prod.snd
  | .sbrk s n enough => some (growproc enough n s k).2
  | .exit s => exit s k
  | .wait s => wait s k
  | .join s stack => some (join stack s k)

/-- The step an event makes, if it can happen now: only a `RUNNING` process
makes calls, and an allocation hands out a directory not in use. -/
def step (k : Kernel) (e : Event) : Option Kernel :=
  if (∀ s ∈ e.actor, (k.proc s).state = .running) ∧ ∀ d ∈ e.fresh, k.allocated d = false then
    effect k e
  else none

/-- `step` as a relation. -/
def Step (k : Kernel) (e : Event) (k' : Kernel) : Prop := step k e = some k'

/-- A slot as the boot loader leaves it. -/
def Proc.zero : Proc where
  sz := 0
  pgdir := none
  state := .unused
  pid := 0
  parent := none
  chan := none
  killed := false
  stack := 0
  call := none

/-- The table once init has started the shell: init in slot 0, the shell in
slot 1, each with a directory of its own. -/
def boot : Kernel where
  proc := fun s =>
    if s = 0 then
      { Proc.zero with state := .runnable, pid := 1, pgdir := some 0, sz := 3 * pgsize }
    else if s = 1 then
      { Proc.zero with state := .runnable, pid := 2, pgdir := some 1, sz := 4 * pgsize,
                       parent := some 0 }
    else Proc.zero
  initproc := 0
  nextpid := 3
  allocated := fun d => d < 2
  freed := []

end CS537.Threads
