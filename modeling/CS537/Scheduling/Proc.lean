import CS537.Lib.MachineInt
import CS537.Lib.Lts
import CS537.Xv6.Slots

/-!
# Scheduling — the process table

`P2A: Scheduling/proc.c`, `sysproc.c` and `trap.c`: the process table with its
lottery tickets and sleep counters, and one definition for each kernel
function that reads or writes them. Every `int` field is an `Int` kept in
range by `i32`; a table loop is a recursion over the slots in table order.

A function of the kernel runs here from the moment it takes `ptable.lock` to
the moment it releases it. Memory, files and the trap frame are left out: no
function below reads them, except through the success or failure of an
allocation, which is an argument (`Memory`).
-/

namespace CS537.Scheduling

open MachineInt

/-- A wait channel: the tick counter's address, a process (slept on by
`wait`), or any other kernel address. -/
inductive Chan where
  | ticks
  | proc (s : Slot)
  | other (addr : Nat)
  deriving DecidableEq, Repr

/-- The fields of `struct proc` the scheduler and the sleep code use. -/
structure Proc where
  state : ProcState
  pid : Int
  parent : Option Slot
  chan : Option Chan
  killed : Bool
  ticket : Int
  sleepTicks : Int
  sleepTicksCount : Int
  runTicks : Int
  boostsleft : Int
  deriving DecidableEq, Repr

structure Kernel where
  proc : Slot → Proc
  initproc : Slot
  nextpid : Int
  rseed : Nat
  ticks : Nat

/-- Overwrite one slot. -/
def Kernel.upd (k : Kernel) (s : Slot) (f : Proc → Proc) : Kernel :=
  { k with proc := fun t => if t = s then f (k.proc s) else k.proc t }

@[simp] theorem Kernel.upd_proc (k : Kernel) (s t : Slot) (f : Proc → Proc) :
    (k.upd s f).proc t = if t = s then f (k.proc s) else k.proc t := rfl

@[simp] theorem Kernel.upd_initproc (k : Kernel) (s : Slot) (f : Proc → Proc) :
    (k.upd s f).initproc = k.initproc := rfl

/-- The first process of the table that meets a test. -/
def Kernel.find (k : Kernel) (test : Proc → Bool) : Option Slot :=
  findSlot fun s => test (k.proc s)

theorem Kernel.find_some {k : Kernel} {test : Proc → Bool} {s : Slot}
    (h : k.find test = some s) : test (k.proc s) = true := findSlot_some h

/-! ## The lottery -/

/-- The linear congruential generator of `rand`; masking with `RAND_MAX` is
the remainder by `2^31`. -/
def nextSeed (rseed : Nat) : Nat := u32 (12345 + 1103515245 * rseed) % 2147483648

/-- `rand`. -/
def rand (k : Kernel) : Nat × Kernel :=
  (nextSeed k.rseed, { k with rseed := nextSeed k.rseed })

@[simp] theorem rand_proc (k : Kernel) : (rand k).2.proc = k.proc := rfl

/-- The loop of `scheduler` that sums the tickets in play. -/
def totalTickets (k : Kernel) : Int :=
  slots.foldl (fun total s =>
    if (k.proc s).state = .runnable then
      if (k.proc s).boostsleft > 0 then i32 (total + i32 (2 * (k.proc s).ticket))
      else i32 (total + (k.proc s).ticket)
    else total) 0

/-- The loop of `hold_lottery` over the slots still to visit: `count` so far,
and the winner once `ifFound` is set. The test compares an `int` with a
`uint`, so `count` is converted. -/
def lotteryLoop (winnerTicket : Nat) :
    List Slot → Int → Option Slot → Kernel → Option Slot × Kernel
  | [], _, winner, k => (winner, k)
  | s :: ss, count, winner, k =>
      if (k.proc s).state = .runnable then
        let boosted := (k.proc s).boostsleft > 0
        let count' :=
          if boosted then i32 (count + i32 (2 * (k.proc s).ticket))
          else i32 (count + (k.proc s).ticket)
        let k' :=
          if boosted then k.upd s fun p => { p with boostsleft := i32 (p.boostsleft - 1) }
          else k
        let winner' :=
          if winner = none ∧ toU32 count' > winnerTicket then some s else winner
        lotteryLoop winnerTicket ss count' winner' k'
      else lotteryLoop winnerTicket ss count winner k

/-- `hold_lottery`; `none` is the null pointer. -/
def holdLottery (total : Int) (k : Kernel) : Option Slot × Kernel :=
  if total ≤ 0 then (none, k)
  else
    let (r, k') := rand k
    lotteryLoop (r % toU32 total) slots 0 none k'

/-- How one pass of the loop of `scheduler` ends: with nothing to run, in
`panic("switchuvm: no process")`, or by switching to a process. -/
inductive Pass where
  | idle
  | panic
  | run (s : Slot)
  deriving DecidableEq, Repr

/-- One pass of the loop of `scheduler`, up to `swtch`. -/
def schedulerPass (k : Kernel) : Pass × Kernel :=
  let total := totalTickets k
  if total = 0 then (.idle, k)
  else
    match holdLottery total k with
    | (none, k') => (.panic, k')
    | (some s, k') =>
        (.run s, k'.upd s fun p =>
          { p with state := .running, runTicks := i32 (p.runTicks + 1) })

/-! ## Sleep and wakeup -/

/-- The part of `sleep` before `sched`. -/
def sleep (s : Slot) (chan : Chan) (k : Kernel) : Kernel :=
  k.upd s fun p => { p with chan := some chan, state := .sleeping }

/-- The part of `sleep` after `sched` returns. -/
def resume (s : Slot) (k : Kernel) : Kernel :=
  k.upd s fun p => { p with chan := none }

/-- `sys_sleep`, up to `sched`. -/
def sysSleep (s : Slot) (n : Int) (k : Kernel) : Kernel :=
  sleep s .ticks (k.upd s fun p => { p with sleepTicks := n })

/-- The body of the loop of `wakeup1` at one process. -/
def wake (chan : Option Chan) (p : Proc) : Proc :=
  if p.state = .sleeping then
    let p := { p with boostsleft := i32 (p.boostsleft + 1),
                      sleepTicksCount := i32 (p.sleepTicksCount + 1) }
    if p.chan = chan ∧ p.sleepTicksCount ≥ p.sleepTicks then
      { p with state := .runnable, sleepTicksCount := 0, sleepTicks := 0 }
    else p
  else p

/-- `wakeup1`. No iteration touches another process's slot, so the loop is a
map over the table. -/
def wakeup1 (chan : Option Chan) (k : Kernel) : Kernel :=
  { k with proc := fun s => wake chan (k.proc s) }

@[simp] theorem wakeup1_proc (chan : Option Chan) (k : Kernel) (s : Slot) :
    (wakeup1 chan k).proc s = wake chan (k.proc s) := rfl

@[simp] theorem wakeup1_initproc (chan : Option Chan) (k : Kernel) :
    (wakeup1 chan k).initproc = k.initproc := rfl

/-- The timer interrupt: `ticks++; wakeup(&ticks)`. -/
def tick (k : Kernel) : Kernel :=
  wakeup1 (some .ticks) { k with ticks := u32 (k.ticks + 1) }

/-- `kill`. -/
def kill (pid : Int) (k : Kernel) : Int × Kernel :=
  match k.find fun p => p.pid = pid with
  | none => (-1, k)
  | some s =>
      (0, k.upd s fun p =>
        { p with killed := true,
                 state := if p.state = .sleeping then .runnable else p.state })

/-! ## Process creation and exit -/

/-- How far the allocations of one `fork` get. -/
inductive Memory where
  | noKstack
  | noPages
  | enough
  deriving DecidableEq, Repr

/-- `allocproc`; `kstack` says whether `kalloc` finds a page for the kernel
stack. -/
def allocproc (kstack : Bool) (k : Kernel) : Option Slot × Kernel :=
  match k.find fun p => p.state = .unused with
  | none => (none, k)
  | some s =>
      let k' := { k.upd s fun p => { p with state := .embryo, pid := k.nextpid } with
                  nextpid := i32 (k.nextpid + 1) }
      if kstack then
        (some s, k'.upd s fun p =>
          { p with ticket := 1, boostsleft := 0, runTicks := 0,
                   sleepTicks := 0, sleepTicksCount := 0 })
      else (none, k'.upd s fun p => { p with state := .unused })

/-- `fork` by the process in slot `s`. -/
def fork (mem : Memory) (s : Slot) (k : Kernel) : Int × Kernel :=
  match allocproc (mem ≠ .noKstack) k with
  | (none, k') => (-1, k')
  | (some np, k') =>
      if mem = .noPages then (-1, k'.upd np fun p => { p with state := .unused })
      else
        let k'' := k'.upd np fun p =>
          { p with parent := some s, ticket := (k'.proc s).ticket, state := .runnable }
        ((k''.proc np).pid, k'')

/-- The loop of `exit` that passes abandoned children to init. -/
def reparent (s : Slot) : List Slot → Kernel → Kernel
  | [], k => k
  | t :: ts, k =>
      if (k.proc t).parent = some s then
        let k' := k.upd t fun p => { p with parent := some k.initproc }
        if (k'.proc t).state = .zombie then
          reparent s ts (wakeup1 (some (.proc k.initproc)) k')
        else reparent s ts k'
      else reparent s ts k

/-- `exit`, from the moment it takes `ptable.lock`; `none` is
`panic("init exiting")`. -/
def exit (s : Slot) (k : Kernel) : Option Kernel :=
  if s = k.initproc then none
  else
    let k' := wakeup1 ((k.proc s).parent.map .proc) k
    let k'' := reparent s slots k'
    some (k''.upd s fun p => { p with state := .zombie })

/-- One scan of the table by `wait`, and what follows it: a child reaped, `-1`,
or (`none`) asleep on its own slot. -/
def wait (s : Slot) (k : Kernel) : Option Int × Kernel :=
  match k.find fun p => p.parent = some s ∧ p.state = .zombie with
  | some t =>
      (some (k.proc t).pid, k.upd t fun p =>
        { p with pid := 0, parent := none, killed := false, state := .unused })
  | none =>
      if (k.find fun p => p.parent = some s) = none ∨ (k.proc s).killed then (some (-1), k)
      else (none, sleep s (.proc s) k)

/-- `settickets`. -/
def settickets (pid n : Int) (k : Kernel) : Int × Kernel :=
  match k.find fun p => p.pid = pid with
  | none => (-1, k)
  | some s => (0, k.upd s fun p => { p with ticket := n })

/-- `sys_settickets`. -/
def sysSettickets (pid n : Int) (k : Kernel) : Int × Kernel :=
  if pid < 0 ∨ n ≤ 0 then (-1, k) else settickets pid n k

/-! ## The kernel as a transition system -/

/-- What can happen next, on any processor. A process acts in the slot it is
named by. `wakeup` is every call of it but the timer's. -/
inductive Event where
  | schedule
  | yield (s : Slot)
  | sleep (s : Slot) (chan : Chan)
  | sysSleep (s : Slot) (n : Int)
  | tick
  | wakeup (chan : Chan)
  | kill (pid : Int)
  | fault (s : Slot)
  | fork (s : Slot) (mem : Memory)
  | exit (s : Slot)
  | wait (s : Slot)
  | settickets (pid n : Int)
  deriving DecidableEq, Repr

/-- The step an event makes, if it can happen now. A process that is not
`RUNNING` does nothing, only `trap` wakes `&ticks`, and a panic ends the run. -/
def step (k : Kernel) : Event → Option Kernel
  | .schedule =>
      match schedulerPass k with
      | (.idle, k') => some k'
      | (.panic, _) => none
      | (.run s, k') => some (resume s k')
  | .yield s =>
      if (k.proc s).state = .running then
        some (k.upd s fun p => { p with state := .runnable })
      else none
  | .sleep s chan =>
      if (k.proc s).state = .running then some (sleep s chan k) else none
  | .sysSleep s n =>
      if (k.proc s).state = .running then some (sysSleep s n k) else none
  | .tick => some (tick k)
  | .wakeup chan => if chan = .ticks then none else some (wakeup1 (some chan) k)
  | .kill pid => some (kill pid k).2
  | .fault s =>
      if (k.proc s).state = .running then
        some (k.upd s fun p => { p with killed := true })
      else none
  | .fork s mem =>
      if (k.proc s).state = .running then some (fork mem s k).2 else none
  | .exit s => if (k.proc s).state = .running then exit s k else none
  | .wait s => if (k.proc s).state = .running then some (wait s k).2 else none
  | .settickets pid n => some (sysSettickets pid n k).2

/-- `step` as a relation. -/
def Step (k : Kernel) (e : Event) (k' : Kernel) : Prop := step k e = some k'

/-- A slot as the boot loader leaves it. -/
def Proc.zero : Proc where
  state := .unused
  pid := 0
  parent := none
  chan := none
  killed := false
  ticket := 0
  sleepTicks := 0
  sleepTicksCount := 0
  runTicks := 0
  boostsleft := 0

/-- The table after `userinit`: the first process is `RUNNABLE` with pid 1. -/
def boot : Kernel where
  proc := fun s =>
    if s = 0 then { Proc.zero with state := .runnable, pid := 1, ticket := 1 } else Proc.zero
  initproc := 0
  nextpid := 2
  rseed := 0
  ticks := 0

end CS537.Scheduling
