import CS537.Lib.Bytes
import CS537.Lib.Lts
import CS537.Lib.MachineInt
import Mathlib.Logic.Function.Basic

/-!
# The xv6 log

`log.c`, which the xv6 assignments share, over the buffer cache of `bio.c`. A block is its
bytes by offset. The cache holds buffers by block number: `bread` fills it, and a buffer that
is not dirty may be recycled at any time (how `bget` picks one, and that it may find none, is
left out here). A disk write is one step and happens whole or not at all; a crash may come
between any two. Locks are held for a step, and what sleeps in `begin_op` is not enabled.
-/

namespace CS537.Xv6

open Function MachineInt

/-- `LOGSIZE`. -/
def logSize : Nat := 30

/-- `MAXOPBLOCKS`. -/
def maxOpBlocks : Nat := 10

/-- The bytes of a block. -/
abbrev Block := Nat → UInt8

/-- A buffer that is valid, and whether `B_DIRTY` is set. -/
structure Buf where
  data : Block
  dirty : Bool

/-- `struct log`. The block numbers `lh.block[0]` to `lh.block[lh.n - 1]` are the list `lh`. -/
structure Log where
  start : Nat
  size : Nat
  outstanding : Nat
  committing : Bool
  lh : List Nat

/-- Where `commit` or `recover_from_log` is. -/
inductive Stage where
  | readHead
  | writeLog (tail : Nat)
  | writeHead
  | install (tail : Nat)
  | clear
  | finish
  deriving DecidableEq, Repr

/-- Whether the kernel is in `initlog`, or some process is in `commit`. -/
inductive Mode where
  | boot (stage : Stage)
  | up
  | commit (stage : Stage)
  deriving DecidableEq, Repr

/-- The disk, the buffers by block number, and the log. -/
structure LogState where
  disk : Nat → Block
  cache : Nat → Option Buf
  log : Log
  mode : Mode

inductive Panic where
  | tooBigATransaction
  | outsideOfTrans
  | committing
  deriving DecidableEq, Repr

/-! ## The buffer cache -/

/-- `bread`, and the data it returns. -/
def bread (b : Nat) (s : LogState) : Block × LogState :=
  match s.cache b with
  | some buf => (buf.data, s)
  | none => (s.disk b, { s with cache := update s.cache b (some ⟨s.disk b, false⟩) })

/-- `bwrite` of a buffer that holds `data`; `iderw` clears `B_DIRTY`. -/
def bwrite (b : Nat) (data : Block) (s : LogState) : LogState :=
  { s with
    disk := update s.disk b data,
    cache := update s.cache b (some ⟨data, false⟩) }

/-! ## The header -/

/-- `hb->n` and `hb->block[i]`, written over what the block holds. -/
def putHeader (lh : List Nat) (hb : Block) : Block :=
  lh.zipIdx.foldl (fun hb e => Bytes.putWord hb (4 + 4 * e.2) e.1) (Bytes.putWord hb 0 lh.length)

/-- `lh->n` and `lh->block[i]`; `n` is an `int`. -/
def header (hb : Block) : List Nat :=
  (List.range (s32 (Bytes.getWord hb 0)).toNat).map fun i => Bytes.getWord hb (4 + 4 * i)

/-- `read_head`. -/
def readHead (s : LogState) : LogState :=
  let (hb, s) := bread s.log.start s
  { s with log.lh := header hb }

/-- `write_head`. -/
def writeHead (s : LogState) : LogState :=
  let (hb, s) := bread s.log.start s
  bwrite s.log.start (putHeader s.log.lh hb) s

/-! ## Committing -/

/-- One round of `write_log`. -/
def writeLogRound (tail b : Nat) (s : LogState) : LogState :=
  let (_, s) := bread (s.log.start + tail + 1) s
  let (src, s) := bread b s
  bwrite (s.log.start + tail + 1) src s

/-- One round of `install_trans`. -/
def installRound (tail b : Nat) (s : LogState) : LogState :=
  let (src, s) := bread (s.log.start + tail + 1) s
  let (_, s) := bread b s
  bwrite b src s

/-- `commit` and `recover_from_log`, from one disk write to the next. -/
def proceed (s : LogState) : Stage → LogState × Stage
  | .readHead => (readHead s, .install 0)
  | .writeLog tail =>
      match s.log.lh[tail]? with
      | some b => (writeLogRound tail b s, .writeLog (tail + 1))
      | none => (s, .writeHead)
  | .writeHead => (writeHead s, .install 0)
  | .install tail =>
      match s.log.lh[tail]? with
      | some b => (installRound tail b s, .install (tail + 1))
      | none => ({ s with log.lh := [] }, .clear)
  | .clear => (writeHead s, .finish)
  | .finish => (s, .finish)

/-! ## The calls -/

/-- `begin_op`, when it does not sleep. -/
def beginOp (s : LogState) : Option LogState :=
  if s.log.committing then none
  else if s.log.lh.length + (s.log.outstanding + 1) * maxOpBlocks > logSize then none
  else some { s with log.outstanding := s.log.outstanding + 1 }

/-- `end_op`, up to its call of `commit`. -/
def endOp (s : LogState) : Except Panic LogState :=
  let s := { s with log.outstanding := s.log.outstanding - 1 }
  if s.log.committing then .error .committing
  else if s.log.outstanding = 0 then
    .ok { s with
      log.committing := true,
      mode := .commit (if s.log.lh.length > 0 then .writeLog 0 else .finish) }
  else .ok s

/-- `log_write` of a buffer whose data the caller has changed to `data`. -/
def logWrite (b : Nat) (data : Block) (s : LogState) : Except Panic LogState :=
  if s.log.lh.length ≥ logSize ∨ s.log.lh.length ≥ s.log.size - 1 then .error .tooBigATransaction
  else if s.log.outstanding < 1 then .error .outsideOfTrans
  else
    .ok { s with
      log.lh := if b ∈ s.log.lh then s.log.lh else s.log.lh ++ [b],
      cache := update s.cache b (some ⟨data, true⟩) }

/-- The memory of the kernel is lost; `initlog` begins again, with the same superblock. -/
def crash (s : LogState) : LogState where
  disk := s.disk
  cache := fun _ => none
  log := { start := s.log.start, size := s.log.size, outstanding := 0, committing := false, lh := [] }
  mode := .boot .readHead

inductive LogAction where
  | beginOp
  | write (b : Nat) (data : Block)
  | endOp
  | read (b : Nat)
  | recycle (b : Nat)
  | proceed (stage : Stage)
  | crash

/-- One step of the system; `none` if it is not enabled. -/
def logStep (s : LogState) : LogAction → Option LogState
  | .beginOp =>
      match s.mode with
      | .boot _ => none
      | _ => beginOp s
  | .write b data => (logWrite b data s).toOption
  | .endOp => if s.log.outstanding = 0 then none else (endOp s).toOption
  | .read b =>
      match s.mode with
      | .boot _ => none
      | _ => some (bread b s).2
  | .recycle b =>
      match s.cache b with
      | some buf => if buf.dirty then none else some { s with cache := update s.cache b none }
      | none => none
  | .proceed stage =>
      if s.mode = .commit stage then
        if stage = .finish then some { s with log.committing := false, mode := .up }
        else some { (proceed s stage).1 with mode := .commit (proceed s stage).2 }
      else if s.mode = .boot stage then
        if stage = .finish then some { s with mode := .up }
        else some { (proceed s stage).1 with mode := .boot (proceed s stage).2 }
      else none
  | .crash => some (crash s)

end CS537.Xv6
