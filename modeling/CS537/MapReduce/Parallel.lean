import CS537.Lib.CString
import CS537.Lib.Grouping
import CS537.Lib.Lts
import Mathlib.Data.List.Range
import Mathlib.Logic.Function.Basic

/-!
# MapReduce — the threaded `MR_Run`

`P3A: MapReduce/mapreduce.c`: mapper threads that pick files and emit pairs
under a lock, a barrier, and one reducer thread for each partition with a
cursor shared between `reducerHelper` and `getValue`. A thread's step runs from
one lock operation, or one call, to the next, so any order of the threads'
steps is an interleaving. Allocation succeeds; this bounds the counts far below
`INT_MAX`, and they are `Nat` here.
-/

namespace CS537.MapReduce

open Grouping Function

/-- `struct Node`, and `struct kv` of the sequential version. -/
abbrev Node := KV CString CString

/-- A `Reducer`, as `MR_Run` sees it: whether it calls `get_next` again, given
its key and what its calls have returned so far. -/
abbrev Reducer := CString → List (Option CString) → Bool

/-- A reducer that calls `get_next` until it returns `NULL`. -/
def Drains (reduce : Reducer) : Prop :=
  ∀ key results, reduce key results = true ↔ none ∉ results

/-- The arguments of one `MR_Run`. A mapper is the pairs it emits for a file. -/
structure Job where
  files : List CString
  map : CString → List Node
  numMappers : Nat
  reduce : Reducer
  numReducers : Nat
  partition : CString → Nat → Nat

/-- Where a thread in `mapperHelper` is: about to take `fileLock`, inside the
mapper with pairs left to emit, or returned. -/
inductive MapThread where
  | pick
  | mapping (rest : List Node)
  | exited
  deriving DecidableEq

/-- Where a thread in `reducerHelper` is: about to sort, at the head of its
loop, inside the reducer, or returned. -/
inductive RedThread where
  | sort
  | loop
  | reducing (key : CString) (results : List (Option CString))
  | exited
  deriving DecidableEq

/-- One finished call of the reducer: its arguments and the values it got. -/
structure Invocation where
  partition : Nat
  key : CString
  values : List CString
  deriving DecidableEq

inductive Phase where
  | idle
  | mapping (threads : List MapThread)
  | reducing (threads : List RedThread)
  deriving DecidableEq

/-- The globals of `mapreduce.c`, the threads, and the calls of the reducer
since `MR_Run` began. `partitions` is memory: slots past the count of a
partition hold anything. -/
structure State where
  job : Job
  filesDone : Nat
  partitions : Nat → Nat → Node
  nodesInPartitions : Nat → Nat
  numOfAccessInPartitions : Nat → Nat
  phase : Phase
  log : List Invocation

/-- The nodes stored in a partition. -/
def State.nodes (s : State) (p : Nat) : List Node :=
  (List.range (s.nodesInPartitions p)).map (s.partitions p)

/-- The calls of the reducer in one partition, in order. -/
def State.logOf (s : State) (p : Nat) : List (CString × List CString) :=
  (s.log.filter fun i => i.partition = p).map fun i => (i.key, i.values)

/-! ## The mappers -/

/-- `MR_Emit`. -/
def mrEmit (node : Node) (s : State) : State :=
  let p := s.job.partition node.key s.job.numReducers
  let curCount := s.nodesInPartitions p + 1
  { s with
    nodesInPartitions := update s.nodesInPartitions p curCount,
    partitions := update s.partitions p (update (s.partitions p) (curCount - 1) node) }

/-- `mapperHelper`, from one lock operation to the next. -/
def mapperHelper (s : State) : MapThread → Option (MapThread × State)
  | .pick =>
      if s.filesDone ≥ s.job.files.length then some (.exited, s)
      else
        match s.job.files[s.filesDone]? with
        | some fileName =>
            some (.mapping (s.job.map fileName), { s with filesDone := s.filesDone + 1 })
        | none => none
  | .mapping [] => some (.pick, s)
  | .mapping (node :: rest) => some (.mapping rest, mrEmit node s)
  | .exited => none

/-! ## The reducers -/

/-- `getValue`. -/
def getValue (key : CString) (p : Nat) (s : State) : Option CString × State :=
  let num := s.numOfAccessInPartitions p
  if num < s.nodesInPartitions p ∧ key.strcmp (s.partitions p num).key = 0 then
    (some (s.partitions p num).value,
      { s with numOfAccessInPartitions := update s.numOfAccessInPartitions p (num + 1) })
  else (none, s)

/-- `reducerHelper` after its `qsort`, from one call to the next. -/
def reducerHelper (p : Nat) (s : State) : RedThread → Option (RedThread × State)
  | .sort => none
  | .loop =>
      if s.numOfAccessInPartitions p < s.nodesInPartitions p then
        some (.reducing (s.partitions p (s.numOfAccessInPartitions p)).key [], s)
      else some (.exited, s)
  | .reducing key results =>
      if s.job.reduce key results then
        some (.reducing key (results ++ [(getValue key p s).1]), (getValue key p s).2)
      else
        some (.loop, { s with log := s.log ++ [⟨p, key, results.filterMap id⟩] })
  | .exited => none

/-- What `qsort(partitions[p], nodesInPartitions[p], …, cmp)` may leave in
`partitions[p]`: a sorted permutation of the nodes. -/
def Qsort (s : State) (p : Nat) (sorted : Nat → Node) : Prop :=
  ((List.range (s.nodesInPartitions p)).map sorted).Perm (s.nodes p) ∧
    ((List.range (s.nodesInPartitions p)).map sorted).Pairwise
      fun a b => a.key.strcmp b.key ≤ 0

/-! ## `MR_Run` -/

/-- What `malloc` leaves in the arrays `MR_Run` allocates. -/
structure Junk where
  partitions : Nat → Nat → Node
  nodesInPartitions : Nat → Nat
  numOfAccessInPartitions : Nat → Nat

/-- `MR_Run` up to the creation of the mapper threads, from whatever an earlier
call left in the globals. -/
def mrRun (s : State) (job : Job) (junk : Junk) : State :=
  { s with
    job := job,
    filesDone := 0,
    partitions := junk.partitions,
    nodesInPartitions := fun i => if i < job.numReducers then 0 else junk.nodesInPartitions i,
    numOfAccessInPartitions := junk.numOfAccessInPartitions,
    phase := .mapping
      (List.replicate (if job.files.length < job.numMappers then job.files.length
        else job.numMappers) .pick),
    log := [] }

/-- Which thread moves: a mapper, the main thread past a `pthread_join` loop,
or a reducer. -/
inductive Action where
  | mapper (i : Nat)
  | joinMappers
  | reducer (p : Nat)
  | joinReducers
  deriving DecidableEq, Repr

/-- One step of a running `MR_Run`. -/
inductive Step : State → Action → State → Prop
  | mapper {s s' : State} {ts : List MapThread} {i : Nat} {t t' : MapThread} :
      s.phase = .mapping ts → ts[i]? = some t → mapperHelper s t = some (t', s') →
      Step s (.mapper i) { s' with phase := .mapping (ts.set i t') }
  | joinMappers {s : State} {ts : List MapThread} :
      s.phase = .mapping ts → (∀ t ∈ ts, t = .exited) →
      Step s .joinMappers
        { s with phase := .reducing (List.replicate s.job.numReducers .sort) }
  | sort {s : State} {ts : List RedThread} {p : Nat} {sorted : Nat → Node} :
      s.phase = .reducing ts → ts[p]? = some .sort → Qsort s p sorted →
      Step s (.reducer p)
        { s with
          partitions := update s.partitions p sorted,
          numOfAccessInPartitions := update s.numOfAccessInPartitions p 0,
          phase := .reducing (ts.set p .loop) }
  | reducer {s s' : State} {ts : List RedThread} {p : Nat} {t t' : RedThread} :
      s.phase = .reducing ts → ts[p]? = some t → reducerHelper p s t = some (t', s') →
      Step s (.reducer p) { s' with phase := .reducing (ts.set p t') }
  | joinReducers {s : State} {ts : List RedThread} :
      s.phase = .reducing ts → (∀ t ∈ ts, t = .exited) →
      Step s .joinReducers { s with phase := .idle }

end CS537.MapReduce
