import CS537.Threads.Proc
import Mathlib.Algebra.Order.BigOperators.Group.List
import Mathlib.Algebra.Order.Ring.Int
import Mathlib.Data.List.GetD
import Mathlib.Data.Fintype.Card

/-!
# Threads — the pi program

`P3B: xv6 Kernel threads/pi.c`: eight producers push samples on a small stack, eight
consumers pop them and add them up. A section under the lock is one step, and so is
each read of `trail_i` or `running_flag` without the lock. Next to the shared variables
the state records which samples were pushed and popped.
-/

namespace CS537.Threads

open MachineInt

/-- `BUFFSIZE`. -/
abbrev buffsize : Int := 5

/-- `NUM_THREADS`. -/
abbrev numThreads : Nat := 8

/-- Where a producer is: waiting for the start, at the test of its loop with the trails
it has left, waiting for room with a sample, about to count itself, gone. -/
inductive Producer where
  | starting
  | test (trails : Int)
  | push (trails res : Int)
  | leaving
  | exited
  deriving DecidableEq, Repr

/-- Where a consumer is: waiting for the start, at the two reads of its loop test, in the
loop, gone. -/
inductive Consumer where
  | starting
  | readTrail
  | readFlag
  | pop
  | exited
  deriving DecidableEq, Repr

/-- The shared variables and the threads. Samples are numbered as they are pushed:
`pushed` are their values, `tags` the numbers of those in the buffer, `popped` the numbers
of those popped. -/
structure PiState where
  trailsBuf : Int → Int
  success : Int
  trailI : Int
  runningFlag : Bool
  count : Int
  mainDone : Bool
  producers : Fin numThreads → Producer
  consumers : Fin numThreads → Consumer
  tags : Int → Nat
  pushed : List Int
  popped : List Nat

/-- `res`, from two values of `rand`, in `unsigned` and then in `int`. -/
def sample (rx ry : Nat) : Int :=
  let x := s32 (4294967196 + rx % 100 * 2)
  let y := s32 (4294967196 + ry % 100 * 2)
  if x * x + y * y ≤ 10000 then 1 else 0

def PiState.setProducer (s : PiState) (i : Fin numThreads) (p : Producer) : PiState :=
  { s with producers := fun j => if j = i then p else s.producers j }

def PiState.setConsumer (s : PiState) (i : Fin numThreads) (c : Consumer) : PiState :=
  { s with consumers := fun j => if j = i then c else s.consumers j }

/-- The section of `produce` that pushes a sample, when there is room. -/
def PiState.pushSample (s : PiState) (res : Int) : PiState :=
  { s with
    trailsBuf := fun j => if j = s.trailI then res else s.trailsBuf j
    trailI := s.trailI + 1
    tags := fun j => if j = s.trailI then s.pushed.length else s.tags j
    pushed := s.pushed ++ [res] }

/-- The section of `consume` that pops a sample, when there is one. -/
def PiState.popSample (s : PiState) : PiState :=
  { s with
    trailI := s.trailI - 1
    success := i32 (s.success + s.trailsBuf (s.trailI - 1))
    popped := s.popped ++ [s.tags (s.trailI - 1)] }

/-- One step of `produce` by producer `i`; `res` is the sample it draws, if it draws
one. In the loop `trails` is not 0, so the `break` is never taken. -/
def produce (trails₀ : Int) (res : Int) (i : Fin numThreads) (s : PiState) : Option PiState :=
  match s.producers i with
  | .starting => some (if s.runningFlag then s.setProducer i (.test trails₀) else s)
  | .test trails =>
      some (if trails > 0 ∧ s.runningFlag then s.setProducer i (.push (trails - 1) res)
        else s.setProducer i .leaving)
  | .push trails res =>
      some (if s.trailI < buffsize then (s.pushSample res).setProducer i (.test trails) else s)
  | .leaving =>
      let s := { s with count := s.count + 1 }
      some ((if s.count = numThreads then { s with runningFlag := false } else s).setProducer i
        .exited)
  | .exited => none

/-- One step of `consume` by consumer `i`. -/
def consume (i : Fin numThreads) (s : PiState) : Option PiState :=
  match s.consumers i with
  | .starting => some (if s.runningFlag then s.setConsumer i .readTrail else s)
  | .readTrail => some (s.setConsumer i (if s.trailI > 0 then .pop else .readFlag))
  | .readFlag => some (s.setConsumer i (if s.runningFlag then .pop else .exited))
  | .pop => some ((if s.trailI > 0 then s.popSample else s).setConsumer i .readTrail)
  | .exited => none

/-- Who moves: main sets the flag, a producer (with the values `rand` gives it), or a
consumer. -/
inductive PiMove where
  | main
  | producer (i : Fin numThreads) (rx ry : Nat)
  | consumer (i : Fin numThreads)
  deriving DecidableEq, Repr

/-- `main` sets `running_flag` once all threads are created. -/
def PiState.move (trails : Int) (s : PiState) : PiMove → Option PiState
  | .main => if s.mainDone then none else some { s with runningFlag := true, mainDone := true }
  | .producer i rx ry => produce trails (sample rx ry) i s
  | .consumer i => consume i s

def PiState.Step (trails : Int) (s : PiState) (m : PiMove) (s' : PiState) : Prop :=
  s.move trails m = some s'

/-- All threads are created, and wait. -/
def PiState.start : PiState where
  trailsBuf _ := 0
  success := 0
  trailI := 0
  runningFlag := false
  count := 0
  mainDone := false
  producers _ := .starting
  consumers _ := .starting
  tags _ := 0
  pushed := []
  popped := []

def PiState.AllExited (s : PiState) : Prop :=
  (∀ i, s.producers i = .exited) ∧ ∀ i, s.consumers i = .exited

instance (s : PiState) : Decidable s.AllExited := inferInstanceAs (Decidable (_ ∧ _))

/-- The last consumer does not leave its loop over a sample that was pushed after it read
`trail_i`, and `success` does not overflow. -/
def PiState.Careful (s : PiState) : PiMove → Prop
  | .consumer i =>
      (s.consumers i = .readFlag → s.runningFlag = false → (∀ j, j ≠ i → s.consumers j = .exited) →
        s.trailI = 0) ∧
      (s.consumers i = .pop → s.trailI > 0 → s.success + s.trailsBuf (s.trailI - 1) < 2147483648)
  | _ => True

instance (s : PiState) (m : PiMove) : Decidable (s.Careful m) := by
  cases m with
  | consumer i => exact inferInstanceAs (Decidable (_ ∧ _))
  | main => exact inferInstanceAs (Decidable True)
  | producer i rx ry => exact inferInstanceAs (Decidable True)

/-! ## Samples -/

theorem sample_nonneg (rx ry : Nat) : 0 ≤ sample rx ry := by
  unfold sample
  dsimp only
  split
  · decide
  · decide

/-- Every sample pushed is in the buffer or was popped, once. -/
structure PiState.Stocked (s : PiState) : Prop where
  low : 0 ≤ s.trailI
  high : s.trailI ≤ buffsize
  once : (s.popped ++ (List.range s.trailI.toNat).map fun j : Nat => s.tags j).Perm
    (List.range s.pushed.length)
  value : ∀ j : Nat, (j : Int) < s.trailI → s.pushed[s.tags j]? = some (s.trailsBuf j)
  nonneg : ∀ r ∈ s.pushed, 0 ≤ r

theorem PiState.Stocked.pushSample {s : PiState} (h : s.Stocked) {res : Int} (hres : 0 ≤ res)
    (hroom : s.trailI < buffsize) : (s.pushSample res).Stocked := by
  have hlow := h.low
  have hn : (s.trailI + 1).toNat = s.trailI.toNat + 1 := by omega
  constructor
  · simp only [PiState.pushSample]
    omega
  · simp only [PiState.pushSample]
    omega
  · have hmap : (List.range s.trailI.toNat).map (fun j : Nat => (s.pushSample res).tags j) =
        (List.range s.trailI.toNat).map fun j : Nat => s.tags j := by
      apply List.map_congr_left
      intro j hj
      have hne : (j : Int) ≠ s.trailI := by
        have := List.mem_range.mp hj
        omega
      exact if_neg hne
    have htop : (s.pushSample res).tags (s.trailI.toNat : Int) = s.pushed.length := by
      rw [Int.toNat_of_nonneg hlow]
      exact if_pos rfl
    have hlen : (s.pushSample res).pushed.length = s.pushed.length + 1 := by
      simp [PiState.pushSample]
    have htrail : (s.pushSample res).trailI.toNat = s.trailI.toNat + 1 := hn
    rw [htrail, hlen, List.range_succ, List.range_succ, List.map_append, hmap, List.map_singleton,
      htop, ← List.append_assoc]
    exact h.once.append_right _
  · intro j hj
    simp only [PiState.pushSample] at hj ⊢
    by_cases hjt : (j : Int) = s.trailI
    · rw [if_pos hjt, if_pos hjt]
      simp
    · rw [if_neg hjt, if_neg hjt]
      have hold := h.value j (by omega)
      have hlt : s.tags j < s.pushed.length := by
        by_contra hge
        rw [List.getElem?_eq_none (by omega)] at hold
        cases hold
      rw [List.getElem?_append_left hlt]
      exact hold
  · intro r hr
    rcases List.mem_append.mp hr with hr | hr
    · exact h.nonneg r hr
    · rw [List.mem_singleton.mp hr]
      exact hres

theorem PiState.Stocked.popSample {s : PiState} (h : s.Stocked) (hpos : s.trailI > 0) :
    s.popSample.Stocked := by
  have hhigh := h.high
  have hn : s.trailI.toNat = (s.trailI - 1).toNat + 1 := by omega
  constructor
  · simp only [PiState.popSample]
    omega
  · simp only [PiState.popSample]
    omega
  · have hcast : (((s.trailI - 1).toNat : Nat) : Int) = s.trailI - 1 :=
      Int.toNat_of_nonneg (by omega)
    have hsplit : (List.range s.trailI.toNat).map (fun j : Nat => s.tags j) =
        (List.range (s.trailI - 1).toNat).map (fun j : Nat => s.tags j) ++
          [s.tags (s.trailI - 1)] := by
      rw [hn, List.range_succ, List.map_append, List.map_singleton, hcast]
    have honce := h.once
    rw [hsplit] at honce
    refine List.Perm.trans ?_ honce
    simp only [PiState.popSample, List.append_assoc]
    exact List.Perm.append_left _ List.perm_append_comm
  · intro j hj
    simp only [PiState.popSample] at hj ⊢
    exact h.value j (by omega)
  · exact h.nonneg

/-! ## Threads -/

/-- Nobody moves before main sets the flag; the flag is cleared when all producers are
gone; a consumer only leaves after that. -/
structure PiState.Staffed (s : PiState) : Prop where
  idle : s.mainDone = false → s.runningFlag = false ∧ (∀ i, s.producers i = .starting) ∧
    ∀ i, s.consumers i = .starting
  count : s.count = (Finset.univ.filter fun i => s.producers i = .exited).card
  down : s.mainDone = true → s.runningFlag = false → ∀ i, s.producers i = .exited
  gone : ∀ i, s.consumers i = .exited → s.mainDone = true ∧ s.runningFlag = false

theorem PiState.Staffed.mainDone {s : PiState} (h : s.Staffed)
    (hmoved : s.runningFlag = true ∨ (∃ i, s.producers i ≠ .starting) ∨
      ∃ i, s.consumers i ≠ .starting) : s.mainDone = true := by
  cases hmain : s.mainDone with
  | true => rfl
  | false =>
      obtain ⟨hflag, hprod, hcons⟩ := h.idle hmain
      rcases hmoved with hrun | ⟨i, hi⟩ | ⟨i, hi⟩
      · rw [hflag] at hrun
        cases hrun
      · exact absurd (hprod i) hi
      · exact absurd (hcons i) hi

/-- A producer goes on. -/
theorem PiState.Staffed.setProducer {s : PiState} (h : s.Staffed) {i : Fin numThreads}
    {p : Producer} (hmain : s.mainDone = true) (hold : s.producers i ≠ .exited)
    (hp : p ≠ .exited) : (s.setProducer i p).Staffed := by
  constructor
  · intro hno
    rw [show s.mainDone = false from hno] at hmain
    cases hmain
  · have hsame : (Finset.univ.filter fun j => (s.setProducer i p).producers j = .exited) =
        Finset.univ.filter fun j => s.producers j = .exited := by
      apply Finset.filter_congr
      intro j _
      simp only [PiState.setProducer]
      by_cases hj : j = i
      · rw [if_pos hj, hj]
        exact iff_of_false hp hold
      · rw [if_neg hj]
    rw [hsame]
    exact h.count
  · intro _ hflag
    exact absurd (h.down hmain hflag i) hold
  · exact h.gone

/-- A consumer goes on, or leaves when the flag is down. -/
theorem PiState.Staffed.setConsumer {s : PiState} (h : s.Staffed) {i : Fin numThreads}
    {c : Consumer} (hmain : s.mainDone = true) (hc : c = .exited → s.runningFlag = false) :
    (s.setConsumer i c).Staffed := by
  constructor
  · intro hno
    rw [show s.mainDone = false from hno] at hmain
    cases hmain
  · exact h.count
  · exact h.down
  · intro j hj
    simp only [PiState.setConsumer] at hj
    split at hj
    · exact ⟨hmain, hc hj⟩
    · exact h.gone j hj

/-- A producer counts itself, and the last one clears the flag. -/
theorem PiState.Staffed.leave {s : PiState} (h : s.Staffed) {i : Fin numThreads}
    (hi : s.producers i = .leaving) :
    ((if s.count + 1 = numThreads then { s with count := s.count + 1, runningFlag := false }
      else { s with count := s.count + 1 }).setProducer i .exited).Staffed := by
  have hmain := h.mainDone (.inr (.inl ⟨i, by rw [hi]; exact fun h => (by cases h)⟩))
  have hup : s.runningFlag = true := by
    cases hflag : s.runningFlag with
    | true => rfl
    | false =>
        have := h.down hmain hflag i
        rw [hi] at this
        cases this
  let exited := Finset.univ.filter fun j => s.producers j = .exited
  have hnew : i ∉ exited := by
    intro hmem
    have := (Finset.mem_filter.mp hmem).2
    rw [hi] at this
    cases this
  have hset : (Finset.univ.filter fun j =>
      (if j = i then Producer.exited else s.producers j) = .exited) = insert i exited := by
    ext j
    by_cases hj : j = i
    · simp [hj]
    · simp [hj, exited]
  have hcard : (insert i exited).card = exited.card + 1 := Finset.card_insert_of_notMem hnew
  have hcount : s.count = exited.card := h.count
  split
  · rename_i hlast
    constructor
    · intro hno
      rw [show s.mainDone = false from hno] at hmain
      cases hmain
    · simp only [PiState.setProducer]
      rw [hset, hcard, hcount]
      rfl
    · intro _ _ j
      have hall : insert i exited = Finset.univ := by
        rw [← Finset.card_eq_iff_eq_univ, hcard, Fintype.card_fin]
        rw [hcount] at hlast
        exact_mod_cast hlast
      have hj : j ∈ insert i exited := by
        rw [hall]
        exact Finset.mem_univ j
      rw [← hset] at hj
      exact (Finset.mem_filter.mp hj).2
    · exact fun j hj => ⟨hmain, rfl⟩
  · constructor
    · intro hno
      rw [show s.mainDone = false from hno] at hmain
      cases hmain
    · simp only [PiState.setProducer]
      rw [hset, hcard, hcount]
      rfl
    · intro _ hflag
      rw [show s.runningFlag = false from hflag] at hup
      cases hup
    · exact h.gone

/-! ## Runs -/

/-- What holds along every run. -/
structure PiState.Kept (s : PiState) : Prop where
  stocked : s.Stocked
  staffed : s.Staffed
  drawn : ∀ i trails res, s.producers i = .push trails res → 0 ≤ res

theorem PiState.kept_start : PiState.start.Kept := by
  refine ⟨⟨by decide, by decide, .refl _, fun j hj => ?_, fun r hr => (by cases hr)⟩,
    ⟨fun _ => ⟨rfl, fun _ => rfl, fun _ => rfl⟩, by decide, fun h => (by cases h),
      fun _ h => (by cases h)⟩, fun _ _ _ h => (by cases h)⟩
  simp only [PiState.start] at hj
  omega

/-- Moving a thread leaves the samples alone. -/
theorem PiState.Stocked.setProducer {s : PiState} (h : s.Stocked) (i : Fin numThreads)
    (p : Producer) : (s.setProducer i p).Stocked := ⟨h.low, h.high, h.once, h.value, h.nonneg⟩

theorem PiState.Stocked.setConsumer {s : PiState} (h : s.Stocked) (i : Fin numThreads)
    (c : Consumer) : (s.setConsumer i c).Stocked := ⟨h.low, h.high, h.once, h.value, h.nonneg⟩

/-- Moving a sample leaves the threads alone. -/
theorem PiState.Staffed.pushSample {s : PiState} (h : s.Staffed) (res : Int) :
    (s.pushSample res).Staffed := ⟨h.idle, h.count, h.down, h.gone⟩

theorem PiState.Staffed.popSample {s : PiState} (h : s.Staffed) : s.popSample.Staffed :=
  ⟨h.idle, h.count, h.down, h.gone⟩

/-- A producer that goes on holds no sample but the one it drew. -/
theorem PiState.Kept.setProducer {s : PiState} (h : s.Kept) {i : Fin numThreads} {p : Producer}
    (hmain : s.mainDone = true) (hold : s.producers i ≠ .exited) (hp : p ≠ .exited)
    (hdrawn : ∀ trails res, p = .push trails res → 0 ≤ res) : (s.setProducer i p).Kept := by
  refine ⟨h.stocked.setProducer i p, h.staffed.setProducer hmain hold hp,
    fun j trails res hj => ?_⟩
  simp only [PiState.setProducer] at hj
  split at hj
  · exact hdrawn trails res hj
  · exact h.drawn j trails res hj

theorem PiState.Kept.setConsumer {s : PiState} (h : s.Kept) {i : Fin numThreads} {c : Consumer}
    (hmain : s.mainDone = true) (hc : c = .exited → s.runningFlag = false) :
    (s.setConsumer i c).Kept :=
  ⟨h.stocked.setConsumer i c, h.staffed.setConsumer hmain hc, h.drawn⟩

theorem PiState.Kept.leave {s : PiState} (h : s.Kept) {i : Fin numThreads}
    (hi : s.producers i = .leaving) :
    ((if s.count + 1 = numThreads then { s with count := s.count + 1, runningFlag := false }
      else { s with count := s.count + 1 }).setProducer i .exited).Kept := by
  have hstaff := h.staffed.leave hi
  obtain ⟨⟨hlow, hhigh, honce, hvalue, hnonneg⟩, _, hdrawn⟩ := h
  have hdrawn' : ∀ j trails res,
      (if j = i then Producer.exited else s.producers j) = .push trails res → 0 ≤ res := by
    intro j trails res hj
    split at hj
    · cases hj
    · exact hdrawn j trails res hj
  by_cases hlast : s.count + 1 = numThreads
  · rw [if_pos hlast] at hstaff ⊢
    exact ⟨⟨hlow, hhigh, honce, hvalue, hnonneg⟩, hstaff, hdrawn'⟩
  · rw [if_neg hlast] at hstaff ⊢
    exact ⟨⟨hlow, hhigh, honce, hvalue, hnonneg⟩, hstaff, hdrawn'⟩

theorem PiState.Kept.produce {s s' : PiState} {trails₀ res : Int} {i : Fin numThreads}
    (h : s.Kept) (hres : 0 ≤ res) (hs : produce trails₀ res i s = some s') : s'.Kept := by
  unfold Threads.produce at hs
  split at hs
  · rename_i hp
    cases hs
    split
    · rename_i hrun
      apply h.setProducer (h.staffed.mainDone (.inl hrun))
      · rw [hp]
        exact fun h => (by cases h)
      · exact fun h => (by cases h)
      · exact fun _ _ h => (by cases h)
    · exact h
  · rename_i trails hp
    have hhere : s.producers i ≠ .starting ∧ s.producers i ≠ .exited := by
      rw [hp]
      exact ⟨fun h => (by cases h), fun h => (by cases h)⟩
    have hmain := h.staffed.mainDone (.inr (.inl ⟨i, hhere.1⟩))
    cases hs
    split
    · apply h.setProducer hmain hhere.2
      · exact fun h => (by cases h)
      · intro _ _ heq
        cases heq
        exact hres
    · apply h.setProducer hmain hhere.2
      · exact fun h => (by cases h)
      · exact fun _ _ h => (by cases h)
  · rename_i trails res' hp
    have hhere : s.producers i ≠ .starting ∧ s.producers i ≠ .exited := by
      rw [hp]
      exact ⟨fun h => (by cases h), fun h => (by cases h)⟩
    have hmain := h.staffed.mainDone (.inr (.inl ⟨i, hhere.1⟩))
    cases hs
    split
    · rename_i hroom
      have hpush : (s.pushSample res').Kept :=
        ⟨h.stocked.pushSample (h.drawn i trails res' hp) hroom, h.staffed.pushSample res', h.drawn⟩
      apply hpush.setProducer hmain hhere.2
      · exact fun h => (by cases h)
      · exact fun _ _ h => (by cases h)
    · exact h
  · rename_i hp
    have hleave := h.leave hp
    cases hs
    exact hleave
  · cases hs

theorem PiState.Kept.consume {s s' : PiState} {i : Fin numThreads} (h : s.Kept)
    (hs : consume i s = some s') : s'.Kept := by
  unfold Threads.consume at hs
  split at hs
  · cases hs
    split
    · rename_i hrun
      exact h.setConsumer (h.staffed.mainDone (.inl hrun)) fun h => (by cases h)
    · exact h
  · rename_i hc
    have hmain := h.staffed.mainDone (.inr (.inr ⟨i, by rw [hc]; exact fun h => (by cases h)⟩))
    cases hs
    apply h.setConsumer hmain
    intro hexit
    split at hexit
    · cases hexit
    · cases hexit
  · rename_i hc
    have hmain := h.staffed.mainDone (.inr (.inr ⟨i, by rw [hc]; exact fun h => (by cases h)⟩))
    cases hs
    apply h.setConsumer hmain
    intro hexit
    split at hexit
    · cases hexit
    · rename_i hdown
      exact Bool.eq_false_iff.mpr hdown
  · rename_i hc
    have hmain := h.staffed.mainDone (.inr (.inr ⟨i, by rw [hc]; exact fun h => (by cases h)⟩))
    cases hs
    split
    · rename_i hpos
      have hpop : s.popSample.Kept := ⟨h.stocked.popSample hpos, h.staffed.popSample, h.drawn⟩
      exact hpop.setConsumer hmain fun h => (by cases h)
    · exact h.setConsumer hmain fun h => (by cases h)
  · cases hs

theorem PiState.Kept.step {trails : Int} {s s' : PiState} {m : PiMove} (h : s.Kept)
    (hs : s.Step trails m s') : s'.Kept := by
  cases m with
  | main =>
      simp only [PiState.Step, PiState.move] at hs
      split at hs
      · cases hs
      · rename_i hmain
        cases hs
        obtain ⟨_, hprod, hcons⟩ := h.staffed.idle (Bool.eq_false_iff.mpr hmain)
        obtain ⟨⟨hlow, hhigh, honce, hvalue, hnonneg⟩, hstaff, hdrawn⟩ := h
        refine ⟨⟨hlow, hhigh, honce, hvalue, hnonneg⟩,
          ⟨fun h => (by cases h), hstaff.count, fun _ h => (by cases h), fun i hi => ?_⟩, hdrawn⟩
        cases (hcons i).symm.trans hi
  | producer i rx ry => exact h.produce (sample_nonneg rx ry) hs
  | consumer i => exact h.consume hs

theorem PiState.kept_reachable {trails : Int} {s : PiState}
    (h : Lts.Reachable (· = PiState.start) (PiState.Step trails) s) : s.Kept := by
  apply Lts.Reachable.invariant _ _ h
  · intro s hs
    rw [hs]
    exact kept_start
  · intro s m s' ih hs
    exact ih.step hs

/-- The value of the sample with a number. -/
def PiState.valueOf (s : PiState) (tag : Nat) : Int := s.pushed.getD tag 0

/-- What holds along a run all of whose steps are careful. -/
structure PiState.Exact (s : PiState) : Prop where
  sum : s.success = (s.popped.map s.valueOf).sum
  empty : (∀ i, s.consumers i = .exited) → s.trailI = 0

theorem PiState.Stocked.popped_lt {s : PiState} (h : s.Stocked) {t : Nat} (ht : t ∈ s.popped) :
    t < s.pushed.length :=
  List.mem_range.mp (h.once.subset (List.mem_append_left _ ht))

theorem PiState.Stocked.valueOf_nonneg {s : PiState} (h : s.Stocked) (t : Nat) :
    0 ≤ s.valueOf t := by
  unfold PiState.valueOf
  by_cases ht : t < s.pushed.length
  · rw [List.getD_eq_getElem _ _ ht]
    exact h.nonneg _ (List.getElem_mem ht)
  · rw [List.getD_eq_default _ _ (by omega)]

theorem PiState.Exact.pushSample {s : PiState} (h : s.Exact) (hstock : s.Stocked) {res : Int}
    {i : Fin numThreads} (hi : s.consumers i ≠ .exited) : (s.pushSample res).Exact := by
  constructor
  · have hsame : s.popped.map (s.pushSample res).valueOf = s.popped.map s.valueOf := by
      apply List.map_congr_left
      intro t ht
      have hlt := hstock.popped_lt ht
      simp only [PiState.valueOf, PiState.pushSample, List.getD_eq_getElem?_getD,
        List.getElem?_append_left hlt]
    calc s.success = (s.popped.map s.valueOf).sum := h.sum
      _ = (s.popped.map (s.pushSample res).valueOf).sum := by rw [hsame]
  · intro hall
    exact absurd (hall i) hi

/-- The sample on top of the buffer is the one its number stands for. -/
theorem PiState.Stocked.top {s : PiState} (h : s.Stocked) (hpos : s.trailI > 0) :
    s.valueOf (s.tags (s.trailI - 1)) = s.trailsBuf (s.trailI - 1) := by
  have hcast : (((s.trailI - 1).toNat : Nat) : Int) = s.trailI - 1 :=
    Int.toNat_of_nonneg (by omega)
  have hval := h.value (s.trailI - 1).toNat (by omega)
  rw [hcast] at hval
  unfold PiState.valueOf
  rw [List.getD_eq_getElem?_getD, hval]
  rfl

theorem PiState.Exact.popSample {s : PiState} (h : s.Exact) (hstock : s.Stocked)
    (hpos : s.trailI > 0) (hfits : s.success + s.trailsBuf (s.trailI - 1) < 2147483648) :
    s.popSample.success = (s.popSample.popped.map s.popSample.valueOf).sum := by
  have htop := hstock.top hpos
  have hnonneg : 0 ≤ s.success := by
    rw [h.sum]
    apply List.sum_nonneg
    intro v hv
    obtain ⟨t, _, rfl⟩ := List.mem_map.mp hv
    exact hstock.valueOf_nonneg t
  have hres : 0 ≤ s.trailsBuf (s.trailI - 1) := by
    rw [← htop]
    exact hstock.valueOf_nonneg _
  have hsame : s.popSample.valueOf = s.valueOf := rfl
  rw [hsame]
  simp only [PiState.popSample, List.map_append, List.map_singleton, List.sum_append,
    List.sum_singleton, htop]
  rw [i32_of_mem (by omega) hfits, h.sum]

/-- A consumer that leaves last leaves nothing. -/
theorem PiState.Exact.setConsumer {s : PiState} (h : s.Exact) {i : Fin numThreads} {c : Consumer}
    (hc : c = .exited → (∀ j, j ≠ i → s.consumers j = .exited) → s.trailI = 0) :
    (s.setConsumer i c).Exact := by
  refine ⟨h.sum, fun hall => ?_⟩
  have hself : c = .exited := (if_pos rfl).symm.trans (hall i)
  exact hc hself fun j hj => (if_neg hj).symm.trans (hall j)

theorem PiState.Exact.step {trails : Int} {s s' : PiState} {m : PiMove} (h : s.Exact)
    (hkept : s.Kept) (hcareful : s.Careful m) (hs : s.Step trails m s') : s'.Exact := by
  cases m with
  | main =>
      simp only [PiState.Step, PiState.move] at hs
      split at hs
      · cases hs
      · cases hs
        exact ⟨h.sum, h.empty⟩
  | producer i rx ry =>
      simp only [PiState.Step, PiState.move, produce] at hs
      split at hs
      · cases hs
        split
        · exact ⟨h.sum, h.empty⟩
        · exact h
      · cases hs
        split
        · exact ⟨h.sum, h.empty⟩
        · exact ⟨h.sum, h.empty⟩
      · rename_i trails' res hp
        cases hs
        split
        · -- somebody is still there to pop the sample
          have hthere : ∃ j, s.consumers j ≠ .exited := by
            by_contra hno
            have hgone : s.consumers 0 = .exited := by
              by_contra hj
              exact hno ⟨0, hj⟩
            obtain ⟨hmain, hdown⟩ := hkept.staffed.gone 0 hgone
            cases hp.symm.trans (hkept.staffed.down hmain hdown i)
          obtain ⟨j, hj⟩ := hthere
          have hpush : (s.pushSample res).Exact := h.pushSample hkept.stocked hj
          exact ⟨hpush.sum, hpush.empty⟩
        · exact h
      · cases hs
        split
        · exact ⟨h.sum, h.empty⟩
        · exact ⟨h.sum, h.empty⟩
      · cases hs
  | consumer i =>
      simp only [PiState.Step, PiState.move, consume] at hs
      split at hs
      · cases hs
        split
        · exact h.setConsumer fun hc => (by cases hc)
        · exact h
      · cases hs
        split
        · exact h.setConsumer fun hc => (by cases hc)
        · exact h.setConsumer fun hc => (by cases hc)
      · rename_i hc
        cases hs
        split
        · exact h.setConsumer fun hc => (by cases hc)
        · rename_i hdown
          exact h.setConsumer fun _ hothers =>
            hcareful.1 hc (Bool.eq_false_iff.mpr hdown) hothers
      · rename_i hc
        cases hs
        split
        · rename_i hpos
          have hsum := h.popSample hkept.stocked hpos (hcareful.2 hc hpos)
          refine ⟨hsum, fun hall => ?_⟩
          cases (if_pos rfl).symm.trans (hall i)
        · exact h.setConsumer fun hc => (by cases hc)
      · cases hs

theorem PiState.exact_reachable {trails : Int} {s : PiState}
    (h : Lts.Reachable (· = PiState.start) (Lts.Guarded PiState.Careful (PiState.Step trails)) s) :
    s.Kept ∧ s.Exact := by
  apply Lts.Reachable.invariant _ _ h
  · intro s hs
    rw [hs]
    exact ⟨kept_start, rfl, fun h => (by cases h 0)⟩
  · intro s m s' ih hs
    exact ⟨ih.1.step hs.2, ih.2.step ih.1 hs.1 hs.2⟩

/-- All values, in the order of their numbers. -/
theorem PiState.map_valueOf (s : PiState) :
    (List.range s.pushed.length).map s.valueOf = s.pushed := by
  apply List.ext_getElem
  · simp
  · intro t h₁ h₂
    simp only [List.getElem_map, List.getElem_range, PiState.valueOf]
    exact List.getD_eq_getElem _ _ h₂

/-- All threads of a kind make the same moves, one after the other. -/
def eachThread (moves : Fin numThreads → List PiMove) : List PiMove :=
  (List.finRange numThreads).flatMap moves

/-- Each sample is popped at once, and the consumers leave at the end. -/
def inTurn : List PiMove :=
  [.main] ++ (eachThread fun i => [.consumer i]) ++
    (eachThread fun i =>
      [.producer i 50 50, .producer i 50 50, .producer i 50 50, .consumer 0, .consumer 0]) ++
    (eachThread fun i => [.producer i 0 0, .producer i 0 0]) ++
    eachThread fun i => [.consumer i, .consumer i]

theorem inTurn_run :
    (Lts.exec (fun s m => if s.Careful m then s.move 1 m else none) PiState.start inTurn).map
      (fun s => (decide s.AllExited, s.success, s.pushed)) =
        some (true, 8, [1, 1, 1, 1, 1, 1, 1, 1]) := by
  decide +kernel

/-- All consumers find the buffer empty; then the last producer pushes its sample and
clears the flag, which the consumers read next. -/
def stranded : List PiMove :=
  [.main] ++ (eachThread fun i => [.consumer i]) ++
    ([0, 1, 2, 3, 4, 5, 6] : List (Fin numThreads)).flatMap (fun i =>
      [.producer i 50 50, .producer i 50 50, .producer i 50 50, .consumer 0, .consumer 0]) ++
    (eachThread fun i => [.consumer i]) ++
    [.producer 7 50 50, .producer 7 50 50, .producer 7 50 50] ++
    (eachThread fun i => [.producer i 0 0, .producer i 0 0]) ++
    eachThread fun i => [.consumer i]

theorem stranded_run :
    (Lts.exec (PiState.move 1) PiState.start stranded).map
      (fun s => (decide s.AllExited, s.trailI, s.success, s.pushed.sum)) =
        some (true, 1, 7, 8) := by
  decide +kernel

end CS537.Threads
