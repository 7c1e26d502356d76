import Mathlib.Data.Fintype.Card
import CS537.Lib.FifoLock

/-!
# The ticket lock of the thread library

`lock_init`, `lock_acquire` and `lock_release` over any finite set of threads,
each `fetch_and_add` one step of any thread. The lock simulates a first-in
first-out lock: the thread with the ticket `turn + i` is the one `i` places
behind the head of the queue, and fewer than `2^32` threads keep the tickets
apart however often the counters have wrapped.
-/

namespace CS537.Threads.TicketLock

open Lts FifoLock

/-- `lock_t`. -/
structure LockT where
  ticket : BitVec 32
  turn : BitVec 32
  deriving DecidableEq

/-- `fetch_and_add`: what it returns and what it leaves in `*var`. -/
def fetchAndAdd (var val : BitVec 32) : BitVec 32 × BitVec 32 := (var, var + val)

@[simp] theorem fetchAndAdd_zero (var : BitVec 32) : fetchAndAdd var 0 = (var, var) := by
  simp [fetchAndAdd]

def lockInit (_ : LockT) : LockT := { ticket := 0, turn := 0 }

/-- Where a thread is: outside, in the loop of `lock_acquire` with its local
`turn`, or between `lock_acquire` and `lock_release`. -/
inductive Pc where
  | outside
  | spinning (turn : BitVec 32)
  | inside
  deriving DecidableEq

/-- What the step of a thread was: the first line of `lock_acquire`, the test
of its loop that fails or that ends the loop, `lock_release`. -/
inductive Act where
  | fetch
  | spin
  | enter
  | release
  deriving DecidableEq

structure State (T : Type) where
  lock : LockT
  pc : T → Pc

variable {T : Type} [DecidableEq T]

def State.goto (s : State T) (t : T) (pc : Pc) : State T :=
  { s with pc := Function.update s.pc t pc }

@[simp] theorem State.goto_lock (s : State T) (t : T) (pc : Pc) :
    (s.goto t pc).lock = s.lock := rfl

@[simp] theorem State.goto_self (s : State T) (t : T) (pc : Pc) :
    (s.goto t pc).pc t = pc :=
  Function.update_self ..

theorem State.goto_of_ne (s : State T) {t u : T} (pc : Pc) (h : u ≠ t) :
    (s.goto t pc).pc u = s.pc u :=
  Function.update_of_ne h ..

/-- The next `fetch_and_add` of thread `t`. -/
def advance (s : State T) (t : T) : State T × Act :=
  match s.pc t with
  | .outside =>
      let (turn, ticket) := fetchAndAdd s.lock.ticket 1
      ({ s with lock := { s.lock with ticket := ticket } }.goto t (.spinning turn), .fetch)
  | .spinning turn =>
      let (now, turn') := fetchAndAdd s.lock.turn 0
      let s' := { s with lock := { s.lock with turn := turn' } }
      if now ≠ turn then (s', .spin) else (s'.goto t .inside, .enter)
  | .inside =>
      let (_, turn) := fetchAndAdd s.lock.turn 1
      ({ s with lock := { s.lock with turn := turn } }.goto t .outside, .release)

def Step (s : State T) (l : T × Act) (s' : State T) : Prop := advance s l.1 = (s', l.2)

/-- After `lock_init`, before any thread has used the lock. -/
def start (l : LockT) : State T := { lock := lockInit l, pc := fun _ => .outside }

/-- What a step is in the queue of the lock. -/
def event : T × Act → Option (Event T)
  | (t, .fetch) => some (.join t)
  | (_, .spin) => none
  | (t, .enter) => some (.enter t)
  | (t, .release) => some (.leave t)

/-- The threads in the order of their ticket fetch. -/
def fetchOrder (ls : List (T × Act)) : List T :=
  ls.filterMap fun l => if l.2 = .fetch then some l.1 else none

/-- The threads in the order they left `lock_acquire`. -/
def enterOrder (ls : List (T × Act)) : List T :=
  ls.filterMap fun l => if l.2 = .enter then some l.1 else none

theorem Step.of_advance (s : State T) (t : T) :
    Step s (t, (advance s t).2) (advance s t).1 := rfl

section Steps

variable {s s' : State T} {t : T} {act : Act}

/-- What a step of a thread outside does. -/
theorem Step.of_outside (h : Step s (t, act) s') (hpc : s.pc t = .outside) :
    act = .fetch ∧ s' = { s with lock := { s.lock with ticket := s.lock.ticket + 1 } }.goto t
      (.spinning s.lock.ticket) := by
  simp only [Step, advance, hpc, fetchAndAdd, Prod.mk.injEq] at h
  exact ⟨h.2.symm, h.1.symm⟩

/-- What a step in the loop of `lock_acquire` does. -/
theorem Step.of_spinning {turn : BitVec 32} (h : Step s (t, act) s')
    (hpc : s.pc t = .spinning turn) :
    (s.lock.turn ≠ turn ∧ act = .spin ∧ s' = s) ∨
      (s.lock.turn = turn ∧ act = .enter ∧ s' = s.goto t .inside) := by
  simp only [Step, advance, hpc, fetchAndAdd_zero] at h
  by_cases hturn : s.lock.turn = turn
  · subst hturn
    simp only [ne_eq, not_true, if_false, Prod.mk.injEq] at h
    exact .inr ⟨rfl, h.2.symm, h.1.symm⟩
  · simp only [ne_eq, hturn, not_false_iff, if_true, Prod.mk.injEq] at h
    exact .inl ⟨hturn, h.2.symm, h.1.symm⟩

/-- What `lock_release` does. -/
theorem Step.of_inside (h : Step s (t, act) s') (hpc : s.pc t = .inside) :
    act = .release ∧
      s' = { s with lock := { s.lock with turn := s.lock.turn + 1 } }.goto t .outside := by
  simp only [Step, advance, hpc, fetchAndAdd, Prod.mk.injEq] at h
  exact ⟨h.2.symm, h.1.symm⟩

end Steps

/-- The queue a state of the lock stands for: the thread at place `i` of it
waits for the turn `turn + i`. -/
structure Simulates (s : State T) (q : FifoLock.State T) : Prop where
  nodup : q.queue.Nodup
  ticket : s.lock.ticket = s.lock.turn + BitVec.ofNat 32 q.queue.length
  inside : ∀ t, q.inside = some t → s.pc t = .inside
  waiting : ∀ i t, q.waiting[i]? = some t →
    s.pc t = .spinning (s.lock.turn + BitVec.ofNat 32 (q.inside.toList.length + i))
  outside : ∀ t, t ∉ q.queue → s.pc t = .outside

omit [DecidableEq T] in
theorem Simulates.start (l : LockT) :
    Simulates (TicketLock.start l : State T) FifoLock.State.empty where
  nodup := List.nodup_nil
  ticket := rfl
  inside _ h := by cases h
  waiting _ _ h := by simp [FifoLock.State.empty] at h
  outside _ _ := rfl

section Places

variable {s : State T} {q : FifoLock.State T} {t : T}

/-- Where a thread is in the queue, read off its place in the code. -/
theorem Simulates.place (h : Simulates s q) (t : T) :
    (s.pc t = .outside ∧ t ∉ q.queue) ∨ (s.pc t = .inside ∧ q.inside = some t) ∨
      ∃ i, q.waiting[i]? = some t ∧
        s.pc t = .spinning (s.lock.turn + BitVec.ofNat 32 (q.inside.toList.length + i)) := by
  by_cases ht : t ∈ q.queue
  · obtain hin | hwait := FifoLock.State.mem_queue.mp ht
    · exact .inr (.inl ⟨h.inside t hin, hin⟩)
    · obtain ⟨i, hi⟩ := List.getElem?_of_mem hwait
      exact .inr (.inr ⟨i, hi, h.waiting i t hi⟩)
  · exact .inl ⟨h.outside t ht, ht⟩

theorem Simulates.inside_iff (h : Simulates s q) : s.pc t = .inside ↔ q.inside = some t := by
  constructor
  · intro hpc
    obtain ⟨ho, -⟩ | ⟨-, hin⟩ | ⟨i, -, hw⟩ := h.place t
    · rw [ho] at hpc
      cases hpc
    · exact hin
    · rw [hw] at hpc
      cases hpc
  · exact h.inside t

theorem Simulates.mem_iff (h : Simulates s q) : t ∈ q.queue ↔ s.pc t ≠ .outside := by
  constructor
  · intro ht
    obtain ⟨-, hn⟩ | ⟨hi, -⟩ | ⟨i, -, hw⟩ := h.place t
    · exact absurd ht hn
    · simp [hi]
    · simp [hw]
  · intro hpc
    by_contra ht
    exact hpc (h.outside t ht)

omit [DecidableEq T] in
/-- There are fewer threads than tickets. -/
theorem Simulates.length_lt [Fintype T] (h : Simulates s q) (hT : Fintype.card T < 2 ^ 32) :
    q.queue.length < 2 ^ 32 :=
  lt_of_le_of_lt h.nodup.length_le_card hT

end Places

section Simulation

variable {s s' : State T} {q : FifoLock.State T} {t : T} {act : Act}

theorem Simulates.fetch (h : Simulates s q) (hpc : s.pc t = .outside)
    (hstep : Step s (t, act) s') :
    ∃ q', Simulates s' q' ∧ Run FifoLock.Step q (event (t, act)).toList q' := by
  obtain ⟨rfl, rfl⟩ := hstep.of_outside hpc
  have ht : t ∉ q.queue := fun hmem => h.mem_iff.mp hmem hpc
  have hne : ∀ u ∈ q.queue, u ≠ t := fun u hu hut => ht (hut ▸ hu)
  have hlen : q.queue.length = q.inside.toList.length + q.waiting.length :=
    List.length_append
  refine ⟨{ q with waiting := q.waiting ++ [t] }, ?_, Run.single (.join ht)⟩
  constructor
  · exact (FifoLock.Step.join ht).nodup h.nodup
  · -- the ticket after the one fetched is that of the next thread to come
    change s.lock.ticket + 1 = s.lock.turn + BitVec.ofNat 32 _
    rw [h.ticket, hlen]
    simp [FifoLock.State.queue, BitVec.ofNat_add, BitVec.add_assoc]
  · intro u hu
    have hmem : u ∈ q.queue := FifoLock.State.mem_queue.mpr (.inl hu)
    rw [State.goto_of_ne _ _ (hne u hmem)]
    exact h.inside u hu
  · intro i u hu
    rw [List.getElem?_append] at hu
    split at hu
    · have hmem : u ∈ q.queue :=
        FifoLock.State.mem_queue.mpr (.inr (List.mem_of_getElem? hu))
      rw [State.goto_of_ne _ _ (hne u hmem)]
      exact h.waiting i u hu
    · rw [List.getElem?_singleton] at hu
      split at hu
      · cases hu
        have hi : i = q.waiting.length := by omega
        rw [State.goto_self, State.goto_lock, h.ticket, hlen, hi]
      · cases hu
  · intro u hu
    simp only [FifoLock.State.queue, ← List.append_assoc, List.mem_append, not_or,
      List.mem_singleton] at hu
    rw [State.goto_of_ne _ _ hu.2]
    exact h.outside u (by simp [FifoLock.State.queue, hu.1])

theorem Simulates.enter [Fintype T] (hT : Fintype.card T < 2 ^ 32) (h : Simulates s q)
    {turn : BitVec 32} (hpc : s.pc t = .spinning turn) (hstep : Step s (t, act) s') :
    ∃ q', Simulates s' q' ∧ Run FifoLock.Step q (event (t, act)).toList q' := by
  obtain ⟨-, rfl, rfl⟩ | ⟨hturn, rfl, rfl⟩ := hstep.of_spinning hpc
  · exact ⟨q, h, .nil q⟩
  obtain ⟨ho, -⟩ | ⟨hi, -⟩ | ⟨i, hi, hw⟩ := h.place t
  · rw [ho] at hpc
    cases hpc
  · rw [hi] at hpc
    cases hpc
  rw [hpc, ← hturn] at hw
  -- fewer than `2^32` places are taken, so the turn is that of the head only
  have hhead : q.inside.toList.length + i = 0 := by
    have hlt := h.length_lt hT
    have hil := (List.getElem?_eq_some_iff.mp hi).1
    rw [FifoLock.State.queue, List.length_append] at hlt
    injection hw with hw
    have hz : BitVec.ofNat 32 (q.inside.toList.length + i) = 0 := BitVec.self_eq_add_right.mp hw
    have hnat := congrArg BitVec.toNat hz
    rw [BitVec.toNat_ofNat, Nat.mod_eq_of_lt (by omega)] at hnat
    exact hnat
  obtain ⟨hin, rfl⟩ : q.inside = none ∧ i = 0 := by
    cases hq : q.inside with
    | none => simpa [hq] using hhead
    | some u => simp [hq] at hhead
  obtain ⟨inside, waiting⟩ := q
  cases hin
  cases waiting with
  | nil => cases hi
  | cons u rest =>
      cases hi
      have hne : ∀ u ∈ rest, u ≠ t := by
        intro u hu hut
        exact (List.nodup_cons.mp h.nodup).1 (hut ▸ hu)
      refine ⟨⟨some t, rest⟩, ?_, Run.single .enter⟩
      constructor
      · exact h.nodup
      · exact h.ticket
      · intro u hu
        cases hu
        exact State.goto_self ..
      · intro i u hu
        rw [State.goto_of_ne _ _ (hne u (List.mem_of_getElem? hu)), h.waiting (i + 1) u hu]
        simp [Nat.add_comm]
      · intro u hu
        have hut : u ≠ t := fun hut => hu (FifoLock.State.mem_queue.mpr (.inl (hut ▸ rfl)))
        rw [State.goto_of_ne _ _ hut]
        exact h.outside u hu

theorem Simulates.release (h : Simulates s q) (hpc : s.pc t = .inside)
    (hstep : Step s (t, act) s') :
    ∃ q', Simulates s' q' ∧ Run FifoLock.Step q (event (t, act)).toList q' := by
  obtain ⟨rfl, rfl⟩ := hstep.of_inside hpc
  obtain ⟨inside, waiting⟩ := q
  cases h.inside_iff.mp hpc
  have hne : ∀ u ∈ waiting, u ≠ t := by
    intro u hu hut
    exact (List.nodup_cons.mp h.nodup).1 (hut ▸ hu)
  refine ⟨⟨none, waiting⟩, ?_, Run.single .leave⟩
  constructor
  · exact h.nodup.of_cons
  · -- the turn moves on by one, and so does the head of the queue
    change s.lock.ticket = s.lock.turn + 1 + BitVec.ofNat 32 waiting.length
    rw [h.ticket]
    simp only [FifoLock.State.queue, Option.toList_some, List.singleton_append,
      List.length_cons, BitVec.ofNat_add]
    rw [BitVec.add_assoc, BitVec.add_comm (BitVec.ofNat 32 waiting.length)]
    rfl
  · intro u hu
    cases hu
  · intro i u hu
    rw [State.goto_of_ne _ _ (hne u (List.mem_of_getElem? hu))]
    change s.pc u = .spinning (s.lock.turn + 1 + BitVec.ofNat 32 (0 + i))
    rw [h.waiting i u hu]
    simp [BitVec.ofNat_add, BitVec.add_assoc]
  · intro u hu
    by_cases hut : u = t
    · subst hut
      exact State.goto_self ..
    · rw [State.goto_of_ne _ _ hut]
      apply h.outside u
      intro hmem
      obtain hin | hwait := FifoLock.State.mem_queue.mp hmem
      · cases hin
        exact hut rfl
      · exact hu (FifoLock.State.mem_queue.mpr (.inr hwait))

/-- Each step of a thread is one step of the queue, or none. -/
theorem Simulates.step [Fintype T] (hT : Fintype.card T < 2 ^ 32) (s : State T)
    (l : T × Act) (s' : State T) (q : FifoLock.State T) (h : Simulates s q)
    (hstep : Step s l s') :
    ∃ q', Simulates s' q' ∧ Run FifoLock.Step q (event l).toList q' := by
  obtain ⟨t, act⟩ := l
  cases hpc : s.pc t with
  | outside => exact h.fetch hpc hstep
  | spinning turn => exact h.enter hT hpc hstep
  | inside => exact h.release hpc hstep

end Simulation

omit [DecidableEq T] in
theorem joined_event (ls : List (T × Act)) : joined (ls.filterMap event) = fetchOrder ls := by
  rw [joined, fetchOrder, List.filterMap_filterMap]
  apply List.filterMap_congr
  rintro ⟨t, act⟩ -
  cases act <;> rfl

omit [DecidableEq T] in
theorem entered_event (ls : List (T × Act)) : entered (ls.filterMap event) = enterOrder ls := by
  rw [entered, enterOrder, List.filterMap_filterMap]
  apply List.filterMap_congr
  rintro ⟨t, act⟩ -
  cases act <;> rfl

/-- Any schedule of fewer than `2^32` threads, however long: the lock excludes,
serves in the order of the ticket fetches, and its counters differ by the
number of threads that hold it or wait for it. -/
theorem lock_mutual_exclusion_fifo [Fintype T] (hT : Fintype.card T < 2 ^ 32) (l : LockT)
    {ls : List (T × Act)} {s : State T} (h : Run Step (start l) ls s) :
    (∀ t u, s.pc t = .inside → s.pc u = .inside → t = u) ∧
      enterOrder ls <+: fetchOrder ls ∧
      (s.lock.ticket - s.lock.turn).toNat =
        (Finset.univ.filter fun t => s.pc t ≠ .outside).card := by
  obtain ⟨q, hq, hr⟩ := h.simulate (Simulates.step hT) (Simulates.start l)
  refine ⟨?_, ?_, ?_⟩
  · intro t u ht hu
    have htu := (hq.inside_iff.mp ht).symm.trans (hq.inside_iff.mp hu)
    exact Option.some.inj htu
  · rw [← joined_event, ← entered_event]
    exact FifoLock.Run.fifo hr
  · have hset : (Finset.univ.filter fun t => s.pc t ≠ .outside) = q.queue.toFinset := by
      apply Finset.ext
      intro t
      simp [hq.mem_iff]
    rw [hset, List.toFinset_card_of_nodup hq.nodup, hq.ticket, BitVec.add_comm,
      BitVec.add_sub_cancel, BitVec.toNat_ofNat, Nat.mod_eq_of_lt (hq.length_lt hT)]

/-- Two threads: the second spins while the first is inside. -/
theorem lock_mutual_exclusion_fifo_two :
    ∃ s : State (Fin 2),
      Run Step (start { ticket := 7, turn := 3 })
        [(0, .fetch), (1, .fetch), (0, .enter), (1, .spin)] s ∧
      s.pc 0 = .inside ∧
      (∀ t u, s.pc t = .inside → s.pc u = .inside → t = u) ∧
      enterOrder [((0 : Fin 2), .fetch), (1, .fetch), (0, .enter), (1, .spin)] <+:
        fetchOrder [((0 : Fin 2), .fetch), (1, .fetch), (0, .enter), (1, .spin)] ∧
      (s.lock.ticket - s.lock.turn).toNat =
        (Finset.univ.filter fun t => s.pc t ≠ .outside).card := by
  let s0 : State (Fin 2) := start { ticket := 7, turn := 3 }
  have h1 := (Run.nil s0).snoc (Step.of_advance s0 0)
  have h2 := h1.snoc (Step.of_advance _ 1)
  have h3 := h2.snoc (Step.of_advance _ 0)
  have h4 := h3.snoc (Step.of_advance _ 1)
  exact ⟨_, h4, rfl, lock_mutual_exclusion_fifo (by decide) _ h4⟩

end CS537.Threads.TicketLock
