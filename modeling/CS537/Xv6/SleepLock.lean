import CS537.Lib.Monitor

/-!
# Sleep locks

`sleeplock.c`: `acquiresleep`, `releasesleep` and `holdingsleep` of any number of processes,
with the `sleep` and `wakeup` of `proc.c`, in any order of their steps.
-/

namespace CS537.Xv6

open Monitor Lts

/-- `struct sleeplock`, less its spin lock and its name. -/
structure SleepLock where
  locked : Bool
  pid : Nat

/-- `initsleeplock`. -/
def initsleeplock : SleepLock := { locked := false, pid := 0 }

/-- Where a process is. Between two calls it has the lock, `inside`, or has it not; `r` is what
`holdingsleep` returned, if that was its last call. -/
inductive SleepPoint where
  | out (r : Option Bool)
  | acquire
  | acquireTest
  | acquireSleep
  | acquireTake
  | acquireRelease
  | inside (r : Option Bool)
  | release
  | releaseClear
  | releaseWake
  | releaseRelease
  | holding (mine : Bool)
  | holdingTest (mine : Bool)
  | holdingRelease (mine r : Bool)

variable {I : Type}

/-- `acquiresleep`, `releasesleep` and `holdingsleep`, where process `i` has the id `pid i`. -/
def sleepCode (pid : I → Nat) : SleepPoint → Instr I SleepLock Unit SleepPoint Empty
  | .out _ => .stop
  | .acquire => .acquire .acquireTest
  | .acquireTest => .act fun _ _ lk =>
      if lk.locked then (.acquireSleep, lk, none) else (.acquireTake, lk, none)
  | .acquireSleep => .sleep () .acquireTest
  | .acquireTake => .act fun i _ _ => (.acquireRelease, { locked := true, pid := pid i }, none)
  | .acquireRelease => .release (.inside none)
  | .inside _ => .stop
  | .release => .acquire .releaseClear
  | .releaseClear => .act fun _ _ _ => (.releaseWake, { locked := false, pid := 0 }, none)
  | .releaseWake => .wakeup () .releaseRelease
  | .releaseRelease => .release (.out none)
  | .holding mine => .acquire (.holdingTest mine)
  | .holdingTest mine => .act fun i _ lk =>
      (.holdingRelease mine (lk.locked && lk.pid == pid i), lk, none)
  | .holdingRelease mine r => .release (if mine then .inside (some r) else .out (some r))

/-- Who has the lock may give it up, who has it not may take it, and both may ask. -/
inductive SleepEntry : SleepPoint → SleepPoint → Prop
  | acquire (r : Option Bool) : SleepEntry (.out r) .acquire
  | release (r : Option Bool) : SleepEntry (.inside r) .release
  | asksOut (r : Option Bool) : SleepEntry (.out r) (.holding false)
  | asksInside (r : Option Bool) : SleepEntry (.inside r) (.holding true)

def sleepEntry (_ : I) : SleepPoint → SleepPoint → Prop := SleepEntry

/-- The process has the spin lock. -/
def SleepPoint.Spins : SleepPoint → Prop
  | .out _ => False
  | .acquire => False
  | .inside _ => False
  | .release => False
  | .holding _ => False
  | _ => True

/-- The process has the sleep lock. -/
def SleepPoint.Inside : SleepPoint → Prop
  | .acquireRelease => True
  | .inside _ => True
  | .release => True
  | .releaseClear => True
  | .holding mine => mine = true
  | .holdingTest mine => mine = true
  | .holdingRelease mine _ => mine = true
  | _ => False

/-- What `holdingsleep` has found is right, and so is the test of `acquiresleep`. -/
def SleepPoint.Right (lk : SleepLock) : SleepPoint → Prop
  | .out r => r ≠ some true
  | .inside r => r ≠ some false
  | .acquireSleep => lk.locked = true
  | .acquireTake => lk.locked = false
  | .holdingRelease mine r => r = mine
  | _ => True

/-- What a process knows of the lock at a point. -/
structure SleepAssert (pid : I → Nat) (i : I) (l : SleepPoint) (lk : SleepLock) : Prop where
  inside : l.Inside → lk.locked = true ∧ lk.pid = pid i
  outside : ¬ l.Inside → lk.locked = true → lk.pid ≠ pid i
  right : l.Right lk

variable {pid : I → Nat}

/-- Who sleeps is on its way to the test of `acquiresleep`. -/
def SleepAsleep (pid : I → Nat) (i : I) (l : SleepPoint) (lk : SleepLock) : Prop :=
  l = .acquireTest ∧ SleepAssert pid i l lk

/-- The steps of the others do not change what a process without the spin lock knows. -/
theorem SleepAssert.apart (hpid : Function.Injective pid) {l m : SleepPoint} {i j : I} {k : Bool}
    {lk : SleepLock} {f : I → Bool → SleepLock → SleepPoint × SleepLock × Option Empty}
    (hc : sleepCode pid l = .act f) (hij : i ≠ j) (hj : SleepAssert pid j l lk)
    (hm : m.Spins → m = .acquireTest) (hi : SleepAssert pid i m lk) :
    SleepAssert pid i m (f j k lk).2.1 := by
  have hright : ∀ lk', m.Right lk' := by
    intro lk'
    cases m <;> first | exact hi.right | exact trivial | exact absurd (hm trivial) (by simp)
  cases l <;> simp only [sleepCode, reduceCtorEq, Instr.act.injEq] at hc <;> subst hc
  case acquireTest =>
    dsimp only
    split_ifs <;> exact hi
  case acquireTake =>
    refine ⟨fun hin => ?_, fun _ _ heq => hij (hpid heq).symm, hright _⟩
    have hfree : lk.locked = false := hj.right
    rw [(hi.inside hin).1] at hfree
    cases hfree
  case releaseClear =>
    refine ⟨fun hin => ?_, fun _ h => (by cases h), hright _⟩
    have hsame := (hi.inside hin).2.symm.trans (hj.inside trivial).2
    exact absurd (hpid hsame) hij
  case holdingTest mine => exact hi

/-- `sleeplock.c` keeps its outline. -/
theorem sleep_outline (hpid : Function.Injective pid) :
    Outline (sleepCode pid) sleepEntry SleepPoint.Spins (fun _ => True) (SleepAssert pid)
      (SleepAsleep pid) where
  acquire := by
    intro l next h
    cases l <;> simp only [sleepCode, reduceCtorEq, Instr.acquire.injEq] at h <;> subst h
    case acquire =>
      exact ⟨id, trivial, fun _ _ ha _ => ⟨fun h => h.elim, fun _ => ha.outside id, trivial⟩⟩
    case release => exact ⟨id, trivial, fun _ _ ha _ => ⟨fun _ => ha.inside trivial,
      fun h => absurd trivial h, trivial⟩⟩
    case holding mine => exact ⟨id, trivial, fun _ _ ha _ => ⟨ha.inside, ha.outside, trivial⟩⟩
  release := by
    intro l next h
    cases l <;> simp only [sleepCode, reduceCtorEq, Instr.release.injEq] at h <;> subst h
    case acquireRelease => exact ⟨trivial, id, fun _ _ ha => ⟨trivial, fun _ => ha.inside trivial,
      fun h => absurd trivial h, fun h => (by cases h)⟩⟩
    case releaseRelease => exact ⟨trivial, id, fun _ _ ha => ⟨trivial, fun h => h.elim,
      fun _ => ha.outside id, fun h => (by cases h)⟩⟩
    case holdingRelease mine r =>
      cases mine
      · refine ⟨trivial, id, fun _ _ ha => ⟨trivial, fun h => h.elim, fun _ => ?_, ?_⟩⟩
        · exact ha.outside Bool.noConfusion
        · have hr : r = false := ha.right
          rw [hr]
          exact fun h => by cases h
      · refine ⟨trivial, id, fun _ _ ha => ⟨trivial, fun _ => ha.inside rfl, fun h => ?_, ?_⟩⟩
        · exact absurd trivial h
        · have hr : r = true := ha.right
          rw [hr]
          exact fun h => by cases h
  act := by
    intro l f h
    cases l <;> simp only [sleepCode, reduceCtorEq, Instr.act.injEq] at h <;> subst h
    case acquireTest =>
      refine ⟨trivial, fun _ _ lk ha => ?_⟩
      dsimp only
      split_ifs with hlocked
      · exact ⟨trivial, fun h => h.elim, fun _ => ha.outside id, hlocked⟩
      · exact ⟨trivial, fun h => h.elim, fun _ => ha.outside id,
          (Bool.not_eq_true _).mp hlocked⟩
    case acquireTake =>
      exact ⟨trivial, fun _ _ _ _ => ⟨trivial, fun _ => ⟨rfl, rfl⟩, fun h => absurd trivial h,
        trivial⟩⟩
    case releaseClear =>
      exact ⟨trivial, fun _ _ _ _ => ⟨trivial, fun h => h.elim, fun _ h => (by cases h),
        trivial⟩⟩
    case holdingTest mine =>
      refine ⟨trivial, fun i _ lk ha => ⟨trivial, ha.inside, ha.outside, ?_⟩⟩
      change (lk.locked && lk.pid == pid i) = mine
      cases mine
      · rw [Bool.and_eq_false_imp]
        exact fun hlocked => beq_eq_false_iff_ne.mpr (ha.outside Bool.noConfusion hlocked)
      · rw [Bool.and_eq_true, beq_iff_eq]
        exact ha.inside rfl
  wakeup := by
    intro l c next h
    cases l <;> simp only [sleepCode, reduceCtorEq, Instr.wakeup.injEq] at h
    obtain ⟨-, rfl⟩ := h
    exact ⟨trivial, trivial, fun _ _ ha => ⟨fun h => h.elim, fun _ => ha.outside id, trivial⟩⟩
  sleep := by
    intro l c next h
    cases l <;> simp only [sleepCode, reduceCtorEq, Instr.sleep.injEq] at h
    obtain ⟨-, rfl⟩ := h
    exact ⟨trivial, trivial, fun _ _ ha =>
      ⟨trivial, rfl, fun h => h.elim, fun _ => ha.outside id, trivial⟩⟩
  again h _ := h.2
  entry := by
    rintro i l m ⟨⟩ _
    · exact ⟨id, fun _ ha => ⟨fun h => h.elim, fun _ => ha.outside id, trivial⟩⟩
    · exact ⟨id, fun _ ha => ⟨fun _ => ha.inside trivial, fun h => absurd trivial h, trivial⟩⟩
    · exact ⟨id, fun _ ha => ⟨fun h => (by cases h), fun _ => ha.outside id, trivial⟩⟩
    · exact ⟨id, fun _ ha => ⟨fun _ => ha.inside trivial, fun h => absurd rfl h, trivial⟩⟩
  stop := by
    intro l h
    cases l <;> simp only [sleepCode, reduceCtorEq] at h <;> exact id
  apart h _ _ _ _ _ hm hij ha hi := ha.apart hpid h hij (fun hs => absurd hs hm) hi
  asleep h _ _ _ _ _ hij ha hi := ⟨hi.1, ha.apart hpid h hij (fun _ => hi.1) hi.2⟩

/-! ## Wakeups -/

/-- Who sleeps waits for the holder. -/
def SleepWait (_ : Unit) (lk : SleepLock) : Prop := lk.locked = true

/-- The process has still to wake the sleepers. -/
def SleepOwes (l : SleepPoint) (_ : Unit) : Prop := l = .releaseWake

theorem sleep_wakes :
    Wakes (sleepCode pid) (SleepAssert pid) SleepWait SleepOwes fun _ => True where
  release := by
    rintro l next h i lk c - rfl
    cases h
  act := by
    intro l f h i k lk c ha _ hw
    cases l <;> simp only [sleepCode, reduceCtorEq, Instr.act.injEq] at h <;> subst h
    case acquireTest =>
      have hlocked := hw.resolve_right SleepPoint.noConfusion
      dsimp only
      split_ifs <;> exact .inl hlocked
    case acquireTake => exact .inl rfl
    case releaseClear => exact .inr rfl
    case holdingTest mine => exact .inl (hw.resolve_right SleepPoint.noConfusion)
  wakeup := by
    rintro l c next h i lk c' - hne -
    exact absurd rfl hne
  sleep := by
    intro l c next h i lk ha
    cases l <;> simp only [sleepCode, reduceCtorEq, Instr.sleep.injEq] at h
    exact ⟨ha.right, fun _ ho => by cases ho⟩

/-- While the lock is held, somebody has it. -/
theorem sleep_stands :
    Stands (sleepCode pid) sleepEntry (SleepAssert pid) SleepPoint.Inside
      (fun lk => lk.locked = true) where
  acquire := by
    intro l next h hl
    cases l <;> simp only [sleepCode, reduceCtorEq, Instr.acquire.injEq] at h <;> subst h <;>
      exact hl
  release := by
    intro l next h hl
    cases l <;> simp only [sleepCode, reduceCtorEq, Instr.release.injEq] at h <;> subst h
    case acquireRelease => trivial
    case releaseRelease => exact hl.elim
    case holdingRelease mine r =>
      have hmine : mine = true := hl
      rw [if_pos hmine]
      trivial
  act := by
    intro l f h i k lk ha hR
    cases l <;> simp only [sleepCode, reduceCtorEq, Instr.act.injEq] at h <;> subst h
    case acquireTest =>
      dsimp only at hR ⊢
      split_ifs at hR ⊢ with hlocked
      · exact .inr ⟨hlocked, id⟩
      · exact absurd hR hlocked
    case acquireTake => exact .inl trivial
    case releaseClear => cases hR
    case holdingTest mine =>
      cases mine
      · exact .inr ⟨hR, Bool.noConfusion⟩
      · exact .inl rfl
  wakeup := by
    intro l c next h hl
    cases l <;> simp only [sleepCode, reduceCtorEq] at h
    exact hl.elim
  sleep := by
    intro l c next h hl
    cases l <;> simp only [sleepCode, reduceCtorEq] at h
    exact hl.elim
  entry := by
    rintro i l m ⟨⟩ hl
    · exact hl.elim
    · trivial
    · exact hl.elim
    · rfl

/-! ## Runs -/

/-- A new lock, and nobody has it. -/
def sleepStart (killed : I → Bool) : State I SleepLock Unit SleepPoint where
  data := initsleeplock
  lock := none
  table := none
  thread i := ⟨.out none, .run, killed i⟩

theorem sleepStart_inv (killed : I → Bool) :
    Inv (sleepCode pid) SleepPoint.Spins (fun _ => True) (SleepAssert pid) (SleepAsleep pid)
      (sleepStart killed) where
  lock i := ⟨fun h => (by cases h), fun h => h.elim⟩
  table i := ⟨fun h => (by cases h), fun h => h.elim⟩
  free _ := trivial
  holds i := ⟨fun h => h.elim, fun _ h => (by cases h), fun h => (by cases h)⟩
  fits _ := trivial

section Runs

variable {killed : I → Bool} {as : List (Label I SleepPoint Empty)}
  {s : State I SleepLock Unit SleepPoint}

/-- Who sleeps has not the lock. -/
theorem asleep_outside
    (h : Inv (sleepCode pid) SleepPoint.Spins (fun _ => True) (SleepAssert pid) (SleepAsleep pid) s)
    {i : I} {c : Unit} {next : SleepPoint} (hp : (s.thread i).phase = .asleep c next) :
    ¬ (s.thread i).point.Inside := by
  have hfits := h.fits i
  rw [Thread.Fits, hp] at hfits
  dsimp only at hfits
  intro hi
  cases hl : (s.thread i).point <;> rw [hl] at hfits hi <;>
    simp only [sleepCode, reduceCtorEq] at hfits
  exact hi

/-- Who has the sleep lock is not in `sleep` or `wakeup`. -/
theorem SleepAssert.holder
    (h : Inv (sleepCode pid) SleepPoint.Spins (fun _ => True) (SleepAssert pid) (SleepAsleep pid) s)
    {i : I} (hi : (s.thread i).point.Inside) :
    SleepAssert pid i (s.thread i).point s.data := by
  obtain ⟨-, -, hh, hfits⟩ := h.one (i := i) rfl
  generalize s.thread i = t at *
  obtain ⟨l, p, k⟩ := t
  have hquiet : ∀ {c next}, sleepCode pid l ≠ .sleep c next := by
    intro c next hc
    cases l <;> simp only [sleepCode, reduceCtorEq] at hc
    exact hi
  cases p with
  | run => exact hh
  | waking c next => exact hh
  | enter c next => exact hh
  | leave c next => exact absurd hfits hquiet
  | asleep c next => exact absurd hfits hquiet
  | woken next => exact absurd hfits.choose_spec hquiet
  | back next => exact absurd hfits.choose_spec hquiet
  | again next => exact absurd hfits.choose_spec hquiet

variable [DecidableEq I]

/-- **Mutual exclusion**: one process at a time has the lock, the lock says that it is held and
by whom, and `holdingsleep` answers who asks. -/
theorem sleeplock_safe (hpid : Function.Injective pid)
    (h : Run (Step (sleepCode pid) sleepEntry) (sleepStart killed) as s) :
    (∀ i j, (s.thread i).point.Inside → (s.thread j).point.Inside → i = j) ∧
      (s.data.locked = true ↔ ∃ i, (s.thread i).point.Inside) ∧
      (∀ i, (s.thread i).point.Inside → s.data.pid = pid i) ∧
      ∀ i r, ((s.thread i).point = .inside (some r) → r = true) ∧
        ((s.thread i).point = .out (some r) → r = false) := by
  have hinv := run_inv (sleep_outline hpid) h (sleepStart_inv killed)
  have hheld : ∀ i, (s.thread i).point.Inside → s.data.locked = true ∧ s.data.pid = pid i :=
    fun i hi => (SleepAssert.holder hinv hi).inside hi
  refine ⟨fun i j hi hj => ?_, ⟨?_, ?_⟩, fun i hi => (hheld i hi).2, fun i r => ⟨?_, ?_⟩⟩
  · exact hpid ((hheld i hi).2.symm.trans (hheld j hj).2)
  · exact run_stands (sleep_outline hpid) sleep_stands h (sleepStart_inv killed)
      fun hlocked => by cases hlocked
  · rintro ⟨i, hi⟩
    exact (hheld i hi).1
  · intro hp
    have hknown := (hinv.stopped (i := i) (by rw [hp]; rfl)).right
    rw [hp] at hknown
    exact (Bool.not_eq_false _).mp fun hr => hknown (congrArg some hr)
  · intro hp
    have hknown := (hinv.stopped (i := i) (by rw [hp]; rfl)).right
    rw [hp] at hknown
    exact (Bool.not_eq_true _).mp fun hr => hknown (congrArg some hr)

/-- **No wakeup is lost**: a process sleeps while another one has the lock; and where nobody can
go on, who has not returned waits for a process that keeps the lock. -/
theorem sleeplock_waits (hpid : Function.Injective pid)
    (h : Run (Step (sleepCode pid) sleepEntry) (sleepStart killed) as s) :
    (s.lock = none → ∀ i c next, (s.thread i).phase = .asleep c next →
      ∃ j, j ≠ i ∧ (s.thread j).point.Inside) ∧
    ((∀ i e s', ¬ Step (sleepCode pid) sleepEntry s (.step i e) s') →
      ∀ i, (∃ r, (s.thread i).point = .out r ∨ (s.thread i).point = .inside r) ∨
        ∃ c next j r, (s.thread i).phase = .asleep c next ∧ (s.thread j).point = .inside r) := by
  have hinv := run_inv (sleep_outline hpid) h (sleepStart_inv killed)
  have hwaits : Waits SleepWait SleepOwes s := by
    refine run_waits (sleep_outline hpid) sleep_wakes h (fun a _ => ?_) (sleepStart_inv killed)
      fun _ _ hw => hw.elim
    cases a <;> trivial
  have hholder := run_stands (sleep_outline hpid) sleep_stands h (sleepStart_inv killed)
    fun hlocked => by cases hlocked
  refine ⟨fun hfree i c next hp => ?_, fun hstuck i => ?_⟩
  · obtain ⟨j, hj⟩ := hholder (asleep_waits hwaits hfree hp)
    refine ⟨j, ?_, hj⟩
    rintro rfl
    exact asleep_outside hinv hp hj
  · have heach := stuck_waits (sleep_outline hpid) hinv hwaits hstuck
    -- a holder that can do nothing is between two calls
    have hkeeps : ∀ j, (s.thread j).point.Inside → ∃ r, (s.thread j).point = .inside r := by
      intro j hj
      rcases heach j with hstop | ⟨c, next, hp, -⟩
      · generalize (s.thread j).point = l at hstop hj
        cases l <;> simp only [sleepCode, reduceCtorEq] at hstop
        · exact hj.elim
        · exact ⟨_, rfl⟩
      · exact absurd hj (asleep_outside hinv hp)
    rcases heach i with hstop | ⟨c, next, hp, hlocked⟩
    · left
      generalize (s.thread i).point = l at hstop
      cases l <;> simp only [sleepCode, reduceCtorEq] at hstop
      · exact ⟨_, .inl rfl⟩
      · exact ⟨_, .inr rfl⟩
    · obtain ⟨j, hj⟩ := hholder hlocked
      obtain ⟨r, hr⟩ := hkeeps j hj
      exact .inr ⟨c, next, j, r, hp, hr⟩

end Runs

/-! ## A run of two processes -/

/-- The ids of two processes. -/
def twoPids (i : Bool) : Nat := if i then 2 else 1

theorem twoPids_injective : Function.Injective twoPids := by
  intro i j h
  cases i <;> cases j <;> first | rfl | cases h

/-- Process `true` takes the lock. -/
theorem takes_lock : ∃ (as : List (Label Bool SleepPoint Empty))
    (s : State Bool SleepLock Unit SleepPoint),
    Run (Step (sleepCode twoPids) sleepEntry) (sleepStart fun _ => false) as s ∧
      s.lock = none ∧ s.thread = Function.update (fun _ => ⟨.out none, .run, false⟩) true
        ⟨.inside none, .run, false⟩ := by
  have hstart : Run (Step (sleepCode twoPids) sleepEntry) (sleepStart fun _ => false) _ _ :=
    .single (.start (i := true) rfl rfl (.acquire none))
  have hacquire := hstart.snoc (.acquire (i := true) rfl rfl rfl)
  have htest := hacquire.snoc (.act (i := true) rfl rfl rfl)
  have htake := htest.snoc (.act (i := true) rfl rfl rfl)
  have hrelease := htake.snoc (.release (i := true) rfl rfl)
  refine ⟨_, _, hrelease, rfl, ?_⟩
  funext i
  cases i <;> rfl

theorem sleeplock_safe_two : ∃ s : State Bool SleepLock Unit SleepPoint,
    s.thread true = ⟨.inside none, .run, false⟩ ∧
    (∀ i j, (s.thread i).point.Inside → (s.thread j).point.Inside → i = j) ∧
      (s.data.locked = true ↔ ∃ i, (s.thread i).point.Inside) ∧
      (∀ i, (s.thread i).point.Inside → s.data.pid = twoPids i) ∧
      ∀ i r, ((s.thread i).point = .inside (some r) → r = true) ∧
        ((s.thread i).point = .out (some r) → r = false) := by
  obtain ⟨as, s, hrun, -, hthread⟩ := takes_lock
  exact ⟨s, by rw [hthread]; rfl, sleeplock_safe twoPids_injective hrun⟩

theorem sleeplock_waits_two : ∃ s : State Bool SleepLock Unit SleepPoint,
    s.thread true = ⟨.inside none, .run, false⟩ ∧
    (s.lock = none → ∀ i c next, (s.thread i).phase = .asleep c next →
      ∃ j, j ≠ i ∧ (s.thread j).point.Inside) ∧
    ((∀ i e s', ¬ Step (sleepCode twoPids) sleepEntry s (.step i e) s') →
      ∀ i, (∃ r, (s.thread i).point = .out r ∨ (s.thread i).point = .inside r) ∨
        ∃ c next j r, (s.thread i).phase = .asleep c next ∧ (s.thread j).point = .inside r) := by
  obtain ⟨as, s, hrun, -, hthread⟩ := takes_lock
  exact ⟨s, by rw [hthread]; rfl, sleeplock_waits twoPids_injective hrun⟩

end CS537.Xv6
