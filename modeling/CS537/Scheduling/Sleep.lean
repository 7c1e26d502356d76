import CS537.Scheduling.Step

/-!
# Scheduling — timed sleep and ordinary wakeups

`wakeup1` counts every wakeup of the kernel in every sleeping process, and
lets a process go only once the count reaches `sleepTicks`. Two consequences:

* a process killed in `sys_sleep` keeps its counters, and an ordinary wakeup
  no longer reaches it afterwards. `no_lost_wakeup` says when none is lost;
* the wakeups of other channels shorten a timed sleep. `sysSleep_exact` says
  when it lasts the ticks it asked for.
-/

namespace CS537.Scheduling

open MachineInt

/-! ## The counters under `wakeup1` -/

/-- A sleeper that can be counted `r` more times without overflow. -/
def Proc.Room (r : Nat) (p : Proc) : Prop :=
  p.state = .sleeping → p.sleepTicksCount + r < 2147483648

/-- How a sleeper leaves `wakeup1`. -/
theorem wake_sleeping {chan : Option Chan} {p : Proc} (h : p.state = .sleeping) :
    wake chan p =
      if p.chan = chan ∧ p.sleepTicks ≤ i32 (p.sleepTicksCount + 1) then
        { p with boostsleft := i32 (p.boostsleft + 1), state := .runnable,
                 sleepTicksCount := 0, sleepTicks := 0 }
      else
        { p with boostsleft := i32 (p.boostsleft + 1),
                 sleepTicksCount := i32 (p.sleepTicksCount + 1) } := by
  simp only [wake, if_pos h, ge_iff_le]

/-- The same without overflow. -/
theorem wake_of_sleeping {chan : Option Chan} {p : Proc} (h : p.state = .sleeping)
    (h0 : 0 ≤ p.sleepTicksCount) (hr : p.Room 1) :
    wake chan p =
      if p.chan = chan ∧ p.sleepTicks ≤ p.sleepTicksCount + 1 then
        { p with boostsleft := i32 (p.boostsleft + 1), state := .runnable,
                 sleepTicksCount := 0, sleepTicks := 0 }
      else
        { p with boostsleft := i32 (p.boostsleft + 1),
                 sleepTicksCount := p.sleepTicksCount + 1 } := by
  have hc : i32 (p.sleepTicksCount + 1) = p.sleepTicksCount + 1 :=
    i32_of_mem (by omega) (by have := hr h; omega)
  rw [wake_sleeping h, hc]

/-- A process waiting for ticks sleeps through the wakeups of other channels,
and counts them. -/
theorem wakes_other {cs : List (Option Chan)} :
    ∀ {p : Proc}, p.state = .sleeping → p.chan = some .ticks → 0 ≤ p.sleepTicksCount →
    (∀ c ∈ cs, c ≠ some .ticks) → p.Room cs.length →
    ∃ b, wakes cs p =
      { p with boostsleft := b, sleepTicksCount := p.sleepTicksCount + cs.length } := by
  induction cs with
  | nil => intro p _ _ _ _ _; exact ⟨p.boostsleft, by simp⟩
  | cons c cs ih =>
      intro p hs hc h0 hne hr
      have hroom : p.sleepTicksCount + (cs.length + 1) < 2147483648 := by
        simpa using hr hs
      have hstay : ¬ (p.chan = c ∧ p.sleepTicks ≤ p.sleepTicksCount + 1) := by
        rintro ⟨he, -⟩
        exact hne c (by simp) (he ▸ hc)
      obtain ⟨q, hq⟩ : ∃ q, q = wake c p := ⟨_, rfl⟩
      have hwake : q = { p with boostsleft := i32 (p.boostsleft + 1),
                                sleepTicksCount := p.sleepTicksCount + 1 } := by
        rw [hq, wake_of_sleeping hs h0 (fun _ => by omega), if_neg hstay]
      obtain ⟨b, hb⟩ := ih (p := q) (by rw [hwake]; exact hs) (by rw [hwake]; exact hc)
        (by rw [hwake]; simp; omega) (fun x hx => hne x (by simp [hx]))
        (fun _ => by rw [hwake]; simp; omega)
      refine ⟨b, ?_⟩
      rw [wakes_cons, ← hq, hb, hwake]
      simp only [List.length_cons, Proc.mk.injEq, true_and, and_true]
      omega

/-! ## No lost wakeup -/

/-- What keeps an ordinary wakeup from being lost: unless the process waits
for ticks, the next call of `wakeup1` brings its count to `sleepTicks`. -/
structure Counted (p : Proc) : Prop where
  nonneg : 0 ≤ p.sleepTicksCount
  due : p.state = .sleeping ∧ p.chan = some .ticks ∨ p.sleepTicks ≤ p.sleepTicksCount + 1

theorem Counted.of_awake {p : Proc} (h : Counted p) (hs : p.state ≠ .sleeping) :
    p.sleepTicks ≤ p.sleepTicksCount + 1 := by
  rcases h.due with ⟨hsleep, -⟩ | hdue
  · exact absurd hsleep hs
  · exact hdue

theorem Counted.same {p q : Proc} (h : Counted p) (hs : SameSleep p q) : Counted q := by
  obtain ⟨_, _, _, _, rfl⟩ := hs
  exact ⟨h.nonneg, h.due⟩

theorem Counted.wake {chan : Option Chan} {p : Proc} (h : Counted p) (hr : p.Room 1) :
    Counted (wake chan p) := by
  by_cases hs : p.state = .sleeping
  · rw [wake_of_sleeping hs h.nonneg hr]
    split
    · exact ⟨Int.le_refl 0, .inr (by simp)⟩
    · refine ⟨by have := h.nonneg; simp; omega, ?_⟩
      rcases h.due with hticks | hdue
      · exact .inl hticks
      · exact .inr (by simp; omega)
  · rwa [wake_of_not_sleeping hs]

/-- One call of `wakeup1` uses up one unit of room. -/
theorem Proc.Room.wake {chan : Option Chan} {p : Proc} {r : Nat} (h : Counted p)
    (hr : p.Room (r + 1)) : (wake chan p).Room r := by
  by_cases hs : p.state = .sleeping
  · have hroom := hr hs
    rw [wake_of_sleeping hs h.nonneg (fun _ => by omega)]
    split
    · intro hs'; cases hs'
    · intro _; simp; omega
  · rw [wake_of_not_sleeping hs]
    exact fun hs' => absurd hs' hs

theorem Counted.wakes {cs : List (Option Chan)} :
    ∀ {p : Proc}, Counted p → p.Room cs.length → Counted (wakes cs p) := by
  induction cs with
  | nil => intro p h _; exact h
  | cons c cs ih =>
      intro p h hr
      rw [wakes_cons]
      refine ih (h.wake fun hs => ?_) (Proc.Room.wake h hr)
      have := hr hs
      simp at this
      omega

/-- The counter has room for the calls of `wakeup1` an event makes. -/
def Proc.RoomFor (p : Proc) : Event → Prop
  | .tick | .wakeup _ => p.Room 1
  | .exit _ => p.Room (nproc + 1)
  | _ => True

/-- The events that keep wakeups from being lost to a process: its counter has
room, and `kill` does not reach it in `sys_sleep` with ticks left to count. -/
def Proc.KeepsCount (p : Proc) (e : Event) : Prop :=
  p.RoomFor e ∧
  (e = .kill p.pid → p.state = .sleeping → p.chan = some .ticks →
    p.sleepTicks ≤ p.sleepTicksCount + 1)

/-- The steps that keep wakeups from being lost. -/
def KeepsCount (k : Kernel) (e : Event) : Prop := ∀ s, (k.proc s).KeepsCount e

instance (r : Nat) (p : Proc) : Decidable (p.Room r) :=
  inferInstanceAs (Decidable (p.state = .sleeping → p.sleepTicksCount + r < 2147483648))

instance (p : Proc) : (e : Event) → Decidable (p.RoomFor e)
  | .tick | .wakeup _ => inferInstanceAs (Decidable (p.Room 1))
  | .exit _ => inferInstanceAs (Decidable (p.Room (nproc + 1)))
  | .schedule | .yield _ | .sleep _ _ | .sysSleep _ _ | .kill _ | .fault _ | .fork _ _ | .wait _
  | .settickets _ _ => .isTrue trivial

instance (p : Proc) (e : Event) : Decidable (p.KeepsCount e) :=
  inferInstanceAs (Decidable (p.RoomFor e ∧
    (e = .kill p.pid → p.state = .sleeping → p.chan = some .ticks →
      p.sleepTicks ≤ p.sleepTicksCount + 1)))

instance (k : Kernel) (e : Event) : Decidable (KeepsCount k e) :=
  inferInstanceAs (Decidable (∀ s, (k.proc s).KeepsCount e))

/-- One step keeps `Counted`, in each slot. -/
theorem Counted.step {k k' : Kernel} {e : Event} (h : Step k e k') (t : Slot)
    (hok : (k.proc t).KeepsCount e) (hc : Counted (k.proc t)) : Counted (k'.proc t) := by
  obtain ⟨hroom, hkill⟩ := hok
  have hchange := step_slot h t
  generalize k'.proc t = q at hchange ⊢
  cases hchange with
  | keep _ hs => exact hc.same hs
  | run _ hr hs =>
      have hq := hc.same hs
      obtain ⟨_, _, _, _, rfl⟩ := hs
      exact ⟨hq.nonneg, .inr (hc.of_awake (by rw [hr]; decide))⟩
  | yield _ hr => exact ⟨hc.nonneg, .inr (hc.of_awake (by rw [hr]; decide))⟩
  | sleep _ _ hr => exact ⟨hc.nonneg, .inr (hc.of_awake (by rw [hr]; decide))⟩
  | sysSleep _ _ _ => exact ⟨hc.nonneg, .inl ⟨rfl, rfl⟩⟩
  | tick he =>
      subst he
      exact hc.wake hroom
  | wakeup _ he _ =>
      subst he
      exact hc.wake hroom
  | exiting _ _ _ he hlen _ _ =>
      subst he
      have hw := hc.wakes fun hs => Int.lt_of_le_of_lt
        (Int.add_le_add_left (Int.ofNat_le.mpr hlen) _) (hroom hs)
      exact ⟨hw.nonneg, hw.due⟩
  | exited _ _ hr => exact ⟨hc.nonneg, .inr (hc.of_awake (by rw [hr]; decide))⟩
  | kill he =>
      refine ⟨hc.nonneg, .inr ?_⟩
      rcases hc.due with ⟨hs, hchan⟩ | hdue
      · exact hkill he hs hchan
      · exact hdue
  | fault _ hr => exact ⟨hc.nonneg, .inr (hc.of_awake (by rw [hr]; decide))⟩
  | aborted _ _ _ _ _ hu hq _ _ _ hcount =>
      have hdue := hc.of_awake (by rw [hu]; decide)
      have hnonneg := hc.nonneg
      rcases hcount with ⟨h1, h2⟩ | ⟨h1, h2⟩
      · exact ⟨by omega, .inr (by omega)⟩
      · exact ⟨by omega, .inr (by omega)⟩
  | forked => exact ⟨Int.le_refl 0, .inr (by simp)⟩
  | reaped _ _ hz => exact ⟨hc.nonneg, .inr (hc.of_awake (by rw [hz]; decide))⟩

theorem counted_boot (t : Slot) : Counted (boot.proc t) := by
  unfold boot
  by_cases ht : t = 0 <;> simp only [ht, if_true, if_false] <;>
    exact ⟨Int.le_refl 0, .inr (by decide)⟩

theorem counted_reachable {k : Kernel}
    (h : Lts.Reachable (· = boot) (Lts.Guarded KeepsCount Step) k) (t : Slot) :
    Counted (k.proc t) := by
  refine Lts.Reachable.invariant (I := fun k => ∀ t, Counted (k.proc t)) ?_ ?_ h t
  · rintro k rfl
    exact counted_boot
  · exact fun k e k' hk hs t => (hk t).step hs.2 t (hs.1 t)

/-- **No lost wakeup**: along a run whose steps keep the counters, a process
asleep on an ordinary channel is one count short of waking at most, and no
process is left asleep on a channel just woken. -/
theorem no_lost_wakeup {k : Kernel}
    (h : Lts.Reachable (· = boot) (Lts.Guarded KeepsCount Step) k) :
    (∀ s chan, chan ≠ .ticks → (k.proc s).state = .sleeping → (k.proc s).chan = some chan →
      (k.proc s).sleepTicks ≤ (k.proc s).sleepTicksCount + 1) ∧
    ∀ chan k', KeepsCount k (.wakeup chan) → Step k (.wakeup chan) k' →
      ∀ s, ¬ ((k'.proc s).state = .sleeping ∧ (k'.proc s).chan = some chan) := by
  have hdue : ∀ s chan, chan ≠ .ticks → (k.proc s).state = .sleeping →
      (k.proc s).chan = some chan →
      (k.proc s).sleepTicks ≤ (k.proc s).sleepTicksCount + 1 := by
    intro s chan hne hs hc
    rcases (counted_reachable h s).due with ⟨-, hticks⟩ | hd
    · rw [hticks] at hc
      cases hc
      exact absurd rfl hne
    · exact hd
  refine ⟨hdue, ?_⟩
  rintro chan k' hok hstep s ⟨hs', hc'⟩
  simp only [Step, Scheduling.step, Option.ite_none_left_eq_some, Option.some.injEq] at hstep
  obtain ⟨hne, rfl⟩ := hstep
  rw [wakeup1_proc] at hs' hc'
  by_cases hs : (k.proc s).state = .sleeping
  · rw [wake_of_sleeping hs (counted_reachable h s).nonneg (hok s).1] at hs' hc'
    by_cases hwoken : (k.proc s).chan = some chan ∧
        (k.proc s).sleepTicks ≤ (k.proc s).sleepTicksCount + 1
    · rw [if_pos hwoken] at hs'
      cases hs'
    · rw [if_neg hwoken] at hc'
      exact hwoken ⟨hc', hdue s chan hne hs hc'⟩
  · rw [wake_of_not_sleeping hs] at hs'
    exact hs hs'

/-- The init process asleep on channel 7, two ticks later. -/
theorem asleepOnSeven :
    (Lts.exec (fun k e => if KeepsCount k e then step k e else none) boot
      [.schedule, .sleep 0 (.other 7), .tick, .tick]).map (fun k =>
        decide ((k.proc 0).chan = some (.other 7) ∧ KeepsCount k (.wakeup (.other 7))))
      = some true := by
  decide +kernel

theorem no_lost_wakeup_seven :
    ∃ k k', (k.proc 0).chan = some (.other 7) ∧ Step k (.wakeup (.other 7)) k' ∧
      ¬ ((k'.proc 0).state = .sleeping ∧ (k'.proc 0).chan = some (.other 7)) := by
  obtain ⟨k, hk, hfacts⟩ := Option.map_eq_some_iff.mp asleepOnSeven
  obtain ⟨hc, hok⟩ := of_decide_eq_true hfacts
  refine ⟨k, wakeup1 (some (.other 7)) k, hc, rfl, ?_⟩
  exact (no_lost_wakeup ⟨boot, _, rfl, .of_exec_guarded hk⟩).2 (.other 7) _ hok rfl 0

/-- A process (slot 1) killed two ticks into `sys_sleep(5)` that waits for the
log on its way out: channel 7 stands for `&log`. -/
def killedAsleep : List Event :=
  [.schedule, .fork 0 .enough, .schedule, .sysSleep 1 5, .tick, .tick, .kill 2,
    .schedule, .sleep 1 (.other 7)]

theorem killedAsleep_stuck :
    (Lts.exec step boot killedAsleep).map (fun k =>
      (((wakeup1 (some (.other 7)) k).proc 1).state,
        ((wakeup1 (some (.other 7)) k).proc 1).chan))
      = some (.sleeping, some (.other 7)) := by
  decide +kernel

/-- `kill` during `sys_sleep` makes a later wakeup miss: the claim that a
wakeup leaves no sleeper on its channel fails in a reachable state. -/
theorem wakeup_can_be_lost :
    ¬ ∀ k, Lts.Reachable (· = boot) Step k → ∀ chan k', Step k (.wakeup chan) k' →
      ∀ s, ¬ ((k'.proc s).state = .sleeping ∧ (k'.proc s).chan = some chan) := by
  intro h
  obtain ⟨k, hk, hstuck⟩ := Option.map_eq_some_iff.mp killedAsleep_stuck
  have hreach : Lts.Reachable (· = boot) Step k := ⟨boot, killedAsleep, rfl, .of_exec hk⟩
  refine h k hreach (.other 7) (wakeup1 (some (.other 7)) k) rfl 1 ?_
  exact ⟨congrArg Prod.fst hstuck, congrArg Prod.snd hstuck⟩

/-! ## Timed sleep -/

/-- The timer ticks among the events of a run. -/
def ticksIn (es : List Event) : Nat := es.count .tick

theorem ticksIn_snoc (es : List Event) (e : Event) :
    ticksIn (es ++ [e]) = ticksIn es + if e = .tick then 1 else 0 := by
  simp [ticksIn, List.count_append, List.count_singleton, beq_iff_eq]

/-- The events that call `wakeup1` for another channel than `&ticks`. -/
def WakesOthers : Event → Prop
  | .wakeup _ | .exit _ => True
  | _ => False

/-- No other channel is woken before the `(n-1)`-th tick. -/
def QuietUntilLast (n : Int) (es : List Event) : Prop :=
  ∀ pre e post, es = pre ++ e :: post → WakesOthers e → n ≤ ticksIn pre + 1

theorem quietUntilLast_nil (n : Int) : QuietUntilLast n [] := by
  intro pre e post he
  simp at he

theorem quietUntilLast_snoc {n : Int} {es : List Event} {e : Event} :
    QuietUntilLast n (es ++ [e]) ↔
      QuietUntilLast n es ∧ (WakesOthers e → n ≤ ticksIn es + 1) := by
  constructor
  · refine fun h => ⟨fun pre x post he hx => ?_, fun he => h es e [] rfl he⟩
    exact h pre x (post ++ [e]) (by rw [he]; simp) hx
  · rintro ⟨h, hlast⟩ pre x post he hx
    rcases post.eq_nil_or_concat with rfl | ⟨post', y, rfl⟩
    · obtain ⟨rfl, hex⟩ := List.append_inj' he rfl
      cases hex
      exact hlast hx
    · rw [List.concat_eq_append, ← List.cons_append, ← List.append_assoc] at he
      exact h pre x post' (List.append_inj' he rfl).1 hx

/-- The counters of a process that is not asleep and was not killed are clear,
so a timed sleep starts counting at zero. -/
def FreshCount (p : Proc) : Prop :=
  p.state = .runnable ∨ p.state = .running → p.killed = false → p.sleepTicksCount = 0

theorem FreshCount.wake {p : Proc} (h : FreshCount p) (chan : Option Chan) :
    FreshCount (wake chan p) := by
  by_cases hs : p.state = .sleeping
  · rw [wake_sleeping hs]
    split
    · exact fun _ _ => rfl
    · intro hs'
      simp [hs] at hs'
  · rwa [wake_of_not_sleeping hs]

theorem FreshCount.wakes {cs : List (Option Chan)} :
    ∀ {p : Proc}, FreshCount p → FreshCount (wakes cs p) := by
  induction cs with
  | nil => exact fun h => h
  | cons c cs ih => exact fun h => ih (h.wake c)

theorem FreshCount.step {k k' : Kernel} {e : Event} (h : Step k e k') (t : Slot)
    (hf : FreshCount (k.proc t)) : FreshCount (k'.proc t) := by
  have hchange := step_slot h t
  generalize k'.proc t = q at hchange ⊢
  cases hchange with
  | keep _ hs =>
      obtain ⟨_, _, _, _, rfl⟩ := hs
      exact hf
  | run _ hr hs =>
      obtain ⟨_, _, _, _, rfl⟩ := hs
      exact fun _ hk => hf (.inl hr) hk
  | yield _ hr => exact fun _ hk => hf (.inr hr) hk
  | sleep => intro hs; simp at hs
  | sysSleep => intro hs; simp at hs
  | tick => exact hf.wake _
  | wakeup => exact hf.wake _
  | exiting => exact hf.wakes
  | exited => intro hs; simp at hs
  | kill => intro _ hk; simp at hk
  | fault => intro _ hk; simp at hk
  | aborted _ _ _ _ _ _ hu => intro hs; simp [hu] at hs
  | forked => exact fun _ _ => rfl
  | reaped => intro hs; simp at hs

theorem freshCount_reachable {k : Kernel} (h : Lts.Reachable (· = boot) Step k) (t : Slot) :
    FreshCount (k.proc t) := by
  refine Lts.Reachable.invariant (I := fun k => ∀ t, FreshCount (k.proc t)) ?_ ?_ h t
  · rintro k rfl t _ _
    unfold boot
    by_cases ht : t = 0 <;> simp [ht, Proc.zero]
  · exact fun k e k' hk hs t => (hk t).step hs t

/-- The process `pid`, `m` ticks into `sys_sleep(n)`, counted by nothing but
ticks unless the next one is its last. -/
structure MidSleep (pid n : Int) (m : Nat) (p : Proc) : Prop where
  who : p.pid = pid
  state : p.state = .sleeping
  chan : p.chan = some .ticks
  target : p.sleepTicks = n
  ticked : (m : Int) ≤ p.sleepTicksCount
  sharp : (m : Int) + 1 < n → p.sleepTicksCount = m

/-- A tick before the last leaves it asleep, one tick further on. -/
theorem MidSleep.tick {pid n : Int} {m : Nat} {p : Proc} (h : MidSleep pid n m p)
    (hr : p.Room 1) (hm : (m : Int) + 1 < n) :
    MidSleep pid n (m + 1) (wake (some .ticks) p) := by
  have hcount := h.sharp hm
  have hstay : ¬ (p.chan = some .ticks ∧ p.sleepTicks ≤ p.sleepTicksCount + 1) := by
    rintro ⟨-, hle⟩
    rw [h.target, hcount] at hle
    omega
  rw [wake_of_sleeping h.state (by omega) hr, if_neg hstay]
  exact ⟨h.who, h.state, h.chan, h.target, by simp; omega, fun _ => by simp [hcount]⟩

/-- The last tick wakes it. -/
theorem MidSleep.last {pid n : Int} {m : Nat} {p : Proc} (h : MidSleep pid n m p)
    (hr : p.Room 1) (hm : (m : Int) + 1 = n) : (wake (some .ticks) p).state = .runnable := by
  have hticked := h.ticked
  have hgo : p.chan = some .ticks ∧ p.sleepTicks ≤ p.sleepTicksCount + 1 :=
    ⟨h.chan, by rw [h.target]; omega⟩
  rw [wake_of_sleeping h.state (by omega) hr, if_pos hgo]

/-- Wakeups of other channels pass a process waiting for its last tick by. -/
theorem MidSleep.others {pid n : Int} {m : Nat} {p : Proc} {cs : List (Option Chan)}
    (h : MidSleep pid n m p) (hne : ∀ c ∈ cs, c ≠ some .ticks) (hr : p.Room cs.length)
    (hm : n ≤ (m : Int) + 1) : MidSleep pid n m (wakes cs p) := by
  have hticked := h.ticked
  obtain ⟨b, hb⟩ := wakes_other h.state h.chan (by omega) hne hr
  rw [hb]
  exact ⟨h.who, h.state, h.chan, h.target, by simp; omega, fun hlt => by omega⟩

/-- One step of a run in which the process is neither killed nor counted too
early. -/
theorem MidSleep.step {pid n : Int} {m : Nat} {k k' : Kernel} {e : Event} {s : Slot}
    (h : MidSleep pid n m (k.proc s)) (hstep : Step k e k') (hok : (k.proc s).RoomFor e)
    (hkill : e ≠ .kill pid) (hquiet : WakesOthers e → n ≤ (m : Int) + 1)
    (hm : e = .tick → (m : Int) + 1 < n) :
    MidSleep pid n (m + if e = .tick then 1 else 0) (k'.proc s) := by
  have hasleep := h.state
  have hchange := step_slot hstep s
  generalize k'.proc s = q at hchange ⊢
  cases hchange with
  | keep he hs =>
      obtain ⟨_, _, _, _, rfl⟩ := hs
      have ht : e ≠ .tick := by rintro rfl; exact he trivial
      rw [if_neg ht, Nat.add_zero]
      exact ⟨h.who, h.state, h.chan, h.target, h.ticked, h.sharp⟩
  | run _ hr => rw [hr] at hasleep; cases hasleep
  | yield _ hr => rw [hr] at hasleep; cases hasleep
  | sleep _ _ hr => rw [hr] at hasleep; cases hasleep
  | sysSleep _ _ hr => rw [hr] at hasleep; cases hasleep
  | tick he =>
      subst he
      exact h.tick hok (hm rfl)
  | wakeup c he hne =>
      subst he
      have hw : MidSleep pid n m (wakes [some c] (k.proc s)) :=
        h.others (by simpa using hne) hok (hquiet trivial)
      exact hw
  | exiting _ cs _ he hlen _ hne =>
      subst he
      have hw := h.others hne (fun hs => Int.lt_of_le_of_lt
        (Int.add_le_add_left (Int.ofNat_le.mpr hlen) _) (hok hs)) (hquiet trivial)
      exact ⟨hw.who, hw.state, hw.chan, hw.target, hw.ticked, hw.sharp⟩
  | exited _ _ hr => rw [hr] at hasleep; cases hasleep
  | kill he => exact absurd (h.who ▸ he) hkill
  | fault _ hr => rw [hr] at hasleep; cases hasleep
  | aborted _ _ _ _ _ hu => rw [hu] at hasleep; cases hasleep
  | forked _ _ _ _ _ hu => rw [hu] at hasleep; cases hasleep
  | reaped _ _ hz => rw [hz] at hasleep; cases hasleep

/-- Until its `n`-th tick a run leaves the process in its sleep. -/
theorem MidSleep.run {pid n : Int} {k k' : Kernel} {es : List Event} {s : Slot}
    (h : MidSleep pid n 0 (k.proc s))
    (hrun : Lts.Run (Lts.Guarded (fun k e => (k.proc s).RoomFor e) Step) k es k')
    (hkill : ∀ e ∈ es, e ≠ .kill pid) (hquiet : QuietUntilLast n es)
    (hn : (ticksIn es : Int) < n) : MidSleep pid n (ticksIn es) (k'.proc s) := by
  induction hrun with
  | nil => exact h
  | @snoc t u es e _ hs ih =>
      rw [ticksIn_snoc] at hn ⊢
      have hbefore : (ticksIn es : Int) < n := by omega
      have hmid := ih (fun e he => hkill e (by simp [he])) (quietUntilLast_snoc.mp hquiet).1 hbefore
      refine hmid.step hs.2 hs.1 (hkill e (by simp))
        (quietUntilLast_snoc.mp hquiet).2 (fun he => ?_)
      rw [if_pos he] at hn
      omega

/-- **A timed sleep lasts its ticks**: if no other channel is woken before the
`(n-1)`-th tick and the counters have room, a process that called
`sys_sleep(n)` and is not killed sleeps through the first `n - 1` ticks and is
`RUNNABLE` at the `n`-th. -/
theorem sysSleep_exact {k0 k : Kernel} {s : Slot} {n : Int}
    (hreach : Lts.Reachable (· = boot) Step k0) (halive : (k0.proc s).killed = false)
    (hsleep : Step k0 (.sysSleep s n) k) :
    ∀ es k', Lts.Run (Lts.Guarded (fun k e => (k.proc s).RoomFor e) Step) k es k' →
      (∀ e ∈ es, e ≠ .kill (k0.proc s).pid) → QuietUntilLast n es →
      ((ticksIn es : Int) < n → (k'.proc s).state = .sleeping) ∧
      ∀ pre, es = pre ++ [.tick] → (ticksIn es : Int) = n →
        (k'.proc s).state = .runnable := by
  have hfresh := freshCount_reachable hreach s
  simp only [Step, Scheduling.step, Option.ite_none_right_eq_some, Option.some.injEq] at hsleep
  obtain ⟨hrunning, rfl⟩ := hsleep
  have hstart : MidSleep (k0.proc s).pid n 0 ((sysSleep s n k0).proc s) := by
    have hcount := hfresh (.inr hrunning) halive
    simp only [sysSleep, sleep, Kernel.upd_proc, if_true]
    exact ⟨rfl, rfl, rfl, rfl, by simp [hcount], fun _ => by simpa using hcount⟩
  intro es k' hrun hkill hquiet
  refine ⟨fun hlt => (hstart.run hrun hkill hquiet hlt).state, ?_⟩
  rintro pre rfl hticks
  obtain ⟨k1, hpre, hok, htick⟩ := hrun.last
  rw [ticksIn_snoc, if_pos rfl] at hticks
  have hmid := hstart.run hpre (fun e he => hkill e (by simp [he]))
    (quietUntilLast_snoc.mp hquiet).1 (by omega)
  cases htick
  exact hmid.last hok (by omega)

/-- `sys_sleep(2)` by the init process, a wakeup of channel 7 between its two
ticks. -/
theorem sysSleep_two :
    ((step boot .schedule).bind fun k0 => (step k0 (.sysSleep 0 2)).bind fun k =>
      (Lts.exec (fun k e => if (k.proc 0).RoomFor e then step k e else none) k
        [.tick, .wakeup (.other 7), .tick]).map fun _ =>
          ((k0.proc 0).killed, (k0.proc 0).pid)) = some (false, 1) := by
  decide +kernel

theorem sysSleep_exact_two :
    ∃ k k' : Kernel, Lts.Run Step k [.tick, .wakeup (.other 7), .tick] k' ∧
      (k.proc 0).state = .sleeping ∧ (k'.proc 0).state = .runnable := by
  obtain ⟨k0, hk0, h⟩ := Option.bind_eq_some_iff.mp sysSleep_two
  obtain ⟨k, hk, h⟩ := Option.bind_eq_some_iff.mp h
  obtain ⟨k', hk', hfacts⟩ := Option.map_eq_some_iff.mp h
  simp only [Prod.mk.injEq] at hfacts
  have hrun := Lts.Run.of_exec_guarded hk'
  have hexact := sysSleep_exact (s := 0) (n := 2)
    ⟨boot, [.schedule], rfl, .single hk0⟩ hfacts.1 hk
  have hone : QuietUntilLast 2 ([] ++ [.tick]) :=
    quietUntilLast_snoc.mpr ⟨quietUntilLast_nil 2, nofun⟩
  have htwo : QuietUntilLast 2 ([] ++ [.tick] ++ [.wakeup (.other 7)]) :=
    quietUntilLast_snoc.mpr ⟨hone, fun _ => by decide⟩
  have hquiet : QuietUntilLast 2 ([] ++ [.tick] ++ [.wakeup (.other 7)] ++ [.tick]) :=
    quietUntilLast_snoc.mpr ⟨htwo, nofun⟩
  exact ⟨k, k', hrun.of_guarded,
    (hexact [] k (.nil k) (by simp) (quietUntilLast_nil 2)).1 (by decide),
    (hexact _ k' hrun (by simp) hquiet).2 [.tick, .wakeup (.other 7)] rfl (by decide)⟩

/-- `sys_sleep(2)`, an unrelated wakeup, and one tick. -/
def wokenEarly : List Event := [.wakeup (.other 7), .tick]

theorem wokenEarly_runnable :
    ((step boot .schedule).bind fun k0 => (step k0 (.sysSleep 0 2)).bind fun k =>
      (Lts.exec step k wokenEarly).map fun k' =>
        ((k0.proc 0).killed, (k0.proc 0).pid, (k'.proc 0).state))
      = some (false, 1, .runnable) := by
  decide +kernel

/-- One wakeup of another channel ends `sys_sleep(2)` at the first tick. -/
theorem sysSleep_can_end_early :
    ¬ ∀ (k0 k : Kernel) (s : Slot) (n : Int), Lts.Reachable (· = boot) Step k0 →
      (k0.proc s).killed = false → 1 ≤ n → Step k0 (.sysSleep s n) k →
      ∀ es k', Lts.Run Step k es k' → (∀ e ∈ es, e ≠ .kill (k0.proc s).pid) →
        (ticksIn es : Int) < n → (k'.proc s).state = .sleeping := by
  intro hclaim
  obtain ⟨k0, hk0, h⟩ := Option.bind_eq_some_iff.mp wokenEarly_runnable
  obtain ⟨k, hk, h⟩ := Option.bind_eq_some_iff.mp h
  obtain ⟨k', hk', hfacts⟩ := Option.map_eq_some_iff.mp h
  simp only [Prod.mk.injEq] at hfacts
  obtain ⟨hkilled, hpid, hrunnable⟩ := hfacts
  have hsleeping := hclaim k0 k 0 2 ⟨boot, [.schedule], rfl, .single hk0⟩ hkilled (by decide) hk
    wokenEarly k' (.of_exec hk') (by simp [wokenEarly]) (by decide)
  rw [hrunnable] at hsleeping
  cases hsleeping

end CS537.Scheduling
