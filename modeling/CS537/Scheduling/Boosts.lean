import CS537.Scheduling.Sleep

/-!
# Scheduling — the account of the boosts

`wakeup1` gives a boost to every `SLEEPING` process, whichever channel it wakes, and a
lottery takes one from every boosted `RUNNABLE` process. An account of one slot records both
beside the ticks and the lotteries they are meant for, from the last `allocproc` on; it
balances as long as only the timer wakes while the process sleeps.
-/

namespace CS537.Scheduling

open MachineInt

/-! ## What a step does to the boosts of one slot -/

/-- `allocproc` gives the slot to a new process. -/
def Allocates (k : Kernel) (t : Slot) : Event → Prop
  | .fork _ mem => mem ≠ .noKstack ∧ k.find (fun p => p.state = .unused) = some t
  | _ => False

instance (k : Kernel) (t : Slot) : (e : Event) → Decidable (Allocates k t e)
  | .fork _ mem =>
      inferInstanceAs (Decidable (mem ≠ .noKstack ∧ k.find (fun p => p.state = .unused) = some t))
  | .schedule | .yield _ | .sleep _ _ | .sysSleep _ _ | .tick | .wakeup _ | .kill _ | .fault _
  | .exit _ | .wait _ | .settickets _ _ => .isFalse id

/-- A lottery is held, and counts the tickets of the process twice. -/
def Doubles (k : Kernel) (t : Slot) (e : Event) : Prop :=
  e = .schedule ∧ totalTickets k ≠ 0 ∧ (k.proc t).state = .runnable ∧ 0 < (k.proc t).boostsleft

instance (k : Kernel) (t : Slot) (e : Event) : Decidable (Doubles k t e) :=
  inferInstanceAs (Decidable (_ ∧ _))

/-- The value of an `int` field. -/
def IsInt (z : Int) : Prop := -2147483648 ≤ z ∧ z < 2147483648

variable {k k' : Kernel} {e : Event} {t : Slot}

theorem upd_boostsleft {f : Proc → Proc} (hf : ∀ p, (f p).boostsleft = p.boostsleft)
    (k : Kernel) (s t : Slot) : ((k.upd s f).proc t).boostsleft = (k.proc t).boostsleft := by
  rw [Kernel.upd_proc]
  split
  · rename_i hts
    rw [hf, hts]
  · rfl

/-- The loop takes one boost from each boosted process it comes to. -/
theorem lotteryLoop_boostsleft (w : Nat) {ss : List Slot} (hnd : ss.Nodup) (count : Int)
    (winner : Option Slot) (k : Kernel) (hint : IsInt (k.proc t).boostsleft) :
    ((lotteryLoop w ss count winner k).2.proc t).boostsleft =
      if t ∈ ss ∧ (k.proc t).state = .runnable ∧ 0 < (k.proc t).boostsleft then
        (k.proc t).boostsleft - 1 else (k.proc t).boostsleft := by
  induction ss generalizing count winner k with
  | nil => simp [lotteryLoop]
  | cons s ss ih =>
      obtain ⟨hmem, hnd'⟩ := List.nodup_cons.mp hnd
      rw [lotteryLoop]
      by_cases hr : (k.proc s).state = .runnable
      · rw [if_pos hr]
        dsimp only
        generalize hk₁ : (if (k.proc s).boostsleft > 0 then
          k.upd s fun p => { p with boostsleft := i32 (p.boostsleft - 1) } else k) = k₁
        by_cases hts : t = s
        · -- this round is the one of the process
          subst hts
          have hnow : (k₁.proc t).boostsleft = if 0 < (k.proc t).boostsleft then
              (k.proc t).boostsleft - 1 else (k.proc t).boostsleft := by
            rw [← hk₁]
            split
            · rw [Kernel.upd_proc, if_pos rfl]
              apply i32_of_mem
              · omega
              · have := hint.2
                omega
            · rfl
          have hint₁ : IsInt (k₁.proc t).boostsleft := by
            rw [hnow]
            obtain ⟨h1, h2⟩ := hint
            split
            · exact ⟨by omega, by omega⟩
            · exact ⟨h1, h2⟩
          rw [ih hnd' _ _ k₁ hint₁, if_neg fun h => hmem h.1, hnow]
          simp [hr]
        · have hother : k₁.proc t = k.proc t := by
            rw [← hk₁]
            split
            · rw [Kernel.upd_proc, if_neg hts]
            · rfl
          rw [ih hnd' _ _ k₁ (by rw [hother]; exact hint), hother]
          simp [hts]
      · rw [if_neg hr, ih hnd' _ _ k hint]
        by_cases hts : t = s
        · subst hts
          simp [hr]
        · simp [hts]

theorem schedule_boostsleft (h : step k .schedule = some k') (hint : IsInt (k.proc t).boostsleft) :
    (k'.proc t).boostsleft =
      if Doubles k t .schedule then (k.proc t).boostsleft - 1 else (k.proc t).boostsleft := by
  rw [step, schedulerPass] at h
  by_cases hzero : totalTickets k = 0
  · rw [if_pos hzero] at h
    cases h
    rw [if_neg fun hd => hd.2.1 hzero]
  rw [if_neg hzero, holdLottery] at h
  by_cases hneg : totalTickets k ≤ 0
  · rw [if_pos hneg] at h
    cases h
  rw [if_neg hneg] at h
  dsimp only at h
  have hloop := @lotteryLoop_boostsleft t ((rand k).1 % toU32 (totalTickets k)) slots slots_nodup 0
    none (rand k).2 hint
  generalize lotteryLoop _ slots 0 none (rand k).2 = r at h hloop
  obtain ⟨w, k₁⟩ := r
  cases w with
  | none => cases h
  | some s =>
      cases h
      rw [resume, upd_boostsleft (f := fun p => { p with chan := none }) fun _ => rfl,
        upd_boostsleft (f := fun p =>
          { p with state := .running, runTicks := i32 (p.runTicks + 1) }) fun _ => rfl]
      dsimp only at hloop
      rw [hloop]
      simp [Doubles, mem_slots, hzero]

theorem wake_boostsleft {p : Proc} (hs : p.state = .sleeping) (chan : Option Chan) :
    (wake chan p).boostsleft = i32 (p.boostsleft + 1) := by
  rw [wake_sleeping hs]
  split
  · rfl
  · rfl

/-- The calls of `wakeup1` up to the one that lets the process go. -/
theorem wakes_boostsleft {cs : List (Option Chan)} {p : Proc} (hs : p.state = .sleeping)
    (hcs : 1 ≤ cs.length) : ∃ j : Nat, 1 ≤ j ∧ j ≤ cs.length ∧
      (wakes cs p).boostsleft = i32 (p.boostsleft + j) := by
  induction cs generalizing p with
  | nil => simp at hcs
  | cons c cs ih =>
      rw [wakes_cons]
      have hfirst := wake_boostsleft hs c
      by_cases hstay : (wake c p).state = .sleeping ∧ 1 ≤ cs.length
      · obtain ⟨j, h1, h2, h⟩ := ih hstay.1 hstay.2
        refine ⟨j + 1, by omega, by simp; omega, ?_⟩
        rw [h, hfirst]
        unfold i32
        omega
      · refine ⟨1, Nat.le_refl 1, by simp, ?_⟩
        by_cases hawake : (wake c p).state = .sleeping
        · have hnil : cs = [] := by
            rw [← List.length_eq_zero_iff]
            exact Nat.eq_zero_of_not_pos fun h => hstay ⟨hawake, h⟩
          rw [hnil, wakes_nil, hfirst]
          rfl
        · rw [wakes_of_not_sleeping hawake, hfirst]
          rfl

/-- A call of `wakeup1` that is not the timer's. -/
def Event.Wakes : Event → Prop
  | .wakeup _ | .exit _ => True
  | _ => False

/-- Everything an event can do to the boosts of the slot `t`. -/
inductive BoostChange (k : Kernel) (t : Slot) (e : Event) : Int → Prop
  /-- `allocproc` starts over. -/
  | fresh : Allocates k t e → BoostChange k t e 0
  | spent : Doubles k t e → BoostChange k t e ((k.proc t).boostsleft - 1)
  | ticked : e = .tick → (k.proc t).state = .sleeping →
      BoostChange k t e (i32 ((k.proc t).boostsleft + 1))
  /-- Other channels are woken, up to once for each zombie that goes to init. -/
  | woken (j : Nat) : e.Wakes → (k.proc t).state = .sleeping → 1 ≤ j → j ≤ nproc + 1 →
      BoostChange k t e (i32 ((k.proc t).boostsleft + j))
  | kept : ¬ Allocates k t e → ¬ Doubles k t e →
      ((k.proc t).state = .sleeping → e ≠ .tick ∧ ¬ e.Wakes) →
      BoostChange k t e (k.proc t).boostsleft

theorem allocproc_boostsleft (kstack : Bool) (t : Slot) (k : Kernel) :
    ((allocproc kstack k).2.proc t).boostsleft =
      if kstack ∧ k.find (fun p => p.state = .unused) = some t then 0
      else (k.proc t).boostsleft := by
  rw [allocproc]
  cases hfind : k.find fun p => p.state = .unused with
  | none => simp
  | some u =>
      by_cases htu : t = u
      · subst htu
        cases kstack with
        | false => simp
        | true => simp
      · have hne : ¬ u = t := fun h => htu h.symm
        cases kstack with
        | false => simp [htu]
        | true => simp [htu, hne]

theorem fork_boostsleft (mem : Memory) (s t : Slot) (k : Kernel) :
    ((fork mem s k).2.proc t).boostsleft =
      if Allocates k t (.fork s mem) then 0 else (k.proc t).boostsleft := by
  have halloc := allocproc_boostsleft (mem ≠ .noKstack) t k
  simp only [Allocates]
  rw [fork]
  generalize allocproc (mem ≠ .noKstack) k = r at halloc
  obtain ⟨np, k'⟩ := r
  simp only [ne_eq, decide_not, Bool.not_eq_eq_eq_not, Bool.not_true, decide_eq_false_iff_not]
    at halloc
  cases np with
  | none => exact halloc
  | some np =>
      dsimp only
      split
      · rw [upd_boostsleft (f := fun p => { p with state := .unused }) fun _ => rfl, halloc]
        rfl
      · rw [upd_boostsleft (f := fun p =>
          { p with parent := some s, ticket := (k'.proc s).ticket, state := .runnable })
          fun _ => rfl, halloc]
        rfl

/-- The events that leave every boost as it is. -/
theorem step_boostsleft_kept (h : step k e = some k') (hs : e ≠ .schedule) (ht : e ≠ .tick)
    (hw : ¬ e.Wakes) (hf : ∀ s mem, e ≠ .fork s mem) :
    (k'.proc t).boostsleft = (k.proc t).boostsleft := by
  cases e with
  | schedule => exact absurd rfl hs
  | tick => exact absurd rfl ht
  | wakeup _ => exact absurd trivial hw
  | exit _ => exact absurd trivial hw
  | fork s mem => exact absurd rfl (hf s mem)
  | yield s =>
      simp only [step, Option.ite_none_right_eq_some, Option.some.injEq] at h
      obtain ⟨-, rfl⟩ := h
      refine upd_boostsleft ?_ k s t
      exact fun _ => rfl
  | sleep s chan =>
      simp only [step, Option.ite_none_right_eq_some, Option.some.injEq] at h
      obtain ⟨-, rfl⟩ := h
      refine upd_boostsleft ?_ k s t
      exact fun _ => rfl
  | sysSleep s n =>
      simp only [step, Option.ite_none_right_eq_some, Option.some.injEq] at h
      obtain ⟨-, rfl⟩ := h
      rw [sysSleep, sleep, upd_boostsleft (f := fun p =>
        { p with chan := some Chan.ticks, state := .sleeping }) fun _ => rfl]
      exact upd_boostsleft (f := fun p => { p with sleepTicks := n }) (fun _ => rfl) k s t
  | fault s =>
      simp only [step, Option.ite_none_right_eq_some, Option.some.injEq] at h
      obtain ⟨-, rfl⟩ := h
      refine upd_boostsleft ?_ k s t
      exact fun _ => rfl
  | kill pid =>
      cases h
      rw [kill]
      split
      · rfl
      · dsimp only
        apply upd_boostsleft
        exact fun _ => rfl
  | wait s =>
      simp only [step, Option.ite_none_right_eq_some, Option.some.injEq] at h
      obtain ⟨-, rfl⟩ := h
      rw [wait]
      split
      · dsimp only
        apply upd_boostsleft
        exact fun _ => rfl
      · split
        · rfl
        · dsimp only
          refine upd_boostsleft ?_ k s t
          exact fun _ => rfl
  | settickets pid n =>
      cases h
      rw [sysSettickets]
      split
      · rfl
      · rw [settickets]
        split
        · rfl
        · dsimp only
          apply upd_boostsleft
          exact fun _ => rfl

theorem exit_boosts {s : Slot} (h : step k (.exit s) = some k') :
    BoostChange k t (.exit s) (k'.proc t).boostsleft := by
  have hkept (hawake : (k.proc t).state ≠ .sleeping) :
      BoostChange k t (.exit s) (k.proc t).boostsleft :=
    .kept id (fun hd => by cases hd.1) fun hs => absurd hs hawake
  have hchange := step_slot h t
  generalize k'.proc t = q at hchange ⊢
  cases hchange with
  | exiting _ cs _ _ hlen hpos _ =>
      by_cases hsleep : (k.proc t).state = .sleeping
      · obtain ⟨j, h1, h2, hj⟩ := wakes_boostsleft hsleep hpos
        dsimp only
        rw [hj]
        exact .woken j trivial hsleep h1 (by omega)
      · rw [wakes_of_not_sleeping hsleep]
        exact hkept hsleep
  | exited _ _ hr => exact hkept (by rw [hr]; decide)
  | keep hcalls _ => exact absurd trivial hcalls
  | sleep _ he _ => rcases he with he | ⟨he, -⟩ <;> cases he
  | run he _ _ | yield he _ | sysSleep _ he _ | tick he | wakeup _ he _ | kill he | fault he _
  | aborted _ _ _ _ he _ _ _ _ _ _ | forked _ _ _ _ he _ | reaped _ he _ => cases he

/-- **What a step does to the boosts of one slot.** -/
theorem step_boosts (h : step k e = some k') (hint : IsInt (k.proc t).boostsleft) :
    BoostChange k t e (k'.proc t).boostsleft := by
  cases e with
  | schedule =>
      rw [schedule_boostsleft h hint]
      split
      · rename_i hd
        exact .spent hd
      · rename_i hd
        exact .kept id hd fun _ => ⟨by simp, id⟩
  | fork s mem =>
      simp only [step, Option.ite_none_right_eq_some, Option.some.injEq] at h
      obtain ⟨-, rfl⟩ := h
      rw [fork_boostsleft]
      split
      · rename_i ha
        exact .fresh ha
      · rename_i ha
        exact .kept ha (fun hd => by cases hd.1) fun _ => ⟨by simp, id⟩
  | tick =>
      cases h
      rw [tick, wakeup1_proc]
      by_cases hsleep : (k.proc t).state = .sleeping
      · rw [wake_boostsleft hsleep]
        exact .ticked rfl hsleep
      · rw [wake_of_not_sleeping hsleep]
        exact .kept id (fun hd => by cases hd.1) fun hs => absurd hs hsleep
  | wakeup chan =>
      simp only [step, Option.ite_none_left_eq_some, Option.some.injEq] at h
      obtain ⟨-, rfl⟩ := h
      rw [wakeup1_proc]
      by_cases hsleep : (k.proc t).state = .sleeping
      · rw [wake_boostsleft hsleep]
        exact .woken 1 trivial hsleep (Nat.le_refl 1) (by decide)
      · rw [wake_of_not_sleeping hsleep]
        exact .kept id (fun hd => by cases hd.1) fun hs => absurd hs hsleep
  | exit s => exact exit_boosts h
  | yield _ | sleep _ _ | sysSleep _ _ | kill _ | fault _ | wait _ | settickets _ _ =>
      rw [step_boostsleft_kept h (by simp) (by simp) id (by simp)]
      exact .kept id (fun hd => by cases hd.1) fun _ => ⟨by simp, id⟩

theorem BoostChange.isInt {b : Int} (h : BoostChange k t e b)
    (hint : IsInt (k.proc t).boostsleft) : IsInt b := by
  cases h with
  | fresh _ => exact ⟨by decide, by decide⟩
  | spent hd =>
      obtain ⟨-, -, -, hpos⟩ := hd
      have := hint.2
      exact ⟨by omega, by omega⟩
  | ticked _ _ => exact i32_bounds _
  | woken _ _ _ _ _ => exact i32_bounds _
  | kept _ _ _ => exact hint

/-! ## The account -/

/-- What `boostsleft` of one slot was given and what was taken from it, and the ticks and
lotteries these stand for, all since the last `allocproc`. -/
structure Account where
  added : Int
  removed : Int
  ticksAsleep : Int
  doubled : Int

def Account.zero : Account where
  added := 0
  removed := 0
  ticksAsleep := 0
  doubled := 0

/-- The account after the step `e` from `k` to `k'`. No step both gives and takes. -/
def Account.next (a : Account) (t : Slot) (k : Kernel) (e : Event) (k' : Kernel) : Account :=
  if Allocates k t e then .zero
  else
    let change := (k'.proc t).boostsleft - (k.proc t).boostsleft
    { added := a.added + max change 0
      removed := a.removed + max (-change) 0
      ticksAsleep := a.ticksAsleep +
        if e = .tick ∧ (k.proc t).state = .sleeping then 1 else 0
      doubled := a.doubled + if Doubles k t e then 1 else 0 }

/-- The kernel with the account of the slot `t` kept beside it. -/
def accountStep (t : Slot) (x : Kernel × Account) (e : Event) : Option (Kernel × Account) :=
  (step x.1 e).map fun k' => (k', x.2.next t x.1 e k')

def AccountStep (t : Slot) (x : Kernel × Account) (e : Event) (y : Kernel × Account) : Prop :=
  accountStep t x e = some y

/-- A boost for every tick asleep, one taken at every doubled lottery, and the difference
is what the process still has. -/
structure Balanced (t : Slot) (x : Kernel × Account) : Prop where
  added : x.2.added = x.2.ticksAsleep
  removed : x.2.removed = x.2.doubled
  left : x.2.doubled = x.2.ticksAsleep - (x.1.proc t).boostsleft

/-- The steps that give a sleeping process its boosts for ticks only: no channel but the
timer's is woken, and the counter does not wrap. -/
def Credits (t : Slot) (k : Kernel) (e : Event) : Prop :=
  (k.proc t).state = .sleeping →
    ¬ e.Wakes ∧ (e = .tick → (k.proc t).boostsleft < 2147483647)

/-- What holds of the account in every run. -/
structure Recorded (t : Slot) (x : Kernel × Account) : Prop where
  isInt : IsInt (x.1.proc t).boostsleft
  left : x.2.added - x.2.removed = (x.1.proc t).boostsleft

theorem AccountStep.out {x y : Kernel × Account} (h : AccountStep t x e y) :
    step x.1 e = some y.1 ∧ y.2 = x.2.next t x.1 e y.1 := by
  obtain ⟨k', hk', rfl⟩ := Option.map_eq_some_iff.mp h
  exact ⟨hk', rfl⟩

theorem Recorded.step {x y : Kernel × Account} (hk : Recorded t x) (h : AccountStep t x e y) :
    Recorded t y := by
  obtain ⟨hstep, hy⟩ := h.out
  have hchange := step_boosts (t := t) hstep hk.isInt
  refine ⟨hchange.isInt hk.isInt, ?_⟩
  rw [hy, Account.next]
  split
  · rename_i ha
    generalize (y.1.proc t).boostsleft = b at hchange
    cases hchange with
    | fresh _ => rfl
    | spent hd => rw [hd.1] at ha; exact ha.elim
    | ticked he _ => rw [he] at ha; exact ha.elim
    | woken _ hw _ _ _ => cases e <;> first | exact hw.elim | exact ha.elim
    | kept hno _ _ => exact absurd ha hno
  · have := hk.left
    dsimp only
    omega

/-- What a step must add to the account to keep it balanced. -/
theorem balanced_iff_change {x y : Kernel × Account} (hk : Recorded t x) (hb : Balanced t x)
    (h : AccountStep t x e y) (hno : ¬ Allocates x.1 t e) {change : Int}
    (hchange : (y.1.proc t).boostsleft = (x.1.proc t).boostsleft + change) :
    Balanced t y ↔
      max change 0 = (if e = .tick ∧ (x.1.proc t).state = .sleeping then 1 else 0) ∧
      max (-change) 0 = if Doubles x.1 t e then 1 else 0 := by
  have hy := h.out.2
  rw [Account.next, if_neg hno, hchange, Int.add_comm, Int.add_sub_cancel] at hy
  obtain ⟨hadded, hremoved, hleft⟩ := hb
  constructor
  · rintro ⟨hadded', hremoved', -⟩
    rw [hy] at hadded' hremoved'
    dsimp only at hadded' hremoved'
    exact ⟨by omega, by omega⟩
  · rintro ⟨hticks, hdoubled⟩
    have hadded' : y.2.added = y.2.ticksAsleep := by
      rw [hy]
      dsimp only
      omega
    have hremoved' : y.2.removed = y.2.doubled := by
      rw [hy]
      dsimp only
      omega
    have := (hk.step h).left
    exact ⟨hadded', hremoved', by omega⟩

/-- The step lemma: a step from a balanced account balances it again exactly if it gives
boosts for ticks only. -/
theorem balanced_step_iff {x y : Kernel × Account} (hk : Recorded t x) (hb : Balanced t x)
    (h : AccountStep t x e y) : Balanced t y ↔ Credits t x.1 e := by
  obtain ⟨hstep, hy⟩ := h.out
  have hboosts := step_boosts (t := t) hstep hk.isInt
  obtain ⟨hlo, hhi⟩ := hk.isInt
  generalize hb' : (y.1.proc t).boostsleft = b at hboosts
  cases hboosts with
  | fresh ha =>
      rw [Account.next, if_pos ha] at hy
      refine iff_of_true ⟨by rw [hy]; rfl, by rw [hy]; rfl, by rw [hy, hb']; rfl⟩ fun _ => ?_
      cases e <;> first | exact ha.elim | exact ⟨id, fun ht => by cases ht⟩
  | spent hd =>
      have he := hd.1
      subst he
      rw [balanced_iff_change hk hb h id hb', if_pos hd, if_neg (by simp)]
      exact iff_of_true ⟨by decide, by decide⟩ fun _ => ⟨id, fun ht => by cases ht⟩
  | ticked he hs =>
      subst he
      rw [balanced_iff_change hk hb h id (hb'.trans (add_sub_cancel _ _).symm),
        if_pos ⟨rfl, hs⟩, if_neg fun hd => by cases hd.1]
      constructor
      · rintro ⟨hone, -⟩ -
        refine ⟨id, fun _ => ?_⟩
        unfold i32 at hone
        omega
      · intro hc
        rw [i32_of_mem (by omega) (by have := (hc hs).2 rfl; omega)]
        omega
  | woken j hw hs h1 h2 =>
      have hno : ¬ Allocates x.1 t e := fun ha => by
        cases e <;> first | exact hw.elim | exact ha.elim
      have hchange : i32 ((x.1.proc t).boostsleft + j) - (x.1.proc t).boostsleft ≠ 0 := by
        unfold i32 nproc at *
        omega
      rw [balanced_iff_change hk hb h hno (hb'.trans (add_sub_cancel _ _).symm),
        if_neg fun ht => by rw [ht.1] at hw; exact hw.elim,
        if_neg fun hd => by rw [hd.1] at hw; exact hw.elim]
      exact iff_of_false (fun hb => by omega) fun hc => (hc hs).1 hw
  | kept hno hnd hquiet =>
      rw [balanced_iff_change hk hb h hno (hb'.trans (Int.add_zero _).symm), if_neg hnd,
        if_neg fun ht => (hquiet ht.2).1 ht.1]
      exact iff_of_true ⟨rfl, rfl⟩ fun hs =>
        ⟨(hquiet hs).2, fun ht => absurd ht (hquiet hs).1⟩

theorem accountStep_det (x : Kernel × Account) (e : Event) (y y' : Kernel × Account)
    (h : AccountStep t x e y) (h' : AccountStep t x e y') : y = y' :=
  Option.some.inj (h.symm.trans h')

theorem boot_boostsleft (t : Slot) : (boot.proc t).boostsleft = 0 := by
  unfold boot
  by_cases ht : t = 0
  · simp [ht, Proc.zero]
  · simp [ht, Proc.zero]

theorem recorded_boot (t : Slot) : Recorded t (boot, .zero) := by
  refine ⟨?_, ?_⟩
  · rw [boot_boostsleft]
    exact ⟨by decide, by decide⟩
  · rw [boot_boostsleft]
    rfl

theorem balanced_boot (t : Slot) : Balanced t (boot, .zero) := by
  refine ⟨rfl, rfl, ?_⟩
  rw [boot_boostsleft]
  rfl

/-- **The boosts are accounted for**, for one process and along one run, exactly if the
run wakes only the tick channel while the process sleeps. -/
theorem boosts_accounted_iff {es : List Event} {x : Kernel × Account}
    (hrun : Lts.Run (AccountStep t) (boot, .zero) es x) :
    Lts.Along (AccountStep t) (boot, .zero) es (Balanced t) ↔
      Lts.EachStep (AccountStep t) (boot, .zero) es fun y e => Credits t y.1 e := by
  refine hrun.along_iff (P := Balanced t) (I := Recorded t) accountStep_det ?_ ?_
    (recorded_boot t) (balanced_boot t)
  · intro y e z hk h
    exact hk.step h
  · intro y e z hk hb h
    exact balanced_step_iff hk hb h

instance (x : Kernel × Account) : Decidable (Balanced t x) :=
  decidable_of_iff (x.2.added = x.2.ticksAsleep ∧ x.2.removed = x.2.doubled ∧
    x.2.doubled = x.2.ticksAsleep - (x.1.proc t).boostsleft)
    ⟨fun h => ⟨h.1, h.2.1, h.2.2⟩, fun h => ⟨h.1, h.2, h.3⟩⟩

/-- Two ticks asleep, and one of the two boosts spent. -/
theorem boosts_accounted_nap : ∃ x,
    Lts.Run (AccountStep 0) (boot, .zero) [.schedule, .sysSleep 0 2, .tick, .tick, .schedule] x ∧
      x.2.ticksAsleep = 2 ∧ x.2.doubled = 1 ∧
      (Lts.Along (AccountStep 0) (boot, .zero)
          [.schedule, .sysSleep 0 2, .tick, .tick, .schedule] (Balanced 0) ↔
        Lts.EachStep (AccountStep 0) (boot, .zero)
          [.schedule, .sysSleep 0 2, .tick, .tick, .schedule] fun y e => Credits 0 y.1 e) := by
  have hexec : (Lts.exec (accountStep 0) (boot, .zero)
      [.schedule, .sysSleep 0 2, .tick, .tick, .schedule]).map
        (fun x => decide (x.2.ticksAsleep = 2 ∧ x.2.doubled = 1)) = some true := by
    decide +kernel
  obtain ⟨x, hx, hd⟩ := Option.map_eq_some_iff.mp hexec
  have hrun : Lts.Run (AccountStep 0) (boot, .zero) _ x := Lts.Run.of_exec hx
  obtain ⟨hticks, hdoubled⟩ := of_decide_eq_true hd
  exact ⟨x, hrun, hticks, hdoubled, boosts_accounted_iff hrun⟩

/-- The init process in `sys_sleep`, and channel 7 woken: a boost without a tick. -/
theorem wakeup_boosts : ¬ ∀ (t : Slot) (es : List Event) (x : Kernel × Account),
    Lts.Run (AccountStep t) (boot, .zero) es x → Balanced t x := by
  intro h
  have hexec : (Lts.exec (accountStep 0) (boot, .zero)
      [.schedule, .sysSleep 0 10, .wakeup (.other 7)]).map
        (fun x => decide (Balanced 0 x)) = some false := by
    decide +kernel
  obtain ⟨x, hx, hd⟩ := Option.map_eq_some_iff.mp hexec
  exact of_decide_eq_false hd (h 0 _ x (Lts.Run.of_exec hx))

end CS537.Scheduling
