import CS537.Scheduling.Lottery

/-!
# Scheduling — what a step does to one slot

The inversion lemma of the transition system: `step_slot` lists, for one slot
of the table, everything an event can do to it. The invariants of the sleep
code are case splits on `SlotChange`; none of them unfolds `step` again.
-/

namespace CS537.Scheduling

open MachineInt

/-- `q` is `p` up to fields the sleep code does not read. -/
def SameSleep (p q : Proc) : Prop :=
  ∃ b n r x, q = { p with boostsleft := b, ticket := n, runTicks := r, parent := x }

theorem SameSleep.refl (p : Proc) : SameSleep p p := ⟨_, _, _, _, rfl⟩

theorem SameSleep.trans {p q r : Proc} (h : SameSleep p q) (h' : SameSleep q r) :
    SameSleep p r := by
  obtain ⟨_, _, _, _, rfl⟩ := h
  obtain ⟨_, _, _, _, rfl⟩ := h'
  exact ⟨_, _, _, _, rfl⟩

/-- Several calls of `wakeup1`, seen from one process. -/
def wakes (cs : List (Option Chan)) (p : Proc) : Proc :=
  cs.foldl (fun p c => wake c p) p

@[simp] theorem wakes_nil (p : Proc) : wakes [] p = p := rfl

@[simp] theorem wakes_cons (c : Option Chan) (cs : List (Option Chan)) (p : Proc) :
    wakes (c :: cs) p = wakes cs (wake c p) := rfl

theorem wake_of_not_sleeping {chan : Option Chan} {p : Proc} (h : p.state ≠ .sleeping) :
    wake chan p = p := by
  simp [wake, h]

theorem wakes_of_not_sleeping {p : Proc} (h : p.state ≠ .sleeping) (cs : List (Option Chan)) :
    wakes cs p = p := by
  induction cs with
  | nil => rfl
  | cons c cs ih => rw [wakes_cons, wake_of_not_sleeping h, ih]

/-- `wakeup1` does not look at the parent. -/
theorem wake_parent (chan : Option Chan) (p : Proc) (x : Option Slot) :
    wake chan { p with parent := x } = { wake chan p with parent := x } := by
  unfold wake
  by_cases hs : p.state = .sleeping
  · by_cases hc : p.chan = chan ∧ i32 (p.sleepTicksCount + 1) ≥ p.sleepTicks
    · simp [hs, hc]
    · simp [hs, hc]
  · simp [hs]

theorem wakes_parent (cs : List (Option Chan)) (p : Proc) (x : Option Slot) :
    wakes cs { p with parent := x } = { wakes cs p with parent := x } := by
  induction cs generalizing p with
  | nil => rfl
  | cons c cs ih => rw [wakes_cons, wakes_cons, wake_parent, ih]

/-- The events that call `wakeup1`, on every slot of the table. -/
def CallsWakeup1 : Event → Prop
  | .tick | .wakeup _ | .exit _ => True
  | _ => False

/-- Everything an event can do to the slot `t`, holding `p`. -/
inductive SlotChange (e : Event) (t : Slot) (p : Proc) : Proc → Prop
  /-- The slot is not concerned. -/
  | keep {q : Proc} : ¬ CallsWakeup1 e → SameSleep p q → SlotChange e t p q
  /-- The lottery chose it, and it runs on from where it left the processor. -/
  | run {q : Proc} : e = .schedule → p.state = .runnable → SameSleep p q →
      SlotChange e t p { q with state := .running, chan := none }
  | yield : e = .yield t → p.state = .running →
      SlotChange e t p { p with state := .runnable }
  /-- It went to sleep, in `wait` on its own slot. -/
  | sleep (chan : Chan) : (e = .sleep t chan ∨ e = .wait t ∧ chan = .proc t) →
      p.state = .running → SlotChange e t p { p with chan := some chan, state := .sleeping }
  | sysSleep (n : Int) : e = .sysSleep t n → p.state = .running →
      SlotChange e t p
        { p with sleepTicks := n, chan := some .ticks, state := .sleeping }
  | tick : e = .tick → SlotChange e t p (wake (some .ticks) p)
  | wakeup (chan : Chan) : e = .wakeup chan → chan ≠ .ticks →
      SlotChange e t p (wake (some chan) p)
  /-- Another process exits: one `wakeup1` on its parent, and one on init for
  each of its zombies. -/
  | exiting (s : Slot) (cs : List (Option Chan)) (x : Option Slot) : e = .exit s →
      cs.length ≤ nproc + 1 → 1 ≤ cs.length → (∀ c ∈ cs, c ≠ some .ticks) →
      SlotChange e t p { wakes cs p with parent := x }
  | exited (x : Option Slot) : e = .exit t → p.state = .running →
      SlotChange e t p { p with parent := x, state := .zombie }
  | kill : e = .kill p.pid →
      SlotChange e t p
        { p with killed := true,
                 state := if p.state = .sleeping then .runnable else p.state }
  | fault : e = .fault t → p.state = .running → SlotChange e t p { p with killed := true }
  /-- `allocproc` took it, and the fork failed. -/
  | aborted (s : Slot) (mem : Memory) (pid : Int) (q : Proc) : e = .fork s mem →
      p.state = .unused → q.state = .unused → q.pid = pid → q.killed = p.killed →
      q.chan = p.chan → (q.sleepTicks = p.sleepTicks ∧ q.sleepTicksCount = p.sleepTicksCount ∨
        q.sleepTicks = 0 ∧ q.sleepTicksCount = 0) → SlotChange e t p q
  | forked (s : Slot) (mem : Memory) (pid n : Int) : e = .fork s mem → p.state = .unused →
      SlotChange e t p
        { p with state := .runnable, pid := pid, parent := some s, ticket := n,
                 boostsleft := 0, runTicks := 0, sleepTicks := 0, sleepTicksCount := 0 }
  | reaped (s : Slot) : e = .wait s → p.state = .zombie →
      SlotChange e t p { p with pid := 0, parent := none, killed := false, state := .unused }

/-! ## One lemma per kernel function -/

/-- The lottery spends boosts and picks a `RUNNABLE` process. -/
theorem lotteryLoop_slot (w : Nat) :
    ∀ (ss : List Slot) (count : Int) (winner : Option Slot) (k : Kernel),
    (∀ t, SameSleep (k.proc t) ((lotteryLoop w ss count winner k).2.proc t)) ∧
    ∀ s, (lotteryLoop w ss count winner k).1 = some s →
      winner = some s ∨ (k.proc s).state = .runnable := by
  intro ss
  induction ss with
  | nil => exact fun count winner k => ⟨fun t => .refl _, fun s h => .inl h⟩
  | cons s ss ih =>
      intro count winner k
      rw [lotteryLoop]
      split
      · rename_i hr
        obtain ⟨k', hk'⟩ : ∃ k', k' = (if (k.proc s).boostsleft > 0 then
          k.upd s fun p => { p with boostsleft := i32 (p.boostsleft - 1) } else k) := ⟨_, rfl⟩
        have hsame : ∀ t, SameSleep (k.proc t) (k'.proc t) := by
          intro t
          rw [hk']
          split
          · rw [Kernel.upd_proc]
            split
            · rename_i heq; subst heq; exact ⟨_, _, _, _, rfl⟩
            · exact .refl _
          · exact .refl _
        simp only [← hk']
        refine ⟨fun t => (hsame t).trans ((ih _ _ k').1 t), fun u hu => ?_⟩
        rcases (ih _ _ k').2 u hu with hw | hw
        · rw [i32_add_weight count hr] at hw
          split at hw
          · cases hw; exact .inr hr
          · exact .inl hw
        · obtain ⟨_, _, _, _, he⟩ := hsame u
          rw [he] at hw
          exact .inr hw
      · exact ih count winner k

theorem holdLottery_slot (total : Int) (k : Kernel) :
    (∀ t, SameSleep (k.proc t) ((holdLottery total k).2.proc t)) ∧
    ∀ s, (holdLottery total k).1 = some s → (k.proc s).state = .runnable := by
  rw [holdLottery]
  split
  · exact ⟨fun t => .refl _, fun s h => by cases h⟩
  · have h := lotteryLoop_slot ((rand k).1 % toU32 total) slots 0 none (rand k).2
    refine ⟨h.1, fun s hs => ?_⟩
    rcases h.2 s hs with hw | hw
    · cases hw
    · exact hw

theorem schedulerPass_slot {k : Kernel} {t : Slot} :
    (∀ k', schedulerPass k = (.idle, k') → k' = k) ∧
    ∀ s k', schedulerPass k = (.run s, k') → (k.proc s).state = .runnable ∧
      ∃ q, SameSleep (k.proc t) q ∧
        k'.proc t = if t = s then { q with state := .running } else q := by
  obtain ⟨hsame, hwin⟩ := holdLottery_slot (totalTickets k) k
  rw [schedulerPass]
  split
  · exact ⟨fun k' h => (by cases h; rfl), fun s k' h => (by cases h)⟩
  · generalize holdLottery (totalTickets k) k = r at hsame hwin
    obtain ⟨w, k1⟩ := r
    cases w with
    | none => exact ⟨fun k' h => (by cases h), fun s k' h => (by cases h)⟩
    | some u =>
        refine ⟨fun k' h => (by cases h), fun s k' h => ?_⟩
        cases h
        refine ⟨hwin u rfl, ?_⟩
        obtain ⟨b, n, r, x, he⟩ := hsame t
        by_cases hts : t = u
        · subst hts
          refine ⟨{ k1.proc t with runTicks := i32 ((k1.proc t).runTicks + 1) },
            ⟨b, n, _, x, by rw [he]⟩, by simp⟩
        · exact ⟨k1.proc t, hsame t, by simp [hts]⟩

/-- The loop over abandoned children wakes init once for each zombie. -/
theorem reparent_slot (s : Slot) :
    ∀ (ts : List Slot) (k : Kernel), ∃ cs : List (Option Chan), cs.length ≤ ts.length ∧
      (∀ c ∈ cs, c = some (.proc k.initproc)) ∧
      ∀ t, ∃ x, (reparent s ts k).proc t = { wakes cs (k.proc t) with parent := x } := by
  intro ts
  induction ts with
  | nil => exact fun k => ⟨[], by simp, by simp, fun t => ⟨_, rfl⟩⟩
  | cons u us ih =>
      intro k
      rw [reparent]
      split
      · obtain ⟨k', hk'⟩ : ∃ k', k' = k.upd u fun p => { p with parent := some k.initproc } :=
          ⟨_, rfl⟩
        have hpar : ∀ t, ∃ x, k'.proc t = { k.proc t with parent := x } := by
          intro t
          rw [hk', Kernel.upd_proc]
          split
          · rename_i heq; subst heq; exact ⟨_, rfl⟩
          · exact ⟨_, rfl⟩
        have hinit : k'.initproc = k.initproc := by rw [hk']; rfl
        simp only [← hk']
        split
        · obtain ⟨cs, hlen, hall, hproc⟩ := ih (wakeup1 (some (.proc k.initproc)) k')
          refine ⟨some (.proc k.initproc) :: cs, by simp; omega, ?_, fun t => ?_⟩
          · intro c hc
            rcases List.mem_cons.mp hc with hc | hc
            · exact hc
            · rw [hall c hc, wakeup1_initproc, hinit]
          · obtain ⟨x, hx⟩ := hproc t
            obtain ⟨y, hy⟩ := hpar t
            exact ⟨x, by rw [hx, wakeup1_proc, hy, wake_parent, wakes_parent, wakes_cons]⟩
        · obtain ⟨cs, hlen, hall, hproc⟩ := ih k'
          refine ⟨cs, by simp; omega, fun c hc => by rw [hall c hc, hinit], fun t => ?_⟩
          obtain ⟨x, hx⟩ := hproc t
          obtain ⟨y, hy⟩ := hpar t
          exact ⟨x, by rw [hx, hy, wakes_parent]⟩
      · obtain ⟨cs, hlen, hall, hproc⟩ := ih k
        exact ⟨cs, by simp; omega, hall, hproc⟩

theorem exit_slot {s t : Slot} {k k' : Kernel} (h : exit s k = some k')
    (hs : (k.proc s).state = .running) : SlotChange (.exit s) t (k.proc t) (k'.proc t) := by
  rw [exit] at h
  split at h
  · cases h
  · cases h
    obtain ⟨cs, hlen, hall, hproc⟩ :=
      reparent_slot s slots (wakeup1 ((k.proc s).parent.map .proc) k)
    obtain ⟨x, hx⟩ := hproc t
    have hlen' : cs.length ≤ nproc := by simpa [slots] using hlen
    by_cases hts : t = s
    · subst hts
      rw [Kernel.upd_proc, if_pos rfl, hx, wakeup1_proc,
        wake_of_not_sleeping (by rw [hs]; decide), wakes_of_not_sleeping (by rw [hs]; decide)]
      exact .exited x rfl hs
    · rw [Kernel.upd_proc, if_neg hts, hx, wakeup1_proc, ← wakes_cons]
      refine .exiting s _ x rfl (by simp; omega) (by simp) ?_
      intro c hc
      rcases List.mem_cons.mp hc with hc | hc
      · subst hc
        cases (k.proc s).parent <;> simp
      · rw [hall c hc]
        simp

theorem allocproc_slot (kstack : Bool) (k : Kernel) :
    match allocproc kstack k with
    | (none, k') => k' = k ∨ ∃ u, (k.proc u).state = .unused ∧ ∀ t, k'.proc t =
        if t = u then { k.proc u with pid := k.nextpid, state := .unused } else k.proc t
    | (some u, k') => (k.proc u).state = .unused ∧ ∀ t, k'.proc t =
        if t = u then
          { k.proc u with state := .embryo, pid := k.nextpid, ticket := 1, boostsleft := 0,
                          runTicks := 0, sleepTicks := 0, sleepTicksCount := 0 }
        else k.proc t := by
  rw [allocproc]
  cases hf : k.find fun p => p.state = .unused with
  | none => exact .inl rfl
  | some u =>
      have hu : (k.proc u).state = .unused := by simpa using k.find_some hf
      cases kstack with
      | false =>
          refine .inr ⟨u, hu, fun t => ?_⟩
          by_cases htu : t = u <;> simp [htu]
      | true =>
          refine ⟨hu, fun t => ?_⟩
          by_cases htu : t = u <;> simp [htu]

theorem fork_slot (mem : Memory) (s t : Slot) (k : Kernel) :
    SlotChange (.fork s mem) t (k.proc t) ((fork mem s k).2.proc t) := by
  have ha := allocproc_slot (mem ≠ .noKstack) k
  rw [fork]
  generalize allocproc (mem ≠ .noKstack) k = r at ha
  obtain ⟨o, k'⟩ := r
  cases o with
  | none =>
      rcases ha with ha | ⟨u, hu, hk⟩
      · subst ha; exact .keep id (.refl _)
      · by_cases htu : t = u
        · subst htu
          have := hk t
          rw [if_pos rfl] at this
          exact .aborted s mem k.nextpid _ rfl hu (by rw [this]) (by rw [this]) (by rw [this])
            (by rw [this]) (.inl (by rw [this]; exact ⟨rfl, rfl⟩))
        · have := hk t
          rw [if_neg htu] at this
          rw [show ((-1, k') : Int × Kernel).2.proc t = k.proc t from this]
          exact .keep id (.refl _)
  | some u =>
      obtain ⟨hu, hk⟩ := ha
      have hkt := hk t
      by_cases htu : t = u
      · subst htu
        rw [if_pos rfl] at hkt
        by_cases hm : mem = .noPages
        · simp only [hm, if_true, Kernel.upd_proc]
          rw [hkt]
          exact .aborted s _ k.nextpid _ rfl hu rfl rfl rfl rfl (.inr ⟨rfl, rfl⟩)
        · simp only [hm, if_false, Kernel.upd_proc, if_true]
          rw [hkt]
          exact .forked s mem _ _ rfl hu
      · rw [if_neg htu] at hkt
        by_cases hm : mem = .noPages
        · simp only [hm, if_true, Kernel.upd_proc, if_neg htu]
          rw [hkt]
          exact .keep id (.refl _)
        · simp only [hm, if_false, Kernel.upd_proc, if_neg htu]
          rw [hkt]
          exact .keep id (.refl _)

theorem wait_slot (s t : Slot) (k : Kernel) (hs : (k.proc s).state = .running) :
    SlotChange (.wait s) t (k.proc t) ((wait s k).2.proc t) := by
  rw [wait]
  cases hf : k.find fun p => p.parent = some s ∧ p.state = .zombie with
  | some u =>
      have hu : (k.proc u).state = .zombie := by
        have := k.find_some hf
        simp at this
        exact this.2
      by_cases htu : t = u
      · subst htu
        simp only [Kernel.upd_proc, if_true]
        exact .reaped s rfl hu
      · simp only [Kernel.upd_proc, if_neg htu]
        exact .keep id (.refl _)
  | none =>
      simp only
      split
      · exact .keep id (.refl _)
      · by_cases hts : t = s
        · subst hts
          simp only [sleep, Kernel.upd_proc, if_true]
          exact .sleep _ (.inr ⟨rfl, rfl⟩) hs
        · simp only [sleep, Kernel.upd_proc, if_neg hts]
          exact .keep id (.refl _)

theorem kill_slot (pid : Int) (t : Slot) (k : Kernel) :
    SlotChange (.kill pid) t (k.proc t) ((kill pid k).2.proc t) := by
  rw [kill]
  cases hf : k.find fun p => p.pid = pid with
  | none => exact .keep id (.refl _)
  | some u =>
      have hu : (k.proc u).pid = pid := by simpa using k.find_some hf
      by_cases htu : t = u
      · subst htu
        simp only [Kernel.upd_proc, if_true]
        exact .kill (by rw [hu])
      · simp only [Kernel.upd_proc, if_neg htu]
        exact .keep id (.refl _)

theorem sysSettickets_slot (pid n : Int) (t : Slot) (k : Kernel) :
    SameSleep (k.proc t) ((sysSettickets pid n k).2.proc t) := by
  rw [sysSettickets]
  split
  · exact .refl _
  · rw [settickets]
    cases k.find fun p => p.pid = pid with
    | none => exact .refl _
    | some u =>
        by_cases htu : t = u
        · subst htu
          simp only [Kernel.upd_proc, if_true]
          exact ⟨_, _, _, _, rfl⟩
        · simp only [Kernel.upd_proc, if_neg htu]
          exact .refl _

/-- A write to the acting process's own slot. -/
theorem upd_slot {e : Event} {s t : Slot} {k : Kernel} {f : Proc → Proc}
    (he : ¬ CallsWakeup1 e) (h : t = s → SlotChange e t (k.proc t) (f (k.proc t))) :
    SlotChange e t (k.proc t) ((k.upd s f).proc t) := by
  rw [Kernel.upd_proc]
  split
  · rename_i hts
    subst hts
    exact h rfl
  · exact .keep he (.refl _)

/-- **What a step does to one slot.** -/
theorem step_slot {k k' : Kernel} {e : Event} (h : step k e = some k') (t : Slot) :
    SlotChange e t (k.proc t) (k'.proc t) := by
  cases e with
  | schedule =>
      obtain ⟨hidle, hrun⟩ := schedulerPass_slot (k := k) (t := t)
      simp only [step] at h
      generalize schedulerPass k = r at h hidle hrun
      obtain ⟨pass, k1⟩ := r
      cases pass with
      | idle =>
          cases h
          rw [hidle _ rfl]
          exact .keep id (.refl _)
      | panic => cases h
      | run s =>
          cases h
          obtain ⟨hr, q, hq, hk1⟩ := hrun s k1 rfl
          rw [resume, Kernel.upd_proc]
          by_cases hts : t = s
          · subst hts
            rw [if_pos rfl] at hk1 ⊢
            rw [hk1]
            have hrun : SlotChange .schedule t (k.proc t)
                { q with state := .running, chan := none } := .run rfl hr hq
            exact hrun
          · rw [if_neg hts] at hk1 ⊢
            rw [hk1]
            exact .keep id hq
  | yield s =>
      simp only [step, Option.ite_none_right_eq_some, Option.some.injEq] at h
      obtain ⟨hs, rfl⟩ := h
      exact upd_slot id fun hts => .yield (by rw [hts]) (by rw [hts]; exact hs)
  | sleep s chan =>
      simp only [step, Option.ite_none_right_eq_some, Option.some.injEq] at h
      obtain ⟨hs, rfl⟩ := h
      exact upd_slot id fun hts => .sleep chan (.inl (by rw [hts])) (by rw [hts]; exact hs)
  | sysSleep s n =>
      simp only [step, Option.ite_none_right_eq_some, Option.some.injEq] at h
      obtain ⟨hs, rfl⟩ := h
      by_cases hts : t = s
      · subst hts
        simp only [sysSleep, sleep, Kernel.upd_proc, if_true]
        exact .sysSleep n rfl hs
      · simp only [sysSleep, sleep, Kernel.upd_proc, if_neg hts]
        exact .keep id (.refl _)
  | tick =>
      cases h
      exact .tick rfl
  | wakeup chan =>
      simp only [step, Option.ite_none_left_eq_some, Option.some.injEq] at h
      obtain ⟨hc, rfl⟩ := h
      exact .wakeup chan rfl hc
  | kill pid =>
      cases h
      exact kill_slot pid t k
  | fault s =>
      simp only [step, Option.ite_none_right_eq_some, Option.some.injEq] at h
      obtain ⟨hs, rfl⟩ := h
      exact upd_slot id fun hts => .fault (by rw [hts]) (by rw [hts]; exact hs)
  | fork s mem =>
      simp only [step, Option.ite_none_right_eq_some, Option.some.injEq] at h
      obtain ⟨-, rfl⟩ := h
      exact fork_slot mem s t k
  | exit s =>
      simp only [step, Option.ite_none_right_eq_some] at h
      exact exit_slot h.2 h.1
  | wait s =>
      simp only [step, Option.ite_none_right_eq_some, Option.some.injEq] at h
      obtain ⟨hs, rfl⟩ := h
      exact wait_slot s t k hs
  | settickets pid n =>
      cases h
      exact .keep id (sysSettickets_slot pid n t k)

end CS537.Scheduling
