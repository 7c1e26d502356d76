import CS537.Scheduling.Step

/-!
# Scheduling — which process a pid names

`settickets` looks for a pid without looking at the state of the slot. What it
finds depends on what the kernel leaves in the `pid` of a slot it gives back:
`wait` writes 0 there, a fork that fails leaves the pid it had taken. Pids are
handed out in order (`Issued`), so apart from those left in `UNUSED` slots a
pid names one process, and the answer of `sys_settickets` is right exactly
when no `UNUSED` slot carries the pid.
-/

namespace CS537.Scheduling

open MachineInt

/-- A process, as opposed to an empty slot. -/
def Proc.Live (p : Proc) : Prop := p.state ≠ .unused

instance (p : Proc) : Decidable p.Live := inferInstanceAs (Decidable (p.state ≠ .unused))

/-- `nextpid` hands out every pid once, and only slots that were given back
without it carry none. -/
structure Issued (k : Kernel) : Prop where
  next : 1 ≤ k.nextpid
  below : ∀ s, 0 ≤ (k.proc s).pid ∧ (k.proc s).pid < k.nextpid
  live : ∀ s, (k.proc s).Live → 1 ≤ (k.proc s).pid
  once : ∀ s t, (k.proc s).pid = (k.proc t).pid → (k.proc s).pid ≠ 0 → s = t

/-- `nextpid++` does not overflow. -/
def PidsLeft (k : Kernel) : Event → Prop
  | .fork _ _ => k.nextpid < 2147483647
  | _ => True

instance (k : Kernel) (e : Event) : Decidable (PidsLeft k e) := by
  cases e <;> unfold PidsLeft <;> infer_instance

/-! ## What a step does to the pids -/

/-- A step that takes no pid: a slot keeps its pid and stays live or empty, or
`wait` empties it. -/
structure KeepsPids (k k' : Kernel) : Prop where
  next : k'.nextpid = k.nextpid
  slot : ∀ s, (k'.proc s).pid = (k.proc s).pid ∧ ((k'.proc s).Live → (k.proc s).Live) ∨
    (k'.proc s).pid = 0 ∧ ¬ (k'.proc s).Live

theorem Issued.keeps {k k' : Kernel} (h : Issued k) (hk : KeepsPids k k') : Issued k' := by
  have hpid : ∀ s, (k'.proc s).pid ≠ 0 → (k'.proc s).pid = (k.proc s).pid := by
    intro s hs
    rcases hk.slot s with ⟨hp, _⟩ | ⟨hp, _⟩
    · exact hp
    · exact absurd hp hs
  refine ⟨by rw [hk.next]; exact h.next, ?_, ?_, ?_⟩
  · intro s
    have hb := h.below s
    have hn := h.next
    rw [hk.next]
    rcases hk.slot s with ⟨hp, _⟩ | ⟨hp, _⟩ <;> omega
  · intro s hs
    rcases hk.slot s with ⟨hp, hl⟩ | ⟨_, hl⟩
    · rw [hp]
      exact h.live s (hl hs)
    · exact absurd hs hl
  · intro s t he hs
    have ht : (k'.proc t).pid ≠ 0 := by rw [← he]; exact hs
    apply h.once s t
    · rw [← hpid s hs, he, hpid t ht]
    · rw [← hpid s hs]
      exact hs

/-- A step that gives one empty slot the next pid. -/
structure TakesPid (k k' : Kernel) (u : Slot) : Prop where
  next : k'.nextpid = i32 (k.nextpid + 1)
  pid : (k'.proc u).pid = k.nextpid
  others : ∀ s, s ≠ u → k'.proc s = k.proc s

theorem Issued.takes {k k' : Kernel} {u : Slot} (h : Issued k) (hroom : k.nextpid < 2147483647)
    (hk : TakesPid k k' u) : Issued k' := by
  have hn := h.next
  have hnext : k'.nextpid = k.nextpid + 1 := by
    rw [hk.next]
    exact i32_of_mem (by omega) (by omega)
  -- the pid taken is above every pid in the table
  have hpid : ∀ s, s ≠ u → (k'.proc s).pid = (k.proc s).pid := by
    intro s hs
    rw [hk.others s hs]
  refine ⟨by omega, ?_, ?_, ?_⟩
  · intro s
    by_cases hs : s = u
    · rw [hs, hk.pid]
      omega
    · have hb := h.below s
      rw [hpid s hs]
      omega
  · intro s hl
    by_cases hs : s = u
    · rw [hs, hk.pid]
      exact hn
    · rw [hpid s hs]
      apply h.live s
      rwa [hk.others s hs] at hl
  · intro s t he hs
    by_cases hsu : s = u
    · by_cases htu : t = u
      · rw [hsu, htu]
      · have hb := h.below t
        rw [hsu, hk.pid, hpid t htu] at he
        omega
    · by_cases htu : t = u
      · have hb := h.below s
        rw [htu, hk.pid, hpid s hsu] at he
        omega
      · rw [hpid s hsu, hpid t htu] at he
        rw [hpid s hsu] at hs
        exact h.once s t he hs

/-- One lemma for every event but `fork`: the slot's new contents, as
`step_slot` lists them, take no pid. -/
theorem SlotChange.keeps {e : Event} {t : Slot} {p q : Proc} (h : SlotChange e t p q)
    (he : ∀ s mem, e ≠ .fork s mem) :
    q.pid = p.pid ∧ (q.Live → p.Live) ∨ q.pid = 0 ∧ ¬ q.Live := by
  have hwake : ∀ (c : Option Chan) (p : Proc),
      (wake c p).pid = p.pid ∧ ((wake c p).Live → p.Live) := by
    intro c p
    by_cases hs : p.state = .sleeping
    · refine ⟨?_, fun _ => ?_⟩
      · simp only [wake, if_pos hs]
        split <;> rfl
      · rw [Proc.Live, hs]
        decide
    · rw [wake_of_not_sleeping hs]
      exact ⟨rfl, id⟩
  have hwakes : ∀ (cs : List (Option Chan)) (p : Proc),
      (wakes cs p).pid = p.pid ∧ ((wakes cs p).Live → p.Live) := by
    intro cs
    induction cs with
    | nil => exact fun p => ⟨rfl, id⟩
    | cons c cs ih =>
        intro p
        rw [wakes_cons]
        exact ⟨(ih _).1.trans (hwake c p).1, fun hl => (hwake c p).2 ((ih _).2 hl)⟩
  cases h with
  | keep _ hs =>
      obtain ⟨_, _, _, _, rfl⟩ := hs
      exact .inl ⟨rfl, id⟩
  | run _ hr hs =>
      obtain ⟨_, _, _, _, rfl⟩ := hs
      refine .inl ⟨rfl, fun _ => ?_⟩
      rw [Proc.Live, hr]
      decide
  | yield _ hr =>
      refine .inl ⟨rfl, fun _ => ?_⟩
      rw [Proc.Live, hr]
      decide
  | sleep _ _ hr =>
      refine .inl ⟨rfl, fun _ => ?_⟩
      rw [Proc.Live, hr]
      decide
  | sysSleep _ _ hr =>
      refine .inl ⟨rfl, fun _ => ?_⟩
      rw [Proc.Live, hr]
      decide
  | tick _ => exact .inl (hwake _ p)
  | wakeup _ _ _ => exact .inl (hwake _ p)
  | exiting _ cs _ _ _ _ _ => exact .inl (hwakes cs p)
  | exited _ _ hr =>
      refine .inl ⟨rfl, fun _ => ?_⟩
      rw [Proc.Live, hr]
      decide
  | kill _ =>
      refine .inl ⟨rfl, fun hl => ?_⟩
      intro hu
      apply hl
      simp [hu]
  | fault _ _ => exact .inl ⟨rfl, id⟩
  | aborted s mem _ _ hf _ _ _ _ _ _ => exact absurd hf (he s mem)
  | forked s mem _ _ hf _ => exact absurd hf (he s mem)
  | reaped _ _ _ => exact .inr ⟨rfl, fun hl => hl rfl⟩

@[simp] theorem upd_nextpid (k : Kernel) (s : Slot) (f : Proc → Proc) :
    (k.upd s f).nextpid = k.nextpid := rfl

theorem lotteryLoop_nextpid (w : Nat) :
    ∀ (ss : List Slot) (count : Int) (winner : Option Slot) (k : Kernel),
    (lotteryLoop w ss count winner k).2.nextpid = k.nextpid := by
  intro ss
  induction ss with
  | nil => intro count winner k; rfl
  | cons s ss ih =>
      intro count winner k
      rw [lotteryLoop]
      split
      · simp only [ih]
        split
        · rw [upd_nextpid]
        · rfl
      · exact ih count winner k

theorem schedulerPass_nextpid (k : Kernel) : (schedulerPass k).2.nextpid = k.nextpid := by
  have hold : (holdLottery (totalTickets k) k).2.nextpid = k.nextpid := by
    rw [holdLottery]
    split
    · rfl
    · exact lotteryLoop_nextpid _ slots 0 none (rand k).2
  rw [schedulerPass]
  split
  · rfl
  · generalize holdLottery (totalTickets k) k = r at hold
    obtain ⟨w, k'⟩ := r
    cases w with
    | none => exact hold
    | some s => exact hold

theorem reparent_nextpid (s : Slot) :
    ∀ (ts : List Slot) (k : Kernel), (reparent s ts k).nextpid = k.nextpid := by
  intro ts
  induction ts with
  | nil => intro k; rfl
  | cons t ts ih =>
      intro k
      rw [reparent]
      split
      · dsimp only
        split
        · rw [ih]; rfl
        · rw [ih]; rfl
      · exact ih k

/-- Only `fork` advances `nextpid`. -/
theorem step_nextpid {k k' : Kernel} {e : Event} (h : step k e = some k')
    (he : ∀ s mem, e ≠ .fork s mem) : k'.nextpid = k.nextpid := by
  cases e with
  | schedule =>
      have hp := schedulerPass_nextpid k
      simp only [step] at h
      generalize schedulerPass k = r at h hp
      obtain ⟨pass, k1⟩ := r
      cases pass with
      | idle => cases h; exact hp
      | panic => cases h
      | run s => cases h; exact hp
  | fork s mem => exact absurd rfl (he s mem)
  | exit s =>
      simp only [step, Option.ite_none_right_eq_some, exit, Option.ite_none_left_eq_some,
        Option.some.injEq] at h
      obtain ⟨-, -, rfl⟩ := h
      rw [upd_nextpid, reparent_nextpid]
      rfl
  | wait s =>
      simp only [step, Option.ite_none_right_eq_some, Option.some.injEq] at h
      obtain ⟨-, rfl⟩ := h
      rw [wait]
      split
      · rfl
      · split <;> rfl
  | kill pid =>
      cases h
      rw [kill]
      split <;> rfl
  | settickets pid n =>
      cases h
      rw [sysSettickets]
      split
      · rfl
      · rw [settickets]
        split <;> rfl
  | tick => cases h; rfl
  | wakeup chan =>
      simp only [step, Option.ite_none_left_eq_some, Option.some.injEq] at h
      obtain ⟨-, rfl⟩ := h
      rfl
  | yield s | sleep s chan | sysSleep s n | fault s =>
      simp only [step, Option.ite_none_right_eq_some, Option.some.injEq] at h
      obtain ⟨-, rfl⟩ := h
      rfl

/-- `allocproc` takes the next pid as soon as it has a slot, whether or not it
gets a kernel stack. -/
theorem allocproc_takes (kstack : Bool) (k : Kernel) :
    match allocproc kstack k with
    | (none, k') => k' = k ∨ ∃ u, TakesPid k k' u
    | (some u, k') => TakesPid k k' u := by
  rw [allocproc]
  cases hf : k.find fun p => p.state = .unused with
  | none => exact .inl rfl
  | some u =>
      cases kstack with
      | false =>
          refine .inr ⟨u, rfl, ?_, ?_⟩
          · simp
          · intro s hs
            simp [hs]
      | true =>
          refine ⟨rfl, ?_, ?_⟩
          · simp
          · intro s hs
            simp [hs]

/-- A fork takes a pid even if it then fails. -/
theorem fork_takes (mem : Memory) (s : Slot) (k : Kernel) :
    (fork mem s k).2 = k ∨ ∃ u, TakesPid k (fork mem s k).2 u := by
  have ha := allocproc_takes (mem ≠ .noKstack) k
  rw [fork]
  generalize allocproc (mem ≠ .noKstack) k = r at ha
  obtain ⟨o, k'⟩ := r
  cases o with
  | none => exact ha
  | some u =>
      have hset : ∀ f : Proc → Proc, (f (k'.proc u)).pid = (k'.proc u).pid →
          TakesPid k (k'.upd u f) u := by
        intro f hf
        refine ⟨ha.next, ?_, ?_⟩
        · rw [Kernel.upd_proc, if_pos rfl, hf]
          exact ha.pid
        · intro t ht
          rw [Kernel.upd_proc, if_neg ht]
          exact ha.others t ht
      by_cases hm : mem = .noPages
      · simp only [hm, if_true]
        exact .inr ⟨u, hset _ rfl⟩
      · simp only [hm, if_false]
        exact .inr ⟨u, hset _ rfl⟩

/-- **A step keeps the pids in order**, as long as `nextpid` does not overflow. -/
theorem Issued.step {k k' : Kernel} {e : Event} (h : Issued k) (hs : Step k e k')
    (hok : PidsLeft k e) : Issued k' := by
  by_cases he : ∃ s mem, e = .fork s mem
  · obtain ⟨s, mem, rfl⟩ := he
    simp only [Step, CS537.Scheduling.step, Option.ite_none_right_eq_some, Option.some.injEq] at hs
    obtain ⟨-, rfl⟩ := hs
    rcases fork_takes mem s k with hk | ⟨u, hk⟩
    · rwa [hk]
    · exact h.takes hok hk
  · have hne : ∀ s mem, e ≠ .fork s mem := fun s mem hf => he ⟨s, mem, hf⟩
    exact h.keeps ⟨step_nextpid hs hne, fun t => (step_slot hs t).keeps hne⟩

theorem Issued.boot : Issued boot := by
  refine ⟨by decide, by decide, by decide, by decide⟩

/-- The process tables a run reaches before `nextpid` overflows. -/
def Table (k : Kernel) : Prop := Lts.Reachable (· = boot) (Lts.Guarded PidsLeft Step) k

theorem Table.issued {k : Kernel} (h : Table k) : Issued k := by
  refine Lts.Reachable.invariant ?_ ?_ h
  · rintro _ rfl
    exact Issued.boot
  · intro k e k' hk hs
    exact hk.step hs.2 hs.1

/-! ## `settickets` -/

/-- What `sys_settickets` should do: answer 0 exactly when `n` is positive and
a process has that pid, then write `n` there and nothing else, and otherwise
fail without touching the table. -/
structure SetsTickets (k : Kernel) (pid n : Int) : Prop where
  answer : (sysSettickets pid n k).1 = 0 ↔ 0 < n ∧ ∃ s, (k.proc s).Live ∧ (k.proc s).pid = pid
  target : ∀ s, 0 < n → (k.proc s).Live → (k.proc s).pid = pid →
    (sysSettickets pid n k).2 = k.upd s fun p => { p with ticket := n }
  failure : (sysSettickets pid n k).1 ≠ 0 → sysSettickets pid n k = (-1, k)

theorem sysSettickets_refused {k : Kernel} {pid n : Int} (h : pid < 0 ∨ n ≤ 0) :
    sysSettickets pid n k = (-1, k) := by
  rw [sysSettickets, if_pos h]

/-- With a pid of its own a process is the one the search finds. -/
theorem Issued.sysSettickets_found {k : Kernel} {pid n : Int} {s : Slot} (h : Issued k)
    (hp : 0 < pid) (hn : 0 < n) (hs : (k.proc s).pid = pid) :
    sysSettickets pid n k = (0, k.upd s fun p => { p with ticket := n }) := by
  rw [sysSettickets, if_neg (by omega), settickets]
  cases hf : k.find fun p => p.pid = pid with
  | none =>
      have hno := findSlot_none hf s
      simp [hs] at hno
  | some t =>
      have ht : (k.proc t).pid = pid := by simpa using k.find_some hf
      have hts : t = s := h.once t s (by rw [ht, hs]) (by omega)
      subst hts
      rfl

theorem sysSettickets_none {k : Kernel} {pid n : Int} (hs : ∀ s, (k.proc s).pid ≠ pid) :
    sysSettickets pid n k = (-1, k) := by
  rw [sysSettickets]
  split
  · rfl
  · rw [settickets]
    cases hf : k.find fun p => p.pid = pid with
    | none => rfl
    | some t =>
        have ht : (k.proc t).pid = pid := by simpa using k.find_some hf
        exact absurd ht (hs t)

/-- An empty slot with the pid is as good as a process to the search. -/
theorem sysSettickets_answers {k : Kernel} {pid n : Int} {s : Slot} (hp : 0 ≤ pid) (hn : 0 < n)
    (hs : (k.proc s).pid = pid) : (sysSettickets pid n k).1 = 0 := by
  rw [sysSettickets, if_neg (by omega), settickets]
  cases hf : k.find fun p => p.pid = pid with
  | none =>
      have hno := findSlot_none hf s
      simp [hs] at hno
  | some t => rfl

/-- **Whose tickets are set**: in every table a run reaches before `nextpid`
overflows, `sys_settickets` does what it should exactly when it is refused for
its arguments or no `UNUSED` slot carries the pid. -/
theorem settickets_targets_live_iff {k : Kernel} (h : Table k) (pid n : Int) :
    SetsTickets k pid n ↔
      n ≤ 0 ∨ pid < 0 ∨ ∀ s, (k.proc s).pid = pid → (k.proc s).Live := by
  have hk := h.issued
  constructor
  · intro hset
    by_contra hno
    push Not at hno
    obtain ⟨hn, hp, s, hs, hl⟩ := hno
    obtain ⟨-, t, ht, htp⟩ := hset.answer.mp (sysSettickets_answers hp hn hs)
    have htl := hk.live t ht
    have hts : t = s := hk.once t s (by rw [htp, hs]) (by omega)
    exact hl (hts ▸ ht)
  · intro hcond
    by_cases hrefused : pid < 0 ∨ n ≤ 0
    · -- no process has a negative pid
      have hnone : ¬ (0 < n ∧ ∃ s, (k.proc s).Live ∧ (k.proc s).pid = pid) := by
        rintro ⟨hn, s, hl, hs⟩
        have := hk.live s hl
        omega
      have hset := sysSettickets_refused (k := k) hrefused
      refine ⟨?_, ?_, fun _ => hset⟩
      · rw [hset]
        exact iff_of_false (show ¬ (-1 : Int) = 0 by decide) hnone
      · intro s hn hl hs
        exact absurd ⟨hn, s, hl, hs⟩ hnone
    · have hlive : ∀ s, (k.proc s).pid = pid → (k.proc s).Live := by
        rcases hcond with hc | hc | hc
        · omega
        · omega
        · exact hc
      by_cases hex : ∃ s, (k.proc s).pid = pid
      · obtain ⟨s, hs⟩ := hex
        have hpos := hk.live s (hlive s hs)
        have hset := hk.sysSettickets_found (n := n) (by omega) (by omega) hs
        refine ⟨?_, ?_, ?_⟩
        · rw [hset]
          exact iff_of_true rfl ⟨by omega, s, hlive s hs, hs⟩
        · intro t _ _ ht
          rw [hset, hk.once t s (by rw [ht, hs]) (by omega)]
        · intro hne
          rw [hset] at hne
          exact absurd rfl hne
      · push Not at hex
        have hset := sysSettickets_none (n := n) hex
        refine ⟨?_, ?_, fun _ => hset⟩
        · rw [hset]
          exact iff_of_false (show ¬ (-1 : Int) = 0 by decide) (fun ⟨_, s, _, hs⟩ => hex s hs)
        · intro s _ _ hs
          exact absurd hs (hex s)

theorem settickets_targets_live_iff_boot :
    SetsTickets boot 1 5 ↔
      (5 : Int) ≤ 0 ∨ (1 : Int) < 0 ∨ ∀ s, (boot.proc s).pid = 1 → (boot.proc s).Live :=
  settickets_targets_live_iff (.initial rfl) 1 5

/-- A fork that got no page for its kernel stack leaves pid 2 in slot 1. -/
def failedFork : List Event := [.schedule, .fork 0 .noKstack]

theorem failedFork_leaves_pid :
    (Lts.exec step boot failedFork).map (fun k =>
      decide ((sysSettickets 2 5 k).1 = 0 ∧ ¬ ∃ s, (k.proc s).Live ∧ (k.proc s).pid = 2))
      = some true := by
  decide +kernel

/-- `sys_settickets` accepts the pid of a process that never came to be. -/
theorem settickets_answers_for_empty :
    ¬ ∀ k, Lts.Reachable (· = boot) Step k → ∀ pid n, SetsTickets k pid n := by
  intro h
  obtain ⟨k, hk, hfacts⟩ := Option.map_eq_some_iff.mp failedFork_leaves_pid
  obtain ⟨hzero, hnone⟩ := of_decide_eq_true hfacts
  have hset := h k ⟨boot, failedFork, rfl, .of_exec hk⟩ 2 5
  exact hnone (hset.answer.mp hzero).2

end CS537.Scheduling
