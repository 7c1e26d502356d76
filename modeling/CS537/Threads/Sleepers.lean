import CS537.Threads.History

/-!
# Threads — sleepers and zombies

What each call does to the processes that sleep in `wait` or `join` and to the
zombies, and the two facts every call keeps: parents are processes that have not
exited, and no sleeper has a zombie child it looks for. `exit` wakes the parent
before it becomes a zombie, and wakes init for the zombies it passes on.
-/

namespace CS537.Threads

open MachineInt

/-! ## What the calls do to sleepers and zombies -/

/-- A step that creates and ends no process, and puts none to sleep in `wait` or
`join`. -/
structure Calm (k k' : Kernel) : Prop where
  initproc : k'.initproc = k.initproc
  pid : ∀ q, (k'.proc q).pid = (k.proc q).pid
  parent : ∀ q, (k'.proc q).parent = (k.proc q).parent
  pgdir : ∀ q, (k'.proc q).pgdir = (k.proc q).pgdir
  stack : ∀ q, (k'.proc q).stack = (k.proc q).stack
  unused : ∀ q, (k'.proc q).state = .unused ↔ (k.proc q).state = .unused
  embryo : ∀ q, (k'.proc q).state = .embryo ↔ (k.proc q).state = .embryo
  zombie : ∀ q, (k'.proc q).state = .zombie ↔ (k.proc q).state = .zombie
  asleep : ∀ q c, (k'.proc q).state = .sleeping → (k'.proc q).call = some c →
    (k.proc q).state = .sleeping ∧ (k.proc q).call = some c ∧ (k'.proc q).chan = (k.proc q).chan

theorem Calm.refl (k : Kernel) : Calm k k :=
  ⟨rfl, fun _ => rfl, fun _ => rfl, fun _ => rfl, fun _ => rfl, fun _ => Iff.rfl, fun _ => Iff.rfl,
    fun _ => Iff.rfl, fun _ _ h h' => ⟨h, h', rfl⟩⟩

theorem Calm.trans {k k' k'' : Kernel} (h : Calm k k') (h' : Calm k' k'') : Calm k k'' where
  initproc := h'.initproc.trans h.initproc
  pid q := (h'.pid q).trans (h.pid q)
  parent q := (h'.parent q).trans (h.parent q)
  pgdir q := (h'.pgdir q).trans (h.pgdir q)
  stack q := (h'.stack q).trans (h.stack q)
  unused q := (h'.unused q).trans (h.unused q)
  embryo q := (h'.embryo q).trans (h.embryo q)
  zombie q := (h'.zombie q).trans (h.zombie q)
  asleep q c hs hc := by
    obtain ⟨hs', hc', hchan'⟩ := h'.asleep q c hs hc
    obtain ⟨hs'', hc'', hchan''⟩ := h.asleep q c hs' hc'
    exact ⟨hs'', hc'', hchan'.trans hchan''⟩

/-- An update of one slot that keeps its identity. -/
theorem Calm.upd (k : Kernel) (s : Slot) {f : Proc → Proc}
    (hid : (f (k.proc s)).pid = (k.proc s).pid ∧ (f (k.proc s)).parent = (k.proc s).parent ∧
      (f (k.proc s)).pgdir = (k.proc s).pgdir ∧ (f (k.proc s)).stack = (k.proc s).stack)
    (hkind : ((f (k.proc s)).state = .unused ↔ (k.proc s).state = .unused) ∧
      ((f (k.proc s)).state = .embryo ↔ (k.proc s).state = .embryo) ∧
      ((f (k.proc s)).state = .zombie ↔ (k.proc s).state = .zombie))
    (hasleep : ∀ c, (f (k.proc s)).state = .sleeping → (f (k.proc s)).call = some c →
      (k.proc s).state = .sleeping ∧ (k.proc s).call = some c ∧
        (f (k.proc s)).chan = (k.proc s).chan) : Calm k (k.upd s f) := by
  have hq : ∀ q, (k.upd s f).proc q = if q = s then f (k.proc s) else k.proc q := fun _ => rfl
  refine ⟨rfl, ?_, ?_, ?_, ?_, ?_, ?_, ?_, ?_⟩
  all_goals
    intro q
    rw [hq q]
    split
    · grind
    · grind

theorem calm_wakeup1 (chan : Option Chan) (k : Kernel) : Calm k (wakeup1 chan k) := by
  refine ⟨rfl, ?_, ?_, ?_, ?_, ?_, ?_, ?_, ?_⟩
  all_goals
    intro q
    simp only [wakeup1]
    split
    · grind
    · grind

theorem calm_kill (pid : Int) (k : Kernel) : Calm k (kill pid k).2 := by
  unfold kill
  split
  · exact .refl k
  · rename_i s _
    apply Calm.upd k s (f := fun p =>
      { p with killed := true, state := if p.state = .sleeping then .runnable else p.state })
    · exact ⟨rfl, rfl, rfl, rfl⟩
    · by_cases hs : (k.proc s).state = .sleeping
      · simp [hs]
      · simp [hs]
    · intro c hs
      by_cases hsleep : (k.proc s).state = .sleeping
      · simp [hsleep] at hs
      · simp [hsleep] at hs

theorem calm_growproc (enough : Bool) (n : Int) (s : Slot) (k : Kernel) :
    Calm k (growproc enough n s k).2 := by
  rcases growproc_cases enough n s k with heq | ⟨sz, heq⟩
  · rw [heq]
    exact .refl k
  · rw [heq]
    refine ⟨rfl, ?_, ?_, ?_, ?_, ?_, ?_, ?_, ?_⟩
    all_goals
      intro q
      dsimp only
      split
      · grind
      · grind

theorem calm_pick {s : Slot} {k : Kernel} (hs : (k.proc s).state = .runnable) :
    Calm k (pick s k) := by
  apply Calm.upd
  · exact ⟨rfl, rfl, rfl, rfl⟩
  · simp [hs]
  · intro c hsleep
    simp at hsleep

/-! ## Exit -/

/-- What the loop of `exit` has done after some slots: children have init as their
parent, and init is awake if one of them is a zombie. -/
structure Reparented (s : Slot) (ts : List Slot) (k k' : Kernel) : Prop where
  initproc : k'.initproc = k.initproc
  pid : ∀ q, (k'.proc q).pid = (k.proc q).pid
  parent : ∀ q, (k'.proc q).parent =
    if (k.proc q).parent = some s ∧ q ∈ ts then some k.initproc else (k.proc q).parent
  pgdir : ∀ q, (k'.proc q).pgdir = (k.proc q).pgdir
  stack : ∀ q, (k'.proc q).stack = (k.proc q).stack
  unused : ∀ q, (k'.proc q).state = .unused ↔ (k.proc q).state = .unused
  embryo : ∀ q, (k'.proc q).state = .embryo ↔ (k.proc q).state = .embryo
  zombie : ∀ q, (k'.proc q).state = .zombie ↔ (k.proc q).state = .zombie
  asleep : ∀ q c, (k'.proc q).state = .sleeping → (k'.proc q).call = some c →
    (k.proc q).state = .sleeping ∧ (k.proc q).call = some c ∧ (k'.proc q).chan = (k.proc q).chan
  woken : ∀ q ∈ ts, (k.proc q).parent = some s → (k.proc q).state = .zombie →
    ∀ r c, (k'.proc r).state = .sleeping → (k'.proc r).call = some c →
      (k'.proc r).chan ≠ some (.proc k.initproc)

/-- Nobody sleeps on a channel that was just woken. -/
theorem wakeup1_awake {chan : Option Chan} {k : Kernel} {r : Slot}
    (h : ((wakeup1 chan k).proc r).state = .sleeping) :
    ((wakeup1 chan k).proc r).chan ≠ chan := by
  simp only [wakeup1] at h ⊢
  split at h
  · cases h
  · rename_i hno
    rw [if_neg hno]
    intro hchan
    exact hno ⟨h, hchan⟩

theorem Reparented.nil (s : Slot) (k : Kernel) : Reparented s [] k k := by
  have h := Calm.refl k
  refine ⟨rfl, h.pid, fun q => ?_, h.pgdir, h.stack, h.unused, h.embryo, h.zombie, h.asleep,
    fun q hq => ?_⟩
  · simp
  · cases hq

theorem Reparented.trans {s t : Slot} {ts : List Slot} {k k' k'' : Kernel} (hs : s ≠ k.initproc)
    (h : Reparented s [t] k k') (h' : Reparented s ts k' k'') : Reparented s (t :: ts) k k'' where
  initproc := h'.initproc.trans h.initproc
  pid q := (h'.pid q).trans (h.pid q)
  parent q := by
    rw [h'.parent, h.parent, h.initproc]
    by_cases hpar : (k.proc q).parent = some s
    · by_cases hq : q = t
      · subst hq
        simp [hpar, Ne.symm hs]
      · simp [hpar, hq]
    · simp [hpar]
  pgdir q := (h'.pgdir q).trans (h.pgdir q)
  stack q := (h'.stack q).trans (h.stack q)
  unused q := (h'.unused q).trans (h.unused q)
  embryo q := (h'.embryo q).trans (h.embryo q)
  zombie q := (h'.zombie q).trans (h.zombie q)
  asleep q c hsleep hc := by
    obtain ⟨hs', hc', hchan'⟩ := h'.asleep q c hsleep hc
    obtain ⟨hs'', hc'', hchan''⟩ := h.asleep q c hs' hc'
    exact ⟨hs'', hc'', hchan'.trans hchan''⟩
  woken q hq hpar hz r c hsleep hc := by
    obtain ⟨hs', hc', hchan'⟩ := h'.asleep r c hsleep hc
    by_cases hqt : q = t
    · rw [hchan']
      exact h.woken q (by simp [hqt]) hpar hz r c hs' hc'
    · have hmem : q ∈ ts := (List.mem_cons.mp hq).resolve_left hqt
      have hpar' : (k'.proc q).parent = some s := by
        rw [h.parent]
        simp [hpar, hqt]
      rw [← h.initproc]
      exact h'.woken q hmem hpar' ((h.zombie q).mpr hz) r c hsleep hc

/-- One child passed to init. -/
theorem reparented_one {s t : Slot} {k : Kernel} (hpar : (k.proc t).parent = some s)
    {k' : Kernel} (hk : k' = k.upd t (fun p => { p with parent := some k.initproc }) ∧
        (k.proc t).state ≠ .zombie ∨
      k' = wakeup1 (some (.proc k.initproc))
        (k.upd t fun p => { p with parent := some k.initproc })) : Reparented s [t] k k' := by
  have hset : ∀ q, (k.upd t fun p => { p with parent := some k.initproc }).proc q =
      if q = t then { k.proc t with parent := some k.initproc } else k.proc q := fun _ => rfl
  -- passing the child on changes its parent only, waking init states only
  have hcalm : k'.initproc = k.initproc ∧ ∀ q, (k'.proc q).pid = (k.proc q).pid ∧
      (k'.proc q).parent = (if q = t then some k.initproc else (k.proc q).parent) ∧
      (k'.proc q).pgdir = (k.proc q).pgdir ∧ (k'.proc q).stack = (k.proc q).stack ∧
      ((k'.proc q).state = (k.proc q).state ∨
        (k'.proc q).state = .runnable ∧ (k.proc q).state = .sleeping) ∧
      (k'.proc q).call = (k.proc q).call ∧ (k'.proc q).chan = (k.proc q).chan := by
    rcases hk with ⟨rfl, _⟩ | rfl
    · refine ⟨rfl, fun q => ?_⟩
      rw [hset]
      split
      · rename_i hq
        simp [hq]
      · simp
    · refine ⟨rfl, fun q => ?_⟩
      simp only [wakeup1, hset]
      by_cases hq : q = t
      · subst hq
        simp only [if_true]
        split
        · rename_i hsleep
          simp [hsleep.1]
        · simp
      · simp only [if_neg hq]
        split
        · rename_i hsleep
          simp [hsleep.1]
        · simp
  obtain ⟨hinit, hq⟩ := hcalm
  refine ⟨hinit, fun q => (hq q).1, fun q => ?_, fun q => (hq q).2.2.1, fun q => (hq q).2.2.2.1,
    fun q => ?_, fun q => ?_, fun q => ?_, fun q c hsleep hc => ?_, fun q hmem _ hz r c hsleep hc => ?_⟩
  · rw [(hq q).2.1]
    by_cases hqt : q = t
    · simp [hqt, hpar]
    · simp [hqt]
  · rcases (hq q).2.2.2.2.1 with h | ⟨h, h'⟩
    · rw [h]
    · simp [h, h']
  · rcases (hq q).2.2.2.2.1 with h | ⟨h, h'⟩
    · rw [h]
    · simp [h, h']
  · rcases (hq q).2.2.2.2.1 with h | ⟨h, h'⟩
    · rw [h]
    · simp [h, h']
  · obtain ⟨_, _, _, _, hstate, hcall, hchan⟩ := hq q
    rw [hcall] at hc
    rcases hstate with h | ⟨h, _⟩
    · exact ⟨h.symm.trans hsleep, hc, hchan⟩
    · rw [h] at hsleep
      cases hsleep
  · obtain rfl := List.mem_singleton.mp hmem
    rcases hk with ⟨_, hno⟩ | rfl
    · exact absurd hz hno
    · exact wakeup1_awake hsleep

theorem reparented_reparent {s : Slot} (ts : List Slot) (k : Kernel) (hs : s ≠ k.initproc) :
    Reparented s ts k (reparent s ts k) := by
  induction ts generalizing k with
  | nil => exact .nil s k
  | cons t ts ih =>
      unfold reparent
      by_cases hpar : (k.proc t).parent = some s
      · rw [if_pos hpar]
        dsimp only
        split
        · exact Reparented.trans hs (reparented_one hpar (.inr rfl)) (ih _ hs)
        · rename_i hz
          refine Reparented.trans hs (reparented_one hpar (.inl ⟨rfl, ?_⟩)) (ih _ hs)
          simpa using hz
      · rw [if_neg hpar]
        have h := ih k hs
        refine ⟨h.initproc, h.pid, fun q => ?_, h.pgdir, h.stack, h.unused, h.embryo, h.zombie,
          h.asleep, fun q hq hpar' => ?_⟩
        · rw [h.parent]
          by_cases hqt : q = t
          · subst hqt
            simp [hpar]
          · simp [hqt]
        · have hqt : q ≠ t := by
            rintro rfl
            exact hpar hpar'
          exact h.woken q ((List.mem_cons.mp hq).resolve_left hqt) hpar'

/-! ## Sleepers and zombies -/

/-- There is a process in the slot, and it has not exited. -/
def Proc.Active (p : Proc) : Prop := p.state ≠ .unused ∧ p.state ≠ .embryo ∧ p.state ≠ .zombie

/-- There is a process in the slot, not one that is still being created. -/
def Proc.Made (p : Proc) : Prop := p.state ≠ .unused ∧ p.state ≠ .embryo

theorem Proc.Active.made {p : Proc} (h : p.Active) : p.Made := ⟨h.1, h.2.1⟩

theorem Proc.Active.of_running {p : Proc} (h : p.state = .running) : p.Active := by
  simp [Proc.Active, h]

/-- The tree of processes: parents are there and have not exited, and init is. -/
structure Tree (k : Kernel) : Prop where
  init : (k.proc k.initproc).Active
  initRoot : (k.proc k.initproc).parent = none
  parents : ∀ q r, (k.proc q).parent = some r → r ≠ q ∧ (k.proc r).Active
  orphans : ∀ q, ¬ (k.proc q).Made → (k.proc q).parent = none

/-- Whoever sleeps in `wait` or `join` sleeps on its own slot, and no child it
looks for is a zombie. -/
def Waiting (k : Kernel) : Prop :=
  ∀ p c, (k.proc p).state = .sleeping → (k.proc p).call = some c →
    (k.proc p).chan = some (.proc p) ∧
      ∀ q, (k.proc q).state = .zombie → c.kid p (k.proc p) (k.proc q) = false

/-- A kid is a child. -/
theorem Call.kid_parent {c : Call} {s : Slot} {caller p : Proc} (h : c.kid s caller p = true) :
    p.parent = some s := by
  cases c with
  | wait =>
      simp only [Call.kid, decide_eq_true_eq] at h
      exact h.1
  | join stack =>
      simp only [Call.kid, decide_eq_true_eq] at h
      exact h.1

/-- Which children a call looks for depends on a few fields. -/
theorem Call.kid_congr {c : Call} {s : Slot} {caller caller' p p' : Proc}
    (hcaller : caller'.pid = caller.pid ∧ caller'.pgdir = caller.pgdir)
    (hp : p'.pid = p.pid ∧ p'.parent = p.parent ∧ p'.pgdir = p.pgdir) :
    c.kid s caller' p' = c.kid s caller p := by
  obtain ⟨h1, h2⟩ := hcaller
  obtain ⟨h3, h4, h5⟩ := hp
  cases c with
  | wait => simp only [Call.kid, h2, h4, h5]
  | join stack => simp only [Call.kid, h1, h2, h3, h4, h5]

theorem Calm.active {k k' : Kernel} (h : Calm k k') (q : Slot) :
    (k'.proc q).Active ↔ (k.proc q).Active :=
  and_congr (not_congr (h.unused q)) (and_congr (not_congr (h.embryo q)) (not_congr (h.zombie q)))

theorem Calm.made {k k' : Kernel} (h : Calm k k') (q : Slot) :
    (k'.proc q).Made ↔ (k.proc q).Made :=
  and_congr (not_congr (h.unused q)) (not_congr (h.embryo q))

theorem Tree.calm {k k' : Kernel} (h : Tree k) (hc : Calm k k') : Tree k' := by
  refine ⟨?_, ?_, fun q r hpar => ?_, fun q hq => ?_⟩
  · rw [hc.initproc, hc.active]
    exact h.init
  · rw [hc.initproc, hc.parent]
    exact h.initRoot
  · rw [hc.parent] at hpar
    rw [hc.active]
    exact h.parents q r hpar
  · rw [hc.made] at hq
    rw [hc.parent]
    exact h.orphans q hq

theorem Waiting.calm {k k' : Kernel} (h : Waiting k) (hc : Calm k k') : Waiting k' := by
  intro p c hs hcall
  obtain ⟨hs', hcall', hchan⟩ := hc.asleep p c hs hcall
  obtain ⟨hown, hkids⟩ := h p c hs' hcall'
  refine ⟨hchan.trans hown, fun q hq => ?_⟩
  rw [Call.kid_congr ⟨hc.pid p, hc.pgdir p⟩ ⟨hc.pid q, hc.parent q, hc.pgdir q⟩]
  exact hkids q ((hc.zombie q).mp hq)

/-- What `exit` does to the table. -/
structure Exited (s : Slot) (k k' : Kernel) : Prop where
  initproc : k'.initproc = k.initproc
  notInit : s ≠ k.initproc
  pid : ∀ q, (k'.proc q).pid = (k.proc q).pid
  parent : ∀ q, (k'.proc q).parent =
    if (k.proc q).parent = some s then some k.initproc else (k.proc q).parent
  pgdir : ∀ q, (k'.proc q).pgdir = (k.proc q).pgdir
  stack : ∀ q, (k'.proc q).stack = (k.proc q).stack
  self : (k'.proc s).state = .zombie
  unused : ∀ q, q ≠ s → ((k'.proc q).state = .unused ↔ (k.proc q).state = .unused)
  embryo : ∀ q, q ≠ s → ((k'.proc q).state = .embryo ↔ (k.proc q).state = .embryo)
  zombie : ∀ q, q ≠ s → ((k'.proc q).state = .zombie ↔ (k.proc q).state = .zombie)
  asleep : ∀ q c, (k'.proc q).state = .sleeping → (k'.proc q).call = some c →
    (k.proc q).state = .sleeping ∧ (k.proc q).call = some c ∧ (k'.proc q).chan = (k.proc q).chan ∧
      ∀ r, (k.proc s).parent = some r → (k'.proc q).chan ≠ some (.proc r)
  woken : ∀ q, (k.proc q).parent = some s → (k.proc q).state = .zombie →
    ∀ r c, (k'.proc r).state = .sleeping → (k'.proc r).call = some c →
      (k'.proc r).chan ≠ some (.proc k.initproc)

theorem exited_exit {k k' : Kernel} {s : Slot} (h : exit s k = some k') : Exited s k k' := by
  unfold exit at h
  split at h
  · cases h
  · rename_i hinit
    cases h
    have hw := calm_wakeup1 ((k.proc s).parent.map .proc) k
    have hawake := @wakeup1_awake ((k.proc s).parent.map .proc) k
    generalize wakeup1 ((k.proc s).parent.map .proc) k = k₁ at hw hawake
    have hinit' : s ≠ k₁.initproc := by
      rw [hw.initproc]
      exact hinit
    have hr := reparented_reparent slots k₁ hinit'
    generalize reparent s slots k₁ = k₂ at hr
    have hself : ∀ q, (k₂.upd s fun p => { p with state := .zombie }).proc q =
        if q = s then { k₂.proc s with state := .zombie } else k₂.proc q := fun _ => rfl
    have hstate : ∀ q, q ≠ s →
        (k₂.upd s fun p => { p with state := .zombie }).proc q = k₂.proc q := by
      intro q hq
      rw [hself, if_neg hq]
    have hne : ∀ q, ((k₂.upd s fun p => { p with state := .zombie }).proc q).state = .sleeping →
        q ≠ s := by
      rintro q hq rfl
      rw [hself, if_pos rfl] at hq
      cases hq
    refine ⟨hr.initproc.trans hw.initproc, hinit, fun q => ?_, fun q => ?_, fun q => ?_,
      fun q => ?_, ?_, fun q hq => ?_, fun q hq => ?_, fun q hq => ?_, fun q c hs hc => ?_,
      fun q hpar hz r c hs hc => ?_⟩
    · rw [← hw.pid, ← hr.pid, hself]
      split
      · rename_i hq
        rw [hq]
      · rfl
    · have hpar : (k₂.proc q).parent =
          if (k.proc q).parent = some s then some k.initproc else (k.proc q).parent := by
        rw [hr.parent, hw.parent, hw.initproc]
        simp [mem_slots]
      rw [← hpar, hself]
      split
      · rename_i hq
        rw [hq]
      · rfl
    · rw [← hw.pgdir, ← hr.pgdir, hself]
      split
      · rename_i hq
        rw [hq]
      · rfl
    · rw [← hw.stack, ← hr.stack, hself]
      split
      · rename_i hq
        rw [hq]
      · rfl
    · rw [hself, if_pos rfl]
    · rw [hstate q hq, hr.unused, hw.unused]
    · rw [hstate q hq, hr.embryo, hw.embryo]
    · rw [hstate q hq, hr.zombie, hw.zombie]
    · have hq := hstate q (hne q hs)
      rw [hq] at hs hc ⊢
      obtain ⟨hs₁, hc₁, hchan₁⟩ := hr.asleep q c hs hc
      obtain ⟨hs₀, hc₀, hchan₀⟩ := hw.asleep q c hs₁ hc₁
      refine ⟨hs₀, hc₀, hchan₁.trans hchan₀, fun r hpar => ?_⟩
      rw [hchan₁]
      have hno := hawake hs₁
      rw [hpar] at hno
      exact hno
    · have hr' := hstate r (hne r hs)
      rw [hr'] at hs hc ⊢
      rw [← hw.initproc]
      exact hr.woken q (mem_slots q) ((hw.parent q).trans hpar) ((hw.zombie q).mpr hz) r c hs hc

theorem Tree.exited {k k' : Kernel} {s : Slot} (h : Tree k) (he : Exited s k k') : Tree k' := by
  have hactive : ∀ q, q ≠ s → ((k'.proc q).Active ↔ (k.proc q).Active) := fun q hq =>
    and_congr (not_congr (he.unused q hq))
      (and_congr (not_congr (he.embryo q hq)) (not_congr (he.zombie q hq)))
  refine ⟨?_, ?_, fun q r hpar => ?_, fun q hq => ?_⟩
  · rw [he.initproc, hactive _ (Ne.symm he.notInit)]
    exact h.init
  · rw [he.initproc, he.parent, h.initRoot]
    rfl
  · rw [he.parent] at hpar
    split at hpar
    · rename_i hchild
      cases hpar
      refine ⟨?_, (hactive _ (Ne.symm he.notInit)).mpr h.init⟩
      rintro rfl
      rw [h.initRoot] at hchild
      cases hchild
    · rename_i hchild
      obtain ⟨hne, hr⟩ := h.parents q r hpar
      have hrs : r ≠ s := by
        rintro rfl
        exact hchild hpar
      exact ⟨hne, (hactive r hrs).mpr hr⟩
  · have hqs : q ≠ s := by
      rintro rfl
      exact hq (by simp [Proc.Made, he.self])
    have hq' : ¬ (k.proc q).Made := by
      rw [Proc.Made, Ne, Ne, he.unused q hqs, he.embryo q hqs] at hq
      exact hq
    rw [he.parent, h.orphans q hq']
    rfl

theorem Waiting.exited {k k' : Kernel} {s : Slot} (h : Waiting k) (ht : Tree k)
    (he : Exited s k k') : Waiting k' := by
  intro p c hs hcall
  obtain ⟨hs', hcall', hchan, hparent⟩ := he.asleep p c hs hcall
  obtain ⟨hown, hkids⟩ := h p c hs' hcall'
  refine ⟨hchan.trans hown, fun q hq => ?_⟩
  apply Bool.eq_false_iff.mpr
  intro hkid
  have hpar := Call.kid_parent hkid
  rw [he.parent] at hpar
  by_cases hqs : q = s
  · -- the new zombie has just woken its parent
    subst hqs
    have hne : (k.proc q).parent ≠ some q := fun hself => (ht.parents q q hself).1 rfl
    rw [if_neg hne] at hpar
    exact hparent p hpar (hchan.trans hown)
  · have hz := (he.zombie q hqs).mp hq
    by_cases hchild : (k.proc q).parent = some s
    · -- an old zombie passed to init has woken init
      rw [if_pos hchild] at hpar
      cases hpar
      exact he.woken q hchild hz _ c hs hcall (hchan.trans hown)
    · rw [if_neg hchild] at hpar
      have hold := hkids q hz
      rw [← Call.kid_congr ⟨he.pid p, he.pgdir p⟩ ⟨he.pid q, ?_, he.pgdir q⟩] at hold
      · rw [hkid] at hold
        cases hold
      · rw [he.parent, if_neg hchild]

/-- A zombie is reaped. -/
structure Reaped (t : Slot) (k k' : Kernel) : Prop where
  initproc : k'.initproc = k.initproc
  zombie : (k.proc t).state = .zombie
  self : k'.proc t = (k.proc t).reap
  other : ∀ q, q ≠ t → k'.proc q = k.proc q

theorem Tree.reaped {k k' : Kernel} {t : Slot} (h : Tree k) (hr : Reaped t k k') : Tree k' := by
  have hactive : ∀ q, (k.proc q).Active → q ≠ t := by
    rintro q hq rfl
    exact hq.2.2 hr.zombie
  have hinit := hr.other _ (hactive _ h.init)
  refine ⟨?_, ?_, fun q r hpar => ?_, fun q hq => ?_⟩
  · rw [hr.initproc, hinit]
    exact h.init
  · rw [hr.initproc, hinit]
    exact h.initRoot
  · by_cases hq : q = t
    · rw [hq, hr.self] at hpar
      cases hpar
    · rw [hr.other q hq] at hpar
      obtain ⟨hne, hact⟩ := h.parents q r hpar
      rw [hr.other r (hactive r hact)]
      exact ⟨hne, hact⟩
  · by_cases hqt : q = t
    · rw [hqt, hr.self]
      rfl
    · rw [hr.other q hqt] at hq ⊢
      exact h.orphans q hq

theorem Waiting.reaped {k k' : Kernel} {t : Slot} (h : Waiting k) (hr : Reaped t k k') :
    Waiting k' := by
  have hself : (k'.proc t).state = .unused := by rw [hr.self]; rfl
  have hne : ∀ q, (k'.proc q).state = .sleeping ∨ (k'.proc q).state = .zombie → q ≠ t := by
    rintro q hq rfl
    rw [hself] at hq
    rcases hq with hq | hq
    · cases hq
    · cases hq
  intro p c hs hcall
  have hp := hr.other p (hne p (.inl hs))
  rw [hp] at hs hcall ⊢
  obtain ⟨hown, hkids⟩ := h p c hs hcall
  refine ⟨hown, fun q hq => ?_⟩
  have hq' := hr.other q (hne q (.inr hq))
  rw [hq'] at hq ⊢
  exact hkids q hq

/-- One slot changes, which holds no sleeper and no zombie before or after. -/
theorem Waiting.other {k k' : Kernel} {s : Slot} (h : Waiting k)
    (hs : (k'.proc s).state ≠ .sleeping ∧ (k'.proc s).state ≠ .zombie)
    (hother : ∀ q, q ≠ s → k'.proc q = k.proc q) : Waiting k' := by
  have hne : ∀ q, (k'.proc q).state = .sleeping ∨ (k'.proc q).state = .zombie → q ≠ s := by
    rintro q hq rfl
    rcases hq with hq | hq
    · exact hs.1 hq
    · exact hs.2 hq
  intro p c hsleep hcall
  have hp := hother p (hne p (.inl hsleep))
  rw [hp] at hsleep hcall ⊢
  obtain ⟨hown, hkids⟩ := h p c hsleep hcall
  refine ⟨hown, fun q hq => ?_⟩
  have hq' := hother q (hne q (.inr hq))
  rw [hq'] at hq ⊢
  exact hkids q hq

theorem scan_some {c : Call} {s t : Slot} {k : Kernel} (h : scan c s k = some t) :
    c.kid s (k.proc s) (k.proc t) = true ∧ (k.proc t).state = .zombie := by
  unfold scan Kernel.find at h
  have hfound := findSlot_some h
  simpa using hfound

theorem scan_none {c : Call} {s : Slot} {k : Kernel} (h : scan c s k = none) (q : Slot)
    (hq : (k.proc q).state = .zombie) : c.kid s (k.proc s) (k.proc q) = false := by
  unfold scan Kernel.find at h
  have hno := findSlot_none h q
  simpa [hq] using hno

/-- A process goes to sleep in a call after a scan that found no zombie. -/
theorem Waiting.sleep {k : Kernel} {s : Slot} {c : Call} (h : Waiting k)
    (hscan : scan c s k = none) : Waiting (sleep s (.proc s) (some c) k) := by
  have hset : ∀ q, (Threads.sleep s (.proc s) (some c) k).proc q =
      if q = s then { k.proc s with chan := some (.proc s), state := .sleeping, call := some c }
      else k.proc q := fun _ => rfl
  have hz : ∀ q, ((Threads.sleep s (.proc s) (some c) k).proc q).state = .zombie →
      q ≠ s ∧ (k.proc q).state = .zombie := by
    intro q hq
    rw [hset] at hq
    split at hq
    · cases hq
    · rename_i hne
      exact ⟨hne, hq⟩
  intro p c' hs hcall
  by_cases hps : p = s
  · subst hps
    rw [hset, if_pos rfl] at hcall
    cases hcall
    refine ⟨by rw [hset, if_pos rfl], fun q hq => ?_⟩
    obtain ⟨hne, hqz⟩ := hz q hq
    rw [hset, hset, if_pos rfl, if_neg hne]
    have hkid := scan_none hscan q hqz
    rw [← hkid]
    exact Call.kid_congr ⟨rfl, rfl⟩ ⟨rfl, rfl, rfl⟩
  · have hp : (Threads.sleep s (.proc s) (some c) k).proc p = k.proc p := by
      rw [hset, if_neg hps]
    rw [hp] at hs hcall ⊢
    obtain ⟨hown, hkids⟩ := h p c' hs hcall
    refine ⟨hown, fun q hq => ?_⟩
    obtain ⟨hne, hqz⟩ := hz q hq
    rw [hset, if_neg hne]
    exact hkids q hqz

theorem Tree.sleep {k : Kernel} {s : Slot} {chan : Chan} {call : Option Call} (h : Tree k) :
    Tree (sleep s chan call k) := by
  have hset : ∀ q, (Threads.sleep s chan call k).proc q =
      if q = s then { k.proc s with chan := some chan, state := .sleeping, call := call }
      else k.proc q := fun _ => rfl
  have hpar : ∀ q, ((Threads.sleep s chan call k).proc q).parent = (k.proc q).parent := by
    intro q
    rw [hset]
    split
    · rename_i hq
      rw [hq]
    · rfl
  have hactive : ∀ q, (k.proc q).Active → ((Threads.sleep s chan call k).proc q).Active := by
    intro q hq
    rw [hset]
    split
    · simp [Proc.Active]
    · exact hq
  refine ⟨hactive _ h.init, (hpar _).trans h.initRoot, fun q r hq => ?_, fun q hq => ?_⟩
  · rw [hpar] at hq
    obtain ⟨hne, hr⟩ := h.parents q r hq
    exact ⟨hne, hactive r hr⟩
  · rw [hpar]
    apply h.orphans
    intro hmade
    apply hq
    rw [hset]
    split
    · simp [Proc.Made]
    · exact hmade

/-- `exec` gives a running process a directory that was not in use. -/
structure Execed (s : Slot) (k k' : Kernel) : Prop where
  initproc : k'.initproc = k.initproc
  running : (k.proc s).state = .running
  other : ∀ q, q ≠ s → k'.proc q = k.proc q
  state : (k'.proc s).state = .running
  parent : (k'.proc s).parent = (k.proc s).parent
  stack : (k'.proc s).stack = (k.proc s).stack
  pgdir : ∃ d, (k'.proc s).pgdir = some d ∧ k.allocated d = false

/-- What a call does to the table: it may wake, sleep or reap, end a process or
replace its image. `r` is the child it reaps. -/
inductive Acted (k k' : Kernel) : Option (Call × Slot) → Prop
  | calm (h : Calm k k') : Acted k k' none
  | asleep {k₁ : Kernel} {s : Slot} {c : Call} (h : Calm k k₁)
      (hrun : (k₁.proc s).state = .running) (hscan : scan c s k₁ = none) (heq : k' = sleep s (.proc s) (some c) k₁) :
      Acted k k' none
  | reaped {k₁ : Kernel} {s t : Slot} {c : Call} (h : Calm k k₁) (hscan : scan c s k₁ = some t)
      (hr : Reaped t k₁ k') : Acted k k' (some (c, t))
  | exited {s : Slot} (hs : (k.proc s).state = .running) (h : Exited s k k') : Acted k k' none
  | execed {s : Slot} (h : Execed s k k') : Acted k k' none

theorem acted_wait {k k₁ k' : Kernel} {s : Slot} (hc : Calm k k₁)
    (hrun : (k₁.proc s).state = .running) (h : wait s k₁ = some k') :
    Acted k k' ((scan .wait s k₁).map fun t => (.wait, t)) := by
  rw [wait_scan] at h
  cases hscan : scan .wait s k₁ with
  | some t =>
      rw [hscan] at h
      obtain ⟨d, _, rfl⟩ := Option.map_eq_some_iff.mp h
      refine .reaped hc hscan ⟨rfl, (scan_some hscan).2, ?_, fun q hq => ?_⟩
      · simp [freevm]
      · simp [freevm, hq]
  | none =>
      rw [hscan] at h
      dsimp only at h
      split at h
      · cases h
        exact .calm hc
      · cases h
        exact .asleep hc hrun hscan rfl

theorem acted_join {k k₁ : Kernel} {s : Slot} {stack : Nat} (hc : Calm k k₁)
    (hrun : (k₁.proc s).state = .running) :
    Acted k (join stack s k₁) ((scan (.join stack) s k₁).map fun t => (.join stack, t)) := by
  rw [join_scan]
  cases hscan : scan (.join stack) s k₁ with
  | some t =>
      refine .reaped hc hscan ⟨rfl, (scan_some hscan).2, ?_, fun q hq => ?_⟩
      · simp
      · simp [hq]
  | none =>
      dsimp only
      split
      · exact .calm hc
      · exact .asleep hc hrun hscan rfl

theorem acted_exec {k k' : Kernel} {s : Slot} {r : ExecResult} {code : Int}
    (hs : (k.proc s).state = .running)
    (hfresh : ∀ d ∈ (Event.exec s r).fresh, k.allocated d = false)
    (h : exec r s k = some (code, k')) : Acted k k' none := by
  cases r with
  | bad d =>
      apply Acted.calm
      cases d with
      | none =>
          cases h
          exact .refl k
      | some d =>
          cases h
          have hc := Calm.refl k
          exact ⟨rfl, hc.pid, hc.parent, hc.pgdir, hc.stack, hc.unused, hc.embryo, hc.zombie,
            hc.asleep⟩
  | image d sz =>
      obtain ⟨old, _, heq⟩ := Option.map_eq_some_iff.mp h
      cases heq
      refine .execed (s := s) ⟨rfl, hs, fun q hq => ?_, ?_, ?_, ?_, d, ?_, hfresh d rfl⟩
      · simp [freevm, setupkvm, hq]
      · simp [freevm, setupkvm, hs]
      · simp [freevm, setupkvm]
      · simp [freevm, setupkvm]
      · simp [freevm, setupkvm]

theorem acted_schedule {k k' : Kernel} {s : Slot} (hs : (k.proc s).state = .runnable)
    (h : schedule s k = some k') : Acted k k' (reapedBy k (.schedule s)) := by
  have hpick := calm_pick hs
  have hrun : ((pick s k).proc s).state = .running := by simp [pick]
  simp only [schedule] at h
  simp only [reapedBy]
  cases hcall : (k.proc s).call with
  | none =>
      rw [hcall] at h
      cases h
      exact .calm hpick
  | some c =>
      rw [hcall] at h
      cases c with
      | wait => exact acted_wait hpick hrun h
      | join stack =>
          cases h
          exact acted_join hpick hrun

theorem acted_step {k k' : Kernel} {e : Event} (h : Threads.step k e = some k')
    (hfork : ∀ s mem, e ≠ .fork s mem) (hclone : ∀ s stack kstack, e ≠ .clone s stack kstack) :
    Acted k k' (reapedBy k e) := by
  unfold Threads.step at h
  split at h
  · rename_i hcan
    obtain ⟨hactor, hfresh⟩ := hcan
    cases e with
    | schedule s =>
        simp only [effect, Option.ite_none_right_eq_some] at h
        exact acted_schedule h.1 h.2
    | yield s =>
        cases h
        have hs := hactor s rfl
        apply Acted.calm
        apply Calm.upd
        · exact ⟨rfl, rfl, rfl, rfl⟩
        · simp [hs]
        · intro c hsleep
          cases hsleep
    | sleep s addr =>
        cases h
        have hs := hactor s rfl
        apply Acted.calm
        apply Calm.upd
        · exact ⟨rfl, rfl, rfl, rfl⟩
        · simp [hs]
        · intro c _ hcall
          cases hcall
    | wakeup addr =>
        cases h
        exact .calm (calm_wakeup1 _ k)
    | kill pid =>
        cases h
        exact .calm (calm_kill pid k)
    | fork s mem => exact absurd rfl (hfork s mem)
    | clone s stack kstack => exact absurd rfl (hclone s stack kstack)
    | exec s r =>
        obtain ⟨⟨code, k''⟩, hexec, rfl⟩ := Option.map_eq_some_iff.mp h
        exact acted_exec (hactor s rfl) hfresh hexec
    | sbrk s n enough =>
        cases h
        exact .calm (calm_growproc enough n s k)
    | exit s => exact .exited (hactor s rfl) (exited_exit h)
    | wait s => exact acted_wait (.refl k) (hactor s rfl) h
    | join s stack =>
        cases h
        exact acted_join (.refl k) (hactor s rfl)
  · cases h

theorem Acted.embryo {k k' : Kernel} {r : Option (Call × Slot)} (h : Acted k k' r) {q : Slot}
    (hq : (k.proc q).state = .embryo) : (k'.proc q).state = .embryo := by
  cases h with
  | calm h => exact (h.embryo q).mpr hq
  | @asleep k₁ s c h hrun hscan heq =>
      have hq₁ := (h.embryo q).mpr hq
      have hne : q ≠ s := by
        rintro rfl
        rw [hrun] at hq₁
        cases hq₁
      rw [heq]
      simpa [sleep, hne] using hq₁
  | @reaped k₁ s t c h hscan hr =>
      have hq₁ := (h.embryo q).mpr hq
      have hne : q ≠ t := by
        rintro rfl
        rw [hr.zombie] at hq₁
        cases hq₁
      rw [hr.other q hne]
      exact hq₁
  | @exited s hs h =>
      have hne : q ≠ s := by
        rintro rfl
        rw [hs] at hq
        cases hq
      exact (h.embryo q hne).mpr hq
  | @execed s h =>
      have hne : q ≠ s := by
        rintro rfl
        rw [h.running] at hq
        cases hq
      rw [h.other q hne]
      exact hq

/-- A call creates no process, and the one it reaps is gone. -/
theorem Acted.unused {k k' : Kernel} {r : Option (Call × Slot)} (h : Acted k k' r) {q : Slot}
    (hq : (k'.proc q).state ≠ .unused) :
    (k.proc q).state ≠ .unused ∧ ∀ c t, r = some (c, t) → q ≠ t := by
  cases h with
  | calm h => exact ⟨fun hu => hq ((h.unused q).mpr hu), fun c t hr => by cases hr⟩
  | @asleep k₁ s c h hrun hscan heq =>
      refine ⟨fun hu => ?_, fun c t hr => by cases hr⟩
      have hu₁ := (h.unused q).mpr hu
      have hne : q ≠ s := by
        rintro rfl
        rw [hrun] at hu₁
        cases hu₁
      rw [heq] at hq
      simp [sleep, hne, hu₁] at hq
  | @reaped k₁ s t c h hscan hr =>
      have hne : q ≠ t := by
        rintro rfl
        rw [hr.self] at hq
        exact hq rfl
      rw [hr.other q hne] at hq
      refine ⟨fun hu => hq ((h.unused q).mpr hu), fun c' t' heq => ?_⟩
      cases heq
      exact hne
  | @exited s hs h =>
      refine ⟨fun hu => ?_, fun c t hr => by cases hr⟩
      have hne : q ≠ s := by
        rintro rfl
        rw [hs] at hu
        cases hu
      exact hq ((h.unused q hne).mpr hu)
  | @execed s h =>
      refine ⟨fun hu => ?_, fun c t hr => by cases hr⟩
      have hne : q ≠ s := by
        rintro rfl
        rw [h.running] at hu
        cases hu
      rw [h.other q hne] at hq
      exact hq hu

theorem Tree.execed {k k' : Kernel} {s : Slot} (h : Tree k) (he : Execed s k k') : Tree k' := by
  have hparent : ∀ q, (k'.proc q).parent = (k.proc q).parent := by
    intro q
    by_cases hq : q = s
    · rw [hq, he.parent]
    · rw [he.other q hq]
  have hstate : ∀ q, (k'.proc q).state = (k.proc q).state := by
    intro q
    by_cases hq : q = s
    · rw [hq, he.state, he.running]
    · rw [he.other q hq]
  refine ⟨?_, ?_, fun q r hpar => ?_, fun q hq => ?_⟩
  · rw [he.initproc, Proc.Active, hstate]
    exact h.init
  · rw [he.initproc, hparent]
    exact h.initRoot
  · rw [hparent] at hpar
    rw [Proc.Active, hstate]
    exact h.parents q r hpar
  · rw [Proc.Made, hstate] at hq
    rw [hparent]
    exact h.orphans q hq

theorem Acted.tree {k k' : Kernel} {r : Option (Call × Slot)} (h : Acted k k' r) (ht : Tree k) :
    Tree k' := by
  cases h with
  | calm h => exact ht.calm h
  | asleep h hrun hscan heq =>
      rw [heq]
      exact (ht.calm h).sleep
  | reaped h hscan hr => exact (ht.calm h).reaped hr
  | exited hs h => exact ht.exited h
  | execed h => exact ht.execed h

theorem Acted.waiting {k k' : Kernel} {r : Option (Call × Slot)} (h : Acted k k' r) (ht : Tree k)
    (hw : Waiting k) : Waiting k' := by
  cases h with
  | calm h => exact hw.calm h
  | asleep h hrun hscan heq =>
      rw [heq]
      exact (hw.calm h).sleep hscan
  | reaped h hscan hr => exact (hw.calm h).reaped hr
  | exited hs h => exact hw.exited ht h
  | execed h =>
      apply hw.other _ h.other
      rw [h.state]
      decide

end CS537.Threads
