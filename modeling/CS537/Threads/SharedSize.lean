import CS537.Threads.Lifetime

/-!
# Threads — the size of a shared address space

Processes that share a page directory each keep their own `sz`. `growproc`
writes it to every slot with the same directory, `clone` copies it, and `fork`
and `exec` start from a directory nobody has. So the copies agree, in every run
that frees no directory somebody still has.
-/

namespace CS537.Threads

/-- No process but the one being reaped or running `exec` had a directory when it
was freed. -/
def FreedAlone (k : Kernel) : Prop :=
  ∀ c ∈ k.freed, c.subject ≠ none → ∀ q ∈ c.holders, c.subject = some q

/-- Every process has a directory in use. -/
def HaveDirs (k : Kernel) : Prop :=
  ∀ q, (k.proc q).state ≠ .unused → ∃ d, (k.proc q).pgdir = some d ∧ k.allocated d = true

/-- Processes that share a page directory have the same size. -/
def SizesAgree (k : Kernel) : Prop :=
  ∀ q r, (k.proc q).state ≠ .unused → (k.proc r).state ≠ .unused →
    (k.proc q).pgdir = (k.proc r).pgdir → (k.proc q).sz = (k.proc r).sz

theorem FreedAlone.of_prefix {k k' : Kernel} (h : FreedAlone k') (hp : k.freed <+: k'.freed) :
    FreedAlone k := by
  intro c hc
  exact h c (hp.subset hc)

/-- A directory that was freed between two states is not in use. -/
def Released (k k' : Kernel) : Prop :=
  ∀ c ∈ k'.freed.drop k.freed.length, k'.allocated c.dir = false

theorem released_same {k k' : Kernel} (h : k'.freed = k.freed) : Released k k' := by
  intro c hc
  rw [h, List.drop_length] at hc
  cases hc

theorem released_one {k k' : Kernel} {c : Freevm} (h : k'.freed = k.freed ++ [c])
    (hc : k'.allocated c.dir = false) : Released k k' := by
  intro c' hc'
  rw [h, List.drop_left, List.mem_singleton] at hc'
  rw [hc']
  exact hc

/-! ## What one step does to the directories -/

/-- No process gets another directory or size, and none that stays loses its
directory. -/
structure Fewer (k k' : Kernel) : Prop where
  freed : k.freed <+: k'.freed
  released : Released k k'
  live : ∀ q, (k'.proc q).state ≠ .unused → (k.proc q).state ≠ .unused
  pgdir : ∀ q, (k'.proc q).state ≠ .unused → (k'.proc q).pgdir = (k.proc q).pgdir
  sz : ∀ q, (k'.proc q).state ≠ .unused → (k'.proc q).sz = (k.proc q).sz
  allocated : FreedAlone k' → ∀ q d, (k'.proc q).state ≠ .unused → (k.proc q).pgdir = some d →
    k.allocated d = true → k'.allocated d = true

/-- A step that frees nothing and touches no directory. -/
structure Untouched (k k' : Kernel) : Prop where
  freed : k'.freed = k.freed
  allocated : k'.allocated = k.allocated
  live : ∀ q, (k'.proc q).state ≠ .unused → (k.proc q).state ≠ .unused
  pgdir : ∀ q, (k'.proc q).state ≠ .unused → (k'.proc q).pgdir = (k.proc q).pgdir
  sz : ∀ q, (k'.proc q).state ≠ .unused → (k'.proc q).sz = (k.proc q).sz

theorem Untouched.refl (k : Kernel) : Untouched k k :=
  ⟨rfl, rfl, fun _ h => h, fun _ _ => rfl, fun _ _ => rfl⟩

theorem Untouched.trans {k k' k'' : Kernel} (h : Untouched k k') (h' : Untouched k' k'') :
    Untouched k k'' where
  freed := h'.freed.trans h.freed
  allocated := h'.allocated.trans h.allocated
  live q hq := h.live q (h'.live q hq)
  pgdir q hq := (h'.pgdir q hq).trans (h.pgdir q (h'.live q hq))
  sz q hq := (h'.sz q hq).trans (h.sz q (h'.live q hq))

theorem Untouched.fewer {k k' : Kernel} (h : Untouched k k') : Fewer k k' where
  freed := ⟨[], by rw [h.freed, List.append_nil]⟩
  released := released_same h.freed
  live := h.live
  pgdir := h.pgdir
  sz := h.sz
  allocated _ q d _ _ hal := by
    rw [h.allocated]
    exact hal

/-- An update of one slot that keeps its directory and size, unless it empties
the slot. -/
theorem Untouched.upd (k : Kernel) (s : Slot) {f : Proc → Proc}
    (hf : (f (k.proc s)).state ≠ .unused → (k.proc s).state ≠ .unused ∧
      (f (k.proc s)).pgdir = (k.proc s).pgdir ∧ (f (k.proc s)).sz = (k.proc s).sz) :
    Untouched k (k.upd s f) := by
  have hq : ∀ q, ((k.upd s f).proc q).state ≠ .unused → (k.proc q).state ≠ .unused ∧
      ((k.upd s f).proc q).pgdir = (k.proc q).pgdir ∧ ((k.upd s f).proc q).sz = (k.proc q).sz := by
    intro q hq
    by_cases hqs : q = s
    · subst hqs
      rw [Kernel.upd_proc, if_pos rfl] at hq ⊢
      exact hf hq
    · rw [Kernel.upd_proc, if_neg hqs] at hq ⊢
      exact ⟨hq, rfl, rfl⟩
  exact ⟨rfl, rfl, fun q h => (hq q h).1, fun q h => (hq q h).2.1, fun q h => (hq q h).2.2⟩

theorem untouched_wakeup1 (chan : Option Chan) (k : Kernel) : Untouched k (wakeup1 chan k) := by
  have hq : ∀ q, (((wakeup1 chan k).proc q).state ≠ .unused → (k.proc q).state ≠ .unused) ∧
      ((wakeup1 chan k).proc q).pgdir = (k.proc q).pgdir ∧
      ((wakeup1 chan k).proc q).sz = (k.proc q).sz := by
    intro q
    simp only [wakeup1]
    split
    · rename_i hsleep
      simp [hsleep.1]
    · simp
  exact ⟨rfl, rfl, fun q => (hq q).1, fun q _ => (hq q).2.1, fun q _ => (hq q).2.2⟩

theorem untouched_sleep {s : Slot} {k : Kernel} (chan : Chan) (call : Option Call)
    (hs : (k.proc s).state = .running) : Untouched k (sleep s chan call k) := by
  apply Untouched.upd
  intro _
  simp [hs]

theorem untouched_kill (pid : Int) (k : Kernel) : Untouched k (kill pid k).2 := by
  unfold kill
  split
  · exact .refl k
  · rename_i s _
    apply Untouched.upd k s (f := fun p =>
      { p with killed := true, state := if p.state = .sleeping then .runnable else p.state })
    intro hs
    by_cases hsleep : (k.proc s).state = .sleeping
    · simp [hsleep]
    · simpa [hsleep] using hs

theorem untouched_reparent (s : Slot) (ts : List Slot) (k : Kernel) :
    Untouched k (reparent s ts k) := by
  induction ts generalizing k with
  | nil => exact .refl k
  | cons t ts ih =>
      have hset : Untouched k (k.upd t fun p => { p with parent := some k.initproc }) := by
        apply Untouched.upd
        intro ht
        exact ⟨ht, rfl, rfl⟩
      unfold reparent
      split
      · dsimp only
        split
        · exact (hset.trans (untouched_wakeup1 _ _)).trans (ih _)
        · exact hset.trans (ih _)
      · exact ih k

theorem untouched_exit {k k' : Kernel} {s : Slot} (hs : (k.proc s).state = .running)
    (h : exit s k = some k') : Untouched k k' := by
  unfold exit at h
  split at h
  · cases h
  · rename_i hinit
    cases h
    have hwake := untouched_wakeup1 ((k.proc s).parent.map .proc) k
    apply (hwake.trans (untouched_reparent s slots _)).trans
    apply Untouched.upd
    intro _
    have hadopted := adopted_reparent slots (wakeup1 ((k.proc s).parent.map .proc) k) hinit
    have hlive := (hadopted.unused s).trans ((quiet_wakeup1 _ k).unused s)
    refine ⟨fun hu => ?_, rfl, rfl⟩
    rw [hlive, hs] at hu
    cases hu

/-! ## Freeing a directory -/

/-- Freeing the directory of a process that is gone afterwards. -/
theorem fewer_freevm {k k' : Kernel} {t : Slot} {d : PgDir} (ht : (k'.proc t).state = .unused)
    (hfreed : k'.freed = (freevm (some t) d k).freed)
    (hallocated : k'.allocated = (freevm (some t) d k).allocated)
    (hother : ∀ q, q ≠ t → k'.proc q = k.proc q) : Fewer k k' := by
  have hne : ∀ q, (k'.proc q).state ≠ .unused → q ≠ t := by
    rintro q hq rfl
    exact hq ht
  refine ⟨?_, ?_, fun q hq => ?_, fun q hq => ?_, fun q hq => ?_, fun halone q e hq he hal => ?_⟩
  · rw [hfreed]
    exact List.prefix_append _ _
  · apply released_one hfreed
    rw [hallocated]
    simp [freevm]
  · rw [← hother q (hne q hq)]
    exact hq
  · rw [hother q (hne q hq)]
  · rw [hother q (hne q hq)]
  · -- another process with the directory would be on the record
    have hed : e ≠ d := by
      rintro rfl
      have hlast := halone ⟨e, some t, holders e k, k.allocated e⟩
      rw [hfreed] at hlast
      have hmem : q ∈ holders e k := by
        apply mem_holders.mpr
        rw [hother q (hne q hq)] at hq
        exact ⟨hq, he⟩
      have heq := hlast (List.mem_append_right _ (List.mem_singleton.mpr rfl)) (by simp) q hmem
      exact hne q hq (Option.some.inj heq).symm
    rw [hallocated]
    simp [freevm, hed, hal]

theorem fewer_wait {k k' : Kernel} {s : Slot} (hs : (k.proc s).state = .running)
    (h : wait s k = some k') : Fewer k k' := by
  simp only [wait] at h
  split at h
  · rename_i t _
    obtain ⟨d, _, rfl⟩ := Option.map_eq_some_iff.mp h
    apply @fewer_freevm k _ t d
    · simp [Proc.reap]
    · rfl
    · rfl
    · intro q hq
      simp [freevm, hq]
  · split at h
    · cases h
      exact (Untouched.refl k).fewer
    · cases h
      exact (untouched_sleep _ _ hs).fewer

theorem untouched_join {k : Kernel} {s : Slot} (stack : Nat) (hs : (k.proc s).state = .running) :
    Untouched k (join stack s k) := by
  simp only [join]
  split
  · apply Untouched.upd
    intro hu
    exact absurd rfl hu
  · split
    · exact .refl k
    · exact untouched_sleep _ _ hs

theorem Untouched.then {k k' k'' : Kernel} (h : Untouched k k') (h' : Fewer k' k'') :
    Fewer k k'' where
  freed := by
    rw [← h.freed]
    exact h'.freed
  released := by
    unfold Released
    rw [← h.freed]
    exact h'.released
  live q hq := h.live q (h'.live q hq)
  pgdir q hq := (h'.pgdir q hq).trans (h.pgdir q (h'.live q hq))
  sz q hq := (h'.sz q hq).trans (h.sz q (h'.live q hq))
  allocated halone q d hq hd hal := by
    apply h'.allocated halone q d hq
    · rw [h.pgdir q (h'.live q hq)]
      exact hd
    · rw [h.allocated]
      exact hal

theorem fewer_schedule {k k' : Kernel} {s : Slot} (hs : (k.proc s).state = .runnable)
    (h : schedule s k = some k') : Fewer k k' := by
  have hpick : Untouched k (k.upd s fun p =>
      { p with state := .running, chan := none, call := none }) := by
    apply Untouched.upd
    intro _
    simp [hs]
  have hrun : ((k.upd s fun p =>
      { p with state := .running, chan := none, call := none }).proc s).state = .running := by
    simp
  unfold schedule at h
  split at h
  · cases h
    exact hpick.fewer
  · exact hpick.then (fewer_wait hrun h)
  · cases h
    exact hpick.then (untouched_join _ hrun).fewer

/-! ## Creation, exec and sbrk -/

/-- Slot `np` is filled with a process that has the directory and size of `s`, or
a new directory; nothing else changes. -/
structure Born (np s : Slot) (k k' : Kernel) : Prop where
  unused : (k.proc np).state = .unused
  running : (k.proc s).state = .running
  freed : k'.freed = k.freed
  other : ∀ q, q ≠ np → k'.proc q = k.proc q
  sz : (k'.proc np).sz = (k.proc s).sz
  dir : (k'.proc np).pgdir = (k.proc s).pgdir ∧ k'.allocated = k.allocated ∨
    ∃ d, (k'.proc np).pgdir = some d ∧ k.allocated d = false ∧
      k'.allocated = fun e => if e = d then true else k.allocated e

/-- An update of a slot that was unused, and is again. -/
theorem Untouched.upd_unused {k k' : Kernel} {np : Slot} (hfreed : k'.freed = k.freed)
    (hallocated : k'.allocated = k.allocated) (hnp : (k'.proc np).state = .unused)
    (hother : ∀ q, q ≠ np → k'.proc q = k.proc q) : Untouched k k' := by
  have hne : ∀ q, (k'.proc q).state ≠ .unused → k'.proc q = k.proc q := by
    intro q hq
    apply hother
    rintro rfl
    exact hq hnp
  refine ⟨hfreed, hallocated, fun q hq => ?_, fun q hq => ?_, fun q hq => ?_⟩
  · rw [← hne q hq]
    exact hq
  · rw [hne q hq]
  · rw [hne q hq]

theorem untouched_allocproc {kstack : Bool} {k k' : Kernel}
    (h : allocproc kstack k = (none, k')) : Untouched k k' := by
  unfold allocproc at h
  split at h
  · cases h
    exact .refl k
  · rename_i np _
    split at h
    · cases h
    · cases h
      apply @Untouched.upd_unused k _ np
      · rfl
      · rfl
      · simp
      · intro q hq
        simp [takeSlot, hq]

theorem fork_cases {k : Kernel} {s : Slot} {mem : ForkMemory} (hs : (k.proc s).state = .running)
    (hfresh : ∀ d ∈ (Event.fork s mem).fresh, k.allocated d = false) :
    Fewer k (fork mem s k).2 ∨ ∃ np d, mem = .copied d ∧ Born np s k (fork mem s k).2 ∧
      ((fork mem s k).2.proc np).pgdir = some d := by
  unfold fork
  rcases allocproc_cases (mem ≠ .noKstack) k with ⟨np, _, hnp, halloc⟩ | ⟨k', halloc, _⟩
  · have hgone : Untouched k ((takeSlot np k).upd np fun p =>
        { p with pgdir := none, state := .unused }) := by
      apply @Untouched.upd_unused k _ np
      · rfl
      · rfl
      · simp
      · intro q hq
        simp [takeSlot, hq]
    simp only [halloc]
    cases mem with
    | noKstack => exact .inl hgone.fewer
    | noPages d =>
        cases d with
        | none => exact .inl hgone.fewer
        | some d =>
            -- the directory of the failed copy is allocated and freed again
            apply Or.inl
            have hd : k.allocated d = false := hfresh d rfl
            refine ⟨List.prefix_append _ _, released_one rfl ?_, hgone.live, hgone.pgdir,
              hgone.sz, ?_⟩
            · simp [copyuvm, freevm]
            intro _ q e _ _ hal
            have hed : e ≠ d := by
              rintro rfl
              rw [hd] at hal
              cases hal
            simp [copyuvm, freevm, setupkvm, takeSlot, hed, hal]
    | copied d =>
        apply Or.inr
        refine ⟨np, d, rfl, ⟨hnp, hs, rfl, fun q hq => ?_, ?_, .inr ⟨d, ?_, hfresh d rfl, rfl⟩⟩, ?_⟩
        · simp [copyuvm, setupkvm, takeSlot, hq]
        · simp [copyuvm]
        · simp [copyuvm]
        · simp [copyuvm]
  · simp only [halloc]
    exact .inl (untouched_allocproc halloc).fewer

theorem clone_cases {k : Kernel} {s : Slot} {kstack : Bool} {stack : Nat}
    (hs : (k.proc s).state = .running) :
    Fewer k (clone kstack stack s k).2 ∨ ∃ np, Born np s k (clone kstack stack s k).2 ∧
      ((clone kstack stack s k).2.proc np).pgdir = (k.proc s).pgdir := by
  unfold clone
  split
  · exact .inl (Untouched.refl k).fewer
  · split
    · exact .inl (Untouched.refl k).fewer
    · rcases allocproc_cases kstack k with ⟨np, _, hnp, halloc⟩ | ⟨k', halloc, _⟩
      · simp only [halloc]
        apply Or.inr
        refine ⟨np, ⟨hnp, hs, rfl, fun q hq => ?_, ?_, .inl ⟨?_, rfl⟩⟩, ?_⟩
        · simp [takeSlot, hq]
        · simp
        · simp
        · simp
      · simp only [halloc]
        exact .inl (untouched_allocproc halloc).fewer

/-- The process in slot `s` gets a new directory and size, and its old directory
is freed. -/
structure Installed (s : Slot) (k k' : Kernel) : Prop where
  running : (k.proc s).state = .running
  freed : k.freed <+: k'.freed
  released : Released k k'
  other : ∀ q, q ≠ s → k'.proc q = k.proc q
  state : (k'.proc s).state = (k.proc s).state
  dir : ∃ d, (k'.proc s).pgdir = some d ∧ k.allocated d = false ∧
    ((∃ e, (k.proc s).pgdir = some e ∧ k.allocated e = true) → k'.allocated d = true)
  kept : FreedAlone k' → ∀ q d, q ≠ s → (k.proc q).state ≠ .unused →
    (k.proc q).pgdir = some d → k.allocated d = true → k'.allocated d = true

theorem exec_cases {k k' : Kernel} {s : Slot} {r : ExecResult} {code : Int}
    (hs : (k.proc s).state = .running)
    (hfresh : ∀ d ∈ (Event.exec s r).fresh, k.allocated d = false)
    (h : exec r s k = some (code, k')) :
    Fewer k k' ∨ ∃ d sz, r = .image d sz ∧ Installed s k k' ∧ (k'.proc s).pgdir = some d ∧
      (k'.proc s).sz = sz := by
  cases r with
  | bad d =>
      apply Or.inl
      cases d with
      | none =>
          cases h
          exact (Untouched.refl k).fewer
      | some d =>
          cases h
          refine ⟨List.prefix_append _ _, released_one rfl ?_, fun _ hq => hq, fun _ _ => rfl,
            fun _ _ => rfl, ?_⟩
          · simp [freevm]
          intro _ q e _ _ hal
          have hed : e ≠ d := by
            rintro rfl
            rw [hfresh e rfl] at hal
            cases hal
          simp [freevm, setupkvm, hed, hal]
  | image d sz =>
      apply Or.inr
      obtain ⟨old, hold, heq⟩ := Option.map_eq_some_iff.mp h
      cases heq
      have hd : k.allocated d = false := hfresh d rfl
      refine ⟨d, sz, rfl, ⟨hs, List.prefix_append _ _, released_one rfl ?_, fun q hq => ?_, ?_,
        ⟨d, ?_, hd, fun hdirs => ?_⟩, ?_⟩, ?_, ?_⟩
      · simp [freevm]
      · simp [freevm, setupkvm, hq]
      · simp [freevm, setupkvm]
      · simp [freevm]
      · obtain ⟨e, he, hal⟩ := hdirs
        have hne : d ≠ old := by
          rintro rfl
          rw [hold] at he
          cases he
          rw [hd] at hal
          cases hal
        simp [freevm, setupkvm, hne]
      · intro halone q e hqs hq he hal
        have hne : e ≠ old := by
          rintro rfl
          have hmem : q ∈ holders e ((setupkvm d k).upd s fun p =>
              { p with pgdir := some d, sz := sz }) := by
            apply mem_holders.mpr
            rw [Kernel.upd_proc, if_neg hqs]
            exact ⟨hq, he⟩
          have hlast := halone _ (List.mem_append_right _ (List.mem_singleton.mpr rfl)) (by simp) q
            hmem
          exact hqs (Option.some.inj hlast).symm
        by_cases hed : e = d
        · rw [hed, hd] at hal
          cases hal
        · simp [freevm, setupkvm, hne, hed, hal]
      · simp [freevm]
      · simp [freevm]

/-! ## The sizes agree -/

/-- The invariant of a run that frees no directory somebody else has. -/
structure Sized (k : Kernel) : Prop where
  dirs : HaveDirs k
  sizes : SizesAgree k

theorem Sized.fewer {k k' : Kernel} (h : Sized k) (hf : Fewer k k') (halone : FreedAlone k') :
    Sized k' := by
  refine ⟨fun q hq => ?_, fun q r hq hr heq => ?_⟩
  · obtain ⟨d, hd, hal⟩ := h.dirs q (hf.live q hq)
    exact ⟨d, (hf.pgdir q hq).trans hd, hf.allocated halone q d hq hd hal⟩
  · rw [hf.pgdir q hq, hf.pgdir r hr] at heq
    rw [hf.sz q hq, hf.sz r hr]
    exact h.sizes q r (hf.live q hq) (hf.live r hr) heq

/-- No process has a directory that is not allocated. -/
theorem HaveDirs.ne {k : Kernel} (h : HaveDirs k) {d : PgDir} (hd : k.allocated d = false)
    {q : Slot} (hq : (k.proc q).state ≠ .unused) : (k.proc q).pgdir ≠ some d := by
  intro heq
  obtain ⟨e, he, hal⟩ := h q hq
  rw [heq] at he
  cases he
  rw [hd] at hal
  cases hal

theorem Sized.born {k k' : Kernel} {np s : Slot} (h : Sized k) (hb : Born np s k k') :
    Sized k' := by
  have hs : (k.proc s).state ≠ .unused := by simp [hb.running]
  have hlive : ∀ q, q ≠ np → (k'.proc q).state ≠ .unused → (k.proc q).state ≠ .unused := by
    intro q hq hlive
    rw [← hb.other q hq]
    exact hlive
  -- the new process against any other
  have hnew : ∀ r, r ≠ np → (k'.proc r).state ≠ .unused →
      (k'.proc np).pgdir = (k'.proc r).pgdir → (k'.proc np).sz = (k'.proc r).sz := by
    intro r hr hlr heq
    have hlr' := hlive r hr hlr
    rw [hb.other r hr] at heq ⊢
    rcases hb.dir with ⟨hdir, _⟩ | ⟨d, hdir, hd, _⟩
    · rw [hb.sz]
      exact h.sizes s r hs hlr' (hdir.symm.trans heq)
    · exact absurd (heq.symm.trans hdir) (h.dirs.ne hd hlr')
  refine ⟨fun q hq => ?_, fun q r hq hr heq => ?_⟩
  · by_cases hqn : q = np
    · subst hqn
      rcases hb.dir with ⟨hdir, hal⟩ | ⟨d, hdir, _, hal⟩
      · rw [hdir, hal]
        exact h.dirs s hs
      · exact ⟨d, hdir, by simp [hal]⟩
    · obtain ⟨e, he, hale⟩ := h.dirs q (hlive q hqn hq)
      refine ⟨e, by rw [hb.other q hqn, he], ?_⟩
      rcases hb.dir with ⟨_, hal⟩ | ⟨d, _, _, hal⟩
      · rw [hal, hale]
      · by_cases hed : e = d <;> simp [hal, hed, hale]
  · by_cases hqn : q = np
    · by_cases hrn : r = np
      · rw [hqn, hrn]
      · subst hqn
        exact hnew r hrn hr heq
    · by_cases hrn : r = np
      · subst hrn
        exact (hnew q hqn hq heq.symm).symm
      · have hlq := hlive q hqn hq
        have hlr := hlive r hrn hr
        rw [hb.other q hqn, hb.other r hrn] at heq ⊢
        exact h.sizes q r hlq hlr heq

theorem Sized.installed {k k' : Kernel} {s : Slot} (h : Sized k) (hi : Installed s k k')
    (halone : FreedAlone k') : Sized k' := by
  obtain ⟨d, hdir, hd, hal⟩ := hi.dir
  have hlive : ∀ q, q ≠ s → (k'.proc q).state ≠ .unused → (k.proc q).state ≠ .unused := by
    intro q hq hlive
    rw [← hi.other q hq]
    exact hlive
  -- nobody else has the new directory
  have hne : ∀ r, r ≠ s → (k'.proc r).state ≠ .unused → (k'.proc r).pgdir ≠ some d := by
    intro r hr hlr
    have hlr' := hlive r hr hlr
    rw [hi.other r hr]
    exact h.dirs.ne hd hlr'
  refine ⟨fun q hq => ?_, fun q r hq hr heq => ?_⟩
  · by_cases hqs : q = s
    · subst hqs
      exact ⟨d, hdir, hal (h.dirs q (by simp [hi.running]))⟩
    · have hlq := hlive q hqs hq
      obtain ⟨e, he, hale⟩ := h.dirs q hlq
      exact ⟨e, by rw [hi.other q hqs, he], hi.kept halone q e hqs hlq he hale⟩
  · by_cases hqs : q = s
    · by_cases hrs : r = s
      · rw [hqs, hrs]
      · subst hqs
        exact absurd (heq.symm.trans hdir) (hne r hrs hr)
    · by_cases hrs : r = s
      · subst hrs
        exact absurd (heq.trans hdir) (hne q hqs hq)
      · have hlq := hlive q hqs hq
        have hlr := hlive r hrs hr
        rw [hi.other q hqs, hi.other r hrs] at heq ⊢
        exact h.sizes q r hlq hlr heq

/-- What `growproc` does when it succeeds: everybody with the caller's directory
gets the new size. -/
theorem growproc_cases (enough : Bool) (n : Int) (s : Slot) (k : Kernel) :
    (growproc enough n s k).2 = k ∨ ∃ sz, (growproc enough n s k).2 =
      { k with proc := fun t =>
          if (k.proc t).pgdir = (k.proc s).pgdir then { k.proc t with sz := sz } else k.proc t } := by
  simp only [growproc]
  split
  · exact .inl rfl
  · exact .inr ⟨_, rfl⟩

theorem Sized.growproc {k : Kernel} {s : Slot} (enough : Bool) (n : Int) (h : Sized k) :
    Sized (growproc enough n s k).2 := by
  rcases growproc_cases enough n s k with heq | ⟨sz, heq⟩
  · rw [heq]
    exact h
  · rw [heq]
    have hstate : ∀ q, (if (k.proc q).pgdir = (k.proc s).pgdir then { k.proc q with sz := sz }
        else k.proc q).state = (k.proc q).state := by
      intro q
      split <;> rfl
    have hdir : ∀ q, (if (k.proc q).pgdir = (k.proc s).pgdir then { k.proc q with sz := sz }
        else k.proc q).pgdir = (k.proc q).pgdir := by
      intro q
      split <;> rfl
    refine ⟨fun q hq => ?_, fun q r hq hr hqr => ?_⟩
    · simp only [hstate, hdir] at hq ⊢
      exact h.dirs q hq
    · simp only [hstate, hdir] at hq hr hqr
      have hold := h.sizes q r hq hr hqr
      by_cases hshare : (k.proc q).pgdir = (k.proc s).pgdir
      · simp [hshare, ← hqr]
      · have hshare' : (k.proc r).pgdir ≠ (k.proc s).pgdir := fun hr' => hshare (hqr.trans hr')
        simp [hshare, hshare', hold]

/-- What a step does to the directories and sizes. -/
inductive Change (k : Kernel) (k' : Kernel) : Event → Prop
  | fewer {e : Event} (h : Fewer k k') (hne : ∀ s n enough, e ≠ .sbrk s n enough) : Change k k' e
  | cloned {np s : Slot} {stack : Nat} {kstack : Bool} (h : Born np s k k')
      (hdir : (k'.proc np).pgdir = (k.proc s).pgdir) : Change k k' (.clone s stack kstack)
  | forked {np s : Slot} {d : PgDir} (h : Born np s k k')
      (hdir : (k'.proc np).pgdir = some d) : Change k k' (.fork s (.copied d))
  | installed {s : Slot} {d : PgDir} {sz : Nat} (h : Installed s k k')
      (hdir : (k'.proc s).pgdir = some d) (hsz : (k'.proc s).sz = sz) :
      Change k k' (.exec s (.image d sz))
  | grown {s : Slot} {n : Int} {enough : Bool} (hs : (k.proc s).state = .running)
      (h : k' = (growproc enough n s k).2) : Change k k' (.sbrk s n enough)

theorem step_cases {k k' : Kernel} {e : Event} (hs : Step k e k') : Change k k' e := by
  simp only [Step, Threads.step] at hs
  split at hs
  · rename_i hcan
    obtain ⟨hactor, hfresh⟩ := hcan
    cases e with
    | schedule s =>
        simp only [effect, Option.ite_none_right_eq_some] at hs
        exact .fewer (fewer_schedule hs.1 hs.2) (by simp)
    | yield s =>
        cases hs
        refine .fewer (Untouched.upd k s fun _ => ?_).fewer (by simp)
        simp [hactor s rfl]
    | sleep s addr =>
        cases hs
        exact .fewer (untouched_sleep _ _ (hactor s rfl)).fewer (by simp)
    | wakeup addr =>
        cases hs
        exact .fewer (untouched_wakeup1 _ k).fewer (by simp)
    | kill pid =>
        cases hs
        exact .fewer (untouched_kill pid k).fewer (by simp)
    | fork s mem =>
        cases hs
        rcases fork_cases (hactor s rfl) hfresh with hf | ⟨np, d, rfl, hb, hdir⟩
        · exact .fewer hf (by simp)
        · exact .forked hb hdir
    | clone s stack kstack =>
        cases hs
        rcases @clone_cases k s kstack stack (hactor s rfl) with hf | ⟨np, hb, hdir⟩
        · exact .fewer hf (by simp)
        · exact .cloned hb hdir
    | exec s r =>
        obtain ⟨⟨code, k''⟩, hexec, rfl⟩ := Option.map_eq_some_iff.mp hs
        rcases exec_cases (hactor s rfl) hfresh hexec with hf | ⟨d, sz, rfl, hi, hdir, hsz⟩
        · exact .fewer hf (by simp)
        · exact .installed hi hdir hsz
    | sbrk s n enough =>
        cases hs
        exact .grown (hactor s rfl) rfl
    | exit s => exact .fewer (untouched_exit (hactor s rfl) hs).fewer (by simp)
    | wait s => exact .fewer (fewer_wait (hactor s rfl) hs) (by simp)
    | join s stack =>
        cases hs
        exact .fewer (untouched_join stack (hactor s rfl)).fewer (by simp)
  · cases hs

/-- The record of freed directories only grows. -/
theorem step_freed {k k' : Kernel} {e : Event} (hs : Step k e k') : k.freed <+: k'.freed := by
  have hborn : ∀ np s, Born np s k k' → k.freed <+: k'.freed :=
    fun _ _ h => ⟨[], by rw [h.freed, List.append_nil]⟩
  cases step_cases hs with
  | fewer h _ => exact h.freed
  | cloned h _ => exact hborn _ _ h
  | forked h _ => exact hborn _ _ h
  | installed h _ _ => exact h.freed
  | @grown s n enough _ h =>
      rw [h]
      rcases growproc_cases enough n s k with heq | ⟨sz, heq⟩
      · simp only [heq, List.prefix_rfl]
      · simp only [heq, List.prefix_rfl]

theorem Sized.step {k k' : Kernel} {e : Event} (h : Sized k) (hs : Step k e k')
    (halone : FreedAlone k') : Sized k' := by
  cases step_cases hs with
  | fewer hf _ => exact h.fewer hf halone
  | cloned hb _ => exact h.born hb
  | forked hb _ => exact h.born hb
  | installed hi _ _ => exact h.installed hi halone
  | @grown s n enough _ heq =>
      rw [heq]
      exact h.growproc enough n

theorem sized_boot : Sized boot := by
  refine ⟨inv_boot.dirs, fun q r hq hr heq => ?_⟩
  have halive : ∀ q : Slot, (boot.proc q).state ≠ .unused → q = 0 ∨ q = 1 := by decide
  rcases halive q hq with rfl | rfl
  · rcases halive r hr with rfl | rfl
    · rfl
    · cases heq
  · rcases halive r hr with rfl | rfl
    · cases heq
    · rfl

/-- Along a run that frees no directory somebody else has. -/
theorem sized_reachable {k : Kernel} (h : Lts.Reachable (· = boot) Step k)
    (halone : FreedAlone k) : Sized k := by
  have hinv : FreedAlone k → Sized k := by
    refine @Lts.Reachable.invariant _ _ _ _ (fun k => FreedAlone k → Sized k) ?_
      (fun k e k' ih hs => ?_) k h
    · rintro k rfl
      exact fun _ => sized_boot
    · intro halone'
      exact (ih (halone'.of_prefix (step_freed hs))).step hs halone'
  exact hinv halone

/-- **Shared size**: along a run that frees no directory somebody else has,
processes that share a directory have the same size, and `growproc` changes the
size of no process with another directory. -/
theorem shared_size_agrees {k : Kernel} (h : Lts.Reachable (· = boot) Step k)
    (halone : FreedAlone k) :
    (∀ q r, (k.proc q).state ≠ .unused → (k.proc r).state ≠ .unused →
      (k.proc q).pgdir = (k.proc r).pgdir → (k.proc q).sz = (k.proc r).sz) ∧
    ∀ s n enough q, (k.proc q).state ≠ .unused → (k.proc q).pgdir ≠ (k.proc s).pgdir →
      ((growproc enough n s k).2.proc q).sz = (k.proc q).sz := by
  apply And.intro
  · exact (sized_reachable h halone).sizes
  · intro s n enough q _ hne
    rcases growproc_cases enough n s k with heq | ⟨sz, heq⟩
    · rw [heq]
    · rw [heq]
      dsimp only
      rw [if_neg hne]

/-- The shell clones a thread, which grows the address space; then the shell
execs. -/
def grown : List Event :=
  [.schedule 1, .clone 1 4096 true, .schedule 2, .sbrk 2 4096 true, .exit 2, .join 1 0,
    .exec 1 (.image 7 8192)]

theorem grown_run :
    (Lts.exec step boot grown).map (fun k => (k.freed, (k.proc 1).sz)) =
      some ([⟨1, some 1, [], true⟩], 8192) := by
  decide +kernel

theorem shared_size_agrees_grown :
    ∃ k : Kernel, k.freed = [⟨1, some 1, [], true⟩] ∧ (k.proc 1).sz = 8192 ∧
      ∀ q r, (k.proc q).state ≠ .unused → (k.proc r).state ≠ .unused →
        (k.proc q).pgdir = (k.proc r).pgdir → (k.proc q).sz = (k.proc r).sz := by
  obtain ⟨k, hk, hfacts⟩ := Option.map_eq_some_iff.mp grown_run
  simp only [Prod.mk.injEq] at hfacts
  have halone : FreedAlone k := by
    unfold FreedAlone
    rw [hfacts.1]
    decide
  exact ⟨k, hfacts.1, hfacts.2, (shared_size_agrees ⟨boot, grown, rfl, .of_exec hk⟩ halone).1⟩

end CS537.Threads
