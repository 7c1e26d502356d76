import CS537.Threads.Sleepers

/-!
# Threads — reaping

Over the history: nobody is reaped twice, and `join` reaps threads with the stack
pointers they were cloned with, unless a directory was freed under a process that
still had it.
-/

namespace CS537.Threads

open MachineInt

/-! ## The invariant -/

/-- What holds along every run: the tree, the sleepers, the children that are being
created, and the serial numbers. -/
structure Orderly (y : History) : Prop where
  tree : Tree y.kernel
  waiting : Waiting y.kernel
  making : ∀ s np c, y.making s = some (np, c) → (y.kernel.proc np).state = .embryo
  apart : ∀ s s' np c c', y.making s = some (np, c) → y.making s' = some (np, c') → s = s'
  live : ∀ q, (y.kernel.proc q).state ≠ .unused → y.serial q < y.count ∧ y.serial q ∉ y.reaped
  distinct : ∀ q r, (y.kernel.proc q).state ≠ .unused → (y.kernel.proc r).state ≠ .unused →
    y.serial q = y.serial r → q = r
  past : ∀ n ∈ y.reaped, n < y.count
  once : y.reaped.Nodup

/-- The free slot a creation takes. -/
theorem startChild_some {s np : Slot} {c : Creation} {k k' : Kernel}
    (h : startChild s c k = some (np, k')) : (k.proc np).state = .unused ∧ k' = takeSlot np k := by
  have hmap : ((k.find fun p => p.state = .unused).map fun np => (np, takeSlot np k))
      = some (np, k') := by
    cases c with
    | fork => exact h
    | clone stack =>
        simp only [startChild] at h
        split at h
        · cases h
        · exact h
  obtain ⟨np', hfind, heq⟩ := Option.map_eq_some_iff.mp hmap
  cases heq
  refine ⟨?_, rfl⟩
  have hfound := findSlot_some hfind
  simpa using hfound

theorem takeSlot_self (np : Slot) (k : Kernel) : (takeSlot np k).proc np =
    { k.proc np with state := .embryo, pid := k.nextpid, stack := 0 } := by
  simp [takeSlot]

theorem takeSlot_other (np : Slot) (k : Kernel) {q : Slot} (hq : q ≠ np) :
    (takeSlot np k).proc q = k.proc q := by
  simp [takeSlot, hq]

theorem Tree.takeSlot {k : Kernel} {np : Slot} (h : Tree k)
    (hnp : (k.proc np).state = .unused) : Tree (takeSlot np k) := by
  have hactive : ∀ q, (k.proc q).Active → (Threads.takeSlot np k).proc q = k.proc q := by
    intro q hq
    apply takeSlot_other
    rintro rfl
    exact hq.1 hnp
  have hparent : ∀ q, ((Threads.takeSlot np k).proc q).parent = (k.proc q).parent := by
    intro q
    by_cases hq : q = np
    · rw [hq, takeSlot_self]
    · rw [takeSlot_other np k hq]
  refine ⟨?_, ?_, fun q r hpar => ?_, fun q hq => ?_⟩
  · change ((Threads.takeSlot np k).proc k.initproc).Active
    rw [hactive _ h.init]
    exact h.init
  · change ((Threads.takeSlot np k).proc k.initproc).parent = none
    rw [hparent]
    exact h.initRoot
  · rw [hparent] at hpar
    obtain ⟨hne, hr⟩ := h.parents q r hpar
    rw [hactive r hr]
    exact ⟨hne, hr⟩
  · rw [hparent]
    apply h.orphans
    intro hmade
    apply hq
    by_cases hqn : q = np
    · rw [hqn] at hmade
      exact absurd hnp hmade.1
    · rw [takeSlot_other np k hqn]
      exact hmade

/-- The second half of a creation: the slot is emptied again, or holds a `RUNNABLE`
child, with the directory of its parent if it is cloned. -/
inductive Finished (s np : Slot) (c : Creation) (k k' : Kernel) : Prop
  | failed (hinit : k'.initproc = k.initproc) (hself : (k'.proc np).state = .unused)
      (hparent : (k'.proc np).parent = (k.proc np).parent)
      (hother : ∀ q, q ≠ np → k'.proc q = k.proc q) : Finished s np c k k'
  | made (hinit : k'.initproc = k.initproc) (hself : (k'.proc np).state = .runnable)
      (hparent : (k'.proc np).parent = some s)
      (hother : ∀ q, q ≠ np → k'.proc q = k.proc q)
      (hclone : ∀ stack, c = .clone stack →
        (k'.proc np).pgdir = (k.proc s).pgdir ∧ (k'.proc np).stack = stack)
      (hfork : c = .fork → ∃ d, (k'.proc np).pgdir = some d ∧ k.allocated d = false ∧
        k'.allocated d = true) : Finished s np c k k'

theorem finished_finishChild {s np : Slot} {mem : ForkMemory} {c : Creation} {k : Kernel}
    (hfresh : ∀ d ∈ mem.fresh, k.allocated d = false) :
    Finished s np c k (finishChild s np mem c k) := by
  have hempty : Finished s np c k (k.upd np fun p => { p with state := .unused }) := by
    refine .failed rfl (by simp) (by simp) fun q hq => by simp [hq]
  cases c with
  | fork =>
      cases mem with
      | noKstack => exact hempty
      | noPages d =>
          cases d with
          | none =>
              refine .failed rfl ?_ ?_ fun q hq => ?_
              · simp [finishChild, copyuvm]
              · simp [finishChild, copyuvm]
              · simp [finishChild, copyuvm, hq]
          | some d =>
              refine .failed rfl ?_ ?_ fun q hq => ?_
              · simp [finishChild, copyuvm]
              · simp [finishChild, copyuvm, freevm, setupkvm]
              · simp [finishChild, copyuvm, freevm, setupkvm, hq]
      | copied d =>
          refine .made rfl ?_ ?_ (fun q hq => ?_) (fun _ hc => by cases hc)
            fun _ => ⟨d, ?_, hfresh d rfl, ?_⟩
          · simp [finishChild, copyuvm]
          · simp [finishChild, copyuvm]
          · simp [finishChild, copyuvm, setupkvm, hq]
          · simp [finishChild, copyuvm]
          · simp [finishChild, copyuvm, setupkvm]
  | clone stack =>
      have hmade : Finished s np (.clone stack) k (k.upd np fun p =>
          { p with pgdir := (k.proc s).pgdir, sz := (k.proc s).sz, parent := some s,
                   stack := stack, state := .runnable, call := none }) := by
        refine .made rfl ?_ ?_ (fun q hq => ?_) (fun stack' hc => ?_) (fun hc => by cases hc)
        · simp
        · simp
        · simp [hq]
        · cases hc
          simp
      cases mem with
      | noKstack => exact hempty
      | noPages d => exact hmade
      | copied d => exact hmade

/-- Directories in use stay in use, and the record of freed ones only grows. -/
theorem finishChild_dirs {s np : Slot} {mem : ForkMemory} {c : Creation} {k : Kernel}
    (hfresh : ∀ d ∈ mem.fresh, k.allocated d = false) :
    k.freed <+: (finishChild s np mem c k).freed ∧
      ∀ e, k.allocated e = true → (finishChild s np mem c k).allocated e = true := by
  cases c with
  | clone stack =>
      cases mem with
      | noKstack => exact ⟨List.prefix_rfl, fun _ h => h⟩
      | noPages d => exact ⟨List.prefix_rfl, fun _ h => h⟩
      | copied d => exact ⟨List.prefix_rfl, fun _ h => h⟩
  | fork =>
      cases mem with
      | noKstack => exact ⟨List.prefix_rfl, fun _ h => h⟩
      | noPages d =>
          cases d with
          | none => exact ⟨List.prefix_rfl, fun _ h => h⟩
          | some d =>
              refine ⟨List.prefix_append _ _, fun e he => ?_⟩
              have hne : e ≠ d := by
                rintro rfl
                rw [hfresh e rfl] at he
                cases he
              simp [finishChild, copyuvm, freevm, setupkvm, hne, he]
      | copied d =>
          refine ⟨List.prefix_rfl, fun e he => ?_⟩
          simp [finishChild, copyuvm, setupkvm, he]

theorem Finished.other {s np : Slot} {c : Creation} {k k' : Kernel} (h : Finished s np c k k') :
    (∀ q, q ≠ np → k'.proc q = k.proc q) ∧ k'.initproc = k.initproc ∧
      ((k'.proc np).state = .unused ∨ (k'.proc np).state = .runnable) := by
  cases h with
  | failed hinit hself hparent hother => exact ⟨hother, hinit, .inl hself⟩
  | made hinit hself hparent hother _ _ => exact ⟨hother, hinit, .inr hself⟩

theorem Tree.finished {s np : Slot} {c : Creation} {k k' : Kernel} (h : Tree k)
    (hs : (k.proc s).state = .running) (hnp : (k.proc np).state = .embryo)
    (hf : Finished s np c k k') : Tree k' := by
  obtain ⟨hother, hinit, _⟩ := hf.other
  have hactive : ∀ q, (k.proc q).Active → k'.proc q = k.proc q := by
    intro q hq
    apply hother
    rintro rfl
    exact hq.2.1 hnp
  have hnone : (k.proc np).parent = none := h.orphans np (by simp [Proc.Made, hnp])
  have hsnp : s ≠ np := by
    rintro rfl
    rw [hs] at hnp
    cases hnp
  refine ⟨?_, ?_, fun q r hpar => ?_, fun q hq => ?_⟩
  · rw [hinit, hactive _ h.init]
    exact h.init
  · rw [hinit, hactive _ h.init]
    exact h.initRoot
  · by_cases hqn : q = np
    · subst hqn
      cases hf with
      | failed _ _ hparent _ =>
          rw [hparent, hnone] at hpar
          cases hpar
      | made _ _ hparent _ _ _ =>
          cases hparent.symm.trans hpar
          refine ⟨hsnp, ?_⟩
          rw [hother s hsnp]
          exact .of_running hs
    · rw [hother q hqn] at hpar
      obtain ⟨hne, hr⟩ := h.parents q r hpar
      rw [hactive r hr]
      exact ⟨hne, hr⟩
  · by_cases hqn : q = np
    · subst hqn
      cases hf with
      | failed _ _ hparent _ => exact hparent.trans hnone
      | made _ hself _ _ _ _ => exact absurd (by simp [Proc.Made, hself]) hq
    · rw [hother q hqn] at hq ⊢
      exact h.orphans q hq

theorem Orderly.start {y y' : History} {s : Slot} {c : Creation} (h : Orderly y)
    (hs : y.Step (.start s c) y') : Orderly y' := by
  simp only [History.Step, History.step] at hs
  split at hs
  · rename_i hcan
    split at hs
    · cases hs
      exact h
    · rename_i np k' hstart
      cases hs
      obtain ⟨hnp, rfl⟩ := startChild_some hstart
      have hself := takeSlot_self np y.kernel
      have hlive : ∀ q, q ≠ np → ((takeSlot np y.kernel).proc q).state ≠ .unused →
          (y.kernel.proc q).state ≠ .unused := by
        intro q hq hl
        rw [takeSlot_other np y.kernel hq] at hl
        exact hl
      refine ⟨h.tree.takeSlot hnp, h.waiting.other ?_ fun q hq => takeSlot_other np _ hq,
        fun s' np' c' hm => ?_, fun s₁ s₂ np' c₁ c₂ h₁ h₂ => ?_, fun q hq => ?_,
        fun q r hq hr heq => ?_, fun n hn => Nat.lt_succ_of_lt (h.past n hn), h.once⟩
      · rw [hself]
        exact ⟨by simp, by simp⟩
      · dsimp only at hm ⊢
        split at hm
        · cases hm
          rw [hself]
        · have hold := h.making s' np' c' hm
          have hne : np' ≠ np := by
            rintro rfl
            rw [hnp] at hold
            cases hold
          rw [takeSlot_other np _ hne]
          exact hold
      · have hno : ∀ t c', y.making t ≠ some (np, c') := by
          intro t c' ht
          have hold := h.making t np c' ht
          rw [hnp] at hold
          cases hold
        dsimp only at h₁ h₂
        split at h₁
        · rename_i hs₁
          split at h₂
          · rename_i hs₂
            rw [hs₁, hs₂]
          · cases h₁
            exact absurd h₂ (hno s₂ c₂)
        · split at h₂
          · cases h₂
            exact absurd h₁ (hno s₁ c₁)
          · exact h.apart s₁ s₂ np' c₁ c₂ h₁ h₂
      · dsimp only
        split
        · exact ⟨Nat.lt_succ_self _, fun hmem => Nat.lt_irrefl _ (h.past _ hmem)⟩
        · rename_i hqn
          obtain ⟨hlt, hno⟩ := h.live q (hlive q hqn hq)
          exact ⟨Nat.lt_succ_of_lt hlt, hno⟩
      · dsimp only at heq
        by_cases hqn : q = np
        · by_cases hrn : r = np
          · rw [hqn, hrn]
          · rw [if_pos hqn, if_neg hrn] at heq
            have hlt := (h.live r (hlive r hrn hr)).1
            omega
        · by_cases hrn : r = np
          · rw [if_neg hqn, if_pos hrn] at heq
            have hlt := (h.live q (hlive q hqn hq)).1
            omega
          · rw [if_neg hqn, if_neg hrn] at heq
            exact h.distinct q r (hlive q hqn hq) (hlive r hrn hr) heq
  · cases hs

theorem Orderly.finish {y y' : History} {s : Slot} {mem : ForkMemory} (h : Orderly y)
    (hs : y.Step (.finish s mem) y') : Orderly y' := by
  simp only [History.Step, History.step] at hs
  split at hs
  · cases hs
  · rename_i np c hmaking
    split at hs
    · rename_i hcan
      cases hs
      have hnp := h.making s np c hmaking
      have hf := @finished_finishChild s np mem c y.kernel hcan.2
      obtain ⟨hother, _, hstate⟩ := hf.other
      have hlive : ∀ q, ((finishChild s np mem c y.kernel).proc q).state ≠ .unused →
          (y.kernel.proc q).state ≠ .unused := by
        intro q hq
        by_cases hqn : q = np
        · rw [hqn, hnp]
          decide
        · rw [hother q hqn] at hq
          exact hq
      refine ⟨h.tree.finished hcan.1 hnp hf, h.waiting.other ?_ hother,
        fun s' np' c' hm => ?_, fun s₁ s₂ np' c₁ c₂ h₁ h₂ => ?_,
        fun q hq => h.live q (hlive q hq),
        fun q r hq hr => h.distinct q r (hlive q hq) (hlive r hr), h.past, h.once⟩
      · rcases hstate with hu | hu
        · rw [hu]
          decide
        · rw [hu]
          decide
      · dsimp only at hm
        split at hm
        · cases hm
        · rename_i hne
          have hnn : np' ≠ np := by
            rintro rfl
            exact hne (h.apart s' s np' c' c hm hmaking)
          rw [hother np' hnn]
          exact h.making s' np' c' hm
      · dsimp only at h₁ h₂
        split at h₁
        · cases h₁
        · split at h₂
          · cases h₂
          · exact h.apart s₁ s₂ np' c₁ c₂ h₁ h₂
    · cases hs

/-- The child that is reaped is a zombie the call looked for. -/
theorem Acted.reapedKid {k k' : Kernel} {c : Call} {t : Slot} (h : Acted k k' (some (c, t))) :
    (k.proc t).state = .zombie ∧ ∃ s, c.kid s (k.proc s) (k.proc t) = true := by
  cases h with
  | @reaped k₁ s _ _ h hscan hr =>
      refine ⟨(h.zombie t).mp hr.zombie, s, ?_⟩
      rw [← (scan_some hscan).1]
      exact (Call.kid_congr ⟨h.pid s, h.pgdir s⟩ ⟨h.pid t, h.parent t, h.pgdir t⟩).symm

/-- What a call adds to the history. -/
structure History.Called (y y' : History) (r : Option (Call × Slot)) : Prop where
  making : y'.making = y.making
  count : y'.count = y.count
  serial : y'.serial = y.serial
  origin : y'.origin = y.origin
  quiet : r = none → y'.reaped = y.reaped ∧ y'.joined = y.joined
  child : ∀ c t, r = some (c, t) → y'.reaped = y.reaped ++ [y.serial t] ∧ y'.joined =
    match c with
    | .wait => y.joined
    | .join addr => y.joined ++ [⟨y.origin t, addr, (y.kernel.proc t).stack⟩]

theorem History.step_call {y y' : History} {e : Event} (hs : y.Step (.call e) y') :
    Threads.Step y.kernel e y'.kernel ∧ Acted y.kernel y'.kernel (reapedBy y.kernel e) ∧
      y.Called y' (reapedBy y.kernel e) := by
  simp only [History.Step, History.step] at hs
  split at hs
  · rename_i hallow
    obtain ⟨k', hk, heq⟩ := Option.map_eq_some_iff.mp hs
    have hacted := acted_step hk (by rintro s mem rfl; cases hallow)
      (by rintro s stack kstack rfl; cases hallow)
    cases hr : reapedBy y.kernel e with
    | none =>
        rw [hr] at heq hacted
        cases heq
        exact ⟨hk, hacted, rfl, rfl, rfl, rfl, (fun _ => ⟨rfl, rfl⟩), (fun c t h => by cases h)⟩
    | some r =>
        obtain ⟨c, t⟩ := r
        rw [hr] at heq hacted
        cases heq
        refine ⟨hk, hacted, rfl, rfl, rfl, rfl, (fun h => by cases h), fun c' t' h => ?_⟩
        cases h
        exact ⟨rfl, rfl⟩
  · cases hs

theorem Orderly.call {y y' : History} {e : Event} (h : Orderly y)
    (hs : y.Step (.call e) y') : Orderly y' := by
  obtain ⟨_, hacted, hcall⟩ := History.step_call hs
  generalize reapedBy y.kernel e = r at hacted hcall
  have hgone : ∀ q, (y'.kernel.proc q).state ≠ .unused → (y.kernel.proc q).state ≠ .unused ∧
      ∀ c t, r = some (c, t) → q ≠ t := fun q hq => hacted.unused hq
  refine ⟨hacted.tree h.tree, hacted.waiting h.tree h.waiting, fun s np c hm => ?_,
    fun s s' np c c' hm hm' => ?_, fun q hq => ?_, fun q r' hq hr' heq => ?_, fun n hn => ?_, ?_⟩
  · rw [hcall.making] at hm
    exact hacted.embryo (h.making s np c hm)
  · rw [hcall.making] at hm hm'
    exact h.apart s s' np c c' hm hm'
  · obtain ⟨hlive, hne⟩ := hgone q hq
    obtain ⟨hlt, hno⟩ := h.live q hlive
    rw [hcall.count, hcall.serial]
    refine ⟨hlt, fun hmem => ?_⟩
    cases r with
    | none =>
        rw [(hcall.quiet rfl).1] at hmem
        exact hno hmem
    | some ct =>
        obtain ⟨c, t⟩ := ct
        rw [(hcall.child c t rfl).1] at hmem
        rcases List.mem_append.mp hmem with hmem | hmem
        · exact hno hmem
        · -- the number of the process that was reaped is nobody else's
          have hz := hacted.reapedKid.1
          have htl : (y.kernel.proc t).state ≠ .unused := by simp [hz]
          exact hne c t rfl (h.distinct q t hlive htl (List.mem_singleton.mp hmem))
  · rw [hcall.serial] at heq
    exact h.distinct q r' (hgone q hq).1 (hgone r' hr').1 heq
  · rw [hcall.count]
    cases r with
    | none =>
        rw [(hcall.quiet rfl).1] at hn
        exact h.past n hn
    | some ct =>
        obtain ⟨c, t⟩ := ct
        rw [(hcall.child c t rfl).1] at hn
        rcases List.mem_append.mp hn with hn | hn
        · exact h.past n hn
        · have hz := hacted.reapedKid.1
          rw [List.mem_singleton.mp hn]
          exact (h.live t (by simp [hz])).1
  · cases r with
    | none =>
        rw [(hcall.quiet rfl).1]
        exact h.once
    | some ct =>
        obtain ⟨c, t⟩ := ct
        rw [(hcall.child c t rfl).1]
        have hz := hacted.reapedKid.1
        have hno := (h.live t (by simp [hz])).2
        apply List.nodup_append.mpr
        refine ⟨h.once, List.nodup_singleton _, fun a ha b hb => ?_⟩
        rw [List.mem_singleton.mp hb]
        rintro rfl
        exact hno ha

theorem Orderly.step {y y' : History} {a : Action} (h : Orderly y) (hs : y.Step a y') :
    Orderly y' := by
  cases a with
  | start s c => exact h.start hs
  | finish s mem => exact h.finish hs
  | call e => exact h.call hs

/-! ## Where a thread comes from -/

/-- What holds along a run that frees no directory somebody else has: a process
that was forked has a directory of its own, and one that was cloned has the stack
pointer it was cloned with. -/
structure Origins (y : History) : Prop where
  dirs : ∀ q, (y.kernel.proc q).Made →
    ∃ d, (y.kernel.proc q).pgdir = some d ∧ y.kernel.allocated d = true
  stack : ∀ q stack, (y.kernel.proc q).Made → y.origin q = some stack →
    (y.kernel.proc q).stack = stack
  forked : ∀ q, (y.kernel.proc q).Made → y.origin q = none →
    (∀ r, (y.kernel.proc q).parent = some r →
      (y.kernel.proc r).pgdir ≠ (y.kernel.proc q).pgdir) ∧
    (q ≠ y.kernel.initproc →
      (y.kernel.proc y.kernel.initproc).pgdir ≠ (y.kernel.proc q).pgdir)
  joined : ∀ j ∈ y.joined, j.origin = some j.value

/-- Nobody has a directory that is not in use. -/
theorem Origins.ne {y : History} (h : Origins y) {d : PgDir}
    (hd : y.kernel.allocated d = false) {q : Slot} (hq : (y.kernel.proc q).Made) :
    (y.kernel.proc q).pgdir ≠ some d := by
  intro heq
  obtain ⟨e, he, hal⟩ := h.dirs q hq
  cases heq.symm.trans he
  rw [hd] at hal
  cases hal

/-- A child with the directory of its parent was cloned. -/
theorem Origins.cloned {y : History} (h : Origins y) {s t : Slot} (ht : (y.kernel.proc t).Made)
    (hpar : (y.kernel.proc t).parent = some s)
    (hdir : (y.kernel.proc t).pgdir = (y.kernel.proc s).pgdir) :
    y.origin t = some (y.kernel.proc t).stack := by
  cases horigin : y.origin t with
  | none => exact absurd hdir.symm ((h.forked t ht horigin).1 s hpar)
  | some stack => rw [h.stack t stack ht horigin]

/-- The parts of the table `Origins` is about, when no process gets another
directory. -/
theorem Origins.kept {y y' : History} (h : Origins y) (ht : Tree y.kernel)
    (hinit : y'.kernel.initproc = y.kernel.initproc)
    (horigin : ∀ q, (y'.kernel.proc q).Made → y'.origin q = y.origin q)
    (hmade : ∀ q, (y'.kernel.proc q).Made → (y.kernel.proc q).Made ∧
      (y'.kernel.proc q).stack = (y.kernel.proc q).stack)
    (hpgdir : ∀ q, (y.kernel.proc q).Made → (y'.kernel.proc q).pgdir = (y.kernel.proc q).pgdir)
    (hparent : ∀ q r, (y'.kernel.proc q).parent = some r →
      (y.kernel.proc q).parent = some r ∨ r = y.kernel.initproc ∧ q ≠ y.kernel.initproc)
    (hdirs : ∀ q, (y'.kernel.proc q).Made →
      ∃ d, (y'.kernel.proc q).pgdir = some d ∧ y'.kernel.allocated d = true)
    (hjoined : ∀ j ∈ y'.joined, j.origin = some j.value) : Origins y' := by
  refine ⟨hdirs, fun q stack hq ho => ?_, fun q hq ho => ⟨fun r hpar => ?_, fun hne => ?_⟩,
    hjoined⟩
  · rw [horigin q hq] at ho
    rw [(hmade q hq).2]
    exact h.stack q stack (hmade q hq).1 ho
  · rw [horigin q hq] at ho
    obtain ⟨h1, h2⟩ := h.forked q (hmade q hq).1 ho
    rw [hpgdir q (hmade q hq).1]
    rcases hparent q r hpar with hold | ⟨rfl, hne⟩
    · rw [hpgdir r (ht.parents q r hold).2.made]
      exact h1 r hold
    · rw [hpgdir _ ht.init.made]
      exact h2 hne
  · rw [horigin q hq] at ho
    rw [hinit] at hne ⊢
    rw [hpgdir q (hmade q hq).1, hpgdir _ ht.init.made]
    exact (h.forked q (hmade q hq).1 ho).2 hne

/-- A call leaves every process a directory in use. -/
theorem step_dirs {k k' : Kernel} {e : Event} (hs : Threads.Step k e k') (halone : FreedAlone k')
    {q : Slot} (hq : (k.proc q).Made) (hq' : (k'.proc q).Made)
    (hdir : ∃ d, (k.proc q).pgdir = some d ∧ k.allocated d = true) :
    ∃ d, (k'.proc q).pgdir = some d ∧ k'.allocated d = true := by
  have hborn : ∀ np s, Born np s k k' →
      ∃ d, (k'.proc q).pgdir = some d ∧ k'.allocated d = true := by
    intro np s hb
    have hne : q ≠ np := by
      rintro rfl
      exact hq.1 hb.unused
    obtain ⟨d, hd, hal⟩ := hdir
    rw [hb.other q hne]
    refine ⟨d, hd, ?_⟩
    rcases hb.dir with ⟨_, heq⟩ | ⟨d', _, _, heq⟩
    · rw [heq]
      exact hal
    · rw [heq]
      dsimp only
      split
      · rfl
      · exact hal
  cases step_cases hs with
  | fewer h _ =>
      obtain ⟨d, hd, hal⟩ := hdir
      exact ⟨d, (h.pgdir q hq'.1).trans hd, h.allocated halone q d hq'.1 hd hal⟩
  | cloned h _ => exact hborn _ _ h
  | forked h _ => exact hborn _ _ h
  | @installed s d sz h _ _ =>
      by_cases hqs : q = s
      · subst hqs
        obtain ⟨d, hd, _, hal⟩ := h.dir
        exact ⟨d, hd, hal hdir⟩
      · obtain ⟨d, hd, hal⟩ := hdir
        rw [h.other q hqs]
        exact ⟨d, hd, h.kept halone q d hqs hq.1 hd hal⟩
  | @grown s n enough hrun heq =>
      obtain ⟨d, hd, hal⟩ := hdir
      rw [heq]
      rcases growproc_cases enough n s k with h | ⟨sz, h⟩
      · rw [h]
        exact ⟨d, hd, hal⟩
      · rw [h]
        refine ⟨d, ?_, hal⟩
        dsimp only
        split
        · exact hd
        · exact hd

/-- A call makes no process. -/
theorem Acted.made {k k' : Kernel} {r : Option (Call × Slot)} (h : Acted k k' r) {q : Slot}
    (hq : (k'.proc q).Made) : (k.proc q).Made :=
  ⟨(h.unused hq.1).1, fun he => hq.2 (h.embryo he)⟩

/-- The identity of a process after a call, unless it ran `exec`. -/
theorem Acted.identity {k k' : Kernel} {r : Option (Call × Slot)} (h : Acted k k' r) :
    (∃ s, Execed s k k') ∨
      k'.initproc = k.initproc ∧ ∀ q, (k'.proc q).stack = (k.proc q).stack ∧
        (k'.proc q).pgdir = (k.proc q).pgdir ∧
        ∀ p, (k'.proc q).parent = some p →
          (k.proc q).parent = some p ∨ p = k.initproc ∧ (k.proc q).parent ≠ none := by
  cases h with
  | calm h =>
      refine .inr ⟨h.initproc, fun q => ⟨h.stack q, h.pgdir q, fun p hp => ?_⟩⟩
      rw [h.parent] at hp
      exact .inl hp
  | @asleep k₁ s c h hrun hscan heq =>
      have hset : ∀ q, (k'.proc q).stack = (k₁.proc q).stack ∧
          (k'.proc q).pgdir = (k₁.proc q).pgdir ∧ (k'.proc q).parent = (k₁.proc q).parent := by
        intro q
        rw [heq]
        by_cases hq : q = s <;> simp [sleep, hq]
      refine .inr ⟨?_, fun q => ⟨(hset q).1.trans (h.stack q), (hset q).2.1.trans (h.pgdir q),
        fun p hp => ?_⟩⟩
      · rw [heq]
        exact h.initproc
      · rw [(hset q).2.2, h.parent] at hp
        exact .inl hp
  | @reaped k₁ s t c h hscan hr =>
      have hset : ∀ q, (k'.proc q).stack = (k₁.proc q).stack ∧
          (k'.proc q).pgdir = (k₁.proc q).pgdir ∧
          ∀ p, (k'.proc q).parent = some p → (k₁.proc q).parent = some p := by
        intro q
        by_cases hq : q = t
        · rw [hq, hr.self]
          exact ⟨rfl, rfl, fun p hp => by cases hp⟩
        · rw [hr.other q hq]
          exact ⟨rfl, rfl, fun p hp => hp⟩
      refine .inr ⟨hr.initproc.trans h.initproc, fun q => ⟨(hset q).1.trans (h.stack q),
        (hset q).2.1.trans (h.pgdir q), fun p hp => ?_⟩⟩
      have hp₁ := (hset q).2.2 p hp
      rw [h.parent] at hp₁
      exact .inl hp₁
  | @exited s hs h =>
      refine .inr ⟨h.initproc, fun q => ⟨h.stack q, h.pgdir q, fun p hp => ?_⟩⟩
      rw [h.parent] at hp
      split at hp
      · rename_i hchild
        cases hp
        exact .inr ⟨rfl, by simp [hchild]⟩
      · exact .inl hp
  | @execed s h => exact .inl ⟨s, h⟩

theorem Origins.call {y y' : History} {e : Event} (h : Origins y) (ho : Orderly y)
    (hs : y.Step (.call e) y') (halone : FreedAlone y'.kernel) : Origins y' := by
  obtain ⟨hstep, hacted, hcall⟩ := History.step_call hs
  have hdirs : ∀ q, (y'.kernel.proc q).Made →
      ∃ d, (y'.kernel.proc q).pgdir = some d ∧ y'.kernel.allocated d = true :=
    fun q hq => step_dirs hstep halone (hacted.made hq) hq (h.dirs q (hacted.made hq))
  have hjoined : ∀ j ∈ y'.joined, j.origin = some j.value := by
    intro j hj
    cases hr : reapedBy y.kernel e with
    | none =>
        rw [(hcall.quiet hr).2] at hj
        exact h.joined j hj
    | some ct =>
        obtain ⟨c, t⟩ := ct
        rw [(hcall.child c t hr).2] at hj
        rw [hr] at hacted
        cases c with
        | wait => exact h.joined j hj
        | join addr =>
            rcases List.mem_append.mp hj with hj | hj
            · exact h.joined j hj
            · obtain ⟨hz, s, hkid⟩ := hacted.reapedKid
              simp only [Call.kid, decide_eq_true_eq] at hkid
              rw [List.mem_singleton.mp hj]
              exact h.cloned (by simp [Proc.Made, hz]) hkid.1 hkid.2.2
  rcases hacted.identity with ⟨s, he⟩ | ⟨hinit, hsame⟩
  · obtain ⟨d, hd, hfresh⟩ := he.pgdir
    have hsm : (y.kernel.proc s).Made := (Proc.Active.of_running he.running).made
    -- a process other than `s` has an old directory
    have hold : ∀ q, q ≠ s → (y.kernel.proc q).Made →
        (y'.kernel.proc q).pgdir = (y.kernel.proc q).pgdir ∧
        (y'.kernel.proc s).pgdir ≠ (y.kernel.proc q).pgdir := by
      intro q hqs hq
      refine ⟨by rw [he.other q hqs], ?_⟩
      rw [hd]
      exact (h.ne hfresh hq).symm
    have hinit := ho.tree.init.made
    refine ⟨hdirs, fun q stack hq horigin => ?_, fun q hq horigin => ?_, hjoined⟩
    · rw [hcall.origin] at horigin
      by_cases hqs : q = s
      · rw [hqs] at horigin ⊢
        rw [he.stack]
        exact h.stack s stack hsm horigin
      · rw [he.other q hqs] at hq ⊢
        exact h.stack q stack hq horigin
    · rw [hcall.origin] at horigin
      have hqm := hacted.made hq
      obtain ⟨h1, h2⟩ := h.forked q hqm horigin
      rw [he.initproc]
      by_cases hqs : q = s
      · subst hqs
        refine ⟨fun r hpar => ?_, fun hne => ?_⟩
        · rw [he.parent] at hpar
          obtain ⟨hrq, hr⟩ := ho.tree.parents q r hpar
          obtain ⟨heq, hdiff⟩ := hold r hrq hr.made
          rw [heq]
          exact hdiff.symm
        · obtain ⟨heq, hdiff⟩ := hold _ (Ne.symm hne) hinit
          rw [heq]
          exact hdiff.symm
      · obtain ⟨heq, hdiff⟩ := hold q hqs hqm
        rw [heq]
        refine ⟨fun r hpar => ?_, fun hne => ?_⟩
        · rw [he.other q hqs] at hpar
          by_cases hrs : r = s
          · rw [hrs]
            exact hdiff
          · rw [(hold r hrs (ho.tree.parents q r hpar).2.made).1]
            exact h1 r hpar
        · by_cases his : y.kernel.initproc = s
          · rw [his]
            exact hdiff
          · rw [(hold _ his hinit).1]
            exact h2 hne
  · refine h.kept ho.tree hinit (fun q _ => by rw [hcall.origin])
      (fun q hq => ⟨hacted.made hq, (hsame q).1⟩) (fun q _ => (hsame q).2.1) (fun q r hpar => ?_)
      hdirs hjoined
    rcases (hsame q).2.2 r hpar with hold | ⟨rfl, hne⟩
    · exact .inl hold
    · refine .inr ⟨rfl, ?_⟩
      rintro rfl
      exact hne ho.tree.initRoot

theorem Origins.start {y y' : History} {s : Slot} {c : Creation} (h : Origins y) (ho : Orderly y)
    (hs : y.Step (.start s c) y') : Origins y' := by
  simp only [History.Step, History.step] at hs
  split at hs
  · split at hs
    · cases hs
      exact h
    · rename_i np k' hstart
      cases hs
      obtain ⟨hnp, rfl⟩ := startChild_some hstart
      have hother : ∀ q, ((takeSlot np y.kernel).proc q).Made →
          (takeSlot np y.kernel).proc q = y.kernel.proc q := by
        intro q hq
        apply takeSlot_other
        rintro rfl
        rw [takeSlot_self] at hq
        exact hq.2 rfl
      have hfields : ∀ q, ((takeSlot np y.kernel).proc q).pgdir = (y.kernel.proc q).pgdir ∧
          ((takeSlot np y.kernel).proc q).parent = (y.kernel.proc q).parent := by
        intro q
        by_cases hq : q = np
        · rw [hq, takeSlot_self]
          exact ⟨rfl, rfl⟩
        · rw [takeSlot_other np _ hq]
          exact ⟨rfl, rfl⟩
      refine h.kept ho.tree rfl (fun _ _ => rfl) (fun q hq => ?_) (fun q _ => (hfields q).1)
        (fun q r hpar => .inl ((hfields q).2.symm.trans hpar)) (fun q hq => ?_) h.joined
      · have heq := hother q hq
        dsimp only at hq ⊢
        rw [heq] at hq ⊢
        exact ⟨hq, rfl⟩
      · have heq := hother q hq
        dsimp only at hq ⊢
        rw [heq] at hq ⊢
        exact h.dirs q hq
  · cases hs

theorem Origins.finish {y y' : History} {s : Slot} {mem : ForkMemory} (h : Origins y)
    (ho : Orderly y) (hs : y.Step (.finish s mem) y') : Origins y' := by
  simp only [History.Step, History.step] at hs
  split at hs
  · cases hs
  · rename_i np c hmaking
    split at hs
    · rename_i hcan
      cases hs
      have hnp := ho.making s np c hmaking
      have hf := @finished_finishChild s np mem c y.kernel hcan.2
      have hkeep := (@finishChild_dirs s np mem c y.kernel hcan.2).2
      generalize finishChild s np mem c y.kernel = k' at hf hkeep
      obtain ⟨hother, hinit, _⟩ := hf.other
      have hne : ∀ q, (y.kernel.proc q).Made → q ≠ np := by
        rintro q hq rfl
        exact hq.2 hnp
      have hdirs : ∀ q, q ≠ np → (k'.proc q).Made →
          ∃ d, (k'.proc q).pgdir = some d ∧ k'.allocated d = true := by
        intro q hqn hq
        rw [hother q hqn] at hq ⊢
        obtain ⟨d, hd, hal⟩ := h.dirs q hq
        exact ⟨d, hd, hkeep d hal⟩
      cases hf with
      | failed _ hself hparent _ =>
          have hgone : ∀ q, (k'.proc q).Made → q ≠ np := by
            rintro q hq rfl
            exact hq.1 hself
          refine h.kept ho.tree hinit (fun q hq => ?_) (fun q hq => ?_) (fun q hq => ?_)
            (fun q r hpar => ?_) (fun q hq => hdirs q (hgone q hq) hq) h.joined
          · dsimp only
            rw [if_neg (hgone q hq)]
          · have heq := hother q (hgone q hq)
            dsimp only at hq ⊢
            rw [heq] at hq ⊢
            exact ⟨hq, rfl⟩
          · dsimp only
            rw [hother q (hne q hq)]
          · dsimp only at hpar
            by_cases hqn : q = np
            · rw [hqn, hparent] at hpar
              rw [hqn]
              exact .inl hpar
            · rw [hother q hqn] at hpar
              exact .inl hpar
      | made _ hself hparent _ hclone hfork =>
          have hsm : (y.kernel.proc s).Made := (Proc.Active.of_running hcan.1).made
          have hinitm := ho.tree.init.made
          refine ⟨fun q hq => ?_, fun q stack hq horigin => ?_, fun q hq horigin => ?_, h.joined⟩
          · by_cases hqn : q = np
            · dsimp only
              rw [hqn]
              cases c with
              | fork =>
                  obtain ⟨d, hd, _, hal⟩ := hfork rfl
                  exact ⟨d, hd, hal⟩
              | clone stack =>
                  rw [(hclone stack rfl).1]
                  obtain ⟨d, hd, hal⟩ := h.dirs s hsm
                  exact ⟨d, hd, hkeep d hal⟩
            · exact hdirs q hqn hq
          · dsimp only at hq horigin ⊢
            by_cases hqn : q = np
            · rw [if_pos hqn] at horigin
              rw [hqn]
              cases c with
              | fork => cases horigin
              | clone stack' =>
                  cases horigin
                  exact (hclone stack rfl).2
            · rw [if_neg hqn] at horigin
              rw [hother q hqn] at hq ⊢
              exact h.stack q stack hq horigin
          · dsimp only at hq horigin ⊢
            rw [hinit, hother _ (hne _ hinitm)]
            by_cases hqn : q = np
            · rw [if_pos hqn] at horigin
              rw [hqn]
              cases c with
              | clone stack => cases horigin
              | fork =>
                  -- the copy has a directory that nobody had
                  obtain ⟨d, hd, hfresh, _⟩ := hfork rfl
                  rw [hd]
                  refine ⟨fun r hpar => ?_, fun _ => h.ne hfresh hinitm⟩
                  cases hparent.symm.trans hpar
                  rw [hother s (hne s hsm)]
                  exact h.ne hfresh hsm
            · rw [if_neg hqn] at horigin
              rw [hother q hqn] at hq ⊢
              obtain ⟨h1, h2⟩ := h.forked q hq horigin
              refine ⟨fun r hpar => ?_, h2⟩
              have hr := (ho.tree.parents q r hpar).2.made
              rw [hother r (hne r hr)]
              exact h1 r hpar
    · cases hs

/-- The record of freed directories only grows. -/
theorem History.step_freed {y y' : History} {a : Action} (hs : y.Step a y') :
    y.kernel.freed <+: y'.kernel.freed := by
  cases a with
  | start s c =>
      simp only [History.Step, History.step] at hs
      split at hs
      · split at hs
        · cases hs
          exact List.prefix_rfl
        · rename_i np k' hstart
          cases hs
          obtain ⟨_, rfl⟩ := startChild_some hstart
          exact List.prefix_rfl
      · cases hs
  | finish s mem =>
      simp only [History.Step, History.step] at hs
      split at hs
      · cases hs
      · split at hs
        · rename_i hcan
          cases hs
          exact (finishChild_dirs hcan.2).1
        · cases hs
  | call e => exact Threads.step_freed (History.step_call hs).1

theorem Origins.step {y y' : History} {a : Action} (h : Origins y) (ho : Orderly y)
    (hs : y.Step a y') (halone : FreedAlone y'.kernel) : Origins y' := by
  cases a with
  | start s c => exact h.start ho hs
  | finish s mem => exact h.finish ho hs
  | call e => exact h.call ho hs halone

/-! ## Runs -/

theorem orderly_boot : Orderly History.boot := by
  have hpar : ∀ q r : Slot, (boot.proc q).parent = some r → q = 1 ∧ r = 0 := by
    intro q r h
    by_cases h0 : q = 0
    · subst h0
      cases h
    · by_cases h1 : q = 1
      · subst h1
        cases h
        exact ⟨rfl, rfl⟩
      · simp [boot, h0, h1, Proc.zero] at h
  have hlive : ∀ q : Slot, (boot.proc q).state ≠ .unused → q = 0 ∨ q = 1 := by decide
  have hawake : ∀ q : Slot, (boot.proc q).state ≠ .sleeping := by decide
  have htree : Tree boot := by
    refine ⟨by simp [Proc.Active, boot], rfl, fun q r h => ?_, fun q hq => ?_⟩
    · obtain ⟨rfl, rfl⟩ := hpar q r h
      exact ⟨by decide, by simp [Proc.Active, boot]⟩
    · by_cases h0 : q = 0
      · subst h0
        rfl
      · by_cases h1 : q = 1
        · subst h1
          exact absurd ⟨(by decide), (by decide)⟩ hq
        · simp [boot, h0, h1, Proc.zero]
  constructor
  · exact htree
  · intro p c hs _
    exact absurd hs (hawake p)
  · intro s np c h
    cases h
  · intro s s' np c c' h
    cases h
  · intro q hq
    refine ⟨?_, List.not_mem_nil⟩
    rcases hlive q hq with rfl | rfl
    · decide
    · decide
  · intro q r _ _ heq
    exact Fin.ext heq
  · intro n hn
    cases hn
  · exact List.nodup_nil

/-- What the boot loader leaves has a directory for each process. -/
theorem origins_boot : Origins History.boot := by
  have hmade : ∀ q : Slot, (boot.proc q).Made → q = 0 ∨ q = 1 := by
    intro q hq
    by_contra hno
    simp only [not_or] at hno
    exact hq.1 (by simp [boot, hno.1, hno.2, Proc.zero])
  constructor
  · intro q hq
    rcases hmade q hq with rfl | rfl
    · exact ⟨0, rfl, rfl⟩
    · exact ⟨1, rfl, rfl⟩
  · intro q stack _ h
    cases h
  · intro q hq _
    rcases hmade q hq with rfl | rfl
    · exact ⟨fun r h => (by cases h), fun h => absurd rfl h⟩
    · refine ⟨fun r h => ?_, fun _ => by decide⟩
      cases h
      decide
  · intro j hj
    cases hj

/-- Every state of a run is orderly. -/
theorem orderly_reachable {y : History}
    (h : Lts.Reachable (· = History.boot) History.Step y) : Orderly y := by
  refine @Lts.Reachable.invariant _ _ _ _ Orderly ?_ (fun y a y' ih hs => ?_) y h
  · intro y hy
    rw [hy]
    exact orderly_boot
  · exact ih.step hs

/-- Along a run that frees no directory somebody else has. -/
theorem origins_reachable {y : History}
    (h : Lts.Reachable (· = History.boot) History.Step y) (halone : FreedAlone y.kernel) :
    Origins y := by
  have hinv : Orderly y ∧ (FreedAlone y.kernel → Origins y) := by
    refine @Lts.Reachable.invariant _ _ _ _ (fun y => Orderly y ∧ (FreedAlone y.kernel → Origins y))
      ?_ (fun y a y' ih hs => ?_) y h
    · intro y hy
      rw [hy]
      exact ⟨orderly_boot, fun _ => origins_boot⟩
    · obtain ⟨ho, horigins⟩ := ih
      refine ⟨ho.step hs, fun halone' => ?_⟩
      have hbefore := horigins (halone'.of_prefix (History.step_freed hs))
      exact hbefore.step ho hs halone'
  exact hinv.2 halone

/-- **No parent sleeps past a child**: whoever sleeps in `wait` has no zombie child
with another directory, whoever sleeps in `join` has none with its own directory and
another process id; nobody is reaped twice; and along a run that frees no directory
somebody else has, `join` reaps threads and stores the stack pointers they were cloned
with. -/
theorem no_sleep_past_child {y : History}
    (h : Lts.Reachable (· = History.boot) History.Step y) :
    (∀ p q, (y.kernel.proc p).state = .sleeping → (y.kernel.proc p).call = some .wait →
      (y.kernel.proc q).state = .zombie → (y.kernel.proc q).parent = some p →
      (y.kernel.proc q).pgdir = (y.kernel.proc p).pgdir) ∧
    (∀ p q stack, (y.kernel.proc p).state = .sleeping →
      (y.kernel.proc p).call = some (.join stack) →
      (y.kernel.proc q).state = .zombie → (y.kernel.proc q).parent = some p →
      (y.kernel.proc q).pgdir = (y.kernel.proc p).pgdir →
      (y.kernel.proc q).pid = (y.kernel.proc p).pid) ∧
    y.reaped.Nodup ∧
    (FreedAlone y.kernel → ∀ j ∈ y.joined, j.origin = some j.value) := by
  have ho := orderly_reachable h
  refine ⟨fun p q hs hc hz hpar => ?_, fun p q stack hs hc hz hpar hdir => ?_, ho.once,
    fun halone => (origins_reachable h halone).joined⟩
  · have hno := (ho.waiting p .wait hs hc).2 q hz
    simp only [Call.kid, hpar, true_and, decide_eq_false_iff_not, ne_eq, not_not] at hno
    exact hno
  · have hno := (ho.waiting p (.join stack) hs hc).2 q hz
    simp only [Call.kid, hpar, hdir, true_and, and_true, decide_eq_false_iff_not, ne_eq,
      not_not] at hno
    exact hno

/-- The shell clones a thread, which exits, and joins it. -/
def threadJoined : List Action :=
  [.call (.schedule 1), .start 1 (.clone 4096), .finish 1 (.noPages none), .call (.schedule 2),
    .call (.exit 2), .call (.join 1 0)]

theorem threadJoined_run :
    (Lts.exec History.step History.boot threadJoined).map
      (fun y => (y.reaped, y.joined, y.kernel.freed)) = some ([2], [⟨some 4096, 0, 4096⟩], []) := by
  decide +kernel

theorem no_sleep_past_child_threadJoined :
    ∃ y : History, y.reaped = [2] ∧ y.joined = [⟨some 4096, 0, 4096⟩] ∧ y.reaped.Nodup ∧
      ∀ j ∈ y.joined, j.origin = some j.value := by
  obtain ⟨y, hy, hfacts⟩ := Option.map_eq_some_iff.mp threadJoined_run
  simp only [Prod.mk.injEq] at hfacts
  obtain ⟨hreaped, hjoined, hfreed⟩ := hfacts
  have halone : FreedAlone y.kernel := by
    unfold FreedAlone
    rw [hfreed]
    intro c hc
    cases hc
  obtain ⟨_, _, honce, hstacks⟩ :=
    no_sleep_past_child ⟨History.boot, threadJoined, rfl, .of_exec hy⟩
  exact ⟨y, hreaped, hjoined, honce, hstacks halone⟩

/-! ### Process ids come back -/

/-- A table with init, the shell running, and what is in the next two slots. -/
def besides (p r : Proc) : Slot → Proc := fun q =>
  if q = 2 then p else if q = 3 then r
  else if q = 1 then { boot.proc 1 with state := .running } else boot.proc q

/-- A kernel with such a table. -/
def shellRuns (p r : Proc) (nextpid : Int) (allocated : PgDir → Bool) (freed : List Freevm) :
    Kernel :=
  ⟨besides p r, 0, nextpid, allocated, freed⟩

/-- A kernel in which only the shell runs, between two calls, and no other page
directory is in use. -/
def Idle (x : Int) (y : History) : Prop :=
  ∃ p allocated freed, y.kernel = shellRuns p Proc.zero x allocated freed ∧
    p.state = .unused ∧ allocated 2 = false ∧ y.making = fun _ => none

theorem besides_cases {P : Slot → Prop} (h0 : P 0) (h1 : P 1) (h2 : P 2) (h3 : P 3)
    (hrest : ∀ q, q ≠ 0 → q ≠ 1 → q ≠ 2 → q ≠ 3 → P q) (q : Slot) : P q := by
  by_cases hq0 : q = 0
  · exact hq0 ▸ h0
  · by_cases hq1 : q = 1
    · exact hq1 ▸ h1
    · by_cases hq2 : q = 2
      · exact hq2 ▸ h2
      · by_cases hq3 : q = 3
        · exact hq3 ▸ h3
        · exact hrest q hq0 hq1 hq2 hq3

theorem besides_rest (p r : Proc) {q : Slot} (h0 : q ≠ 0) (h1 : q ≠ 1) (h2 : q ≠ 2)
    (h3 : q ≠ 3) : besides p r q = Proc.zero := by
  simp [besides, boot, h0, h1, h2, h3]

theorem shellRuns_upd_two (p r : Proc) (x : Int) (al : PgDir → Bool) (fr : List Freevm)
    (f : Proc → Proc) : (shellRuns p r x al fr).upd 2 f = shellRuns (f p) r x al fr := by
  unfold shellRuns Kernel.upd
  congr 1
  funext q
  by_cases hq : q = 2
  · simp [hq, besides]
  · simp [hq, besides]

theorem shellRuns_upd_three (p r : Proc) (x : Int) (al : PgDir → Bool) (fr : List Freevm)
    (f : Proc → Proc) : (shellRuns p r x al fr).upd 3 f = shellRuns p (f r) x al fr := by
  unfold shellRuns Kernel.upd
  congr 1
  funext q
  by_cases hq : q = 3
  · simp [hq, besides]
  · simp [hq, besides]

/-- The first of the two slots is the first that meets a test the others fail. -/
theorem shellRuns_find_two {p r : Proc} {x : Int} {al : PgDir → Bool} {fr : List Freevm}
    {test : Proc → Bool} (h0 : test (besides p r 0) = false) (h1 : test (besides p r 1) = false)
    (h2 : test p = true) : (shellRuns p r x al fr).find test = some 2 := by
  have h : slots = 0 :: 1 :: 2 :: slots.drop 3 := by decide
  unfold Kernel.find findSlot shellRuns
  dsimp only
  rw [h]
  have h2' : test (besides p r 2) = true := h2
  rw [List.find?_cons, h0, List.find?_cons, h1, List.find?_cons, h2']

theorem shellRuns_find_three {p r : Proc} {x : Int} {al : PgDir → Bool} {fr : List Freevm}
    {test : Proc → Bool} (h0 : test (besides p r 0) = false) (h1 : test (besides p r 1) = false)
    (h2 : test p = false) (h3 : test r = true) :
    (shellRuns p r x al fr).find test = some 3 := by
  have h : slots = 0 :: 1 :: 2 :: 3 :: slots.drop 4 := by decide
  unfold Kernel.find findSlot shellRuns
  dsimp only
  rw [h]
  have h2' : test (besides p r 2) = false := h2
  have h3' : test (besides p r 3) = true := h3
  rw [List.find?_cons, h0, List.find?_cons, h1, List.find?_cons, h2', List.find?_cons, h3']

theorem shellRuns_find_none {p r : Proc} {x : Int} {al : PgDir → Bool} {fr : List Freevm}
    {test : Proc → Bool} (h0 : test (besides p r 0) = false) (h1 : test (besides p r 1) = false)
    (h2 : test p = false) (h3 : test r = false) (hz : test Proc.zero = false) :
    (shellRuns p r x al fr).find test = none := by
  unfold Kernel.find findSlot
  rw [List.find?_eq_none]
  intro q _
  have hq : test (besides p r q) = false := by
    induction q using besides_cases with
    | h0 => exact h0
    | h1 => exact h1
    | h2 => exact h2
    | h3 => exact h3
    | hrest q hq0 hq1 hq2 hq3 => rw [besides_rest p r hq0 hq1 hq2 hq3]; exact hz
  exact ne_true_of_eq_false hq

theorem wakeup1_nobody {chan : Option Chan} {k : Kernel}
    (h : ∀ q, (k.proc q).state ≠ .sleeping) : wakeup1 chan k = k := by
  unfold wakeup1
  simp [h]

theorem reparent_nobody {s : Slot} {k : Kernel} (h : ∀ q, (k.proc q).parent ≠ some s)
    (ts : List Slot) : reparent s ts k = k := by
  induction ts with
  | nil => rfl
  | cons t ts ih =>
      unfold reparent
      rw [if_neg (h t), ih]

/-- The process in slot 2 ends. -/
theorem exit_two {p r : Proc} {x : Int} {al : PgDir → Bool} {fr : List Freevm}
    (hp : p.state ≠ .sleeping ∧ p.parent = some 1) (hr : r.state ≠ .sleeping ∧ r.parent ≠ some 2) :
    exit 2 (shellRuns p r x al fr) = some (shellRuns { p with state := .zombie } r x al fr) := by
  have hquiet : ∀ q, ((shellRuns p r x al fr).proc q).state ≠ .sleeping ∧
      ((shellRuns p r x al fr).proc q).parent ≠ some 2 := by
    intro q
    change (besides p r q).state ≠ .sleeping ∧ (besides p r q).parent ≠ some 2
    induction q using besides_cases with
    | h0 => exact ⟨fun h => (by cases h), fun h => (by cases h)⟩
    | h1 => exact ⟨fun h => (by cases h), fun h => absurd (Option.some.inj h) (by decide)⟩
    | h2 => exact ⟨hp.1, fun h => absurd (Option.some.inj (hp.2.symm.trans h)) (by decide)⟩
    | h3 => exact hr
    | hrest q hq0 hq1 hq2 hq3 =>
        rw [besides_rest p r hq0 hq1 hq2 hq3]
        exact ⟨fun h => (by cases h), fun h => (by cases h)⟩
  have hinit : (2 : Slot) ≠ (shellRuns p r x al fr).initproc := by
    change (2 : Slot) ≠ 0
    decide
  unfold exit
  rw [if_neg hinit]
  dsimp only
  rw [wakeup1_nobody fun q => (hquiet q).1, reparent_nobody fun q => (hquiet q).2,
    shellRuns_upd_two]

theorem shellRuns_takeSlot_two (p r : Proc) (x : Int) (al : PgDir → Bool) (fr : List Freevm) :
    takeSlot 2 (shellRuns p r x al fr) =
      shellRuns { p with state := .embryo, pid := x, stack := 0 } r (i32 (x + 1)) al fr := by
  unfold takeSlot
  rw [shellRuns_upd_two]
  rfl

theorem History.started {y : History} {s np : Slot} {c : Creation} {k' : Kernel}
    (hs : (y.kernel.proc s).state = .running) (hno : y.making s = none)
    (h : startChild s c y.kernel = some (np, k')) :
    ∃ y', y.Step (.start s c) y' ∧ y'.kernel = k' ∧
      y'.making = fun t => if t = s then some (np, c) else y.making t := by
  unfold History.Step History.step
  dsimp only
  rw [if_pos ⟨hs, hno⟩, h]
  exact ⟨_, rfl, rfl, rfl⟩

theorem History.finished {y : History} {s np : Slot} {c : Creation} {mem : ForkMemory}
    (hs : (y.kernel.proc s).state = .running) (hmaking : y.making s = some (np, c))
    (hfresh : ∀ d ∈ mem.fresh, y.kernel.allocated d = false) :
    ∃ y', y.Step (.finish s mem) y' ∧ y'.kernel = finishChild s np mem c y.kernel ∧
      y'.making = fun t => if t = s then none else y.making t := by
  unfold History.Step History.step
  dsimp only
  rw [hmaking]
  dsimp only
  rw [if_pos ⟨hs, hfresh⟩]
  exact ⟨_, rfl, rfl, rfl⟩

theorem History.called {y : History} {e : Event} {k' : Kernel} (hallow : y.allows e = true)
    (h : Threads.step y.kernel e = some k') :
    ∃ y', y.Step (.call e) y' ∧ y'.kernel = k' ∧ y'.making = y.making := by
  unfold History.Step History.step
  dsimp only
  rw [if_pos hallow, h, Option.map_some]
  cases reapedBy y.kernel e with
  | none => exact ⟨_, rfl, rfl, rfl⟩
  | some r => exact ⟨_, rfl, rfl, rfl⟩

/-- With nothing in the making, every call is allowed but `fork` and `clone`. -/
theorem History.allows_idle {y : History} (h : y.making = fun _ => none) {e : Event}
    (hfork : ∀ s mem, e ≠ .fork s mem) (hclone : ∀ s stack kstack, e ≠ .clone s stack kstack) :
    y.allows e = true := by
  cases e with
  | fork s mem => exact absurd rfl (hfork s mem)
  | clone s stack kstack => exact absurd rfl (hclone s stack kstack)
  | _ => simp [allows, Event.actor, h]

theorem finishChild_fork (s np : Slot) (d : PgDir) (k : Kernel) :
    finishChild s np (.copied d) .fork k = (setupkvm d k).upd np fun p =>
      { p with pgdir := some d, sz := (k.proc s).sz, parent := some s, state := .runnable,
               call := none } := rfl

theorem finishChild_clone (s np : Slot) (stack : Nat) (k : Kernel) :
    finishChild s np (.noPages none) (.clone stack) k = k.upd np fun p =>
      { p with pgdir := (k.proc s).pgdir, sz := (k.proc s).sz, parent := some s,
               stack := stack, state := .runnable, call := none } := rfl

/-- The child in slot 2 is picked by another processor and exits. -/
theorem two_ends {p r : Proc} {x : Int} {al : PgDir → Bool} {fr : List Freevm} {y : History}
    (hk : y.kernel = shellRuns p r x al fr) (hmaking : y.making = fun _ => none)
    (hp : p.state = .runnable ∧ p.call = none ∧ p.parent = some 1)
    (hr : r.state ≠ .sleeping ∧ r.parent ≠ some 2) :
    ∃ y', Lts.Run History.Step y [.call (.schedule 2), .call (.exit 2)] y' ∧
      y'.kernel = shellRuns { p with state := .zombie, chan := none, call := none } r x al fr ∧
      y'.making = fun _ => none := by
  have hpick : Threads.step y.kernel (.schedule 2) =
      some (shellRuns { p with state := .running, chan := none, call := none } r x al fr) := by
    rw [hk]
    unfold Threads.step
    rw [if_pos ⟨fun s hs => (by cases hs), fun d hd => (by cases hd)⟩]
    change (if p.state = .runnable then schedule 2 (shellRuns p r x al fr) else none) = _
    rw [if_pos hp.1]
    unfold schedule
    have hcall : ((shellRuns p r x al fr).proc 2).call = none := hp.2.1
    simp only [hcall, shellRuns_upd_two]
  obtain ⟨y₁, hs₁, hk₁, hm₁⟩ := History.called
    (History.allows_idle hmaking (by intro s mem h; cases h) (by intro s a b h; cases h)) hpick
  have hexit : Threads.step y₁.kernel (.exit 2) =
      some (shellRuns { p with state := .zombie, chan := none, call := none } r x al fr) := by
    rw [hk₁]
    unfold Threads.step
    rw [if_pos ⟨fun s hs => (by cases hs; rfl), fun d hd => (by cases hd)⟩]
    change exit 2 _ = _
    exact exit_two ⟨fun h => (by cases h), hp.2.2⟩ hr
  obtain ⟨y₂, hs₂, hk₂, hm₂⟩ := History.called
    (History.allows_idle (hm₁.trans hmaking) (by intro s mem h; cases h)
      (by intro s a b h; cases h)) hexit
  exact ⟨y₂, (Lts.Run.single hs₁).snoc hs₂, hk₂, hm₂.trans (hm₁.trans hmaking)⟩

/-- The shell forks a child, which exits, and waits for it. -/
theorem idle_again {x : Int} {y : History} (h : Idle x y) :
    ∃ as y', Lts.Run History.Step y as y' ∧ Idle (i32 (x + 1)) y' := by
  obtain ⟨p, al, fr, hk, hp, hal, hmaking⟩ := h
  have hstart : startChild 1 .fork y.kernel = some (2,
      shellRuns { p with state := .embryo, pid := x, stack := 0 } Proc.zero (i32 (x + 1)) al fr) := by
    unfold startChild
    dsimp only
    rw [if_neg (by decide), hk, shellRuns_find_two rfl rfl (by simp [hp]), ← shellRuns_takeSlot_two]
    rfl
  obtain ⟨y₁, hs₁, hk₁, hm₁⟩ := History.started (by rw [hk]; rfl) (by rw [hmaking]) hstart
  obtain ⟨y₂, hs₂, hk₂, hm₂⟩ := @History.finished y₁ 1 2 .fork (.copied 2) (by rw [hk₁]; rfl)
    (by rw [hm₁]; rfl) (by intro d hd; cases hd; rw [hk₁]; exact hal)
  have hm₂' : y₂.making = fun _ => none := by
    rw [hm₂, hm₁, hmaking]
    funext t
    by_cases ht : t = 1
    · simp [ht]
    · simp [ht]
  have hmade : y₂.kernel = shellRuns
      { p with
        state := .runnable, pid := x, stack := 0, pgdir := some 2, sz := 16384, parent := some 1,
        call := none } Proc.zero (i32 (x + 1)) (fun e => if e = 2 then true else al e) fr := by
    rw [hk₂, hk₁, finishChild_fork]
    exact shellRuns_upd_two _ _ _ (fun e => if e = 2 then true else al e) _ _
  obtain ⟨y₃, hs₃, hk₃, hm₃⟩ := two_ends hmade hm₂' ⟨rfl, rfl, rfl⟩
    ⟨fun h => (by cases h), fun h => (by cases h)⟩
  have hwait : ∃ fr', Threads.step y₃.kernel (.wait 1) =
      some (shellRuns (Proc.reap
        { p with
          state := .zombie, pid := x, stack := 0, chan := none, pgdir := some 2, sz := 16384,
          parent := some 1, call := none }) Proc.zero (i32 (x + 1))
        (fun e => if e = 2 then false else if e = 2 then true else al e) fr') := by
    rw [hk₃]
    unfold Threads.step
    rw [if_pos ⟨fun s hs => (by cases hs; rfl), fun d hd => (by cases hd)⟩]
    unfold effect
    dsimp only
    rw [wait_scan]
    unfold scan
    rw [shellRuns_find_two rfl rfl rfl]
    exact ⟨_, congrArg some
      (shellRuns_upd_two _ _ _ (fun e => if e = 2 then false else if e = 2 then true else al e) _ _)⟩
  obtain ⟨fr', hwait⟩ := hwait
  obtain ⟨y₄, hs₄, hk₄, hm₄⟩ := History.called
    (History.allows_idle hm₃ (by intro s mem h; cases h) (by intro s a b h; cases h)) hwait
  refine ⟨_, y₄, (((Lts.Run.single hs₁).snoc hs₂).append hs₃).snoc hs₄, _, _, _, hk₄, rfl, rfl,
    hm₄.trans hm₃⟩

theorem idle_first : ∃ as y, Lts.Run History.Step History.boot as y ∧ Idle 3 y := by
  have hpick : Threads.step History.boot.kernel (.schedule 1) =
      some (shellRuns Proc.zero Proc.zero 3 (fun d => d < 2) []) := by
    unfold Threads.step
    rw [if_pos ⟨fun s hs => (by cases hs), fun d hd => (by cases hd)⟩]
    change some (boot.upd 1 _) = _
    unfold Kernel.upd shellRuns
    congr 2
    funext q
    induction q using besides_cases with
    | h0 => rfl
    | h1 => rfl
    | h2 => rfl
    | h3 => rfl
    | hrest q hq0 hq1 hq2 hq3 => simp [besides, boot, hq0, hq1, hq2, hq3]
  obtain ⟨y, hs, hk, hm⟩ := @History.called History.boot _ _ rfl hpick
  exact ⟨_, y, .single hs, _, _, _, hk, rfl, rfl, hm⟩

/-- After that many children. -/
theorem idle_after (n : Nat) :
    ∃ as y, Lts.Run History.Step History.boot as y ∧ Idle (i32 (3 + n)) y := by
  induction n with
  | zero => exact idle_first
  | succ n ih =>
      obtain ⟨as, y, hr, hidle⟩ := ih
      obtain ⟨bs, y', hr', hidle'⟩ := idle_again hidle
      have hnext : i32 (i32 (3 + (n : Int)) + 1) = i32 (3 + ((n + 1 : Nat) : Int)) := by
        unfold i32
        omega
      rw [hnext] at hidle'
      exact ⟨as ++ bs, y', hr.append hr', hidle'⟩

/-- Once the ids have come back to the shell's, the shell clones a thread that gets
its own id, and sleeps in `join` past that thread. -/
theorem join_sleeps_past_thread : ∃ y, Lts.Reachable (· = History.boot) History.Step y ∧
    ∃ p q stack, (y.kernel.proc p).state = .sleeping ∧
      (y.kernel.proc p).call = some (.join stack) ∧ (y.kernel.proc q).state = .zombie ∧
      (y.kernel.proc q).parent = some p ∧ (y.kernel.proc q).pgdir = (y.kernel.proc p).pgdir := by
  obtain ⟨as, y, hr, p, al, fr, hk, hp, hal, hmaking⟩ := idle_after 4294967295
  have hpid : i32 (3 + ((4294967295 : Nat) : Int)) = 2 := by decide
  rw [hpid] at hk
  -- the first thread gets the id of the shell
  have hok : ∀ (p r : Proc) (x : Int), ¬ ((decide (4096 % pgsize ≠ 0) ||
      decide (u32 (((shellRuns p r x al fr).proc 1).sz + (4294967296 - 4096)) < pgsize)) = true) := by
    intro p r x
    change ¬ ((decide (4096 % pgsize ≠ 0) ||
      decide (u32 (16384 + (4294967296 - 4096)) < pgsize)) = true)
    decide
  have hstart : startChild 1 (.clone 4096) y.kernel = some (2,
      shellRuns { p with state := .embryo, pid := 2, stack := 0 } Proc.zero 3 al fr) := by
    unfold startChild
    dsimp only
    rw [hk, if_neg (hok _ _ _), shellRuns_find_two rfl rfl (by simp [hp]), Option.map_some,
      shellRuns_takeSlot_two]
    rfl
  obtain ⟨y₁, hs₁, hk₁, hm₁⟩ := History.started (by rw [hk]; rfl) (by rw [hmaking]) hstart
  obtain ⟨y₂, hs₂, hk₂, hm₂⟩ := @History.finished y₁ 1 2 (.clone 4096) (.noPages none)
    (by rw [hk₁]; rfl) (by rw [hm₁]; rfl) (by intro d hd; cases hd)
  have hm₂' : y₂.making = fun _ => none := by
    rw [hm₂, hm₁, hmaking]
    funext t
    by_cases ht : t = 1
    · simp [ht]
    · simp [ht]
  rw [hk₁, finishChild_clone, shellRuns_upd_two] at hk₂
  have hk₂' : y₂.kernel = shellRuns
      { p with
        state := .runnable, pid := 2, stack := 4096, pgdir := some 1, sz := 16384,
        parent := some 1, call := none } Proc.zero 3 al fr := hk₂
  -- the second one is in slot 3
  have hstart' : startChild 1 (.clone 4096) y₂.kernel = some (3, shellRuns
      { p with
        state := .runnable, pid := 2, stack := 4096, pgdir := some 1, sz := 16384,
        parent := some 1, call := none }
      { Proc.zero with state := .embryo, pid := 3 } 4 al fr) := by
    unfold startChild
    dsimp only
    rw [hk₂', if_neg (hok _ _ _), shellRuns_find_three rfl rfl rfl rfl, Option.map_some]
    unfold takeSlot
    rw [shellRuns_upd_three]
    rfl
  obtain ⟨y₃, hs₃, hk₃, hm₃⟩ := History.started (by rw [hk₂']; rfl) (by rw [hm₂']) hstart'
  obtain ⟨y₄, hs₄, hk₄, hm₄⟩ := @History.finished y₃ 1 3 (.clone 4096) (.noPages none)
    (by rw [hk₃]; rfl) (by rw [hm₃]; rfl) (by intro d hd; cases hd)
  have hm₄' : y₄.making = fun _ => none := by
    rw [hm₄, hm₃, hm₂']
    funext t
    by_cases ht : t = 1
    · simp [ht]
    · simp [ht]
  rw [hk₃, finishChild_clone, shellRuns_upd_three] at hk₄
  have hk₄' : y₄.kernel = shellRuns
      { p with
        state := .runnable, pid := 2, stack := 4096, pgdir := some 1, sz := 16384,
        parent := some 1, call := none }
      { Proc.zero with
        state := .runnable, pid := 3, stack := 4096, pgdir := some 1, sz := 16384,
        parent := some 1 } 4 al fr := hk₄
  obtain ⟨y₅, hs₅, hk₅, hm₅⟩ := two_ends hk₄' hm₄' ⟨rfl, rfl, rfl⟩
    ⟨fun h => (by cases h), fun h => absurd (Option.some.inj h) (by decide)⟩
  -- `join` skips the zombie, whose id is its own, and sleeps for the other thread
  have hjoin : ∃ k', Threads.step y₅.kernel (.join 1 0) = some k' ∧
      k' = sleep 1 (.proc 1) (some (.join 0)) y₅.kernel := by
    refine ⟨_, ?_, rfl⟩
    rw [hk₅]
    unfold Threads.step
    rw [if_pos ⟨fun s hs => (by cases hs; rfl), fun d hd => (by cases hd)⟩]
    unfold effect
    dsimp only
    rw [join_scan]
    unfold scan
    rw [shellRuns_find_none rfl rfl rfl rfl rfl]
    dsimp only
    rw [shellRuns_find_three rfl rfl rfl rfl]
    rfl
  obtain ⟨k', hjoin, hk'⟩ := hjoin
  obtain ⟨y₆, hs₆, hk₆, _⟩ := History.called
    (History.allows_idle hm₅ (by intro s mem h; cases h) (by intro s a b h; cases h)) hjoin
  rw [hk', hk₅] at hk₆
  have hrun := (((((hr.snoc hs₁).snoc hs₂).snoc hs₃).snoc hs₄).append hs₅).snoc hs₆
  refine ⟨y₆, ⟨_, _, rfl, hrun⟩, 1, 2, 0, ?_⟩
  rw [hk₆]
  exact ⟨rfl, rfl, rfl, rfl, rfl⟩

end CS537.Threads
