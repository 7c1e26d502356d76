import CS537.MapReduce.Equivalence

/-!
# MapReduce — what the reducers leave behind

The programs over `MR_Run` differ in what their `Reduce` does with the values it has counted.
Here that is a function of the finished call, applied at the step in which the reducer
returns, so every interleaving of the threads applies it once to each call.
-/

namespace CS537.MapReduce

open Grouping

variable {ρ ε : Type}

/-- One step of a running `MR_Run`, with what the reducers that return in it do to the rest of
the program. -/
inductive ReportStep (report : ρ → Invocation → Except ε ρ) :
    State × ρ → Action → State × ρ → Prop
  | step {s s' : State} {r r' : ρ} {a : Action} :
      Step s a s' → (s'.log.drop s.log.length).foldlM report r = .ok r' →
      ReportStep report (s, r) a (s', r')

/-! ## The calls so far -/

theorem Step.log {s s' : State} {a : Action} (h : Step s a s') : ∃ new, s'.log = s.log ++ new := by
  cases h with
  | mapper _ _ hs =>
      obtain ⟨_, _, rfl, _⟩ | ⟨_, _, _, _, rfl⟩ | ⟨_, _, rfl⟩ | ⟨_, _, _, _, rfl⟩ :=
        mapperHelper_cases hs
      all_goals exact ⟨[], (List.append_nil _).symm⟩
  | joinMappers => exact ⟨[], (List.append_nil _).symm⟩
  | sort => exact ⟨[], (List.append_nil _).symm⟩
  | reducer _ _ hs =>
      obtain ⟨_, _, _, rfl⟩ | ⟨_, _, _, rfl⟩ | ⟨_, _, _, _, _, rfl⟩ | ⟨_, _, _, _, _, rfl⟩ :=
        reducerHelper_cases hs
      · exact ⟨[], (List.append_nil _).symm⟩
      · exact ⟨[], (List.append_nil _).symm⟩
      · rw [getValue_eq]
        exact ⟨[], (List.append_nil _).symm⟩
      · exact ⟨_, rfl⟩
  | joinReducers => exact ⟨[], (List.append_nil _).symm⟩

theorem run_log {s t : State} {as : List Action} (h : Lts.Run Step s as t) :
    ∃ new, t.log = s.log ++ new := by
  induction h with
  | nil => exact ⟨[], (List.append_nil _).symm⟩
  | snoc _ hs ih =>
      obtain ⟨new, hnew⟩ := ih
      obtain ⟨more, hmore⟩ := hs.log
      exact ⟨new ++ more, by rw [hmore, hnew, List.append_assoc]⟩

/-- The values of a finished call are the values its key has among the pairs of the job. -/
theorem Finished.values_perm {s : State} (h : Finished s) (hjob : Valid s.job) {i : Invocation}
    (hi : i ∈ s.log) :
    i.values.Perm ((s.job.emits.filter fun x => x.key = i.key).map KV.value) := by
  have hcall : (i.key, i.values) ∈ s.calls := List.mem_map_of_mem hi
  have hvalues := values_expand h.nodup hcall
  have hperm := ((h.expand_perm hjob.partition).filter fun x => x.key = i.key).map KV.value
  simp only at hvalues
  rwa [hvalues] at hperm

/-- There are never more calls than pairs: the run can always return, and then each call has a
key of its own. -/
theorem log_length_le {s : State} (h : Inv s) (hjob : Valid s.job) :
    s.log.length ≤ s.job.emits.length := by
  obtain ⟨as, t, hrun, hidle⟩ := exists_return h hjob
  obtain ⟨hj, hinv, -⟩ := run_inv h hjob hrun
  obtain ⟨new, hnew⟩ := run_log hrun
  simp only [Inv, hidle] at hinv
  have hsub : (t.log.map Invocation.key).Subperm (t.job.emits.map KV.key) := by
    apply List.Nodup.subperm (hinv.correct (hj ▸ hjob)).once
    intro k hk
    obtain ⟨i, hi, rfl⟩ := List.mem_map.mp hk
    obtain ⟨v, hv⟩ := List.exists_mem_of_ne_nil _ (hinv.nonempty _ (List.mem_map_of_mem hi))
    have hx := (hinv.values_perm (hj ▸ hjob) hi).mem_iff.mp hv
    obtain ⟨x, hx, -⟩ := List.mem_map.mp hx
    obtain ⟨hx, hkey⟩ := List.mem_filter.mp hx
    exact List.mem_map.mpr ⟨x, hx, of_decide_eq_true hkey⟩
  have hle := hsub.length_le
  rw [List.length_map, List.length_map, hnew, List.length_append, hj] at hle
  omega

/-! ## Runs with reports -/

/-- What the reports have done is the fold over the calls made. -/
theorem report_run {report : ρ → Invocation → Except ε ρ} {s t : State × ρ} {as : List Action}
    (h : Lts.Run (ReportStep report) s as t) :
    Lts.Run Step s.1 as t.1 ∧
      (t.1.log.drop s.1.log.length).foldlM report s.2 = .ok t.2 := by
  induction h with
  | nil => exact ⟨.nil _, by rw [List.drop_length]; rfl⟩
  | @snoc t u as a _ hs ih =>
      obtain ⟨hrun, hfold⟩ := ih
      cases hs with
      | @step t u r r' _ hs hnew =>
          refine ⟨hrun.snoc hs, ?_⟩
          obtain ⟨old, hold⟩ := run_log hrun
          obtain ⟨new, hlog⟩ := hs.log
          simp only at hold hfold hlog ⊢
          rw [hlog, List.drop_left] at hnew
          rw [hold, List.drop_left] at hfold
          rw [hlog, hold, List.append_assoc, List.drop_left, List.foldlM_append, hfold]
          exact hnew

/-- A run of the threads is a run with reports, if the reports succeed. -/
theorem report_lift {report : ρ → Invocation → Except ε ρ} {s t : State} {r : ρ}
    {as : List Action} (hs : s.log = []) (h : Lts.Run Step s as t)
    (hreport : ∀ log : List Invocation, log.length ≤ t.log.length →
      ∃ r', log.foldlM report r = .ok r') :
    ∃ r', Lts.Run (ReportStep report) (s, r) as (t, r') := by
  induction h with
  | nil => exact ⟨r, .nil _⟩
  | @snoc t u as a _ hstep ih =>
      obtain ⟨new, hnew⟩ := hstep.log
      obtain ⟨r₁, hrun⟩ := ih fun log hlog => hreport log (by rw [hnew, List.length_append]; omega)
      have hfold := (report_run hrun).2
      simp only [hs, List.length_nil, List.drop_zero] at hfold
      obtain ⟨r₂, hr₂⟩ := hreport u.log (Nat.le_refl _)
      rw [hnew, List.foldlM_append, hfold] at hr₂
      refine ⟨r₂, hrun.snoc (.step hstep ?_)⟩
      rw [hnew, List.drop_left]
      exact hr₂

/-- **A program over `MR_Run`**, for every interleaving: it ends within a fixed number of steps,
never blocks before that, and has reported each call once. -/
theorem mrRun_report {report : ρ → Invocation → Except ε ρ} {s : State} {r : ρ} {t : State × ρ}
    {job : Job} {junk : Junk} {as : List Action} (hjob : Valid job)
    (hreport : ∀ log : List Invocation, log.length ≤ job.emits.length →
      ∃ r', log.foldlM report r = .ok r')
    (hrun : Lts.Run (ReportStep report) (mrRun s job junk, r) as t) :
    as.length ≤ job.steps ∧ (t.1.phase ≠ .idle → ∃ a t', ReportStep report t a t') ∧
      t.1.log.foldlM report r = .ok t.2 ∧ t.1.log.length ≤ job.emits.length ∧
      (t.1.phase = .idle → t.1.job = job ∧ Finished t.1) := by
  obtain ⟨hinv, hsteps⟩ := mrRun_inv (s := s) junk hjob
  obtain ⟨hrun', hfold⟩ := report_run hrun
  obtain ⟨hj, hinv', hwork⟩ := run_inv hinv hjob hrun'
  have hempty : (mrRun s job junk).log = [] := rfl
  simp only [hempty, List.length_nil, List.drop_zero] at hfold
  have hlog := log_length_le hinv' (hj ▸ hjob)
  refine ⟨by omega, ?_, hfold, by rw [← show t.1.job = job from hj]; exact hlog, ?_⟩
  · intro hph
    obtain ⟨a, u, hs⟩ := progress hph
    obtain ⟨hju, hinvu, -⟩ := hinv'.step (hj ▸ hjob.drains) (hj ▸ hjob.partition) hs
    have hbound := log_length_le hinvu (by rw [hju, hj]; exact hjob)
    rw [hju, hj] at hbound
    obtain ⟨r', hr'⟩ := hreport u.log hbound
    obtain ⟨new, hnew⟩ := hs.log
    rw [hnew, List.foldlM_append, hfold] at hr'
    obtain ⟨t, r₁⟩ := t
    refine ⟨a, (u, r'), .step hs ?_⟩
    rw [hnew, List.drop_left]
    exact hr'
  · intro hidle
    simp only [Inv, hidle] at hinv'
    exact ⟨hj, hinv'⟩

/-- Some interleaving of a program over `MR_Run` returns. -/
theorem exists_report {report : ρ → Invocation → Except ε ρ} (s : State) (r : ρ) {job : Job}
    (junk : Junk) (hjob : Valid job)
    (hreport : ∀ log : List Invocation, log.length ≤ job.emits.length →
      ∃ r', log.foldlM report r = .ok r') :
    ∃ as t, Lts.Run (ReportStep report) (mrRun s job junk, r) as t ∧ t.1.phase = .idle := by
  obtain ⟨hinv, -⟩ := mrRun_inv (s := s) junk hjob
  obtain ⟨as, t, hrun, hidle⟩ := exists_return hinv hjob
  obtain ⟨hj, hinv', -⟩ := run_inv hinv hjob hrun
  have hlog := log_length_le hinv' (hj ▸ hjob)
  rw [show t.job = job from hj] at hlog
  obtain ⟨r', hrun'⟩ := @report_lift _ _ report _ _ r _ rfl hrun
    fun log hle => hreport log (hle.trans hlog)
  exact ⟨as, (t, r'), hrun', hidle⟩

end CS537.MapReduce
