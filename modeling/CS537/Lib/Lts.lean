import Mathlib.Data.List.Induction

/-!
# Labelled transition systems

Runs of a step relation, recorded with their labels, and the two rules every
safety proof about a run uses: an invariant kept by each step is kept by the
run, and a run all of whose steps meet a guard is a run of the guarded
relation.
-/

namespace Lts

variable {σ α : Type}

/-- `Run step s as t`: from `s` the labels `as`, in order, lead to `t`. -/
inductive Run (step : σ → α → σ → Prop) : σ → List α → σ → Prop
  | nil (s : σ) : Run step s [] s
  | snoc {s t u : σ} {as : List α} {a : α} :
      Run step s as t → step t a u → Run step s (as ++ [a]) u

/-- The steps of `step` whose label and source state meet `ok`. -/
def Guarded (ok : σ → α → Prop) (step : σ → α → σ → Prop) (s : σ) (a : α) (t : σ) : Prop :=
  ok s a ∧ step s a t

/-- The states a run from an initial state reaches. -/
def Reachable (init : σ → Prop) (step : σ → α → σ → Prop) (t : σ) : Prop :=
  ∃ s as, init s ∧ Run step s as t

variable {init : σ → Prop} {next : σ → α → σ → Prop}

theorem Run.single {s t : σ} {a : α} (h : next s a t) : Run next s [a] t :=
  Run.snoc (Run.nil s) h

theorem Run.append {s t u : σ} {as bs : List α} (h : Run next s as t)
    (h' : Run next t bs u) : Run next s (as ++ bs) u := by
  induction h' with
  | nil => simpa using h
  | snoc _ hs ih => simpa [List.append_assoc] using ih.snoc hs

/-- The last step of a run that is not empty. -/
theorem Run.last {s u : σ} {as : List α} {a : α} (h : Run next s (as ++ [a]) u) :
    ∃ t, Run next s as t ∧ next t a u := by
  generalize hbs : as ++ [a] = bs at h
  cases h with
  | nil => simp at hbs
  | snoc hr hs =>
      obtain ⟨rfl, hab⟩ := List.append_inj' hbs rfl
      cases hab
      exact ⟨_, hr, hs⟩

/-- A run is cut anywhere. -/
theorem Run.split {s u : σ} {as bs : List α} (h : Run next s (as ++ bs) u) :
    ∃ t, Run next s as t ∧ Run next t bs u := by
  induction bs using List.reverseRecOn generalizing u with
  | nil =>
      rw [List.append_nil] at h
      exact ⟨u, h, .nil u⟩
  | append_singleton bs b ih =>
      rw [← List.append_assoc] at h
      obtain ⟨v, hv, hb⟩ := h.last
      obtain ⟨t, ht, hrest⟩ := ih hv
      exact ⟨t, ht, hrest.snoc hb⟩

/-- The labels determine the states of a deterministic system. -/
theorem Run.unique (hdet : ∀ s a t t', next s a t → next s a t' → t = t') {s t t' : σ}
    {as : List α} (h : Run next s as t) (h' : Run next s as t') : t = t' := by
  induction h generalizing t' with
  | nil =>
      generalize has : ([] : List α) = as at h'
      cases h' with
      | nil => rfl
      | snoc _ _ => simp at has
  | snoc _ hstep ih =>
      obtain ⟨u, hu, hlast⟩ := h'.last
      obtain rfl := ih hu
      exact hdet _ _ _ _ hstep hlast

/-- The invariant rule for runs. -/
theorem Run.invariant {I : σ → Prop} (hstep : ∀ s a t, I s → next s a t → I t)
    {s t : σ} {as : List α} (h : Run next s as t) (hs : I s) : I t := by
  induction h with
  | nil => exact hs
  | snoc _ hstep' ih => exact hstep _ _ _ ih hstep'

/-- Every state of the run `as` from `s` meets `P`. -/
def Along (next : σ → α → σ → Prop) (s : σ) (as : List α) (P : σ → Prop) : Prop :=
  ∀ bs cs t, as = bs ++ cs → Run next s bs t → P t

/-- Every step of the run `as` from `s` meets `ok`, in the state it is taken in. -/
def EachStep (next : σ → α → σ → Prop) (s : σ) (as : List α) (ok : σ → α → Prop) : Prop :=
  ∀ bs a cs t, as = bs ++ a :: cs → Run next s bs t → ok t a

/-- Where a step from a good state leads to a good state exactly if it is allowed, a run
stays good exactly if all its steps are allowed. -/
theorem Run.along_iff {P : σ → Prop} {ok : σ → α → Prop}
    (hdet : ∀ s a t t', next s a t → next s a t' → t = t')
    {I : σ → Prop} (hinv : ∀ s a t, I s → next s a t → I t)
    (hstep : ∀ s a t, I s → P s → next s a t → (P t ↔ ok s a))
    {s u : σ} {as : List α} (h : Run next s as u) (hI : I s) (hP : P s) :
    Along next s as P ↔ EachStep next s as ok := by
  constructor
  · intro halong bs a cs t has ht
    rw [has, List.append_cons] at h
    obtain ⟨v, hv, -⟩ := h.split
    obtain ⟨t', ht', hlast⟩ := hv.last
    obtain rfl := Run.unique hdet ht ht'
    have hPt := halong bs (a :: cs) t has ht
    have hPv := halong (bs ++ [a]) cs v (by rw [has, List.append_cons]) hv
    exact (hstep t a v (ht.invariant hinv hI) hPt hlast).mp hPv
  · intro heach bs cs t has ht
    induction ht generalizing cs with
    | nil => exact hP
    | @snoc t v bs a ht hlast ih =>
        rw [List.append_assoc] at has
        have hPt := ih (a :: cs) has
        exact (hstep t a v (ht.invariant hinv hI) hPt hlast).mpr (heach bs a cs t has ht)

theorem Reachable.initial {s : σ} (h : init s) : Reachable init next s :=
  ⟨s, [], h, .nil s⟩

theorem Reachable.step {s t : σ} {a : α} (h : Reachable init next s) (hs : next s a t) :
    Reachable init next t := by
  obtain ⟨s0, as, h0, hr⟩ := h
  exact ⟨s0, as ++ [a], h0, hr.snoc hs⟩

/-- The invariant rule for reachable states. -/
theorem Reachable.invariant {I : σ → Prop} (hinit : ∀ s, init s → I s)
    (hstep : ∀ s a t, I s → next s a t → I t) {t : σ}
    (h : Reachable init next t) : I t := by
  obtain ⟨s, as, hs, hr⟩ := h
  exact hr.invariant hstep (hinit s hs)

/-- A guarded run is a run. -/
theorem Run.of_guarded {ok : σ → α → Prop} {s t : σ} {as : List α}
    (h : Run (Guarded ok next) s as t) : Run next s as t := by
  induction h with
  | nil => exact .nil _
  | snoc _ hs ih => exact ih.snoc hs.2

theorem Reachable.of_guarded {ok : σ → α → Prop} {t : σ}
    (h : Reachable init (Guarded ok next) t) : Reachable init next t := by
  obtain ⟨s, as, hs, hr⟩ := h
  exact ⟨s, as, hs, hr.of_guarded⟩

/-- A simulation that shows a step of the one system as at most one step of the
other carries over to runs. -/
theorem Run.simulate {τ β : Type} {next' : τ → β → τ → Prop} {R : σ → τ → Prop}
    {obs : α → Option β}
    (hstep : ∀ s a s' q, R s q → next s a s' → ∃ q', R s' q' ∧ Run next' q (obs a).toList q')
    {s s' : σ} {as : List α} (h : Run next s as s') {q : τ} (hq : R s q) :
    ∃ q', R s' q' ∧ Run next' q (as.filterMap obs) q' := by
  induction h with
  | nil => exact ⟨q, hq, .nil q⟩
  | @snoc t u as a _ hs ih =>
      obtain ⟨q1, hq1, hr1⟩ := ih
      obtain ⟨q2, hq2, hr2⟩ := hstep t a u q1 hq1 hs
      have hobs : [a].filterMap obs = (obs a).toList := by
        cases h : obs a <;> simp [h]
      rw [List.filterMap_append, hobs]
      exact ⟨q2, hq2, hr1.append hr2⟩

/-- Runs a deterministic system along a list of labels. -/
def exec (next : σ → α → Option σ) : σ → List α → Option σ
  | s, [] => some s
  | s, a :: as => (next s a).bind fun t => exec next t as

theorem Run.of_exec {next : σ → α → Option σ} :
    ∀ {as : List α} {s t : σ}, exec next s as = some t →
    Run (fun s a t => next s a = some t) s as t := by
  intro as
  induction as with
  | nil =>
      intro s t h
      cases h
      exact .nil s
  | cons a as ih =>
      intro s t h
      obtain ⟨u, hu, ht⟩ := Option.bind_eq_some_iff.mp h
      exact (Run.single hu).append (ih ht)

/-- The same for a guarded system with a decidable guard. -/
theorem Run.of_exec_guarded {next : σ → α → Option σ} {ok : σ → α → Prop}
    [∀ s a, Decidable (ok s a)] {as : List α} {s t : σ}
    (h : exec (fun s a => if ok s a then next s a else none) s as = some t) :
    Run (Guarded ok fun s a t => next s a = some t) s as t := by
  have hrun := Run.of_exec h
  clear h
  induction hrun with
  | nil => exact .nil _
  | snoc _ hs ih =>
      split at hs
      · rename_i hok
        exact ih.snoc ⟨hok, hs⟩
      · cases hs

end Lts
