import CS537.MapReduce.Reducing
import Mathlib.Algebra.BigOperators.Fin
import Mathlib.Algebra.Order.BigOperators.Group.Finset

/-!
# MapReduce — the parallel run equals the sequential run

Every interleaving of an `MR_Run` ends, and its calls of the reducer are, up to
order, those of the sequential `MR_Run` on the same job.
-/

namespace CS537.MapReduce

open Grouping Function

/-! ## The calls in the log -/

/-- A list is pairwise related when each of its classes is and elements of
different classes are. -/
theorem pairwise_of_classes {α : Type} {R : α → α → Prop} (f : α → Nat) :
    ∀ {l : List α}, (∀ p, (l.filter fun a => f a = p).Pairwise R) →
    (∀ a ∈ l, ∀ b ∈ l, f a ≠ f b → R a b) → l.Pairwise R
  | [], _, _ => .nil
  | a :: l, hclass, hcross => by
      refine List.pairwise_cons.mpr ⟨?_, pairwise_of_classes f ?_ ?_⟩
      · intro b hb
        by_cases hf : f a = f b
        · have h := hclass (f a)
          rw [List.filter_cons_of_pos (by simp)] at h
          refine (List.pairwise_cons.mp h).1 b ?_
          exact List.mem_filter.mpr ⟨hb, by simp [hf]⟩
        · exact hcross a (List.mem_cons_self ..) b (List.mem_cons_of_mem _ hb) hf
      · intro p
        exact (hclass p).sublist ((List.sublist_cons_self a l).filter _)
      · intro b hb c hc
        exact hcross b (List.mem_cons_of_mem _ hb) c (List.mem_cons_of_mem _ hc)

/-- The calls of all partitions, each as its key and its values. -/
def State.calls (s : State) : List (CString × List CString) :=
  s.log.map fun i => (i.key, i.values)

/-- All reducer threads have returned. -/
structure Finished (s : State) : Prop where
  nodes : ∀ p < s.job.numReducers, (s.nodes p).Perm
    (s.job.emits.filter fun x => s.job.partition x.key s.job.numReducers = p)
  grouped : ∀ p < s.job.numReducers, GroupedUpTo (s.nodes p) (s.nodes p).length (s.logOf p)
  log : ∀ i ∈ s.log, i.partition < s.job.numReducers

theorem Reducing.finished {s : State} {ts : List RedThread} (h : Reducing s ts)
    (hall : ∀ t ∈ ts, t = .exited) : Finished s := by
  refine ⟨h.nodes, ?_, h.log⟩
  intro p hp
  rw [← h.length] at hp
  have hget : ts[p]? = some ts[p] := List.getElem?_eq_getElem hp
  have hat := h.threads p _ hget
  rw [hall ts[p] (List.getElem_mem hp)] at hat
  exact hat

namespace Finished

variable {s : State}

theorem expand_logOf (h : Finished s) {p : Nat} (hp : p < s.job.numReducers) :
    expand (s.logOf p) = s.nodes p := by
  rw [(h.grouped p hp).expand_eq, List.take_length]

/-- A call is made in the partition of its key. -/
theorem partition (h : Finished s) {i : Invocation} (hi : i ∈ s.log) :
    i.partition = s.job.partition i.key s.job.numReducers := by
  have hp := h.log i hi
  have hcall : (i.key, i.values) ∈ s.logOf i.partition :=
    List.mem_map.mpr ⟨i, List.mem_filter.mpr ⟨hi, by simp⟩, rfl⟩
  obtain ⟨v, hv⟩ := List.exists_mem_of_ne_nil _ ((h.grouped _ hp).nonempty _ hcall)
  have hx : (⟨i.key, v⟩ : Node) ∈ expand (s.logOf i.partition) :=
    mem_expand.mpr ⟨_, hcall, rfl, hv⟩
  rw [h.expand_logOf hp, (h.nodes _ hp).mem_iff, List.mem_filter] at hx
  exact (of_decide_eq_true hx.2).symm

theorem nonempty (h : Finished s) : ∀ g ∈ s.calls, g.2 ≠ [] := by
  intro g hg
  obtain ⟨i, hi, rfl⟩ := List.mem_map.mp hg
  exact (h.grouped _ (h.log i hi)).nonempty (i.key, i.values)
    (List.mem_map.mpr ⟨i, List.mem_filter.mpr ⟨hi, by simp⟩, rfl⟩)

theorem ascending (h : Finished s) (p : Nat) : ((s.logOf p).map Prod.fst).Pairwise (· < ·) := by
  by_cases hp : p < s.job.numReducers
  · exact (h.grouped p hp).ascending
  · have : s.logOf p = [] := by
      unfold State.logOf
      rw [List.filter_eq_nil_iff.mpr, List.map_nil]
      intro i hi
      have := h.log i hi
      have hne : i.partition ≠ p := by omega
      simpa using hne
    simp [this]

/-- No key is reduced twice. -/
theorem nodup (h : Finished s) : (s.calls.map Prod.fst).Nodup := by
  have hkeys : s.log.Pairwise fun i j => i.key ≠ j.key := by
    refine pairwise_of_classes Invocation.partition ?_ ?_
    · intro p
      have hasc := nodup_of_ascending (h.ascending p)
      rw [State.logOf, List.map_map] at hasc
      exact List.pairwise_map.mp hasc
    · intro i hi j hj hne hkey
      exact hne (by rw [h.partition hi, h.partition hj, hkey])
  rw [State.calls, List.map_map]
  exact List.pairwise_map.mpr hkeys

/-- The calls of one partition stand for its share of the pairs in all calls. -/
theorem filter_expand (h : Finished s) (p : Nat) :
    (expand s.calls).filter (fun x => s.job.partition x.key s.job.numReducers = p) =
      expand (s.logOf p) := by
  have hpart : ∀ i ∈ s.log, i.partition = s.job.partition i.key s.job.numReducers :=
    fun i hi => h.partition hi
  unfold State.calls State.logOf
  generalize s.log = log at hpart
  induction log with
  | nil => rfl
  | cons i log ih =>
      have hi := hpart i (List.mem_cons_self ..)
      rw [List.map_cons, expand_cons, List.filter_append,
        ih fun j hj => hpart j (List.mem_cons_of_mem _ hj)]
      by_cases hp : i.partition = p
      · rw [List.filter_cons_of_pos (by simpa using hp), List.map_cons, expand_cons,
          List.filter_eq_self.mpr]
        rintro x hx
        obtain ⟨v, _, rfl⟩ := List.mem_map.mp hx
        simpa [← hi] using hp
      · rw [List.filter_cons_of_neg (by simpa using hp), List.filter_eq_nil_iff.mpr, List.nil_append]
        rintro x hx
        obtain ⟨v, _, rfl⟩ := List.mem_map.mp hx
        simpa [← hi] using hp

/-- The calls deliver the pairs the mappers emitted, each once. -/
theorem expand_perm (h : Finished s)
    (hpart : ∀ key, s.job.partition key s.job.numReducers < s.job.numReducers) :
    (expand s.calls).Perm s.job.emits := by
  refine List.perm_iff_count.mpr fun x => ?_
  -- `x` occurs only in the partition of its key
  have hp := hpart x.key
  generalize hpx : s.job.partition x.key s.job.numReducers = p at hp
  have hshare : ∀ l : List Node,
      (l.filter fun y => s.job.partition y.key s.job.numReducers = p).count x = l.count x :=
    fun l => List.count_filter (decide_eq_true hpx)
  calc (expand s.calls).count x
      = (expand (s.logOf p)).count x := by rw [← h.filter_expand p, hshare]
    _ = (s.nodes p).count x := by rw [h.expand_logOf hp]
    _ = _ := (h.nodes p hp).count_eq x
    _ = s.job.emits.count x := hshare _

theorem calls_eq (h : Finished s)
    (hpart : ∀ key, s.job.partition key s.job.numReducers < s.job.numReducers) :
    asMultiset s.calls = groupByKey (s.job.emits : Multiset Node) := by
  rw [asMultiset, groups_eq_groupByKey h.nodup h.nonempty,
    Multiset.coe_eq_coe.mpr (h.expand_perm hpart)]

end Finished

/-! ## Every step keeps the invariant and does some of the work left -/

/-- The invariant of a running `MR_Run`. -/
def Inv (s : State) : Prop :=
  match s.phase with
  | .mapping ts => Mapping s ts
  | .reducing ts => Reducing s ts
  | .idle => Finished s

/-- The steps a mapper thread has left with the file it is in, at most. -/
def MapThread.work : MapThread → Nat
  | .pick => 1
  | .mapping rest => rest.length + 2
  | .exited => 0

/-- The steps the files not yet picked will take. -/
def State.fileWork (s : State) : Nat :=
  ((s.job.files.drop s.filesDone).map fun f => (s.job.map f).length + 2).sum

/-- The steps left to the reducer thread of partition `p`. -/
def State.reducerWork (s : State) (ts : List RedThread) (p : Nat) : Nat :=
  match ts[p]? with
  | some t => t.work (s.nodesInPartitions p) (s.numOfAccessInPartitions p)
  | none => 0

/-- The steps an `MR_Run` has left, at most. -/
def State.work (s : State) : Nat :=
  match s.phase with
  | .mapping ts =>
      (ts.map MapThread.work).sum + s.fileWork + 4 * s.job.emits.length + 2 * s.job.numReducers + 2
  | .reducing ts => ∑ p ∈ Finset.range ts.length, s.reducerWork ts p + 1
  | .idle => 0

/-- A mapper's step. -/
theorem mapper_less {s s' : State} {ts : List MapThread} {i : Nat} {t t' : MapThread}
    (hi : ts[i]? = some t) (hs : mapperHelper s t = some (t', s')) :
    ((ts.set i t').map MapThread.work).sum + s'.fileWork < (ts.map MapThread.work).sum + s.fileWork := by
  have hset := sum_map_set MapThread.work (b := t') hi
  obtain ⟨rfl, rfl, rfl, _⟩ | ⟨f, rfl, rfl, hf, rfl⟩ | ⟨rfl, rfl, rfl⟩ |
    ⟨node, rest, rfl, rfl, rfl⟩ := mapperHelper_cases hs
  · simp only [MapThread.work] at hset
    omega
  · have hfile : s.fileWork =
        (s.job.map f).length + 2 + State.fileWork { s with filesDone := s.filesDone + 1 } := by
      obtain ⟨hlt, rfl⟩ := List.getElem?_eq_some_iff.mp hf
      unfold State.fileWork
      rw [List.drop_eq_getElem_cons hlt, List.map_cons, List.sum_cons]
    simp only [MapThread.work] at hset
    omega
  · simp only [MapThread.work, List.length_nil] at hset
    omega
  · have hfile : (mrEmit node s).fileWork = s.fileWork := rfl
    simp only [MapThread.work, List.length_cons] at hset
    omega

/-- A reducer's step. -/
theorem reducer_less {s s' : State} {ts : List RedThread} {p : Nat} {t t' : RedThread}
    (hp : ts[p]? = some t) (hm : Moves p s s' t t') :
    ∑ q ∈ Finset.range (ts.set p t').length, s'.reducerWork (ts.set p t') q <
      ∑ q ∈ Finset.range ts.length, s.reducerWork ts q := by
  have hlt : p < ts.length := (List.getElem?_eq_some_iff.mp hp).1
  have hself : s'.reducerWork (ts.set p t') p < s.reducerWork ts p := by
    simpa [State.reducerWork, hp, List.getElem?_set_self hlt] using hm.less
  have hother : ∀ q ≠ p, s'.reducerWork (ts.set p t') q = s.reducerWork ts q := by
    intro q hq
    unfold State.reducerWork
    rw [List.getElem?_set_ne (Ne.symm hq), hm.counts, hm.cursor q hq]
  rw [List.length_set]
  refine Finset.sum_lt_sum (fun q _ => ?_) ⟨p, Finset.mem_range.mpr hlt, hself⟩
  by_cases hq : q = p
  · subst hq
    exact hself.le
  · exact (hother q hq).le

/-- The classes of a list by a function into `0 … n-1` have its length together. -/
theorem sum_length_filter {α : Type} (f : α → Nat) (n : Nat) (hf : ∀ a, f a < n) (l : List α) :
    ∑ p ∈ Finset.range n, (l.filter fun a => f a = p).length = l.length := by
  induction l with
  | nil => simp
  | cons a l ih =>
      have hcons : ∀ p, ((a :: l).filter fun a => f a = p).length =
          (l.filter fun a => f a = p).length + if f a = p then 1 else 0 := by
        intro p
        rw [List.filter_cons]
        by_cases h : f a = p <;> simp [h]
      simp only [hcons, Finset.sum_add_distrib, ih, Finset.sum_ite_eq, Finset.mem_range, hf a,
        if_true, List.length_cons]

/-- The barrier. -/
theorem barrier_less {s : State} {ts : List MapThread} (h : Mapping s ts)
    (hall : ∀ t ∈ ts, t = .exited)
    (hpart : ∀ key, s.job.partition key s.job.numReducers < s.job.numReducers) :
    ∑ p ∈ Finset.range s.job.numReducers,
      s.reducerWork (List.replicate s.job.numReducers .sort) p =
        4 * s.job.emits.length + 2 * s.job.numReducers := by
  have hwork : ∀ p ∈ Finset.range s.job.numReducers,
      s.reducerWork (List.replicate s.job.numReducers .sort) p =
        4 * (s.job.emits.filter fun x => s.job.partition x.key s.job.numReducers = p).length + 2 := by
    intro p hp
    have hp := Finset.mem_range.mp hp
    rw [← (h.finished hall hp).length_eq, length_nodes]
    simp [State.reducerWork, hp, RedThread.work]
  rw [Finset.sum_congr rfl hwork, Finset.sum_add_distrib, ← Finset.mul_sum,
    sum_length_filter (fun x : Node => s.job.partition x.key s.job.numReducers) _
      fun x => hpart x.key]
  simp [mul_comm]

theorem Inv.step {s s' : State} {a : Action} (h : Inv s) (hdrain : Drains s.job.reduce)
    (hpart : ∀ key, s.job.partition key s.job.numReducers < s.job.numReducers)
    (hs : Step s a s') : s'.job = s.job ∧ Inv s' ∧ s'.work < s.work := by
  cases hs with
  | @mapper s' ts i t t' hph hi hs =>
      simp only [Inv, hph] at h
      obtain ⟨hjob, h'⟩ := h.step hi hs
      have hless := mapper_less hi hs
      refine ⟨hjob, h'.phase _, ?_⟩
      have hwork : State.work { s' with phase := .mapping (ts.set i t') } =
          ((ts.set i t').map MapThread.work).sum + s'.fileWork + 4 * s'.job.emits.length +
            2 * s'.job.numReducers + 2 := rfl
      rw [hwork, hjob]
      simp only [State.work, hph]
      omega
  | @joinMappers ts hph hall =>
      simp only [Inv, hph] at h
      refine ⟨rfl, (h.reducing hall).phase _, ?_⟩
      have heq := barrier_less h hall hpart
      simp only [State.work, hph, List.length_replicate]
      show ∑ p ∈ Finset.range s.job.numReducers, s.reducerWork _ p + 1 < _
      omega
  | @sort ts p sorted hph hp hq =>
      simp only [Inv, hph] at h
      have hm := hq.moves (h.threads p _ hp)
      refine ⟨rfl, (h.step hp hm).phase _, ?_⟩
      simp only [State.work, hph]
      exact Nat.add_lt_add_right (reducer_less hp hm) 1
  | @reducer s' ts p t t' hph hp hs =>
      simp only [Inv, hph] at h
      have hm := (h.threads p _ hp).moves hdrain hs
      refine ⟨hm.job, (h.step hp hm).phase _, ?_⟩
      simp only [State.work, hph]
      exact Nat.add_lt_add_right (reducer_less hp hm) 1
  | @joinReducers ts hph hall =>
      simp only [Inv, hph] at h
      have hfin := h.finished hall
      refine ⟨rfl, ⟨hfin.nodes, hfin.grouped, hfin.log⟩, ?_⟩
      simp only [State.work, hph]
      omega

/-- There is always a sorted permutation for `qsort` to return. -/
theorem exists_qsort (s : State) (p : Nat) : ∃ sorted, Qsort s p sorted := by
  obtain ⟨l, hperm, hsorted⟩ := exists_sorted_perm (s.nodes p)
  have hlen : l.length = s.nodesInPartitions p := by rw [hperm.length_eq, length_nodes]
  have hl : (List.range (s.nodesInPartitions p)).map
      (fun i => (l[i]?).getD (s.partitions p i)) = l := by
    refine List.ext_getElem (by simp [hlen]) fun i hi hi' => ?_
    simp [hi']
  exact ⟨_, by rw [hl]; exact hperm, by rw [hl]; exact hsorted⟩

/-- Some thread can always move, or the barrier opens. -/
theorem progress {s : State} (hph : s.phase ≠ .idle) : ∃ a s', Step s a s' := by
  cases hphase : s.phase with
  | idle => exact absurd hphase hph
  | mapping ts =>
      by_cases hall : ∀ t ∈ ts, t = .exited
      · exact ⟨_, _, .joinMappers hphase hall⟩
      · obtain ⟨t, ht, hne⟩ : ∃ t ∈ ts, t ≠ .exited := by simpa using hall
        obtain ⟨i, hi⟩ := List.mem_iff_getElem?.mp ht
        have hmove : ∃ t' s', mapperHelper s t = some (t', s') := by
          cases t with
          | pick =>
              simp only [mapperHelper]
              split
              · exact ⟨_, _, rfl⟩
              · rename_i hlt
                rw [List.getElem?_eq_getElem (by omega)]
                exact ⟨_, _, rfl⟩
          | mapping rest => cases rest <;> exact ⟨_, _, rfl⟩
          | exited => exact absurd rfl hne
        obtain ⟨t', s', hs⟩ := hmove
        exact ⟨_, _, .mapper hphase hi hs⟩
  | reducing ts =>
      by_cases hall : ∀ t ∈ ts, t = .exited
      · exact ⟨_, _, .joinReducers hphase hall⟩
      · obtain ⟨t, ht, hne⟩ : ∃ t ∈ ts, t ≠ .exited := by simpa using hall
        obtain ⟨p, hp⟩ := List.mem_iff_getElem?.mp ht
        cases t with
        | sort =>
            obtain ⟨sorted, hq⟩ := exists_qsort s p
            exact ⟨_, _, .sort hphase hp hq⟩
        | loop =>
            have hmove : ∃ t' s', reducerHelper p s .loop = some (t', s') := by
              simp only [reducerHelper]
              split <;> exact ⟨_, _, rfl⟩
            obtain ⟨t', s', hs⟩ := hmove
            exact ⟨_, _, .reducer hphase hp hs⟩
        | reducing key results =>
            have hmove : ∃ t' s', reducerHelper p s (.reducing key results) = some (t', s') := by
              simp only [reducerHelper]
              split <;> exact ⟨_, _, rfl⟩
            obtain ⟨t', s', hs⟩ := hmove
            exact ⟨_, _, .reducer hphase hp hs⟩
        | exited => exact absurd rfl hne

/-! ## Runs -/

/-- A job the program can be given: files, threads, a partitioner into range
and a reducer that drains its key. -/
structure Valid (job : Job) : Prop where
  files : job.files ≠ []
  mappers : 1 ≤ job.numMappers
  reducers : 1 ≤ job.numReducers
  partition : ∀ key, job.partition key job.numReducers < job.numReducers
  drains : Drains job.reduce

/-- A bound on the steps of an `MR_Run`. -/
def Job.steps (job : Job) : Nat :=
  job.numMappers + 2 * job.files.length + 5 * job.emits.length + 2 * job.numReducers + 2

/-- What the calls of the reducer must be. -/
structure Correct (job : Job) (log : List Invocation) : Prop where
  sequential : ∀ fuel, job.emits.length + 3 ≤ fuel →
    (∃ calls, SeqRun job fuel calls) ∧ ∀ calls, SeqRun job fuel calls →
      asMultiset (log.map fun i => (i.key, i.values)) = asMultiset calls
  once : (log.map Invocation.key).Nodup
  every : ∀ x ∈ job.emits, x.key ∈ log.map Invocation.key
  placed : ∀ i ∈ log, i.partition = job.partition i.key job.numReducers
  ascending : ∀ p, ((log.filter fun i => i.partition = p).map Invocation.key).Pairwise
    fun a b => a.strcmp b < 0

theorem Finished.correct {s : State} (h : Finished s) (hjob : Valid s.job) :
    Correct s.job s.log := by
  refine ⟨?_, ?_, ?_, fun i hi => h.partition hi, ?_⟩
  · intro fuel hfuel
    obtain ⟨hex, hall⟩ := seqRun_spec hjob.drains hfuel
    refine ⟨hex, fun calls hcalls => ?_⟩
    rw [hall calls hcalls]
    exact h.calls_eq hjob.partition
  · have := h.nodup
    rwa [State.calls, List.map_map] at this
  · intro x hx
    obtain ⟨g, hg, hkey, _⟩ := mem_expand.mp ((h.expand_perm hjob.partition).mem_iff.mpr hx)
    obtain ⟨i, hi, rfl⟩ := List.mem_map.mp hg
    exact List.mem_map.mpr ⟨i, hi, hkey⟩
  · intro p
    have := h.ascending p
    rwa [State.logOf, List.map_map] at this

theorem mrRun_inv {s : State} {job : Job} (junk : Junk) (hjob : Valid job) :
    Inv (mrRun s job junk) ∧ (mrRun s job junk).work ≤ job.steps := by
  obtain ⟨ts, hph, hm⟩ := Mapping.initial s junk hjob.files hjob.mappers
  refine ⟨by simpa only [Inv, hph] using hm, ?_⟩
  have hfile : (mrRun s job junk).fileWork = job.emits.length + 2 * job.files.length := by
    show ((job.files.drop 0).map fun f => (job.map f).length + 2).sum = _
    rw [List.drop_zero, Job.emits, List.length_flatMap]
    induction job.files with
    | nil => rfl
    | cons f fs ih =>
        simp only [List.map_cons, List.sum_cons, List.length_cons, ih]
        omega
  have hthreads : ∀ n, ((List.replicate n MapThread.pick).map MapThread.work).sum = n := by
    intro n
    simp [MapThread.work]
  have hwork : (mrRun s job junk).work =
      ((List.replicate (if job.files.length < job.numMappers then job.files.length
        else job.numMappers) MapThread.pick).map MapThread.work).sum +
        (mrRun s job junk).fileWork + 4 * job.emits.length + 2 * job.numReducers + 2 := rfl
  rw [hwork, hthreads, hfile]
  unfold Job.steps
  split <;> omega

/-- A running `MR_Run` keeps its invariant, and every step costs one unit of
the work it began with. -/
theorem run_inv {s t : State} {as : List Action} (h : Inv s) (hjob : Valid s.job)
    (hrun : Lts.Run Step s as t) :
    t.job = s.job ∧ Inv t ∧ as.length + t.work ≤ s.work := by
  induction hrun with
  | nil => exact ⟨rfl, h, by simp⟩
  | snoc _ hs ih =>
      obtain ⟨hj, hinv, hwork⟩ := ih
      obtain ⟨hj', hinv', hless⟩ := hinv.step (hj ▸ hjob.drains) (hj ▸ hjob.partition) hs
      refine ⟨hj'.trans hj, hinv', ?_⟩
      rw [List.length_append, List.length_singleton]
      omega

/-- Some interleaving of a running `MR_Run` returns. -/
theorem exists_return {s : State} (h : Inv s) (hjob : Valid s.job) :
    ∃ as t, Lts.Run Step s as t ∧ t.phase = .idle := by
  induction hw : s.work using Nat.strong_induction_on generalizing s with
  | _ n ih =>
      by_cases hph : s.phase = .idle
      · exact ⟨[], s, .nil s, hph⟩
      · obtain ⟨a, u, hs⟩ := progress hph
        obtain ⟨hj, hinv, hless⟩ := h.step hjob.drains hjob.partition hs
        obtain ⟨as, t, hrun, hidle⟩ := ih u.work (by omega) hinv (hj ▸ hjob) rfl
        exact ⟨a :: as, t, (Lts.Run.single hs).append hrun, hidle⟩

/-- Consecutive calls of `MR_Run`, each with its job and the calls of the
reducer it made. -/
inductive Session : State → List (Job × List Invocation) → State → Prop
  | nil (s : State) : Session s [] s
  | call {s₀ s t : State} {done : List (Job × List Invocation)} {job : Job} {junk : Junk}
      {as : List Action} :
      Session s₀ done s → Valid job → Lts.Run Step (mrRun s job junk) as t → t.phase = .idle →
      Session s₀ (done ++ [(job, t.log)]) t

/-- One `MR_Run`, whatever the globals hold before it: every interleaving ends
within a fixed number of steps, never blocks before it returns, and makes the
calls of the sequential run. -/
theorem mrRun_spec {s t : State} {job : Job} {junk : Junk} {as : List Action} (hjob : Valid job)
    (hrun : Lts.Run Step (mrRun s job junk) as t) :
    as.length ≤ job.steps ∧ (t.phase ≠ .idle → ∃ a t', Step t a t') ∧
      (t.phase = .idle → Correct job t.log) := by
  obtain ⟨hinv, hsteps⟩ := mrRun_inv (s := s) junk hjob
  obtain ⟨hj, hinv', hwork⟩ := run_inv hinv hjob hrun
  refine ⟨by omega, progress, fun hidle => ?_⟩
  simp only [Inv, hidle] at hinv'
  have := hinv'.correct (by rw [hj]; exact hjob)
  rwa [hj] at this

/-- **The parallel run equals the sequential run**, for any number of
consecutive `MR_Run` calls and every interleaving of each. -/
theorem parallel_eq_sequential {s₀ s : State} {done : List (Job × List Invocation)}
    (hsession : Session s₀ done s) :
    (∀ r ∈ done, Correct r.1 r.2) ∧
    ∀ job junk, Valid job → ∀ as t, Lts.Run Step (mrRun s job junk) as t →
      as.length ≤ job.steps ∧ (t.phase ≠ .idle → ∃ a t', Step t a t') ∧
        (t.phase = .idle → Correct job t.log) := by
  refine ⟨?_, fun job junk hjob as t => mrRun_spec hjob⟩
  induction hsession with
  | nil => simp
  | call _ hjob hrun hidle ih =>
      intro r hr
      rcases List.mem_append.mp hr with hr | hr
      · exact ih r hr
      · obtain rfl := List.mem_singleton.mp hr
        exact (mrRun_spec hjob hrun).2.2 hidle

/-- Two files, two mappers and two reducers; a key goes to the partition of its
length. -/
def twoFiles : Job where
  files := [.ofBuffer [102], .ofBuffer [103]]
  map _ := [⟨.ofBuffer [98, 98], .ofBuffer [49]⟩, ⟨.ofBuffer [97], .ofBuffer [49]⟩]
  numMappers := 2
  reduce _ results := results.all Option.isSome
  numReducers := 2
  partition key R := key.bytes.length % R

theorem twoFiles_valid : Valid twoFiles where
  files := by simp [twoFiles]
  mappers := by decide
  reducers := by decide
  partition key := Nat.mod_lt _ (by decide)
  drains key results := by
    change results.all Option.isSome = true ↔ none ∉ results
    rw [List.all_eq_true]
    constructor
    · intro h hnone
      cases h none hnone
    · intro h r hr
      cases r with
      | none => exact absurd hr h
      | some value => rfl

/-- The globals before the first call. -/
def blank : State where
  job := twoFiles
  filesDone := 0
  partitions _ _ := ⟨.ofBuffer [], .ofBuffer []⟩
  nodesInPartitions _ := 0
  numOfAccessInPartitions _ := 0
  phase := .idle
  log := []

theorem parallel_eq_sequential_twoFiles :
    ∃ log s, Session blank [(twoFiles, log)] s ∧ Correct twoFiles log := by
  obtain ⟨hinv, _⟩ := mrRun_inv (s := blank)
    ⟨blank.partitions, fun _ => 7, fun _ => 9⟩ twoFiles_valid
  obtain ⟨as, t, hrun, hidle⟩ := exists_return hinv twoFiles_valid
  have hsession := (Session.nil blank).call twoFiles_valid hrun hidle
  exact ⟨t.log, t, hsession, (parallel_eq_sequential hsession).1 (twoFiles, t.log) (by simp)⟩

end CS537.MapReduce
