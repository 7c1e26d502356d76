import CS537.MapReduce.Sequential
import Mathlib.Algebra.BigOperators.Group.List.Basic
import Mathlib.Algebra.Order.Group.Multiset
import Mathlib.Tactic.Abel

/-!
# MapReduce — the mapping phase

No interleaving of the mapper threads loses, doubles or misfiles a pair: what
the partitions hold, what the threads still have to emit and what the files not
yet picked will emit make up the pairs of the job.
-/

namespace CS537.MapReduce

open Grouping Function

/-! ## `MR_Emit` -/

@[simp] theorem mrEmit_job (node : Node) (s : State) : (mrEmit node s).job = s.job := rfl
@[simp] theorem mrEmit_log (node : Node) (s : State) : (mrEmit node s).log = s.log := rfl
@[simp] theorem mrEmit_filesDone (node : Node) (s : State) :
    (mrEmit node s).filesDone = s.filesDone := rfl

/-- `MR_Emit` appends to the pair's partition and touches no other. -/
theorem nodes_mrEmit (node : Node) (s : State) (p : Nat) :
    (mrEmit node s).nodes p =
      if s.job.partition node.key s.job.numReducers = p then s.nodes p ++ [node]
      else s.nodes p := by
  by_cases hp : s.job.partition node.key s.job.numReducers = p
  · subst hp
    simp only [State.nodes, mrEmit, update_self, Nat.add_sub_cancel, List.range_succ,
      List.map_append, List.map_cons, List.map_nil, if_true]
    congr 1
    refine List.map_congr_left fun i hi => ?_
    rw [update_of_ne (by have := List.mem_range.mp hi; omega)]
  · simp only [State.nodes, mrEmit, update_of_ne (Ne.symm hp), if_neg hp]

@[simp] theorem length_nodes (s : State) (p : Nat) :
    (s.nodes p).length = s.nodesInPartitions p := by
  simp [State.nodes]

/-! ## The invariant -/

/-- The pairs a mapper thread has still to emit for its file. -/
def MapThread.pending : MapThread → List Node
  | .mapping rest => rest
  | _ => []

@[simp] theorem pending_pick : MapThread.pick.pending = [] := rfl
@[simp] theorem pending_exited : MapThread.exited.pending = [] := rfl
@[simp] theorem pending_mapping (rest : List Node) :
    (MapThread.mapping rest).pending = rest := rfl

/-- The pairs of the files not yet picked. -/
def State.unpicked (s : State) : List Node :=
  (s.job.files.drop s.filesDone).flatMap s.job.map

/-- Where the pairs of the job are while mapper threads run. -/
structure Mapping (s : State) (ts : List MapThread) : Prop where
  log : s.log = []
  nonempty : ts ≠ []
  exited : .exited ∈ ts → s.job.files.length ≤ s.filesDone
  emitted : ∃ em : Multiset Node,
    (∀ p < s.job.numReducers, (s.nodes p : Multiset Node) =
      em.filter fun x => s.job.partition x.key s.job.numReducers = p) ∧
    em + (ts.map fun t => (t.pending : Multiset Node)).sum + (s.unpicked : Multiset Node) =
      (s.job.emits : Multiset Node)

/-- Replacing one summand. -/
theorem sum_map_set {α M : Type} [AddCommMonoid M] (f : α → M) {a b : α} :
    ∀ {l : List α} {i : Nat}, l[i]? = some a →
    ((l.set i b).map f).sum + f a = (l.map f).sum + f b
  | [], _, h => by cases h
  | x :: xs, 0, h => by
      cases h
      simp only [List.set_cons_zero, List.map_cons, List.sum_cons]
      rw [add_comm (f b), add_comm (f a), add_assoc, add_assoc, add_comm (f b)]
  | x :: xs, i + 1, h => by
      have ih := sum_map_set f (b := b) (l := xs) (i := i) (by simpa using h)
      simp only [List.set_cons_succ, List.map_cons, List.sum_cons]
      rw [add_assoc, ih, add_assoc]

theorem Mapping.initial (s : State) {job : Job} (junk : Junk) (hfiles : job.files ≠ [])
    (hmappers : 1 ≤ job.numMappers) :
    ∃ ts, (mrRun s job junk).phase = .mapping ts ∧ Mapping (mrRun s job junk) ts := by
  refine ⟨_, rfl, rfl, ?_, ?_, 0, ?_, ?_⟩
  · have := List.length_pos_iff.mpr hfiles
    simp only [ne_eq, List.replicate_eq_nil_iff]
    split <;> omega
  · intro h
    cases List.eq_of_mem_replicate h
  · intro p hp
    have h0 : (mrRun s job junk).nodesInPartitions p = 0 := if_pos hp
    simp [State.nodes, h0]
  · simp [mrRun, State.unpicked, Job.emits, MapThread.pending]

/-- What one step of a mapper thread does to the pairs. -/
theorem mapperHelper_cases {s s' : State} {t t' : MapThread}
    (h : mapperHelper s t = some (t', s')) :
    (t = .pick ∧ t' = .exited ∧ s' = s ∧ s.job.files.length ≤ s.filesDone) ∨
    (∃ f, t = .pick ∧ t' = .mapping (s.job.map f) ∧ s.job.files[s.filesDone]? = some f ∧
      s' = { s with filesDone := s.filesDone + 1 }) ∨
    (t = .mapping [] ∧ t' = .pick ∧ s' = s) ∨
    (∃ node rest, t = .mapping (node :: rest) ∧ t' = .mapping rest ∧ s' = mrEmit node s) := by
  cases t with
  | pick =>
      simp only [mapperHelper] at h
      split at h
      · cases h
        exact .inl ⟨rfl, rfl, rfl, ‹_›⟩
      · split at h
        · rename_i f hf
          cases h
          exact .inr (.inl ⟨f, rfl, rfl, hf, rfl⟩)
        · cases h
  | mapping rest =>
      cases rest with
      | nil =>
          cases h
          exact .inr (.inr (.inl ⟨rfl, rfl, rfl⟩))
      | cons node rest =>
          cases h
          exact .inr (.inr (.inr ⟨node, rest, rfl, rfl, rfl⟩))
  | exited => cases h

/-- Picking a file moves its pairs from the files to the thread. -/
theorem unpicked_pick {s : State} {f : CString} (h : s.job.files[s.filesDone]? = some f) :
    s.unpicked = s.job.map f ++ State.unpicked { s with filesDone := s.filesDone + 1 } := by
  obtain ⟨hlt, hf⟩ := List.getElem?_eq_some_iff.mp h
  unfold State.unpicked
  rw [List.drop_eq_getElem_cons hlt, hf, List.flatMap_cons]

/-- The invariant does not look at the phase. -/
theorem Mapping.phase {s : State} {ts : List MapThread} (h : Mapping s ts) (ph : Phase) :
    Mapping { s with phase := ph } ts :=
  ⟨h.log, h.nonempty, h.exited, h.emitted⟩

theorem Mapping.step {s s' : State} {ts : List MapThread} {i : Nat} {t t' : MapThread}
    (h : Mapping s ts) (hi : ts[i]? = some t) (hs : mapperHelper s t = some (t', s')) :
    s'.job = s.job ∧ Mapping s' (ts.set i t') := by
  obtain ⟨em, hnodes, hsum⟩ := h.emitted
  have hset := sum_map_set (fun t : MapThread => (t.pending : Multiset Node)) (b := t') hi
  have hne : ts.set i t' ≠ [] := by simpa using h.nonempty
  have hexited : .exited ∈ ts.set i t' → .exited ∈ ts ∨ t' = .exited :=
    fun hm => (List.mem_or_eq_of_mem_set hm).imp_right Eq.symm
  obtain ⟨rfl, rfl, rfl, hdone⟩ | ⟨f, rfl, rfl, hf, rfl⟩ | ⟨rfl, rfl, rfl⟩ |
    ⟨node, rest, rfl, rfl, rfl⟩ := mapperHelper_cases hs
  · refine ⟨rfl, h.log, hne, fun _ => hdone, em, hnodes, ?_⟩
    rw [pending_pick, pending_exited, Multiset.coe_nil, add_zero, add_zero] at hset
    rw [hset, hsum]
  · refine ⟨rfl, h.log, hne, fun hm => ?_, em, hnodes, ?_⟩
    · rcases hexited hm with hm | hm
      · exact Nat.le_succ_of_le (h.exited hm)
      · cases hm
    · rw [pending_pick, pending_mapping, Multiset.coe_nil, add_zero] at hset
      rw [unpicked_pick hf, ← Multiset.coe_add] at hsum
      rw [hset]
      show _ = (s.job.emits : Multiset Node)
      rw [← hsum]
      abel
  · refine ⟨rfl, h.log, hne, fun hm => ?_, em, hnodes, ?_⟩
    · exact (hexited hm).elim h.exited (fun hm => by cases hm)
    · rw [pending_pick, pending_mapping, Multiset.coe_nil, add_zero, add_zero] at hset
      rw [hset, hsum]
  · refine ⟨rfl, h.log, hne, fun hm => ?_, em + {node}, ?_, ?_⟩
    · exact (hexited hm).elim h.exited (fun hm => by cases hm)
    · intro p hp
      rw [nodes_mrEmit, Multiset.filter_add, Multiset.filter_singleton]
      show _ = _ + if s.job.partition node.key s.job.numReducers = p then _ else _
      split
      · rw [← Multiset.coe_add, hnodes p hp]
        rfl
      · rw [hnodes p hp]
        exact (add_zero _).symm
    · rw [pending_mapping, pending_mapping, ← Multiset.cons_coe, ← Multiset.singleton_add,
        ← add_assoc, add_right_cancel_iff] at hset
      show _ + _ + (s.unpicked : Multiset Node) = (s.job.emits : Multiset Node)
      rw [← hsum, ← hset]
      abel

/-- Past the barrier every partition holds the job's pairs for it. -/
theorem Mapping.finished {s : State} {ts : List MapThread} (h : Mapping s ts)
    (hall : ∀ t ∈ ts, t = .exited) {p : Nat} (hp : p < s.job.numReducers) :
    (s.nodes p).Perm
      (s.job.emits.filter fun x => s.job.partition x.key s.job.numReducers = p) := by
  obtain ⟨em, hnodes, hsum⟩ := h.emitted
  obtain ⟨t, ht⟩ := List.exists_mem_of_ne_nil _ h.nonempty
  have hdone : s.unpicked = [] := by
    have := h.exited (hall t ht ▸ ht)
    rw [State.unpicked, List.drop_eq_nil_of_le this, List.flatMap_nil]
  have hpending : (ts.map fun t => (t.pending : Multiset Node)).sum = 0 := by
    rw [List.map_congr_left (g := fun _ => 0) fun t ht => by rw [hall t ht]; rfl]
    simp
  rw [hdone, hpending, Multiset.coe_nil, add_zero, add_zero] at hsum
  rw [← Multiset.coe_eq_coe, hnodes p hp, hsum, Multiset.filter_coe]

end CS537.MapReduce
