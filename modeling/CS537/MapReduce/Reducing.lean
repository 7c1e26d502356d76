import CS537.MapReduce.Mapping

/-!
# MapReduce — the reducing phase

Each reducer thread scans the sorted nodes of its own partition; `getValue` is
the cursor of `Grouping.Delivering`. Steps of other threads do not disturb it.
-/

namespace CS537.MapReduce

open Grouping Function

/-! ## The cursor in memory -/

theorem getElem?_nodes (s : State) (p c : Nat) :
    (s.nodes p)[c]? = if c < s.nodesInPartitions p then some (s.partitions p c) else none := by
  unfold State.nodes
  rw [List.getElem?_map]
  split
  · rename_i h
    rw [List.getElem?_range h]
    rfl
  · rename_i h
    rw [List.getElem?_eq_none (by simpa using h)]
    rfl

/-- `getValue` hands out the next value and moves its partition's cursor. -/
theorem getValue_eq (key : CString) (p : Nat) (s : State) :
    getValue key p s =
      ((nextValue (s.nodes p) key (s.numOfAccessInPartitions p)).1,
        { s with
          numOfAccessInPartitions := update s.numOfAccessInPartitions p
            (nextValue (s.nodes p) key (s.numOfAccessInPartitions p)).2 }) := by
  simp only [getValue, nextValue, getElem?_nodes, CString.strcmp_eq_zero]
  by_cases hlt : s.numOfAccessInPartitions p < s.nodesInPartitions p
  · by_cases hk : key = (s.partitions p (s.numOfAccessInPartitions p)).key
    · simp [hlt, hk.symm]
    · simp [hlt, hk, Ne.symm hk]
  · simp [hlt]

/-! ## What one step of a reducer thread does -/

theorem reducerHelper_cases {s s' : State} {p : Nat} {t t' : RedThread}
    (h : reducerHelper p s t = some (t', s')) :
    (t = .loop ∧ s.numOfAccessInPartitions p < s.nodesInPartitions p ∧
      t' = .reducing (s.partitions p (s.numOfAccessInPartitions p)).key [] ∧ s' = s) ∨
    (t = .loop ∧ s.nodesInPartitions p ≤ s.numOfAccessInPartitions p ∧ t' = .exited ∧ s' = s) ∨
    (∃ key results, t = .reducing key results ∧ s.job.reduce key results = true ∧
      t' = .reducing key (results ++ [(getValue key p s).1]) ∧ s' = (getValue key p s).2) ∨
    (∃ key results, t = .reducing key results ∧ s.job.reduce key results = false ∧
      t' = .loop ∧ s' = { s with log := s.log ++ [⟨p, key, results.filterMap id⟩] }) := by
  cases t with
  | sort => cases h
  | loop =>
      simp only [reducerHelper] at h
      split at h
      · cases h
        exact .inl ⟨rfl, ‹_›, rfl, rfl⟩
      · cases h
        exact .inr (.inl ⟨rfl, by omega, rfl, rfl⟩)
  | reducing key results =>
      simp only [reducerHelper] at h
      split at h
      · cases h
        exact .inr (.inr (.inl ⟨key, results, rfl, ‹_›, rfl, rfl⟩))
      · cases h
        exact .inr (.inr (.inr ⟨key, results, rfl, Bool.eq_false_iff.mpr ‹_›, rfl, rfl⟩))
  | exited => cases h

theorem logOf_append (s : State) (p q : Nat) (key : CString) (values : List CString) :
    State.logOf { s with log := s.log ++ [⟨p, key, values⟩] } q =
      if p = q then s.logOf q ++ [(key, values)] else s.logOf q := by
  by_cases h : p = q <;> simp [State.logOf, h]

/-- Where a reducer thread is in the nodes `l` of its partition, with its
cursor at `c` and the calls `gs` finished. -/
def RedThread.At (l : List Node) (c : Nat) (gs : List (CString × List CString)) :
    RedThread → Prop
  | .sort => gs = []
  | .loop => Sorted l ∧ c ≤ l.length ∧ GroupedUpTo l c gs
  | .reducing key results =>
      Sorted l ∧ ∃ c₀, GroupedUpTo l c₀ gs ∧ Delivering l c₀ c key results
  | .exited => GroupedUpTo l l.length gs

/-- The steps a reducer thread has left, at most. -/
def RedThread.work (n c : Nat) : RedThread → Nat
  | .sort => 4 * n + 2
  | .loop => 4 * (n - c) + 1
  | .reducing _ results =>
      4 * (n - c) + if results = [] then 0 else if none ∈ results then 2 else 3
  | .exited => 0

/-- A thread's step moves it on in its own partition and does less than it has
left to do. -/
structure Moves (p : Nat) (s s' : State) (t t' : RedThread) : Prop where
  job : s'.job = s.job
  nodes : ∀ q ≠ p, s'.nodes q = s.nodes q
  perm : (s'.nodes p).Perm (s.nodes p)
  counts : s'.nodesInPartitions = s.nodesInPartitions
  cursor : ∀ q ≠ p, s'.numOfAccessInPartitions q = s.numOfAccessInPartitions q
  logOf : ∀ q ≠ p, s'.logOf q = s.logOf q
  log : ∀ i ∈ s'.log, i ∈ s.log ∨ i.partition = p
  lands : t'.At (s'.nodes p) (s'.numOfAccessInPartitions p) (s'.logOf p)
  less : t'.work (s'.nodesInPartitions p) (s'.numOfAccessInPartitions p) <
    t.work (s.nodesInPartitions p) (s.numOfAccessInPartitions p)

theorem RedThread.At.moves {s s' : State} {p : Nat} {t t' : RedThread}
    (hdrain : Drains s.job.reduce)
    (hat : t.At (s.nodes p) (s.numOfAccessInPartitions p) (s.logOf p))
    (hs : reducerHelper p s t = some (t', s')) : Moves p s s' t t' := by
  obtain ⟨rfl, hlt, rfl, rfl⟩ | ⟨rfl, hge, rfl, rfl⟩ | ⟨key, results, rfl, hred, rfl, rfl⟩ |
    ⟨key, results, rfl, hred, rfl, rfl⟩ := reducerHelper_cases hs
  · -- the reducer is called at the head of a run
    obtain ⟨hsorted, _, hgs⟩ := hat
    have hx := getElem?_nodes s' p (s'.numOfAccessInPartitions p)
    rw [if_pos hlt] at hx
    refine ⟨rfl, fun _ _ => rfl, .refl _, rfl, fun _ _ => rfl, fun _ _ => rfl, fun _ => .inl,
      ⟨hsorted, _, hgs, .begin hx⟩, ?_⟩
    simp only [RedThread.work, if_true]
    omega
  · obtain ⟨_, hle, hgs⟩ := hat
    have hc : s'.numOfAccessInPartitions p = (s'.nodes p).length := by
      rw [length_nodes] at hle ⊢; omega
    refine ⟨rfl, fun _ _ => rfl, .refl _, rfl, fun _ _ => rfl, fun _ _ => rfl, fun _ => .inl, ?_, ?_⟩
    · rw [hc] at hgs
      exact hgs
    · simp only [RedThread.work]
      omega
  · -- one call of `get_next`
    obtain ⟨hsorted, c₀, hgs, hd⟩ := hat
    have hrun : none ∉ results := (hdrain key results).mp hred
    have hd' := hd.next hrun
    have hle := hd'.le_length
    rw [length_nodes] at hle
    rw [getValue_eq]
    refine ⟨rfl, fun _ _ => rfl, .refl _, rfl, fun q hq => update_of_ne hq _ _, fun _ _ => rfl,
      fun _ => .inl, ⟨hsorted, c₀, hgs, ?_⟩, ?_⟩
    · simp only [update_self]
      exact hd'
    · simp only [RedThread.work, update_self, hrun, if_false]
      have hne : results ++ [(nextValue (s.nodes p) key (s.numOfAccessInPartitions p)).1] ≠ [] := by
        simp
      rw [if_neg hne]
      rcases hnext : nextValue (s.nodes p) key (s.numOfAccessInPartitions p) with ⟨r, c'⟩
      rw [hnext] at hd' hle
      cases r with
      | none =>
          -- the first call of a run is never the end of it
          have hnonempty : results ≠ [] := by
            rintro rfl
            rcases hd'.moved with ⟨_, h⟩ | ⟨_, h⟩ <;> simp at h
          have hc : c' = s.numOfAccessInPartitions p := by
            unfold nextValue at hnext
            split at hnext
            · split at hnext <;> cases hnext
              rfl
            · cases hnext
              rfl
          simp [hnonempty, hc]
      | some v =>
          have hc : c' = s.numOfAccessInPartitions p + 1 := by
            unfold nextValue at hnext
            split at hnext
            · split at hnext <;> cases hnext
              rfl
            · cases hnext
          have hsome : none ∉ results ++ [some v] := by simp [hrun]
          simp only [hsome, if_false]
          split <;> omega
  · -- the reducer returns
    obtain ⟨hsorted, c₀, hgs, hd⟩ := hat
    have hend : none ∈ results := by
      by_contra hno
      rw [(hdrain key results).mpr hno] at hred
      cases hred
    refine ⟨rfl, fun _ _ => rfl, .refl _, rfl, fun _ _ => rfl, ?_, ?_, ?_, ?_⟩
    · intro q hq
      rw [logOf_append, if_neg (Ne.symm hq)]
    · intro i hi
      rcases List.mem_append.mp hi with hi | hi
      · exact .inl hi
      · exact .inr (by rw [List.mem_singleton.mp hi])
    · rw [logOf_append, if_pos rfl]
      exact ⟨hsorted, hd.le_length, (hd.group hsorted hgs hend).2⟩
    · have hne : results ≠ [] := List.ne_nil_of_mem hend
      simp [RedThread.work, hne, hend]

/-- So does the `qsort` before the loop. -/
theorem Qsort.moves {s : State} {p : Nat} {sorted : Nat → Node} (hq : Qsort s p sorted)
    (hat : RedThread.sort.At (s.nodes p) (s.numOfAccessInPartitions p) (s.logOf p)) :
    Moves p s
      { s with
        partitions := update s.partitions p sorted,
        numOfAccessInPartitions := update s.numOfAccessInPartitions p 0 } .sort .loop := by
  have hnodes : State.nodes { s with
      partitions := update s.partitions p sorted,
      numOfAccessInPartitions := update s.numOfAccessInPartitions p 0 } p =
      (List.range (s.nodesInPartitions p)).map sorted := by
    simp [State.nodes]
  refine ⟨rfl, ?_, ?_, rfl, fun q hqp => update_of_ne hqp _ _, fun _ _ => rfl, fun _ => .inl,
    ?_, ?_⟩
  · intro q hqp
    simp only [State.nodes, update_of_ne hqp]
  · rw [hnodes]
    exact hq.1
  · rw [hnodes]
    have hgs : s.logOf p = [] := hat
    refine ⟨hq.2, ?_, ?_⟩
    · simp
    · show GroupedUpTo _ (update s.numOfAccessInPartitions p 0 p) (s.logOf p)
      rw [hgs, update_self]
      exact .zero _
  · simp [RedThread.work]

/-! ## The invariant -/

/-- Where the reducer threads are, and what their partitions hold. -/
structure Reducing (s : State) (ts : List RedThread) : Prop where
  length : ts.length = s.job.numReducers
  nodes : ∀ p < s.job.numReducers, (s.nodes p).Perm
    (s.job.emits.filter fun x => s.job.partition x.key s.job.numReducers = p)
  threads : ∀ (p : Nat) (t : RedThread), ts[p]? = some t →
    t.At (s.nodes p) (s.numOfAccessInPartitions p) (s.logOf p)
  log : ∀ i ∈ s.log, i.partition < s.job.numReducers

/-- The barrier starts every reducer thread at its `qsort`. -/
theorem Mapping.reducing {s : State} {ts : List MapThread} (h : Mapping s ts)
    (hall : ∀ t ∈ ts, t = .exited) :
    Reducing s (List.replicate s.job.numReducers .sort) := by
  refine ⟨List.length_replicate, fun p hp => h.finished hall hp, ?_, ?_⟩
  · intro p t ht
    obtain rfl := List.eq_of_mem_replicate (List.mem_of_getElem? ht)
    simp [RedThread.At, State.logOf, h.log]
  · simp [h.log]

/-- The invariant does not look at the phase. -/
theorem Reducing.phase {s : State} {ts : List RedThread} (h : Reducing s ts) (ph : Phase) :
    Reducing { s with phase := ph } ts :=
  ⟨h.length, h.nodes, h.threads, h.log⟩

theorem Reducing.step {s s' : State} {ts : List RedThread} {p : Nat} {t t' : RedThread}
    (h : Reducing s ts) (hp : ts[p]? = some t) (hm : Moves p s s' t t') :
    Reducing s' (ts.set p t') := by
  have hlt : p < ts.length := (List.getElem?_eq_some_iff.mp hp).1
  refine ⟨?_, ?_, ?_, ?_⟩
  · rw [List.length_set, h.length, hm.job]
  · intro q hq
    rw [hm.job] at hq ⊢
    by_cases hqp : q = p
    · subst hqp
      exact hm.perm.trans (h.nodes q hq)
    · rw [hm.nodes q hqp]
      exact h.nodes q hq
  · intro q u hu
    by_cases hq : q = p
    · subst hq
      rw [List.getElem?_set_self hlt] at hu
      cases hu
      exact hm.lands
    · rw [List.getElem?_set_ne (Ne.symm hq)] at hu
      rw [hm.nodes q hq, hm.cursor q hq, hm.logOf q hq]
      exact h.threads q u hu
  · intro i hi
    rw [hm.job]
    rcases hm.log i hi with hi | hi
    · exact h.log i hi
    · rw [hi, ← h.length]
      exact hlt

end CS537.MapReduce
