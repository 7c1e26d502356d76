import CS537.MapReduce.Parallel

/-!
# MapReduce — the sequential `MR_Run`

`P3A: MapReduce/sequential_mapreduce.c`: all pairs in one list, one cursor
`kvl_counter`. `elements` is the list after `qsort`, and the fuel counts the
rounds of the two loops, the reducer's and `MR_Run`'s.
-/

namespace CS537.MapReduce

open Grouping

/-- The pairs the mapper emits, file after file. -/
def Job.emits (job : Job) : List Node := job.files.flatMap job.map

/-- `get_func`, with the value of `kvl_counter` after the call. -/
def getFunc (elements : List Node) (key : CString) (counter : Nat) : Option CString × Nat :=
  if counter = elements.length then (none, counter)
  else
    match elements[counter]? with
    | some elt => if elt.key.strcmp key = 0 then (some elt.value, counter + 1) else (none, counter)
    | none => (none, counter)

/-- One call of the reducer. -/
def seqReduce (reduce : Reducer) (elements : List Node) (key : CString) :
    Nat → Nat → List (Option CString) → Option (List (Option CString) × Nat)
  | 0, _, _ => none
  | fuel + 1, counter, results =>
      if reduce key results then
        seqReduce reduce elements key fuel (getFunc elements key counter).2
          (results ++ [(getFunc elements key counter).1])
      else some (results, counter)

/-- The last loop of `MR_Run`: the calls of the reducer, with the values each
got. -/
def seqLoop (reduce : Reducer) (elements : List Node) :
    Nat → Nat → Option (List (CString × List CString))
  | 0, _ => none
  | fuel + 1, counter =>
      if counter < elements.length then do
        let elt ← elements[counter]?
        let (results, counter') ← seqReduce reduce elements elt.key fuel counter []
        let rest ← seqLoop reduce elements fuel counter'
        return (elt.key, results.filterMap id) :: rest
      else some []

/-- `MR_Run`: `sorted` is what `qsort` makes of the pairs. -/
def SeqRun (job : Job) (fuel : Nat) (calls : List (CString × List CString)) : Prop :=
  ∃ sorted : List Node, sorted.Perm job.emits ∧
    (sorted.Pairwise fun a b => a.key.strcmp b.key ≤ 0) ∧
    seqLoop job.reduce sorted fuel 0 = some calls

/-! ## What the sequential run computes -/

theorem getFunc_eq_nextValue (l : List Node) (key : CString) (c : Nat) :
    getFunc l key c = nextValue l key c := by
  unfold getFunc nextValue
  by_cases hlen : c = l.length
  · simp [hlen]
  · rw [if_neg hlen]
    cases l[c]? with
    | none => rfl
    | some x => simp only [CString.strcmp_eq_zero]

/-- The reducer's loop ends with the whole run of its key. -/
theorem seqReduce_spec {reduce : Reducer} (hdrain : Drains reduce) {l : List Node} {c₀ : Nat}
    {key : CString} : ∀ (fuel c : Nat) (results : List (Option CString)),
    Delivering l c₀ c key results → none ∉ results → l.length - c + 2 ≤ fuel →
    ∃ results' c', seqReduce reduce l key fuel c results = some (results', c') ∧
      Delivering l c₀ c' key results' ∧ none ∈ results'
  | 0, c, results, _, _, hfuel => by omega
  | fuel + 1, c, results, hd, hrun, hfuel => by
      rw [seqReduce, if_pos ((hdrain key results).mpr hrun), getFunc_eq_nextValue]
      have hd' := hd.next hrun
      by_cases hend : none ∈ results ++ [(nextValue l key c).1]
      · obtain ⟨fuel, rfl⟩ : ∃ n, fuel = n + 1 := ⟨fuel - 1, by omega⟩
        refine ⟨_, _, ?_, hd', hend⟩
        rw [seqReduce, if_neg fun h => (hdrain _ _).mp h hend]
      · have hmore : (nextValue l key c).2 = c + 1 := by
          unfold nextValue at hend ⊢
          split at hend
          · split at hend
            · rename_i hk
              simp [hk]
            · simp at hend
          · simp at hend
        refine seqReduce_spec hdrain fuel _ _ hd' hend ?_
        have := hd'.le_length
        omega

/-- The loop of `MR_Run` ends with every pair in a group. -/
theorem seqLoop_spec {reduce : Reducer} (hdrain : Drains reduce) {l : List Node}
    (hl : Sorted l) : ∀ (fuel c : Nat) (gs : List (CString × List CString)),
    GroupedUpTo l c gs → c ≤ l.length → l.length - c + 3 ≤ fuel →
    ∃ calls, seqLoop reduce l fuel c = some calls ∧ GroupedUpTo l l.length (gs ++ calls)
  | 0, c, gs, _, _, hfuel => by omega
  | fuel + 1, c, gs, hgs, hc, hfuel => by
      by_cases hlt : c < l.length
      · have hx : l[c]? = some l[c] := List.getElem?_eq_getElem hlt
        obtain ⟨results, c', hred, hd, hend⟩ :=
          seqReduce_spec hdrain fuel c [] (.begin hx) (by simp) (by omega)
        obtain ⟨hadv, hgs'⟩ := hd.group hl hgs hend
        obtain ⟨calls, hcalls, hall⟩ :=
          seqLoop_spec hdrain hl fuel c' _ hgs' hd.le_length (by omega)
        refine ⟨(l[c].key, results.filterMap id) :: calls, ?_, by simpa using hall⟩
        rw [seqLoop, if_pos hlt, hx]
        show (seqReduce reduce l l[c].key fuel c []).bind _ = _
        rw [hred]
        show (seqLoop reduce l fuel c').bind _ = _
        rw [hcalls]
        rfl
      · obtain rfl : c = l.length := by omega
        exact ⟨[], by rw [seqLoop, if_neg hlt], by simpa using hgs⟩

/-- The calls of a reducer, each as its key and the multiset of its values. -/
def asMultiset (calls : List (CString × List CString)) : Multiset (CString × Multiset CString) :=
  (calls.map fun g => (g.1, (g.2 : Multiset CString)) : List _)

/-- The sequential `MR_Run` returns, and reduces each key once with all values
emitted for it. -/
theorem seqRun_spec {job : Job} (hdrain : Drains job.reduce) {fuel : Nat}
    (hfuel : job.emits.length + 3 ≤ fuel) :
    (∃ calls, SeqRun job fuel calls) ∧
      ∀ calls, SeqRun job fuel calls → asMultiset calls = groupByKey (job.emits : Multiset Node) := by
  have hrun : ∀ sorted : List Node, sorted.Perm job.emits → Sorted sorted →
      ∃ calls, seqLoop job.reduce sorted fuel 0 = some calls ∧
        asMultiset calls = groupByKey (job.emits : Multiset Node) := by
    intro sorted hperm hsorted
    obtain ⟨calls, hok, hgs⟩ := seqLoop_spec hdrain hsorted fuel 0 [] (.zero _) (by omega)
      (by rw [hperm.length_eq]; omega)
    refine ⟨calls, hok, ?_⟩
    rw [List.nil_append] at hgs
    have hexp : expand calls = sorted := by simpa using hgs.expand_eq
    rw [asMultiset, groups_eq_groupByKey (nodup_of_ascending hgs.ascending) hgs.nonempty, hexp,
      Multiset.coe_eq_coe.mpr hperm]
  constructor
  · obtain ⟨sorted, hperm, hsorted⟩ := exists_sorted_perm job.emits
    obtain ⟨calls, hok, _⟩ := hrun sorted hperm hsorted
    exact ⟨calls, sorted, hperm, hsorted, hok⟩
  · rintro calls ⟨sorted, hperm, hsorted, hok⟩
    obtain ⟨calls', hok', heq⟩ := hrun sorted hperm hsorted
    rw [hok] at hok'
    cases hok'
    exact heq

end CS537.MapReduce
