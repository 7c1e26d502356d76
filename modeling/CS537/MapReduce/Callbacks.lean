import CS537.MapReduce.Reducing

/-!
# MapReduce — reducers that do as they like

Nothing in `mapreduce.h` makes a reducer call `get_next` until it returns
`NULL`, and `reducerHelper` gets on only as far as the calls take it. Here a
reducer is any callback that returns: it calls `get_next` as often as it
decides, and may keep data of its own from one key to the next. The helper
invokes it once for every key exactly when each invocation takes all the
values of its key (`TakesAll`).
-/

namespace CS537.MapReduce

open Grouping Function

variable {σ : Type}

/-- The body of a reducer: it returns, leaving behind what it keeps, or calls
`get_next` and goes on with the answer. -/
inductive Script (σ : Type) where
  | done (kept : σ)
  | getNext (resume : Option CString → Script σ)

/-- A reducer with data of its own: its body for a key. -/
abbrev Callback (σ : Type) := σ → CString → Script σ

/-- `reducer(key, getValue, p)`. -/
def callReducer (key : CString) (p : Nat) : Script σ → State → σ × State
  | .done kept, s => (kept, s)
  | .getNext resume, s =>
      callReducer key p (resume (getValue key p s).1) (getValue key p s).2

/-- The loop of `reducerHelper`, with the keys it invokes the reducer on; the
fuel counts its rounds. -/
def reducerLoop (reduce : Callback σ) (p : Nat) : Nat → σ → State → Option (List CString)
  | 0, _, _ => none
  | fuel + 1, kept, s =>
      if s.numOfAccessInPartitions p < s.nodesInPartitions p then
        let key := (s.partitions p (s.numOfAccessInPartitions p)).key
        let (kept', s') := callReducer key p (reduce kept key) s
        (reducerLoop reduce p fuel kept' s').map (key :: ·)
      else some []

/-- A partition as `reducerHelper` enters its loop. -/
def State.sortedAs (s : State) (p : Nat) (sorted : Nat → Node) : State :=
  { s with
    partitions := update s.partitions p sorted,
    numOfAccessInPartitions := update s.numOfAccessInPartitions p 0 }

/-- The helper returns, having invoked the reducer once for each key of the
partition, in `strcmp` order. -/
def OncePerKey (reduce : Callback σ) (kept : σ) (p : Nat) (s : State) : Prop :=
  ∃ fuel calls, reducerLoop reduce p fuel kept s = some calls ∧
    calls.Pairwise (fun a b => a.strcmp b < 0) ∧
    ∀ key, key ∈ calls ↔ key ∈ (s.nodes p).map KV.key

/-! ## One invocation -/

/-- A reducer's body on the values of its key: what it keeps, and the values it
does not take. -/
def feed : Script σ → List CString → σ × List CString
  | .done kept, values => (kept, values)
  | .getNext resume, [] => feed (resume none) []
  | .getNext resume, v :: values => feed (resume (some v)) values

/-- Every invocation takes all the values of its key. -/
def TakesAll (reduce : Callback σ) : σ → List (CString × List CString) → Prop
  | _, [] => True
  | kept, (key, values) :: gs =>
      (feed (reduce kept key) values).2 = [] ∧
        TakesAll reduce (feed (reduce kept key) values).1 gs

/-- The state with the cursor of one partition at `c`. -/
def State.cursorAt (s : State) (p c : Nat) : State :=
  { s with numOfAccessInPartitions := update s.numOfAccessInPartitions p c }

@[simp] theorem cursorAt_cursor (s : State) (p c : Nat) :
    (s.cursorAt p c).numOfAccessInPartitions p = c := update_self ..

@[simp] theorem cursorAt_nodes (s : State) (p c : Nat) : (s.cursorAt p c).nodes p = s.nodes p :=
  rfl

theorem cursorAt_cursorAt (s : State) (p c c' : Nat) :
    (s.cursorAt p c).cursorAt p c' = s.cursorAt p c' := by
  simp only [State.cursorAt, update_idem]

theorem cursorAt_self (s : State) (p : Nat) :
    s.cursorAt p (s.numOfAccessInPartitions p) = s := by
  rw [State.cursorAt, update_eq_self]

theorem getValue_cursorAt (key : CString) (p c : Nat) (s : State) :
    getValue key p (s.cursorAt p c) =
      ((nextValue (s.nodes p) key c).1, s.cursorAt p (nextValue (s.nodes p) key c).2) := by
  have hget : getValue key p (s.cursorAt p c) =
      ((nextValue (s.nodes p) key ((s.cursorAt p c).numOfAccessInPartitions p)).1,
        (s.cursorAt p c).cursorAt p
          (nextValue (s.nodes p) key ((s.cursorAt p c).numOfAccessInPartitions p)).2) :=
    getValue_eq key p (s.cursorAt p c)
  rw [hget, cursorAt_cursor, cursorAt_cursorAt]

/-- An invocation on a run of its key sees the values of the run, and leaves
the cursor before the first one it did not take. -/
theorem callReducer_eq {s : State} {p : Nat} {key : CString} {next : List Node}
    (hnext : ∀ x ∈ next.head?, x.key ≠ key) :
    ∀ (script : Script σ) (c : Nat) (values : List CString),
    (s.nodes p).drop c = values.map (KV.mk key) ++ next →
    ∃ c', callReducer key p script (s.cursorAt p c) = ((feed script values).1, s.cursorAt p c') ∧
      (s.nodes p).drop c' = (feed script values).2.map (KV.mk key) ++ next := by
  intro script
  induction script with
  | done kept => intro c values h; exact ⟨c, rfl, h⟩
  | getNext resume ih =>
      intro c values h
      have hget : (s.nodes p)[c]? = (values.map (KV.mk key) ++ next).head? := by
        rw [← h, List.head?_drop]
      cases values with
      | nil =>
          have hend : nextValue (s.nodes p) key c = (none, c) := by
            rw [nextValue, hget]
            cases hn : next with
            | nil => rfl
            | cons x xs =>
                have hx : x.key ≠ key := hnext x (by simp [hn])
                simp [hx]
          obtain ⟨c', hcall, hdrop⟩ := ih none c [] h
          refine ⟨c', ?_, hdrop⟩
          rw [callReducer, getValue_cursorAt, hend]
          exact hcall
      | cons v values =>
          have hmore : nextValue (s.nodes p) key c = (some v, c + 1) := by
            rw [nextValue, hget]
            simp
          have htail : (s.nodes p).drop (c + 1) = values.map (KV.mk key) ++ next := by
            rw [← List.tail_drop, h]
            rfl
          obtain ⟨c', hcall, hdrop⟩ := ih (some v) (c + 1) values htail
          refine ⟨c', ?_, hdrop⟩
          rw [callReducer, getValue_cursorAt, hmore]
          exact hcall

/-! ## The loop -/

/-- One round of the loop, at the head of a run. -/
theorem reducerLoop_round (reduce : Callback σ) (kept : σ) (fuel : Nat) {s : State} {p c : Nat}
    {key : CString} {v : CString} {values : List CString} {next : List Node}
    (hnext : ∀ x ∈ next.head?, x.key ≠ key)
    (h : (s.nodes p).drop c = (v :: values).map (KV.mk key) ++ next) :
    ∃ c', reducerLoop reduce p (fuel + 1) kept (s.cursorAt p c) =
        (reducerLoop reduce p fuel (feed (reduce kept key) (v :: values)).1
          (s.cursorAt p c')).map (key :: ·) ∧
      (s.nodes p).drop c' =
        (feed (reduce kept key) (v :: values)).2.map (KV.mk key) ++ next := by
  have hget : (s.nodes p)[c]? = some ⟨key, v⟩ := by
    rw [← List.head?_drop, h]
    rfl
  have hlt : c < s.nodesInPartitions p := by
    have := (List.getElem?_eq_some_iff.mp hget).1
    rwa [length_nodes] at this
  have hkey : (s.partitions p c).key = key := by
    rw [getElem?_nodes, if_pos hlt] at hget
    rw [Option.some.inj hget]
  obtain ⟨c', hcall, hdrop⟩ := callReducer_eq hnext (reduce kept key) c (v :: values) h
  refine ⟨c', ?_, hdrop⟩
  rw [reducerLoop, if_pos (show (s.cursorAt p c).numOfAccessInPartitions p <
    (s.cursorAt p c).nodesInPartitions p by rw [cursorAt_cursor]; exact hlt)]
  simp only [cursorAt_cursor, show (s.cursorAt p c).partitions = s.partitions from rfl, hkey, hcall]

theorem reducerLoop_end {reduce : Callback σ} {s : State} {p c : Nat} {kept : σ} {fuel : Nat}
    (h : (s.nodes p).drop c = []) :
    reducerLoop reduce p (fuel + 1) kept (s.cursorAt p c) = some [] := by
  have hle : s.nodesInPartitions p ≤ c := by
    have := List.drop_eq_nil_iff.mp h
    rwa [length_nodes] at this
  rw [reducerLoop, if_neg]
  rw [cursorAt_cursor]
  exact Nat.not_lt.mpr hle

/-- The key after a run is another one. -/
theorem expand_head_ne {key : CString} {gs : List (CString × List CString)}
    (hasc : (key :: gs.map Prod.fst).Pairwise (· < ·)) :
    ∀ x ∈ (expand gs).head?, x.key ≠ key := by
  intro x hx
  have hmem : x ∈ expand gs := List.mem_of_mem_head? hx
  obtain ⟨g, hg, hk, -⟩ := mem_expand.mp hmem
  have hlt := (List.pairwise_cons.mp hasc).1 g.1 (List.mem_map_of_mem hg)
  rw [← hk]
  exact ne_of_gt hlt

/-- If every invocation takes all its values, the loop visits the runs in
order and returns. -/
theorem reducerLoop_visits {reduce : Callback σ} {s : State} {p : Nat} :
    ∀ (gs : List (CString × List CString)) (kept : σ) (c : Nat),
    (gs.map Prod.fst).Pairwise (· < ·) → (∀ g ∈ gs, g.2 ≠ []) →
    (s.nodes p).drop c = expand gs → TakesAll reduce kept gs →
    reducerLoop reduce p (gs.length + 1) kept (s.cursorAt p c) = some (gs.map Prod.fst) := by
  intro gs
  induction gs with
  | nil => intro kept c _ _ h _; exact reducerLoop_end h
  | cons g gs ih =>
      intro kept c hasc hne h htakes
      obtain ⟨key, values⟩ := g
      obtain ⟨hall, hrest⟩ := htakes
      obtain ⟨v, values, rfl⟩ := List.exists_cons_of_ne_nil (hne (key, values) (by simp))
      have hne' : ∀ g ∈ gs, g.2 ≠ [] := fun g hg => hne g (by simp [hg])
      obtain ⟨c', hround, hdrop⟩ :=
        reducerLoop_round reduce kept (gs.length + 1) (expand_head_ne hasc) h
      rw [hall] at hdrop
      rw [List.length_cons, hround, ih _ c' (List.pairwise_cons.mp hasc).2 hne' hdrop hrest]
      rfl

/-- If the loop returns without visiting a key twice, every invocation took all
its values: a value left over brings its key up again. -/
theorem takesAll_of_loop {reduce : Callback σ} {s : State} {p : Nat} :
    ∀ (gs : List (CString × List CString)) (kept : σ) (c fuel : Nat) (calls : List CString),
    (gs.map Prod.fst).Pairwise (· < ·) → (∀ g ∈ gs, g.2 ≠ []) →
    (s.nodes p).drop c = expand gs →
    reducerLoop reduce p fuel kept (s.cursorAt p c) = some calls → calls.Nodup →
    TakesAll reduce kept gs := by
  intro gs
  induction gs with
  | nil => intro kept c fuel calls _ _ _ _ _; trivial
  | cons g gs ih =>
      intro kept c fuel calls hasc hne h hloop hnd
      obtain ⟨key, values⟩ := g
      obtain ⟨v, values, rfl⟩ := List.exists_cons_of_ne_nil (hne (key, values) (by simp))
      have hne' : ∀ g ∈ gs, g.2 ≠ [] := fun g hg => hne g (by simp [hg])
      have hhead := expand_head_ne hasc
      cases fuel with
      | zero => cases hloop
      | succ fuel =>
          obtain ⟨c', hround, hdrop⟩ :=
            reducerLoop_round reduce kept fuel hhead h
          rw [hround] at hloop
          obtain ⟨later, hlater, rfl⟩ := Option.map_eq_some_iff.mp hloop
          obtain ⟨hkey, hnd'⟩ := List.nodup_cons.mp hnd
          have hall : (feed (reduce kept key) (v :: values)).2 = [] := by
            by_contra hleft
            obtain ⟨w, left, hw⟩ := List.exists_cons_of_ne_nil hleft
            rw [hw] at hdrop
            cases fuel with
            | zero => cases hlater
            | succ fuel =>
                obtain ⟨c'', hround', -⟩ := reducerLoop_round reduce
                  (feed (reduce kept key) (v :: values)).1 fuel hhead hdrop
                rw [hround'] at hlater
                obtain ⟨more, -, rfl⟩ := Option.map_eq_some_iff.mp hlater
                exact hkey (by simp)
          rw [hall] at hdrop
          exact ⟨hall, ih _ c' fuel later (List.pairwise_cons.mp hasc).2 hne' hdrop hlater hnd'⟩

theorem sortedAs_nodes (s : State) (p : Nat) (sorted : Nat → Node) :
    (s.sortedAs p sorted).nodes p = (List.range (s.nodesInPartitions p)).map sorted := by
  simp [State.nodes, State.sortedAs]

/-- A loop that starts at the head of a sorted partition. -/
theorem oncePerKey_iff_takesAll {reduce : Callback σ} {kept : σ} {s : State} {p : Nat}
    (hsorted : Sorted (s.nodes p)) (hstart : s.numOfAccessInPartitions p = 0) :
    OncePerKey reduce kept p s ↔ TakesAll reduce kept (groups (s.nodes p)) := by
  have hasc := groups_ascending hsorted
  have hne := groups_nonempty (s.nodes p)
  have hall : (s.nodes p).drop 0 = expand (groups (s.nodes p)) := (expand_groups _).symm
  have hself : s.cursorAt p 0 = s := by
    rw [← hstart]
    exact cursorAt_self s p
  constructor
  · rintro ⟨fuel, calls, hloop, hcalls, -⟩
    rw [← hself] at hloop
    exact takesAll_of_loop _ kept 0 fuel calls hasc hne hall hloop (nodup_of_ascending hcalls)
  · intro htakes
    have hloop := reducerLoop_visits _ kept 0 hasc hne hall htakes
    rw [hself] at hloop
    exact ⟨_, _, hloop, hasc, mem_keys_groups _⟩

/-- **Once per key**: whatever order `qsort` gives the nodes of equal keys,
`reducerHelper` returns having invoked the reducer once for each key of the
partition, in ascending order, exactly when every invocation takes all the
values of its key. -/
theorem reducerHelper_once_per_key_iff (reduce : Callback σ) (kept : σ) {s : State} {p : Nat}
    {sorted : Nat → Node} (hq : Qsort s p sorted) :
    OncePerKey reduce kept p (s.sortedAs p sorted) ↔
      TakesAll reduce kept (groups ((List.range (s.nodesInPartitions p)).map sorted)) := by
  have hnodes := sortedAs_nodes s p sorted
  have hsorted : Sorted ((s.sortedAs p sorted).nodes p) := by
    rw [hnodes]
    exact hq.2
  rw [oncePerKey_iff_takesAll hsorted (update_self ..), hnodes]

/-- A partition with two values of the key `a`, in sorted order. -/
def twoValues : State where
  job :=
    { files := [], map := fun _ => [], numMappers := 1, reduce := fun _ _ => false,
      numReducers := 1, partition := fun _ _ => 0 }
  filesDone := 0
  partitions _ i := ⟨.ofBuffer [97], if i = 0 then .ofBuffer [49] else .ofBuffer [50]⟩
  nodesInPartitions _ := 2
  numOfAccessInPartitions _ := 0
  phase := .idle
  log := []

theorem twoValues_qsort : Qsort twoValues 0 (twoValues.partitions 0) :=
  ⟨.refl _, by decide⟩

/-- A reducer that calls `get_next` `n` times for each key. -/
def takeValues (n : Nat) : Callback Unit := fun _ _ =>
  n.rec (.done ()) fun _ rest => .getNext fun _ => rest

theorem reducerHelper_once_per_key_two :
    OncePerKey (takeValues 2) () 0 (twoValues.sortedAs 0 (twoValues.partitions 0)) :=
  (reducerHelper_once_per_key_iff (takeValues 2) () twoValues_qsort).mpr ⟨by decide, trivial⟩

/-- A reducer that asks for one value is called again for the second. -/
theorem reducer_called_twice :
    ¬ ∀ (reduce : Callback Unit) (s : State) (p : Nat) (sorted : Nat → Node),
      Qsort s p sorted → OncePerKey reduce () p (s.sortedAs p sorted) := by
  intro h
  have honce := h (takeValues 1) twoValues 0 _ twoValues_qsort
  have hsorted : Sorted ((twoValues.sortedAs 0 (twoValues.partitions 0)).nodes 0) := by
    rw [sortedAs_nodes]
    exact twoValues_qsort.2
  have htakes := (oncePerKey_iff_takesAll hsorted rfl).mp honce
  rw [sortedAs_nodes] at htakes
  exact absurd htakes.1 (by decide)

end CS537.MapReduce
