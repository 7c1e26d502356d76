import Mathlib.Data.Multiset.Dedup
import Mathlib.Data.Multiset.Filter
import Mathlib.Order.Defs.LinearOrder

/-!
# Grouping key/value pairs by key

A multiset of pairs determines, for each key in it, the multiset of that key's
values (`groupByKey`). A scan of a sorted list that cuts it into runs of one
key computes exactly this; `GroupedUpTo` is the scan's invariant.
-/

namespace Grouping

/-- A key with a value. -/
structure KV (κ ν : Type) where
  key : κ
  value : ν
  deriving DecidableEq, Repr

variable {κ ν : Type}

/-- The pairs a list of groups stands for. -/
def expand (gs : List (κ × List ν)) : List (KV κ ν) :=
  gs.flatMap fun g => g.2.map (KV.mk g.1)

@[simp] theorem expand_nil : expand ([] : List (κ × List ν)) = [] := rfl

@[simp] theorem expand_cons (g : κ × List ν) (gs : List (κ × List ν)) :
    expand (g :: gs) = g.2.map (KV.mk g.1) ++ expand gs := rfl

@[simp] theorem expand_append (gs gs' : List (κ × List ν)) :
    expand (gs ++ gs') = expand gs ++ expand gs' := List.flatMap_append ..

theorem mem_expand {gs : List (κ × List ν)} {x : KV κ ν} :
    x ∈ expand gs ↔ ∃ g ∈ gs, g.1 = x.key ∧ x.value ∈ g.2 := by
  cases x with
  | mk k v =>
      simp only [expand, List.mem_flatMap, List.mem_map, KV.mk.injEq]
      constructor
      · rintro ⟨g, hg, w, hw, rfl, rfl⟩
        exact ⟨g, hg, rfl, hw⟩
      · rintro ⟨g, hg, rfl, hw⟩
        exact ⟨g, hg, v, hw, rfl, rfl⟩

section ByKey

variable [DecidableEq κ]

/-- Each key of a multiset of pairs, with the multiset of its values. -/
def groupByKey (m : Multiset (KV κ ν)) : Multiset (κ × Multiset ν) :=
  (m.map KV.key).dedup.map fun k => (k, (m.filter fun x => x.key = k).map KV.value)

/-- A group's values are the values its key has in the pairs, if no other group
has the key. -/
theorem values_expand {gs : List (κ × List ν)} (hnd : (gs.map Prod.fst).Nodup)
    {g : κ × List ν} (hg : g ∈ gs) :
    ((expand gs).filter fun x => x.key = g.1).map KV.value = g.2 := by
  have hother : ∀ (hs : List (κ × List ν)) (k : κ), k ∉ hs.map Prod.fst →
      (expand hs).filter (fun x => x.key = k) = [] := by
    intro hs k hk
    refine List.filter_eq_nil_iff.mpr fun x hx => ?_
    obtain ⟨g', hg', hkey, _⟩ := mem_expand.mp hx
    have hne : x.key ≠ k := by
      rintro rfl
      exact hk (List.mem_map.mpr ⟨g', hg', hkey⟩)
    simpa using hne
  have hself : ∀ (k : κ) (vs : List ν),
      ((vs.map (KV.mk k)).filter fun x => x.key = k).map KV.value = vs := by
    intro k vs
    rw [List.filter_eq_self.mpr (by simp), List.map_map]
    simp [Function.comp_def]
  induction gs with
  | nil => cases hg
  | cons g' gs ih =>
      rw [List.map_cons, List.nodup_cons] at hnd
      rw [expand_cons, List.filter_append, List.map_append]
      rcases List.mem_cons.mp hg with rfl | hmem
      · rw [hother gs g.1 hnd.1, hself]
        simp
      · have hne : g'.1 ≠ g.1 := by
          intro heq
          exact hnd.1 (heq ▸ List.mem_map_of_mem hmem)
        rw [ih hnd.2 hmem, List.filter_eq_nil_iff.mpr (by simp [hne])]
        rfl

/-- Groups with different keys, none of them empty, are the groups of the pairs
they stand for. -/
theorem groups_eq_groupByKey {gs : List (κ × List ν)} (hnd : (gs.map Prod.fst).Nodup)
    (hne : ∀ g ∈ gs, g.2 ≠ []) :
    ((gs.map fun g => (g.1, (g.2 : Multiset ν)) : List (κ × Multiset ν)) : Multiset _) =
      groupByKey (expand gs : Multiset (KV κ ν)) := by
  have hkeys : (((expand gs : Multiset (KV κ ν)).map KV.key).dedup) =
      ((gs.map Prod.fst : List κ) : Multiset κ) := by
    refine (Multiset.Nodup.ext (Multiset.nodup_dedup _) (Multiset.coe_nodup.mpr hnd)).mpr ?_
    intro k
    simp only [Multiset.mem_dedup, Multiset.map_coe, Multiset.mem_coe, List.mem_map]
    constructor
    · rintro ⟨x, hx, rfl⟩
      obtain ⟨g, hg, hkey, _⟩ := mem_expand.mp hx
      exact ⟨g, hg, hkey⟩
    · rintro ⟨g, hg, rfl⟩
      obtain ⟨v, hv⟩ := List.exists_mem_of_ne_nil _ (hne g hg)
      exact ⟨⟨g.1, v⟩, mem_expand.mpr ⟨g, hg, rfl, hv⟩, rfl⟩
  unfold groupByKey
  rw [hkeys, Multiset.map_coe, List.map_map]
  congr 1
  refine List.map_congr_left fun g hg => ?_
  simp only [Function.comp_apply, Multiset.filter_coe, Multiset.map_coe, values_expand hnd hg]

end ByKey

/-! ## Cutting a sorted list into runs -/

section Sorted

variable [LinearOrder κ]

/-- Sorted by key. -/
def Sorted (l : List (KV κ ν)) : Prop := l.Pairwise fun a b => a.key ≤ b.key

theorem exists_sorted_perm (l : List (KV κ ν)) : ∃ l' : List (KV κ ν), l'.Perm l ∧ Sorted l' := by
  refine ⟨l.mergeSort fun a b => decide (a.key ≤ b.key), List.mergeSort_perm .., ?_⟩
  refine (List.pairwise_mergeSort ?_ ?_ l).imp of_decide_eq_true
  · intro a b c hab hbc
    exact decide_eq_true (le_trans (of_decide_eq_true hab) (of_decide_eq_true hbc))
  · intro a b
    simpa using le_total a.key b.key

/-- `gs` groups the first `c` pairs of `l`, in ascending order of keys, and no
key of theirs comes again. -/
structure GroupedUpTo (l : List (KV κ ν)) (c : Nat) (gs : List (κ × List ν)) : Prop where
  expand_eq : expand gs = l.take c
  ascending : (gs.map Prod.fst).Pairwise (· < ·)
  nonempty : ∀ g ∈ gs, g.2 ≠ []
  below : ∀ g ∈ gs, ∀ x ∈ l.drop c, g.1 < x.key

theorem GroupedUpTo.zero (l : List (KV κ ν)) : GroupedUpTo l 0 [] where
  expand_eq := by simp
  ascending := .nil
  nonempty := by simp
  below := by simp

/-- The next run: values of one key up to a pair with another key, or to the
end. -/
theorem GroupedUpTo.snoc {l : List (KV κ ν)} {c c' : Nat} {gs : List (κ × List ν)} {k : κ}
    {vs : List ν} (hl : Sorted l) (h : GroupedUpTo l c gs) (hvs : vs ≠ [])
    (htake : l.take c' = l.take c ++ vs.map (KV.mk k))
    (hstop : ∀ x, l[c']? = some x → x.key ≠ k) : GroupedUpTo l c' (gs ++ [(k, vs)]) := by
  have hdrop : l.drop c = vs.map (KV.mk k) ++ l.drop c' := by
    have : l.take c ++ l.drop c = l.take c ++ (vs.map (KV.mk k) ++ l.drop c') := by
      rw [List.take_append_drop, ← List.append_assoc, ← htake, List.take_append_drop]
    exact List.append_cancel_left this
  have hbelow : ∀ x ∈ l.drop c', k < x.key := by
    obtain ⟨v, hv⟩ := List.exists_mem_of_ne_nil _ hvs
    have hsorted : (l.drop c).Pairwise fun a b => a.key ≤ b.key := List.Pairwise.drop hl
    rw [hdrop, List.pairwise_append] at hsorted
    obtain ⟨-, hrest, hcross⟩ := hsorted
    have hle : ∀ x ∈ l.drop c', k ≤ x.key :=
      fun x hx => hcross ⟨k, v⟩ (List.mem_map_of_mem hv) x hx
    -- the first pair after the run has a larger key, and the others are above it
    cases hd : l.drop c' with
    | nil => simp
    | cons y ys =>
        rw [hd] at hrest hle
        have hy : l[c']? = some y := by
          have := congrArg (·[0]?) hd
          simpa using this
        have hlt : k < y.key := lt_of_le_of_ne (hle y (List.mem_cons_self ..)) (hstop y hy).symm
        intro x hx
        rcases List.mem_cons.mp hx with rfl | hx
        · exact hlt
        · exact lt_of_lt_of_le hlt ((List.pairwise_cons.mp hrest).1 x hx)
  constructor
  · rw [expand_append, h.expand_eq, htake]
    simp
  · rw [List.map_append, List.pairwise_append]
    refine ⟨h.ascending, List.pairwise_singleton _ _, ?_⟩
    intro a ha b hb
    obtain ⟨g, hg, rfl⟩ := List.mem_map.mp ha
    obtain rfl : b = k := by simpa using hb
    obtain ⟨v, hv⟩ := List.exists_mem_of_ne_nil _ hvs
    exact h.below g hg ⟨b, v⟩ (by rw [hdrop]; exact List.mem_append_left _ (List.mem_map_of_mem hv))
  · intro g hg
    rcases List.mem_append.mp hg with hg | hg
    · exact h.nonempty g hg
    · obtain rfl := List.mem_singleton.mp hg
      exact hvs
  · intro g hg x hx
    rcases List.mem_append.mp hg with hg | hg
    · exact h.below g hg x (by rw [hdrop]; exact List.mem_append_right _ hx)
    · obtain rfl := List.mem_singleton.mp hg
      exact hbelow x hx

/-- Groups in ascending order have different keys. -/
theorem nodup_of_ascending {ks : List κ} (h : ks.Pairwise (· < ·)) : ks.Nodup :=
  h.imp ne_of_lt

end Sorted

/-! ## The runs of a list -/

section Runs

variable [DecidableEq κ]

/-- The runs of one key in a list, each with its values. -/
def groups : List (KV κ ν) → List (κ × List ν)
  | [] => []
  | x :: l =>
      match groups l with
      | [] => [(x.key, [x.value])]
      | (k, vs) :: gs =>
          if x.key = k then (k, x.value :: vs) :: gs
          else (x.key, [x.value]) :: (k, vs) :: gs

theorem expand_groups (l : List (KV κ ν)) : expand (groups l) = l := by
  induction l with
  | nil => rfl
  | cons x l ih =>
      rw [groups]
      cases hg : groups l with
      | nil =>
          rw [hg] at ih
          simp only [expand_cons, expand_nil, ← ih]
          rfl
      | cons g gs =>
          obtain ⟨k, vs⟩ := g
          rw [hg, expand_cons] at ih
          dsimp only
          split
          · rename_i hk
            subst hk
            simp only [expand_cons, List.map_cons, List.cons_append, ih]
          · simp only [expand_cons, ih]
            rfl

theorem groups_nonempty (l : List (KV κ ν)) : ∀ g ∈ groups l, g.2 ≠ [] := by
  induction l with
  | nil => simp [groups]
  | cons x l ih =>
      rw [groups]
      cases hg : groups l with
      | nil => simp
      | cons g gs =>
          obtain ⟨k, vs⟩ := g
          rw [hg] at ih
          dsimp only
          split
          · intro g' hg'
            rcases List.mem_cons.mp hg' with rfl | hg'
            · simp
            · exact ih g' (by simp [hg'])
          · intro g' hg'
            rcases List.mem_cons.mp hg' with rfl | hg'
            · simp
            · exact ih g' hg'

theorem mem_keys_groups (l : List (KV κ ν)) (k : κ) :
    k ∈ (groups l).map Prod.fst ↔ k ∈ l.map KV.key := by
  constructor
  · intro h
    obtain ⟨g, hg, rfl⟩ := List.mem_map.mp h
    obtain ⟨v, hv⟩ := List.exists_mem_of_ne_nil _ (groups_nonempty l g hg)
    have hx : (KV.mk g.1 v) ∈ expand (groups l) := mem_expand.mpr ⟨g, hg, rfl, hv⟩
    rw [expand_groups] at hx
    exact List.mem_map.mpr ⟨_, hx, rfl⟩
  · intro h
    obtain ⟨x, hx, rfl⟩ := List.mem_map.mp h
    rw [← expand_groups l] at hx
    obtain ⟨g, hg, hk, -⟩ := mem_expand.mp hx
    exact List.mem_map.mpr ⟨g, hg, hk⟩

end Runs

/-- The runs of a sorted list come in ascending order of keys. -/
theorem groups_ascending [LinearOrder κ] {l : List (KV κ ν)} (h : Sorted l) :
    ((groups l).map Prod.fst).Pairwise (· < ·) := by
  induction l with
  | nil => simp [groups]
  | cons x l ih =>
      obtain ⟨hx, hl⟩ := List.pairwise_cons.mp h
      have hle : ∀ k ∈ (groups l).map Prod.fst, x.key ≤ k := by
        intro k hk
        obtain ⟨y, hy, rfl⟩ := List.mem_map.mp ((mem_keys_groups l k).mp hk)
        exact hx y hy
      have ih := ih hl
      rw [groups]
      cases hg : groups l with
      | nil => simp
      | cons g gs =>
          obtain ⟨k, vs⟩ := g
          rw [hg] at hle ih
          dsimp only
          split
          · exact ih
          · rename_i hk
            have hlt : x.key < k := lt_of_le_of_ne (hle k (by simp)) hk
            rw [List.map_cons, List.pairwise_cons]
            refine ⟨?_, ih⟩
            intro k' hk'
            rcases List.mem_cons.mp hk' with rfl | hk'
            · exact hlt
            · exact lt_trans hlt ((List.pairwise_cons.mp ih).1 k' hk')

/-! ## The cursor

A scan that hands out the values of the current key one at a time, from a
cursor into the sorted list. -/

/-- The scan is at `c`, handing out the run of key `k` that starts at `c₀`;
`results` is what it has handed out, `none` for the end of the run. -/
structure Delivering (l : List (KV κ ν)) (c₀ c : Nat) (k : κ) (results : List (Option ν)) :
    Prop where
  start : ∃ x, l[c₀]? = some x ∧ x.key = k
  taken : l.take c = l.take c₀ ++ (results.filterMap id).map (KV.mk k)
  le_length : c ≤ l.length
  moved : c = c₀ ∧ results = [] ∨ c₀ < c ∧ results.filterMap id ≠ []
  stopped : none ∈ results → ∀ x, l[c]? = some x → x.key ≠ k

theorem Delivering.begin {l : List (KV κ ν)} {c : Nat} {x : KV κ ν} (h : l[c]? = some x) :
    Delivering l c c x.key [] where
  start := ⟨x, h, rfl⟩
  taken := by simp
  le_length := (List.getElem?_eq_some_iff.mp h).1.le
  moved := .inl ⟨rfl, rfl⟩
  stopped := by simp

section Next

variable [DecidableEq κ]

/-- The next value of key `k` at cursor `c`, with the cursor after it. -/
def nextValue (l : List (KV κ ν)) (k : κ) (c : Nat) : Option ν × Nat :=
  match l[c]? with
  | some x => if x.key = k then (some x.value, c + 1) else (none, c)
  | none => (none, c)

/-- One more value, while the run lasts. -/
theorem Delivering.next {l : List (KV κ ν)} {c₀ c : Nat} {k : κ} {results : List (Option ν)}
    (h : Delivering l c₀ c k results) (hrun : none ∉ results) :
    Delivering l c₀ (nextValue l k c).2 k (results ++ [(nextValue l k c).1]) := by
  -- the first call meets the run's first pair, so it does not end the run
  have hfirst : c = c₀ → ∃ x, l[c]? = some x ∧ x.key = k := fun hc => hc ▸ h.start
  by_cases hx : ∃ x, l[c]? = some x ∧ x.key = k
  · obtain ⟨x, hx, hk⟩ := hx
    have hnext : nextValue l k c = (some x.value, c + 1) := by
      simp [nextValue, hx, hk]
    rw [hnext]
    have hlt := (List.getElem?_eq_some_iff.mp hx).1
    refine ⟨h.start, ?_, hlt, .inr ⟨?_, by simp⟩, ?_⟩
    · rw [List.take_add_one, hx, h.taken]
      subst hk
      simp
    · rcases h.moved with ⟨rfl, _⟩ | ⟨hlt, _⟩ <;> omega
    · intro hnone
      simp [hrun] at hnone
  · have hnext : nextValue l k c = (none, c) := by
      unfold nextValue
      cases hc : l[c]? with
      | none => rfl
      | some x =>
          have hne : x.key ≠ k := fun hk => hx ⟨x, hc, hk⟩
          simp [hne]
    rw [hnext]
    refine ⟨h.start, by simpa using h.taken, h.le_length, ?_, ?_⟩
    · rcases h.moved with ⟨hc, _⟩ | ⟨hlt, hne⟩
      · exact absurd (hfirst hc) hx
      · exact .inr ⟨hlt, by simpa using hne⟩
    · intro _ x hxc hk
      exact hx ⟨x, hxc, hk⟩

end Next

/-- A run that has ended is the next group. -/
theorem Delivering.group [LinearOrder κ] {l : List (KV κ ν)} {c₀ c : Nat} {k : κ} {results : List (Option ν)}
    {gs : List (κ × List ν)} (h : Delivering l c₀ c k results) (hl : Sorted l)
    (hgs : GroupedUpTo l c₀ gs) (hend : none ∈ results) :
    c₀ < c ∧ GroupedUpTo l c (gs ++ [(k, results.filterMap id)]) := by
  rcases h.moved with ⟨_, rfl⟩ | ⟨hlt, hne⟩
  · cases hend
  · exact ⟨hlt, hgs.snoc hl hne h.taken (h.stopped hend)⟩

end Grouping
