import Mathlib.Data.List.Basic
import Mathlib.Data.List.TakeWhile
import Mathlib.Data.List.Induction

/-!
# Runs of a list

The runs of a list are its longest stretches without a separator. Cutting a list at a
separator cuts its runs, a stretch without one is one run, and joining stretches with
a separator between them gives them back as the runs.
-/

namespace Runs

variable {α : Type*} (sep : α → Bool)

/-- The longest stretches of a list without a separator, in order. -/
noncomputable def runs (l : List α) : List (List α) :=
  (l.splitOnP sep).filter (fun w => !w.isEmpty)

/-- The first run and what stands after the separator that ends it. -/
def nextRun (l : List α) : Option (List α × List α) :=
  match l.dropWhile sep with
  | [] => none
  | a :: r =>
      some ((a :: r).takeWhile (fun x => !sep x), ((a :: r).dropWhile (fun x => !sep x)).tail)

/-- No separator in the stretch. -/
def Solid (w : List α) : Prop := ∀ x ∈ w, sep x = false

variable {sep}

theorem Solid.of_cons {a : α} {w : List α} (h : Solid sep (a :: w)) : Solid sep w := by
  intro x hx
  exact h x (List.mem_cons_of_mem a hx)

theorem solid_takeWhile (l : List α) : Solid sep (l.takeWhile (fun x => !sep x)) := by
  intro x hx
  simpa using List.mem_takeWhile_imp hx

@[simp] theorem runs_nil : runs sep ([] : List α) = [] := by
  simp [runs]

/-- A separator cuts the runs. -/
theorem runs_append_cons {a : α} (ha : sep a = true) (l r : List α) :
    runs sep (l ++ a :: r) = runs sep l ++ runs sep r := by
  rw [runs, List.splitOnP_append_cons l r ha, List.filter_append]
  rfl

theorem runs_cons_sep {a : α} (ha : sep a = true) (r : List α) :
    runs sep (a :: r) = runs sep r := by
  simpa using runs_append_cons ha [] r

theorem runs_concat_sep {a : α} (ha : sep a = true) (l : List α) :
    runs sep (l ++ [a]) = runs sep l := by
  simpa using runs_append_cons ha l []

/-- A stretch without a separator is its own run. -/
theorem runs_solid {w : List α} (h : Solid sep w) (hw : w ≠ []) : runs sep w = [w] := by
  rw [runs, List.splitOnP_eq_singleton h]
  simp [hw]

/-- The list is empty or begins with a separator. -/
def Opens (sep : α → Bool) (r : List α) : Prop := r = [] ∨ ∃ a t, r = a :: t ∧ sep a = true

/-- The list is empty or ends with a separator. -/
def Closes (sep : α → Bool) (l : List α) : Prop := l = [] ∨ ∃ t a, l = t ++ [a] ∧ sep a = true

theorem runs_append_opens {r : List α} (l : List α) (h : Opens sep r) :
    runs sep (l ++ r) = runs sep l ++ runs sep r := by
  rcases h with rfl | ⟨a, t, rfl, ha⟩
  · simp
  · rw [runs_append_cons ha, runs_cons_sep ha]

theorem runs_closes_append {l : List α} (h : Closes sep l) (r : List α) :
    runs sep (l ++ r) = runs sep l ++ runs sep r := by
  rcases h with rfl | ⟨t, a, rfl, ha⟩
  · simp
  · rw [List.append_assoc, List.singleton_append, runs_append_cons ha, runs_concat_sep ha]

theorem mem_runs_ne_nil {l w : List α} (hw : w ∈ runs sep l) : w ≠ [] := by
  have h := (List.mem_filter.mp hw).2
  simpa using h

theorem runs_dropWhile (l : List α) : runs sep (l.dropWhile sep) = runs sep l := by
  induction l with
  | nil => rfl
  | cons a l ih =>
      by_cases ha : sep a = true
      · rw [List.dropWhile_cons_of_pos ha, ih, runs_cons_sep ha]
      · rw [List.dropWhile_cons_of_neg ha]

/-- A list begins with a stretch without a separator; what is left is empty or begins
with one. -/
theorem opens_dropWhile (l : List α) : Opens sep (l.dropWhile (fun x => !sep x)) := by
  cases h : l.dropWhile (fun x => !sep x) with
  | nil => exact Or.inl rfl
  | cons a t =>
      have ha := List.head_dropWhile_not (fun x => !sep x) (l := l) (by simp [h])
      exact Or.inr ⟨a, t, rfl, by simpa [h] using ha⟩

/-- A list with no run is all separators. -/
theorem nextRun_none {l : List α} (h : nextRun sep l = none) : runs sep l = [] := by
  rw [← runs_dropWhile]
  rw [nextRun] at h
  split at h
  · rename_i hd
    rw [hd, runs_nil]
  · cases h

theorem nextRun_some {l p r : List α} (h : nextRun sep l = some (p, r)) :
    runs sep l = p :: runs sep r := by
  rw [← runs_dropWhile]
  rw [nextRun] at h
  split at h
  · cases h
  · rename_i a t hd
    have ha : ¬ sep a = true := by
      have hhead := List.head_dropWhile_not sep (l := l) (by simp [hd])
      simpa [hd] using hhead
    cases h
    rw [hd]
    have hne : (a :: t).takeWhile (fun x => !sep x) ≠ [] := by
      rw [List.takeWhile_cons_of_pos (by simpa using ha)]
      exact List.cons_ne_nil _ _
    have htail : runs sep ((a :: t).dropWhile (fun x => !sep x)) =
        runs sep ((a :: t).dropWhile (fun x => !sep x)).tail := by
      rcases @opens_dropWhile _ sep (a :: t) with h0 | ⟨b, u, hb, hsep⟩
      · rw [h0]
        rfl
      · rw [hb, runs_cons_sep hsep]
        rfl
    calc runs sep (a :: t)
        = runs sep ((a :: t).takeWhile (fun x => !sep x) ++
            (a :: t).dropWhile (fun x => !sep x)) := by rw [List.takeWhile_append_dropWhile]
      _ = runs sep ((a :: t).takeWhile (fun x => !sep x)) ++
            runs sep ((a :: t).dropWhile (fun x => !sep x)) :=
          runs_append_opens _ (opens_dropWhile _)
      _ = _ := by rw [runs_solid (solid_takeWhile _) hne, htail]; rfl

/-- Cutting off a run makes the list shorter. -/
theorem nextRun_length {l p r : List α} (h : nextRun sep l = some (p, r)) :
    r.length < l.length := by
  rw [nextRun] at h
  split at h
  · cases h
  · rename_i a t hd
    have hle : (a :: t).length ≤ l.length := by
      rw [← hd]
      exact (List.dropWhile_sublist sep).length_le
    cases h
    have htail := (List.dropWhile_sublist (l := a :: t) (fun x => !sep x)).length_le
    simp only [List.length_tail, List.length_cons] at *
    omega

/-- Bytes that are rewritten without touching what is a separator keep the runs. -/
theorem runs_map {sep' : α → Bool} {f : α → α} {l : List α}
    (hsep : ∀ x ∈ l, sep' (f x) = sep x) (hf : ∀ x ∈ l, sep x = false → f x = x) :
    runs sep' (l.map f) = runs sep l := by
  have hsplit : (l.map f).splitOnP sep' = l.splitOnP sep := by
    induction l with
    | nil => simp
    | cons a l ih =>
        have ih' := ih (fun x hx => hsep x (List.mem_cons_of_mem a hx))
          (fun x hx => hf x (List.mem_cons_of_mem a hx))
        have ha := hsep a List.mem_cons_self
        rw [List.map_cons, List.splitOnP_cons_eq_if_modifyHead,
          List.splitOnP_cons_eq_if_modifyHead, ha, ih']
        split
        · rfl
        · rename_i hns
          rw [hf a List.mem_cons_self (by simpa using hns)]
  rw [runs, runs, hsplit]

/-- Joining stretches with one separator between them gives them back. -/
theorem runs_intercalate {a : α} (ha : sep a = true) :
    ∀ ws : List (List α), (∀ w ∈ ws, Solid sep w ∧ w ≠ []) →
      runs sep ([a].intercalate ws) = ws
  | [], _ => by simp
  | [w], h => by
      have hw := h w List.mem_cons_self
      simpa using runs_solid hw.1 hw.2
  | w :: w' :: ws, h => by
      have hw := h w List.mem_cons_self
      have ih := runs_intercalate ha (w' :: ws) (fun x hx => h x (List.mem_cons_of_mem w hx))
      rw [List.intercalate_cons_cons, List.append_assoc, List.singleton_append,
        runs_append_cons ha, runs_solid hw.1 hw.2, ih]
      rfl

/-- What `nextRun` returns is made of elements of the list. -/
theorem nextRun_subset {l p r : List α} (h : nextRun sep l = some (p, r)) :
    (∀ x ∈ p, x ∈ l) ∧ ∀ x ∈ r, x ∈ l := by
  rw [nextRun] at h
  split at h
  · cases h
  · rename_i a t hd
    have hmem : ∀ x ∈ a :: t, x ∈ l := by
      rw [← hd]
      exact fun x hx => (List.dropWhile_sublist sep).subset hx
    cases h
    constructor
    · intro x hx
      exact hmem x ((List.takeWhile_sublist _).subset hx)
    · intro x hx
      exact hmem x ((List.dropWhile_sublist _).subset (List.mem_of_mem_tail hx))

theorem nextRun_solid {l p r : List α} (h : nextRun sep l = some (p, r)) : Solid sep p := by
  rw [nextRun] at h
  split at h
  · cases h
  · cases h
    exact solid_takeWhile _

/-- What is joined is made of the stretches and the separator. -/
theorem mem_intercalate {a x : α} : ∀ {ws : List (List α)}, x ∈ [a].intercalate ws →
    x = a ∨ ∃ w ∈ ws, x ∈ w
  | [], h => by simp at h
  | [w], h => Or.inr ⟨w, List.mem_cons_self, by simpa using h⟩
  | w :: w' :: ws, h => by
      rw [List.intercalate_cons_cons, List.append_assoc, List.singleton_append] at h
      rcases List.mem_append.mp h with h | h
      · exact Or.inr ⟨w, List.mem_cons_self, h⟩
      · rcases List.mem_cons.mp h with rfl | h
        · exact Or.inl rfl
        · rcases mem_intercalate h with h | ⟨v, hv, hx⟩
          · exact Or.inl h
          · exact Or.inr ⟨v, List.mem_cons_of_mem w hv, hx⟩

/-- A run has no separator, and its elements are elements of the list. -/
theorem mem_runs {l w : List α} (hw : w ∈ runs sep l) : Solid sep w ∧ ∀ x ∈ w, x ∈ l := by
  induction hn : l.length using Nat.strong_induction_on generalizing l with
  | _ n ih =>
      cases h : nextRun sep l with
      | none =>
          rw [nextRun_none h] at hw
          cases hw
      | some pr =>
          obtain ⟨p, r⟩ := pr
          have hlt := nextRun_length h
          have hsub := nextRun_subset h
          rw [nextRun_some h] at hw
          rcases List.mem_cons.mp hw with rfl | hw
          · exact ⟨nextRun_solid h, hsub.1⟩
          · obtain ⟨hs, hm⟩ := ih r.length (by omega) hw rfl
            exact ⟨hs, fun x hx => hsub.2 x (hm x hx)⟩

/-! ## A list taken apart at an element -/

theorem nextRun_solid_cons {w r : List α} {a : α} (hw : Solid sep w) (hne : w ≠ [])
    (ha : sep a = true) : nextRun sep (w ++ a :: r) = some (w, r) := by
  cases w with
  | nil => exact absurd rfl hne
  | cons b w =>
      have hb : ¬ sep b = true := by simp [hw b List.mem_cons_self]
      have htake : (b :: w ++ a :: r).takeWhile (fun x => !sep x) = b :: w := by
        rw [List.takeWhile_append_of_pos]
        · simp [ha]
        · intro x hx
          simp [hw x hx]
      have hdrop : (b :: w ++ a :: r).dropWhile (fun x => !sep x) = a :: r := by
        rw [List.dropWhile_append_of_pos]
        · simp [ha]
        · intro x hx
          simp [hw x hx]
      rw [nextRun, List.cons_append, List.dropWhile_cons_of_neg hb]
      simp only [← List.cons_append, htake, hdrop, List.tail_cons]

theorem nextRun_solid_self {w : List α} (hw : Solid sep w) (hne : w ≠ []) :
    nextRun sep w = some (w, []) := by
  cases w with
  | nil => exact absurd rfl hne
  | cons b w =>
      have hb : ¬ sep b = true := by simp [hw b List.mem_cons_self]
      have htake : (b :: w).takeWhile (fun x => !sep x) = b :: w := by
        apply List.takeWhile_eq_self_iff.mpr
        intro x hx
        simp [hw x hx]
      have hdrop : (b :: w).dropWhile (fun x => !sep x) = [] := by
        apply List.dropWhile_eq_nil_iff.mpr
        intro x hx
        simp [hw x hx]
      rw [nextRun, List.dropWhile_cons_of_neg hb]
      simp only [htake, hdrop, List.tail_nil]

/-- A list ends with a stretch without a separator; what is before is empty or ends with
one. -/
theorem exists_closes_append (l : List α) : ∃ l₀ x, l = l₀ ++ x ∧ Closes sep l₀ ∧ Solid sep x := by
  induction l using List.reverseRecOn with
  | nil => exact ⟨[], [], rfl, Or.inl rfl, by intro x hx; cases hx⟩
  | append_singleton t a ih =>
      by_cases ha : sep a = true
      · exact ⟨t ++ [a], [], by simp, Or.inr ⟨t, a, rfl, ha⟩, by intro x hx; cases hx⟩
      · obtain ⟨t₀, x, rfl, hc, hx⟩ := ih
        refine ⟨t₀, x ++ [a], by simp, hc, ?_⟩
        intro y hy
        rcases List.mem_append.mp hy with hy | hy
        · exact hx y hy
        · rw [List.mem_singleton] at hy
          simpa [hy] using ha

theorem exists_append_opens (r : List α) : ∃ y r₀, r = y ++ r₀ ∧ Solid sep y ∧ Opens sep r₀ :=
  ⟨_, _, List.takeWhile_append_dropWhile.symm, solid_takeWhile r, opens_dropWhile r⟩

/-- The runs of a stretch without a separator: none if it is empty, else the stretch. -/
theorem runs_of_solid {w : List α} (h : Solid sep w) :
    runs sep w = if w = [] then [] else [w] := by
  split
  · rename_i hw
    rw [hw, runs_nil]
  · rename_i hw
    exact runs_solid h hw

/-- An element that is not a separator joins the stretches on its two sides to one run. -/
theorem runs_joined {l₀ x y r₀ : List α} {a : α} (ha : sep a = false) (hl : Closes sep l₀)
    (hx : Solid sep x) (hy : Solid sep y) (hr : Opens sep r₀) :
    runs sep (l₀ ++ x ++ a :: (y ++ r₀)) = runs sep l₀ ++ (x ++ a :: y) :: runs sep r₀ := by
  have hsolid : Solid sep (x ++ a :: y) := by
    intro b hb
    rcases List.mem_append.mp hb with hb | hb
    · exact hx b hb
    · rcases List.mem_cons.mp hb with rfl | hb
      · exact ha
      · exact hy b hb
  have hcut : l₀ ++ x ++ a :: (y ++ r₀) = l₀ ++ ((x ++ a :: y) ++ r₀) := by simp
  rw [hcut, runs_closes_append hl, runs_append_opens _ hr, runs_solid hsolid (by simp)]
  rfl

end Runs
