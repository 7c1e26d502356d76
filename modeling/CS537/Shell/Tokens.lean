import CS537.Shell.Preprocess

/-!
# Shell — the tokens of a line

The scan keeps the bytes of a line but for tabs and the newline at its end, so the pieces
`strtok` cuts are the runs of bytes that are not blank; they fill the front of the array.
With one `>` in the line, one of the pieces has it, and how the loop over the pieces ends
depends on what stands before and after it in that piece.
-/

namespace CS537.Shell

open Runs

/-! ## The scan -/

/-- Space, tab and newline. -/
def blank (b : UInt8) : Bool := b = space || b = tab || b = newline

/-- The longest stretches of a line without a blank. -/
noncomputable def tokens (line : List UInt8) : List (List UInt8) := runs blank line

/-- A newline stands at most at the end. -/
def IsLine (command : CString) : Prop := newline ∉ command.bytes.dropLast

/-- What the scan makes of a byte. -/
def rewrite (b : UInt8) : UInt8 := if b = tab then space else if b = newline then 0 else b

/-- A byte that is no `>` leaves the flags. -/
theorem scan_flags {b : UInt8} (hb : b ≠ gt) (bs : List UInt8) :
    (scan (b :: bs)).isRedir = (scan bs).isRedir ∧
      (scan (b :: bs)).misformatted = (scan bs).misformatted := by
  rw [scan, if_neg hb]
  split
  · exact ⟨rfl, rfl⟩
  · split
    · exact ⟨rfl, rfl⟩
    · split
      · exact ⟨rfl, rfl⟩
      · exact ⟨rfl, rfl⟩

/-- `isRedir` is set at the first `>` the scan meets, and the second ends it. -/
theorem scan_count (bs : List UInt8) :
    ((scan bs).isRedir = true ↔ 1 ≤ bs.count gt) ∧
      ((scan bs).misformatted = true ↔ 2 ≤ bs.count gt) := by
  induction bs with
  | nil => simp [scan]
  | cons b bs ih =>
      obtain ⟨hr, hm⟩ := ih
      by_cases hb : b = gt
      · subst hb
        rw [List.count_cons_self, scan]
        by_cases h2 : (scan bs).misformatted = true
        · have hcount := hm.mp h2
          rw [if_pos h2]
          exact ⟨iff_of_true (hr.mpr (by omega)) (by omega), iff_of_true h2 (by omega)⟩
        · rw [if_neg h2, if_pos rfl]
          by_cases h1 : (scan bs).isRedir = true
          · have hcount := hr.mp h1
            rw [if_pos h1]
            exact ⟨iff_of_true h1 (by omega), iff_of_true rfl (by omega)⟩
          · rw [hr] at h1
            rw [if_neg (by rwa [hr])]
            exact ⟨iff_of_true rfl (by omega), iff_of_false h2 (by omega)⟩
      · rw [List.count_cons_of_ne hb, (scan_flags hb bs).1, (scan_flags hb bs).2]
        exact ⟨hr, hm⟩

theorem scan_command {bs : List UInt8} (h : (scan bs).misformatted = false) :
    (scan bs).command = bs.map rewrite := by
  induction bs with
  | nil => rfl
  | cons b bs ih =>
      rw [scan] at h ⊢
      by_cases hm : (scan bs).misformatted = true
      · rw [if_pos hm] at h
        simp [hm] at h
      · rw [if_neg hm] at h ⊢
        have ih' := ih (by simpa using hm)
        rw [List.map_cons, ← ih', rewrite]
        by_cases hb : b = gt
        · rw [if_pos hb] at h ⊢
          have htab : ¬ b = tab := by rw [hb]; decide
          have hnew : ¬ b = newline := by rw [hb]; decide
          rw [if_neg htab, if_neg hnew]
          split
          · rfl
          · rfl
        · rw [if_neg hb]
          split
          · rfl
          · split
            · rfl
            · rfl

/-! ## The pieces -/

/-- The pieces `strtok` cuts the buffer into. -/
def pieces (command : List UInt8) : List CString :=
  CString.strtokAll space (CString.ofBuffer command).bytes.length (CString.ofBuffer command)

/-- A line without the newline at its end. -/
theorem IsLine.body {c : CString} (h : IsLine c) :
    ∃ body, newline ∉ body ∧ (c.bytes = body ∨ c.bytes = body ++ [newline]) := by
  rw [IsLine] at h
  rcases List.eq_nil_or_concat' c.bytes with hc | ⟨t, a, hc⟩
  · exact ⟨[], by simp, Or.inl hc⟩
  · rw [hc, List.dropLast_concat] at h
    by_cases ha : a = newline
    · exact ⟨t, h, Or.inr (by rw [hc, ha])⟩
    · refine ⟨t ++ [a], ?_, Or.inl hc⟩
      rw [List.mem_append, not_or]
      exact ⟨h, by simpa using Ne.symm ha⟩

theorem rewrite_ne_zero {b : UInt8} (hb : b ≠ newline) (h0 : b ≠ 0) : rewrite b ≠ 0 := by
  rw [rewrite]
  split
  · decide
  · exact h0

/-- The buffer after the scan, up to the end of the string. -/
theorem ofBuffer_rewrite {c : CString} {body : List UInt8} (hbody : newline ∉ body)
    (hc : c.bytes = body ∨ c.bytes = body ++ [newline]) :
    (CString.ofBuffer (c.bytes.map rewrite)).bytes = body.map rewrite := by
  have h0 : 0 ∉ body := by
    intro hm
    rcases hc with hc | hc
    · exact c.noNul (hc ▸ hm)
    · exact c.noNul (hc ▸ List.mem_append_left _ hm)
  have hno : 0 ∉ body.map rewrite := by
    intro hm
    obtain ⟨b, hb, hz⟩ := List.mem_map.mp hm
    exact rewrite_ne_zero (ne_of_mem_of_not_mem hb hbody) (ne_of_mem_of_not_mem hb h0) hz
  rcases hc with hc | hc
  · rw [hc, CString.ofBuffer_bytes hno]
  · have htail : [newline].map rewrite = [0] := by decide
    rw [hc, List.map_append, htail, CString.ofBuffer_terminated hno]

/-- The pieces are the tokens. -/
theorem pieces_bytes {c : CString} (hline : IsLine c) (h : (scan c.bytes).misformatted = false) :
    (pieces (scan c.bytes).command).map CString.bytes = tokens c.bytes := by
  obtain ⟨body, hbody, hc⟩ := hline.body
  rw [pieces, scan_command h, CString.strtokAll_bytes le_rfl, ofBuffer_rewrite hbody hc, tokens]
  have hmap : runs (· == space) (body.map rewrite) = runs blank body := by
    apply runs_map
    · intro b hb
      have hne : b ≠ newline := ne_of_mem_of_not_mem hb hbody
      rw [rewrite, blank]
      by_cases ht : b = tab
      · simp [ht, space, tab]
      · rw [Bool.eq_iff_iff]
        simp [ht, hne]
    · intro b _ hnb
      simp only [blank, Bool.or_eq_false_iff, decide_eq_false_iff_not] at hnb
      rw [rewrite, if_neg hnb.1.2, if_neg hnb.2]
  rw [hmap]
  rcases hc with hc | hc
  · rw [hc]
  · rw [hc, runs_concat_sep (by decide)]

/-- The token with the `>` stands in one place. -/
theorem split_unique {A A' B B' : List (List UInt8)} {w w' : List UInt8} (hA : ∀ u ∈ A, gt ∉ u)
    (hB : ∀ u ∈ B, gt ∉ u) (hw' : gt ∈ w') (h : A ++ w :: B = A' ++ w' :: B') :
    A' = A ∧ w' = w ∧ B' = B := by
  rcases List.append_eq_append_iff.mp h with ⟨as, rfl, hrest⟩ | ⟨as, rfl, hrest⟩
  · cases as with
    | nil =>
        cases hrest
        exact ⟨List.append_nil A, rfl, rfl⟩
    | cons a as =>
        rw [List.cons_append, List.cons.injEq] at hrest
        exact absurd hw' (hB w' (hrest.2 ▸ List.mem_append_right as List.mem_cons_self))
  · cases as with
    | nil =>
        cases hrest
        exact ⟨(List.append_nil A').symm, rfl, rfl⟩
    | cons a as =>
        rw [List.cons_append, List.cons.injEq] at hrest
        exact absurd hw' (hA w' (hrest.1 ▸ List.mem_append_right A' List.mem_cons_self))

/-! ## The array -/

/-- The array with these tokens at its front. -/
def argvOf (ts : List CString) : List (Option CString) :=
  ts.map some ++ List.replicate (100 - ts.length) none

theorem argvOf_length {ts : List CString} (h : ts.length ≤ 100) : (argvOf ts).length = 100 := by
  simp only [argvOf, List.length_append, List.length_map, List.length_replicate]
  omega

theorem argvOf_getD (ts : List CString) (i : Nat) : (argvOf ts).getD i none = ts[i]? := by
  rw [argvOf, List.getD]
  by_cases hi : i < ts.length
  · rw [List.getElem?_append_left (by simpa using hi), List.getElem?_map,
      List.getElem?_eq_getElem hi]
    rfl
  · rw [List.getElem?_append_right (by simpa using hi), List.getElem?_replicate,
      @List.getElem?_eq_none _ ts i (by omega)]
    split <;> rfl

/-- Setting an entry at the front of the array. -/
theorem argvOf_set {xs ys : List CString} {t u : CString} {i : Nat} (hi : i = xs.length) :
    (argvOf (xs ++ t :: ys)).set i (some u) = argvOf (xs ++ u :: ys) := by
  subst hi
  rw [argvOf, argvOf, List.set_append_left _ _ (by simp)]
  simp [List.map_append, List.set_append_right]

theorem storePieces_spec : ∀ (ps xs : List CString) (k : Nat),
    storePieces ps xs.length (xs.map some ++ List.replicate k none) =
      if ps.length ≤ k then
        some ((xs ++ ps).map some ++ List.replicate (k - ps.length) none, xs.length + ps.length)
      else none
  | [], xs, k => by simp [storePieces]
  | p :: ps, xs, 0 => by simp [storePieces]
  | p :: ps, xs, k + 1 => by
      have ih := storePieces_spec ps (xs ++ [p]) k
      have hset : (xs.map some ++ List.replicate (k + 1) none).set xs.length (some p) =
          (xs ++ [p]).map some ++ List.replicate k none := by
        simp [List.set_append_right, List.replicate_succ]
      rw [storePieces, if_pos (by simp), hset]
      rw [List.length_append, List.length_singleton] at ih
      rw [ih]
      simp only [List.length_cons, Nat.add_le_add_iff_right, Nat.add_sub_add_right,
        List.append_assoc, List.singleton_append, Nat.add_assoc, Nat.add_comm 1]

/-- Up to a hundred pieces fit. -/
theorem storePieces_newArgv (ts : List CString) :
    storePieces ts 0 newArgv = if ts.length ≤ 100 then some (argvOf ts, ts.length) else none := by
  have h := storePieces_spec ts [] 100
  simpa [argvOf, newArgv] using h

end CS537.Shell
