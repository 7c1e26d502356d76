import Mathlib.Data.List.Basic
import Mathlib.Data.List.TakeWhile
import Mathlib.Data.List.Induction

/-!
# Reading a stream with `fgets`

`fgets` with a buffer of `size` bytes reads up to `size - 1` bytes and stops after a newline.
The chunks it cuts a stream into are the chunks of its lines: a line that fits is one chunk,
a longer one is cut into full chunks and a rest. `nl` is the newline.
-/

namespace Fgets

variable {α : Type*} [DecidableEq α] (nl : α)

/-- Up to `n` elements, up to the first newline. -/
def takeLine : Nat → List α → List α
  | 0, _ => []
  | _ + 1, [] => []
  | n + 1, b :: bs => if b = nl then [b] else b :: takeLine n bs

/-- What one call reads and what it leaves. -/
def fgets (size : Nat) (stream : List α) : Option (List α × List α) :=
  match stream with
  | [] => none
  | b :: bs =>
      let chunk := takeLine nl (size - 1) (b :: bs)
      some (chunk, (b :: bs).drop chunk.length)

/-- The chunks of successive calls, with their offsets. -/
def chunks (size : Nat) : Nat → Nat → List α → List (Nat × List α)
  | 0, _, _ => []
  | fuel + 1, off, stream =>
      match fgets nl size stream with
      | none => []
      | some (chunk, rest) => (off, chunk) :: chunks size fuel (off + chunk.length) rest

/-- The lines of a stream, each with its newline. -/
def lines : List α → List (List α)
  | [] => []
  | b :: bs =>
      if b = nl then [b] :: lines bs
      else
        match lines bs with
        | [] => [[b]]
        | l :: ls => (b :: l) :: ls

/-- The lines with their offsets. -/
def linesFrom (off : Nat) : List (List α) → List (Nat × List α)
  | [] => []
  | l :: ls => (off, l) :: linesFrom (off + l.length) ls

variable {nl}

/-- A line: at least one element, and a newline at most at the end. -/
def IsLine (nl : α) (l : List α) : Prop := l ≠ [] ∧ nl ∉ l.dropLast

/-- A line that ends. -/
def Ends (nl : α) (l : List α) : Prop := l.getLast? = some nl

theorem takeLine_length_le : ∀ (n : Nat) (s : List α), (takeLine nl n s).length ≤ n
  | 0, _ => by simp [takeLine]
  | n + 1, [] => by simp [takeLine]
  | n + 1, b :: bs => by
      rw [takeLine]
      split
      · simp
      · have := takeLine_length_le n bs
        simpa using this

/-- A stretch without a newline is read whole if it fits. -/
theorem takeLine_append {w : List α} (hw : nl ∉ w) : ∀ {n : Nat} (s : List α), w.length ≤ n →
    takeLine nl n (w ++ s) = w ++ takeLine nl (n - w.length) s := by
  induction w with
  | nil =>
      intro n s _
      simp
  | cons b w ih =>
      intro n s hn
      obtain ⟨n, rfl⟩ : ∃ k, n = k + 1 := ⟨n - 1, by simp at hn; omega⟩
      rw [List.cons_append, takeLine, if_neg (Ne.symm (List.ne_of_not_mem_cons hw)),
        ih (List.not_mem_of_not_mem_cons hw) s (by simpa using hn)]
      simp

/-- A line that fits is read whole, up to its end or the end of the stream. -/
theorem takeLine_line {l : List α} (hl : IsLine nl l) {n : Nat} (hn : l.length ≤ n) {s : List α}
    (hs : Ends nl l ∨ s = []) : takeLine nl n (l ++ s) = l := by
  obtain ⟨hne, hno⟩ := hl
  obtain ⟨w, b, rfl⟩ := (List.eq_nil_or_concat' l).resolve_left hne
  rw [List.dropLast_concat] at hno
  rw [List.length_append, List.length_singleton] at hn
  rw [List.append_assoc, takeLine_append hno _ (by omega)]
  obtain ⟨k, hk⟩ : ∃ k, n - w.length = k + 1 := ⟨n - w.length - 1, by omega⟩
  rw [hk, List.singleton_append, takeLine]
  by_cases hb : b = nl
  · rw [if_pos hb]
  · rw [if_neg hb]
    rcases hs with hs | rfl
    · rw [Ends, List.getLast?_concat] at hs
      exact absurd (Option.some.inj hs) hb
    · cases k <;> rfl

/-- A line that does not fit is read as far as it does. -/
theorem takeLine_long {l : List α} (hl : IsLine nl l) {n : Nat} (hn : n < l.length) (s : List α) :
    takeLine nl n (l ++ s) = l.take n := by
  have hno : nl ∉ l.take n := by
    intro hm
    apply hl.2
    rw [List.dropLast_eq_take]
    exact (List.take_subset_take_left l (by omega)) hm
  have hlen : (l.take n).length = n := by
    rw [List.length_take]
    omega
  have hsplit : l ++ s = l.take n ++ (l.drop n ++ s) := by
    rw [← List.append_assoc, List.take_append_drop]
  rw [hsplit, takeLine_append hno _ (by omega), hlen, Nat.sub_self, takeLine, List.append_nil]

/-- A newline ends what is read. -/
theorem takeLine_dropLast : ∀ (n : Nat) (s : List α), nl ∉ (takeLine nl n s).dropLast
  | 0, _ => by simp [takeLine]
  | n + 1, [] => by simp [takeLine]
  | n + 1, b :: bs => by
      rw [takeLine]
      split
      · simp
      · rename_i hb
        cases hrest : takeLine nl n bs with
        | nil => simp
        | cons a as =>
            rw [List.dropLast_cons_of_ne_nil (by simp), ← hrest, List.mem_cons, not_or]
            exact ⟨Ne.symm hb, takeLine_dropLast n bs⟩

/-! ## The chunks of a stream -/

variable {size : Nat}

/-- A chunk fits the buffer, and has a newline at most at its end. -/
theorem mem_chunks {c : Nat × List α} : ∀ {fuel off : Nat} {s : List α},
    c ∈ chunks nl size fuel off s → c.2.length ≤ size - 1 ∧ nl ∉ c.2.dropLast
  | 0, _, _, h => by cases h
  | fuel + 1, off, [], h => by cases h
  | fuel + 1, off, b :: bs, h => by
      rw [chunks, fgets] at h
      rcases List.mem_cons.mp h with rfl | h
      · exact ⟨takeLine_length_le _ _, takeLine_dropLast _ _⟩
      · exact mem_chunks h

theorem chunks_nil (fuel off : Nat) : chunks nl size fuel off [] = [] := by
  cases fuel <;> rfl

theorem fgets_ne_nil {s : List α} (hs : s ≠ []) :
    fgets nl size s =
      some (takeLine nl (size - 1) s, s.drop (takeLine nl (size - 1) s).length) := by
  cases s with
  | nil => exact absurd rfl hs
  | cons b bs => rfl

theorem takeLine_pos {n : Nat} (hn : 0 < n) {s : List α} (hs : s ≠ []) :
    0 < (takeLine nl n s).length := by
  cases s with
  | nil => exact absurd rfl hs
  | cons b bs =>
      obtain ⟨n, rfl⟩ : ∃ k, n = k + 1 := ⟨n - 1, by omega⟩
      rw [takeLine]
      split
      · simp
      · simp

/-- With a buffer of two bytes at least, as many calls as there are bytes read them all. -/
theorem chunks_fuel (hsize : 2 ≤ size) : ∀ {fuel fuel' off : Nat} {s : List α},
    s.length ≤ fuel → s.length ≤ fuel' → chunks nl size fuel off s = chunks nl size fuel' off s
  | fuel, fuel', off, [], _, _ => by rw [chunks_nil, chunks_nil]
  | 0, _, _, _ :: _, h, _ => by simp at h
  | _, 0, _, _ :: _, _, h => by simp at h
  | fuel + 1, fuel' + 1, off, b :: bs, h, h' => by
      have hpos := @takeLine_pos _ _ nl (size - 1) (by omega) (b :: bs) (by simp)
      rw [chunks, chunks, fgets_ne_nil (by simp)]
      simp only [List.cons.injEq, true_and]
      apply chunks_fuel hsize
      · rw [List.length_drop]
        omega
      · rw [List.length_drop]
        omega

omit [DecidableEq α] in
/-- What is left of a line that does not fit is a line. -/
theorem IsLine.drop {l : List α} (hl : IsLine nl l) {n : Nat} (hn : n < l.length) :
    IsLine nl (l.drop n) := by
  obtain ⟨hne, hno⟩ := hl
  obtain ⟨w, b, rfl⟩ := (List.eq_nil_or_concat' l).resolve_left hne
  rw [List.length_append, List.length_singleton] at hn
  rw [List.dropLast_concat] at hno
  rw [IsLine, List.drop_append_of_le_length (by omega), List.dropLast_concat]
  exact ⟨by simp, fun hm => hno (List.drop_subset _ _ hm)⟩

omit [DecidableEq α] in
theorem Ends.drop {l : List α} (hl : Ends nl l) {n : Nat} (hn : n < l.length) :
    Ends nl (l.drop n) := by
  rw [Ends] at hl ⊢
  rw [List.getLast?_drop, if_neg (by omega), hl]

/-- A line that fits is a chunk. -/
theorem chunks_short (hsize : 2 ≤ size) {l : List α} (hl : IsLine nl l) (hfit : l.length ≤ size - 1)
    {s : List α} (hs : Ends nl l ∨ s = []) {fuel : Nat} (hfuel : (l ++ s).length ≤ fuel) (off : Nat) :
    chunks nl size fuel off (l ++ s) = (off, l) :: chunks nl size fuel (off + l.length) s := by
  have hpos := List.length_pos_of_ne_nil hl.1
  rw [List.length_append] at hfuel
  obtain ⟨fuel, rfl⟩ : ∃ f, fuel = f + 1 := ⟨fuel - 1, by omega⟩
  rw [chunks, fgets_ne_nil (by simp [hl.1]), takeLine_line hl hfit hs]
  simp only [List.drop_left', List.cons.injEq, true_and]
  exact chunks_fuel hsize (by omega) (by omega)

/-- A line that does not fit begins with a full chunk. -/
theorem chunks_long (hsize : 2 ≤ size) {l : List α} (hl : IsLine nl l) (hlong : size - 1 < l.length)
    (s : List α) {fuel : Nat} (hfuel : (l ++ s).length ≤ fuel) (off : Nat) :
    chunks nl size fuel off (l ++ s) =
      (off, l.take (size - 1)) ::
        chunks nl size fuel (off + (size - 1)) (l.drop (size - 1) ++ s) := by
  have hlen : (l.take (size - 1)).length = size - 1 := by
    rw [List.length_take]
    omega
  have hdlen : (l.drop (size - 1)).length = l.length - (size - 1) := List.length_drop
  rw [List.length_append] at hfuel
  obtain ⟨fuel, rfl⟩ : ∃ f, fuel = f + 1 := ⟨fuel - 1, by omega⟩
  rw [chunks, fgets_ne_nil (by simp [hl.1]), takeLine_long hl hlong s]
  simp only [hlen, List.cons.injEq, true_and]
  rw [List.drop_append_of_le_length (by omega)]
  apply chunks_fuel hsize
  · rw [List.length_append]
    omega
  · rw [List.length_append]
    omega

/-- The chunks of a line alone. -/
def lineChunks (nl : α) (size : Nat) (off : Nat) (l : List α) : List (Nat × List α) :=
  chunks nl size l.length off l

theorem lineChunks_short (hsize : 2 ≤ size) {l : List α} (hl : IsLine nl l)
    (hfit : l.length ≤ size - 1) (off : Nat) : lineChunks nl size off l = [(off, l)] := by
  have h := @chunks_short _ _ nl size hsize l hl hfit [] (Or.inr rfl) l.length (by simp) off
  rwa [List.append_nil, chunks_nil] at h

theorem lineChunks_long (hsize : 2 ≤ size) {l : List α} (hl : IsLine nl l)
    (hlong : size - 1 < l.length) (off : Nat) :
    lineChunks nl size off l =
      (off, l.take (size - 1)) :: lineChunks nl size (off + (size - 1)) (l.drop (size - 1)) := by
  have h := @chunks_long _ _ nl size hsize l hl hlong [] l.length (by simp) off
  rw [List.append_nil, List.append_nil] at h
  rw [lineChunks, h, lineChunks]
  congr 1
  exact chunks_fuel hsize (by rw [List.length_drop]; omega) le_rfl

/-- A line is cut into chunks of its own. -/
theorem chunks_line_append (hsize : 2 ≤ size) {l : List α} (hl : IsLine nl l) {s : List α}
    (hs : Ends nl l ∨ s = []) {fuel : Nat} (hfuel : (l ++ s).length ≤ fuel) (off : Nat) :
    chunks nl size fuel off (l ++ s) =
      lineChunks nl size off l ++ chunks nl size fuel (off + l.length) s := by
  induction hn : l.length using Nat.strong_induction_on generalizing l off with
  | _ n ih =>
      subst hn
      by_cases hfit : l.length ≤ size - 1
      · rw [chunks_short hsize hl hfit hs hfuel, lineChunks_short hsize hl hfit]
        rfl
      · have hlong : size - 1 < l.length := by omega
        have hdlen : (l.drop (size - 1)).length = l.length - (size - 1) := List.length_drop
        rw [List.length_append] at hfuel
        have hrest := ih (l.drop (size - 1)).length (by omega) (hl.drop hlong)
          (hs.imp_left fun he => he.drop hlong) (by rw [List.length_append, hdlen]; omega)
          (off + (size - 1)) rfl
        rw [chunks_long hsize hl hlong s (by rw [List.length_append]; exact hfuel),
          lineChunks_long hsize hl hlong, hrest, hdlen,
          show off + (size - 1) + (l.length - (size - 1)) = off + l.length by omega]
        rfl

/-- The chunks of a line make up the line. -/
theorem lineChunks_flatten (hsize : 2 ≤ size) {l : List α} (hl : IsLine nl l) (off : Nat) :
    ((lineChunks nl size off l).map Prod.snd).flatten = l := by
  induction hn : l.length using Nat.strong_induction_on generalizing l off with
  | _ n ih =>
      subst hn
      by_cases hfit : l.length ≤ size - 1
      · rw [lineChunks_short hsize hl hfit]
        simp
      · have hlong : size - 1 < l.length := by omega
        have hrest := ih (l.drop (size - 1)).length (by rw [List.length_drop]; omega)
          (hl.drop hlong) (off + (size - 1)) rfl
        rw [lineChunks_long hsize hl hlong, List.map_cons, List.flatten_cons, hrest,
          List.take_append_drop]

/-- Where the chunks of a line are, and how long. -/
theorem mem_lineChunks (hsize : 2 ≤ size) {l : List α} (hl : IsLine nl l) {off : Nat}
    {c : Nat × List α} (hc : c ∈ lineChunks nl size off l) :
    off ≤ c.1 ∧ c.1 < off + l.length ∧ c.2.length ≤ size - 1 := by
  induction hn : l.length using Nat.strong_induction_on generalizing l off with
  | _ n ih =>
      subst hn
      have hpos := List.length_pos_of_ne_nil hl.1
      by_cases hfit : l.length ≤ size - 1
      · rw [lineChunks_short hsize hl hfit, List.mem_singleton] at hc
        subst hc
        exact ⟨le_rfl, by omega, hfit⟩
      · have hlong : size - 1 < l.length := by omega
        have hdlen : (l.drop (size - 1)).length = l.length - (size - 1) := List.length_drop
        rw [lineChunks_long hsize hl hlong] at hc
        rcases List.mem_cons.mp hc with rfl | hc
        · refine ⟨le_rfl, by omega, ?_⟩
          rw [List.length_take]
          omega
        · obtain ⟨h1, h2, h3⟩ := ih _ (by omega) (hl.drop hlong) hc rfl
          exact ⟨by omega, by omega, h3⟩

/-- The chunks of a line are all full if the length of a full chunk divides the line's. -/
theorem lineChunks_full (hsize : 2 ≤ size) {l : List α} (hl : IsLine nl l) (off : Nat) :
    (∀ c ∈ lineChunks nl size off l, c.2.length = size - 1) ↔ size - 1 ∣ l.length := by
  induction hn : l.length using Nat.strong_induction_on generalizing l off with
  | _ n ih =>
      subst hn
      have hpos := List.length_pos_of_ne_nil hl.1
      by_cases hfit : l.length ≤ size - 1
      · rw [lineChunks_short hsize hl hfit]
        simp only [List.mem_singleton, forall_eq]
        constructor
        · intro h
          exact ⟨1, by rw [h, Nat.mul_one]⟩
        · intro h
          exact le_antisymm hfit (Nat.le_of_dvd hpos h)
      · have hlong : size - 1 < l.length := by omega
        have hdlen : (l.drop (size - 1)).length = l.length - (size - 1) := List.length_drop
        have hrest := ih _ (by omega) (hl.drop hlong) (off + (size - 1)) rfl
        have htake : (l.take (size - 1)).length = size - 1 := by
          rw [List.length_take]
          omega
        rw [lineChunks_long hsize hl hlong]
        simp only [List.mem_cons, forall_eq_or_imp, htake, true_and]
        rw [hrest, hdlen]
        exact Nat.dvd_sub_iff_left (by omega) (Nat.dvd_refl _)

/-! ## The lines of a stream -/

/-- A stream is its lines one after the other; all are lines, and all but the last end. -/
theorem lines_spec (s : List α) :
    (lines nl s).flatten = s ∧ (∀ l ∈ lines nl s, IsLine nl l) ∧
      ∀ xs l ys, lines nl s = xs ++ l :: ys → Ends nl l ∨ ys = [] := by
  induction s with
  | nil =>
      refine ⟨rfl, by simp [lines], ?_⟩
      intro xs l ys h
      simp [lines] at h
  | cons b bs ih =>
      obtain ⟨hflat, hline, hends⟩ := ih
      rw [lines]
      by_cases hb : b = nl
      · rw [if_pos hb]
        refine ⟨by simp [hflat], ?_, ?_⟩
        · intro l hl
          rcases List.mem_cons.mp hl with rfl | hl
          · exact ⟨by simp, by simp⟩
          · exact hline l hl
        · intro xs l ys h
          cases xs with
          | nil =>
              cases h
              exact Or.inl (by simp [Ends, hb])
          | cons x xs =>
              rw [List.cons_append, List.cons.injEq] at h
              exact hends xs l ys h.2
      · rw [if_neg hb]
        cases hls : lines nl bs with
        | nil =>
            rw [hls] at hflat
            refine ⟨by simp [← hflat], ?_, ?_⟩
            · intro l hl
              rw [List.mem_singleton] at hl
              subst hl
              exact ⟨by simp, by simp⟩
            · intro xs l ys h
              cases xs with
              | nil =>
                  cases h
                  exact Or.inr rfl
              | cons x xs => simp at h
        | cons l₀ ls =>
            rw [hls] at hflat hline hends
            have hl₀ := hline l₀ List.mem_cons_self
            refine ⟨by simp [← hflat], ?_, ?_⟩
            · intro l hl
              rcases List.mem_cons.mp hl with rfl | hl
              · refine ⟨by simp, ?_⟩
                rw [List.dropLast_cons_of_ne_nil hl₀.1, List.mem_cons, not_or]
                exact ⟨Ne.symm hb, hl₀.2⟩
              · exact hline l (List.mem_cons_of_mem l₀ hl)
            · intro xs l ys h
              cases xs with
              | nil =>
                  cases h
                  refine (hends [] l₀ ls rfl).imp_left fun he => ?_
                  rw [Ends] at he ⊢
                  rw [List.getLast?_cons_of_ne_nil hl₀.1, he]
              | cons x xs =>
                  rw [List.cons_append, List.cons.injEq] at h
                  exact hends (l₀ :: xs) l ys (by rw [h.2]; rfl)

/-- The chunks of a stream are the chunks of its lines. -/
theorem chunks_lines (hsize : 2 ≤ size) : ∀ (ls : List (List α)) (off fuel : Nat),
    (∀ l ∈ ls, IsLine nl l) → (∀ xs l ys, ls = xs ++ l :: ys → Ends nl l ∨ ys = []) →
    ls.flatten.length ≤ fuel →
    chunks nl size fuel off ls.flatten =
      (linesFrom off ls).flatMap fun l => lineChunks nl size l.1 l.2
  | [], off, fuel, _, _, _ => chunks_nil fuel off
  | l :: ls, off, fuel, hline, hends, hfuel => by
      have hlast : Ends nl l ∨ ls.flatten = [] :=
        (hends [] l ls rfl).imp_right fun h => by rw [h]; rfl
      have hrest := chunks_lines hsize ls (off + l.length) fuel
        (fun x hx => hline x (List.mem_cons_of_mem l hx))
        (fun xs x ys h => hends (l :: xs) x ys (by rw [h]; rfl))
        (by rw [List.flatten_cons, List.length_append] at hfuel; omega)
      rw [List.flatten_cons] at hfuel ⊢
      rw [chunks_line_append hsize (hline l List.mem_cons_self) hlast hfuel, hrest, linesFrom,
        List.flatMap_cons]

/-! ## The pieces without their offsets -/

/-- The chunks of a stream. -/
def pieces (nl : α) (size : Nat) (s : List α) : List (List α) :=
  (chunks nl size s.length 0 s).map Prod.snd

/-- The offset a reader starts from does not change what it reads. -/
theorem chunks_snd (off off' : Nat) : ∀ (fuel : Nat) (s : List α),
    (chunks nl size fuel off s).map Prod.snd = (chunks nl size fuel off' s).map Prod.snd := by
  intro fuel
  induction fuel generalizing off off' with
  | zero => intro s; rfl
  | succ fuel ih =>
      intro s
      cases s with
      | nil => rfl
      | cons b bs =>
          rw [chunks, chunks, fgets_ne_nil (by simp)]
          simp only [List.map_cons, List.cons.injEq, true_and]
          exact ih _ _ _

theorem lineChunks_snd (off : Nat) (l : List α) :
    (lineChunks nl size off l).map Prod.snd = pieces nl size l :=
  chunks_snd off 0 l.length l

omit [DecidableEq α] in
theorem mem_linesFrom {l : Nat × List α} : ∀ {off : Nat} {ls : List (List α)},
    l ∈ linesFrom off ls → l.2 ∈ ls
  | _, _ :: _, h => by
      rcases List.mem_cons.mp h with rfl | h
      · exact List.mem_cons_self
      · exact List.mem_cons_of_mem _ (mem_linesFrom h)

theorem flatMap_lineChunks (ls : List (List α)) : ∀ off,
    (((linesFrom off ls).flatMap fun l => lineChunks nl size l.1 l.2).map Prod.snd) =
      ls.flatMap (pieces nl size) := by
  induction ls with
  | nil => intro off; rfl
  | cons l ls ih =>
      intro off
      rw [linesFrom, List.flatMap_cons, List.map_append, lineChunks_snd, ih, List.flatMap_cons]

/-- All lines of the list but the last one end. -/
def EndedBefore (nl : α) (ls : List (List α)) : Prop := ls.Pairwise fun l _ => Ends nl l

omit [DecidableEq α] in
theorem EndedBefore.split {ls : List (List α)} (h : EndedBefore nl ls) (xs : List (List α))
    (l : List α) (ys : List (List α)) (hls : ls = xs ++ l :: ys) : Ends nl l ∨ ys = [] := by
  subst hls
  cases ys with
  | nil => exact Or.inr rfl
  | cons y ys =>
      have hl := (List.pairwise_cons.mp (List.pairwise_append.mp h).2.1).1
      exact Or.inl (hl y List.mem_cons_self)

omit [DecidableEq α] in
theorem EndedBefore.of_split : ∀ {ls : List (List α)},
    (∀ xs l ys, ls = xs ++ l :: ys → Ends nl l ∨ ys = []) → EndedBefore nl ls
  | [], _ => List.Pairwise.nil
  | l :: ls, h => by
      refine List.pairwise_cons.mpr ⟨?_, EndedBefore.of_split fun xs x ys hls => ?_⟩
      · intro y hy
        exact (h [] l ls rfl).resolve_right (List.ne_nil_of_mem hy)
      · exact h (l :: xs) x ys (by rw [hls]; rfl)

theorem lines_endedBefore (s : List α) : EndedBefore nl (lines nl s) :=
  .of_split (lines_spec s).2.2

/-- The pieces of lines one after the other are the pieces of each. -/
theorem pieces_flatten (hsize : 2 ≤ size) {ls : List (List α)} (hline : ∀ l ∈ ls, IsLine nl l)
    (hends : EndedBefore nl ls) : pieces nl size ls.flatten = ls.flatMap (pieces nl size) := by
  rw [pieces, chunks_lines hsize ls 0 _ hline hends.split le_rfl, flatMap_lineChunks]

theorem pieces_lines (hsize : 2 ≤ size) (s : List α) :
    pieces nl size s = (lines nl s).flatMap (pieces nl size) := by
  have hcut := @pieces_flatten _ _ nl _ hsize _ (lines_spec s).2.1 (lines_endedBefore s)
  rwa [(lines_spec s).1] at hcut

/-- A line that fits is its only piece. -/
theorem pieces_short (hsize : 2 ≤ size) {l : List α} (hl : IsLine nl l)
    (hfit : l.length ≤ size - 1) : pieces nl size l = [l] := by
  rw [← lineChunks_snd 0, lineChunks_short hsize hl hfit]
  rfl

/-- If every line fits, the pieces are the lines. -/
theorem pieces_eq_lines (hsize : 2 ≤ size) {s : List α}
    (hfit : ∀ l ∈ lines nl s, l.length ≤ size - 1) : pieces nl size s = lines nl s := by
  have hone : ∀ l ∈ lines nl s, pieces nl size l = [l] :=
    fun l hl => pieces_short hsize ((lines_spec s).2.1 l hl) (hfit l hl)
  rw [pieces_lines hsize, List.flatMap_congr hone]
  exact List.flatMap_singleton' _

theorem pieces_line_flatten (hsize : 2 ≤ size) {l : List α} (hl : IsLine nl l) :
    (pieces nl size l).flatten = l := by
  rw [← lineChunks_snd 0, lineChunks_flatten hsize hl]

/-- The pieces of lines make up the lines. -/
theorem flatten_flatMap_pieces (hsize : 2 ≤ size) {ls : List (List α)}
    (hline : ∀ l ∈ ls, IsLine nl l) : (ls.flatMap (pieces nl size)).flatten = ls.flatten := by
  rw [List.flatMap_def, List.flatten_flatten, List.map_map]
  congr 1
  refine (List.map_congr_left fun l hl => ?_).trans (List.map_id _)
  exact pieces_line_flatten hsize (hline l hl)

theorem flatten_pieces (hsize : 2 ≤ size) (s : List α) : (pieces nl size s).flatten = s := by
  obtain ⟨hflat, hline, _⟩ := @lines_spec _ _ nl s
  rw [pieces_lines hsize, flatten_flatMap_pieces hsize hline, hflat]

/-- What comes after the piece is not read with it. -/
def Closed (nl : α) (size : Nat) (c : List α) : Prop := c.length = size - 1 ∨ Ends nl c

theorem takeLine_append_drop : ∀ (n : Nat) (s : List α),
    takeLine nl n s ++ s.drop (takeLine nl n s).length = s
  | 0, _ => rfl
  | _ + 1, [] => rfl
  | n + 1, b :: bs => by
      rw [takeLine]
      split
      · rfl
      · rw [List.length_cons, List.drop_succ_cons, List.cons_append, takeLine_append_drop n bs]

theorem takeLine_closed : ∀ {n : Nat} {s : List α}, (takeLine nl n s).length < s.length →
    (takeLine nl n s).length = n ∨ Ends nl (takeLine nl n s)
  | 0, _, _ => Or.inl rfl
  | _ + 1, [], h => by simp [takeLine] at h
  | n + 1, b :: bs, h => by
      rw [takeLine] at h ⊢
      by_cases hb : b = nl
      · rw [if_pos hb, hb]
        exact Or.inr rfl
      · rw [if_neg hb] at h ⊢
        rcases takeLine_closed (Nat.lt_of_succ_lt_succ h) with hn | he
        · exact Or.inl (by rw [List.length_cons, hn])
        · refine Or.inr ?_
          rw [Ends] at he ⊢
          rw [List.getLast?_cons, he]
          rfl

/-- A piece with nothing but what is not read with it after it is read whole. -/
theorem takeLine_piece {c : List α} (hc : IsLine nl c) {n : Nat} (hn : c.length ≤ n) {s : List α}
    (hs : c.length = n ∨ Ends nl c ∨ s = []) : takeLine nl n (c ++ s) = c := by
  rcases hs with hfull | hs
  · by_cases hend : Ends nl c
    · exact takeLine_line hc hn (Or.inl hend)
    · have hno : nl ∉ c := by
        obtain ⟨w, b, rfl⟩ := (List.eq_nil_or_concat' c).resolve_left hc.1
        rw [Ends, List.getLast?_concat] at hend
        rw [List.mem_append, List.mem_singleton, not_or]
        exact ⟨by simpa using hc.2, fun h => hend (by rw [h])⟩
      rw [takeLine_append hno s hn, hfull, Nat.sub_self, takeLine, List.append_nil]
  · exact takeLine_line hc hn hs

theorem pieces_cons (hsize : 2 ≤ size) {c s : List α} (hne : c ≠ [])
    (hc : takeLine nl (size - 1) (c ++ s) = c) :
    pieces nl size (c ++ s) = c :: pieces nl size s := by
  have hpos := List.length_pos_of_ne_nil hne
  obtain ⟨k, hk⟩ : ∃ k, (c ++ s).length = k + 1 := by
    rw [List.length_append]
    exact ⟨c.length + s.length - 1, by omega⟩
  rw [pieces, hk, chunks, fgets_ne_nil (by simp [hne]), hc]
  simp only [List.drop_left', List.map_cons, List.cons.injEq, true_and]
  rw [chunks_fuel hsize (by rw [List.length_append] at hk; omega) le_rfl]
  exact chunks_snd _ 0 _ s

/-- The pieces of a stream are pieces, each read apart from what comes after it. -/
theorem pieces_spec (hsize : 2 ≤ size) (s : List α) :
    (∀ c ∈ pieces nl size s, IsLine nl c ∧ c.length ≤ size - 1) ∧
      (pieces nl size s).Pairwise fun c _ => Closed nl size c := by
  induction hn : s.length using Nat.strong_induction_on generalizing s with
  | _ n ih =>
      subst hn
      by_cases hs : s = []
      · subst hs
        exact ⟨fun c hc => absurd hc List.not_mem_nil, List.Pairwise.nil⟩
      · have hpos := @takeLine_pos _ _ nl (size - 1) (by omega) s hs
        have hne := List.ne_nil_of_length_pos hpos
        have hsplit := @takeLine_append_drop _ _ nl (size - 1) s
        have hcut := pieces_cons hsize hne (s := s.drop (takeLine nl (size - 1) s).length)
          (by rw [hsplit])
        rw [hsplit] at hcut
        have hlen := List.length_pos_of_ne_nil hs
        obtain ⟨hmem, hpair⟩ := ih (s.drop (takeLine nl (size - 1) s).length).length
          (by rw [List.length_drop]; omega) _ rfl
        rw [hcut]
        refine ⟨fun c hc => ?_, List.pairwise_cons.mpr ⟨fun c hc => ?_, hpair⟩⟩
        · rcases List.mem_cons.mp hc with rfl | hc
          · exact ⟨⟨hne, takeLine_dropLast _ _⟩, takeLine_length_le _ _⟩
          · exact hmem c hc
        · have hmore : s.drop (takeLine nl (size - 1) s).length ≠ [] := by
            intro hnil
            rw [hnil] at hc
            exact absurd hc List.not_mem_nil
          apply takeLine_closed
          rwa [ne_eq, List.drop_eq_nil_iff, not_le] at hmore

/-- Pieces one after the other are cut again where they were. -/
theorem pieces_recut (hsize : 2 ≤ size) : ∀ {cs : List (List α)},
    (∀ c ∈ cs, IsLine nl c ∧ c.length ≤ size - 1) → (cs.Pairwise fun c _ => Closed nl size c) →
    pieces nl size cs.flatten = cs
  | [], _, _ => rfl
  | c :: cs, hmem, hclosed => by
      obtain ⟨hline, hfit⟩ := hmem c List.mem_cons_self
      obtain ⟨hc, hcs⟩ := List.pairwise_cons.mp hclosed
      have hrest := pieces_recut hsize (fun x hx => hmem x (List.mem_cons_of_mem c hx)) hcs
      have hlast : c.length = size - 1 ∨ Ends nl c ∨ cs.flatten = [] := by
        cases cs with
        | nil => exact Or.inr (Or.inr rfl)
        | cons y ys => exact (hc y List.mem_cons_self).imp_right Or.inl
      rw [List.flatten_cons, pieces_cons hsize hline.1 (takeLine_piece hline hfit hlast), hrest]

/-! ## Keeping pieces and keeping lines -/

theorem filter_flatMap_sublist {β γ : Type*} (part : β → List γ) (keepPart : γ → Bool)
    (keep : β → Bool) : ∀ {ls : List β},
    (∀ l ∈ ls, keep l → (part l).filter keepPart = part l) →
    ((ls.filter keep).flatMap part).Sublist ((ls.flatMap part).filter keepPart)
  | [], _ => List.Sublist.refl []
  | l :: ls, h => by
      have hrest := filter_flatMap_sublist part keepPart keep
        fun x hx => h x (List.mem_cons_of_mem l hx)
      rw [List.flatMap_cons, List.filter_append]
      by_cases hk : keep l
      · rw [List.filter_cons_of_pos hk, List.flatMap_cons, h l List.mem_cons_self hk]
        exact hrest.append_left _
      · rw [List.filter_cons_of_neg hk]
        exact hrest.trans (List.sublist_append_right _ _)

/-- If the parts of what is kept are all kept, there is no room for any other part. -/
theorem keep_of_filter_flatMap {β γ : Type*} (part : β → List γ) (keepPart : γ → Bool)
    (keep : β → Bool) : ∀ {ls : List β},
    (∀ l ∈ ls, keep l → (part l).filter keepPart = part l) →
    (ls.flatMap part).filter keepPart = (ls.filter keep).flatMap part →
    ∀ l ∈ ls, ∀ p ∈ part l, keepPart p = keep l
  | [], _, _ => fun l hl => absurd hl List.not_mem_nil
  | l :: ls, hkept, h => by
      have hkept' : ∀ x ∈ ls, keep x → (part x).filter keepPart = part x :=
        fun x hx => hkept x (List.mem_cons_of_mem l hx)
      have hsub := (filter_flatMap_sublist part keepPart keep hkept').length_le
      rw [List.flatMap_cons, List.filter_append] at h
      by_cases hk : keep l
      · have hl := hkept l List.mem_cons_self hk
        rw [List.filter_cons_of_pos hk, List.flatMap_cons, hl] at h
        have hrest := keep_of_filter_flatMap part keepPart keep hkept' (List.append_cancel_left h)
        intro x hx p hp
        rcases List.mem_cons.mp hx with rfl | hx
        · rw [hk]
          exact List.filter_eq_self.mp hl p hp
        · exact hrest x hx p hp
      · rw [List.filter_cons_of_neg hk] at h
        have hlen := congrArg List.length h
        rw [List.length_append] at hlen
        have hnone : (part l).filter keepPart = [] := List.eq_nil_of_length_eq_zero (by omega)
        rw [hnone, List.nil_append] at h
        have hrest := keep_of_filter_flatMap part keepPart keep hkept' h
        intro x hx p hp
        rcases List.mem_cons.mp hx with rfl | hx
        · rw [Bool.eq_false_iff.mpr hk]
          exact Bool.eq_false_iff.mpr (List.filter_eq_nil_iff.mp hnone p hp)
        · exact hrest x hx p hp

/-- What is kept of the parts is the parts of what is kept just if each part is kept when the
whole is. -/
theorem filter_flatMap_iff {β γ : Type*} (part : β → List γ) (keepPart : γ → Bool)
    (keep : β → Bool) (ls : List β) :
    (ls.flatMap part).filter keepPart = (ls.filter keep).flatMap part ↔
      ∀ l ∈ ls, ∀ p ∈ part l, keepPart p = keep l := by
  constructor
  · intro h
    have hkept : ∀ l ∈ ls, keep l → (part l).filter keepPart = part l := by
      intro l hl hk
      apply List.filter_eq_self.mpr
      intro p hp
      have hmem : p ∈ (ls.filter keep).flatMap part :=
        List.mem_flatMap.mpr ⟨l, List.mem_filter.mpr ⟨hl, hk⟩, hp⟩
      rw [← h] at hmem
      exact (List.mem_filter.mp hmem).2
    exact keep_of_filter_flatMap part keepPart keep hkept h
  · intro h
    induction ls with
    | nil => rfl
    | cons l ls ih =>
        have hrest := ih fun x hx => h x (List.mem_cons_of_mem l hx)
        rw [List.flatMap_cons, List.filter_append, hrest]
        have hl := h l List.mem_cons_self
        by_cases hk : keep l
        · rw [List.filter_cons_of_pos hk, List.flatMap_cons]
          congr 1
          exact List.filter_eq_self.mpr fun p hp => (hl p hp).trans hk
        · rw [List.filter_cons_of_neg hk]
          have hnone : (part l).filter keepPart = [] :=
            List.filter_eq_nil_iff.mpr fun p hp => by rw [hl p hp]; exact hk
          rw [hnone, List.nil_append]

/-- **Keeping pieces is keeping lines**: the pieces that are kept make up the lines that are kept
just if each piece of a line is kept when the line is. -/
theorem kept_pieces_iff (hsize : 2 ≤ size) (keepPiece keepLine : List α → Bool) (s : List α) :
    ((pieces nl size s).filter keepPiece).flatten = ((lines nl s).filter keepLine).flatten ↔
      ∀ l ∈ lines nl s, ∀ p ∈ pieces nl size l, keepPiece p = keepLine l := by
  obtain ⟨hmem, hclosed⟩ := @pieces_spec _ _ nl _ hsize s
  have hpieces : pieces nl size ((pieces nl size s).filter keepPiece).flatten =
      (pieces nl size s).filter keepPiece :=
    pieces_recut hsize (fun c hc => hmem c (List.mem_of_mem_filter hc)) (hclosed.filter _)
  have hlines : ∀ l ∈ (lines nl s).filter keepLine, IsLine nl l :=
    fun l hl => (lines_spec s).2.1 l (List.mem_of_mem_filter hl)
  have hcut := pieces_flatten hsize hlines ((lines_endedBefore s).filter _)
  rw [← filter_flatMap_iff, ← pieces_lines hsize]
  constructor
  · intro h
    rw [← hpieces, h, hcut]
  · intro h
    rw [h, flatten_flatMap_pieces hsize hlines]

end Fgets
