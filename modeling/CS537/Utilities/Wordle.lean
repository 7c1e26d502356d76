import Mathlib.Algebra.Ring.Nat
import CS537.Utilities.Look

/-!
# Utilities — `wordle`

`main` of `P1: UNIX Utilities/wordle.c`. The test for five characters counts a newline, so the
last line of a file without one is taken for shorter than it is. `ptr` is not set before the loop
over the blacklist; to read it then is undefined.
-/

namespace CS537.Utilities.Wordle

open Fgets CString

/-- The loop over the blacklist, with the rest of `str` and `ptr`. -/
def blacklistLoop (input : CString) : List UInt8 → Option (Option Nat) → Option (Option Nat)
  | [], ptr => ptr
  | c :: str, _ =>
      let ptr := input.strchr c
      if ptr ≠ none then some ptr else blacklistLoop input str (some ptr)

/-- The body of the loop, with what `fgets` put in `input` and what is printed. -/
def round (str : CString) (printed chunk : List UInt8) : Option (List UInt8) :=
  let input := ofBuffer chunk
  -- `strlen` is unsigned: that of an empty string less one is not five
  if UInt64.ofNat input.bytes.length - 1 ≠ 5 then some printed
  else
    (blacklistLoop input str.bytes none).map fun ptr =>
      if ptr = none then printed ++ input.bytes else printed

/-- `main`, with `argv`. -/
def main (fopen : CString → Option (List UInt8)) : List CString → Option Exit
  | [_, filename, str] =>
      match fopen filename with
      | none => some { printed := text "wordle: cannot open file\n", status := 1 }
      | some fp =>
          ((pieces newline 260 fp).foldlM (round str) []).map fun printed =>
            { printed := printed, status := 0 }
  | _ => some { printed := text "wordle: invalid number of args\n", status := 1 }

/-! ## A round of the loop -/

/-- None of the characters is in the blacklist. -/
def Clean (str : CString) (l : List UInt8) : Prop := ∀ c ∈ l, c ∉ str.bytes

instance (str : CString) (l : List UInt8) : Decidable (Clean str l) :=
  inferInstanceAs (Decidable (∀ c ∈ l, _))

/-- The pointer is null after the loop just if no character of the blacklist is in the string:
the loop stops at the first one that is. -/
theorem blacklistLoop_spec (input : CString) : ∀ {str : List UInt8} (ptr : Option (Option Nat)),
    str ≠ [] → 0 ∉ str →
    ∃ p, blacklistLoop input str ptr = some p ∧ (p = none ↔ ∀ c ∈ str, c ∉ input.bytes)
  | [], _, hne, _ => absurd rfl hne
  | c :: str, _, _, hno => by
      have hc := strchr_eq_none (s := input) (Ne.symm (List.ne_of_not_mem_cons hno))
      rw [blacklistLoop]
      by_cases hfound : input.strchr c = none
      · rw [if_neg (by simpa using hfound)]
        cases str with
        | nil =>
            refine ⟨_, rfl, ?_⟩
            simpa using hc
        | cons d str =>
            obtain ⟨p, hp, hnone⟩ := blacklistLoop_spec input (some (input.strchr c))
              (List.cons_ne_nil d str) (List.not_mem_of_not_mem_cons hno)
            refine ⟨p, hp, hnone.trans ?_⟩
            rw [List.forall_mem_cons (a := c), and_iff_right (hc.mp hfound)]
      · rw [if_pos hfound]
        refine ⟨_, rfl, ?_⟩
        constructor
        · intro h
          exact absurd h hfound
        · intro h
          exact hc.mpr (h c List.mem_cons_self)

theorem strlen_test {n : Nat} (hn : n < 2 ^ 64) : UInt64.ofNat n - 1 = 5 ↔ n = 6 := by
  have hval : (UInt64.ofNat n).toNat = n := by
    rw [UInt64.toNat_ofNat', Nat.mod_eq_of_lt hn]
  constructor
  · intro h
    have h6 : UInt64.ofNat n = 6 := by
      rw [← UInt64.sub_add_cancel (UInt64.ofNat n) 1, h]
      rfl
    rw [← hval, h6]
    rfl
  · intro h
    rw [h]
    rfl

/-- The string in the buffer has six bytes, the newline counted, and none is in the blacklist. -/
def Passes (str : CString) (l : List UInt8) : Prop :=
  (ofBuffer l).bytes.length = 6 ∧ Clean str (ofBuffer l).bytes

instance (str : CString) (l : List UInt8) : Decidable (Passes str l) :=
  inferInstanceAs (Decidable (_ ∧ _))

theorem round_spec {str : CString} (hstr : str.bytes ≠ []) (printed : List UInt8)
    {chunk : List UInt8} (hfit : chunk.length ≤ 259) :
    round str printed chunk =
      some (printed ++ if Passes str chunk then (ofBuffer chunk).bytes else []) := by
  have hlen : (ofBuffer chunk).bytes.length ≤ chunk.length :=
    (List.takeWhile_sublist _).length_le
  have htest := strlen_test (n := (ofBuffer chunk).bytes.length) (by omega)
  rw [round]
  by_cases h6 : (ofBuffer chunk).bytes.length = 6
  · obtain ⟨p, hp, hnone⟩ := blacklistLoop_spec (ofBuffer chunk) none hstr str.noNul
    have hclean : p = none ↔ Passes str chunk := by
      rw [hnone, Passes, and_iff_right h6]
      exact ⟨fun h c hc hs => h c hs hc, fun h c hs hc => h c hc hs⟩
    rw [if_neg (by rw [not_not]; exact htest.mpr h6), hp]
    by_cases hpass : Passes str chunk
    · rw [Option.map_some, if_pos (hclean.mpr hpass), if_pos hpass]
    · rw [Option.map_some, if_neg (mt hclean.mp hpass), if_neg hpass, List.append_nil]
  · rw [if_pos (mt htest.mp h6), if_neg (fun h => h6 h.1), List.append_nil]

/-- What the program prints of a line. -/
def printedOf (str : CString) (l : List UInt8) : List UInt8 :=
  if Passes str l then (ofBuffer l).bytes else []

theorem rounds_spec {str : CString} (hstr : str.bytes ≠ []) : ∀ (cs : List (List UInt8))
    (printed : List UInt8), (∀ c ∈ cs, c.length ≤ 259) →
    cs.foldlM (round str) printed = some (printed ++ cs.flatMap (printedOf str))
  | [], printed, _ => by simp
  | c :: cs, printed, h => by
      rw [List.foldlM_cons, round_spec hstr printed (h c List.mem_cons_self)]
      refine (rounds_spec hstr cs _ fun x hx => h x (List.mem_cons_of_mem c hx)).trans ?_
      rw [List.flatMap_cons, List.append_assoc, printedOf]

/-! ## A whole file -/

/-- The line has five characters before its newline, and none of its characters is in the
blacklist. -/
def Wanted (str : CString) (l : List UInt8) : Prop := (content l).length = 5 ∧ Clean str l

instance (str : CString) (l : List UInt8) : Decidable (Wanted str l) :=
  inferInstanceAs (Decidable (_ ∧ _))

/-- What is to be printed of a line. -/
def wantedOf (str : CString) (l : List UInt8) : List UInt8 := if Wanted str l then l else []

/-- The program prints exactly the wanted lines of the file. -/
def Filters (str : CString) (file : List UInt8) : Prop :=
  ∀ (fopen : CString → Option (List UInt8)) (name filename : CString),
    fopen filename = some file →
    main fopen [name, filename, str] =
      some { printed := ((lines newline file).filter fun l => Wanted str l).flatten, status := 0 }

/-- The line ends and has no NUL byte, or it is neither to be printed nor taken for one that
is. -/
def GoodLine (str : CString) (l : List UInt8) : Prop :=
  (Ends newline l ∧ 0 ∉ l) ∨ (¬ Wanted str l ∧ ¬ Passes str l)

instance (str : CString) (l : List UInt8) : Decidable (GoodLine str l) :=
  inferInstanceAs (Decidable ((_ = _ ∧ _) ∨ _))

theorem main_spec {fopen : CString → Option (List UInt8)} {filename : CString}
    {file : List UInt8} (hopen : fopen filename = some file)
    (hlines : ∀ l ∈ lines newline file, (content l).length ≤ 255) {str : CString}
    (hstr : str.bytes ≠ []) (name : CString) :
    main fopen [name, filename, str] =
      some { printed := (lines newline file).flatMap (printedOf str), status := 0 } := by
  have hfit : ∀ l ∈ lines newline file, l.length ≤ 259 := by
    intro l hl
    have := length_le_content ((lines_spec file).2.1 l hl)
    have := hlines l hl
    omega
  rw [main, hopen]
  dsimp only
  rw [pieces_eq_lines (by omega) hfit, rounds_spec hstr _ _ hfit]
  rfl

/-- A line that ends and has no NUL byte is filtered right. -/
theorem printedOf_eq_wantedOf {str : CString} {l : List UInt8} (hl : IsLine newline l)
    (hend : Ends newline l) (hno : 0 ∉ l) : printedOf str l = wantedOf str l := by
  have hstring : (ofBuffer l).bytes = l := ofBuffer_bytes hno
  have hlen : l.length = (content l).length + 1 := by
    obtain ⟨_, h⟩ := (content_cases hl).resolve_right fun h => h.1 hend
    exact (congrArg List.length h).trans (by rw [List.length_append, List.length_singleton])
  have hsame : Passes str l ↔ Wanted str l := by
    rw [Passes, Wanted, hstring, hlen]
    exact and_congr_left' (by omega)
  rw [printedOf, wantedOf, hstring]
  exact if_congr hsame rfl rfl

theorem wantedOf_eq_nil {str : CString} {l : List UInt8} (h : ¬ Wanted str l) :
    wantedOf str l = [] := if_neg h

theorem printedOf_noNul (str : CString) (l : List UInt8) : 0 ∉ printedOf str l := by
  rw [printedOf]
  split
  · exact (ofBuffer l).noNul
  · exact List.not_mem_nil

theorem printedOf_length (str : CString) (l : List UInt8) :
    (printedOf str l).length = 0 ∨ (printedOf str l).length = 6 := by
  rw [printedOf]
  split
  · rename_i h
    exact Or.inr h.1
  · exact Or.inl rfl

/-- The program prints of a line what is to be printed just if the line is good. -/
theorem goodLine_iff {str : CString} {l : List UInt8} (hl : IsLine newline l) :
    GoodLine str l ↔ printedOf str l = wantedOf str l := by
  constructor
  · rintro (⟨hend, hno⟩ | ⟨hw, hp⟩)
    · exact printedOf_eq_wantedOf hl hend hno
    · rw [printedOf, if_neg hp, wantedOf_eq_nil hw]
  · intro h
    by_cases hw : Wanted str l
    · rw [wantedOf, if_pos hw] at h
      have hno : 0 ∉ l := by
        rw [← h]
        exact printedOf_noNul str l
      refine Or.inl ⟨?_, hno⟩
      by_contra hend
      have hfive := hw.1
      rw [content_of_not_ends hl hend] at hfive
      have hsix := printedOf_length str l
      rw [h] at hsix
      omega
    · rw [wantedOf_eq_nil hw] at h
      refine Or.inr ⟨hw, fun hp => ?_⟩
      rw [printedOf, if_pos hp] at h
      have hsix := hp.1
      rw [h] at hsix
      exact absurd hsix (by simp)

theorem wanted_flatten (str : CString) : ∀ ls : List (List UInt8),
    (ls.filter fun l => Wanted str l).flatten = ls.flatMap (wantedOf str)
  | [] => rfl
  | l :: ls => by
      rw [List.flatMap_cons, ← wanted_flatten str ls, wantedOf]
      by_cases hw : Wanted str l
      · rw [if_pos hw, List.filter_cons_of_pos (by simpa using hw), List.flatten_cons]
      · rw [if_neg hw, List.filter_cons_of_neg (by simpa using hw), List.nil_append]

/-- If no wanted line has a NUL byte, only the end of the last line can be missing. -/
theorem wantedOf_length_le {str : CString} : ∀ {ls : List (List UInt8)},
    (∀ l ∈ ls, IsLine newline l) → EndedBefore newline ls →
    (∀ l ∈ ls, Wanted str l → 0 ∉ l) →
    (ls.flatMap (wantedOf str)).length ≤ (ls.flatMap (printedOf str)).length + 5
  | [], _, _, _ => Nat.zero_le _
  | l :: ls, hline, hends, hno => by
      have hls := (List.pairwise_cons.mp hends).2
      have hrest := wantedOf_length_le (fun x hx => hline x (List.mem_cons_of_mem l hx)) hls
        fun x hx => hno x (List.mem_cons_of_mem l hx)
      have hl' := hline l List.mem_cons_self
      rw [List.flatMap_cons, List.flatMap_cons, List.length_append, List.length_append]
      by_cases hw : Wanted str l
      · by_cases hend : Ends newline l
        · rw [printedOf_eq_wantedOf hl' hend (hno l List.mem_cons_self hw)]
          omega
        · have hnil : ls = [] := (hends.split [] l ls rfl).resolve_left hend
          have hfive := hw.1
          rw [content_of_not_ends hl' hend] at hfive
          rw [hnil, wantedOf, if_pos hw, hfive, List.flatMap_nil, List.length_nil]
          omega
      · rw [wantedOf_eq_nil hw, List.length_nil]
        omega

/-- All lines are printed right if the file is. -/
theorem printedOf_eq_of_flatMap {str : CString} : ∀ {ls : List (List UInt8)},
    (∀ l ∈ ls, IsLine newline l) → EndedBefore newline ls →
    ls.flatMap (printedOf str) = ls.flatMap (wantedOf str) →
    ∀ l ∈ ls, printedOf str l = wantedOf str l
  | [], _, _, _ => fun l hl => absurd hl List.not_mem_nil
  | l :: ls, hline, hends, h => by
      have hls := (List.pairwise_cons.mp hends).2
      have hline' : ∀ x ∈ ls, IsLine newline x := fun x hx => hline x (List.mem_cons_of_mem l hx)
      have hno : ∀ x ∈ l :: ls, Wanted str x → 0 ∉ x := by
        intro x hx hw h0
        have hmem : (0 : UInt8) ∈ (l :: ls).flatMap (wantedOf str) :=
          List.mem_flatMap.mpr ⟨x, hx, by rwa [wantedOf, if_pos hw]⟩
        rw [← h] at hmem
        obtain ⟨y, _, hy⟩ := List.mem_flatMap.mp hmem
        exact printedOf_noNul str y hy
      have hfirst : printedOf str l = wantedOf str l := by
        by_cases hw : Wanted str l
        · by_cases hend : Ends newline l
          · exact printedOf_eq_wantedOf (hline l List.mem_cons_self) hend
              (hno l List.mem_cons_self hw)
          · have hnil : ls = [] := (hends.split [] l ls rfl).resolve_left hend
            rw [hnil] at h
            simpa using h
        · have hle := wantedOf_length_le hline' hls fun x hx => hno x (List.mem_cons_of_mem l hx)
          have hlen := congrArg List.length h
          rw [List.flatMap_cons, List.flatMap_cons, List.length_append, List.length_append,
            wantedOf_eq_nil hw, List.length_nil] at hlen
          rw [wantedOf_eq_nil hw]
          exact List.eq_nil_of_length_eq_zero
            ((printedOf_length str l).resolve_right fun h6 => by omega)
      rw [List.flatMap_cons, List.flatMap_cons, hfirst] at h
      intro x hx
      rcases List.mem_cons.mp hx with rfl | hx
      · exact hfirst
      · exact printedOf_eq_of_flatMap hline' hls (List.append_cancel_left h) x hx

/-- **`wordle` filters exactly just if every line is good**: a line with a NUL byte, or a last
line without its newline, must neither be wanted nor have six bytes the program lets pass. -/
theorem filters_iff {file : List UInt8}
    (hlines : ∀ l ∈ lines newline file, (content l).length ≤ 255) {str : CString}
    (hstr : str.bytes ≠ []) :
    Filters str file ↔ ∀ l ∈ lines newline file, GoodLine str l := by
  have hline : ∀ l ∈ lines newline file, IsLine newline l := (lines_spec file).2.1
  have hwanted := wanted_flatten str (lines newline file)
  constructor
  · intro h l hl
    have hrun := h (fun _ => some file) str str rfl
    rw [main_spec rfl hlines hstr, hwanted] at hrun
    have hprinted := congrArg Exit.printed (Option.some.inj hrun)
    exact (goodLine_iff (hline l hl)).mpr
      (printedOf_eq_of_flatMap hline (lines_endedBefore file) hprinted l hl)
  · intro h fopen name filename hopen
    rw [main_spec hopen hlines hstr, hwanted,
      List.flatMap_congr fun l hl => (goodLine_iff (hline l hl)).mp (h l hl)]

/-- `z`. -/
def z : CString := .ofBuffer [122]

/-- The lines `soups` and `ab`, of which the second one does not end. -/
def soups : List UInt8 := [115, 111, 117, 112, 115, 10, 97, 98]

theorem filters_iff_soups : Filters z soups :=
  (filters_iff (by decide) (by decide)).mpr (by decide)

/-- The line `soups`, which does not end. -/
def openSoups : List UInt8 := [115, 111, 117, 112, 115]

/-- Nothing is printed of the file `soups`, though `z` does not occur in it. -/
theorem openSoups_missed :
    (∀ l ∈ lines newline openSoups, (content l).length ≤ 255) ∧ ¬ Filters z openSoups := by
  have hlines : ∀ l ∈ lines newline openSoups, (content l).length ≤ 255 := by decide
  refine ⟨hlines, fun h => ?_⟩
  have hrun := h (fun _ => some openSoups) z z rfl
  rw [main_spec rfl hlines (by decide)] at hrun
  obtain ⟨hprinted, _⟩ := Exit.mk.inj (Option.some.inj hrun)
  have hdiff : (lines newline openSoups).flatMap (printedOf z) ≠
      ((lines newline openSoups).filter fun l => Wanted z l).flatten := by decide +kernel
  exact hdiff hprinted

end CS537.Utilities.Wordle
