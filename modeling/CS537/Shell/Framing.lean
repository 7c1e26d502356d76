import CS537.Shell.Main

/-!
# Shell — the lines of the stream and the strings that are parsed

`main` takes the chunks `fgets` gives for lines. The strings it hands to the parser are the
lines of the stream as long as every line it comes to is one that its test on the length of
the chunk treats right; the tests of the two modes differ.
-/

namespace CS537.Shell

open Fgets

/-! ## What is to be handed -/

/-- The line is to be parsed: it is not empty and has at most 511 bytes. -/
def Parsable (l : List UInt8) : Prop := l ≠ [newline] ∧ l.length ≤ 511

instance (l : List UInt8) : Decidable (Parsable l) := inferInstanceAs (Decidable (_ ∧ _))

/-- The lines to be parsed, with their offsets. -/
def wanted (ls : List (Nat × List UInt8)) : List (Nat × List UInt8) := ls.filter fun l => Parsable l.2

/-- The lines of a stream, with their offsets. -/
def streamLines (stream : List UInt8) : List (Nat × List UInt8) :=
  linesFrom 0 (lines newline stream)

/-- These are the wanted ones from the first on, and all of them if the shell has not
ended. -/
def Delivered (handed wanted : List (Nat × List UInt8)) (ended : Bool) : Prop :=
  handed <+: wanted ∧ (ended = false → handed = wanted)

/-- What was handed to the parser are the lines to be parsed, up to the last one if the
shell has not ended. -/
def Framed (mode : Mode) (replies : Nat → Reply) (stream : List UInt8) : Prop :=
  Delivered (session mode replies stream).handed (wanted (streamLines stream))
    (session mode replies stream).ended

/-- The line the mode treats right: without a NUL byte, and not longer than 511 bytes in
interactive mode; in batch mode shorter than that and not empty, or longer by full chunks. -/
def GoodLine (mode : Mode) (l : List UInt8) : Prop :=
  0 ∉ l ∧
    match mode with
    | .interactive => l.length ≤ 511
    | .batch => l ≠ [newline] ∧ (l.length < 511 ∨ 511 < l.length ∧ 511 ∣ l.length)

/-- The session after the chunks of a line. -/
def lineRun (mode : Mode) (replies : Nat → Reply) (s : Session) (l : Nat × List UInt8) : Session :=
  (lineChunks newline 512 l.1 l.2).foldl (promptedRound mode replies) s

/-- Every line that is read before the shell ends is treated right. -/
def GoodLines (mode : Mode) (replies : Nat → Reply) : List (Nat × List UInt8) → Session → Prop
  | [], _ => True
  | l :: ls, s => s.ended = false →
      GoodLine mode l.2 ∧ GoodLines mode replies ls (lineRun mode replies s l)

/-! ## What a chunk hands -/

/-- The chunk is handed to the parser. -/
def hands (mode : Mode) (chunk : List UInt8) : Bool :=
  match mode with
  | .interactive => CString.ofBuffer chunk ≠ newlineWord
  | .batch => (CString.ofBuffer chunk).bytes.length < 511

/-- The strings these chunks hand to the parser if the shell does not end. -/
def handedBy (mode : Mode) (cs : List (Nat × List UInt8)) : List (Nat × List UInt8) :=
  (cs.filter fun c => hands mode c.2).map fun c => (c.1, (CString.ofBuffer c.2).bytes)

theorem handedBy_append (mode : Mode) (cs ds : List (Nat × List UInt8)) :
    handedBy mode (cs ++ ds) = handedBy mode cs ++ handedBy mode ds := by
  rw [handedBy, List.filter_append, List.map_append]
  rfl

theorem ofBuffer_length_le (chunk : List UInt8) :
    (CString.ofBuffer chunk).bytes.length ≤ chunk.length :=
  (List.takeWhile_sublist _).length_le

/-- A round hands the string of the chunk, or nothing; only then the shell can end. -/
theorem round_handed (mode : Mode) (reply : Reply) (off : Nat) {chunk : List UInt8}
    (hlen : chunk.length ≤ 511) (s : Session) :
    (round mode reply off chunk s).handed =
        s.handed ++ handedBy mode [(off, chunk)] ∧
      (hands mode chunk = false → (round mode reply off chunk s).ended = s.ended) := by
  have hfit : ¬ (CString.ofBuffer chunk).bytes.length > 511 := by
    have := ofBuffer_length_le chunk
    omega
  cases mode with
  | interactive =>
      simp only [round, if_neg hfit, ne_eq, CString.strcmp_eq_zero]
      by_cases h : CString.ofBuffer chunk = newlineWord
      · simp [h, handedBy, hands]
      · simp [h, handedBy, hands, Session.hand]
  | batch =>
      simp only [round]
      by_cases h : (CString.ofBuffer chunk).bytes.length < 511
      · simp [h, handedBy, hands, Session.hand]
      · simp [h, handedBy, hands]

/-- What the rounds of some chunks hand: what they would, up to where the shell ends. -/
theorem foldl_handed (mode : Mode) (replies : Nat → Reply) : ∀ (cs : List (Nat × List UInt8))
    (s : Session), s.ended = false → (∀ c ∈ cs, c.2.length ≤ 511) →
    ∃ X, (cs.foldl (promptedRound mode replies) s).handed = s.handed ++ X ∧
      X <+: handedBy mode cs ∧
      ((cs.foldl (promptedRound mode replies) s).ended = false → X = handedBy mode cs) ∧
      ((cs.foldl (promptedRound mode replies) s).ended = true → X ≠ [])
  | [], s, hs, _ => ⟨[], by simp, List.nil_prefix, fun _ => rfl, fun h => by
      rw [List.foldl_nil, hs] at h
      cases h⟩
  | c :: cs, s, hs, hlen => by
      let s₀ := if mode = .interactive then s.prompt else s
      have hs₀ : s₀.handed = s.handed ∧ s₀.ended = false := by
        simp only [s₀]
        split
        · exact ⟨rfl, hs⟩
        · exact ⟨rfl, hs⟩
      have hstep : promptedRound mode replies s c = round mode (replies c.1) c.1 c.2 s₀ := by
        rw [promptedRound, if_neg (by simp [hs])]
      obtain ⟨hhand, hquiet⟩ := round_handed mode (replies c.1) c.1 (hlen c List.mem_cons_self) s₀
      have hcons : handedBy mode (c :: cs) = handedBy mode [c] ++ handedBy mode cs :=
        handedBy_append mode [c] cs
      rw [List.foldl_cons, hstep, hcons]
      rw [hs₀.1] at hhand
      by_cases hended : (round mode (replies c.1) c.1 c.2 s₀).ended = true
      · rw [foldl_ended hended, hhand]
        have hone : handedBy mode [c] ≠ [] := by
          intro h0
          have hno : hands mode c.2 = false := by
            by_contra hyes
            simp [handedBy, hyes] at h0
          rw [hquiet hno, hs₀.2] at hended
          cases hended
        refine ⟨handedBy mode [c], rfl, List.prefix_append _ _, fun h => ?_, fun _ => hone⟩
        rw [hended] at h
        cases h
      · obtain ⟨X, hX, hpre, hall, hne⟩ := foldl_handed mode replies cs _
          (by simpa using hended) fun d hd => hlen d (List.mem_cons_of_mem c hd)
        refine ⟨handedBy mode [c] ++ X, ?_, ?_, fun h => ?_, fun h => ?_⟩
        · rw [hX, hhand, List.append_assoc]
        · exact (List.prefix_append_right_inj _).mpr hpre
        · rw [hall h]
        · simp [hne h]

/-! ## A line -/

/-- What is to be handed of one line. -/
def wantedLine (l : Nat × List UInt8) : List (Nat × List UInt8) := if Parsable l.2 then [l] else []

theorem ofBuffer_clean {l : List UInt8} (h : 0 ∉ l) : (CString.ofBuffer l).bytes = l :=
  CString.ofBuffer_bytes h

/-- A NUL byte cuts the string off. -/
theorem ofBuffer_cut {l : List UInt8} (h : 0 ∈ l) : (CString.ofBuffer l).bytes.length < l.length := by
  obtain ⟨w, r, rfl, hw⟩ := List.eq_append_cons_of_mem h
  rw [CString.ofBuffer_terminated hw, List.length_append, List.length_cons]
  omega

/-- A chunk with a NUL byte is handed, in either mode. -/
theorem hands_of_nul (mode : Mode) {l : List UInt8} (hl : newline ∉ l.dropLast) (h : 0 ∈ l)
    (hlen : l.length ≤ 511) : hands mode l = true := by
  cases mode with
  | interactive =>
      apply decide_eq_true
      intro he
      obtain ⟨w, r, rfl, hw⟩ := List.eq_append_cons_of_mem h
      have hbytes := congrArg CString.bytes he
      rw [CString.ofBuffer_terminated hw] at hbytes
      apply hl
      rw [hbytes]
      cases r with
      | nil => decide
      | cons b r => simp [newlineWord, CString.ofBuffer, newline]
  | batch =>
      have := ofBuffer_cut h
      exact decide_eq_true (by omega)

/-- A line that fits. -/
theorem goodLine_short (mode : Mode) {l : List UInt8} (hl : IsLine newline l) (hlen : l.length ≤ 511)
    (off : Nat) :
    GoodLine mode l ↔ handedBy mode [(off, l)] = wantedLine (off, l) := by
  by_cases h0 : 0 ∈ l
  · -- the string is cut off
    have hhands := hands_of_nul mode hl.2 h0 hlen
    have hcut := ofBuffer_cut h0
    refine iff_of_false (fun hgood => hgood.1 h0) fun heq => ?_
    have hlist : handedBy mode [(off, l)] = [(off, (CString.ofBuffer l).bytes)] := by
      simp [handedBy, hhands]
    rw [hlist, wantedLine] at heq
    split at heq
    · have hbytes := congrArg List.length (Prod.mk.inj (List.cons.inj heq).1).2
      omega
    · cases heq
  · have hbytes := ofBuffer_clean h0
    have hword : CString.ofBuffer l = newlineWord ↔ l = [newline] := by
      constructor
      · intro he
        rw [← hbytes, he]
        rfl
      · intro he
        rw [he]
        rfl
    cases mode with
    | interactive =>
        have hpars : Parsable l ↔ ¬ l = [newline] := and_iff_left hlen
        refine iff_of_true ⟨h0, hlen⟩ ?_
        by_cases hn : l = [newline]
        · subst hn
          simp [handedBy, hands, wantedLine, Parsable, newlineWord]
        · have hnw : ¬ CString.ofBuffer l = newlineWord := fun h => hn (hword.mp h)
          simp [handedBy, hands, wantedLine, hpars, hnw, hn, hbytes]
    | batch =>
        have hpars : Parsable l ↔ ¬ l = [newline] := and_iff_left hlen
        have hgood : GoodLine .batch l ↔ ¬ l = [newline] ∧ l.length < 511 := by
          simp only [GoodLine, h0, not_false_eq_true, true_and]
          constructor
          · rintro ⟨hn, h | h⟩
            · exact ⟨hn, h⟩
            · omega
          · exact fun h => ⟨h.1, Or.inl h.2⟩
        rw [hgood]
        by_cases hn : l = [newline]
        · subst hn
          have hshort : hands .batch [newline] = true := by decide
          simp [handedBy, hshort, wantedLine, Parsable]
        · by_cases hfull : l.length < 511
          · simp [handedBy, hands, wantedLine, hpars, hn, hbytes, hfull]
          · simp [handedBy, hands, wantedLine, hpars, hn, hbytes, hfull]

/-- A chunk as long as the buffer allows is no newline. -/
theorem hands_full {chunk : List UInt8} (hlen : chunk.length = 511) (h0 : 0 ∉ chunk) :
    hands .interactive chunk = true ∧ hands .batch chunk = false := by
  have hbytes := ofBuffer_clean h0
  constructor
  · apply decide_eq_true
    intro he
    rw [he] at hbytes
    rw [← hbytes] at hlen
    cases hlen
  · apply decide_eq_false
    rw [hbytes]
    omega

/-- A line that does not fit: it is to hand nothing. -/
theorem goodLine_long (mode : Mode) {l : List UInt8} (hl : IsLine newline l) (hlen : 511 < l.length)
    (off : Nat) : GoodLine mode l ↔ handedBy mode (lineChunks newline 512 off l) = [] := by
  have hnone : handedBy mode (lineChunks newline 512 off l) = [] ↔
      ∀ c ∈ lineChunks newline 512 off l, hands mode c.2 = false := by
    simp [handedBy]
  rw [hnone]
  cases mode with
  | interactive =>
      -- the first chunk is handed
      refine iff_of_false (fun hgood => by have := hgood.2; omega) fun hno => ?_
      have hfirst : (off, l.take 511) ∈ lineChunks newline 512 off l := by
        rw [lineChunks_long (by decide) hl hlen]
        exact List.mem_cons_self
      have hquiet := hno _ hfirst
      by_cases h0 : 0 ∈ l.take 511
      · have hline : newline ∉ (l.take 511).dropLast := by
          intro hm
          rw [List.dropLast_eq_take, List.take_take] at hm
          apply hl.2
          rw [List.dropLast_eq_take]
          exact List.take_subset_take_left l (by omega) hm
        have := hands_of_nul .interactive hline h0 (by rw [List.length_take]; omega)
        rw [hquiet] at this
        cases this
      · have := (hands_full (by rw [List.length_take]; omega) h0).1
        rw [hquiet] at this
        cases this
  | batch =>
      have hgood : GoodLine .batch l ↔ 0 ∉ l ∧ 511 ∣ l.length := by
        have hne : l ≠ [newline] := by
          rintro rfl
          simp at hlen
        simp only [GoodLine, hne, ne_eq, not_false_eq_true, true_and, hlen]
        have : ¬ l.length < 511 := by omega
        simp [this]
      have hmem : 0 ∈ l ↔ ∃ c ∈ lineChunks newline 512 off l, 0 ∈ c.2 := by
        have hflat := @lineChunks_flatten _ _ newline 512 (by decide) l hl off
        constructor
        · intro h0
          rw [← hflat] at h0
          obtain ⟨xs, hxs, h0⟩ := List.mem_flatten.mp h0
          obtain ⟨c, hc, rfl⟩ := List.mem_map.mp hxs
          exact ⟨c, hc, h0⟩
        · intro ⟨c, hc, h0⟩
          rw [← hflat]
          exact List.mem_flatten.mpr ⟨c.2, List.mem_map_of_mem hc, h0⟩
      rw [hgood, ← @lineChunks_full _ _ newline 512 (by decide) l hl off]
      constructor
      · rintro ⟨h0, hfull⟩ c hc
        exact (hands_full (hfull c hc) fun h => h0 (hmem.mpr ⟨c, hc, h⟩)).2
      · intro hno
        have hge : ∀ c ∈ lineChunks newline 512 off l, 511 ≤ (CString.ofBuffer c.2).bytes.length := by
          intro c hc
          have := of_decide_eq_false (hno c hc)
          omega
        refine ⟨fun h0 => ?_, fun c hc => ?_⟩
        · obtain ⟨c, hc, hcut⟩ := hmem.mp h0
          have := (mem_lineChunks (by decide) hl hc).2.2
          have := hge c hc
          have := ofBuffer_cut hcut
          omega
        · have := (mem_lineChunks (by decide) hl hc).2.2
          have := hge c hc
          have := ofBuffer_length_le c.2
          omega

/-- A line is treated right when its chunks would hand what is to be handed of it. -/
theorem goodLine_iff (mode : Mode) {l : List UInt8} (hl : IsLine newline l) (off : Nat) :
    GoodLine mode l ↔ handedBy mode (lineChunks newline 512 off l) = wantedLine (off, l) := by
  by_cases hlen : l.length ≤ 511
  · rw [lineChunks_short (by decide) hl hlen]
    exact goodLine_short mode hl hlen off
  · have hnot : ¬ Parsable l := fun h => hlen h.2
    rw [goodLine_long mode hl (by omega) off, wantedLine, if_neg hnot]

/-! ## One line after the other -/

/-- Offsets keep what one line hands apart from what the later ones do. -/
theorem prefix_of_offsets {k : Nat} {X X' W W' : List (Nat × List UInt8)}
    (hX : ∀ x ∈ X, x.1 < k) (hX' : ∀ x ∈ X', k ≤ x.1) (hW : ∀ x ∈ W, x.1 < k)
    (hW' : ∀ x ∈ W', k ≤ x.1) (h : X ++ X' <+: W ++ W') : X <+: W ∧ (X' ≠ [] → X = W) := by
  have hlow : ∀ {Y Y' : List (Nat × List UInt8)}, (∀ x ∈ Y, x.1 < k) → (∀ x ∈ Y', k ≤ x.1) →
      (Y ++ Y').filter (fun x => x.1 < k) = Y := by
    intro Y Y' hY hY'
    rw [List.filter_append, List.filter_eq_self.mpr fun x hx => decide_eq_true (hY x hx),
      List.filter_eq_nil_iff.mpr fun x hx => by simpa using hY' x hx, List.append_nil]
  have hpre : X <+: W := by
    have hfilter := h.filter fun x => decide (x.1 < k)
    rwa [hlow hX hX', hlow hW hW'] at hfilter
  refine ⟨hpre, fun hne => ?_⟩
  obtain ⟨Z, rfl⟩ := hpre
  rw [List.append_assoc, List.prefix_append_right_inj] at h
  obtain ⟨x, X', rfl⟩ := List.exists_cons_of_ne_nil hne
  cases Z with
  | nil => rw [List.append_nil]
  | cons z Z =>
      obtain ⟨rfl, _⟩ := List.cons_prefix_cons.mp h
      have hlt := hW x (List.mem_append_right X List.mem_cons_self)
      have hge := hX' x List.mem_cons_self
      omega

/-- What is delivered of a line, and of the lines after it. -/
theorem delivered_append {k : Nat} {X X' W W' : List (Nat × List UInt8)} {e e' : Bool}
    (hX : ∀ x ∈ X, x.1 < k) (hX' : ∀ x ∈ X', k ≤ x.1) (hW : ∀ x ∈ W, x.1 < k)
    (hW' : ∀ x ∈ W', k ≤ x.1) (hend : e = true → X' = [] ∧ e' = true)
    (hgo : e = false → e' = true → X' ≠ []) :
    Delivered (X ++ X') (W ++ W') e' ↔ Delivered X W e ∧ (e = false → Delivered X' W' e') := by
  constructor
  · intro ⟨hpre, hall⟩
    obtain ⟨hfirst, heq⟩ := prefix_of_offsets hX hX' hW hW' hpre
    have hsame : e = false → X = W := by
      intro he
      cases he' : e' with
      | true => exact heq (hgo he he')
      | false =>
          have hback := prefix_of_offsets hW hW' hX hX' (hall he' ▸ List.prefix_refl _)
          exact hfirst.eq_of_length_le hback.1.length_le
    refine ⟨⟨hfirst, hsame⟩, fun he => ?_⟩
    obtain rfl := hsame he
    refine ⟨(List.prefix_append_right_inj X).mp hpre, fun he' => ?_⟩
    exact List.append_cancel_left (hall he')
  · intro ⟨⟨hpre, hsame⟩, hrest⟩
    cases e with
    | true =>
        obtain ⟨rfl, rfl⟩ := hend rfl
        rw [List.append_nil]
        exact ⟨hpre.trans (List.prefix_append W W'), fun h => by cases h⟩
    | false =>
        obtain rfl := hsame rfl
        obtain ⟨hpre', hall'⟩ := hrest rfl
        exact ⟨(List.prefix_append_right_inj X).mpr hpre', fun he' => by rw [hall' he']⟩

/-- A line is treated right when its rounds deliver it. -/
theorem lineRun_delivered (mode : Mode) (replies : Nat → Reply) {off : Nat} {l : List UInt8}
    (hl : IsLine newline l) {s : Session} (hs : s.ended = false) :
    ∃ X, (lineRun mode replies s (off, l)).handed = s.handed ++ X ∧
      (∀ x ∈ X, off ≤ x.1 ∧ x.1 < off + l.length) ∧
      ((lineRun mode replies s (off, l)).ended = true → X ≠ []) ∧
      (GoodLine mode l ↔
        Delivered X (wantedLine (off, l)) (lineRun mode replies s (off, l)).ended) := by
  have hmem := fun c hc => @mem_lineChunks _ _ newline 512 (by decide) l hl off c hc
  obtain ⟨X, hX, hpre, hall, hne⟩ := foldl_handed mode replies (lineChunks newline 512 off l) s hs
    fun c hc => (hmem c hc).2.2
  refine ⟨X, hX, ?_, hne, ?_⟩
  · intro x hx
    obtain ⟨c, hc, rfl⟩ := List.mem_map.mp (hpre.subset hx)
    have := hmem c (List.mem_filter.mp hc).1
    exact ⟨this.1, this.2.1⟩
  · rw [goodLine_iff mode hl off]
    constructor
    · intro heq
      rw [heq] at hpre hall
      exact ⟨hpre, hall⟩
    · intro ⟨hpre', hall'⟩
      cases hended : (lineRun mode replies s (off, l)).ended with
      | false => rw [← hall hended, hall' hended]
      | true =>
          -- something was handed, so the line is to be parsed, and is one chunk
          have hsome := hne hended
          by_cases hpars : Parsable l
          · rw [lineChunks_short (by decide) hl hpars.2] at hpre ⊢
            rw [wantedLine, if_pos hpars] at hpre' ⊢
            have hone : X = [(off, l)] := by
              apply hpre'.eq_of_length_le
              exact List.length_pos_of_ne_nil hsome
            rw [hone] at hpre
            refine (hpre.eq_of_length_le ?_).symm
            rw [handedBy, List.length_map]
            exact List.length_filter_le _ _
          · rw [wantedLine, if_neg hpars] at hpre'
            exact absurd (List.prefix_nil.mp hpre') hsome

theorem wanted_cons (l : Nat × List UInt8) (ls : List (Nat × List UInt8)) :
    wanted (l :: ls) = wantedLine l ++ wanted ls := by
  rw [wanted, List.filter_cons, wantedLine]
  by_cases h : Parsable l.2
  · simp [h, wanted]
  · simp [h, wanted]

theorem wanted_offset {off : Nat} {ls : List (List UInt8)} :
    ∀ x ∈ wanted (linesFrom off ls), off ≤ x.1 := by
  intro x hx
  have hmem := (List.mem_filter.mp hx).1
  clear hx
  induction ls generalizing off with
  | nil => cases hmem
  | cons l ls ih =>
      rcases List.mem_cons.mp hmem with rfl | hmem
      · exact Nat.le_refl off
      · have := ih hmem
        omega

theorem wantedLine_offset {l : Nat × List UInt8} : ∀ x ∈ wantedLine l, x = l := by
  intro x hx
  rw [wantedLine] at hx
  split at hx
  · exact List.mem_singleton.mp hx
  · cases hx

theorem lineRun_ended {mode : Mode} {replies : Nat → Reply} {s : Session} (h : s.ended = true) :
    ∀ ls : List (Nat × List UInt8), ls.foldl (lineRun mode replies) s = s
  | [] => rfl
  | l :: ls => by rw [List.foldl_cons, lineRun, foldl_ended h, lineRun_ended h ls]

theorem goodLines_ended {mode : Mode} {replies : Nat → Reply} {s : Session} (h : s.ended = true)
    (ls : List (Nat × List UInt8)) : GoodLines mode replies ls s := by
  cases ls with
  | nil => trivial
  | cons l ls =>
      intro hs
      rw [h] at hs
      cases hs

/-- What some lines deliver. -/
theorem lines_delivered (mode : Mode) (replies : Nat → Reply) {ls : List (List UInt8)}
    (hline : ∀ l ∈ ls, IsLine newline l) {off : Nat} {s : Session} (hs : s.ended = false) :
    ∃ X, ((linesFrom off ls).foldl (lineRun mode replies) s).handed = s.handed ++ X ∧
      (∀ x ∈ X, off ≤ x.1) ∧
      (((linesFrom off ls).foldl (lineRun mode replies) s).ended = true → X ≠ []) ∧
      (GoodLines mode replies (linesFrom off ls) s ↔
        Delivered X (wanted (linesFrom off ls))
          ((linesFrom off ls).foldl (lineRun mode replies) s).ended) := by
  induction ls generalizing off s with
  | nil =>
      refine ⟨[], by simp [linesFrom], by simp, fun h => ?_, ?_⟩
      · rw [linesFrom, List.foldl_nil, hs] at h
        cases h
      · exact iff_of_true trivial ⟨List.nil_prefix, fun _ => rfl⟩
  | cons l ls ih =>
      obtain ⟨X, hX, hin, hne, hgood⟩ := @lineRun_delivered mode replies off l
        (hline l List.mem_cons_self) s hs
      rw [linesFrom, List.foldl_cons, wanted_cons]
      have hw : ∀ x ∈ wantedLine (off, l), x.1 < off + l.length := by
        intro x hx
        have hpos := List.length_pos_of_ne_nil (hline l List.mem_cons_self).1
        rw [wantedLine_offset x hx]
        omega
      cases hended : (lineRun mode replies s (off, l)).ended with
      | true =>
          rw [lineRun_ended hended]
          refine ⟨X, hX, fun x hx => (hin x hx).1, fun _ => hne hended, ?_⟩
          have happ := @delivered_append (off + l.length) X [] _ _ true
            (lineRun mode replies s (off, l)).ended (fun x hx => (hin x hx).2) (by simp) hw
            (@wanted_offset (off + l.length) ls) (fun _ => ⟨rfl, hended⟩) (fun h => by cases h)
          rw [List.append_nil] at happ
          rw [happ]
          constructor
          · intro h
            rw [hended] at hgood
            exact ⟨hgood.mp (h hs).1, fun hf => by cases hf⟩
          · intro hboth _
            obtain ⟨h, _⟩ := hboth
            rw [hended] at hgood
            exact ⟨hgood.mpr h, goodLines_ended hended _⟩
      | false =>
          obtain ⟨Y, hY, hoff, hne', hrest⟩ := ih
            (fun x hx => hline x (List.mem_cons_of_mem l hx)) hended
          refine ⟨X ++ Y, by rw [hY, hX, List.append_assoc], ?_, ?_, ?_⟩
          · intro x hx
            rcases List.mem_append.mp hx with hx | hx
            · exact (hin x hx).1
            · have := hoff x hx
              omega
          · intro h
            simp [hne' h]
          · rw [hended] at hgood
            have happ := @delivered_append (off + l.length) X Y _ _ false _
              (fun x hx => (hin x hx).2) hoff hw (@wanted_offset (off + l.length) ls)
              (fun h => by cases h) fun _ => hne'
            rw [happ, ← hrest, ← hgood]
            constructor
            · intro h
              exact ⟨(h hs).1, fun _ => (h hs).2⟩
            · intro h _
              exact ⟨h.1, h.2 rfl⟩

/-- The rounds of the chunks are those of the lines. -/
theorem session_lines (mode : Mode) (replies : Nat → Reply) (stream : List UInt8) :
    SameBut (session mode replies stream)
      ((streamLines stream).foldl (lineRun mode replies) .start) := by
  obtain ⟨hflat, hline, hends⟩ := @lines_spec _ _ newline stream
  have hchunks := @chunks_lines _ _ newline 512 (by decide) (lines newline stream) 0
    (stream.length + 1) hline hends (by rw [hflat]; omega)
  rw [hflat] at hchunks
  have hrun := mainLoop_eq mode replies (stream.length + 1) 0 stream .start rfl
  rw [hchunks, List.foldl_flatMap] at hrun
  exact hrun

/-- 511 times `a`, and `exit`. -/
def overlong : List UInt8 := List.replicate 511 97 ++ exitWord.bytes ++ [newline]

end CS537.Shell
