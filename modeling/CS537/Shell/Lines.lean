import CS537.Shell.Grammar
import CS537.Shell.AliasStore

/-!
# Shell — what a line does

A valid result of the parser has its first `argc` entries set, so the built-in commands
never meet a pointer that is not, and what a line does to the alias list is what its words
say.
-/

namespace CS537.Shell

open Bindings Runs

variable {m : Mysh} {c : CString} {bs : List (CString × CString)} {arg : ArgumentPck}

/-! ## The parser and the alias list -/

theorem Mysh.Lists.trackTimes (h : m.Lists bs) : ∀ n, (Mysh.trackTimes n m).Lists bs := by
  intro n
  induction n generalizing m with
  | zero => exact h
  | succ n ih => exact ih h.track

/-- The parser does not touch the alias list. -/
theorem Mysh.Lists.preprocess (h : m.Lists bs) (c : CString) :
    (preprocess m c).mysh.Lists bs := by
  have h₁ : (if c.bytes.length = 0 then m.track.write (.text 1 "\nmysh> ") else m.track).Lists bs := by
    split
    · exact h.track.write _
    · exact h.track
  rw [Shell.preprocess]
  simp only
  split
  · exact h₁.write _
  · split
    · exact h₁.track.trackTimes _
    · split
      · split
        · exact (h₁.track.trackTimes _).trackTimes _
        · exact ((h₁.track.trackTimes _).trackTimes _).write _
        · exact (h₁.track.trackTimes _).trackTimes _
      · exact h₁.track.trackTimes _

/-- What the parser returns does not depend on the process. -/
theorem preprocess_result_congr (m m' : Mysh) (c : CString) :
    (preprocess m c).result = (preprocess m' c).result := by
  rw [preprocess, preprocess]
  simp only
  split
  · rfl
  · split
    · rfl
    · split
      · split
        · rfl
        · rfl
        · rfl
      · rfl

/-! ## Valid results -/

theorem Accepted.filled {words : List (List UInt8)} {redir : Bool} (h : Accepted arg words redir) :
    ∃ ts : List CString, ts.map CString.bytes = words ∧ Filled arg ts := by
  have hbytes : ∀ (es : List (Option CString)) (ws : List (List UInt8)),
      es.map (Option.map CString.bytes) = ws.map some →
      ∃ ts : List CString, es = ts.map some ∧ ts.map CString.bytes = ws := by
    intro es ws hes
    induction ws generalizing es with
    | nil => exact ⟨[], List.map_eq_nil_iff.mp hes, rfl⟩
    | cons w ws ih =>
        obtain ⟨e, es', rfl, he, hes'⟩ := List.map_eq_cons_iff.mp hes
        obtain ⟨t, rfl, ht⟩ := Option.map_eq_some_iff.mp he
        obtain ⟨ts, rfl, hts⟩ := ih es' hes'
        exact ⟨t :: ts, rfl, by rw [List.map_cons, ht, hts]⟩
  obtain ⟨ts, htake, hts⟩ := hbytes _ _ h.words
  refine ⟨ts, hts, ⟨arg.argv.drop arg.argc, ?_⟩, ?_⟩
  · rw [← htake, List.take_append_drop]
  · rw [h.argc, ← hts, List.length_map]

/-- The token has its `>` inside. -/
def insideWord (w : List UInt8) : Bool :=
  gt ∈ w && w.head? ≠ some gt && w.getLast? ≠ some gt

theorem insideWord_eq {x y : List UInt8} (hx : gt ∉ x) (hy : gt ∉ y) :
    insideWord (x ++ gt :: y) = decide (x ≠ [] ∧ y ≠ []) := by
  rw [insideWord, Bool.eq_iff_iff]
  simp only [Bool.and_eq_true, decide_eq_true_eq]
  cases x with
  | nil => simp
  | cons a x =>
      have ha : a ≠ gt := fun h => hx (h ▸ List.mem_cons_self)
      rcases List.eq_nil_or_concat' y with rfl | ⟨t, b, rfl⟩
      · have hlast : (a :: (x ++ [gt])).getLast? = some gt := by
          rw [← List.cons_append, List.getLast?_concat]
        simp [hlast]
      · have hb : b ≠ gt := by
          rintro rfl
          exact hy (by simp)
        simp [ha, List.getLast?_append, List.getLast?_cons, hb]

/-- A line is valid if it has tokens, not more than the array takes, and at most one `>`.
Alone, the `>` has one token after it and one at least before it; inside a token, it is in
the last one, and the array takes one more. -/
def Valid (line : List UInt8) : Prop :=
  line.count gt ≤ 1 ∧ tokens line ≠ [] ∧ (tokens line).length ≤ 100 ∧
    ∀ A w B, tokens line = A ++ w :: B →
      (w = [gt] → A ≠ [] ∧ B.length = 1) ∧
        (insideWord w = true → B = [] ∧ (tokens line).length ≤ 99)

/-- The `>` taken for a blank. -/
def unGt (b : UInt8) : UInt8 := if b = gt then space else b

/-- The words of a line. -/
noncomputable def words (line : List UInt8) : List (List UInt8) := tokens (line.map unGt)

theorem map_unGt {line : List UInt8} (h : gt ∉ line) : line.map unGt = line := by
  have hsame : line.map unGt = line.map id := by
    apply List.map_congr_left
    intro b hb
    exact if_neg (ne_of_mem_of_not_mem hb h)
  rw [hsame, List.map_id]

theorem words_plain {line : List UInt8} (h : gt ∉ line) : words line = tokens line := by
  rw [words, map_unGt h]

theorem words_redirect {l r : List UInt8} (hl : gt ∉ l) (hr : gt ∉ r) :
    words (l ++ gt :: r) = tokens l ++ tokens r := by
  have hblank : unGt gt = space := rfl
  rw [words, List.map_append, List.map_cons, map_unGt hl, map_unGt hr, hblank, tokens,
    runs_append_cons (by decide)]
  rfl

/-- The parser takes the valid lines, and its words are theirs. -/
theorem preprocess_valid (hline : IsLine c) :
    (Valid c.bytes → words c.bytes ≠ [] ∧ ∃ arg, (preprocess m c).result = some arg ∧
      Accepted arg (words c.bytes) (decide (gt ∈ c.bytes))) ∧
    (¬ Valid c.bytes → ∀ arg, (preprocess m c).result = some arg → arg.isValid = false) := by
  obtain ⟨_, hmisf⟩ := scan_count c.bytes
  by_cases hmis : (scan c.bytes).misformatted = true
  · have hcount := hmisf.mp hmis
    constructor
    · intro hv
      have := hv.1
      omega
    · intro _ arg ha
      rw [preprocess_misformatted hmis] at ha
      cases ha
      rfl
  have hmis' : (scan c.bytes).misformatted = false := by simpa using hmis
  have hone : c.bytes.count gt ≤ 1 := by
    have hnot : ¬ 2 ≤ c.bytes.count gt := fun h => hmis (hmisf.mpr h)
    omega
  by_cases hlen : (tokens c.bytes).length ≤ 100
  swap
  · refine ⟨fun hv => absurd hv.2.2.1 hlen, fun _ arg ha => ?_⟩
    rw [preprocess_long hmis' (by rw [← List.length_map, pieces_bytes hline hmis']; omega)] at ha
    cases ha
  by_cases hgt : gt ∈ c.bytes
  · obtain ⟨l, r, hc, hl⟩ := List.eq_append_cons_of_mem hgt
    have hr : gt ∉ r := by
      intro hr
      rw [hc, List.count_append, List.count_cons_self] at hone
      have := List.count_pos_iff.mpr hr
      omega
    obtain ⟨A, B, x, y, hs⟩ := exists_sides l r
    have hx : gt ∉ x := fun h => hl (hs.memLeft gt h)
    have hy : gt ∉ y := fun h => hr (hs.memRight gt h)
    have htok : tokens c.bytes = A ++ (x ++ gt :: y) :: B := by rw [hc, hs.line]
    have hwords : words c.bytes = A ++ (if x = [] then [] else [x]) ++
        ((if y = [] then [] else [y]) ++ B) := by
      rw [hc, words_redirect hl hr, hs.left, hs.right]
    -- the line is valid if the token with the `>` is right
    have hvalid : Valid c.bytes ↔ (x = [] ∧ y = [] → A ≠ [] ∧ B.length = 1) ∧
        (x ≠ [] ∧ y ≠ [] → B = [] ∧ (tokens c.bytes).length ≤ 99) := by
      constructor
      · intro hv
        obtain ⟨halone, hin⟩ := hv.2.2.2 A _ B htok
        rw [insideWord_eq hx hy, decide_eq_true_eq] at hin
        refine ⟨fun h => halone ?_, hin⟩
        rw [h.1, h.2]
        rfl
      · intro ⟨halone, hin⟩
        refine ⟨hone, by rw [htok]; simp, hlen, fun A' w B' hsplit => ?_⟩
        have huniq : gt ∈ w → A' = A ∧ w = x ++ gt :: y ∧ B' = B := fun hw =>
          split_unique (fun u hu h => hl (hs.cleanLeft u hu gt h))
            (fun u hu h => hr (hs.cleanRight u hu gt h)) hw (htok ▸ hsplit)
        constructor
        · intro hw
          obtain ⟨rfl, hsame, rfl⟩ := huniq (by rw [hw]; exact List.mem_singleton_self gt)
          apply halone
          rw [hw] at hsame
          have hlength := congrArg List.length hsame
          simp only [List.length_append, List.length_cons, List.length_nil] at hlength
          exact ⟨List.length_eq_zero_iff.mp (by omega), List.length_eq_zero_iff.mp (by omega)⟩
        · intro hw
          have hmem : gt ∈ w := by
            rw [insideWord] at hw
            simp only [Bool.and_eq_true, decide_eq_true_eq] at hw
            exact hw.1.1
          obtain ⟨rfl, rfl, rfl⟩ := huniq hmem
          rw [insideWord_eq hx hy, decide_eq_true_eq] at hw
          exact hin hw
    rw [hvalid, decide_eq_true hgt]
    by_cases hxne : x = []
    · subst hxne
      by_cases hyne : y = []
      · subst hyne
        obtain ⟨hyes, hno⟩ := @preprocess_alone m c l r A B hline hc hl hr hs hlen
        rw [if_pos rfl, List.append_nil, List.nil_append] at hwords
        rw [hwords]
        refine ⟨fun h => ?_, fun h arg ha => ?_⟩
        · have hok := h.1 ⟨rfl, rfl⟩
          exact ⟨by simp [hok.1], hyes hok⟩
        rw [hno fun hok => h ⟨fun _ => hok, fun hne => absurd rfl hne.1⟩] at ha
        cases ha
        rfl
      · rw [if_pos rfl, if_neg hyne, List.append_nil, List.singleton_append] at hwords
        rw [hwords]
        refine ⟨fun _ => ⟨by simp, preprocess_leading hline hc hl hr hs hyne hlen⟩, fun h => ?_⟩
        exact absurd ⟨fun hb => absurd hb.2 hyne, fun hb => absurd rfl hb.1⟩ h
    · by_cases hyne : y = []
      · subst hyne
        rw [if_pos rfl, if_neg hxne, List.nil_append, List.append_assoc,
          List.singleton_append] at hwords
        rw [hwords]
        refine ⟨fun _ => ⟨by simp, preprocess_trailing hline hc hl hr hs hxne hlen⟩, fun h => ?_⟩
        exact absurd ⟨fun hb => absurd hb.1 hxne, fun hb => absurd rfl hb.2⟩ h
      · rw [if_neg hxne, if_neg hyne, List.append_assoc, List.singleton_append] at hwords
        rw [hwords]
        constructor
        · intro h
          obtain ⟨rfl, hfit⟩ := h.2 ⟨hxne, hyne⟩
          exact ⟨by simp, preprocess_middle hline hc hl hr hs hxne hyne hfit⟩
        · intro h arg ha
          by_cases hB : B = []
          · -- the array is full
            subst hB
            obtain ⟨_, hred, P, p, Q, hpieces, hP, hp, hQ, hclean, -⟩ :=
              pieces_sides hline hc hl hr hs
            obtain rfl := List.map_eq_nil_iff.mp hQ
            have hcount := congrArg List.length (pieces_bytes hline hmis')
            have hfull : ¬ (tokens c.bytes).length ≤ 99 := fun hfit =>
              h ⟨fun hb => absurd hb.1 hxne, fun _ => ⟨rfl, hfit⟩⟩
            rw [List.length_map] at hcount
            rw [preprocess_redirect hmis' hred (by omega), hpieces] at ha
            rw [hpieces, List.length_append, List.length_singleton] at hcount
            rw [redirect_middle_full hclean (by omega) hp hx hy hxne hyne] at ha
            cases ha
          · rw [preprocess_inner hline hc hl hr hs hB hxne hyne hlen] at ha
            cases ha
  · have hclean : ∀ w ∈ tokens c.bytes, gt ∉ w := fun w hw h => hgt ((mem_runs hw).2 gt h)
    rw [decide_eq_false hgt, words_plain hgt]
    by_cases hempty : tokens c.bytes = []
    · refine ⟨fun hv => absurd hempty hv.2.1, fun _ arg ha => ?_⟩
      obtain ⟨arg', ha', hv'⟩ := @refused_empty m c hline hgt hempty
      rw [ha] at ha'
      cases ha'
      exact hv'
    · refine ⟨fun _ => ⟨hempty, accepted_plain hline hgt hempty hlen⟩, fun h => absurd ?_ h⟩
      refine ⟨hone, hempty, hlen, fun A w B hsplit => ?_⟩
      have hw : gt ∉ w := hclean w (by rw [hsplit]; simp)
      constructor
      · rintro rfl
        exact absurd (List.mem_singleton_self gt) hw
      · intro hin
        simp [insideWord, hw] at hin

/-- A valid result has its words at the front of the array. -/
theorem valid_accepted (hline : IsLine c) (ha : (preprocess m c).result = some arg)
    (hv : arg.isValid = true) :
    ∃ words, words ≠ [] ∧ Accepted arg words (decide (gt ∈ c.bytes)) := by
  obtain ⟨hyes, hno⟩ := @preprocess_valid m c hline
  by_cases hvalid : Valid c.bytes
  · obtain ⟨hne, arg', ha', hacc⟩ := hyes hvalid
    rw [ha] at ha'
    cases ha'
    exact ⟨words c.bytes, hne, hacc⟩
  · rw [hno hvalid arg ha] at hv
    cases hv

/-! ## A command -/

/-- What a command with these words does to the bindings. -/
def commandEffect (ts : List CString) (bs : List (CString × CString)) : List (CString × CString) :=
  match ts with
  | [] => bs
  | name :: _ =>
      if name = unAliasWord then unAliasEffect ts bs
      else if name = aliasWord then aliasEffect ts bs
      else bs

/-- How often a command with these words writes to `memList`, in the shell itself. -/
def commandStores (ts : List CString) : Nat :=
  match ts with
  | [] => 0
  | name :: _ => if name = aliasWord then aliasStores ts else 0

variable {name : CString} {args : List CString} {reply : Reply}

/-- Only `exit` ends the shell, and only the other words that are not built in start a
child. -/
theorem executeCommand_spec (h : m.Lists bs) (hf : Filled arg (name :: args)) (reply : Reply) :
    ∃ m', executeCommand m arg reply =
        { mysh := m', ended := decide (name = exitWord)
          child := if reserved name ∨ reply.forks = false then none else runChild m arg reply } ∧
      m'.Lists (commandEffect (name :: args) bs) ∧
      m'.tracking = (Mysh.trackTimes (commandStores (name :: args)) m).tracking := by
  have hname : arg.argv.getD 0 none = some name := hf.getD (by simp)
  rw [executeCommand, hname]
  simp only [CString.strcmp_eq_zero, commandEffect, commandStores]
  by_cases hexit : name = exitWord
  · have hres : reserved name := Or.inr (Or.inr hexit)
    have hun : exitWord ≠ unAliasWord := by decide
    have hal : exitWord ≠ aliasWord := by decide
    subst hexit
    refine ⟨m, ?_, ?_, ?_⟩
    · simp [hres]
    · rw [if_neg hun, if_neg hal]
      exact h
    · rw [if_neg hal]
      rfl
  · rw [if_neg hexit]
    by_cases hun : name = unAliasWord
    · have hres : reserved name := Or.inl hun
      have hal : unAliasWord ≠ aliasWord := by decide
      obtain ⟨m', hrun, hl, htrack⟩ := executeunAlias_spec h hf
      refine ⟨m', ?_, ?_, ?_⟩
      · simp only [if_pos hun, hrun, hexit, decide_false, hres, true_or, if_true]
      · rw [if_pos hun]
        exact hl
      · rw [if_neg (by rw [hun]; exact hal)]
        exact htrack
    · rw [if_neg hun]
      by_cases hal : name = aliasWord
      · have hres : reserved name := Or.inr (Or.inl hal)
        obtain ⟨m', hrun, hl, htrack⟩ := executeAlias_spec h hf (by simp)
        refine ⟨m', ?_, ?_, ?_⟩
        · simp only [if_pos hal, hrun, hexit, decide_false, hres, true_or, if_true]
        · rw [if_neg hun, if_pos hal]
          exact hl
        · rw [if_pos hal]
          exact htrack
      · have hres : ¬ reserved name := by
          rintro (h' | h' | h')
          · exact hun h'
          · exact hal h'
          · exact hexit h'
        rw [if_neg hal, if_neg hun, if_neg hal]
        cases hforks : reply.forks with
        | false =>
            refine ⟨m.write (.text 1 "mysh: fork failed\n"), ?_, h.write _, ?_⟩
            · simp [hexit]
            · rw [if_neg hal]
              rfl
        | true =>
            refine ⟨m, ?_, h, ?_⟩
            · simp [hexit, hres]
            · rw [if_neg hal]
              rfl

end CS537.Shell
