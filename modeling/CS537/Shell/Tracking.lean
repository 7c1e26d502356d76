import CS537.Shell.AliasUse
import CS537.Shell.Framing

/-!
# Shell — the log of allocations

`memList` has room for 99999 entries and `numFreePtr` only grows. How much a line adds is
said here in terms of its tokens and of the alias list; from that, exactly which sessions
write inside the array.
-/

namespace CS537.Shell

open Runs Bindings

/-! ## The counter -/

/-- The entries of `memList`. -/
def memListSize : Nat := 99999

/-- `memList` was written from its first entry on. -/
def Mysh.Logged (m : Mysh) : Prop := m.stores = List.range m.numFreePtr

/-- Every write was inside the array. -/
def Mysh.InBounds (m : Mysh) : Prop := ∀ i ∈ m.stores, i < memListSize

theorem Mysh.Logged.bounded_iff {m : Mysh} (h : m.Logged) :
    m.InBounds ↔ m.numFreePtr ≤ memListSize := by
  rw [InBounds, h]
  constructor
  · intro hall
    by_contra hgt
    have := hall memListSize (List.mem_range.mpr (by omega))
    omega
  · intro hle i hi
    have := List.mem_range.mp hi
    omega

/-- What `n` stores make of the counter and the log. -/
theorem Mysh.Logged.advance {m m' : Mysh} (h : m.Logged) {n : Nat}
    (ht : m'.tracking = (Mysh.trackTimes n m).tracking) :
    m'.Logged ∧ m'.numFreePtr = m.numFreePtr + n := by
  induction n generalizing m with
  | zero =>
      simp only [tracking, trackTimes, Prod.mk.injEq] at ht
      exact ⟨by rw [Logged, ht.1, ht.2, h], ht.1⟩
  | succ n ih =>
      have hone : m.track.Logged := by
        simp only [Logged, track, List.range_succ]
        rw [h]
      obtain ⟨hlog, hnum⟩ := ih hone ht
      refine ⟨hlog, ?_⟩
      rw [hnum]
      simp only [track]
      omega

theorem Mysh.tracking_trackTimes_congr {m m' : Mysh} (h : m.tracking = m'.tracking) (n : Nat) :
    (trackTimes n m).tracking = (trackTimes n m').tracking := by
  induction n generalizing m m' with
  | zero => exact h
  | succ n ih =>
      apply ih
      simp only [tracking, Prod.mk.injEq] at h
      simp only [tracking, track, h.1, h.2]

theorem Mysh.trackTimes_add (n k : Nat) (m : Mysh) :
    trackTimes n (trackTimes k m) = trackTimes (k + n) m := by
  induction k generalizing m with
  | zero => rw [Nat.zero_add]; rfl
  | succ k ih =>
      rw [Nat.succ_add]
      exact ih m.track

/-! ## The stores of the parser -/

/-- How often the parser writes to `memList` for a line: once for the array; but for a
second `>`, once for the copy of the line and once for each token; and once more for a
token that is cut at the `>`, if the tokens fit the array. -/
noncomputable def parseStores (line : List UInt8) : Nat :=
  if 2 ≤ line.count gt then 1
  else 2 + (tokens line).length +
    if (tokens line).length ≤ 100 ∧ (tokens line).any insideWord then 1 else 0

/-- The stores of the rewriting. -/
def Redirected.stores : Redirected → Nat
  | .crashed stores => stores
  | .misformatted stores => stores
  | .parsed _ _ stores => stores

/-- The stores of the rewriting around the token with the `>`. -/
theorem redirect_stores {P Q : List CString} {p : CString} (hP : Clean P) (hQ : Clean Q)
    (hlen : (P ++ p :: Q).length ≤ 100) {x y : List UInt8} (hp : p.bytes = x ++ gt :: y)
    (hx : gt ∉ x) (hy : gt ∉ y) :
    (redirect (argvOf (P ++ p :: Q)) (P ++ p :: Q).length).stores =
      if x ≠ [] ∧ y ≠ [] then 1 else 0 := by
  by_cases hxne : x = []
  · rw [if_neg (fun h => h.1 hxne)]
    subst hxne
    by_cases hyne : y = []
    · subst hyne
      have hword : p = gtWord := CString.ext hp
      subst hword
      rw [redirect_alone hP hQ hlen]
      split
      · rfl
      · rfl
    · rw [redirect_leading hP hQ hlen hp hy hyne]
      rfl
  · by_cases hyne : y = []
    · rw [if_neg (fun h => h.2 hyne)]
      subst hyne
      rw [redirect_trailing hP hQ hlen hp hx hxne]
      rfl
    · rw [if_pos ⟨hxne, hyne⟩]
      by_cases hQne : Q = []
      · subst hQne
        by_cases hfull : P.length = 99
        · rw [redirect_middle_full hP hfull hp hx hy hxne hyne]
          rfl
        · have hroom : P.length + 1 < 100 := by
            rw [List.length_append, List.length_singleton] at hlen
            omega
          obtain ⟨u, v, _, _, hred⟩ := redirect_middle_last hP hroom hp hx hy hxne hyne
          rw [hred]
          rfl
      · rw [redirect_middle_inner hP hQ hQne hlen hp hx hy hxne hyne]
        rfl

variable {m : Mysh} {c : CString} {bs : List (CString × CString)} {arg : ArgumentPck}
  {reply : Reply}

/-- The stores of the parser, by its own tokens. -/
theorem preprocess_tracking_pieces (m : Mysh) (c : CString) :
    (preprocess m c).mysh.tracking = (Mysh.trackTimes
      (if (scan c.bytes).misformatted = true then 1
        else 2 + (pieces (scan c.bytes).command).length +
          if (pieces (scan c.bytes).command).length ≤ 100 ∧ (scan c.bytes).isRedir = true then
            (redirect (argvOf (pieces (scan c.bytes).command))
              (pieces (scan c.bytes).command).length).stores
          else 0) m).tracking := by
  have hstore := storePieces_newArgv (pieces (scan c.bytes).command)
  rw [preprocess]
  simp only
  generalize hm₁ : (if c.bytes.length = 0 then m.track.write (.text 1 "\nmysh> ") else m.track) = m₁
  have hone : m₁.tracking = m.track.tracking := by
    rw [← hm₁]
    split
    · rfl
    · rfl
  by_cases hmis : (scan c.bytes).misformatted = true
  · rw [if_pos hmis, if_pos hmis]
    exact hone
  rw [if_neg hmis, if_neg hmis]
  generalize hts : pieces (scan c.bytes).command = ts at hstore ⊢
  rw [pieces] at hts
  rw [hts, hstore]
  have hbase : (Mysh.trackTimes ts.length m₁.track).tracking =
      (Mysh.trackTimes (2 + ts.length) m).tracking := by
    rw [← Mysh.trackTimes_add]
    exact Mysh.tracking_trackTimes_congr (Mysh.tracking_trackTimes_congr hone 1) _
  have hmore : ∀ n, (Mysh.trackTimes n (Mysh.trackTimes ts.length m₁.track)).tracking =
      (Mysh.trackTimes (2 + ts.length + n) m).tracking := by
    intro n
    rw [← Mysh.trackTimes_add]
    exact Mysh.tracking_trackTimes_congr hbase n
  by_cases hlen : ts.length ≤ 100
  · rw [if_pos hlen]
    by_cases hred : (scan c.bytes).isRedir = true
    · simp only [if_pos hred, if_pos (And.intro hlen hred)]
      generalize redirect (argvOf ts) ts.length = redirected
      cases redirected with
      | crashed stores => exact hmore stores
      | misformatted stores => exact hmore stores
      | parsed cmd argc stores => exact hmore stores
    · simp only [if_neg hred, if_neg fun h : ts.length ≤ 100 ∧ _ => hred h.2]
      exact hbase
  · rw [if_neg hlen, if_neg fun h => hlen h.1]
    exact hbase

/-- The stores of the parser, by the tokens of the line. -/
theorem preprocess_tracking (hline : IsLine c) (m : Mysh) :
    (preprocess m c).mysh.tracking = (Mysh.trackTimes (parseStores c.bytes) m).tracking := by
  obtain ⟨hredir, hmisf⟩ := scan_count c.bytes
  rw [preprocess_tracking_pieces, parseStores]
  by_cases hmis : (scan c.bytes).misformatted = true
  · rw [if_pos hmis, if_pos (hmisf.mp hmis)]
  rw [if_neg hmis, if_neg fun h => hmis (hmisf.mpr h)]
  have hbytes := pieces_bytes hline (by simpa using hmis)
  have hcount : (pieces (scan c.bytes).command).length = (tokens c.bytes).length := by
    rw [← hbytes, List.length_map]
  by_cases hgt : gt ∈ c.bytes
  · obtain ⟨l, r, hc, hl⟩ := List.eq_append_cons_of_mem hgt
    have hr : gt ∉ r := by
      intro hr
      apply hmis
      rw [hmisf, hc, List.count_append, List.count_cons_self]
      have := List.count_pos_iff.mpr hr
      omega
    obtain ⟨A, B, x, y, hs⟩ := exists_sides l r
    obtain ⟨_, hred, P, p, Q, hpieces, hP, hp, hQ, hPc, hQc⟩ := pieces_sides hline hc hl hr hs
    have hx : gt ∉ x := fun h => hl (hs.memLeft gt h)
    have hy : gt ∉ y := fun h => hr (hs.memRight gt h)
    have hinside : (tokens c.bytes).any insideWord = true ↔ x ≠ [] ∧ y ≠ [] := by
      have hclean : ∀ ws : List (List UInt8), (∀ w ∈ ws, gt ∉ w) → ws.any insideWord = false := by
        intro ws hws
        rw [List.any_eq_false]
        intro w hw
        simp [insideWord, hws w hw]
      rw [hc, hs.line, List.any_append, List.any_cons,
        hclean A fun w hw h => hl (hs.cleanLeft w hw gt h),
        hclean B fun w hw h => hr (hs.cleanRight w hw gt h), insideWord_eq hx hy]
      simp
    rw [hcount]
    by_cases hlen : (tokens c.bytes).length ≤ 100
    · rw [if_pos ⟨hlen, hred⟩]
      rw [hpieces] at hcount ⊢
      have hstores := redirect_stores hPc hQc (by omega) hp hx hy
      rw [hcount] at hstores
      rw [hstores]
      by_cases hin : x ≠ [] ∧ y ≠ []
      · rw [if_pos hin, if_pos ⟨hlen, hinside.mpr hin⟩]
      · rw [if_neg hin, if_neg fun h => hin (hinside.mp h.2)]
    · rw [if_neg fun h => hlen h.1, if_neg fun h => hlen h.1]
  · have hplain := (scan_plain hgt).2
    have hno : (tokens c.bytes).any insideWord = false := by
      rw [List.any_eq_false]
      intro w hw
      have hnot : gt ∉ w := fun h => hgt ((mem_runs hw).2 gt h)
      simp [insideWord, hnot]
    rw [hcount, hplain, hno]
    simp

/-! ## The stores of a line -/

/-- The words that name no alias. -/
def reservedBytes (w : List UInt8) : Prop :=
  w = unAliasWord.bytes ∨ w = aliasWord.bytes ∨ w = exitWord.bytes

instance (w : List UInt8) : Decidable (reservedBytes w) := inferInstanceAs (Decidable (_ ∨ _))

/-- The words of an `alias` that defines one: the joined words are two entries of `memList`,
the node is one. -/
def aliasPuts : List (List UInt8) → Nat
  | first :: name :: _ :: _ => if first = aliasWord.bytes ∧ ¬ reservedBytes name then 3 else 0
  | _ => 0

open Classical in
/-- How often a line writes to `memList` in the shell itself. -/
noncomputable def lineStores (line : List UInt8) : Nat :=
  parseStores line + if Valid line then aliasPuts (words line) else 0

/-- The value of an alias. -/
def Mysh.aliased (m : Mysh) (name : CString) : Option CString :=
  (m.detectAlias (some name)).bind Prod.snd

/-- How often a child of these words writes to its own `memList`: it parses the value of the
alias they begin with, unless the file of a redirection is the only word or does not
open. -/
noncomputable def aliasedStores (m : Mysh) (redir : Bool) (reply : Reply) :
    List (List UInt8) → Nat
  | [] => 0
  | name :: args =>
      if reservedBytes name then 0
      else if redir = true ∧
          (args = [] ∨ reply.opens (.ofBuffer ((name :: args).getLastD [])) = false) then 0
      else
        match m.aliased (.ofBuffer name) with
        | some value => parseStores value.bytes
        | none => 0

open Classical in
/-- How often the child of a line writes to `memList`. -/
noncomputable def childStores (m : Mysh) (line : List UInt8) (reply : Reply) : Nat :=
  if Valid line ∧ reply.forks = true then
    aliasedStores m (decide (gt ∈ line)) reply (words line)
  else 0

theorem bytes_inj {a b : CString} : a.bytes = b.bytes ↔ a = b :=
  ⟨CString.ext, congrArg CString.bytes⟩

theorem reserved_iff {name : CString} : reserved name ↔ reservedBytes name.bytes := by
  simp only [reserved, reservedBytes, bytes_inj]

theorem commandStores_eq (ts : List CString) :
    commandStores ts = aliasPuts (ts.map CString.bytes) := by
  match ts with
  | [] => rfl
  | [first] =>
      rw [commandStores]
      split
      · rfl
      · rfl
  | [first, name] =>
      rw [commandStores]
      split
      · rfl
      · rfl
  | first :: name :: value :: ts =>
      simp only [commandStores, aliasStores, List.map_cons, aliasPuts, bytes_inj, ← reserved_iff]
      by_cases hfirst : first = aliasWord
      · by_cases hname : reserved name
        · simp [hfirst, hname]
        · simp [hfirst, hname]
      · simp [hfirst]

theorem aliased_eq (h : m.Lists bs) (name : CString) : m.aliased name = bs.lookup name := by
  obtain ⟨m', hd, -⟩ := m.detectAlias_spec h name
  rw [Mysh.aliased, hd]
  rfl

/-! ## The child -/

/-- No value of an alias has a newline. -/
def Plain (bs : List (CString × CString)) : Prop := ∀ b ∈ bs, newline ∉ b.2.bytes

theorem Plain.lookup (h : Plain bs) {name value : CString} (hlook : bs.lookup name = some value) :
    IsLine value := by
  intro hm
  obtain ⟨xs, ys, rfl, _⟩ := List.lookup_eq_some_iff.mp hlook
  exact h (name, value) (List.mem_append_right xs List.mem_cons_self) (List.dropLast_subset _ hm)

/-- The part of the child that looks for an alias. -/
theorem execAlias_tracking (h : m.Lists bs) (hplain : Plain bs) {name : CString}
    (hname : arg.argv.getD 0 none = some name) :
    ∃ child, execAlias m arg = some child ∧ child.mysh.tracking =
      (Mysh.trackTimes (match bs.lookup name with
        | some value => parseStores value.bytes
        | none => 0) m).tracking := by
  obtain ⟨m', hd, _, hlog, _⟩ := m.detectAlias_spec h name
  have htrack : m'.tracking = m.tracking := Mysh.tracking_of_log hlog
  rw [execAlias, hname, hd]
  cases hlook : bs.lookup name with
  | none => exact ⟨_, rfl, htrack⟩
  | some value =>
      refine ⟨_, rfl, ?_⟩
      change (preprocess m' value).mysh.tracking = _
      rw [preprocess_tracking (hplain.lookup hlook)]
      exact Mysh.tracking_trackTimes_congr htrack _

/-- The child of a command. -/
theorem runChild_tracking (h : m.Lists bs) (hplain : Plain bs) {name : CString}
    {args : List CString} (hf : Filled arg (name :: args)) (hres : ¬ reserved name) :
    ∃ child, runChild m arg reply = some child ∧ child.mysh.tracking =
      (Mysh.trackTimes (aliasedStores m arg.isRedir reply
        ((name :: args).map CString.bytes)) m).tracking := by
  have hname : arg.argv.getD 0 none = some name := hf.getD (by simp)
  have hofBuffer : ∀ t : CString, CString.ofBuffer t.bytes = t := fun t =>
    CString.ext (CString.ofBuffer_bytes t.noNul)
  obtain ⟨child, hexec, htrack⟩ := execAlias_tracking h hplain hname
  rw [runChild, List.map_cons, aliasedStores, if_neg (fun hr => hres (reserved_iff.mpr hr)),
    hofBuffer, aliased_eq h]
  by_cases hredir : arg.isRedir = true
  · rw [if_pos hredir]
    -- the file is the last word
    have hlast : arg.argv.getD (arg.argc - 1) none = some ((name :: args).getLast (by simp)) := by
      have hi : arg.argc - 1 < (name :: args).length := by
        rw [hf.argc, List.length_cons]
        omega
      rw [hf.getD hi, List.getLast_eq_getElem]
      simp only [hf.argc]
    have hfile : CString.ofBuffer ((name.bytes :: args.map CString.bytes).getLastD []) =
        (name :: args).getLast (by simp) := by
      rw [← List.map_cons, List.getLastD_eq_getLast?, List.getLast?_map,
        List.getLast?_eq_some_getLast (by simp)]
      exact hofBuffer _
    simp only [hlast, hfile]
    by_cases hopens : reply.opens ((name :: args).getLast (by simp)) = true
    · rw [if_pos hopens]
      by_cases hargs : args = []
      · subst hargs
        rw [if_pos ⟨hredir, .inl rfl⟩]
        have hnone : ({ arg with argv := arg.argv.set (arg.argc - 1) none } : ArgumentPck).argv.getD
            0 none = none := by
          have hargc : arg.argc - 1 = 0 := by rw [hf.argc]; rfl
          simp only [hargc]
          cases arg.argv with
          | nil => rfl
          | cons a as => rfl
        rw [execAlias, hnone]
        exact ⟨_, rfl, rfl⟩
      · have hfirst : ({ arg with argv := arg.argv.set (arg.argc - 1) none } : ArgumentPck).argv.getD
            0 none = some name := by
          have hpos := List.length_pos_of_ne_nil hargs
          have hargc : arg.argc - 1 ≠ 0 := by
            rw [hf.argc, List.length_cons]
            omega
          rw [← hname]
          simp only [List.getD_eq_getElem?_getD, List.getElem?_set_ne hargc]
        rw [if_neg]
        · exact execAlias_tracking h hplain hfirst
        · intro hquiet
          rcases hquiet.2 with h0 | h0
          · exact hargs (List.map_eq_nil_iff.mp h0)
          · rw [hopens] at h0
            cases h0
    · rw [if_neg hopens, if_pos ⟨hredir, .inr (by simpa using hopens)⟩]
      exact ⟨_, rfl, rfl⟩
  · rw [if_neg hredir, if_neg fun hr => hredir hr.1]
    exact ⟨child, hexec, htrack⟩

theorem aliasedStores_congr {m' : Mysh} (h : m.Lists bs) (h' : m'.Lists bs) (redir : Bool)
    (reply : Reply) (ws : List (List UInt8)) :
    aliasedStores m' redir reply ws = aliasedStores m redir reply ws := by
  cases ws with
  | nil => rfl
  | cons name args => rw [aliasedStores, aliasedStores, aliased_eq h, aliased_eq h']

/-! ## A line -/

theorem newline_not_mem_words {line w : List UInt8} (hw : w ∈ words line) : newline ∉ w := by
  intro hm
  have := (mem_runs hw).1 newline hm
  cases this

theorem newline_not_mem_joined {ts : List CString} (hts : ∀ t ∈ ts, newline ∉ t.bytes) :
    newline ∉ (joined ts).bytes := by
  intro hm
  rw [joined_bytes] at hm
  rcases mem_intercalate hm with h | ⟨w, hw, hb⟩
  · cases h
  · obtain ⟨t, ht, rfl⟩ := List.mem_map.mp hw
    exact hts t ht hb

theorem Plain.commandEffect {ts : List CString} (h : Plain bs)
    (hts : ∀ t ∈ ts, newline ∉ t.bytes) : Plain (commandEffect ts bs) := by
  have hremove : ∀ name, Plain (remove name bs) := fun name b hb =>
    h b (List.mem_of_mem_filter hb)
  unfold Shell.commandEffect
  split
  · exact h
  rename_i name args
  split
  · unfold unAliasEffect
    split
    · exact hremove _
    · exact h
  split
  · unfold aliasEffect
    split
    · rename_i word value values heq
      split
      · exact h
      · intro b hb
        rcases List.mem_append.mp hb with hb | hb
        · exact hremove _ b hb
        · obtain rfl := List.mem_singleton.mp hb
          apply newline_not_mem_joined
          intro t ht
          apply hts t
          rw [heq]
          exact List.mem_cons_of_mem _ (List.mem_cons_of_mem _ ht)
    · exact h
  · exact h

/-- What a line writes to `memList`, and what its child does. -/
theorem runLine_tracking (h : m.Lists bs) (hplain : Plain bs) (hline : IsLine c)
    (reply : Reply) :
    (∃ bs', (runLine m c reply).mysh.Lists bs' ∧ Plain bs') ∧
      (runLine m c reply).mysh.tracking = (Mysh.trackTimes (lineStores c.bytes) m).tracking ∧
      (∀ child, (runLine m c reply).child = some child → child.mysh.tracking =
        (Mysh.trackTimes (lineStores c.bytes + childStores m c.bytes reply) m).tracking) ∧
      ((runLine m c reply).child = none → childStores m c.bytes reply = 0) := by
  have hp := h.preprocess c
  have htrack := preprocess_tracking hline m
  obtain ⟨hyes, hno⟩ := @preprocess_valid m c hline
  rw [runLine, lineStores, childStores]
  by_cases hvalid : Valid c.bytes
  · obtain ⟨hne, arg, ha, hacc⟩ := hyes hvalid
    obtain ⟨ts, hts, hf⟩ := hacc.filled
    cases ts with
    | nil => exact absurd hts.symm hne
    | cons name args =>
        obtain ⟨m', hexec, hl, htrack'⟩ := executeCommand_spec hp hf reply
        simp only [ha, hacc.valid, if_true, hexec, if_pos hvalid]
        have hstores : m'.tracking =
            (Mysh.trackTimes (parseStores c.bytes + aliasPuts (words c.bytes)) m).tracking := by
          rw [htrack', commandStores_eq, hts, Mysh.tracking_trackTimes_congr htrack,
            Mysh.trackTimes_add]
        refine ⟨⟨_, hl, hplain.commandEffect ?_⟩, hstores, ?_, ?_⟩
        · intro t ht
          exact newline_not_mem_words (hts ▸ List.mem_map_of_mem ht)
        · intro child hchild
          split at hchild
          · cases hchild
          rename_i hruns
          rw [not_or] at hruns
          have hforks : reply.forks = true := by simpa using hruns.2
          have hquiet : aliasPuts (words c.bytes) = 0 := by
            rw [← hts, ← commandStores_eq, commandStores]
            exact if_neg fun hal => hruns.1 (.inr (.inl hal))
          obtain ⟨child', hrun, hctrack⟩ :=
            @runChild_tracking (preprocess m c).mysh bs arg reply hp hplain name args hf hruns.1
          rw [hrun] at hchild
          cases hchild
          rw [hctrack, hts, hacc.redir, aliasedStores_congr h hp, if_pos ⟨hvalid, hforks⟩, hquiet,
            Nat.add_zero, ← Mysh.trackTimes_add]
          exact Mysh.tracking_trackTimes_congr htrack _
        · intro hnone
          split at hnone
          · rename_i hquiet
            rcases hquiet with hres | hforks
            · rw [← hts, List.map_cons, aliasedStores, if_pos (reserved_iff.mp hres)]
              split
              · rfl
              · rfl
            · rw [if_neg]
              rw [hforks]
              simp
          · rename_i hruns
            rw [not_or] at hruns
            obtain ⟨child', hrun, _⟩ :=
              @runChild_tracking (preprocess m c).mysh bs arg reply hp hplain name args hf hruns.1
            rw [hrun] at hnone
            cases hnone
  · -- the line is refused, or the parser ends the shell
    rw [if_neg hvalid, Nat.add_zero, if_neg fun hv => hvalid hv.1]
    cases ha : (preprocess m c).result with
    | none => exact ⟨⟨bs, hp, hplain⟩, htrack, fun _ hn => (by cases hn), fun _ => rfl⟩
    | some arg =>
        simp only [hno hvalid arg ha, Bool.false_eq_true, if_false]
        exact ⟨⟨bs, hp, hplain⟩, htrack, fun _ hn => (by cases hn), fun _ => trivial⟩

/-! ## A session -/

/-- Every write of the shell and of its children was inside the array. -/
def Session.InBounds (s : Session) : Prop :=
  s.mysh.InBounds ∧ ∀ child ∈ s.children, child.mysh.InBounds

/-- The counter leaves room for what the chunk adds, in the shell and in its child. -/
def Affords (mode : Mode) (reply : Reply) (chunk : List UInt8) (s : Session) : Prop :=
  hands mode chunk = true →
    s.mysh.numFreePtr + lineStores (CString.ofBuffer chunk).bytes +
      childStores s.mysh (CString.ofBuffer chunk).bytes reply ≤ memListSize

/-- There is room at every chunk the shell comes to. -/
def Affordable (mode : Mode) (replies : Nat → Reply) : List (Nat × List UInt8) → Session → Prop
  | [], _ => True
  | c :: cs, s => s.ended = false →
      Affords mode (replies c.1) c.2 s ∧ Affordable mode replies cs (promptedRound mode replies s c)

/-- The logs and the alias list between two chunks. -/
structure Session.Kept (s : Session) : Prop where
  logged : s.mysh.Logged
  children : ∀ child ∈ s.children, child.mysh.Logged
  lists : ∃ bs, s.mysh.Lists bs ∧ Plain bs

theorem Session.Kept.start : Session.start.Kept where
  logged := rfl
  children := fun _ h => by cases h
  lists := ⟨[], lists_start, fun _ h => by cases h⟩

variable {mode : Mode} {s : Session} {chunk : List UInt8}

/-- A line keeps the logs, and is in bounds as far as there is room. -/
theorem Session.Kept.hand (h : s.Kept) (hline : IsLine c) (reply : Reply) (off : Nat) :
    (s.hand reply off c).Kept ∧ ((s.hand reply off c).InBounds ↔ s.InBounds ∧
      s.mysh.numFreePtr + lineStores c.bytes + childStores s.mysh c.bytes reply ≤
        memListSize) := by
  obtain ⟨bs, hbs, hplain⟩ := h.lists
  obtain ⟨hlists, htrack, hchild, hnone⟩ := runLine_tracking hbs hplain hline reply
  obtain ⟨hlog, hnum⟩ := h.logged.advance htrack
  have hkept : ∀ child ∈ (s.hand reply off c).children, child.mysh.Logged := by
    intro child hmem
    rcases List.mem_append.mp hmem with hmem | hmem
    · exact h.children child hmem
    · exact (h.logged.advance (hchild child (Option.mem_toList.mp hmem))).1
  refine ⟨⟨hlog, hkept, hlists⟩, ?_⟩
  have hmysh : (s.hand reply off c).mysh.InBounds ↔
      s.mysh.numFreePtr + lineStores c.bytes ≤ memListSize := by
    rw [← hnum]
    exact hlog.bounded_iff
  rw [Session.InBounds, hmysh]
  constructor
  · intro ⟨hroom, hall⟩
    refine ⟨⟨h.logged.bounded_iff.mpr (by omega), fun child hmem => ?_⟩, ?_⟩
    · exact hall child (List.mem_append_left _ hmem)
    · cases hstep : (runLine s.mysh c reply).child with
      | none =>
          rw [hnone hstep]
          exact hroom
      | some child =>
          have hmem : child ∈ (s.hand reply off c).children :=
            List.mem_append_right _ (Option.mem_toList.mpr hstep)
          obtain ⟨hclog, hcnum⟩ := h.logged.advance (hchild child hstep)
          have := hclog.bounded_iff.mp (hall child hmem)
          omega
  · intro ⟨⟨_, hall⟩, hroom⟩
    refine ⟨by omega, fun child hmem => ?_⟩
    rcases List.mem_append.mp hmem with hmem | hmem
    · exact hall child hmem
    · obtain ⟨hclog, hcnum⟩ := h.logged.advance (hchild child (Option.mem_toList.mp hmem))
      exact hclog.bounded_iff.mpr (by omega)

theorem childStores_write (h : s.Kept) (w : Written) (line : List UInt8) (reply : Reply) :
    childStores (s.mysh.write w) line reply = childStores s.mysh line reply := by
  obtain ⟨bs, hbs, _⟩ := h.lists
  rw [childStores, childStores, aliasedStores_congr hbs (hbs.write w)]

theorem Session.Kept.write (h : s.Kept) (w : Written) :
    ({ s with mysh := s.mysh.write w } : Session).Kept := by
  obtain ⟨bs, hbs, hplain⟩ := h.lists
  exact ⟨h.logged, h.children, bs, hbs.write w, hplain⟩

/-- A chunk that is no longer than a line. -/
theorem Session.Kept.round (h : s.Kept) (hlen : chunk.length ≤ 511)
    (hline : IsLine (CString.ofBuffer chunk)) (reply : Reply) (off : Nat) :
    (round mode reply off chunk s).Kept ∧
      ((round mode reply off chunk s).InBounds ↔ s.InBounds ∧ Affords mode reply chunk s) := by
  have hfit : ¬ (CString.ofBuffer chunk).bytes.length > 511 := by
    have := ofBuffer_length_le chunk
    omega
  cases mode with
  | interactive =>
      simp only [Shell.round, if_neg hfit, ne_eq, CString.strcmp_eq_zero]
      by_cases hword : CString.ofBuffer chunk = newlineWord
      · simp [hword, Affords, hands, h]
      · simp only [hword, not_false_eq_true, if_true, Affords, hands, ne_eq, decide_true,
          true_imp_iff]
        exact h.hand hline reply off
  | batch =>
      have hecho := h.write (.echo (CString.ofBuffer chunk))
      simp only [Shell.round]
      by_cases hshort : (CString.ofBuffer chunk).bytes.length < 511
      · simp only [hshort, if_true, Affords, hands, decide_true, true_imp_iff]
        rw [← childStores_write h (.echo (CString.ofBuffer chunk))]
        exact hecho.hand hline reply off
      · simp only [hshort, if_false, Affords, hands, decide_false, Bool.false_eq_true,
          false_imp_iff, and_true]
        exact ⟨hecho, Iff.rfl⟩

/-- The sessions whose chunks are all afforded are in bounds. -/
theorem foldl_inBounds (mode : Mode) (replies : Nat → Reply) : ∀ (cs : List (Nat × List UInt8))
    (s : Session), s.Kept → (∀ d ∈ cs, d.2.length ≤ 511 ∧ IsLine (CString.ofBuffer d.2)) →
    ((cs.foldl (promptedRound mode replies) s).InBounds ↔
      s.InBounds ∧ Affordable mode replies cs s)
  | [], s, _, _ => by simp [Affordable]
  | d :: cs, s, h, hcs => by
      obtain ⟨hlen, hline⟩ := hcs d List.mem_cons_self
      rw [List.foldl_cons]
      by_cases hended : s.ended = true
      · have hstay : promptedRound mode replies s d = s := by rw [promptedRound, if_pos hended]
        rw [hstay, foldl_ended hended, Affordable]
        simp [hended]
      · have hs : s.ended = false := by simpa using hended
        let s₀ := if mode = .interactive then s.prompt else s
        have hprompt : s₀.Kept ∧ (s₀.InBounds ↔ s.InBounds) ∧
            (Affords mode (replies d.1) d.2 s₀ ↔ Affords mode (replies d.1) d.2 s) := by
          simp only [s₀]
          split
          · refine ⟨h.write _, Iff.rfl, ?_⟩
            rw [Affords, Affords, Session.prompt, childStores_write h]
            rfl
          · exact ⟨h, Iff.rfl, Iff.rfl⟩
        have hstep : promptedRound mode replies s d = round mode (replies d.1) d.1 d.2 s₀ := by
          rw [promptedRound, if_neg hended]
        obtain ⟨hkept, hround⟩ :=
          @Session.Kept.round mode s₀ d.2 hprompt.1 hlen hline (replies d.1) d.1
        rw [foldl_inBounds mode replies cs _ (by rw [hstep]; exact hkept) fun e he =>
          hcs e (List.mem_cons_of_mem d he), hstep, hround, hprompt.2.1, hprompt.2.2, ← hstep,
          Affordable, and_assoc]
        simp [hs]

theorem isLine_ofBuffer {l : List UInt8} (h : newline ∉ l.dropLast) : IsLine (CString.ofBuffer l) := by
  intro hm
  apply h
  obtain ⟨rest, hrest⟩ : (CString.ofBuffer l).bytes <+: l := List.takeWhile_prefix _
  rw [← hrest]
  rcases List.eq_nil_or_concat' rest with rfl | ⟨t, b, rfl⟩
  · rwa [List.append_nil]
  · rw [← List.append_assoc, List.dropLast_concat]
    exact List.mem_append_left t (List.dropLast_subset _ hm)

theorem session_inBounds (mode : Mode) (replies : Nat → Reply) (stream : List UInt8) :
    (session mode replies stream).InBounds ↔
      ((Fgets.chunks newline 512 (stream.length + 1) 0 stream).foldl (promptedRound mode replies)
        .start).InBounds := by
  obtain ⟨hstores, _, hchildren, _⟩ :=
    mainLoop_eq mode replies (stream.length + 1) 0 stream .start rfl
  unfold session Session.InBounds Mysh.InBounds
  rw [hstores, hchildren]

/-- **The allocation log**: the session writes inside the array exactly when there is room at
every chunk it comes to. -/
theorem inBounds_iff (mode : Mode) (replies : Nat → Reply) (stream : List UInt8) :
    (session mode replies stream).InBounds ↔
      Affordable mode replies (Fgets.chunks newline 512 (stream.length + 1) 0 stream) .start := by
  have hchunks : ∀ d ∈ Fgets.chunks newline 512 (stream.length + 1) 0 stream,
      d.2.length ≤ 511 ∧ IsLine (CString.ofBuffer d.2) := by
    intro d hd
    obtain ⟨hlen, hline⟩ := Fgets.mem_chunks hd
    exact ⟨hlen, isLine_ofBuffer hline⟩
  have hstart : Session.start.InBounds :=
    ⟨fun _ h => (by cases h), fun _ h => (by cases h)⟩
  rw [session_inBounds, foldl_inBounds mode replies _ _ .start hchunks]
  exact and_iff_right hstart

/-! ## A session that is too long -/

/-- A command of one letter. -/
def letterLine : List UInt8 := [97, newline]

theorem lineStores_letter : lineStores letterLine = 3 := by
  have htok : tokens letterLine = [[97]] := by
    have hline : newline ∉ (CString.ofBuffer letterLine).bytes.dropLast := by decide
    have h := @pieces_bytes (CString.ofBuffer letterLine) hline (by decide)
    exact h.symm.trans (by decide)
  have hwords : words letterLine = [[97]] := (words_plain (by decide)).trans htok
  have hparse : parseStores letterLine = 3 := by
    rw [parseStores, htok]
    decide
  rw [lineStores, hparse, hwords]
  simp [aliasPuts]

/-- No child is started. -/
def noFork : Reply := ⟨false, fun _ => false⟩

theorem runLine_letter (m : Mysh) : (runLine m (.ofBuffer letterLine) noFork).ended = false := by
  have hres : (preprocess m (.ofBuffer letterLine)).result =
      some (finish (argvOf [.ofBuffer [97]]) 1 false) := by
    rw [preprocess_result_congr m .start]
    decide
  rw [runLine, hres]
  rfl

/-- Each of these lines adds three entries. -/
theorem foldl_letters (offs : List Nat) : ∀ s : Session, s.Kept → s.ended = false →
    ((offs.map fun off => (off, letterLine)).foldl (promptedRound .interactive fun _ => noFork)
      s).mysh.Logged ∧
    ((offs.map fun off => (off, letterLine)).foldl (promptedRound .interactive fun _ => noFork)
      s).mysh.numFreePtr = s.mysh.numFreePtr + 3 * offs.length := by
  induction offs with
  | nil =>
      intro s h _
      exact ⟨h.logged, rfl⟩
  | cons off offs ih =>
      intro s h hended
      have hstep : promptedRound .interactive (fun _ => noFork) s (off, letterLine) =
          s.prompt.hand noFork off (.ofBuffer letterLine) := by
        rw [promptedRound, if_neg (by simp [hended])]
        rfl
      have hprompt : s.prompt.Kept := h.write _
      have hline : IsLine (CString.ofBuffer letterLine) := isLine_ofBuffer (by decide)
      obtain ⟨bs, hbs, hplain⟩ := hprompt.lists
      obtain ⟨_, htrack, _⟩ := runLine_tracking hbs hplain hline noFork
      have hbytes : (CString.ofBuffer letterLine).bytes = letterLine := by decide
      rw [hbytes, lineStores_letter] at htrack
      obtain ⟨_, hnum⟩ := hprompt.logged.advance htrack
      obtain ⟨hlog, hrest⟩ := ih (s.prompt.hand noFork off (.ofBuffer letterLine))
        (hprompt.hand hline noFork off).1 (runLine_letter s.prompt.mysh)
      rw [List.map_cons, List.foldl_cons, hstep]
      refine ⟨hlog, ?_⟩
      rw [hrest, List.length_cons]
      change (runLine s.prompt.mysh _ _).mysh.numFreePtr + _ = _
      rw [hnum]
      change s.mysh.numFreePtr + 3 + _ = _
      omega

/-- A third of the entries and one: so many of these lines run over the array. -/
theorem letters_overrun :
    ¬ (session .interactive (fun _ => noFork) (List.replicate 33334 letterLine).flatten).InBounds := by
  have hline : Fgets.IsLine newline letterLine := ⟨by decide, by decide⟩
  have hends : Fgets.Ends newline letterLine := rfl
  have hchunks : ∀ n off, (Fgets.linesFrom off (List.replicate n letterLine)).flatMap
      (fun l => Fgets.lineChunks newline 512 l.1 l.2) =
        ((List.range n).map fun i => off + 2 * i).map fun off => (off, letterLine) := by
    intro n
    induction n with
    | zero => exact fun _ => rfl
    | succ n ih =>
        intro off
        rw [List.replicate_succ, Fgets.linesFrom, List.flatMap_cons, ih,
          Fgets.lineChunks_short (by decide) hline (by decide), List.range_succ_eq_map]
        simp only [List.map_cons, List.map_map, List.singleton_append, Nat.mul_zero, Nat.add_zero,
          List.cons.injEq, true_and]
        apply List.map_congr_left
        intro i _
        simp only [Function.comp_apply, Prod.mk.injEq, and_true]
        change off + 2 + 2 * i = _
        omega
  have hmem : ∀ l ∈ List.replicate 33334 letterLine, l = letterLine := fun l hl =>
    List.eq_of_mem_replicate hl
  rw [session_inBounds, Fgets.chunks_lines (by decide) _ _ _ (fun l hl => hmem l hl ▸ hline)
    (fun xs l ys h => .inl (hmem l (h ▸ by simp) ▸ hends)) (by omega), hchunks]
  intro hall
  obtain ⟨hin, -⟩ := hall
  obtain ⟨hlog, hnum⟩ := foldl_letters ((List.range 33334).map fun i => 0 + 2 * i) .start .start rfl
  have := hlog.bounded_iff.mp hin
  rw [hnum, List.length_map, List.length_range] at this
  change 0 + 3 * 33334 ≤ 99999 at this
  omega

end CS537.Shell
