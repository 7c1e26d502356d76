import CS537.Shell.Lines

/-!
# Shell — an alias from its definition to its use

The value of an alias is parsed back to the tokens it was joined from, and the child
appends the arguments of the line that uses it. No line but a definition or an `unAlias` of
the name changes the value.
-/

namespace CS537.Shell

open Bindings Runs

/-! ## The value of an alias -/

/-- A word of a line: no blank in it, and not empty. -/
def Word (t : CString) : Prop := Solid blank t.bytes ∧ t.bytes ≠ [] ∧ gt ∉ t.bytes

variable {m : Mysh} {c : CString} {bs : List (CString × CString)} {arg : ArgumentPck}
  {ts as : List CString} {name : CString} {reply : Reply}

/-- The words of a line without a `>`. -/
theorem words_of_tokens (hgt : gt ∉ c.bytes) (hts : ts.map CString.bytes = tokens c.bytes) :
    ∀ t ∈ ts, Word t := by
  intro t ht
  have hmem : t.bytes ∈ tokens c.bytes := hts ▸ List.mem_map_of_mem ht
  obtain ⟨hsolid, hsub⟩ := mem_runs hmem
  exact ⟨hsolid, mem_runs_ne_nil hmem, fun h => hgt (hsub gt h)⟩

theorem tokens_joined (hts : ∀ t ∈ ts, Word t) : tokens (joined ts).bytes = ts.map CString.bytes := by
  rw [joined_bytes, tokens]
  apply runs_intercalate (by decide)
  intro w hw
  obtain ⟨t, ht, rfl⟩ := List.mem_map.mp hw
  exact ⟨(hts t ht).1, (hts t ht).2.1⟩

theorem mem_joined (hts : ∀ t ∈ ts, Word t) {b : UInt8} (hb : b ∈ (joined ts).bytes) :
    b = space ∨ blank b = false ∧ b ≠ gt := by
  rw [joined_bytes] at hb
  rcases mem_intercalate hb with h | ⟨w, hw, hbw⟩
  · exact Or.inl h
  · obtain ⟨t, ht, rfl⟩ := List.mem_map.mp hw
    obtain ⟨hsolid, _, hgt⟩ := hts t ht
    exact Or.inr ⟨hsolid b hbw, ne_of_mem_of_not_mem hbw hgt⟩

theorem joined_gt (hts : ∀ t ∈ ts, Word t) : gt ∉ (joined ts).bytes := by
  intro h
  rcases mem_joined hts h with h | ⟨_, h⟩
  · cases h
  · exact h rfl

theorem joined_newline (hts : ∀ t ∈ ts, Word t) : newline ∉ (joined ts).bytes := by
  intro h
  rcases mem_joined hts h with h | ⟨h, _⟩
  · cases h
  · cases h

theorem joined_isLine (hts : ∀ t ∈ ts, Word t) : IsLine (joined ts) := fun h =>
  joined_newline hts (List.dropLast_subset _ h)

theorem map_bytes_injective : Function.Injective (List.map CString.bytes) :=
  List.map_injective_iff.mpr fun _ _ h => CString.ext h

/-- Parsing the value gives back the tokens. -/
theorem preprocess_joined (hts : ∀ t ∈ ts, Word t) (hlen : ts.length ≤ 100) (m : Mysh) :
    (preprocess m (joined ts)).result = some (finish (argvOf ts) ts.length false) := by
  have htok := tokens_joined hts
  obtain ⟨us, hus, hres⟩ := plain_result (joined_isLine hts) (joined_gt hts)
    (by rw [htok, List.length_map]; exact hlen)
  rw [htok] at hus
  rw [hres m, map_bytes_injective hus]

/-- Parsing the value leaves it as it is. -/
theorem preprocess_joined_command (hts : ∀ t ∈ ts, Word t) (m : Mysh) :
    (preprocess m (joined ts)).command = (joined ts).bytes := by
  have hmis := (scan_plain (joined_gt hts)).1
  have hsame : (preprocess m (joined ts)).command = (scan (joined ts).bytes).command := by
    rw [preprocess]
    simp only
    split
    · rfl
    · split
      · rfl
      · split
        · split
          · rfl
          · rfl
          · rfl
        · rfl
  have hkeep : ∀ b ∈ (joined ts).bytes, rewrite b = b := by
    intro b hb
    rcases mem_joined hts hb with rfl | ⟨h, _⟩
    · decide
    · simp only [blank, Bool.or_eq_false_iff, decide_eq_false_iff_not] at h
      rw [rewrite, if_neg h.1.2, if_neg h.2]
  rw [hsame, scan_command hmis]
  exact (List.map_congr_left hkeep).trans (List.map_id' _)

/-! ## Appending the arguments -/

theorem appendArgs_spec (arg : ArgumentPck) : ∀ (n i : Nat) (a : ArgumentPck),
    a.argc + n ≤ a.argv.length → i + n ≤ arg.argv.length →
    ∃ a', appendArgs arg n i a = some a' ∧
      a'.argv = a.argv.take a.argc ++ (arg.argv.drop i).take n ++ a.argv.drop (a.argc + n)
  | 0, i, a, _, _ => ⟨a, rfl, by simp⟩
  | n + 1, i, a, ha, hi => by
      have hlt : a.argc < a.argv.length := by omega
      have hi' : i < arg.argv.length := by omega
      let a₁ : ArgumentPck :=
        { a with argv := a.argv.set a.argc (arg.argv.getD i none), argc := a.argc + 1 }
      obtain ⟨a', hrun, hargv⟩ := appendArgs_spec arg n (i + 1) a₁
        (by simp only [a₁, List.length_set]; omega) (by omega)
      refine ⟨a', ?_, ?_⟩
      · rw [appendArgs, if_pos ⟨hlt, hi'⟩]
        exact hrun
      · have hentry : arg.argv.getD i none = arg.argv[i] := by
          simp [List.getD, List.getElem?_eq_getElem hi']
        have hfront : (a.argv.set a.argc arg.argv[i]).take (a.argc + 1) =
            a.argv.take a.argc ++ [arg.argv[i]] := by
          rw [List.take_add_one, List.getElem?_set_self hlt, List.take_set_of_le le_rfl]
          rfl
        have hback : (a.argv.set a.argc arg.argv[i]).drop (a.argc + 1 + n) =
            a.argv.drop (a.argc + (n + 1)) := by
          rw [List.drop_set_of_lt (by omega), Nat.add_assoc, Nat.add_comm 1 n]
        rw [hargv]
        simp only [a₁, hentry, hfront, hback]
        rw [List.drop_eq_getElem_cons hi', List.take_succ_cons]
        simp

/-- The child of a line that begins with an alias: the tokens of its value, the arguments, a
pointer that is not set. -/
theorem execAlias_spec (h : m.Lists bs) (hlook : bs.lookup name = some (joined ts))
    (hts : ∀ t ∈ ts, Word t) (hne : ts ≠ []) {rest : List (Option CString)}
    (hargv : arg.argv = (name :: as).map some ++ none :: rest) (hsize : arg.argv.length = 100)
    (hargc : as.length + 1 ≤ arg.argc) (hfit : arg.argc ≤ 99) (hlen : ts.length + arg.argc ≤ 100) :
    ∃ child rest', execAlias m arg = some child ∧
      child.execv = some (ts.head hne, (ts ++ as).map some ++ none :: rest') := by
  obtain ⟨m', hd, -⟩ := m.detectAlias_spec h name
  have hname : arg.argv.getD 0 none = some name := by
    rw [hargv]
    rfl
  have hparse := preprocess_joined hts (by omega) m'
  have hsize' : (argvOf ts).length = 100 := argvOf_length (by omega)
  obtain ⟨aliasArg, hrun, hvector⟩ := appendArgs_spec arg arg.argc 1
    (finish (argvOf ts) ts.length false) (by simp only [finish, hsize']; omega) (by omega)
  -- the arguments end at the first entry that is not set
  have hargs : (arg.argv.drop 1).take arg.argc =
      as.map some ++ none :: rest.take (arg.argc - (as.length + 1)) := by
    rw [hargv, List.map_cons, List.cons_append, List.drop_one, List.tail_cons]
    rw [List.take_append, List.take_of_length_le (by simp; omega), List.length_map]
    obtain ⟨k, hk⟩ : ∃ k, arg.argc - as.length = k + 1 := ⟨arg.argc - as.length - 1, by omega⟩
    rw [hk, List.take_succ_cons, show arg.argc - (as.length + 1) = k by omega]
  have hfront : (argvOf ts).take ts.length = ts.map some := by
    rw [argvOf, List.take_left' (by simp)]
  simp only [finish, hargs, hfront] at hvector
  have hpath : aliasArg.argv.getD 0 none = some (ts.head hne) := by
    rw [hvector]
    cases ts with
    | nil => exact absurd rfl hne
    | cons t ts => rfl
  refine ⟨{ mysh := (preprocess m' (joined ts)).mysh, execv := some (ts.head hne, aliasArg.argv) },
    rest.take (arg.argc - (as.length + 1)) ++ (argvOf ts).drop (ts.length + arg.argc), ?_, ?_⟩
  · rw [execAlias, hname, hd, hlook]
    simp only [hparse, Option.bind_eq_bind, Option.bind_some, hrun, hpath]
    rfl
  · rw [hvector]
    simp

/-! ## The lines in between -/

/-- The lines one after the other, as long as the shell runs. -/
def runLines : Mysh → List (CString × Reply) → Option Mysh
  | m, [] => some m
  | m, (c, reply) :: rest =>
      if (runLine m c reply).ended then none else runLines (runLine m c reply).mysh rest

/-- The line is an `alias` or an `unAlias` of this name. -/
def Names (name : CString) (c : CString) : Prop :=
  ∃ arg, (preprocess .start c).result = some arg ∧ arg.isValid = true ∧
    (arg.argv.getD 0 none = some aliasWord ∨ arg.argv.getD 0 none = some unAliasWord) ∧
    arg.argv.getD 1 none = some name

/-- The words of a command leave the binding of a name they do not define or take back. -/
theorem lookup_commandEffect (hf : Filled arg ts)
    (hnames : ¬ ((arg.argv.getD 0 none = some aliasWord ∨ arg.argv.getD 0 none = some unAliasWord) ∧
      arg.argv.getD 1 none = some name)) (bs : List (CString × CString)) :
    (commandEffect ts bs).lookup name = bs.lookup name := by
  cases ts with
  | nil => rfl
  | cons first args =>
      have hfirst : arg.argv.getD 0 none = some first := hf.getD (by simp)
      have hsecond : (arg.argv.getD 0 none = some aliasWord ∨ arg.argv.getD 0 none = some unAliasWord) →
          (first :: args)[1]? ≠ some name := by
        intro hword hn
        apply hnames
        refine ⟨hword, ?_⟩
        obtain ⟨hlt, hget⟩ := List.getElem?_eq_some_iff.mp hn
        rw [hf.getD hlt, hget]
      rw [commandEffect]
      split
      · rename_i hun
        exact lookup_effect_other ⟨.executeunAlias, arg, first :: args, hf, by simp⟩
          (hsecond (Or.inr (by rw [hfirst, hun]))) bs
      · split
        · rename_i hal
          exact lookup_effect_other ⟨.executeAlias, arg, first :: args, hf, by simp⟩
            (hsecond (Or.inl (by rw [hfirst, hal]))) bs
        · rfl

/-- What the line leaves of the alias list. -/
theorem runLine_lists (h : m.Lists bs) (hline : IsLine c) (reply : Reply) :
    ∃ bs', (runLine m c reply).mysh.Lists bs' ∧
      ∀ name, ¬ Names name c → bs'.lookup name = bs.lookup name := by
  have hp := h.preprocess c
  rw [runLine]
  cases ha : (preprocess m c).result with
  | none => exact ⟨bs, hp, fun _ _ => rfl⟩
  | some arg =>
      by_cases hv : arg.isValid = true
      · simp only [hv, if_true]
        obtain ⟨words, hne, hacc⟩ := valid_accepted hline ha hv
        obtain ⟨ts, rfl, hf⟩ := hacc.filled
        cases ts with
        | nil => exact absurd rfl hne
        | cons first args =>
            obtain ⟨m', hexec, hl, -⟩ := executeCommand_spec hp hf reply
            rw [hexec]
            refine ⟨_, hl, fun name hnames => lookup_commandEffect hf ?_ bs⟩
            intro hboth
            apply hnames
            exact ⟨arg, by rw [preprocess_result_congr .start m, ha], hv, hboth⟩
      · simp only [hv, Bool.false_eq_true, if_false]
        exact ⟨bs, hp, fun _ _ => rfl⟩

theorem runLines_lists : ∀ {m m' : Mysh} {bs : List (CString × CString)}
    (ls : List (CString × Reply)), m.Lists bs → (∀ l ∈ ls, IsLine l.1) → runLines m ls = some m' →
    ∃ bs', m'.Lists bs' ∧ ∀ name, (∀ l ∈ ls, ¬ Names name l.1) → bs'.lookup name = bs.lookup name
  | m, m', bs, [], h, _, hrun => by
      cases hrun
      exact ⟨bs, h, fun _ _ => rfl⟩
  | m, m', bs, (c, reply) :: ls, h, hlines, hrun => by
      rw [runLines] at hrun
      split at hrun
      · cases hrun
      · obtain ⟨bs₁, h₁, hkeep₁⟩ := runLine_lists h (hlines (c, reply) List.mem_cons_self) reply
        obtain ⟨bs₂, h₂, hkeep₂⟩ := runLines_lists ls h₁
          (fun l hl => hlines l (List.mem_cons_of_mem _ hl)) hrun
        refine ⟨bs₂, h₂, fun name hnames => ?_⟩
        rw [hkeep₂ name fun l hl => hnames l (List.mem_cons_of_mem _ hl),
          hkeep₁ name (hnames (c, reply) List.mem_cons_self)]

/-! ## Definition and use -/

/-- The line that defines an alias. -/
theorem runLine_define (h : m.Lists bs) (hline : IsLine c) (hgt : gt ∉ c.bytes)
    (htok : tokens c.bytes = (aliasWord :: name :: ts).map CString.bytes) (hne : ts ≠ [])
    (hres : ¬ reserved name) (hlen : ts.length ≤ 98) (reply : Reply) :
    (runLine m c reply).ended = false ∧
      (runLine m c reply).mysh.Lists (define name (joined ts) bs) := by
  obtain ⟨us, hus, hparse⟩ := plain_result hline hgt (by rw [htok]; simp; omega)
  rw [htok] at hus
  obtain rfl := map_bytes_injective hus
  have hf : Filled (finish (argvOf (aliasWord :: name :: ts)) (aliasWord :: name :: ts).length false)
      (aliasWord :: name :: ts) := ⟨⟨_, rfl⟩, rfl⟩
  obtain ⟨m', hexec, hl, -⟩ := executeCommand_spec (h.preprocess c) hf reply
  have hrun : runLine m c reply = executeCommand (preprocess m c).mysh
      (finish (argvOf (aliasWord :: name :: ts)) (aliasWord :: name :: ts).length false) reply := by
    rw [runLine, hparse m]
    rfl
  rw [hrun, hexec]
  have hexit : aliasWord ≠ exitWord := by decide
  refine ⟨decide_eq_false hexit, ?_⟩
  have hun : aliasWord ≠ unAliasWord := by decide
  rw [commandEffect, if_neg hun, if_pos rfl] at hl
  cases ts with
  | nil => exact absurd rfl hne
  | cons t ts =>
      rw [aliasEffect, if_neg hres] at hl
      exact hl

/-- The words of a line the grammar accepts, with the file after a `>` as the last one. -/
def UseOf (c : CString) (words : List CString) (file : Option CString) : Prop :=
  file.isSome = decide (gt ∈ c.bytes) ∧
    reference c.bytes = some ((words ++ file.toList).map CString.bytes)

/-- The array of a line that uses an alias, as the child sees it. -/
theorem use_argv (hline : IsLine c) {file : Option CString} (huse : UseOf c (name :: as) file)
    (hlen : as.length ≤ 97) (m : Mysh) :
    ∃ arg, (preprocess m c).result = some arg ∧ arg.isValid = true ∧
      Filled arg (name :: as ++ file.toList) ∧ arg.isRedir = file.isSome ∧ arg.argv.length = 100 ∧
      (file = none → ∃ rest, arg.argv = (name :: as).map some ++ none :: rest) := by
  obtain ⟨hfile, hwords⟩ := huse
  cases file with
  | none =>
      have hgt : gt ∉ c.bytes := by simpa using hfile
      rw [reference_plain hgt] at hwords
      split at hwords
      · cases hwords
      · have htok : tokens c.bytes = (name :: as).map CString.bytes := by
          simpa using Option.some.inj hwords
        obtain ⟨us, hus, hparse⟩ := plain_result hline hgt (by rw [htok]; simp; omega)
        rw [htok] at hus
        obtain rfl := map_bytes_injective hus
        have hpad : 100 - (name :: as).length = 98 - as.length + 1 := by
          rw [List.length_cons]
          omega
        have hargv : argvOf (name :: as) =
            (name :: as).map some ++ none :: List.replicate (98 - as.length) none := by
          rw [argvOf, hpad, List.replicate_succ]
        refine ⟨_, hparse m, rfl, ⟨⟨_, by simpa [finish] using hargv⟩, by simp [finish]⟩, rfl,
          argvOf_length (by rw [List.length_cons]; omega), fun _ => ⟨_, hargv⟩⟩
  | some f =>
      have hgt : gt ∈ c.bytes := by simpa using hfile
      obtain ⟨l, r, hc, hl⟩ := List.eq_append_cons_of_mem hgt
      have hr : gt ∉ r := by
        intro hr
        have htwo : 2 ≤ c.bytes.count gt := by
          rw [hc, List.count_append, List.count_cons_self]
          have := List.count_pos_iff.mpr hr
          omega
        rw [reference_none htwo] at hwords
        cases hwords
      rw [hc, reference_redirect hl hr] at hwords
      split at hwords
      · rename_i hok
        have hw := Option.some.inj hwords
        obtain ⟨arg, ha, hacc⟩ := @accepted_redirect m c l r hline hc hl hr hok
          (by rw [hw]; simp; omega)
        rw [hw] at hacc
        obtain ⟨us, hus, hf⟩ := hacc.filled
        obtain rfl := map_bytes_injective hus
        exact ⟨arg, ha, hacc.valid, hf, hacc.redir, hacc.size, fun h => by cases h⟩
      · cases hwords

/-- The child of the line that uses the alias. -/
theorem runLine_use (h : m.Lists bs) (hlook : bs.lookup name = some (joined ts))
    (hts : ∀ t ∈ ts, Word t) (hne : ts ≠ []) (hres : ¬ reserved name) (hline : IsLine c)
    {file : Option CString} (huse : UseOf c (name :: as) file)
    (hlen : ts.length + as.length ≤ 98) (hforks : reply.forks = true)
    (hopens : ∀ f, file = some f → reply.opens f = true) :
    (∃ bs', (runLine m c reply).mysh.Lists bs' ∧ bs'.lookup name = some (joined ts)) ∧
      ∃ child rest, (runLine m c reply).child = some child ∧
        child.execv = some (ts.head hne, (ts ++ as).map some ++ none :: rest) := by
  have hpos := List.length_pos_of_ne_nil hne
  obtain ⟨arg, ha, hv, hf, hredir, hsize, hplain⟩ := use_argv hline huse (by omega) m
  obtain ⟨m', hexec, hl, -⟩ := executeCommand_spec (h.preprocess c) hf reply
  have hrun : runLine m c reply = executeCommand (preprocess m c).mysh arg reply := by
    rw [runLine, ha]
    simp only [hv, if_true]
  rw [hrun, hexec]
  constructor
  · have hun : name ≠ unAliasWord := fun he => hres (Or.inl he)
    have hal : name ≠ aliasWord := fun he => hres (Or.inr (Or.inl he))
    refine ⟨_, hl, ?_⟩
    rw [commandEffect, if_neg hun, if_neg hal, hlook]
  · simp only [hres, hforks, Bool.true_eq_false, or_self, if_false]
    rw [runChild, hredir]
    cases file with
    | none =>
        obtain ⟨rest, hargv⟩ := hplain rfl
        have hargc : arg.argc = as.length + 1 := by simpa using hf.argc
        exact execAlias_spec (h.preprocess c) hlook hts hne hargv hsize (by omega) (by omega) (by omega)
    | some f =>
        have hargc : arg.argc = as.length + 2 := by simpa using hf.argc
        have hlast : arg.argv.getD (arg.argc - 1) none = some f := by
          rw [hargc, show as.length + 2 - 1 = (name :: as).length by simp, hf.getD (by simp)]
          simp
        obtain ⟨rest, hargv⟩ := hf.argv
        have hcut : arg.argv.set (arg.argc - 1) none = (name :: as).map some ++ none :: rest := by
          rw [hargv, hargc]
          simp [List.set_append_right]
        simp only [Option.isSome_some, if_true, hlast, hopens f rfl]
        exact execAlias_spec (h.preprocess c) hlook hts hne hcut (by simpa using hsize) (by
          simp only [hargc]
          omega) (by simp only [hargc]; omega) (by simp only [hargc]; omega)

/-- Every `fork` succeeds and every file opens. -/
def willing : Reply := { forks := true, opens := fun _ => true }

/-- `alias a b`. -/
def aliasAB : CString := .ofBuffer [97, 108, 105, 97, 115, 32, 97, 32, 98]

/-- `a>f`. -/
def useA : CString := .ofBuffer [97, 62, 102]

/-- `alias exit x`. -/
def aliasExit : CString := .ofBuffer [97, 108, 105, 97, 115, 32, 101, 120, 105, 116, 32, 120]

end CS537.Shell
