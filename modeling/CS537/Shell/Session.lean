import CS537.Shell.Tracking

/-!
# Shell — a whole session

What the shell is for, over lines and words: an alias stands for the words it was defined
with, and every other line that the grammar accepts starts one child. The shell of
`P2B: Shell/mysh.c` does this on every stream whose lines it treats right.
-/

namespace CS537.Shell

open Bindings Runs

/-! ## The reference -/

/-- The words of a line the grammar accepts, and the file after a `>`. -/
noncomputable def parse (c : CString) : Option (List CString × Option CString) :=
  (reference c.bytes).map fun words =>
    let ts := words.map CString.ofBuffer
    if gt ∈ c.bytes then (ts.dropLast, ts.getLast?) else (ts, none)

/-- The aliases with their words, the argument vectors of the children, `none` for one that
could not write to its file, and whether the shell has ended. -/
structure Reference where
  aliases : List (CString × List CString)
  started : List (Option (List CString))
  ended : Bool
  deriving DecidableEq

namespace Reference

def start : Reference := { aliases := [], started := [], ended := false }

/-- The words that a word stands for. -/
def expand (r : Reference) (name : CString) : List CString := (r.aliases.lookup name).getD [name]

/-- `alias` and `unAlias`; a file after a `>` is one of their words. -/
def define (name : CString) (args : List CString) (aliases : List (CString × List CString)) :
    List (CString × List CString) :=
  if name = unAliasWord then
    match args with
    | [n] => remove n aliases
    | _ => aliases
  else if name = aliasWord then
    match args with
    | n :: value :: values =>
        if reserved n then aliases else Bindings.define n (value :: values) aliases
    | _ => aliases
  else aliases

/-- What the child of a command runs, `none` if its file does not open. -/
def child (r : Reference) (name : CString) (args : List CString) (file : Option CString)
    (reply : Reply) : Option (List CString) :=
  match file with
  | none => some (r.expand name ++ args)
  | some f => if reply.opens f then some (r.expand name ++ args) else none

/-- A line of these words. -/
def command (r : Reference) (words : List CString) (file : Option CString) (reply : Reply) :
    Reference :=
  match words with
  | [] => r
  | name :: args =>
      { aliases := define name (args ++ file.toList) r.aliases
        started :=
          if reserved name ∨ reply.forks = false then r.started
          else r.started ++ [r.child name args file reply]
        ended := decide (name = exitWord) }

/-- A line of the stream. -/
noncomputable def line (replies : Nat → Reply) (r : Reference) (l : Nat × List UInt8) :
    Reference :=
  if r.ended then r
  else if Parsable l.2 then
    match parse (.ofBuffer l.2) with
    | none => r
    | some (words, file) => r.command words file (replies l.1)
  else r

/-- The line is short enough for the arrays, also once its alias is put in, and no token
touches the `>` of a line that the grammar refuses. -/
def Fits (r : Reference) (c : CString) : Prop :=
  (tokens c.bytes).length ≤ 98 ∧ (Touching c.bytes → parse c ≠ none) ∧
    ∀ name args file, parse c = some (name :: args, file) →
      (r.expand name).length + args.length ≤ 98

/-- Every line that is read before the shell ends is treated right. -/
def Orderly (mode : Mode) (replies : Nat → Reply) : List (Nat × List UInt8) → Reference → Prop
  | [], _ => True
  | l :: ls, r => r.ended = false →
      GoodLine mode l.2 ∧ (Parsable l.2 → r.Fits (.ofBuffer l.2)) ∧
        Orderly mode replies ls (r.line replies l)

end Reference

/-! ## The grammar -/

variable {m : Mysh} {c : CString}

theorem word_of_reference {words : List (List UInt8)} (h : reference c.bytes = some words) :
    ∀ w ∈ words, Solid blank w ∧ w ≠ [] ∧ gt ∉ w ∧ 0 ∉ w := by
  have hside : ∀ l : List UInt8, gt ∉ l → (∀ b ∈ l, b ∈ c.bytes) → ∀ w ∈ tokens l,
      Solid blank w ∧ w ≠ [] ∧ gt ∉ w ∧ 0 ∉ w := by
    intro l hl hsub w hw
    obtain ⟨hsolid, hmem⟩ := mem_runs hw
    exact ⟨hsolid, mem_runs_ne_nil hw, fun hg => hl (hmem gt hg),
      fun h0 => c.noNul (hsub 0 (hmem 0 h0))⟩
  have hcount : c.bytes.count gt = 0 ∨ c.bytes.count gt = 1 ∨ 2 ≤ c.bytes.count gt := by omega
  rcases hcount with h0 | h1 | h2
  · have hgt := List.count_eq_zero.mp h0
    rw [reference_plain hgt] at h
    split at h
    · cases h
    · cases h
      exact hside c.bytes hgt fun b hb => hb
  · obtain ⟨l, r, hc, hl⟩ :=
      List.eq_append_cons_of_mem (List.count_pos_iff.mp (by omega : 0 < c.bytes.count gt))
    have hr : gt ∉ r := by
      rw [hc, List.count_append, List.count_cons_self, List.count_eq_zero.mpr hl] at h1
      exact List.count_eq_zero.mp (by omega)
    rw [hc, reference_redirect hl hr] at h
    split at h
    · cases h
      intro w hw
      rcases List.mem_append.mp hw with hw | hw
      · exact hside l hl (fun b hb => by rw [hc]; exact List.mem_append_left _ hb) w hw
      · exact hside r hr (fun b hb => by
          rw [hc]
          exact List.mem_append_right _ (List.mem_cons_of_mem _ hb)) w hw
    · cases h
  · rw [reference_none h2] at h
    cases h

theorem map_ofBuffer {ws : List (List UInt8)} (h : ∀ w ∈ ws, 0 ∉ w) :
    (ws.map CString.ofBuffer).map CString.bytes = ws := by
  rw [List.map_map]
  refine (List.map_congr_left fun w hw => ?_).trans (List.map_id ws)
  exact CString.ofBuffer_bytes (h w hw)

/-- The words of a line are its command and the file. -/
theorem parse_some {words : List CString} {file : Option CString}
    (h : parse c = some (words, file)) :
    UseOf c words file ∧ words ≠ [] ∧ ∀ w ∈ words ++ file.toList, Word w := by
  obtain ⟨ws, href, hws⟩ := Option.map_eq_some_iff.mp h
  have hword := word_of_reference href
  have hbytes := map_ofBuffer fun w hw => (hword w hw).2.2.2
  have hall : ∀ w ∈ ws.map CString.ofBuffer, Word w := by
    intro w hw
    have hmem : w.bytes ∈ ws := by
      rw [← hbytes]
      exact List.mem_map_of_mem hw
    obtain ⟨hsolid, hne, hgt, -⟩ := hword w.bytes hmem
    exact ⟨hsolid, hne, hgt⟩
  dsimp only at hws
  split at hws
  · rename_i hgt
    obtain ⟨l, r, hc, hl⟩ := List.eq_append_cons_of_mem hgt
    have hr : gt ∉ r := by
      intro hr
      have htwo : 2 ≤ c.bytes.count gt := by
        rw [hc, List.count_append, List.count_cons_self]
        have := List.count_pos_iff.mpr hr
        omega
      rw [reference_none htwo] at href
      cases href
    have hlen : 2 ≤ ws.length := by
      have href' := href
      rw [hc, reference_redirect hl hr] at href'
      split at href'
      · rename_i hok
        cases href'
        have := List.length_pos_of_ne_nil hok.1
        rw [List.length_append]
        omega
      · cases href'
    obtain ⟨rfl, rfl⟩ := Prod.mk.inj hws
    have hne : ws.map CString.ofBuffer ≠ [] := by
      intro hnil
      have := congrArg List.length hnil
      simp only [List.length_map, List.length_nil] at this
      omega
    have hcut : (ws.map CString.ofBuffer).dropLast ++ (ws.map CString.ofBuffer).getLast?.toList =
        ws.map CString.ofBuffer := by
      rw [List.getLast?_eq_some_getLast hne]
      exact List.dropLast_append_getLast hne
    refine ⟨⟨?_, ?_⟩, ?_, ?_⟩
    · rw [List.getLast?_eq_some_getLast hne, decide_eq_true hgt]
      rfl
    · rw [hcut, hbytes]
      exact href
    · intro hnil
      have := congrArg List.length hnil
      simp only [List.length_dropLast, List.length_map, List.length_nil] at this
      omega
    · rw [hcut]
      exact hall
  · rename_i hgt
    obtain ⟨rfl, rfl⟩ := Prod.mk.inj hws
    refine ⟨⟨by simp [hgt], by simpa [hbytes] using href⟩, ?_, by simpa using hall⟩
    intro hnil
    rw [List.map_eq_nil_iff] at hnil
    rw [reference_plain hgt] at href
    split at href
    · cases href
    · rename_i hne
      cases href
      exact hne hnil

/-- The parser refuses what the grammar refuses. -/
theorem parse_none (hline : IsLine c) (h : parse c = none) (hlen : (tokens c.bytes).length ≤ 98)
    (htouch : ¬ Touching c.bytes) :
    ∃ arg, (preprocess m c).result = some arg ∧ arg.isValid = false := by
  have href : reference c.bytes = none := Option.map_eq_none_iff.mp h
  have hcount : c.bytes.count gt = 0 ∨ c.bytes.count gt = 1 ∨ 2 ≤ c.bytes.count gt := by omega
  rcases hcount with h0 | h1 | h2
  · have hgt := List.count_eq_zero.mp h0
    rw [reference_plain hgt] at href
    split at href
    · rename_i hempty
      exact refused_empty hline hgt hempty
    · cases href
  · obtain ⟨l, r, hc, hl⟩ :=
      List.eq_append_cons_of_mem (List.count_pos_iff.mp (by omega : 0 < c.bytes.count gt))
    have hr : gt ∉ r := by
      rw [hc, List.count_append, List.count_cons_self, List.count_eq_zero.mpr hl] at h1
      exact List.count_eq_zero.mp (by omega)
    rw [hc, reference_redirect hl hr] at href
    split at href
    · cases href
    · rename_i hno
      exact (refused_redirect hline hc hl hr hno (by omega)).mpr htouch
  · exact ⟨_, preprocess_misformatted ((scan_count c.bytes).2.mpr h2), rfl⟩

/-- A line has at most one word more than tokens. -/
theorem parse_length {words : List CString} {file : Option CString}
    (h : parse c = some (words, file)) (hlen : (tokens c.bytes).length ≤ 98) :
    words.length ≤ 98 := by
  obtain ⟨⟨hfile, href⟩, -⟩ := parse_some h
  cases file with
  | none =>
      have hgt : gt ∉ c.bytes := by simpa using hfile
      rw [reference_plain hgt] at href
      split at href
      · cases href
      · have hl := congrArg List.length (Option.some.inj href)
        simp only [Option.toList_none, List.append_nil, List.length_map] at hl
        omega
  | some f =>
      have hgt : gt ∈ c.bytes := by simpa using hfile
      obtain ⟨l, r, hc, hl⟩ := List.eq_append_cons_of_mem hgt
      have hr : gt ∉ r := by
        intro hr
        have htwo : 2 ≤ c.bytes.count gt := by
          rw [hc, List.count_append, List.count_cons_self]
          have := List.count_pos_iff.mpr hr
          omega
        rw [reference_none htwo] at href
        cases href
      obtain ⟨A, B, x, y, hs⟩ := exists_sides l r
      rw [hc, hs.line] at hlen
      rw [hc, reference_redirect hl hr] at href
      split at href
      · have hw := congrArg List.length (Option.some.inj href)
        rw [hs.left, hs.right] at hw
        simp only [List.length_append, List.length_cons, List.length_map, Option.toList_some,
          List.length_nil] at hw hlen
        split at hw <;> split at hw <;> simp only [List.length_nil, List.length_singleton] at hw <;>
          omega
      · cases href

/-! ## The aliases -/

/-- The alias list that keeps these aliases. -/
def stored (aliases : List (CString × List CString)) : List (CString × CString) :=
  aliases.map fun a => (a.1, joined a.2)

/-- Every alias stands for words. -/
def Worded (aliases : List (CString × List CString)) : Prop :=
  ∀ a ∈ aliases, a.2 ≠ [] ∧ ∀ t ∈ a.2, Word t

section Aliases

variable {aliases : List (CString × List CString)} {name : CString} {args words : List CString}

theorem lookup_stored (name : CString) :
    (stored aliases).lookup name = (aliases.lookup name).map joined := by
  induction aliases with
  | nil => rfl
  | cons a as ih =>
      rw [stored, List.map_cons, List.lookup_cons, List.lookup_cons]
      split
      · rfl
      · exact ih

theorem stored_remove (name : CString) : remove name (stored aliases) = stored (remove name aliases) := by
  rw [remove, stored, stored, remove, List.filter_map]
  rfl

theorem stored_define (name : CString) (args : List CString) :
    commandEffect (name :: args) (stored aliases) = stored (Reference.define name args aliases) := by
  rw [commandEffect]
  unfold Reference.define
  by_cases hun : name = unAliasWord
  · rw [if_pos hun, if_pos hun]
    rcases args with _ | ⟨n, _ | ⟨value, values⟩⟩
    · rfl
    · exact stored_remove n
    · rfl
  · rw [if_neg hun, if_neg hun]
    by_cases hal : name = aliasWord
    · rw [if_pos hal, if_pos hal]
      rcases args with _ | ⟨n, _ | ⟨value, values⟩⟩
      · rfl
      · rfl
      · dsimp only [aliasEffect]
        split
        · rfl
        · unfold Bindings.define
          rw [stored_remove, stored, stored, List.map_append]
          rfl
    · rw [if_neg hal, if_neg hal]

theorem Worded.remove (h : Worded aliases) (name : CString) : Worded (remove name aliases) :=
  fun a ha => h a (List.mem_filter.mp ha).1

theorem Worded.define (h : Worded aliases) (name : CString) (hargs : ∀ t ∈ args, Word t) :
    Worded (Reference.define name args aliases) := by
  unfold Reference.define
  split
  · match args with
    | [] => exact h
    | [n] => exact h.remove n
    | _ :: _ :: _ => exact h
  · split
    · match args with
      | [] => exact h
      | [_] => exact h
      | n :: value :: values =>
          dsimp only
          split
          · exact h
          · intro a ha
            rcases List.mem_append.mp ha with ha | ha
            · exact h.remove n a ha
            · obtain rfl := List.mem_singleton.mp ha
              exact ⟨by simp, fun t ht => hargs t (List.mem_cons_of_mem _ ht)⟩
    · exact h

theorem Worded.lookup (h : Worded aliases) (hlook : aliases.lookup name = some words) :
    words ≠ [] ∧ ∀ t ∈ words, Word t := by
  induction aliases with
  | nil => cases hlook
  | cons a as ih =>
      rw [List.lookup_cons] at hlook
      split at hlook
      · cases hlook
        exact h a List.mem_cons_self
      · exact ih (fun b hb => h b (List.mem_cons_of_mem _ hb)) hlook

end Aliases

/-! ## The child -/

/-- The child runs the program of these arguments; `none` says that it could not write to
its file and runs nothing. -/
def Starts (child : Child) : Option (List CString) → Prop
  | some argv => ∃ path rest, argv.head? = some path ∧
      child.execv = some (path, argv.map some ++ none :: rest)
  | none => child.execv = none ∧ child.mysh.output.getLast? = some cannotWrite

section Child

variable {r : Reference} {arg : ArgumentPck} {name : CString} {as : List CString}
  {rest : List (Option CString)} {reply : Reply}

theorem execAlias_starts (h : m.Lists (stored r.aliases)) (hworded : Worded r.aliases)
    (hargv : arg.argv = (name :: as).map some ++ none :: rest) (hsize : arg.argv.length = 100)
    (hlow : as.length + 1 ≤ arg.argc) (hhigh : arg.argc ≤ as.length + 2) (hlen : as.length ≤ 97)
    (hfit : (r.expand name).length + as.length ≤ 98) :
    ∃ child, execAlias m arg = some child ∧ Starts child (some (r.expand name ++ as)) := by
  cases hlook : r.aliases.lookup name with
  | some words =>
      obtain ⟨hne, hwords⟩ := hworded.lookup hlook
      have hstored : (stored r.aliases).lookup name = some (joined words) := by
        rw [lookup_stored, hlook]
        rfl
      rw [Reference.expand, hlook, Option.getD_some] at hfit
      obtain ⟨child, rest', hexec, hexecv⟩ := execAlias_spec h hstored hwords hne hargv hsize hlow
        (by omega) (by omega)
      refine ⟨child, hexec, words.head hne, rest', ?_, ?_⟩
      · rw [Reference.expand, hlook, Option.getD_some, List.head?_append, List.head?_eq_some_head hne]
        rfl
      · rw [Reference.expand, hlook]
        exact hexecv
  | none =>
      obtain ⟨m', hd, -⟩ := m.detectAlias_spec h name
      have hname : arg.argv.getD 0 none = some name := by
        rw [hargv]
        rfl
      rw [lookup_stored, hlook, Option.map_none] at hd
      refine ⟨{ mysh := m', execv := some (name, arg.argv) }, ?_, name, rest, ?_, ?_⟩
      · rw [execAlias, hname, hd]
        rfl
      · rw [Reference.expand, hlook]
        rfl
      · rw [Reference.expand, hlook, hargv]
        rfl

theorem runChild_starts (h : m.Lists (stored r.aliases)) (hworded : Worded r.aliases)
    {file : Option CString} (hf : Filled arg (name :: as ++ file.toList))
    (hredir : arg.isRedir = file.isSome) (hsize : arg.argv.length = 100)
    (hplain : file = none → ∃ rest, arg.argv = (name :: as).map some ++ none :: rest)
    (hlen : as.length ≤ 97) (hfit : (r.expand name).length + as.length ≤ 98) :
    ∃ child, runChild m arg reply = some child ∧ Starts child (r.child name as file reply) := by
  rw [runChild, hredir]
  cases file with
  | none =>
      obtain ⟨rest, hargv⟩ := hplain rfl
      have hargc : arg.argc = as.length + 1 := by simpa using hf.argc
      exact execAlias_starts h hworded hargv hsize (by omega) (by omega) hlen hfit
  | some f =>
      have hargc : arg.argc = as.length + 2 := by simpa using hf.argc
      have hlast : arg.argv.getD (arg.argc - 1) none = some f := by
        rw [hargc, show as.length + 2 - 1 = (name :: as).length by simp, hf.getD (by simp)]
        simp
      rw [Option.isSome_some, if_pos rfl, hlast]
      dsimp only
      by_cases hopens : reply.opens f = true
      · -- the file leaves the array
        obtain ⟨rest, hargv⟩ := hf.argv
        have hcut : arg.argv.set (arg.argc - 1) none = (name :: as).map some ++ none :: rest := by
          rw [hargv, hargc]
          simp [List.set_append_right]
        rw [if_pos hopens, Reference.child, if_pos hopens]
        exact execAlias_starts h hworded hcut (by simpa using hsize) (by dsimp only; omega)
          (by dsimp only; omega) hlen hfit
      · rw [if_neg hopens, Reference.child, if_neg hopens]
        refine ⟨_, rfl, rfl, ?_⟩
        simp [Mysh.write]

end Child

/-! ## A line -/

/-- The aliases of the shell are those of the reference. -/
structure Keeps (m : Mysh) (r : Reference) : Prop where
  lists : m.Lists (stored r.aliases)
  worded : Worded r.aliases

/-- What a line does to the shell it also does to the reference. -/
structure Follows (step : Step) (r r' : Reference) : Prop where
  keeps : Keeps step.mysh r'
  ended : step.ended = r'.ended
  child : ∃ argvs, r'.started = r.started ++ argvs ∧ List.Forall₂ Starts step.child.toList argvs

theorem runLine_accepted {r : Reference} (h : Keeps m r) (hline : IsLine c) {words : List CString}
    {file : Option CString} (hparse : parse c = some (words, file)) (hfits : r.Fits c)
    (reply : Reply) : Follows (runLine m c reply) r (r.command words file reply) := by
  obtain ⟨huse, hne, hwords⟩ := parse_some hparse
  have hlen := parse_length hparse hfits.1
  cases words with
  | nil => exact absurd rfl hne
  | cons name as =>
      have hargs : as.length ≤ 97 := by
        rw [List.length_cons] at hlen
        omega
      obtain ⟨arg, ha, hv, hf, hredir, hsize, hplain⟩ := use_argv hline huse hargs m
      obtain ⟨m', hexec, hl, -⟩ := executeCommand_spec (h.lists.preprocess c) hf reply
      have hrun : runLine m c reply = executeCommand (preprocess m c).mysh arg reply := by
        rw [runLine, ha]
        exact if_pos hv
      rw [hrun, hexec]
      refine ⟨⟨?_, ?_⟩, rfl, ?_⟩
      · rw [stored_define] at hl
        exact hl
      · refine h.worded.define name fun t ht => hwords t ?_
        rw [List.cons_append]
        exact List.mem_cons_of_mem _ ht
      · dsimp only [Reference.command]
        split
        · exact ⟨[], (List.append_nil _).symm, .nil⟩
        · obtain ⟨child, hchild, hstarts⟩ := @runChild_starts _ r arg name as reply
            (h.lists.preprocess c) h.worded _ hf hredir hsize hplain hargs (hfits.2.2 name as file hparse)
          rw [hchild]
          exact ⟨_, rfl, .cons hstarts .nil⟩

theorem runLine_refused {r : Reference} (h : Keeps m r) (hended : r.ended = false)
    (hline : IsLine c) (hparse : parse c = none) (hfits : r.Fits c) (reply : Reply) :
    Follows (runLine m c reply) r r := by
  obtain ⟨arg, ha, hv⟩ := parse_none (m := m) hline hparse hfits.1 fun ht => hfits.2.1 ht hparse
  have hrun : runLine m c reply = { mysh := (preprocess m c).mysh, ended := false, child := none } := by
    rw [runLine, ha]
    simp only [hv, Bool.false_eq_true, if_false]
  rw [hrun]
  exact ⟨⟨h.lists.preprocess c, h.worded⟩, hended.symm, [], (List.append_nil _).symm, .nil⟩

/-! ## The session -/

theorem Reference.orderly_ended {mode : Mode} {replies : Nat → Reply} {r : Reference}
    (h : r.ended = true) : ∀ ls : List (Nat × List UInt8), r.Orderly mode replies ls
  | [] => trivial
  | _ :: _ => fun hrun => by
      rw [h] at hrun
      cases hrun

/-- The shell and the reference after the same lines. -/
structure Matches (s : Session) (r : Reference) : Prop where
  keeps : Keeps s.mysh r
  started : List.Forall₂ Starts s.children r.started
  ended : s.ended = r.ended

variable {mode : Mode} {replies : Nat → Reply} {s : Session} {r : Reference}

theorem Matches.start : Matches .start .start :=
  ⟨⟨lists_start, fun a ha => by cases ha⟩, .nil, rfl⟩

theorem Matches.write (h : Matches s r) (w : Written) :
    Matches { s with mysh := s.mysh.write w } r :=
  ⟨⟨h.keeps.lists.write w, h.keeps.worded⟩, h.started, h.ended⟩

theorem Matches.hand (h : Matches s r) {r' : Reference} {reply : Reply} {off : Nat}
    (hstep : Follows (runLine s.mysh c reply) r r') : Matches (s.hand reply off c) r' := by
  obtain ⟨argvs, hargvs, hall⟩ := hstep.child
  refine ⟨hstep.keeps, ?_, hstep.ended⟩
  rw [hargvs]
  exact List.rel_append h.started hall

/-- A chunk that is not handed only prints; one that is goes to `runLine`. -/
theorem Matches.round (h : Matches s r) {chunk : List UInt8} (hlen : chunk.length ≤ 511)
    (reply : Reply) (off : Nat) :
    (hands mode chunk = false → Matches (round mode reply off chunk s) r) ∧
      (hands mode chunk = true → ∃ s₀, Matches s₀ r ∧
        round mode reply off chunk s = s₀.hand reply off (.ofBuffer chunk)) := by
  have hfit : ¬ (CString.ofBuffer chunk).bytes.length > 511 := by
    have := ofBuffer_length_le chunk
    omega
  cases mode with
  | interactive =>
      simp only [Shell.round, if_neg hfit, ne_eq, CString.strcmp_eq_zero, hands, decide_eq_false_iff_not,
        decide_eq_true_eq]
      constructor
      · intro hno
        rw [if_neg hno]
        exact h
      · intro hyes
        rw [if_pos hyes]
        exact ⟨s, h, rfl⟩
  | batch =>
      simp only [Shell.round, hands, decide_eq_false_iff_not, decide_eq_true_eq]
      constructor
      · intro hno
        rw [if_neg hno]
        exact h.write _
      · intro hyes
        rw [if_pos hyes]
        exact ⟨_, h.write _, rfl⟩

/-- Chunks that are not handed. -/
theorem Matches.quiet : ∀ {cs : List (Nat × List UInt8)} {s : Session}, Matches s r →
    r.ended = false → (∀ d ∈ cs, d.2.length ≤ 511 ∧ hands mode d.2 = false) →
    Matches (cs.foldl (promptedRound mode replies) s) r
  | [], _, h, _, _ => h
  | d :: cs, s, h, hrun, hcs => by
      obtain ⟨hlen, hno⟩ := hcs d List.mem_cons_self
      rw [List.foldl_cons, promptedRound, if_neg (by simp [h.ended, hrun])]
      refine Matches.quiet ?_ hrun fun e he => hcs e (List.mem_cons_of_mem d he)
      split
      · exact ((h.write _).round hlen _ _).1 hno
      · exact (h.round hlen _ _).1 hno

/-- A line that is treated right. -/
theorem Matches.line (h : Matches s r) (l : Nat × List UInt8) (hl : Fgets.IsLine newline l.2)
    (hgood : r.ended = false → GoodLine mode l.2 ∧ (Parsable l.2 → r.Fits (.ofBuffer l.2))) :
    Matches (lineRun mode replies s l) (r.line replies l) := by
  cases hrun : r.ended with
  | true =>
      rw [lineRun, foldl_ended (h.ended.trans hrun), Reference.line, if_pos hrun]
      exact h
  | false =>
      obtain ⟨hline, hfits⟩ := hgood hrun
      have hhanded := (goodLine_iff mode hl l.1).mp hline
      rw [Reference.line, if_neg (by simp [hrun]), lineRun]
      by_cases hpars : Parsable l.2
      · -- one chunk, which is the line
        have hchunk := Fgets.lineChunks_short (by decide : 2 ≤ 512) hl hpars.2 l.1
        have hhands : hands mode l.2 = true := by
          by_contra hno
          rw [hchunk, wantedLine, if_pos hpars] at hhanded
          simp [handedBy, hno] at hhanded
        have hcommand : IsLine (.ofBuffer l.2) := isLine_ofBuffer hl.2
        rw [hchunk, if_pos hpars, List.foldl_cons, List.foldl_nil, promptedRound,
          if_neg (by simp [h.ended, hrun])]
        obtain ⟨s₀, h₀, hround⟩ : ∃ s₀, Matches s₀ r ∧
            Shell.round mode (replies l.1) l.1 l.2 (if mode = .interactive then s.prompt else s) =
              s₀.hand (replies l.1) l.1 (.ofBuffer l.2) := by
          split
          · exact ((h.write _).round hpars.2 _ _).2 hhands
          · exact (h.round hpars.2 _ _).2 hhands
        rw [hround]
        cases hparse : parse (.ofBuffer l.2) with
        | none => exact h₀.hand (runLine_refused h₀.keeps hrun hcommand hparse (hfits hpars) _)
        | some words =>
            obtain ⟨words, file⟩ := words
            exact h₀.hand (runLine_accepted h₀.keeps hcommand hparse (hfits hpars) _)
      · rw [if_neg hpars]
        refine h.quiet hrun fun d hd => ⟨(Fgets.mem_lineChunks (by decide) hl hd).2.2, ?_⟩
        rw [wantedLine, if_neg hpars] at hhanded
        by_contra hyes
        have hmem : (d.1, (CString.ofBuffer d.2).bytes) ∈
            handedBy mode (Fgets.lineChunks newline 512 l.1 l.2) :=
          List.mem_map.mpr ⟨d, List.mem_filter.mpr ⟨hd, by simpa using hyes⟩, rfl⟩
        rw [hhanded] at hmem
        cases hmem

theorem Matches.lines : ∀ {ls : List (Nat × List UInt8)} {s : Session} {r : Reference},
    Matches s r → (∀ l ∈ ls, Fgets.IsLine newline l.2) → r.Orderly mode replies ls →
    Matches (ls.foldl (lineRun mode replies) s) (ls.foldl (Reference.line replies) r)
  | [], _, _, h, _, _ => h
  | l :: ls, s, r, h, hlines, hord => by
      rw [List.foldl_cons, List.foldl_cons]
      have hstep := @Matches.line mode replies _ _ h l (hlines l List.mem_cons_self)
        fun hrun => ⟨(hord hrun).1, (hord hrun).2.1⟩
      refine Matches.lines hstep (fun k hk => hlines k (List.mem_cons_of_mem l hk)) ?_
      cases hrun : r.ended with
      | false => exact (hord hrun).2.2
      | true =>
          rw [Reference.line, if_pos hrun]
          exact Reference.orderly_ended hrun ls

theorem Reference.fits_of_parse {r : Reference} (name : CString) (args : List CString)
    (file : Option CString) (h : parse c = some (name :: args, file))
    (hlen : (tokens c.bytes).length ≤ 98) (hwords : (r.expand name).length + args.length ≤ 98) :
    r.Fits c := by
  refine ⟨hlen, fun _ => by rw [h]; exact Option.some_ne_none _, fun name' args' file' h' => ?_⟩
  rw [h] at h'
  obtain ⟨rfl, rfl⟩ := List.cons.inj (Prod.mk.inj (Option.some.inj h')).1
  exact hwords

/-- `alias a b c`, `a d > f`, `exit`. -/
def threeLines : List UInt8 :=
  [97, 108, 105, 97, 115, 32, 97, 32, 98, 32, 99, 10, 97, 32, 100, 32, 62, 32, 102, 10, 101, 120,
    105, 116, 10]

end CS537.Shell
