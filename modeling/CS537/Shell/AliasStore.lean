import CS537.Shell.AliasList

/-!
# Shell — `alias` and `unAlias` over a session

What a call of `executeAlias` or `executeunAlias` does to the bindings, and what any
sequence of calls leaves: the last definition of a name that is not taken back, for every
name but the three the shell refuses.
-/

namespace CS537.Shell

open LinkedList Bindings

/-! ## The value of an alias -/

/-- The tokens joined by single spaces. -/
def joined : List CString → CString
  | [] => .ofBuffer []
  | [t] => t
  | t :: u :: ts => t.append ((CString.ofBuffer [space]).append (joined (u :: ts)))

theorem joined_bytes : ∀ ts : List CString, (joined ts).bytes = [space].intercalate (ts.map CString.bytes)
  | [] => rfl
  | [t] => by simp [joined]
  | t :: u :: ts => by
      have ih := joined_bytes (u :: ts)
      simp only [List.map_cons] at ih ⊢
      rw [List.intercalate_cons_cons, ← ih, List.append_assoc]
      rfl

theorem concatLoop_eq : ∀ ts : List CString, concatLoop (ts.map some) = some (joined ts)
  | [] => rfl
  | [t] => rfl
  | t :: u :: ts => by
      have ih := concatLoop_eq (u :: ts)
      rw [List.map_cons] at ih ⊢
      rw [List.map_cons, concatLoop, ih]
      · rfl
      · simp

/-! ## Argument vectors -/

/-- The first `argc` entries of the array are set, to the tokens `ts`. -/
structure Filled (arg : ArgumentPck) (ts : List CString) : Prop where
  argv : ∃ rest, arg.argv = ts.map some ++ rest
  argc : arg.argc = ts.length

namespace Filled

variable {arg : ArgumentPck} {ts : List CString}

theorem getD (h : Filled arg ts) {i : Nat} (hi : i < ts.length) :
    arg.argv.getD i none = some ts[i] := by
  obtain ⟨rest, hrest⟩ := h.argv
  simp [hrest, List.getD, List.getElem?_append_left, hi]

theorem take (h : Filled arg ts) : arg.argv.take arg.argc = ts.map some := by
  obtain ⟨rest, hrest⟩ := h.argv
  rw [hrest, h.argc, ← @List.length_map _ _ ts some, List.take_left']
  rfl

end Filled

theorem concat_spec {m : Mysh} {arg : ArgumentPck} {ts : List CString} (h : Filled arg ts) :
    concat m arg.argc arg.argv = some (m.track.track, joined (ts.drop 2)) := by
  rw [concat, h.take, ← List.map_drop, concatLoop_eq]
  rfl

/-- The names in the nodes of a list are the keys of its bindings. -/
theorem names_bindings {nodes : List CmdNode} {p : Option Nat} : ∀ {ps : List Nat},
    Seg CmdNode.next nodes p ps none →
    ((bindings nodes ps).map Prod.fst).map some = ps.map fun a => nodes[a]?.map CmdNode.aliasName := by
  intro ps h
  have hnode : ∀ a ∈ ps, ∃ n, nodes[a]? = some n := fun a ha => h.node ha
  clear h
  induction ps with
  | nil => rfl
  | cons a ps ih =>
      obtain ⟨n, hn⟩ := hnode a List.mem_cons_self
      rw [bindings_cons hn, List.map_cons, List.map_cons, List.map_cons, hn,
        ih fun b hb => hnode b (List.mem_cons_of_mem a hb)]
      rfl

/-! ## One call -/

/-- The names `executeAlias` refuses. -/
def reserved (name : CString) : Prop := name = unAliasWord ∨ name = aliasWord ∨ name = exitWord

instance (name : CString) : Decidable (reserved name) :=
  inferInstanceAs (Decidable (_ ∨ _))

/-- What `alias` with these tokens does to the bindings. -/
def aliasEffect (ts : List CString) (bs : List (CString × CString)) : List (CString × CString) :=
  match ts with
  | _ :: name :: value :: values =>
      if reserved name then bs else define name (joined (value :: values)) bs
  | _ => bs

/-- What `unAlias` with these tokens does to the bindings. -/
def unAliasEffect (ts : List CString) (bs : List (CString × CString)) : List (CString × CString) :=
  match ts with
  | [_, name] => remove name bs
  | _ => bs

/-- How often `alias` with these tokens writes to `memList`. -/
def aliasStores (ts : List CString) : Nat :=
  match ts with
  | _ :: name :: _ :: _ => if reserved name then 0 else 3
  | _ => 0

/-- The part of the process that `memList` is about. -/
def Mysh.tracking (m : Mysh) : Nat × List Nat := (m.numFreePtr, m.stores)

theorem Mysh.tracking_of_log {m m' : Mysh} (h : m.log = m'.log) : m.tracking = m'.tracking := by
  simp only [Mysh.log, Prod.mk.injEq] at h
  simp only [Mysh.tracking, h.1, h.2.1]

@[simp] theorem Mysh.tracking_write (m : Mysh) (w : Written) : (m.write w).tracking = m.tracking := rfl

theorem Mysh.Lists.write {m : Mysh} {bs : List (CString × CString)} (h : m.Lists bs)
    (w : Written) : (m.write w).Lists bs := ⟨h.linked, h.unique⟩

theorem Mysh.Lists.track {m : Mysh} {bs : List (CString × CString)} (h : m.Lists bs) :
    m.track.Lists bs := ⟨h.linked, h.unique⟩

section calls

variable {m : Mysh} {bs : List (CString × CString)} {arg : ArgumentPck} {ts : List CString}

/-- `alias` without arguments prints every binding and changes nothing else. -/
theorem executeAlias_list (h : m.Lists bs) (hc : arg.argc = 1) :
    executeAlias m arg =
      some { m with output := m.output ++ bs.map fun b => .binding b.1 b.2 } := by
  obtain ⟨⟨ps, hseg, rfl⟩, _⟩ := h
  rw [executeAlias, if_pos hc, m.listLoop_spec [] hseg hseg.length_le]
  rfl

/-- The definition of an alias, over whatever the name had before. -/
theorem defineAlias_spec (h : m.Lists bs) (name value : CString) :
    ∃ m', (do
        let (m, found) ← m.detectAlias (some name)
        match found with
        | none =>
            let (m, _) ← m.addAlias (some name) (some value)
            return m
        | some _ =>
            let (m, _) ← m.unAlias (some name)
            let (m, _) ← m.addAlias (some name) (some value)
            return m : Option Mysh) = some m' ∧
      m'.Lists (define name value bs) ∧ m'.log = m.track.log := by
  obtain ⟨m₁, hd, h₁, hlog₁, _⟩ := m.detectAlias_spec h name
  simp only [hd, Option.bind_eq_bind, Option.bind_some]
  cases hlook : bs.lookup name with
  | none =>
      have hnot := not_mem_of_lookup hlook
      obtain ⟨m₂, ha, h₂, hlog₂⟩ := @Mysh.addAlias_spec m₁ _ value _ h₁ hnot
      refine ⟨m₂, by simp [ha], ?_, ?_⟩
      · rw [define, remove_of_not_mem hnot]
        exact h₂
      · rw [hlog₂]
        simp only [Mysh.log, Mysh.track, Prod.mk.injEq] at hlog₁ ⊢
        simp [hlog₁]
  | some old =>
      obtain ⟨m₂, r, hu, h₂, hlog₂⟩ := m₁.unAlias_spec h₁ name
      obtain ⟨m₃, ha, h₃, hlog₃⟩ := @Mysh.addAlias_spec m₂ _ value _ h₂ not_mem_remove
      refine ⟨m₃, by simp [hu, ha], h₃, ?_⟩
      rw [hlog₃]
      simp only [Mysh.log, Mysh.track, Prod.mk.injEq] at hlog₁ hlog₂ ⊢
      simp [hlog₁, hlog₂]

theorem executeAlias_spec (h : m.Lists bs) (hf : Filled arg ts) (hne : ts ≠ []) :
    ∃ m', executeAlias m arg = some m' ∧ m'.Lists (aliasEffect ts bs) ∧
      m'.tracking = (Mysh.trackTimes (aliasStores ts) m).tracking := by
  match ts, hne with
  | [_], _ =>
      rw [executeAlias_list h hf.argc]
      exact ⟨_, rfl, ⟨h.linked, h.unique⟩, rfl⟩
  | w :: name :: values, _ =>
      have hname : arg.argv.getD 1 none = some name := hf.getD (by simp)
      have hcount : arg.argc ≠ 1 := by simp [hf.argc]
      rw [executeAlias, if_neg hcount, hname]
      simp only [CString.strcmp_eq_zero]
      by_cases hres : reserved name
      · have hrefused : name = unAliasWord ∨ name = aliasWord ∨ name = exitWord := hres
        rw [if_pos hrefused]
        cases values with
        | nil => exact ⟨_, rfl, h.write _, rfl⟩
        | cons value values =>
            refine ⟨_, rfl, ?_, ?_⟩
            · rw [aliasEffect, if_pos hres]
              exact h.write _
            · rw [aliasStores, if_pos hres]
              rfl
      · have hallowed : ¬ (name = unAliasWord ∨ name = aliasWord ∨ name = exitWord) := hres
        rw [if_neg hallowed]
        cases values with
        | nil =>
            obtain ⟨m₁, hd, h₁, hlog₁, _⟩ := m.detectAlias_spec h name
            rw [if_pos (by simp [hf.argc])]
            simp only [hd, Option.bind_eq_bind, Option.bind_some]
            cases bs.lookup name with
            | none => exact ⟨m₁, rfl, h₁, Mysh.tracking_of_log hlog₁⟩
            | some value =>
                have htrack : m₁.tracking = m.tracking := Mysh.tracking_of_log hlog₁
                exact ⟨_, rfl, h₁.write _, htrack⟩
        | cons value values =>
            obtain ⟨m', hrun, hl, hlog⟩ :=
              defineAlias_spec h.track.track name (joined (value :: values))
            refine ⟨m', ?_, ?_, ?_⟩
            · rw [if_neg (by simp [hf.argc]), concat_spec hf]
              exact hrun
            · rw [aliasEffect, if_neg hres]
              exact hl
            · rw [aliasStores, if_neg hres, Mysh.tracking_of_log hlog]
              rfl

theorem executeunAlias_spec (h : m.Lists bs) (hf : Filled arg ts) :
    ∃ m', executeunAlias m arg = some m' ∧ m'.Lists (unAliasEffect ts bs) ∧
      m'.tracking = m.tracking := by
  rw [executeunAlias, hf.argc]
  match ts with
  | [w, name] =>
      obtain ⟨m', r, hu, hl, hlog⟩ := m.unAlias_spec h name
      have hname : arg.argv.getD 1 none = some name := hf.getD (by simp)
      refine ⟨m', ?_, hl, Mysh.tracking_of_log hlog⟩
      rw [if_pos (by simp), hname, hu]
      rfl
  | [] => exact ⟨_, if_neg (by simp), h.write _, rfl⟩
  | [_] => exact ⟨_, if_neg (by simp), h.write _, rfl⟩
  | _ :: _ :: _ :: _ => exact ⟨_, if_neg (by simp), h.write _, rfl⟩

end calls

/-! ## Sequences of calls -/

inductive Builtin where
  | executeAlias
  | executeunAlias
  deriving DecidableEq, Repr

/-- A call of one of the two functions with an argument vector that is set. -/
structure Call where
  builtin : Builtin
  arg : ArgumentPck
  tokens : List CString
  filled : Filled arg tokens
  nonempty : tokens ≠ []

namespace Call

def run (m : Mysh) (c : Call) : Option Mysh :=
  match c.builtin with
  | .executeAlias => executeAlias m c.arg
  | .executeunAlias => executeunAlias m c.arg

/-- What the call does to the bindings. -/
def effect (bs : List (CString × CString)) (c : Call) : List (CString × CString) :=
  match c.builtin with
  | .executeAlias => aliasEffect c.tokens bs
  | .executeunAlias => unAliasEffect c.tokens bs

/-- `some (some v)` for `alias name v`, `some none` for `unAlias name`, `none` for any
other command. -/
def binds (name : CString) (c : Call) : Option (Option CString) :=
  match c.builtin, c.tokens with
  | .executeAlias, _ :: n :: value :: values =>
      if n = name then some (some (joined (value :: values))) else none
  | .executeunAlias, [_, n] => if n = name then some none else none
  | _, _ => none

end Call

/-- The calls one after the other. -/
def runCalls : Mysh → List Call → Option Mysh
  | m, [] => some m
  | m, c :: cs => (c.run m).bind fun m => runCalls m cs

/-- The value of the last `alias name value...` not followed by `unAlias name`. -/
def lastValue (name : CString) (calls : List Call) : Option CString :=
  (calls.reverse.findSome? (Call.binds name)).join

/-- What `detectAlias` returns. -/
def Mysh.detects (m : Mysh) (name : CString) : Option (Option CString) :=
  (m.detectAlias (some name)).map Prod.snd

theorem Mysh.Lists.detects {m : Mysh} {bs : List (CString × CString)} (h : m.Lists bs)
    (name : CString) : m.detects name = some (bs.lookup name) := by
  obtain ⟨m', hd, _⟩ := m.detectAlias_spec h name
  rw [Mysh.detects, hd]
  rfl

theorem Mysh.Lists.call {m : Mysh} {bs : List (CString × CString)} (h : m.Lists bs) (c : Call) :
    ∃ m', c.run m = some m' ∧ m'.Lists (c.effect bs) := by
  rw [Call.run, Call.effect]
  cases c.builtin with
  | executeAlias =>
      obtain ⟨m', hr, hl, _⟩ := executeAlias_spec h c.filled c.nonempty
      exact ⟨m', hr, hl⟩
  | executeunAlias =>
      obtain ⟨m', hr, hl, _⟩ := executeunAlias_spec h c.filled
      exact ⟨m', hr, hl⟩

theorem Mysh.Lists.calls : ∀ {m : Mysh} {bs : List (CString × CString)} (cs : List Call),
    m.Lists bs → ∃ m', runCalls m cs = some m' ∧ m'.Lists (cs.foldl Call.effect bs)
  | m, _, [], h => ⟨m, rfl, h⟩
  | m, _, c :: cs, h => by
      obtain ⟨m₁, hr, h₁⟩ := h.call c
      obtain ⟨m₂, hrs, h₂⟩ := Mysh.Lists.calls cs h₁
      refine ⟨m₂, ?_, h₂⟩
      rw [runCalls, hr]
      exact hrs

theorem lists_start : Mysh.start.Lists [] := ⟨⟨[], rfl, rfl⟩, List.nodup_nil⟩

/-- A call settles the name it is about, unless the name is refused. -/
theorem lookup_effect {name : CString} (hres : ¬ reserved name) (c : Call)
    (bs : List (CString × CString)) :
    (c.effect bs).lookup name = (c.binds name).getD (bs.lookup name) := by
  rw [Call.effect, Call.binds]
  cases c.builtin with
  | executeAlias =>
      match c.tokens with
      | [] => rfl
      | [_] => rfl
      | [_, _] => rfl
      | _ :: n :: value :: values =>
          simp only [aliasEffect]
          by_cases hn : n = name
          · subst hn
            rw [if_neg hres, if_pos rfl, lookup_define_self]
            rfl
          · rw [if_neg hn]
            split
            · rfl
            · rw [lookup_define_ne (Ne.symm hn)]
              rfl
  | executeunAlias =>
      match c.tokens with
      | [] => rfl
      | [_] => rfl
      | [_, n] =>
          simp only [unAliasEffect]
          by_cases hn : n = name
          · subst hn
            rw [if_pos rfl, lookup_remove_self]
            rfl
          · rw [if_neg hn, lookup_remove_ne (Ne.symm hn)]
            rfl
      | _ :: _ :: _ :: _ => rfl

/-- A refused name is never bound. -/
theorem lookup_effect_reserved {name : CString} (hres : reserved name) (c : Call)
    {bs : List (CString × CString)} (hbs : bs.lookup name = none) :
    (c.effect bs).lookup name = none := by
  rw [Call.effect]
  cases c.builtin with
  | executeAlias =>
      match c.tokens with
      | [] => exact hbs
      | [_] => exact hbs
      | [_, _] => exact hbs
      | _ :: n :: value :: values =>
          simp only [aliasEffect]
          split
          · exact hbs
          · rename_i hn
            have hne : name ≠ n := fun he => hn (he ▸ hres)
            rw [lookup_define_ne hne, hbs]
  | executeunAlias =>
      match c.tokens with
      | [] => exact hbs
      | [_] => exact hbs
      | [_, n] =>
          simp only [unAliasEffect]
          by_cases hn : name = n
          · rw [hn, lookup_remove_self]
          · rw [lookup_remove_ne hn, hbs]
      | _ :: _ :: _ :: _ => exact hbs

theorem lookup_calls {name : CString} (hres : ¬ reserved name) (cs : List Call) :
    (cs.foldl Call.effect []).lookup name = lastValue name cs := by
  induction cs using List.reverseRecOn with
  | nil => rfl
  | append_singleton cs c ih =>
      rw [List.foldl_append, List.foldl_cons, List.foldl_nil, lookup_effect hres, ih, lastValue,
        lastValue, List.reverse_append, List.reverse_singleton, List.singleton_append,
        List.findSome?_cons]
      cases c.binds name with
      | none => rfl
      | some v => rfl

theorem lookup_calls_reserved {name : CString} (hres : reserved name) (cs : List Call) :
    (cs.foldl Call.effect []).lookup name = none := by
  induction cs using List.reverseRecOn with
  | nil => rfl
  | append_singleton cs c ih =>
      rw [List.foldl_append]
      exact lookup_effect_reserved hres c ih

/-- A call on one name leaves every other name as it is. -/
theorem lookup_effect_other {name : CString} (c : Call) (hname : c.tokens[1]? ≠ some name)
    (bs : List (CString × CString)) : (c.effect bs).lookup name = bs.lookup name := by
  rw [Call.effect]
  cases c.builtin with
  | executeAlias =>
      match htok : c.tokens with
      | [] => rfl
      | [_] => rfl
      | [_, _] => rfl
      | _ :: n :: value :: values =>
          have hne : name ≠ n := fun he => hname (by simp [htok, he])
          simp only [aliasEffect]
          split
          · rfl
          · exact lookup_define_ne hne
  | executeunAlias =>
      match htok : c.tokens with
      | [] => rfl
      | [_] => rfl
      | [_, n] =>
          have hne : name ≠ n := fun he => hname (by simp [htok, he])
          exact lookup_remove_ne hne
      | _ :: _ :: _ :: _ => rfl

/-! ## The finite map -/

/-- `alias alias x`, which the shell refuses. -/
def aliasAlias : Call where
  builtin := .executeAlias
  arg := finish ([some aliasWord, some aliasWord, some (.ofBuffer [120])] ++ List.replicate 97 none) 3 false
  tokens := [aliasWord, aliasWord, .ofBuffer [120]]
  filled := ⟨⟨List.replicate 97 none, rfl⟩, rfl⟩
  nonempty := by simp

end CS537.Shell
