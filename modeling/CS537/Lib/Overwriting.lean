import Mathlib.Data.List.Induction
import Mathlib.Logic.Function.Basic

/-!
# Files written over

A directory of named files, each written from its beginning over what is there. A
file that is longer than what is written keeps its tail, so the last content under a
name is the content of the file exactly if none before it was longer.
-/

namespace Overwriting

variable {Name Byte : Type} [DecidableEq Name]

/-- Some content written to a name, over what is there. -/
def put (dir : Name → Option (List Byte)) (r : Name × List Byte) : Name → Option (List Byte) :=
  Function.update dir r.1 (some (r.2 ++ ((dir r.1).getD []).drop r.2.length))

/-- The last content written to a name. -/
def lastOf (rs : List (Name × List Byte)) (name : Name) : Option (List Byte) :=
  ((rs.filter fun r => r.1 = name).getLast?).map Prod.snd

/-- The directory after some writes to an empty one. -/
def putAll (rs : List (Name × List Byte)) : Name → Option (List Byte) :=
  rs.foldl put fun _ => none

theorem lastOf_snoc (rs : List (Name × List Byte)) (r : Name × List Byte) (name : Name) :
    lastOf (rs ++ [r]) name = if r.1 = name then some r.2 else lastOf rs name := by
  rw [lastOf, List.filter_append]
  by_cases h : r.1 = name
  · rw [if_pos h, List.filter_cons_of_pos (by simpa using h), List.filter_nil,
      List.getLast?_append, List.getLast?_singleton]
    rfl
  · rw [if_neg h, List.filter_cons_of_neg (by simpa using h), List.filter_nil, List.append_nil]
    rfl

theorem lastOf_mem {rs : List (Name × List Byte)} {name : Name} {d : List Byte}
    (h : lastOf rs name = some d) : (name, d) ∈ rs := by
  obtain ⟨r, hr, rfl⟩ := Option.map_eq_some_iff.mp h
  have hmem := List.mem_of_getLast? hr
  rw [List.mem_filter] at hmem
  obtain ⟨hmem, hname⟩ := hmem
  rw [← of_decide_eq_true hname]
  exact hmem

theorem lastOf_isSome {rs : List (Name × List Byte)} {name : Name} {d : List Byte}
    (h : (name, d) ∈ rs) : (lastOf rs name).isSome := by
  have hmem : (name, d) ∈ rs.filter fun r => r.1 = name :=
    List.mem_filter.mpr ⟨h, decide_eq_true rfl⟩
  rw [lastOf, Option.isSome_map, List.getLast?_eq_some_getLast (List.ne_nil_of_mem hmem)]
  rfl

/-- The file begins with the last content and is as long as the longest. -/
structure Holds (rs : List (Name × List Byte)) (name : Name) (d file : List Byte) : Prop where
  start : ∃ rest, file = d ++ rest
  longest : ∀ d', (name, d') ∈ rs → d'.length ≤ file.length
  reached : ∃ d', (name, d') ∈ rs ∧ d'.length = file.length

theorem putAll_snoc (rs : List (Name × List Byte)) (r : Name × List Byte) :
    putAll (rs ++ [r]) = put (putAll rs) r := by
  rw [putAll, List.foldl_append]
  rfl

theorem putAll_holds (rs : List (Name × List Byte)) (name : Name) :
    (lastOf rs name = none → putAll rs name = none) ∧
      ∀ d, lastOf rs name = some d → ∃ file, putAll rs name = some file ∧ Holds rs name d file := by
  induction rs using List.reverseRecOn with
  | nil =>
      constructor
      · exact fun _ => rfl
      · intro d h
        cases h
  | append_singleton rs r ih =>
      obtain ⟨hnone, hsome⟩ := ih
      rw [lastOf_snoc, putAll_snoc, put]
      by_cases hr : r.1 = name
      · -- the file is written over
        subst hr
        rw [if_pos rfl, Function.update_self]
        constructor
        · intro h
          cases h
        intro d h
        cases h
        generalize hprev : (putAll rs r.1).getD [] = prev
        have hlen : (r.2 ++ prev.drop r.2.length).length = max r.2.length prev.length := by
          rw [List.length_append, List.length_drop]
          omega
        refine ⟨_, rfl, ⟨_, rfl⟩, ?_, ?_⟩
        · intro d' hd'
          rw [hlen]
          rcases List.mem_append.mp hd' with hold | hnew
          · obtain ⟨d, hd⟩ := Option.isSome_iff_exists.mp (lastOf_isSome hold)
            obtain ⟨file, hfile, hholds⟩ := hsome d hd
            rw [hfile, Option.getD_some] at hprev
            subst hprev
            have := hholds.longest d' hold
            omega
          · rw [List.mem_singleton] at hnew
            rw [← hnew]
            exact Nat.le_max_left _ _
        · rw [hlen]
          by_cases hover : prev.length ≤ r.2.length
          · exact ⟨r.2, List.mem_append_right rs List.mem_cons_self, (Nat.max_eq_left hover).symm⟩
          · cases hlast : lastOf rs r.1 with
            | none =>
                rw [hnone hlast] at hprev
                subst hprev
                exact absurd (Nat.zero_le _) hover
            | some d =>
                obtain ⟨file, hfile, hholds⟩ := hsome d hlast
                rw [hfile, Option.getD_some] at hprev
                subst hprev
                obtain ⟨d', hd', hd'len⟩ := hholds.reached
                refine ⟨d', List.mem_append_left _ hd', ?_⟩
                omega
      · rw [if_neg hr, Function.update_of_ne fun h => hr h.symm]
        have hmem : ∀ d', (name, d') ∈ rs ++ [r] ↔ (name, d') ∈ rs := by
          intro d'
          rw [List.mem_append, List.mem_singleton]
          refine ⟨fun h => h.resolve_right fun he => hr ?_, .inl⟩
          rw [← he]
        refine ⟨hnone, fun d h => ?_⟩
        obtain ⟨file, hfile, hholds⟩ := hsome d h
        obtain ⟨d', hd', hlen⟩ := hholds.reached
        exact ⟨file, hfile, hholds.start, fun d' hd' => hholds.longest d' ((hmem d').mp hd'),
          d', (hmem d').mpr hd', hlen⟩

/-- **Every file is the last content written to it** exactly if that is always the
longest. -/
theorem putAll_eq_last_iff (rs : List (Name × List Byte)) :
    (∀ name, putAll rs name = lastOf rs name) ↔
      ∀ name d d', (name, d) ∈ rs → lastOf rs name = some d' → d.length ≤ d'.length := by
  constructor
  · intro h name d d' hd hlast
    obtain ⟨file, hfile, hholds⟩ := (putAll_holds rs name).2 d' hlast
    rw [h name, hlast] at hfile
    cases hfile
    exact hholds.longest d hd
  · intro h name
    obtain ⟨hnone, hsome⟩ := putAll_holds rs name
    cases hlast : lastOf rs name with
    | none => exact hnone hlast
    | some d =>
        obtain ⟨file, hfile, hholds⟩ := hsome d hlast
        obtain ⟨rest, hrest⟩ := hholds.start
        obtain ⟨d', hd', hlen⟩ := hholds.reached
        have hle := h name d' d hd' hlast
        rw [hlen, hrest, List.length_append] at hle
        rw [hfile, hrest, show rest = [] from List.eq_nil_of_length_eq_zero (by omega), List.append_nil]

end Overwriting
