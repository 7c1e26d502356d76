import CS537.Lib.AccessLog
import CS537.Shell.Grammar

/-!
# Shell — the argument array

`preprocess` with its accesses to the array `cmd`, which `malloc` returns with anything
in it. No statement stores the terminator: whether the vector is terminated depends on
what the slot behind the last argument held before.
-/

namespace CS537.Shell

open AccessLog

/-! ## The array -/

/-- A slot of `cmd`: what `malloc` left there, a null pointer or not, or what this call
stored. -/
inductive Slot where
  | left (null : Bool)
  | stored (piece : Option CString)
  deriving DecidableEq, Repr

/-- The string that this call stored. -/
def Slot.piece : Slot → Option CString
  | .left _ => none
  | .stored piece => piece

/-- `== NULL`. -/
def Slot.isNull : Slot → Bool
  | .left null => null
  | .stored piece => piece.isNone

/-- `cmd` and the accesses to it so far. -/
structure Cmd where
  slots : List Slot
  log : List Access
  deriving DecidableEq, Repr

namespace Cmd

/-- The array as `malloc` returns it. -/
def fresh (init : List Bool) : Cmd := { slots := init.map .left, log := [] }

/-- `cmd[i]` is read. -/
def read (c : Cmd) (i : Nat) : Cmd := { c with log := c.log ++ [.read i] }

/-- `cmd[i]` is written. -/
def write (c : Cmd) (i : Nat) (piece : Option CString) : Cmd :=
  { slots := c.slots.set i (.stored piece), log := c.log ++ [.write i] }

/-- The string at `cmd[i]` is changed where it stands. -/
def rewrite (c : Cmd) (i : Nat) (piece : CString) : Cmd :=
  { c with slots := c.slots.set i (.stored (some piece)) }

/-- The strings in the slots. -/
def pieces (c : Cmd) : List (Option CString) := c.slots.map Slot.piece

end Cmd

/-! ## The parser -/

/-- The loop that puts the pieces into `cmd`. -/
def fill : List CString → Nat → Cmd → Cmd × Option Nat
  | [], argc, c => (c, some argc)
  | piece :: pieces, argc, c =>
      if argc < c.slots.length then fill pieces (argc + 1) ((c.write argc (some piece)).read argc)
      else (c.write argc (some piece), none)

/-- How the rewriting ends. -/
inductive Rewritten where
  | crashed
  | misformatted
  | parsed (argc : Nat)
  deriving DecidableEq, Repr

/-- The loop over the tokens. -/
def rewriteLoop : Nat → Nat → Cmd → Nat → Cmd × Rewritten
  | 0, _, c, _ => (c, .crashed)
  | fuel + 1, i, c, argc =>
      if i < argc then
        -- `strstr(cmd[i], ">")`
        let c := c.read i
        match c.pieces.getD i none with
        | none => (c, .crashed)
        | some piece =>
            if gt ∉ piece.bytes then rewriteLoop fuel (i + 1) c argc
            else
              let c := c.read i
              if piece.strcmp gtWord = 0 then
                if i + 2 ≠ argc then (c, .misformatted)
                else
                  let c := c.read (i + 1)
                  rewriteLoop fuel (i + 1) (c.write i (c.pieces.getD (i + 1) none)) (argc - 1)
              else
                -- `cmd[i][0]`
                let c := c.read i
                if piece.bytes.head? = some gt then
                  rewriteLoop fuel (i + 1) ((c.read i).write i (some piece.tail)) argc
                else
                  -- `cmd[i][strlen(cmd[i]) - 1]`
                  let c := (c.read i).read i
                  if piece.bytes.getLast? = some gt then
                    rewriteLoop fuel (i + 1) (((c.read i).read i).rewrite i piece.dropLast) argc
                  else
                    -- `strdup(cmd[i])`
                    let c := c.read i
                    let lastPiece := piece.strtok gt
                    let filename := lastPiece.bind fun p => p.2.strtok gt
                    let c := (c.write i (lastPiece.map Prod.fst)).write (i + 1)
                      (filename.map Prod.fst)
                    if i + 1 < c.slots.length then rewriteLoop fuel (i + 1) c (argc + 1)
                    else (c, .crashed)
      else (c, .parsed argc)

/-- The part for a line with a `>`. -/
def rewriteArgv (c : Cmd) (argc : Nat) : Cmd × Rewritten :=
  let c := c.read (argc - 1)
  match c.pieces.getD (argc - 1) none with
  | none => (c, .crashed)
  | some last =>
      if last.strcmp gtWord = 0 then (c, .misformatted)
      else
        let c := c.read 0
        match c.pieces.getD 0 none with
        | none => (c, .crashed)
        | some first =>
            if first.strcmp gtWord = 0 then (c, .misformatted)
            else rewriteLoop (c.slots.length + 2) 0 c argc

/-- How `preprocess` ends. -/
inductive Ended where
  /-- It went on with a pointer that it had not set, or outside the array. -/
  | crashed
  /-- It returned before it had set `argv` and `argc`. -/
  | refused
  | returned (argc : Nat) (isValid : Bool)
  deriving DecidableEq, Repr

/-- The end of `preprocess`, with the test of `cmd[0]`. -/
def finishArgv (c : Cmd) (argc : Nat) : Cmd × Ended :=
  (c.read 0, .returned argc (!(c.slots.getD 0 (.left true)).isNull))

/-- `preprocess` with its accesses to `cmd`. `init` says which of the hundred slots
`malloc` left null. -/
def preprocessArgv (init : List Bool) (command : CString) : Cmd × Ended :=
  let s := scan command.bytes
  if s.misformatted then (.fresh init, .refused)
  else
    match fill (pieces s.command) 0 (.fresh init) with
    | (c, none) => (c, .crashed)
    | (c, some argc) =>
        if s.isRedir then
          match rewriteArgv c argc with
          | (c, .crashed) => (c, .crashed)
          | (c, .misformatted) => (c, .refused)
          | (c, .parsed argc) => finishArgv c argc
        else finishArgv c argc

/-- Every access lies in the array, no slot is read before it was written, and a valid
vector is terminated. -/
structure WellFormedArgv (r : Cmd × Ended) : Prop where
  sound : Sound 100 r.1.log
  terminated : ∀ argc, r.2 = .returned argc true →
    ∃ slot, r.1.slots[argc]? = some slot ∧ slot.isNull

/-! ## The condition -/

/-- What a line with its `>` in the token `t`, `A` before it and `B` behind it, needs. -/
inductive RedirectTerminated (init : List Bool) (A : List (List UInt8)) (t : List UInt8)
    (B : List (List UInt8)) : Prop
  /-- `>` alone, where the line is refused. -/
  | refused (alone : t = [gt]) (place : ¬ (A ≠ [] ∧ B.length = 1))
  /-- `>` at the beginning or the end of the token. -/
  | edge (word : t ≠ [gt]) (ends : t.head? = some gt ∨ t.getLast? = some gt)
      (null : init[(A ++ t :: B).length]? = some true)
  /-- `>` inside the last token, which becomes two. -/
  | inner (ends : t.head? ≠ some gt ∧ t.getLast? ≠ some gt) (last : B = [])
      (null : init[(A ++ t :: B).length + 1]? = some true)

/-- When the vector of a line is well formed: the line has two `>` and is refused at once;
it has none, and one token at least, and the slot behind the last one was null; or it has
one. -/
inductive LineTerminated (init : List Bool) (line : List UInt8) : Prop
  | several (count : 2 ≤ line.count gt)
  | plain (count : gt ∉ line) (any : tokens line ≠ [])
      (null : init[(tokens line).length]? = some true)
  | redirect (count : line.count gt = 1) (few : (tokens line).length ≤ 100)
      (A : List (List UInt8)) (t : List UInt8) (B : List (List UInt8))
      (split : tokens line = A ++ t :: B) (mem : gt ∈ t)
      (terminated : RedirectTerminated init A t B)

/-! ## What the calls keep -/

/-- The accesses so far are sound, the slots they have not written are as `malloc` left
them, and those they have written hold strings with one `>` at most. -/
structure SlotsSound (init : List Bool) (c : Cmd) : Prop where
  sound : Sound 100 c.log
  size : c.slots.length = 100
  left : ∀ i, .write i ∉ c.log → c.slots[i]? = (init[i]?).map .left
  stored : ∀ i, .write i ∈ c.log →
    ∃ piece : CString, c.slots[i]? = some (.stored (some piece)) ∧ piece.bytes.count gt ≤ 1

variable {init : List Bool} {c : Cmd} {i argc : Nat} {piece : CString}

theorem Cmd.mem_read {j : Nat} : .write j ∈ (c.read i).log ↔ .write j ∈ c.log := by
  rw [Cmd.read, List.mem_append, List.mem_singleton]
  exact or_iff_left fun h => Access.noConfusion h

theorem Cmd.mem_write {j : Nat} {p : Option CString} :
    .write j ∈ (c.write i p).log ↔ .write j ∈ c.log ∨ j = i := by
  rw [Cmd.write, List.mem_append, List.mem_singleton, Access.write.injEq]

theorem Cmd.pieces_length : c.pieces.length = c.slots.length := List.length_map _

theorem Cmd.pieces_read : (c.read i).pieces = c.pieces := rfl

theorem Cmd.pieces_write {p : Option CString} : (c.write i p).pieces = c.pieces.set i p :=
  List.map_set

theorem Cmd.pieces_rewrite : (c.rewrite i piece).pieces = c.pieces.set i (some piece) :=
  List.map_set

theorem Cmd.pieces_getD : c.pieces.getD i none = (c.slots[i]?).bind Slot.piece := by
  rw [Cmd.pieces, List.getD_eq_getElem?_getD, List.getElem?_map]
  cases c.slots[i]? with
  | none => rfl
  | some slot => rfl

theorem SlotsSound.fresh (h : init.length = 100) : SlotsSound init (.fresh init) where
  sound := .nil
  size := by rw [Cmd.fresh, List.length_map, h]
  left := fun i _ => by rw [Cmd.fresh, List.getElem?_map]
  stored := fun i h => absurd h List.not_mem_nil

theorem SlotsSound.unset (h : SlotsSound init c) (hi : .write i ∉ c.log) :
    c.pieces.getD i none = none := by
  rw [Cmd.pieces_getD, h.left i hi]
  cases init[i]? with
  | none => rfl
  | some null => rfl

theorem SlotsSound.set (h : SlotsSound init c) (hi : .write i ∈ c.log) :
    ∃ piece : CString, c.pieces.getD i none = some piece ∧ piece.bytes.count gt ≤ 1 := by
  obtain ⟨piece, hslot, hcount⟩ := h.stored i hi
  refine ⟨piece, ?_, hcount⟩
  rw [Cmd.pieces_getD, hslot]
  rfl

theorem SlotsSound.lt (h : SlotsSound init c) (hi : .write i ∈ c.log) : i < 100 :=
  h.sound.inside (.write i) hi

theorem SlotsSound.read (h : SlotsSound init c) (hi : .write i ∈ c.log) : SlotsSound init (c.read i) where
  sound := h.sound.read hi
  size := h.size
  left := fun j hj => h.left j fun hold => hj (Cmd.mem_read.mpr hold)
  stored := fun j hj => h.stored j (Cmd.mem_read.mp hj)

/-- A string put into a slot whose write is in the log, now or before. -/
theorem SlotsSound.put (h : SlotsSound init c) {log : List Access} (hsound : Sound 100 log)
    (hlog : ∀ j, .write j ∈ log ↔ .write j ∈ c.log ∨ j = i) (hi : i < 100)
    (hcount : piece.bytes.count gt ≤ 1) :
    SlotsSound init { slots := c.slots.set i (.stored (some piece)), log := log } where
  sound := hsound
  size := by rw [List.length_set, h.size]
  left := by
    intro j hj
    rw [hlog, not_or] at hj
    rw [List.getElem?_set_ne fun heq => hj.2 heq.symm]
    exact h.left j hj.1
  stored := by
    intro j hj
    by_cases heq : j = i
    · subst heq
      refine ⟨piece, ?_, hcount⟩
      rw [List.getElem?_set_self (by rw [h.size]; exact hi)]
    · rw [hlog] at hj
      rw [List.getElem?_set_ne fun he => heq he.symm]
      exact h.stored j (hj.resolve_right heq)

theorem SlotsSound.write (h : SlotsSound init c) (hi : i < 100) (hcount : piece.bytes.count gt ≤ 1) :
    SlotsSound init (c.write i (some piece)) :=
  h.put (h.sound.write hi) (fun j => @Cmd.mem_write c i j (some piece)) hi hcount

theorem SlotsSound.rewrite (h : SlotsSound init c) (hi : .write i ∈ c.log)
    (hcount : piece.bytes.count gt ≤ 1) : SlotsSound init (c.rewrite i piece) := by
  refine h.put h.sound (fun j => ?_) (h.lt hi) hcount
  refine ⟨.inl, fun hj => ?_⟩
  rcases hj with hj | rfl
  · exact hj
  · exact hi

/-! ## Filling the array -/

/-- The pieces are stored one after the other, or run over the array. -/
theorem fill_spec {ps : List CString} (h : SlotsSound init c) (hargc : argc ≤ 100)
    (hcount : ∀ p ∈ ps, p.bytes.count gt ≤ 1) :
    (argc + ps.length ≤ 100 →
      ∃ c', fill ps argc c = (c', some (argc + ps.length)) ∧ SlotsSound init c' ∧
        (∀ j, .write j ∈ c'.log ↔ .write j ∈ c.log ∨ argc ≤ j ∧ j < argc + ps.length)) ∧
      (100 < argc + ps.length → ∃ c', fill ps argc c = (c', none) ∧ ¬ Sound 100 c'.log) := by
  induction ps generalizing argc c with
  | nil =>
      constructor
      · intro _
        refine ⟨c, rfl, h, fun j => ⟨.inl, fun hj => hj.resolve_right fun hin => ?_⟩⟩
        rw [List.length_nil] at hin
        omega
      · intro hlong
        rw [List.length_nil] at hlong
        omega
  | cons p ps ih =>
      rw [fill, h.size, List.length_cons]
      by_cases hin : argc < 100
      · have hnext : SlotsSound init ((c.write argc (some p)).read argc) :=
          (h.write hin (hcount p List.mem_cons_self)).read (Cmd.mem_write.mpr (.inr rfl))
        obtain ⟨hfit, hover⟩ := ih hnext (show argc + 1 ≤ 100 from hin) fun q hq =>
          hcount q (List.mem_cons_of_mem p hq)
        rw [if_pos hin]
        constructor
        · intro hlen
          obtain ⟨c', hfill, hfilled, hlog⟩ := hfit (by omega)
          refine ⟨c', by rw [hfill, Nat.add_assoc, Nat.add_comm 1], hfilled, fun j => ?_⟩
          rw [hlog, Cmd.mem_read, Cmd.mem_write, or_assoc]
          apply or_congr_right
          omega
        · intro hlong
          exact hover (by omega)
      · rw [if_neg hin]
        refine ⟨fun _ => by omega, fun _ => ⟨_, rfl, fun hsound => ?_⟩⟩
        exact hin hsound.last_write

theorem fill_pieces {ps : List CString} {c' : Cmd} {argc' : Nat}
    (h : fill ps argc c = (c', some argc')) :
    storePieces ps argc c.pieces = some (c'.pieces, argc') := by
  induction ps generalizing argc c with
  | nil =>
      cases h
      rfl
  | cons p ps ih =>
      rw [fill] at h
      rw [storePieces, Cmd.pieces_length]
      split at h
      · rename_i hin
        have hrest := ih h
        rw [Cmd.pieces_read, Cmd.pieces_write] at hrest
        rw [if_pos hin, hrest]
      · cases h

/-! ## The loop over the tokens -/

/-- The loop ends as without the log. -/
def Erases (r : Cmd × Rewritten) : Redirected → Prop
  | .crashed _ => r.2 = .crashed
  | .misformatted _ => r.2 = .misformatted
  | .parsed cmd argc _ => r.2 = .parsed argc ∧ r.1.pieces = cmd

theorem rewriteLoop_erases (fuel i : Nat) (c : Cmd) (argc stores : Nat) :
    Erases (rewriteLoop fuel i c argc) (redirectLoop fuel i c.pieces argc stores) := by
  induction fuel generalizing i c argc stores with
  | zero => rfl
  | succ fuel ih =>
      rw [rewriteLoop, redirectLoop]
      by_cases hi : i < argc
      · rw [if_pos hi, if_pos hi]
        dsimp only
        rw [Cmd.pieces_read]
        cases hpiece : c.pieces.getD i none with
        | none => rfl
        | some piece =>
            dsimp only
            by_cases hgt : gt ∉ piece.bytes
            · rw [if_pos hgt, if_pos hgt]
              exact ih (i + 1) (c.read i) argc stores
            rw [if_neg hgt, if_neg hgt]
            by_cases hword : piece.strcmp gtWord = 0
            · rw [if_pos hword, if_pos hword]
              by_cases hplace : i + 2 ≠ argc
              · rw [if_pos hplace, if_pos hplace]
                rfl
              · rw [if_neg hplace, if_neg hplace, ← Cmd.pieces_write]
                exact ih (i + 1) ((((c.read i).read i).read (i + 1)).write i
                  (c.pieces.getD (i + 1) none)) (argc - 1) stores
            rw [if_neg hword, if_neg hword]
            by_cases hhead : piece.bytes.head? = some gt
            · rw [if_pos hhead, if_pos hhead, ← Cmd.pieces_write]
              exact ih (i + 1) (((((c.read i).read i).read i).read i).write i (some piece.tail))
                argc stores
            rw [if_neg hhead, if_neg hhead]
            by_cases hlast : piece.bytes.getLast? = some gt
            · rw [if_pos hlast, if_pos hlast, ← Cmd.pieces_rewrite]
              exact ih (i + 1) (Cmd.rewrite _ i piece.dropLast) argc stores
            rw [if_neg hlast, if_neg hlast]
            generalize (piece.strtok gt).map Prod.fst = lastPiece
            generalize ((piece.strtok gt).bind fun p => p.2.strtok gt).map Prod.fst = filename
            have hlen : (((c.read i).write i lastPiece).write (i + 1) filename).slots.length =
                c.pieces.length := by
              rw [← Cmd.pieces_length, Cmd.pieces_write, Cmd.pieces_write, List.length_set,
                List.length_set, Cmd.pieces_read]
            have hpieces : (((c.read i).write i lastPiece).write (i + 1) filename).pieces =
                (c.pieces.set i lastPiece).set (i + 1) filename := by
              rw [Cmd.pieces_write, Cmd.pieces_write, Cmd.pieces_read]
            by_cases hin : i + 1 < c.pieces.length
            · rw [if_pos (by rw [← hlen] at hin; exact hin), if_pos hin, ← hpieces]
              exact ih (i + 1) (Cmd.write (Cmd.write _ i lastPiece) (i + 1) filename) (argc + 1)
                (stores + 1)
            · rw [if_neg (by rw [← hlen] at hin; exact hin), if_neg hin]
              rfl
      · rw [if_neg hi, if_neg hi]
        exact ⟨rfl, rfl⟩

theorem count_tail (p : CString) : p.tail.bytes.count gt ≤ p.bytes.count gt :=
  (List.tail_sublist p.bytes).count_le gt

theorem count_dropLast (p : CString) : p.dropLast.bytes.count gt ≤ p.bytes.count gt :=
  (List.dropLast_sublist p.bytes).count_le gt

/-- A token with one `>` and not at its ends is cut in two. -/
theorem strtok_clean (hgt : gt ∈ piece.bytes) (hcount : piece.bytes.count gt ≤ 1)
    (hhead : piece.bytes.head? ≠ some gt) (hlast : piece.bytes.getLast? ≠ some gt) :
    ∃ u v : CString, (piece.strtok gt).map Prod.fst = some u ∧
      ((piece.strtok gt).bind fun p => p.2.strtok gt).map Prod.fst = some v ∧
      gt ∉ u.bytes ∧ gt ∉ v.bytes := by
  obtain ⟨x, y, hp, hx⟩ := List.eq_append_cons_of_mem hgt
  have hy : gt ∉ y := by
    rw [hp, List.count_append, List.count_cons_self, List.count_eq_zero.mpr hx] at hcount
    exact List.count_eq_zero.mp (by omega)
  have hxne : x ≠ [] := by
    rintro rfl
    rw [hp] at hhead
    exact hhead rfl
  have hyne : y ≠ [] := by
    rintro rfl
    rw [hp, List.getLast?_concat] at hlast
    exact hlast rfl
  obtain ⟨u, rest, v, rest', hu, hv, hux, hvy⟩ := strtok_middle hp hx hy hxne hyne
  refine ⟨u, v, ?_, ?_, by rwa [hux], by rwa [hvy]⟩
  · rw [hu]
    rfl
  · rw [hu, Option.bind_some, hv]
    rfl

theorem Cmd.pieces_write_ne {p : Option CString} {j : Nat} (hne : j ≠ i) :
    (c.write i p).pieces.getD j none = c.pieces.getD j none := by
  rw [Cmd.pieces_write, List.getD_eq_getElem?_getD, List.getElem?_set_ne fun h => hne h.symm,
    ← List.getD_eq_getElem?_getD]

theorem Cmd.pieces_write_self {p : Option CString} (hi : i < c.slots.length) :
    (c.write i p).pieces.getD i none = p := by
  rw [Cmd.pieces_write, List.getD_eq_getElem?_getD,
    List.getElem?_set_self (by rw [Cmd.pieces_length]; exact hi), Option.getD_some]

/-- No two tokens from `i` on have a `>`. -/
def OneFrom (c : Cmd) (i : Nat) : Prop :=
  ∀ j k p q, i ≤ j → j < k → c.pieces.getD j none = some p → gt ∈ p.bytes →
    c.pieces.getD k none = some q → gt ∉ q.bytes

/-- How the loop ends, if not at an access that is not sound: with `argc` behind every slot
that was written, or at a slot that was. -/
structure Rewrote (init : List Bool) (r : Cmd × Rewritten) : Prop where
  filled : SlotsSound init r.1
  zero : .write 0 ∈ r.1.log
  ended : r.2 = .misformatted ∨
    ∃ argc, r.2 = .parsed argc ∧ ((∀ j, argc ≤ j → .write j ∉ r.1.log) ∨ .write argc ∈ r.1.log)

/-- The loop comes to a slot that is not set. -/
theorem rewriteLoop_unset {fuel i m : Nat} {c : Cmd} {argc : Nat} (h : SlotsSound init c)
    (hm : .write m ∉ c.log) (hargc : m < argc) (hi : i ≤ m) (hfuel : m < fuel + i)
    (hclean : ∀ j, i ≤ j → j < m → .write j ∈ c.log ∧
      ∀ p, c.pieces.getD j none = some p → gt ∉ p.bytes) :
    (rewriteLoop fuel i c argc).2 = .crashed ∧ ¬ Sound 100 (rewriteLoop fuel i c argc).1.log := by
  induction fuel generalizing i c with
  | zero => omega
  | succ fuel ih =>
      rw [rewriteLoop, if_pos (by omega)]
      dsimp only
      rw [Cmd.pieces_read]
      by_cases heq : i = m
      · subst heq
        rw [h.unset hm]
        exact ⟨rfl, fun hsound => hm hsound.last_read⟩
      · obtain ⟨hw, hgt⟩ := hclean i (Nat.le_refl i) (by omega)
        obtain ⟨piece, hpiece, -⟩ := h.set hw
        rw [hpiece]
        dsimp only
        rw [if_pos (hgt piece hpiece)]
        refine ih (h.read hw) (fun hr => hm (Cmd.mem_read.mp hr)) (by omega) (by omega) ?_
        intro j hj hjm
        obtain ⟨hwj, hgtj⟩ := hclean j (by omega) hjm
        exact ⟨Cmd.mem_read.mpr hwj, hgtj⟩

/-- The loop from an array whose first `argc` slots are set. `i` comes to 100 at most, so it
does not run out of rounds. -/
theorem rewriteLoop_spec {fuel i : Nat} {c : Cmd} {argc : Nat} (h : SlotsSound init c)
    (hlog : ∀ j, .write j ∈ c.log ↔ j < argc) (hone : OneFrom c i) (hpos : 0 < argc)
    (hfuel : 102 ≤ fuel + i) (hi : i ≤ 100) :
    (rewriteLoop fuel i c argc).2 = .crashed ∧ ¬ Sound 100 (rewriteLoop fuel i c argc).1.log ∨
      Rewrote init (rewriteLoop fuel i c argc) := by
  induction fuel generalizing i c argc with
  | zero => omega
  | succ fuel ih =>
      rw [rewriteLoop]
      by_cases hlt : i < argc
      · have hw := (hlog i).mpr hlt
        obtain ⟨piece, hpiece, hcount⟩ := h.set hw
        have hin := h.lt hw
        -- `c'` is `c` with more reads of slot `i`
        have hread {c' : Cmd} (h' : SlotsSound init c' ∧ (∀ j, .write j ∈ c'.log ↔ j < argc) ∧
            c'.pieces = c.pieces) : SlotsSound init (c'.read i) ∧
              (∀ j, .write j ∈ (c'.read i).log ↔ j < argc) ∧ (c'.read i).pieces = c.pieces :=
          ⟨h'.1.read ((h'.2.1 i).mpr hlt), fun j => Cmd.mem_read.trans (h'.2.1 j), h'.2.2⟩
        have h1 := hread ⟨h, hlog, rfl⟩
        have h2 := hread h1
        have h4 := hread (hread h2)
        have h5 := hread h4
        rw [if_pos hlt]
        dsimp only
        rw [Cmd.pieces_read, hpiece]
        dsimp only
        by_cases hgt : gt ∉ piece.bytes
        · rw [if_pos hgt]
          have hone' : OneFrom (c.read i) (i + 1) := fun j k p q hj => hone j k p q (by omega)
          exact ih h1.1 h1.2.1 hone' hpos (by omega) (by omega)
        rw [if_neg hgt]
        rw [not_not] at hgt
        -- the tokens after this one have no `>`
        have hafter : ∀ k, i < k → ∀ q, c.pieces.getD k none = some q → gt ∉ q.bytes :=
          fun k hk q hq => hone i k piece q (Nat.le_refl i) hk hpiece hgt hq
        by_cases hword : piece.strcmp gtWord = 0
        · rw [if_pos hword]
          by_cases hplace : i + 2 ≠ argc
          · rw [if_pos hplace]
            exact .inr ⟨h2.1, (h2.2.1 0).mpr hpos, .inl rfl⟩
          rw [if_neg hplace]
          have hw' : .write (i + 1) ∈ ((c.read i).read i).log := (h2.2.1 (i + 1)).mpr (by omega)
          obtain ⟨file, hfile, hcount'⟩ := h2.1.set hw'
          have h4' := (h2.1.read hw').write hin hcount'
          obtain ⟨f, rfl⟩ : ∃ f, fuel = f + 1 := ⟨fuel - 1, by omega⟩
          rw [Cmd.pieces_read, hfile, rewriteLoop, if_neg (by omega)]
          have hkept {j : Nat} (hj : .write j ∈ ((c.read i).read i).log) :
              .write j ∈ ((((c.read i).read i).read (i + 1)).write i (some file)).log :=
            Cmd.mem_write.mpr (.inl (Cmd.mem_read.mpr hj))
          refine .inr ⟨h4', hkept ((h2.2.1 0).mpr hpos), .inr ⟨argc - 1, rfl, .inr ?_⟩⟩
          rw [show argc - 1 = i + 1 by omega]
          exact hkept hw'
        rw [if_neg hword]
        by_cases hhead : piece.bytes.head? = some gt
        · rw [if_pos hhead]
          have hput := h4.1.write hin (Nat.le_trans (count_tail piece) hcount)
          refine ih hput (fun j => ?_) (fun j k p q hj hk _ _ hq => ?_) hpos (by omega) (by omega)
          · rw [Cmd.mem_write, h4.2.1]
            omega
          · rw [Cmd.pieces_write_ne (by omega)] at hq
            exact hafter k (by omega) q hq
        rw [if_neg hhead]
        by_cases hlast : piece.bytes.getLast? = some gt
        · rw [if_pos hlast]
          have h7 := hread (hread h5)
          have hput := h7.1.rewrite ((h7.2.1 i).mpr hlt)
            (Nat.le_trans (count_dropLast piece) hcount)
          refine ih hput h7.2.1 (fun j k p q hj hk _ _ hq => ?_) hpos (by omega) (by omega)
          rw [Cmd.pieces_rewrite, List.getD_eq_getElem?_getD,
            List.getElem?_set_ne (by omega : i ≠ k), ← List.getD_eq_getElem?_getD, h7.2.2] at hq
          exact hafter k (by omega) q hq
        rw [if_neg hlast]
        obtain ⟨u, v, hu, hv, huclean, hvclean⟩ := strtok_clean hgt hcount hhead hlast
        have h6 := hread h5
        have hzero {p : CString} (hp : gt ∉ p.bytes) : p.bytes.count gt ≤ 1 := by
          rw [List.count_eq_zero.mpr hp]
          exact Nat.zero_le 1
        generalize (((((c.read i).read i).read i).read i).read i).read i = c₁ at h6 ⊢
        have hfirst := h6.1.write hin (hzero huclean)
        rw [hu, hv]
        by_cases hroom : i + 1 < 100
        · have hsecond := hfirst.write hroom (hzero hvclean)
          rw [if_pos (by rw [hsecond.size]; exact hroom)]
          have hpieces (k : Nat) (hk : i < k) (q : CString)
              (hq : ((c₁.write i (some u)).write (i + 1) (some v)).pieces.getD k none = some q) :
              gt ∉ q.bytes := by
            by_cases heq : k = i + 1
            · subst heq
              rw [Cmd.pieces_write_self (by rw [hfirst.size]; exact hroom)] at hq
              cases hq
              exact hvclean
            · rw [Cmd.pieces_write_ne heq, Cmd.pieces_write_ne (by omega), h6.2.2] at hq
              exact hafter k hk q hq
          by_cases hend : i + 1 = argc
          · refine ih hsecond (fun j => ?_) (fun j k p q hj hk _ _ hq => ?_) (by omega) (by omega)
              (by omega)
            · rw [Cmd.mem_write, Cmd.mem_write, h6.2.1]
              omega
            · exact hpieces k (by omega) q hq
          · have hargc : argc - 1 < 100 := h.lt ((hlog (argc - 1)).mpr (by omega))
            refine .inl (@rewriteLoop_unset init _ _ argc _ _ hsecond ?_ (by omega) (by omega)
              (by omega) ?_)
            · rw [Cmd.mem_write, Cmd.mem_write, h6.2.1]
              omega
            · intro j hj hjm
              refine ⟨?_, fun p hp => hpieces j (by omega) p hp⟩
              rw [Cmd.mem_write, Cmd.mem_write, h6.2.1]
              omega
        · left
          rw [if_neg (by rw [Cmd.write, List.length_set, hfirst.size]; exact hroom)]
          refine ⟨rfl, fun hsound => ?_⟩
          have hbefore : Sound 100 ((c₁.write i (some u)).log ++ [.write (i + 1)]) := hsound
          exact hroom hbefore.last_write
      · rw [if_neg hlt]
        refine .inr ⟨h, (hlog 0).mpr hpos, .inr ⟨argc, rfl, .inl fun j hj hm => ?_⟩⟩
        have := (hlog j).mp hm
        omega

/-! ## The whole call -/

/-- The array that holds these tokens, one or more. -/
structure Holding (init : List Bool) (ts : List CString) (c : Cmd) : Prop where
  filled : SlotsSound init c
  log : ∀ j, .write j ∈ c.log ↔ j < ts.length
  pieces : c.pieces = argvOf ts

variable {ts : List CString}

theorem Holding.getD (h : Holding init ts c) (j : Nat) : c.pieces.getD j none = ts[j]? := by
  rw [h.pieces, argvOf_getD]

theorem rewriteArgv_spec (h : Holding init ts c) (hne : ts ≠ []) (hone : OneFrom c 0) :
    Erases (rewriteArgv c ts.length) (redirect (argvOf ts) ts.length) ∧
      ((rewriteArgv c ts.length).2 = .crashed ∧ ¬ Sound 100 (rewriteArgv c ts.length).1.log ∨
        Rewrote init (rewriteArgv c ts.length)) := by
  have hpos := List.length_pos_of_ne_nil hne
  have hread {c' : Cmd} (j : Nat) (hj : j < ts.length) (h' : Holding init ts c') :
      Holding init ts (c'.read j) :=
    ⟨h'.filled.read ((h'.log j).mpr hj), fun k => Cmd.mem_read.trans (h'.log k), h'.pieces⟩
  have h1 := hread (ts.length - 1) (by omega) h
  have h2 := hread 0 hpos h1
  have hlast : c.pieces.getD (ts.length - 1) none = some (ts.getLast hne) := by
    rw [h.getD, ← List.getLast?_eq_getElem?, List.getLast?_eq_some_getLast hne]
  have hfirst : c.pieces.getD 0 none = some (ts.head hne) := by
    rw [h.getD, ← List.head?_eq_getElem?, List.head?_eq_some_head hne]
  have hloop := @rewriteLoop_spec init 102 0 ((c.read (ts.length - 1)).read 0) ts.length h2.filled
    h2.log hone hpos (Nat.le_refl 102) (Nat.zero_le 100)
  have herases := rewriteLoop_erases 102 0 ((c.read (ts.length - 1)).read 0) ts.length 0
  rw [h2.pieces] at herases
  have hlen : (argvOf ts).length = 100 := by
    rw [← h.pieces, Cmd.pieces_length, h.filled.size]
  rw [h.pieces] at hlast hfirst
  rw [rewriteArgv, redirect]
  dsimp only
  rw [h1.pieces, hlast, hfirst]
  dsimp only
  by_cases hl : (ts.getLast hne).strcmp gtWord = 0
  · rw [if_pos hl, if_neg fun hboth => hboth.1 hl]
    exact ⟨rfl, .inr ⟨h1.filled, (h1.log 0).mpr hpos, .inl rfl⟩⟩
  rw [if_neg hl, h2.pieces, hfirst]
  dsimp only
  by_cases hf : (ts.head hne).strcmp gtWord = 0
  · rw [if_pos hf, if_neg fun hboth => hboth.2 hf]
    exact ⟨rfl, .inr ⟨h2.filled, (h2.log 0).mpr hpos, .inl rfl⟩⟩
  rw [if_neg hf, if_pos ⟨hl, hf⟩, hlen, h2.filled.size]
  exact ⟨herases, hloop⟩

/-- What the erased run says about the vector of a line with a `>`. -/
def RedirectNeeds (init : List Bool) : Redirected → Prop
  | .crashed _ => False
  | .misformatted _ => True
  | .parsed cmd argc _ => cmd.getD argc none = none ∧ init[argc]? = some true

/-- A vector whose first slot is set is valid, and then well formed if it is terminated. -/
theorem finish_wellFormed (h : SlotsSound init c) (hzero : .write 0 ∈ c.log) :
    WellFormedArgv (finishArgv c argc) ↔ ∃ slot, c.slots[argc]? = some slot ∧ slot.isNull := by
  obtain ⟨piece, hslot, -⟩ := h.stored 0 hzero
  have hvalid : (finishArgv c argc).2 = .returned argc true := by
    rw [finishArgv, List.getD_eq_getElem?_getD, hslot]
    rfl
  constructor
  · intro hwell
    exact hwell.terminated argc hvalid
  · intro hnull
    refine ⟨h.sound.read hzero, fun argc' heq => ?_⟩
    rw [hvalid] at heq
    cases heq
    exact hnull

/-- An empty vector is read before it is written. -/
theorem finish_unset (hzero : .write 0 ∉ c.log) : ¬ WellFormedArgv (finishArgv c argc) := by
  intro hwell
  have hsound : Sound 100 (c.log ++ [.read 0]) := hwell.sound
  exact hzero hsound.last_read

/-- The slot behind everything that was written is as `malloc` left it. -/
theorem SlotsSound.null_iff (h : SlotsSound init c) (hi : .write i ∉ c.log) :
    (∃ slot, c.slots[i]? = some slot ∧ slot.isNull) ↔ init[i]? = some true := by
  rw [h.left i hi]
  cases init[i]? with
  | none => simp
  | some null => simp [Slot.isNull]

theorem SlotsSound.not_null (h : SlotsSound init c) (hi : .write i ∈ c.log) :
    ¬ ∃ slot, c.slots[i]? = some slot ∧ slot.isNull := by
  obtain ⟨piece, hslot, -⟩ := h.stored i hi
  intro hnull
  obtain ⟨slot, hslot', hnull⟩ := hnull
  rw [hslot] at hslot'
  cases hslot'
  cases hnull

/-- `preprocess` from the array on, for a line with a `>`. -/
def finishRedirect (r : Cmd × Rewritten) : Cmd × Ended :=
  match r with
  | (c, .crashed) => (c, .crashed)
  | (c, .misformatted) => (c, .refused)
  | (c, .parsed argc) => finishArgv c argc

theorem finishRedirect_wellFormed {r : Cmd × Rewritten} {d : Redirected} (herases : Erases r d)
    (hspec : r.2 = .crashed ∧ ¬ Sound 100 r.1.log ∨ Rewrote init r) :
    WellFormedArgv (finishRedirect r) ↔ RedirectNeeds init d := by
  obtain ⟨c, ended⟩ := r
  cases d with
  | crashed stores =>
      have hended : ended = .crashed := herases
      subst hended
      refine ⟨fun hwell => ?_, False.elim⟩
      rcases hspec with ⟨-, hunsound⟩ | hrewrote
      · exact hunsound hwell.sound
      · rcases hrewrote.ended with hend | ⟨argc, hend, -⟩
        · cases hend
        · cases hend
  | misformatted stores =>
      have hended : ended = .misformatted := herases
      subst hended
      refine ⟨fun _ => trivial, fun _ => ?_⟩
      rcases hspec with ⟨hend, -⟩ | hrewrote
      · cases hend
      · exact ⟨hrewrote.filled.sound, fun argc heq => by cases heq⟩
  | parsed cmd argc stores =>
      obtain ⟨hended, hpieces⟩ := herases
      dsimp only at hended hpieces
      subst hended
      rcases hspec with ⟨hend, -⟩ | hrewrote
      · cases hend
      have hfilled := hrewrote.filled
      show WellFormedArgv (finishArgv c argc) ↔ cmd.getD argc none = none ∧ init[argc]? = some true
      rw [finish_wellFormed hfilled hrewrote.zero, ← hpieces]
      by_cases hw : .write argc ∈ c.log
      · obtain ⟨piece, hset, -⟩ := hfilled.set hw
        refine iff_of_false (hfilled.not_null hw) fun hnull => ?_
        rw [hset] at hnull
        cases hnull.1
      · rw [hfilled.null_iff hw, and_iff_right (hfilled.unset hw)]

/-- A line with a `>` at which the scan did not stop has one, in one of its pieces. -/
theorem exists_redirect {command : CString} (hline : IsLine command)
    (hmis : (scan command.bytes).misformatted = false) (hgt : gt ∈ command.bytes) :
    command.bytes.count gt = 1 ∧ ∃ P p Q x y, pieces (scan command.bytes).command = P ++ p :: Q ∧
      Clean P ∧ Clean Q ∧ p.bytes = x ++ gt :: y ∧ gt ∉ x ∧ gt ∉ y := by
  have hone : command.bytes.count gt = 1 := by
    have hpos := List.count_pos_iff.mpr hgt
    have hfew := (not_congr (scan_count command.bytes).2).mp
      (by rw [hmis]; exact Bool.false_ne_true)
    omega
  obtain ⟨l, r, hc, hl⟩ := List.eq_append_cons_of_mem hgt
  have hr : gt ∉ r := by
    rw [hc, List.count_append, List.count_cons_self, List.count_eq_zero.mpr hl] at hone
    exact List.count_eq_zero.mp (by omega)
  obtain ⟨A, B, x, y, hs⟩ := exists_sides l r
  obtain ⟨-, -, P, p, Q, hpieces, -, hp, -, hP, hQ⟩ := pieces_sides hline hc hl hr hs
  exact ⟨hone, P, p, Q, x, y, hpieces, hP, hQ, hp, fun h => hl (hs.memLeft gt h),
    fun h => hr (hs.memRight gt h)⟩

/-- The pieces of a line hold one `>` at most, if the scan did not stop. -/
theorem pieces_count {command : CString} (hline : IsLine command)
    (hmis : (scan command.bytes).misformatted = false) :
    ∀ p ∈ pieces (scan command.bytes).command, p.bytes.count gt ≤ 1 := by
  have hzero {q : CString} (hq : gt ∉ q.bytes) : q.bytes.count gt ≤ 1 := by
    rw [List.count_eq_zero.mpr hq]
    exact Nat.zero_le 1
  intro q hq
  by_cases hgt : gt ∈ command.bytes
  · obtain ⟨-, P, p, Q, x, y, hpieces, hP, hQ, hp, hx, hy⟩ := exists_redirect hline hmis hgt
    rw [hpieces] at hq
    rcases List.mem_append.mp hq with hq | hq
    · exact hzero (hP q hq)
    · rcases List.mem_cons.mp hq with rfl | hq
      · rw [hp, List.count_append, List.count_cons_self, List.count_eq_zero.mpr hx,
          List.count_eq_zero.mpr hy]
      · exact hzero (hQ q hq)
  · have hmem : q.bytes ∈ tokens command.bytes := by
      rw [← pieces_bytes hline hmis]
      exact List.mem_map_of_mem hq
    exact hzero fun h => hgt ((Runs.mem_runs hmem).2 gt h)

/-! ## What a line with one `>` needs -/

section OneRedirect

variable {P Q : List CString} {p : CString} {x y : List UInt8}

theorem argvOf_end (ts : List CString) : (argvOf ts).getD ts.length none = none := by
  rw [argvOf_getD, List.getElem?_eq_none (Nat.le_refl _)]

/-- `>` alone: refused, or `argc` comes back to a slot that was written. -/
theorem redirectNeeds_alone (hP : Clean P) (hQ : Clean Q)
    (hlen : (P ++ gtWord :: Q).length ≤ 100) :
    RedirectNeeds init (redirect (argvOf (P ++ gtWord :: Q)) (P ++ gtWord :: Q).length) ↔
      ¬ (P ≠ [] ∧ Q.length = 1) := by
  rw [redirect_alone hP hQ hlen]
  match P, Q with
  | [], Q => exact iff_of_true trivial fun h => h.1 rfl
  | q :: P, [] => exact iff_of_true trivial fun h => absurd h.2 (by decide)
  | q :: P, file :: file' :: Q =>
      refine iff_of_true trivial fun h => ?_
      have hone := h.2
      rw [List.length_cons, List.length_cons] at hone
      omega
  | q :: P, [file] =>
      refine iff_of_false (fun h => ?_) (not_not_intro ⟨List.cons_ne_nil q P, rfl⟩)
      have hslot : ((argvOf (q :: P ++ [gtWord, file])).set (q :: P).length (some file)).getD
          ((q :: P).length + 1) none = some file := by
        rw [List.getD_eq_getElem?_getD, List.getElem?_set_ne (by omega),
          ← List.getD_eq_getElem?_getD, argvOf_getD, List.getElem?_append_right (by omega),
          Nat.add_sub_cancel_left]
        rfl
      have hnone := h.1
      rw [hslot] at hnone
      cases hnone

theorem redirectNeeds_iff (hinit : init.length = 100) (hP : Clean P) (hQ : Clean Q)
    (hlen : (P ++ p :: Q).length ≤ 100) (hp : p.bytes = x ++ gt :: y) (hx : gt ∉ x)
    (hy : gt ∉ y) :
    RedirectNeeds init (redirect (argvOf (P ++ p :: Q)) (P ++ p :: Q).length) ↔
      RedirectTerminated init (P.map CString.bytes) p.bytes (Q.map CString.bytes) := by
  have hcount : (P.map CString.bytes ++ p.bytes :: Q.map CString.bytes).length =
      (P ++ p :: Q).length := by
    rw [← List.map_cons, ← List.map_append, List.length_map]
  by_cases hxne : x = []
  · subst hxne
    have hhead : p.bytes.head? = some gt := by rw [hp]; rfl
    by_cases hyne : y = []
    · subst hyne
      have hword : p = gtWord := CString.ext hp
      subst hword
      rw [redirectNeeds_alone hP hQ hlen]
      constructor
      · intro hplace
        refine .refused rfl fun h => hplace ⟨fun hnil => h.1 (by rw [hnil]; rfl), ?_⟩
        rw [List.length_map] at h
        exact h.2
      · intro hterm hplace
        cases hterm with
        | refused alone place =>
            refine place ⟨fun hnil => hplace.1 (List.map_eq_nil_iff.mp hnil), ?_⟩
            rw [List.length_map]
            exact hplace.2
        | edge word ends null => exact word rfl
        | inner ends last null => exact ends.1 hhead
    · rw [redirect_leading hP hQ hlen hp hy hyne]
      have hsame : (P ++ p.tail :: Q).length = (P ++ p :: Q).length := by
        rw [List.length_append, List.length_append, List.length_cons, List.length_cons]
      show (argvOf (P ++ p.tail :: Q)).getD (P ++ p.tail :: Q).length none = none ∧
        init[(P ++ p.tail :: Q).length]? = some true ↔ _
      rw [and_iff_right (argvOf_end _), hsame]
      have hword : p.bytes ≠ [gt] := by
        rw [hp]
        exact fun h => hyne (List.cons.inj h).2
      constructor
      · intro null
        exact .edge hword (.inl hhead) (by rw [hcount]; exact null)
      · intro hterm
        cases hterm with
        | refused alone place => exact absurd alone hword
        | edge word ends null => rwa [hcount] at null
        | inner ends last null => exact absurd hhead ends.1
  · by_cases hyne : y = []
    · subst hyne
      have hlast : p.bytes.getLast? = some gt := by rw [hp, List.getLast?_concat]
      have hword : p.bytes ≠ [gt] := by
        intro h
        rw [hp] at h
        have hone := congrArg List.length h
        have hpos := List.length_pos_of_ne_nil hxne
        rw [List.length_append, List.length_singleton] at hone
        omega
      have hsame : (P ++ p.dropLast :: Q).length = (P ++ p :: Q).length := by
        rw [List.length_append, List.length_append, List.length_cons, List.length_cons]
      rw [redirect_trailing hP hQ hlen hp hx hxne]
      show (argvOf (P ++ p.dropLast :: Q)).getD (P ++ p.dropLast :: Q).length none = none ∧
        init[(P ++ p.dropLast :: Q).length]? = some true ↔ _
      rw [and_iff_right (argvOf_end _), hsame]
      constructor
      · intro null
        exact .edge hword (.inr hlast) (by rw [hcount]; exact null)
      · intro hterm
        cases hterm with
        | refused alone place => exact absurd alone hword
        | edge word ends null => rwa [hcount] at null
        | inner ends last null => exact absurd hlast ends.2
    · have hends := middle_ends hp hx hy hxne hyne
      have hword : p.bytes ≠ [gt] := by
        intro h
        rw [h] at hends
        exact hends.1 rfl
      -- only the last case of the condition is left
      have hinner : RedirectTerminated init (P.map CString.bytes) p.bytes (Q.map CString.bytes) ↔
          Q = [] ∧ init[(P ++ p :: Q).length + 1]? = some true := by
        constructor
        · intro hterm
          cases hterm with
          | refused alone place => exact absurd alone hword
          | edge word ends null => exact absurd ends (by rw [not_or]; exact hends)
          | inner ends last null =>
              rw [hcount] at null
              exact ⟨List.map_eq_nil_iff.mp last, null⟩
        · intro h
          exact .inner hends (List.map_eq_nil_iff.mpr h.1) (by rw [hcount]; exact h.2)
      rw [hinner]
      by_cases hQne : Q = []
      · subst hQne
        rw [and_iff_right rfl]
        rw [List.length_append, List.length_singleton] at hlen
        by_cases hroom : P.length + 1 < 100
        · obtain ⟨u, v, -, -, hred⟩ := redirect_middle_last hP hroom hp hx hy hxne hyne
          rw [hred]
          show (argvOf (P ++ [u, v])).getD (P ++ [u, v]).length none = none ∧
            init[(P ++ [u, v]).length]? = some true ↔ _
          have hsame : (P ++ [u, v]).length = (P ++ [p]).length + 1 := by
            rw [List.length_append, List.length_append]
            rfl
          rw [and_iff_right (argvOf_end _), hsame]
        · rw [redirect_middle_full hP (by omega) hp hx hy hxne hyne]
          refine iff_of_false id fun null => ?_
          have hfull : init.length ≤ (P ++ [p]).length + 1 := by
            rw [hinit, List.length_append, List.length_singleton]
            omega
          rw [List.getElem?_eq_none hfull] at null
          cases null
      · rw [redirect_middle_inner hP hQ hQne hlen hp hx hy hxne hyne]
        exact iff_of_false id fun h => hQne h.1

end OneRedirect

/-- The array after the pieces of a line. -/
theorem fill_holding (hinit : init.length = 100) {ts : List CString}
    (hcount : ∀ p ∈ ts, p.bytes.count gt ≤ 1) (hlen : ts.length ≤ 100) :
    ∃ c, fill ts 0 (.fresh init) = (c, some ts.length) ∧ Holding init ts c := by
  obtain ⟨hfit, -⟩ := fill_spec (SlotsSound.fresh hinit) (Nat.zero_le 100) hcount
  rw [Nat.zero_add] at hfit
  obtain ⟨c, hfill, hfilled, hlog⟩ := hfit hlen
  refine ⟨c, hfill, hfilled, fun j => ?_, ?_⟩
  · rw [hlog]
    have hnone : .write j ∉ (Cmd.fresh init).log := List.not_mem_nil
    rw [or_iff_right hnone, and_iff_right (Nat.zero_le j)]
  · have hstore := fill_pieces hfill
    have hfresh : (Cmd.fresh init).pieces = newArgv := by
      rw [Cmd.pieces, Cmd.fresh, List.map_map, newArgv, ← hinit]
      exact List.map_const'
    rw [hfresh, storePieces_newArgv, if_pos hlen] at hstore
    exact (Prod.mk.inj (Option.some.inj hstore)).1.symm

/-- The token with the `>` is alone in having one. -/
theorem oneFrom_of_clean {P Q : List CString} {p : CString} (h : Holding init (P ++ p :: Q) c)
    (hP : Clean P) (hQ : Clean Q) : OneFrom c 0 := by
  intro j k t u _ hjk ht hgt hu hgt'
  rw [h.getD] at ht hu
  rcases Nat.lt_trichotomy j P.length with hlt | heq | hgtj
  · rw [List.getElem?_append_left hlt] at ht
    exact hP t (List.mem_of_getElem? ht) hgt
  · rw [List.getElem?_append_right (by omega), List.getElem?_cons,
      if_neg (by omega)] at hu
    exact hQ u (List.mem_of_getElem? hu) hgt'
  · rw [List.getElem?_append_right (by omega), List.getElem?_cons,
      if_neg (by omega)] at ht
    exact hQ t (List.mem_of_getElem? ht) hgt

/-- The array of a line with one `>`. -/
theorem rewriteArgv_wellFormed_iff (hinit : init.length = 100) {P Q : List CString} {p : CString}
    {x y : List UInt8} (h : Holding init (P ++ p :: Q) c) (hP : Clean P) (hQ : Clean Q)
    (hlen : (P ++ p :: Q).length ≤ 100) (hp : p.bytes = x ++ gt :: y) (hx : gt ∉ x) (hy : gt ∉ y) :
    WellFormedArgv (finishRedirect (rewriteArgv c (P ++ p :: Q).length)) ↔
      RedirectTerminated init (P.map CString.bytes) p.bytes (Q.map CString.bytes) := by
  have hne : P ++ p :: Q ≠ [] := List.append_ne_nil_of_right_ne_nil P (List.cons_ne_nil p Q)
  obtain ⟨herases, hspec⟩ := rewriteArgv_spec h hne (oneFrom_of_clean h hP hQ)
  rw [finishRedirect_wellFormed herases hspec, redirectNeeds_iff hinit hP hQ hlen hp hx hy]

/-- **The argument array is well formed** exactly for the lines of the condition. -/
theorem preprocessArgv_wellFormed_iff (hinit : init.length = 100) {command : CString}
    (hline : IsLine command) :
    WellFormedArgv (preprocessArgv init command) ↔ LineTerminated init command.bytes := by
  obtain ⟨hred, hmis⟩ := scan_count command.bytes
  rw [preprocessArgv]
  by_cases hm : (scan command.bytes).misformatted = true
  · rw [if_pos hm]
    exact iff_of_true ⟨.nil, fun argc heq => by cases heq⟩ (.several (hmis.mp hm))
  have hfew : command.bytes.count gt < 2 := by
    rw [hmis] at hm
    omega
  rw [Bool.not_eq_true] at hm
  have hcount := pieces_count hline hm
  have hbytes := pieces_bytes hline hm
  have hlength : (tokens command.bytes).length = (pieces (scan command.bytes).command).length := by
    rw [← hbytes, List.length_map]
  rw [hm, if_neg Bool.false_ne_true]
  by_cases hlen : (pieces (scan command.bytes).command).length ≤ 100
  · obtain ⟨c, hfill, hold⟩ := fill_holding hinit hcount hlen
    rw [hfill]
    by_cases hgt : gt ∈ command.bytes
    · obtain ⟨hone, P, p, Q, x, y, hpieces, hP, hQ, hp, hx, hy⟩ := exists_redirect hline hm hgt
      rw [hpieces] at hold hlen hlength ⊢
      have hiff := rewriteArgv_wellFormed_iff hinit hold hP hQ hlen hp hx hy
      rw [hred.mpr (by omega)]
      show WellFormedArgv (finishRedirect (rewriteArgv c (P ++ p :: Q).length)) ↔ _
      have htokens : tokens command.bytes = P.map CString.bytes ++ p.bytes :: Q.map CString.bytes := by
        rw [← hbytes, hpieces, List.map_append, List.map_cons]
      have hmem : gt ∈ p.bytes := by
        rw [hp]
        exact List.mem_append_right x List.mem_cons_self
      rw [hiff]
      constructor
      · intro hterm
        exact .redirect hone (by omega) _ _ _ htokens hmem hterm
      · intro hline'
        cases hline' with
        | several count => omega
        | plain count any null => exact absurd hgt count
        | redirect count few A' t' B' split mem terminated =>
            have hA : ∀ a ∈ P.map CString.bytes, ¬ gt ∈ a := by
              intro a ha
              obtain ⟨q, hq, rfl⟩ := List.mem_map.mp ha
              exact hP q hq
            have hB : ∀ b ∈ Q.map CString.bytes, ¬ gt ∈ b := by
              intro b hb
              obtain ⟨q, hq, rfl⟩ := List.mem_map.mp hb
              exact hQ q hq
            rw [htokens] at split
            obtain ⟨hA', ht', hB'⟩ := split_unique hA hB mem split
            rw [← hA', ← ht', ← hB']
            exact terminated
    · have hzero := List.count_eq_zero.mpr hgt
      have hplain : (scan command.bytes).isRedir = false := (scan_plain hgt).2
      rw [hplain]
      show WellFormedArgv (finishArgv c (pieces (scan command.bytes).command).length) ↔ _
      have hbehind : .write (pieces (scan command.bytes).command).length ∉ c.log := by
        rw [hold.log]
        exact Nat.lt_irrefl _
      by_cases hany : tokens command.bytes = []
      · rw [hany, List.length_nil] at hlength
        refine iff_of_false (finish_unset ?_) fun hline' => ?_
        · rw [hold.log, ← hlength]
          exact Nat.lt_irrefl 0
        · cases hline' with
          | several count => omega
          | plain count any null => exact any hany
          | redirect count few A t B split mem terminated => omega
      · have hpos := List.length_pos_of_ne_nil hany
        rw [finish_wellFormed hold.filled ((hold.log 0).mpr (by omega)),
          hold.filled.null_iff hbehind, ← hlength]
        constructor
        · intro null
          exact .plain hgt hany null
        · intro hline'
          cases hline' with
          | several count => omega
          | plain count any null => exact null
          | redirect count few A t B split mem terminated => omega
  · obtain ⟨-, hover⟩ := fill_spec (SlotsSound.fresh hinit) (Nat.zero_le 100) hcount
    obtain ⟨c, hfill, hunsound⟩ := hover (by omega)
    rw [hfill]
    refine iff_of_false (fun hwell => hunsound hwell.sound) fun hline' => ?_
    cases hline' with
    | several count => omega
    | plain count any null =>
        rw [List.getElem?_eq_none (by omega)] at null
        cases null
    | redirect count few A t B split mem terminated => omega

/-- `ls`. -/
def lsLine : CString := .ofBuffer [108, 115]

theorem preprocessArgv_wellFormed_ls :
    WellFormedArgv (preprocessArgv (List.replicate 100 true) lsLine) ↔
      LineTerminated (List.replicate 100 true) lsLine.bytes :=
  preprocessArgv_wellFormed_iff (by decide) (by unfold IsLine; decide)

/-- In an array that `malloc` left without null pointers nothing ends the vector of `ls`. -/
theorem ls_not_terminated :
    ¬ WellFormedArgv (preprocessArgv (List.replicate 100 false) lsLine) := by
  intro hwell
  have hended : (preprocessArgv (List.replicate 100 false) lsLine).2 = .returned 1 true := by
    decide
  have hslot : (preprocessArgv (List.replicate 100 false) lsLine).1.slots[1]? =
      some (.left false) := by decide
  obtain ⟨slot, heq, hnull⟩ := hwell.terminated 1 hended
  rw [hslot] at heq
  cases heq
  cases hnull

/-! ## The call and `preprocess` -/

/-- In an array of zeros a slot is null until it is set. -/
theorem SlotsSound.valid_zeros (h : SlotsSound (List.replicate 100 true) c) :
    (!(c.slots.getD 0 (.left true)).isNull) = (c.pieces.getD 0 none).isSome := by
  rw [Cmd.pieces_getD, List.getD_eq_getElem?_getD]
  by_cases hw : .write 0 ∈ c.log
  · obtain ⟨piece, hslot, -⟩ := h.stored 0 hw
    rw [hslot]
    rfl
  · rw [h.left 0 hw]
    rfl

theorem finishArgv_zeros (h : SlotsSound (List.replicate 100 true) c) (redir : Bool) :
    ∃ isValid, (finishArgv c argc).2 = .returned argc isValid ∧
      finish c.pieces argc redir =
        { argv := (finishArgv c argc).1.pieces, argc := argc, isRedir := redir,
          isValid := isValid } :=
  ⟨_, rfl, by rw [h.valid_zeros]; rfl⟩

/-- `preprocess` returns what the call with its accesses does. -/
def Returns (result : Option ArgumentPck) (redir : Bool) (r : Cmd × Ended) : Prop :=
  match r.2 with
  | .crashed => result = none
  | .refused => result = some (invalid redir)
  | .returned argc isValid =>
      result = some { argv := r.1.pieces, argc := argc, isRedir := redir, isValid := isValid }

/-- With an array of zeros the call is `preprocess`. -/
theorem preprocessArgv_zeros (m : Mysh) {command : CString} (hline : IsLine command) :
    Returns (preprocess m command).result (scan command.bytes).isRedir
      (preprocessArgv (List.replicate 100 true) command) := by
  have hinit : (List.replicate 100 true).length = 100 := List.length_replicate
  rw [preprocessArgv]
  by_cases hm : (scan command.bytes).misformatted = true
  · rw [if_pos hm]
    exact preprocess_misformatted hm
  rw [Bool.not_eq_true] at hm
  have hcount := pieces_count hline hm
  rw [hm, if_neg Bool.false_ne_true]
  by_cases hlen : (pieces (scan command.bytes).command).length ≤ 100
  · obtain ⟨c, hfill, hold⟩ := fill_holding hinit hcount hlen
    rw [hfill]
    by_cases hgt : gt ∈ command.bytes
    · obtain ⟨hone, P, p, Q, x, y, hpieces, hP, hQ, -, -, -⟩ := exists_redirect hline hm hgt
      have hredir := (scan_count command.bytes).1.mpr (Nat.le_of_eq hone.symm)
      rw [preprocess_redirect hm hredir hlen, hredir]
      rw [hpieces] at hold ⊢
      have hne : P ++ p :: Q ≠ [] :=
        List.append_ne_nil_of_right_ne_nil P (List.cons_ne_nil p Q)
      obtain ⟨herases, hspec⟩ := rewriteArgv_spec hold hne (oneFrom_of_clean hold hP hQ)
      show Returns _ true (finishRedirect (rewriteArgv c (P ++ p :: Q).length))
      generalize rewriteArgv c (P ++ p :: Q).length = r at herases hspec ⊢
      obtain ⟨c', ended⟩ := r
      cases hd : redirect (argvOf (P ++ p :: Q)) (P ++ p :: Q).length with
      | crashed stores =>
          rw [hd] at herases
          have hended : ended = .crashed := herases
          subst hended
          rfl
      | misformatted stores =>
          rw [hd] at herases
          have hended : ended = .misformatted := herases
          subst hended
          rfl
      | parsed cmd argc stores =>
          rw [hd] at herases
          obtain ⟨hended, rfl⟩ := herases
          dsimp only at hended
          subst hended
          rcases hspec with ⟨hend, -⟩ | hrewrote
          · cases hend
          obtain ⟨isValid, hended, heq⟩ := @finishArgv_zeros c' argc hrewrote.filled true
          show Returns _ true (finishArgv c' argc)
          rw [Returns, hended]
          exact congrArg some heq
    · rw [(scan_plain hgt).2, preprocess_plain hm (scan_plain hgt).2 hlen, ← hold.pieces]
      obtain ⟨isValid, hended, heq⟩ :=
        @finishArgv_zeros c (pieces (scan command.bytes).command).length hold.filled false
      show Returns _ false (finishArgv c (pieces (scan command.bytes).command).length)
      rw [Returns, hended, heq]
  · obtain ⟨-, hover⟩ := fill_spec (SlotsSound.fresh hinit) (Nat.zero_le 100) hcount
    obtain ⟨c, hfill, -⟩ := hover (by omega)
    rw [hfill]
    exact preprocess_long hm (by omega)

end CS537.Shell
