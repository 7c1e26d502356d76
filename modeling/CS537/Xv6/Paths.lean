import CS537.Xv6.Directory
import Mathlib.Data.List.TakeWhile

/-!
# Paths

`skipelem` and `namex` of `fs.c`: a path is resolved element by element, from the root or from
the current directory. A name that `dirlink` has put into the directory that `nameiparent`
returns is found by `namei`, and no other path changes.
-/

namespace CS537.Xv6.Directory

open Lts

/-- What is read of an inode on the way: whether it is a directory, and its entries. -/
structure Inode where
  isDir : Bool
  entries : List Dirent

/-- `ROOTINO`. -/
def rootIno : Nat := 1

def slash : UInt8 := 47

/-- `skipelem`: the bytes copied to `name`, and the rest of the path. -/
def skipelem (path : List UInt8) : Option (List UInt8 × List UInt8) :=
  let s := path.dropWhile (· = slash)
  if s = [] then none
  else
    some ((s.takeWhile (· ≠ slash)).take dirSiz,
      (s.dropWhile (· ≠ slash)).dropWhile (· = slash))

/-- The loop of `namex`; its rounds are at most the bytes of the path. -/
def namexLoop (inodes : Nat → Inode) (parent : Bool) :
    Nat → Nat → List UInt8 → List UInt8 → Option (Nat × List UInt8)
  | 0, _, _, _ => none
  | fuel + 1, ip, path, name =>
      match skipelem path with
      | none => if parent then none else some (ip, name)
      | some (name, path) =>
          if (inodes ip).isDir = false then none
          else if parent = true ∧ path = [] then some (ip, name)
          else
            match dirlookup name (inodes ip).entries with
            | none => none
            | some (_, next) => namexLoop inodes parent fuel next path name

/-- Where a path starts. -/
def start (cwd : Nat) (path : List UInt8) : Nat :=
  if path.headD 0 = slash then rootIno else cwd

/-- `namex`, in a process with this current directory. -/
def namex (inodes : Nat → Inode) (cwd : Nat) (parent : Bool) (path : List UInt8) :
    Option (Nat × List UInt8) :=
  namexLoop inodes parent (path.length + 1) (start cwd path) path []

/-- `namei`. -/
def namei (inodes : Nat → Inode) (cwd : Nat) (path : List UInt8) : Option Nat :=
  (namex inodes cwd false path).map Prod.fst

/-- `nameiparent`. -/
def nameiparent (inodes : Nat → Inode) (cwd : Nat) (path : List UInt8) :
    Option (Nat × List UInt8) :=
  namex inodes cwd true path

/-! ## The elements of a path -/

/-- What is between the slashes, cut to names. -/
def elements (path : List UInt8) : List (List UInt8) :=
  ((path.splitOn slash).filter (· ≠ [])).map (List.take dirSiz)

theorem elements_slash (path : List UInt8) : elements (slash :: path) = elements path := by
  unfold elements List.splitOn
  rw [List.splitOnP_cons_eq_if_modifyHead]
  simp

theorem elements_dropWhile (path : List UInt8) :
    elements (path.dropWhile (· = slash)) = elements path := by
  induction path with
  | nil => rfl
  | cons b path ih =>
      by_cases hb : b = slash
      · rw [List.dropWhile_cons_of_pos (by simpa using hb), ih, hb, elements_slash]
      · rw [List.dropWhile_cons_of_neg (by simpa using hb)]

theorem head_dropWhile_slash (path : List UInt8) :
    (path.dropWhile (· = slash)).head? ≠ some slash := by
  intro h
  have hnot := List.head?_dropWhile_not (fun b => decide (b = slash)) path
  rw [h] at hnot
  simp at hnot

/-- After an element there is a slash, or nothing. -/
theorem head?_rest (s : List UInt8) (c : UInt8) (h : (s.dropWhile (· ≠ slash)).head? = some c) :
    c = slash := by
  have hnot := List.head?_dropWhile_not (fun b => decide (b ≠ slash)) s
  rw [h] at hnot
  simpa using hnot

/-- A path that does not start with a slash starts with its first element. -/
theorem elements_word {s : List UInt8} (hne : s ≠ []) (hhead : s.head? ≠ some slash) :
    elements s =
      (s.takeWhile (· ≠ slash)).take dirSiz :: elements (s.dropWhile (· ≠ slash)) := by
  have hword : ∀ b ∈ s.takeWhile (· ≠ slash), (b == slash) = false := fun b hb => by
    simpa using List.mem_takeWhile_imp hb
  have hwne : s.takeWhile (· ≠ slash) ≠ [] := by
    cases s with
    | nil => exact absurd rfl hne
    | cons b s =>
        have hb : b ≠ slash := fun hb => hhead (congrArg some hb)
        rw [List.takeWhile_cons_of_pos (by simpa using hb)]
        exact List.cons_ne_nil _ _
  have hsplit := List.takeWhile_append_dropWhile (p := fun b => decide (b ≠ slash)) (l := s)
  have hrest := head?_rest s
  generalize s.takeWhile (· ≠ slash) = w at hword hwne hsplit ⊢
  generalize s.dropWhile (· ≠ slash) = r at hsplit hrest ⊢
  subst hsplit
  cases r with
  | nil =>
      rw [List.append_nil]
      unfold elements List.splitOn
      rw [List.splitOnP_eq_singleton hword]
      simp [hwne]
  | cons c r =>
      have hc : c = slash := hrest c rfl
      rw [hc, elements_slash]
      unfold elements List.splitOn
      rw [List.splitOnP_append_cons_of_forall_mem hword slash (by simp)]
      simp [hwne]

theorem skipelem_none {path : List UInt8} (h : skipelem path = none) : elements path = [] := by
  unfold skipelem at h
  dsimp only at h
  split at h
  · rename_i hs
    rw [← elements_dropWhile, hs]
    rfl
  · cases h

/-- `skipelem` takes the first element off, and what it leaves has no slash in front. -/
theorem skipelem_some {path name rest : List UInt8} (h : skipelem path = some (name, rest)) :
    elements path = name :: elements rest ∧ rest.length < path.length ∧
      (rest = [] ↔ elements rest = []) := by
  unfold skipelem at h
  dsimp only at h
  split at h
  · cases h
  · rename_i hs
    cases h
    have hhead := head_dropWhile_slash path
    refine ⟨?_, ?_, fun h => by rw [h]; rfl, fun h => ?_⟩
    · rw [elements_dropWhile, ← elements_word hs hhead, elements_dropWhile]
    · have hle := (List.dropWhile_suffix (l := path) fun b => decide (b = slash)).length_le
      refine Nat.lt_of_le_of_lt (List.dropWhile_suffix _).length_le (Nat.lt_of_lt_of_le ?_ hle)
      generalize path.dropWhile (fun b => decide (b = slash)) = s at hs hhead ⊢
      cases s with
      | nil => exact absurd rfl hs
      | cons b s =>
          have hb : b ≠ slash := fun hb => hhead (congrArg some hb)
          rw [List.dropWhile_cons_of_pos (by simpa using hb)]
          exact Nat.lt_succ_of_le (List.dropWhile_suffix _).length_le
    · by_contra hne
      rw [elements_word hne (head_dropWhile_slash _)] at h
      cases h

/-! ## Resolving -/

variable {inodes : Nat → Inode}

/-- Following the names from an inode. -/
def walk (inodes : Nat → Inode) : Nat → List (List UInt8) → Option Nat
  | ip, [] => some ip
  | ip, name :: names =>
      if (inodes ip).isDir = false then none
      else (dirlookup name (inodes ip).entries).bind fun r => walk inodes r.2 names

theorem namexLoop_walk {fuel : Nat} {path : List UInt8} (hfuel : path.length < fuel) (ip : Nat)
    (name : List UInt8) :
    (namexLoop inodes false fuel ip path name).map Prod.fst = walk inodes ip (elements path) := by
  induction fuel generalizing ip path name with
  | zero => cases hfuel
  | succ fuel ih =>
      rw [namexLoop]
      cases hs : skipelem path with
      | none =>
          rw [skipelem_none hs]
          rfl
      | some r =>
          obtain ⟨helem, hlen, -⟩ := skipelem_some hs
          rw [helem, walk]
          dsimp only
          split
          · rfl
          · rw [if_neg fun h => Bool.false_ne_true h.1]
            cases dirlookup r.1 (inodes ip).entries with
            | none => rfl
            | some q => exact ih (by omega) q.2 r.1

/-- **`namei`** follows the elements of the path. -/
theorem namei_eq (inodes : Nat → Inode) (cwd : Nat) (path : List UInt8) :
    namei inodes cwd path = walk inodes (start cwd path) (elements path) :=
  namexLoop_walk (Nat.lt_succ_self _) _ _

theorem namexLoop_parent {fuel : Nat} {path : List UInt8} (hfuel : path.length < fuel) {ip : Nat}
    {buf : List UInt8} {dp : Nat} {name : List UInt8}
    (h : namexLoop inodes true fuel ip path buf = some (dp, name)) :
    ∃ names, elements path = names ++ [name] ∧ walk inodes ip names = some dp ∧
      (inodes dp).isDir = true := by
  induction fuel generalizing ip path buf with
  | zero => cases hfuel
  | succ fuel ih =>
      rw [namexLoop] at h
      cases hs : skipelem path with
      | none =>
          rw [hs] at h
          cases h
      | some r =>
          obtain ⟨helem, hlen, hempty⟩ := skipelem_some hs
          rw [hs] at h
          dsimp only at h
          split at h
          · cases h
          · rename_i hdir
            have hdir' : (inodes ip).isDir = true := by simpa using hdir
            split at h
            · rename_i hlast
              cases h
              exact ⟨[], by rw [helem, hempty.mp hlast.2]; rfl, rfl, hdir'⟩
            · cases hfind : dirlookup r.1 (inodes ip).entries with
              | none =>
                  rw [hfind] at h
                  cases h
              | some q =>
                  rw [hfind] at h
                  obtain ⟨names, hnames, hwalk, hdp⟩ := ih (by omega) h
                  refine ⟨r.1 :: names, by rw [helem, hnames]; rfl, ?_, hdp⟩
                  rw [walk, if_neg hdir, hfind]
                  exact hwalk

theorem walk_append (ip : Nat) (names names' : List (List UInt8)) :
    walk inodes ip (names ++ names') =
      (walk inodes ip names).bind fun dp => walk inodes dp names' := by
  induction names generalizing ip with
  | nil => rfl
  | cons name names ih =>
      rw [List.cons_append, walk, walk]
      split
      · rfl
      · cases dirlookup name (inodes ip).entries with
        | none => rfl
        | some q => exact ih q.2

/-- A lookup that succeeded still does when another name is linked. -/
theorem dirlookup_dirlink {dp dp' : List Dirent} {name name' : List UInt8} {inum i j : Nat}
    (hpos : 0 < inum) (hlt : inum < 65536) (hlink : dirlink dp name inum = some (0, dp'))
    (h : dirlookup name' dp = some (i, j)) : dirlookup name' dp' = some (i, j) := by
  rcases dirlink_cases hpos hlt hlink with ⟨-, hr, -⟩ | ⟨hnone, -, k, hfree, hwrite⟩
  · cases hr
  · rw [dirlookup_eq] at h hnone ⊢
    rw [hwrite]
    exact SlotTable.find_write_other hfree hnone h

theorem dirlookup_linked {dp dp' : List Dirent} {name : List UInt8} {inum : Nat}
    (hpos : 0 < inum) (hlt : inum < 65536) (hlink : dirlink dp name inum = some (0, dp')) :
    ∃ i, dirlookup name dp' = some (i, inum) := by
  rcases dirlink_cases hpos hlt hlink with ⟨-, hr, -⟩ | ⟨hnone, -, k, hfree, hwrite⟩
  · cases hr
  · rw [dirlookup_eq] at hnone
    refine ⟨k, ?_⟩
    rw [dirlookup_eq, hwrite]
    exact SlotTable.find_write_self (SlotTable.free_le hfree) hnone

/-- The inodes after the entries of one directory have changed. -/
def withEntries (inodes : Nat → Inode) (dp : Nat) (entries : List Dirent) : Nat → Inode :=
  Function.update inodes dp { inodes dp with entries := entries }

theorem walk_withEntries {dp : Nat} {entries : List Dirent} {name : List UInt8} {inum : Nat}
    (hpos : 0 < inum) (hlt : inum < 65536)
    (hlink : dirlink (inodes dp).entries name inum = some (0, entries)) {ip : Nat}
    {names : List (List UInt8)} {i : Nat} (h : walk inodes ip names = some i) :
    walk (withEntries inodes dp entries) ip names = some i := by
  induction names generalizing ip with
  | nil => exact h
  | cons name' names ih =>
      rw [walk] at h ⊢
      have hdir : (withEntries inodes dp entries ip).isDir = (inodes ip).isDir := by
        unfold withEntries
        by_cases hip : ip = dp
        · rw [hip, Function.update_self]
        · rw [Function.update_of_ne hip]
      rw [hdir]
      split at h
      · cases h
      · rename_i hd
        obtain ⟨q, hfind, hwalk⟩ := Option.bind_eq_some_iff.mp h
        have hfind' : dirlookup name' (withEntries inodes dp entries ip).entries = some q := by
          unfold withEntries
          by_cases hip : ip = dp
          · rw [hip, Function.update_self]
            exact dirlookup_dirlink hpos hlt hlink (hip ▸ hfind)
          · rw [Function.update_of_ne hip]
            exact hfind
        rw [if_neg hd, hfind']
        exact ih hwalk

/-- `namei` looks for the last element in the directory that `nameiparent` returns. -/
theorem namei_parent {cwd dp : Nat} {path name : List UInt8}
    (hparent : nameiparent inodes cwd path = some (dp, name)) :
    ∃ names, elements path = names ++ [name] ∧ walk inodes (start cwd path) names = some dp ∧
      ∀ entries, walk (withEntries inodes dp entries) dp [name] =
        (dirlookup name entries).map Prod.snd := by
  obtain ⟨names, helem, hwalk, hdir⟩ := namexLoop_parent (Nat.lt_succ_self _) hparent
  refine ⟨names, helem, hwalk, fun entries => ?_⟩
  have hself : withEntries inodes dp entries dp = { inodes dp with entries := entries } :=
    Function.update_self dp _ inodes
  rw [walk, hself, if_neg (by simp [hdir])]
  cases dirlookup name entries <;> rfl

/-- **Linking a name makes its path resolve** to the inode, and leaves all paths that resolved
as they were, from every current directory. -/
theorem namei_linked {cwd dp : Nat} {path name : List UInt8} {inum : Nat} {entries : List Dirent}
    (hinum : Number inum) (hparent : nameiparent inodes cwd path = some (dp, name))
    (hlink : dirlink (inodes dp).entries name inum = some (0, entries)) :
    namei (withEntries inodes dp entries) cwd path = some inum ∧
      ∀ cwd' path' i, namei inodes cwd' path' = some i →
        namei (withEntries inodes dp entries) cwd' path' = some i := by
  refine ⟨?_, fun cwd' path' i h => ?_⟩
  · obtain ⟨names, helem, hwalk, hlast⟩ := namei_parent hparent
    obtain ⟨j, hfind⟩ := dirlookup_linked hinum.1 hinum.2 hlink
    rw [namei_eq, helem, walk_append, walk_withEntries hinum.1 hinum.2 hlink hwalk,
      Option.bind_some, hlast, hfind]
    rfl
  · rw [namei_eq] at h ⊢
    exact walk_withEntries hinum.1 hinum.2 hlink h

theorem namei_linked_root :
    namei (withEntries (fun _ => ⟨true, rootEntries⟩) 1 linkedEntries) 1 [47, 97] = some 5 :=
  (namei_linked ⟨by decide, by decide⟩
    (show nameiparent (fun _ => ⟨true, rootEntries⟩) 1 [47, 97] = some (1, [97]) by decide)
    (by decide)).1

/-- The entries of a directory as calls have left them. -/
def Made (dp : List Dirent) : Prop :=
  ∃ self parent r dp₀ as, Number self ∧ Number parent ∧ newDir self parent = some (r, dp₀) ∧
    Run Step dp₀ as dp

theorem Made.models {dp : List Dirent} (h : Made dp) :
    ∃ m, SlotTable.Models (dp.map slot) m := by
  obtain ⟨self, parent, r, dp₀, as, hself, hparent, hnew, hrun⟩ := h
  have hslots := newDir_slots hself hparent hnew
  obtain ⟨m, -, hm⟩ := run_models hrun (hslots ▸ newMap_models)
  exact ⟨m, hm⟩

/-- Unlinking takes the name, and no other, out of the directory. -/
theorem dirlookup_unlink {dp dp' : List Dirent} (hmade : Made dp) {name : List UInt8} {busy : Bool}
    (hunlink : unlink dp name busy = some (0, dp')) (name' : List UInt8) :
    (dirlookup name' dp').map Prod.snd =
      if key name' = key name then none else (dirlookup name' dp).map Prod.snd := by
  obtain ⟨m, hm⟩ := hmade.models
  rcases unlink_cases hunlink with ⟨-, hr, -⟩ | ⟨-, -, -, -, i, v, hslot, hwrite⟩
  · cases hr
  · have hm' : SlotTable.Models (dp'.map slot) (Function.update m (key name) none) := by
      rw [hwrite]
      exact hm.clear hslot
    rw [dirlookup_models hm', dirlookup_models hm]
    split
    · rename_i hkey
      rw [hkey, Function.update_self]
    · rename_i hkey
      exact Function.update_of_ne hkey _ _

/-- What resolves after the name was unlinked did so before. -/
theorem walk_unlinked {dp : Nat} {entries : List Dirent} (hmade : Made (inodes dp).entries)
    {name : List UInt8} {busy : Bool}
    (hunlink : unlink (inodes dp).entries name busy = some (0, entries)) {ip : Nat}
    {names : List (List UInt8)} {i : Nat}
    (h : walk (withEntries inodes dp entries) ip names = some i) :
    walk inodes ip names = some i := by
  induction names generalizing ip with
  | nil => exact h
  | cons name' names ih =>
      rw [walk] at h ⊢
      by_cases hip : ip = dp
      · subst hip
        have hself : withEntries inodes ip entries ip = { inodes ip with entries := entries } :=
          Function.update_self ip _ inodes
        rw [hself] at h
        dsimp only at h
        split at h
        · cases h
        · rename_i hd
          obtain ⟨q, hfind, hwalk⟩ := Option.bind_eq_some_iff.mp h
          have hold := dirlookup_unlink hmade hunlink name'
          rw [hfind, Option.map_some] at hold
          split at hold
          · cases hold
          · obtain ⟨q', hfind', hsame⟩ := Option.map_eq_some_iff.mp hold.symm
            rw [if_neg hd, hfind', Option.bind_some, hsame]
            exact ih hwalk
      · have hother : withEntries inodes dp entries ip = inodes ip :=
          Function.update_of_ne hip _ _
        rw [hother] at h
        split at h
        · cases h
        · rename_i hd
          obtain ⟨q, hfind, hwalk⟩ := Option.bind_eq_some_iff.mp h
          rw [if_neg hd, hfind, Option.bind_some]
          exact ih hwalk

/-- **Unlinking a name** leaves its path without an inode, and makes no path resolve to another
one. -/
theorem namei_unlinked {cwd dp : Nat} {path name : List UInt8} {busy : Bool}
    {entries : List Dirent} (hmade : Made (inodes dp).entries)
    (hparent : nameiparent inodes cwd path = some (dp, name))
    (hunlink : unlink (inodes dp).entries name busy = some (0, entries)) :
    namei (withEntries inodes dp entries) cwd path = none ∧
      ∀ cwd' path' i, namei (withEntries inodes dp entries) cwd' path' = some i →
        namei inodes cwd' path' = some i := by
  refine ⟨?_, fun cwd' path' i h => ?_⟩
  · obtain ⟨names, helem, hwalk, hlast⟩ := namei_parent hparent
    rw [namei_eq, helem, walk_append]
    cases hnow : walk (withEntries inodes dp entries) (start cwd path) names with
    | none => rfl
    | some ip =>
        -- the way to the directory may have been through the name itself, else it is the same
        have hsame := (walk_unlinked hmade hunlink hnow).symm.trans hwalk
        cases hsame
        rw [Option.bind_some, hlast, dirlookup_unlink hmade hunlink, if_pos rfl]
  · rw [namei_eq] at h ⊢
    exact walk_unlinked hmade hunlink h

theorem namei_unlinked_root :
    namei (withEntries (fun _ => ⟨true, linkedEntries⟩) 1
      (rootEntries ++ [⟨0, List.replicate dirSiz 0⟩])) 1 [47, 97] = none :=
  (namei_unlinked
    (show Made linkedEntries from
      ⟨1, 1, 0, rootEntries, _, number_one, number_one, newDir_root, rootEntries_run⟩)
    (show nameiparent (fun _ => ⟨true, linkedEntries⟩) 1 [47, 97] = some (1, [97]) by decide)
    (show unlink linkedEntries [97] false = some (0, _) by decide)).1

end CS537.Xv6.Directory
