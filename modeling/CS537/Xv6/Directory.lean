import CS537.Lib.CString
import CS537.Lib.Lts
import CS537.Lib.SlotTable

/-!
# Directories

The directories of `fs.c`: a file of entries, each free or with a name and an inode number.
`dirlookup`, `dirlink` and the part of `sys_unlink` that frees an entry keep a map from names,
cut to `DIRSIZ` bytes, to inode numbers.
-/

namespace CS537.Xv6.Directory

open Lts

/-- `DIRSIZ`. -/
def dirSiz : Nat := 14

/-- `MAXFILE * BSIZE`, the bytes a file can have. -/
def maxFileBytes : Nat := (12 + 512 / 4) * 512

/-- `struct dirent`; the name has no terminator where it is `DIRSIZ` bytes long. -/
structure Dirent where
  inum : Nat
  name : List UInt8
  deriving DecidableEq

/-- `strncmp`; the end of a list is its terminator. -/
def strncmp : Nat → List UInt8 → List UInt8 → Int
  | 0, _, _ => 0
  | n + 1, p, q =>
      if p.headD 0 ≠ 0 ∧ p.headD 0 = q.headD 0 then strncmp n p.tail q.tail
      else (p.headD 0).toNat - (q.headD 0).toNat

/-- The bytes that `strncpy` writes. -/
def strncpy : Nat → List UInt8 → List UInt8
  | 0, _ => []
  | n + 1, t =>
      if t.headD 0 = 0 then List.replicate (n + 1) 0 else t.headD 0 :: strncpy n t.tail

/-- `namecmp`. -/
def namecmp (s t : List UInt8) : Int := strncmp dirSiz s t

/-- `dirlookup`: the number of the entry and the inode's. -/
def dirlookup (name : List UInt8) : List Dirent → Option (Nat × Nat)
  | [] => none
  | de :: dp =>
      if de.inum = 0 then (dirlookup name dp).map fun r => (r.1 + 1, r.2)
      else if namecmp name de.name = 0 then some (0, de.inum)
      else (dirlookup name dp).map fun r => (r.1 + 1, r.2)

/-- The loop of `dirlink`, for an empty entry. -/
def emptyDirent : List Dirent → Nat
  | [] => 0
  | de :: dp => if de.inum = 0 then 0 else emptyDirent dp + 1

/-- `writei` of the entry `off`; its failure is a `panic`. -/
def writeDirent (dp : List Dirent) (off : Nat) (de : Dirent) : Option (List Dirent) :=
  if dp.length < off ∨ maxFileBytes < 16 * (off + 1) then none
  else if off < dp.length then some (dp.set off de)
  else some (dp ++ [de])

/-- `dirlink`. -/
def dirlink (dp : List Dirent) (name : List UInt8) (inum : Nat) : Option (Int × List Dirent) :=
  match dirlookup name dp with
  | some _ => some (-1, dp)
  | none =>
      (writeDirent dp (emptyDirent dp) ⟨inum % 65536, strncpy dirSiz name⟩).map fun dp => (0, dp)

def dot : List UInt8 := [46]

def dotdot : List UInt8 := [46, 46]

/-- `isdirempty`. -/
def isdirempty (dp : List Dirent) : Bool := (dp.drop 2).all fun de => de.inum = 0

/-- What `sys_unlink` does to the directory; `busy` says that the inode is a directory that is
not empty. -/
def unlink (dp : List Dirent) (name : List UInt8) (busy : Bool) : Option (Int × List Dirent) :=
  if namecmp name dot = 0 ∨ namecmp name dotdot = 0 then some (-1, dp)
  else
    match dirlookup name dp with
    | none => some (-1, dp)
    | some (off, _) =>
        if busy then some (-1, dp)
        else (writeDirent dp off ⟨0, List.replicate dirSiz 0⟩).map fun dp => (0, dp)

/-- A directory as `create` makes it. -/
def newDir (self parent : Nat) : Option (Int × List Dirent) :=
  (dirlink [] dot self).bind fun r => dirlink r.2 dotdot parent

/-! ## Names -/

/-- The name that the bytes stand for in a directory. -/
def key (name : List UInt8) : CString := CString.ofBuffer (name.take dirSiz)

theorem takeWhile_take_succ (n : Nat) (p : List UInt8) :
    (p.take (n + 1)).takeWhile (· ≠ 0) =
      if p.headD 0 = 0 then [] else p.headD 0 :: (p.tail.take n).takeWhile (· ≠ 0) := by
  cases p with
  | nil => rfl
  | cons a p => by_cases ha : a = 0 <;> simp [ha]

theorem strncmp_eq_zero {n : Nat} {p q : List UInt8} :
    strncmp n p q = 0 ↔ (p.take n).takeWhile (· ≠ 0) = (q.take n).takeWhile (· ≠ 0) := by
  induction n generalizing p q with
  | zero => simp [strncmp]
  | succ n ih =>
      rw [strncmp, takeWhile_take_succ, takeWhile_take_succ]
      by_cases hsame : p.headD 0 = q.headD 0
      · rw [hsame]
        by_cases h0 : q.headD 0 = 0
        · rw [if_neg fun h => h.1 h0, if_pos h0, if_pos h0]
          simp
        · rw [if_pos ⟨h0, rfl⟩, ih, if_neg h0, if_neg h0, List.cons_inj_right]
      · rw [if_neg fun h => hsame h.2]
        refine ⟨fun hzero => absurd (UInt8.toNat_inj.mp (by omega)) hsame, fun heq => ?_⟩
        -- one of the two ends here, or the first bytes differ
        split at heq <;> split at heq <;> simp_all

theorem namecmp_eq_zero {s t : List UInt8} : namecmp s t = 0 ↔ key s = key t :=
  strncmp_eq_zero.trans ⟨fun h => CString.ext h, fun h => congrArg CString.bytes h⟩

theorem take_strncpy (n : Nat) (t : List UInt8) :
    ((strncpy n t).take n).takeWhile (· ≠ 0) = (t.take n).takeWhile (· ≠ 0) := by
  induction n generalizing t with
  | zero => rw [List.take_zero, List.take_zero]
  | succ n ih =>
      rw [takeWhile_take_succ, takeWhile_take_succ, strncpy]
      by_cases h0 : t.headD 0 = 0
      · rw [if_pos h0, if_pos h0]
        rfl
      · rw [if_neg h0, if_neg h0, List.headD_cons, if_neg h0, List.tail_cons, ih]

/-- An entry has the name that was copied into it. -/
@[simp] theorem key_strncpy (name : List UInt8) : key (strncpy dirSiz name) = key name :=
  CString.ext (take_strncpy dirSiz name)

/-! ## The table -/

/-- The entry's name and inode number, if it has one. -/
def slot (de : Dirent) : Option (CString × Nat) :=
  if de.inum = 0 then none else some (key de.name, de.inum)

theorem dirlookup_eq (name : List UInt8) (dp : List Dirent) :
    dirlookup name dp = SlotTable.find (key name) (dp.map slot) := by
  induction dp with
  | nil => rfl
  | cons de dp ih =>
      rw [dirlookup, List.map_cons, slot, ih]
      by_cases h0 : de.inum = 0
      · rw [if_pos h0, if_pos h0, SlotTable.find]
      · rw [if_neg h0, if_neg h0, SlotTable.find]
        by_cases hname : namecmp name de.name = 0
        · rw [if_pos hname, if_pos (namecmp_eq_zero.mp hname)]
        · rw [if_neg hname, if_neg fun h => hname (namecmp_eq_zero.mpr h)]

theorem emptyDirent_eq (dp : List Dirent) : emptyDirent dp = SlotTable.room (dp.map slot) := by
  induction dp with
  | nil => rfl
  | cons de dp ih =>
      rw [emptyDirent, List.map_cons, slot, ih]
      by_cases h0 : de.inum = 0
      · rw [if_pos h0, if_pos h0, SlotTable.room]
      · rw [if_neg h0, if_neg h0, SlotTable.room]

theorem writeDirent_eq {dp dp' : List Dirent} {off : Nat} {de : Dirent}
    (h : writeDirent dp off de = some dp') :
    dp'.map slot = SlotTable.write (dp.map slot) off (slot de) := by
  unfold writeDirent at h
  unfold SlotTable.write
  rw [List.length_map]
  split at h
  · cases h
  · split at h
    · rename_i hlt
      cases h
      rw [if_pos hlt, List.map_set]
    · rename_i hge
      cases h
      rw [if_neg hge, List.map_append]
      rfl

/-! ## Runs -/

/-- A call that reads or changes the directory, with what it returned. -/
inductive Call where
  | lookup (name : List UInt8) (r : Option Nat)
  | link (name : List UInt8) (inum : Nat) (r : Int)
  | unlink (name : List UInt8) (busy : Bool) (r : Int)

/-- The calls on a directory; inode numbers are those that a `ushort` holds. -/
inductive Step : List Dirent → Call → List Dirent → Prop
  | lookup {dp : List Dirent} {name : List UInt8} :
      Step dp (.lookup name ((dirlookup name dp).map Prod.snd)) dp
  | link {dp dp' : List Dirent} {name : List UInt8} {inum : Nat} {r : Int} :
      0 < inum → inum < 65536 → dirlink dp name inum = some (r, dp') →
      Step dp (.link name inum r) dp'
  | unlink {dp dp' : List Dirent} {name : List UInt8} {busy : Bool} {r : Int} :
      unlink dp name busy = some (r, dp') → Step dp (.unlink name busy r) dp'

/-- What the calls do to a map from names to inode numbers. -/
inductive MapStep : (CString → Option Nat) → Call → (CString → Option Nat) → Prop
  | lookup {m : CString → Option Nat} {name : List UInt8} :
      MapStep m (.lookup name (m (key name))) m
  | link {m : CString → Option Nat} {name : List UInt8} {inum : Nat} :
      m (key name) = none →
      MapStep m (.link name inum 0) (Function.update m (key name) (some inum))
  | taken {m : CString → Option Nat} {name : List UInt8} {inum : Nat} :
      m (key name) ≠ none → MapStep m (.link name inum (-1)) m
  | unlink {m : CString → Option Nat} {name : List UInt8} :
      m (key name) ≠ none → key name ≠ key dot → key name ≠ key dotdot →
      MapStep m (.unlink name false 0) (Function.update m (key name) none)
  | refused {m : CString → Option Nat} {name : List UInt8} {busy : Bool} :
      m (key name) = none ∨ key name = key dot ∨ key name = key dotdot ∨ busy = true →
      MapStep m (.unlink name busy (-1)) m

open SlotTable (Models)

variable {dp dp' : List Dirent} {m : CString → Option Nat}

theorem dirlookup_models (h : Models (dp.map slot) m) (name : List UInt8) :
    (dirlookup name dp).map Prod.snd = m (key name) := by
  rw [dirlookup_eq, h.find]

theorem dirlookup_none (h : Models (dp.map slot) m) {name : List UInt8} :
    dirlookup name dp = none ↔ m (key name) = none := by
  rw [← dirlookup_models h, Option.map_eq_none_iff]

/-- What `dirlink` can do: it finds the name, or writes a free entry or one more. -/
theorem dirlink_cases {name : List UInt8} {inum : Nat} {r : Int} (hpos : 0 < inum)
    (hlt : inum < 65536) (hlink : dirlink dp name inum = some (r, dp')) :
    dirlookup name dp ≠ none ∧ r = -1 ∧ dp' = dp ∨
      dirlookup name dp = none ∧ r = 0 ∧
        ∃ i, ((dp.map slot)[i]? = some none ∨ i = (dp.map slot).length) ∧
          dp'.map slot = SlotTable.write (dp.map slot) i (some (key name, inum)) := by
  unfold dirlink at hlink
  cases hfind : dirlookup name dp with
  | some q =>
      rw [hfind] at hlink
      cases hlink
      exact .inl ⟨Option.some_ne_none q, rfl, rfl⟩
  | none =>
      rw [hfind] at hlink
      obtain ⟨_, hwrite, heq⟩ := Option.map_eq_some_iff.mp hlink
      cases heq
      have hslot : slot ⟨inum % 65536, strncpy dirSiz name⟩ = some (key name, inum) := by
        rw [Nat.mod_eq_of_lt hlt, slot, if_neg (Nat.ne_of_gt hpos), key_strncpy]
      refine .inr ⟨rfl, rfl, emptyDirent dp, ?_, ?_⟩
      · rw [emptyDirent_eq]
        exact SlotTable.room_free _
      · rw [writeDirent_eq hwrite, hslot]

/-- What `sys_unlink` can do: it refuses, or frees the entry with the name. -/
theorem unlink_cases {name : List UInt8} {busy : Bool} {r : Int}
    (hunlink : unlink dp name busy = some (r, dp')) :
    (dirlookup name dp = none ∨ key name = key dot ∨ key name = key dotdot ∨ busy = true) ∧
        r = -1 ∧ dp' = dp ∨
      busy = false ∧ key name ≠ key dot ∧ key name ≠ key dotdot ∧ r = 0 ∧
        ∃ i v, (dp.map slot)[i]? = some (some (key name, v)) ∧
          dp'.map slot = SlotTable.write (dp.map slot) i none := by
  unfold unlink at hunlink
  split at hunlink
  · rename_i hdots
    cases hunlink
    have hdots := hdots.imp namecmp_eq_zero.mp namecmp_eq_zero.mp
    exact .inl ⟨.inr (hdots.imp id .inl), rfl, rfl⟩
  · rename_i hdots
    cases hfind : dirlookup name dp with
    | none =>
        rw [hfind] at hunlink
        cases hunlink
        exact .inl ⟨.inl rfl, rfl, rfl⟩
    | some q =>
        rw [hfind] at hunlink
        cases busy with
        | true =>
            cases hunlink
            exact .inl ⟨.inr (.inr (.inr rfl)), rfl, rfl⟩
        | false =>
            obtain ⟨_, hwrite, heq⟩ := Option.map_eq_some_iff.mp hunlink
            cases heq
            rw [namecmp_eq_zero, namecmp_eq_zero, not_or] at hdots
            rw [dirlookup_eq] at hfind
            exact .inr ⟨rfl, hdots.1, hdots.2, rfl, q.1, q.2, SlotTable.find_some hfind,
              writeDirent_eq hwrite⟩

/-- Each call does to the entries what it does to the map. -/
theorem step_models (h : Models (dp.map slot) m) {c : Call} (hstep : Step dp c dp') :
    ∃ m', MapStep m c m' ∧ Models (dp'.map slot) m' := by
  cases hstep with
  | lookup =>
      rw [dirlookup_models h]
      exact ⟨m, .lookup, h⟩
  | link hpos hlt hlink =>
      rcases dirlink_cases hpos hlt hlink with
        ⟨hfound, rfl, rfl⟩ | ⟨hnone, rfl, i, hfree, hwrite⟩
      · exact ⟨m, .taken fun hnone => hfound ((dirlookup_none h).mpr hnone), h⟩
      · have hnone := (dirlookup_none h).mp hnone
        refine ⟨_, .link hnone, ?_⟩
        rw [hwrite]
        exact h.put hfree hnone _
  | unlink hunlink =>
      rcases unlink_cases hunlink with
        ⟨hno, rfl, rfl⟩ | ⟨rfl, hdot, hdotdot, rfl, i, v, hslot, hwrite⟩
      · exact ⟨m, .refused (hno.imp (dirlookup_none h).mp id), h⟩
      · have hsome : m _ = some v := (h.mem _ v).mpr ⟨i, hslot⟩
        refine ⟨_, .unlink (by rw [hsome]; exact Option.some_ne_none v) hdot hdotdot, ?_⟩
        rw [hwrite]
        exact h.clear hslot

/-- The first two entries are "." and "..". -/
def Dotted (self parent : Nat) (s : List (Option (CString × Nat))) : Prop :=
  s[0]? = some (some (key dot, self)) ∧ s[1]? = some (some (key dotdot, parent))

variable {self parent : Nat}

theorem Dotted.write {s : List (Option (CString × Nat))} {x : Option (CString × Nat)} {i : Nat}
    (h : Dotted self parent s) (hle : i ≤ s.length) (h0 : i ≠ 0) (h1 : i ≠ 1) :
    Dotted self parent (SlotTable.write s i x) := by
  unfold Dotted
  rw [SlotTable.getElem?_write hle, SlotTable.getElem?_write hle, if_neg h0.symm,
    if_neg h1.symm]
  exact h

theorem step_dotted (h : Dotted self parent (dp.map slot)) {c : Call} (hstep : Step dp c dp') :
    Dotted self parent (dp'.map slot) := by
  cases hstep with
  | lookup => exact h
  | link hpos hlt hlink =>
      rcases dirlink_cases hpos hlt hlink with ⟨-, -, rfl⟩ | ⟨-, -, i, hfree, hwrite⟩
      · exact h
      · have htwo : 1 < (dp.map slot).length := (List.getElem?_eq_some_iff.mp h.2).1
        rw [hwrite]
        rcases hfree with hfree | rfl
        · refine h.write (Nat.le_of_lt (List.getElem?_eq_some_iff.mp hfree).1) ?_ ?_
          · rintro rfl
            simp [h.1] at hfree
          · rintro rfl
            simp [h.2] at hfree
        · exact h.write (Nat.le_refl _) (by omega) (by omega)
  | unlink hunlink =>
      rcases unlink_cases hunlink with ⟨-, -, rfl⟩ | ⟨-, hdot, hdotdot, -, i, v, hslot, hwrite⟩
      · exact h
      · rw [hwrite]
        refine h.write (Nat.le_of_lt (List.getElem?_eq_some_iff.mp hslot).1) ?_ ?_
        · rintro rfl
          rw [h.1] at hslot
          simp only [Option.some.injEq, Prod.mk.injEq] at hslot
          exact hdot hslot.1.symm
        · rintro rfl
          rw [h.2] at hslot
          simp only [Option.some.injEq, Prod.mk.injEq] at hslot
          exact hdotdot hslot.1.symm

/-! ## A new directory -/

/-- The numbers of inodes that a directory can have. -/
def Number (inum : Nat) : Prop := 0 < inum ∧ inum < 65536

theorem dot_ne : key dotdot ≠ key dot := by decide

theorem newDir_slots {r : Int} (hself : Number self) (hparent : Number parent)
    (hnew : newDir self parent = some (r, dp)) :
    dp.map slot = [some (key dot, self), some (key dotdot, parent)] := by
  obtain ⟨⟨r₁, dp₁⟩, hdot, hdotdot⟩ := Option.bind_eq_some_iff.mp hnew
  rcases dirlink_cases hself.1 hself.2 hdot with ⟨hfound, -⟩ | ⟨-, -, i, hfree, hwrite⟩
  · exact absurd rfl hfound
  · have hi : i = 0 := hfree.resolve_left (by simp)
    have hone : dp₁.map slot = [some (key dot, self)] := by rw [hwrite, hi]; rfl
    rcases dirlink_cases hparent.1 hparent.2 hdotdot with
      ⟨hfound, -⟩ | ⟨-, -, i, hfree, hwrite⟩
    · rw [dirlookup_eq, hone] at hfound
      exact absurd (if_neg dot_ne) hfound
    · have hi : i = 1 := by
        rw [hone] at hfree
        refine hfree.resolve_left fun hnone => ?_
        cases i with
        | zero => simp at hnone
        | succ i => simp at hnone
      rw [hwrite, hone, hi]
      rfl

/-- The map of a new directory. -/
def newMap (self parent : Nat) : CString → Option Nat :=
  Function.update (Function.update (fun _ => none) (key dot) (some self)) (key dotdot)
    (some parent)

theorem newMap_models :
    Models [some (key dot, self), some (key dotdot, parent)] (newMap self parent) := by
  have hempty : Models ([] : List (Option (CString × Nat))) fun _ => none :=
    ⟨fun k v => by simp, fun i j k v w hi => by simp at hi⟩
  have hone : Models [some (key dot, self)] _ := hempty.put (.inr rfl) rfl self
  have hnone : Function.update (fun _ => none) (key dot) (some self) (key dotdot) = none :=
    Function.update_of_ne dot_ne _ _
  exact hone.put (.inr rfl) hnone parent

theorem run_models {as : List Call} (hrun : Run Step dp as dp') (h : Models (dp.map slot) m) :
    ∃ m', Run MapStep m as m' ∧ Models (dp'.map slot) m' := by
  induction hrun with
  | nil => exact ⟨m, .nil m, h⟩
  | snoc _ hstep ih =>
      obtain ⟨m₁, hrun₁, h₁⟩ := ih
      obtain ⟨m₂, hstep₂, h₂⟩ := step_models h₁ hstep
      exact ⟨m₂, hrun₁.snoc hstep₂, h₂⟩

/-- The entries of the root directory as `create` would make them. -/
def rootEntries : List Dirent := [⟨1, strncpy dirSiz dot⟩, ⟨1, strncpy dirSiz dotdot⟩]

/-- And with a name in it. -/
def linkedEntries : List Dirent := rootEntries ++ [⟨5, strncpy dirSiz [97]⟩]

theorem number_one : Number 1 := ⟨by decide, by decide⟩

theorem newDir_root : newDir 1 1 = some (0, rootEntries) := by decide

theorem rootEntries_run : Run Step rootEntries [.link [97] 5 0] linkedEntries :=
  .single (.link (by decide) (by decide) (by decide))

/-- **A directory is a map** from names to inode numbers: each call returns what it returns on
the map, in any order of calls. -/
theorem directory_map {dp₀ : List Dirent} {r : Int} {as : List Call} (hself : Number self)
    (hparent : Number parent) (hnew : newDir self parent = some (r, dp₀))
    (hrun : Run Step dp₀ as dp) :
    ∃ m, Run MapStep (newMap self parent) as m ∧
      ∀ name, (dirlookup name dp).map Prod.snd = m (key name) := by
  have hstart : Models (dp₀.map slot) (newMap self parent) := by
    rw [newDir_slots hself hparent hnew]
    exact newMap_models
  obtain ⟨m, hmap, h⟩ := run_models hrun hstart
  exact ⟨m, hmap, dirlookup_models h⟩

theorem directory_map_root : ∃ m, Run MapStep (newMap 1 1) [.link [97] 5 0] m ∧
    (dirlookup [97] linkedEntries).map Prod.snd = m (key [97]) := by
  obtain ⟨m, hrun, hlookup⟩ := directory_map number_one number_one newDir_root rootEntries_run
  exact ⟨m, hrun, hlookup [97]⟩

theorem isdirempty_slots : isdirempty dp = true ↔
    ∀ (i : Nat) b, (dp.map slot)[i]? = some (some b) → i < 2 := by
  rw [isdirempty, List.all_eq_true]
  constructor
  · intro hall i b hi
    rw [List.getElem?_map] at hi
    obtain ⟨de, hde, hslot⟩ := Option.map_eq_some_iff.mp hi
    by_contra hge
    have hdrop : (dp.drop 2)[i - 2]? = some de := by
      rw [List.getElem?_drop, Nat.add_sub_cancel' (Nat.not_lt.mp hge), hde]
    have hzero := of_decide_eq_true (hall de (List.mem_of_getElem? hdrop))
    rw [slot, if_pos hzero] at hslot
    cases hslot
  · intro hlow de hde
    obtain ⟨j, hj⟩ := List.getElem?_of_mem hde
    rw [List.getElem?_drop] at hj
    refine decide_eq_true (by_contra fun h0 => ?_)
    have hslot : (dp.map slot)[2 + j]? = some (some (key de.name, de.inum)) := by
      rw [List.getElem?_map, hj, Option.map_some, slot, if_neg h0]
    have hlt := hlow _ _ hslot
    omega

/-- **`isdirempty`** looks at the entries from the third on, and this is right: the first two
stay "." and "..". -/
theorem isdirempty_iff {dp₀ : List Dirent} {r : Int} {as : List Call} (hself : Number self)
    (hparent : Number parent) (hnew : newDir self parent = some (r, dp₀))
    (hrun : Run Step dp₀ as dp) :
    isdirempty dp = true ↔
      ∀ name, dirlookup name dp ≠ none → namecmp name dot = 0 ∨ namecmp name dotdot = 0 := by
  have hslots := newDir_slots hself hparent hnew
  obtain ⟨m, -, h⟩ := run_models hrun (hslots ▸ newMap_models)
  have hdotted : Dotted self parent (dp.map slot) :=
    hrun.invariant (fun s a t hs hstep => step_dotted hs hstep) (hslots ▸ ⟨rfl, rfl⟩)
  rw [isdirempty_slots]
  simp only [namecmp_eq_zero, ne_eq, dirlookup_none h]
  constructor
  · intro hlow name hname
    obtain ⟨v, hv⟩ := Option.ne_none_iff_exists'.mp hname
    obtain ⟨i, hi⟩ := (h.mem _ v).mp hv
    have hlt := hlow i _ hi
    rcases Nat.le_one_iff_eq_zero_or_eq_one.mp (Nat.le_of_lt_succ hlt) with rfl | rfl
    · rw [hdotted.1] at hi
      simp only [Option.some.injEq, Prod.mk.injEq] at hi
      exact .inl hi.1.symm
    · rw [hdotted.2] at hi
      simp only [Option.some.injEq, Prod.mk.injEq] at hi
      exact .inr hi.1.symm
  · intro hdots i b hi
    obtain ⟨de, -, hslot⟩ := Option.map_eq_some_iff.mp (List.getElem?_map ▸ hi)
    have hkey : key de.name = b.1 := by
      unfold slot at hslot
      split at hslot
      · cases hslot
      · cases hslot
        rfl
    have hv : m b.1 = some b.2 := (h.mem b.1 b.2).mpr ⟨i, hi⟩
    rcases hdots de.name (by rw [hkey, hv]; exact Option.some_ne_none _) with hdot | hdot
    · have hzero := h.unique i 0 b.1 b.2 self hi (by rw [← hkey, hdot]; exact hdotted.1)
      omega
    · have hone := h.unique i 1 b.1 b.2 parent hi (by rw [← hkey, hdot]; exact hdotted.2)
      omega

theorem isdirempty_iff_root : isdirempty linkedEntries = true ↔
    ∀ name, dirlookup name linkedEntries ≠ none →
      namecmp name dot = 0 ∨ namecmp name dotdot = 0 :=
  isdirempty_iff number_one number_one newDir_root rootEntries_run

end CS537.Xv6.Directory
