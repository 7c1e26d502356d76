import CS537.Lib.Overwriting
import CS537.FileSystem.Copying
import CS537.FileSystem.Inodes

/-!
# FileSystem — what the scan is to recover

A JPEG is recovered twice: under its inode number, and under the names that
directories give it. `RecoversByName` says what output directory an image should
give; `Scannable` describes the images on which the scan looks in the right places.
-/

namespace CS537.FileSystem

open MachineInt

/-! ## Directories -/

/-- `S_ISDIR`. -/
def sIsDir (mode : Nat) : Bool := mode / 4096 = 4

/-- The inode number of the record at an offset. -/
def entryInode (block : List UInt8) (off : Nat) : Nat := Bytes.field block off 4

/-- `rec_len`. -/
def entryRecLen (block : List UInt8) (off : Nat) : Nat := Bytes.field block (off + 4) 2

/-- `name_len`. -/
def entryNameLen (block : List UInt8) (off : Nat) : Nat := Bytes.field block (off + 6) 1

/-- The name. -/
def entryName (block : List UInt8) (off : Nat) : List UInt8 :=
  (block.drop (off + 8)).take (entryNameLen block off)

/-- The room that a name of some length takes, with the eight bytes before it. -/
def entryRoom (nameLen : Nat) : Nat :=
  if nameLen % 4 ≠ 0 then 8 + nameLen + 4 - nameLen % 4 else 8 + nameLen

/-- The offsets of records that follow each other at the distance `next` gives. -/
def recordsFrom (next : Nat → Nat) : Nat → Nat → List Nat
  | 0, _ => []
  | k + 1, off => if off < 1024 then off :: recordsFrom next k (off + next off) else []

/-- The live entries, along `rec_len`. -/
def liveRecords (block : List UInt8) : List Nat := recordsFrom (entryRecLen block) 128 0

/-- The records one right after the other. Deleting an entry leaves its record where it
was, in the room of the entry before it. -/
def packedRecords (block : List UInt8) : List Nat :=
  recordsFrom (fun off => entryRoom (entryNameLen block off)) 128 0

/-- All records, deleted and live. -/
def dirRecords (block : List UInt8) : List Nat :=
  packedRecords block ++ (liveRecords block).filter (· ∉ packedRecords block)

theorem recordsFrom_ge {next : Nat → Nat} {k off o : Nat} (h : o ∈ recordsFrom next k off) :
    off ≤ o := by
  induction k generalizing off with
  | zero => cases h
  | succ k ih =>
      rw [recordsFrom] at h
      split at h
      · rcases List.mem_cons.mp h with rfl | hrest
        · exact Nat.le_refl o
        · exact Nat.le_trans (Nat.le_add_right off _) (ih hrest)
      · cases h

theorem recordsFrom_lt {next : Nat → Nat} {k off o : Nat} (h : o ∈ recordsFrom next k off) :
    o < 1024 := by
  induction k generalizing off with
  | zero => cases h
  | succ k ih =>
      rw [recordsFrom] at h
      split at h
      · rename_i hlt
        rcases List.mem_cons.mp h with rfl | hrest
        · exact hlt
        · exact ih hrest
      · cases h

/-- Three records, one after the other, and those after them. -/
theorem three_records {next : Nat → Nat} {a b c : Nat} (ha : 0 + next 0 = a)
    (hb : a + next a = b) (hc : b + next b = c) (hlt : b < 1024) :
    recordsFrom next 128 0 = 0 :: a :: b :: recordsFrom next 125 c := by
  rw [recordsFrom, if_pos (by decide), ha, recordsFrom, if_pos (by omega), hb, recordsFrom,
    if_pos hlt, hc]

/-- Past its last entry a directory names inode 0. -/
theorem entryInode_past {bytes : List UInt8} {n off : Nat} (h : bytes.length ≤ off) :
    entryInode (bytes ++ zeros n) off = 0 := by
  rw [entryInode, Bytes.field, List.drop_append, List.drop_eq_nil_of_le h, List.nil_append, zeros,
    List.drop_replicate, List.take_replicate]
  exact Bytes.ofLe_zeros _

theorem entryInode_zeros (n off : Nat) : entryInode (zeros n) off = 0 :=
  @entryInode_past [] n off (Nat.zero_le off)

/-! ## The output directory that an image should give -/

/-- The number of a JPEG of the image. -/
def isJpgNumber (image : List UInt8) (n : Nat) : Bool :=
  1 ≤ n && n ≤ groupCount image * inodeCount image && isJpgInode image n

/-- The JPEG a record names. -/
def jpgEntry (image block : List UInt8) (off : Nat) : Option (List UInt8 × Nat) :=
  if isJpgNumber image (entryInode block off) then
    some (entryName block off, entryInode block off)
  else none

/-- The names and inodes of JPEGs that inode `n` brings: its own, or those of a
directory's records. -/
def recoveriesOf (image : List UInt8) (n : Nat) : List (List UInt8 × Nat) :=
  let inode := inodeOf image n
  if sIsReg (iMode inode) then
    if isJpgInode image n then [(numberedName n, n)] else []
  else if sIsDir (iMode inode) then
    let block := blockAt image (iBlock inode 0)
    (dirRecords block).filterMap (jpgEntry image block)
  else []

/-- All names and inodes, in the order of the image. -/
def recoveries (image : List UInt8) : List (List UInt8 × Nat) :=
  (List.range' 1 (groupCount image * inodeCount image)).flatMap (recoveriesOf image)

/-- All names and contents. -/
def recoveredFiles (image : List UInt8) : List (List UInt8 × List UInt8) :=
  (recoveries image).map fun r => (r.1, fileBytes image (inodeOf image r.2))

/-- Under each name the output directory has the last file recovered under it, whole, and
it has no other names. -/
structure RecoversByName (image : List UInt8) (out : Output) : Prop where
  files : ∀ name content, Overwriting.lastOf (recoveredFiles image) name = some content →
    out name = some content
  only : ∀ name, (out name).isSome → ∃ content, (name, content) ∈ recoveredFiles image

/-- No file recovered under a name is longer than the last one. -/
def LastIsLongest (image : List UInt8) : Prop :=
  ∀ name content last, (name, content) ∈ recoveredFiles image →
    Overwriting.lastOf (recoveredFiles image) name = some last → content.length ≤ last.length

theorem recoversByName_iff (image : List UInt8) (out : Output) :
    RecoversByName image out ↔
      ∀ name, out name = Overwriting.lastOf (recoveredFiles image) name := by
  constructor
  · intro h name
    cases hlast : Overwriting.lastOf (recoveredFiles image) name with
    | some content => exact h.files name content hlast
    | none =>
        rw [← Option.not_isSome_iff_eq_none]
        intro hsome
        obtain ⟨content, hmem⟩ := h.only name hsome
        have := Overwriting.lastOf_isSome hmem
        rw [hlast] at this
        cases this
  · intro h
    refine ⟨fun name content hlast => (h name).trans hlast, fun name hsome => ?_⟩
    rw [h name] at hsome
    obtain ⟨content, hlast⟩ := Option.isSome_iff_exists.mp hsome
    exact ⟨content, Overwriting.lastOf_mem hlast⟩

/-! ## The images that the scan reads as they are -/

/-- The `n`th 128 bytes of the inode table, counted from 1. Number 0 is the end of the
block before it. -/
def slotAt (image : List UInt8) (n : Nat) : List UInt8 :=
  (image.drop (inodeTable image 0 * 1024 + n * 128 - 128)).take 128

/-- The first block of a slot. -/
def firstBlock (image : List UInt8) (n : Nat) : List UInt8 :=
  blockAt image (iBlock (slotAt image n) 0)

def isJpgSlot (image : List UInt8) (n : Nat) : Bool :=
  sIsReg (iMode (slotAt image n)) && isJpg (firstBlock image n)

/-- What the scan recovers from a record. -/
def slotEntry (image block : List UInt8) (off : Nat) : Option (List UInt8 × Nat) :=
  if isJpgSlot image (entryInode block off) then
    some (entryName block off, entryInode block off)
  else none

/-- What the scan recovers from a slot. Whatever is not a regular file it reads as a
directory. -/
def slotRecoveries (image : List UInt8) (n : Nat) : List (List UInt8 × Nat) :=
  if sIsReg (iMode (slotAt image n)) then
    if isJpgSlot image n then [(numberedName n, n)] else []
  else (packedRecords (firstBlock image n)).filterMap (slotEntry image (firstBlock image n))

/-- A JPEG's record gives a name for a file. It lies in the block and is not the first,
whose name runs on in what memory held before. -/
structure NamesFile (block : List UInt8) (off : Nat) : Prop where
  later : 0 < off
  inside : off + 8 + entryNameLen block off ≤ 1024
  short : entryNameLen block off < 255
  valid : validName (entryName block off)
  clean : 0 ∉ entryName block off

/-- A record that can be followed. -/
structure SoundRecord (image block : List UInt8) (off : Nat) : Prop where
  inode : entryInode block off ≤ inodeCount image
  first : sIsReg (iMode (slotAt image (entryInode block off))) →
    HasBlock image (iBlock (slotAt image (entryInode block off)) 0)
  jpg : isJpgSlot image (entryInode block off) →
    NamesFile block off ∧ Readable image (slotAt image (entryInode block off))

/-- A slot that can be scanned. -/
structure SoundSlot (image : List UInt8) (n : Nat) : Prop where
  first : HasBlock image (iBlock (slotAt image n) 0)
  jpg : isJpgSlot image n → Readable image (slotAt image n)
  records : ¬ sIsReg (iMode (slotAt image n)) →
    ∀ off ∈ packedRecords (firstBlock image n), SoundRecord image (firstBlock image n) off

/-- An image that the scan reads as it is: one group, with sound slots; nothing to
recover from the bytes before the inode table, from the last inode, or from what is
neither a file nor a directory; the live entries of JPEGs where the scan looks for
them. -/
structure Scannable (image : List UInt8) : Prop where
  ext2 : Ext2Image image
  group : 2 ≤ sBlocksCount (superOf image) ∧
    sBlocksCount (superOf image) ≤ sBlocksPerGroup (superOf image) ∧
    sBlocksPerGroup (superOf image) < 2147483648
  inodes : inodeCount image ≤ 8192
  table : 3 ≤ inodeTable image 0 ∧ inodeTable image 0 < 4194304 ∧
    inodeTable image 0 * 1024 + inodeCount image * 128 ≤ image.length
  slots : ∀ n < inodeCount image, SoundSlot image n
  before : slotRecoveries image 0 = []
  last : recoveriesOf image (inodeCount image) = []
  special : ∀ n < inodeCount image, ¬ sIsReg (iMode (slotAt image n)) →
    ¬ sIsDir (iMode (slotAt image n)) → slotRecoveries image n = []
  live : ∀ n < inodeCount image, sIsDir (iMode (slotAt image n)) →
    ∀ off ∈ liveRecords (firstBlock image n),
      isJpgNumber image (entryInode (firstBlock image n) off) →
        off ∈ packedRecords (firstBlock image n)

variable {image : List UInt8}

/-! ## Slots and inodes -/

/-- A record that names no regular file. -/
theorem SoundRecord.of_not_reg {image block : List UInt8} {off : Nat}
    (hle : entryInode block off ≤ inodeCount image)
    (h : sIsReg (iMode (slotAt image (entryInode block off))) = false) :
    SoundRecord image block off where
  inode := hle
  first := fun hreg => absurd (h ▸ hreg) Bool.false_ne_true
  jpg := fun hj => by
    rw [isJpgSlot, h] at hj
    cases hj

theorem groupCount_one (h : Scannable image) : groupCount image = 1 := by
  obtain ⟨h2, hle, -⟩ := h.group
  rw [groupCount]
  apply Nat.div_eq_of_lt_le
  · omega
  · omega

theorem slotAt_eq {n : Nat} (h1 : 1 ≤ n) (hn : n ≤ inodeCount image) :
    slotAt image n = inodeOf image n := by
  have hdiv : (n - 1) / inodeCount image = 0 := Nat.div_eq_of_lt (by omega)
  have hmod : (n - 1) % inodeCount image = n - 1 := Nat.mod_eq_of_lt (by omega)
  have hplace : inodeTable image 0 * 1024 + n * 128 - 128 =
      inodeTable image 0 * 1024 + (n - 1) * 128 := by omega
  rw [slotAt, inodeOf, inodePlace, hdiv, hmod, hplace]

theorem isJpgSlot_eq {n : Nat} (h1 : 1 ≤ n) (hn : n ≤ inodeCount image) :
    isJpgSlot image n = isJpgInode image n := by
  rw [isJpgSlot, firstBlock, slotAt_eq h1 hn]
  rfl

theorem not_isJpgSlot_zero (h : Scannable image) : isJpgSlot image 0 = false := by
  have hbefore := h.before
  rw [slotRecoveries] at hbefore
  by_cases hreg : sIsReg (iMode (slotAt image 0))
  · rw [if_pos hreg] at hbefore
    by_cases hjpg : isJpgSlot image 0
    · rw [if_pos hjpg] at hbefore
      cases hbefore
    · exact Bool.eq_false_iff.mpr hjpg
  · rw [isJpgSlot, Bool.eq_false_iff.mpr hreg]
    rfl

/-- In a scannable image the scan looks up what records name. -/
theorem slotEntry_eq (h : Scannable image) {block : List UInt8} {off : Nat}
    (hoff : entryInode block off ≤ inodeCount image) :
    slotEntry image block off = jpgEntry image block off := by
  have hjpg : isJpgSlot image (entryInode block off) =
      isJpgNumber image (entryInode block off) := by
    rw [isJpgNumber, groupCount_one h, Nat.one_mul]
    by_cases hzero : entryInode block off = 0
    · rw [hzero, not_isJpgSlot_zero h]
      rfl
    · rw [isJpgSlot_eq (by omega) hoff, decide_eq_true (by omega), decide_eq_true hoff,
        Bool.true_and, Bool.true_and]
  rw [slotEntry, jpgEntry, hjpg]

theorem slotRecoveries_eq (h : Scannable image) {n : Nat} (h1 : 1 ≤ n)
    (hn : n < inodeCount image) : slotRecoveries image n = recoveriesOf image n := by
  rw [recoveriesOf, ← slotAt_eq h1 (Nat.le_of_lt hn), ← isJpgSlot_eq h1 (Nat.le_of_lt hn)]
  by_cases hreg : sIsReg (iMode (slotAt image n))
  · rw [slotRecoveries, if_pos hreg]
    dsimp only
    rw [if_pos hreg]
  · dsimp only
    rw [if_neg hreg]
    by_cases hdir : sIsDir (iMode (slotAt image n))
    · rw [if_pos hdir, ← firstBlock, slotRecoveries, if_neg hreg, dirRecords, List.filterMap_append]
      have hpacked : (packedRecords (firstBlock image n)).filterMap
            (slotEntry image (firstBlock image n)) =
          (packedRecords (firstBlock image n)).filterMap (jpgEntry image (firstBlock image n)) :=
        List.filterMap_congr fun off hoff =>
          slotEntry_eq h ((h.slots n hn).records hreg off hoff).inode
      -- what the packing misses is no JPEG
      have hmissed : ((liveRecords (firstBlock image n)).filter
            (· ∉ packedRecords (firstBlock image n))).filterMap
            (jpgEntry image (firstBlock image n)) = [] := by
        rw [List.filterMap_eq_nil_iff]
        intro off hoff
        obtain ⟨hlive, hmiss⟩ := List.mem_filter.mp hoff
        exact if_neg fun hjpg => of_decide_eq_true hmiss (h.live n hn hdir off hlive hjpg)
      rw [hpacked, hmissed, List.append_nil]
    · rw [if_neg hdir]
      exact h.special n hn hreg hdir

/-- The slots that the scan looks at bring what the inodes do. -/
theorem recoveries_eq (h : Scannable image) :
    (List.range (inodeCount image)).flatMap (slotRecoveries image) = recoveries image := by
  obtain ⟨n, hn⟩ : ∃ n, inodeCount image = n + 1 :=
    ⟨_, (Nat.succ_pred_eq_of_pos h.ext2.inodes.1).symm⟩
  have hsame : (List.range' 1 n).flatMap (slotRecoveries image) =
      (List.range' 1 n).flatMap (recoveriesOf image) := by
    apply List.flatMap_congr
    intro m hm
    rw [List.mem_range'_1] at hm
    exact slotRecoveries_eq h hm.1 (by omega)
  have hlast := h.last
  rw [hn] at hlast
  rw [recoveries, groupCount_one h, Nat.one_mul, hn, List.range_eq_range', List.range'_succ,
    List.flatMap_cons, h.before, List.nil_append, Nat.zero_add, hsame, List.range'_concat,
    List.flatMap_append, List.flatMap_singleton, Nat.one_mul, Nat.add_comm 1 n, hlast,
    List.append_nil]

end CS537.FileSystem
