import CS537.FileSystem.Scanned

/-!
# FileSystem — recovery by name

`runscan` opens its output files without truncating them. On an image that it reads
as it is, every name ends up with the last file recovered under it exactly if no
longer file was recovered under that name before.
-/

namespace CS537.FileSystem

open MachineInt

variable {image junk : List UInt8}

/-! ## The output directory -/

/-- What is recovered has a name for a file, and is an inode of the image. -/
theorem recovery_sound (h : Scannable image) {r : List UInt8 × Nat} (hr : r ∈ recoveries image) :
    validName r.1 ∧ slotAt image r.2 = inodeOf image r.2 := by
  rw [← recoveries_eq h, List.mem_flatMap] at hr
  obtain ⟨n, hn, hr⟩ := hr
  rw [List.mem_range] at hn
  by_cases hzero : n = 0
  · rw [hzero, h.before] at hr
    cases hr
  rw [slotRecoveries] at hr
  by_cases hreg : sIsReg (iMode (slotAt image n))
  · rw [if_pos hreg] at hr
    split at hr
    · rw [List.mem_singleton] at hr
      subst hr
      exact ⟨numberedName_valid n, slotAt_eq (by omega) (Nat.le_of_lt hn)⟩
    · cases hr
  · rw [if_neg hreg, List.mem_filterMap] at hr
    obtain ⟨off, hoff, hentry⟩ := hr
    have hrecord := (h.slots n hn).records hreg off hoff
    rw [slotEntry] at hentry
    by_cases hj : isJpgSlot image (entryInode (firstBlock image n) off)
    · rw [if_pos hj] at hentry
      have hpos : entryInode (firstBlock image n) off ≠ 0 := by
        intro hz
        rw [hz, not_isJpgSlot_zero h] at hj
        cases hj
      rw [← Option.some.inj hentry]
      dsimp only
      exact ⟨(hrecord.jpg hj).1.valid, slotAt_eq (Nat.pos_of_ne_zero hpos) hrecord.inode⟩
    · rw [if_neg hj] at hentry
      cases hentry

theorem recover_eq_put {r : List UInt8 × Nat} (hvalid : validName r.1) (out : Output) :
    recover image out r = Overwriting.put out (r.1, fileBytes image (slotAt image r.2)) := by
  rw [recover, openFile, if_pos hvalid, writeFile, if_pos hvalid, Function.update_idem,
    Function.update_self, Option.getD_some, Bytes.overwrite, Nat.zero_add, List.take_zero,
    List.nil_append, Overwriting.put]

theorem main_putAll (h : Scannable image) :
    (main junk image).2 = Overwriting.putAll (recoveredFiles image) := by
  rw [main_out h, recoveredFiles, Overwriting.putAll, List.foldl_map]
  apply List.foldl_ext
  intro out r hr
  obtain ⟨hvalid, hslot⟩ := recovery_sound h hr
  rw [recover_eq_put hvalid, hslot]

/-! ## An image with two entries of one name -/

/-- Some bytes, and zeros after them. -/
def padded (n : Nat) (bytes : List UInt8) : List UInt8 := bytes ++ zeros (n - bytes.length)

/-- An inode of a mode, a size and one block. -/
def oneBlockInode (mode size block : UInt8) : List UInt8 :=
  padded 128 ([0, mode, 0, 0, size] ++ zeros 35 ++ [block])

/-- A directory of itself, its parent and `a.jpg`. -/
def twoEntriesDir (self file : UInt8) : List UInt8 :=
  [self, 0, 0, 0, 12, 0, 1, 2, 46, 0, 0, 0] ++ [2, 0, 0, 0, 12, 0, 2, 2, 46, 46, 0, 0] ++
    [file, 0, 0, 0, 232, 3, 5, 1, 97, 46, 106, 112, 103, 0, 0, 0]

/-- The directories of inodes 2 and 3 name inodes 4 and 5, of six and of four bytes. -/
def twoEntriesBlocks : List (List UInt8) :=
  [zeros 1024,
    -- super block
    padded 1024 (zeros 4 ++ [10, 0, 0, 0] ++ zeros 24 ++ [0, 32, 0, 0] ++ zeros 4 ++ [8, 0, 0, 0] ++
      zeros 12 ++ [83, 239]),
    -- group descriptors
    padded 1024 (zeros 8 ++ [5]),
    -- bitmaps
    zeros 1024, zeros 1024,
    -- inode table
    padded 1024 (zeros 128 ++ oneBlockInode 65 0 6 ++ oneBlockInode 65 0 7 ++
      oneBlockInode 129 6 8 ++ oneBlockInode 129 4 9),
    -- directories
    twoEntriesDir 2 4 ++ zeros 984, twoEntriesDir 3 5 ++ zeros 984,
    -- JPEGs
    padded 1024 [255, 216, 255, 224, 1, 2], padded 1024 [255, 216, 255, 224]]

def twoEntries : List UInt8 := twoEntriesBlocks.flatten

theorem twoEntries_blocks : ∀ block ∈ twoEntriesBlocks, block.length = 1024 := by decide +kernel

theorem twoEntries_length : twoEntries.length = 10240 := length_flatten twoEntries_blocks

theorem twoEntries_blockAt (b : Nat) : blockAt twoEntries b = twoEntriesBlocks.getD b [] :=
  blockAt_flatten twoEntries_blocks b

theorem twoEntries_super : superOf twoEntries = twoEntriesBlocks.getD 1 [] := twoEntries_blockAt 1

theorem twoEntries_inodeCount : inodeCount twoEntries = 8 := by
  rw [inodeCount, twoEntries_super]
  decide +kernel

theorem twoEntries_ext2 : Ext2Image twoEntries where
  long := by
    rw [twoEntries_length]
    decide
  magic := by
    rw [twoEntries_super]
    decide +kernel
  blocks := by
    rw [twoEntries_super]
    decide +kernel
  groups := by
    rw [groupCount, twoEntries_super]
    decide +kernel
  inodes := by
    rw [twoEntries_inodeCount]
    decide

theorem twoEntries_table : inodeTable twoEntries 0 = 5 := by
  rw [inodeTable, @blockAt_part _ 2 0 _ (by decide), twoEntries_blockAt]
  decide +kernel

/-- The mode, the size and the first block of a slot. -/
def slotFields : Nat → Nat × Nat × Nat
  | 2 => (16640, 0, 6)
  | 3 => (16640, 0, 7)
  | 4 => (33024, 6, 8)
  | 5 => (33024, 4, 9)
  | _ => (0, 0, 0)

theorem twoEntries_slot {n : Nat} (hn : n ≤ 8) :
    iMode (slotAt twoEntries n) = (slotFields n).1 ∧
      iSize (slotAt twoEntries n) = (slotFields n).2.1 ∧
      iBlock (slotAt twoEntries n) 0 = (slotFields n).2.2 := by
  have hplace : 5 * 1024 + n * 128 - 128 = (4 + (n + 7) / 8) * 1024 + (n + 7) % 8 * 128 := by omega
  rw [slotAt, twoEntries_table, hplace, blockAt_part (by omega), twoEntries_blockAt]
  revert n
  decide +kernel

/-- Where the scan finds the records of such a directory: the three entries, and then
inode 0. -/
theorem twoEntries_packed (self file : UInt8) :
    packedRecords (twoEntriesDir self file ++ zeros 984) =
      0 :: 12 :: 24 :: recordsFrom (fun off => entryRoom (entryNameLen
        (twoEntriesDir self file ++ zeros 984) off)) 125 40 := by
  have hroom {o n : Nat} (ho : o + 6 + 1 ≤ 40) (hn : entryNameLen (twoEntriesDir self file) o = n) :
      entryRoom (entryNameLen (twoEntriesDir self file ++ zeros 984) o) = entryRoom n := by
    rw [← hn]
    exact congrArg entryRoom (Bytes.field_append_left ho)
  have h0 := hroom (o := 0) (n := 1) (by decide) rfl
  have h12 := hroom (o := 12) (n := 2) (by decide) rfl
  have h24 := hroom (o := 24) (n := 5) (by decide) rfl
  apply three_records
  · rw [h0]
    rfl
  · rw [h12]
    rfl
  · rw [h24]
    rfl
  · decide

/-- The live entries of such a directory. -/
theorem twoEntries_live (self file : UInt8) :
    liveRecords (twoEntriesDir self file ++ zeros 984) = [0, 12, 24] := by
  have hnext {o n : Nat} (ho : o + 4 + 2 ≤ 40) (hn : entryRecLen (twoEntriesDir self file) o = n) :
      entryRecLen (twoEntriesDir self file ++ zeros 984) o = n := by
    rw [← hn]
    exact Bytes.field_append_left ho
  have h0 := hnext (o := 0) (n := 12) (by decide) rfl
  have h12 := hnext (o := 12) (n := 12) (by decide) rfl
  have h24 := hnext (o := 24) (n := 1000) (by decide) rfl
  have hthree := @three_records (entryRecLen (twoEntriesDir self file ++ zeros 984)) 12 24 1024
    (by rw [h0]) (by rw [h12]) (by rw [h24]) (by decide)
  rw [liveRecords, hthree, recordsFrom_done (Nat.le_refl 1024)]

/-! ### The image is scannable -/

theorem twoEntries_reg : ∀ n ≤ 8,
    sIsReg (iMode (slotAt twoEntries n)) = decide (n = 4 ∨ n = 5) := by
  intro n hn
  rw [(twoEntries_slot hn).1]
  revert n
  decide

theorem twoEntries_firstBlock {n : Nat} (hn : n ≤ 8) :
    firstBlock twoEntries n = twoEntriesBlocks.getD (slotFields n).2.2 [] := by
  rw [firstBlock, (twoEntries_slot hn).2.2, twoEntries_blockAt]

theorem twoEntries_hasBlock {b : Nat} (hb : b < 10) : HasBlock twoEntries b := by
  rw [HasBlock, twoEntries_length]
  omega

theorem slotFields_block (n : Nat) : (slotFields n).2.2 < 10 := by
  unfold slotFields
  split <;> decide

theorem twoEntries_readable {n : Nat} (hn : n = 4 ∨ n = 5) :
    Readable twoEntries (slotAt twoEntries n) := by
  obtain ⟨-, hsize, hblock⟩ := twoEntries_slot (show n ≤ 8 by omega)
  apply readable_of_small
  · rw [hsize]
    rcases hn with rfl | rfl
    · decide
    · decide
  · rw [hsize, hblock, HasBytes, twoEntries_length]
    rcases hn with rfl | rfl
    · decide
    · decide

theorem twoEntries_jpg : ∀ n ≤ 8, isJpgSlot twoEntries n = decide (n = 4 ∨ n = 5) := by
  intro n hn
  rw [isJpgSlot, twoEntries_reg n hn]
  by_cases hfile : n = 4 ∨ n = 5
  · rw [decide_eq_true hfile, Bool.true_and, twoEntries_firstBlock hn]
    rcases hfile with rfl | rfl
    · decide +kernel
    · decide +kernel
  · rw [decide_eq_false hfile, Bool.false_and]

/-- A record of no file. -/
theorem twoEntries_sound {block : List UInt8} {off : Nat} (h : entryInode block off ≤ 3) :
    SoundRecord twoEntries block off := by
  apply SoundRecord.of_not_reg
  · rw [twoEntries_inodeCount]
    omega
  · rw [twoEntries_reg _ (by omega)]
    exact decide_eq_false (by omega)

theorem twoEntriesDir_inode {self file : UInt8} {off : Nat} (h : off + 4 ≤ 40) :
    entryInode (twoEntriesDir self file ++ zeros 984) off =
      entryInode (twoEntriesDir self file) off := Bytes.field_append_left h

theorem twoEntriesDir_name (self file : UInt8) :
    entryNameLen (twoEntriesDir self file ++ zeros 984) 24 = 5 ∧
      entryName (twoEntriesDir self file ++ zeros 984) 24 = [97, 46, 106, 112, 103] := by
  have hlen : entryNameLen (twoEntriesDir self file ++ zeros 984) 24 =
      entryNameLen (twoEntriesDir self file) 24 :=
    Bytes.field_append_left (show 24 + 6 + 1 ≤ 40 by decide)
  rw [entryName, hlen]
  exact ⟨rfl, rfl⟩

theorem twoEntries_dir {self file : UInt8} (hself : self.toNat ≤ 3)
    (hfile : file.toNat = 4 ∨ file.toNat = 5) {off : Nat}
    (hoff : off ∈ packedRecords (twoEntriesDir self file ++ zeros 984)) :
    SoundRecord twoEntries (twoEntriesDir self file ++ zeros 984) off := by
  rw [twoEntries_packed, List.mem_cons, List.mem_cons, List.mem_cons] at hoff
  rcases hoff with rfl | rfl | rfl | hpast
  · apply twoEntries_sound
    rw [twoEntriesDir_inode (by decide)]
    exact hself
  · apply twoEntries_sound
    rw [twoEntriesDir_inode (by decide)]
    show 2 ≤ 3
    decide
  · have hino : entryInode (twoEntriesDir self file ++ zeros 984) 24 = file.toNat :=
      twoEntriesDir_inode (by decide)
    obtain ⟨hlen, hname⟩ := twoEntriesDir_name self file
    refine ⟨?_, fun _ => ?_, fun _ => ⟨?_, ?_⟩⟩
    · rw [hino, twoEntries_inodeCount]
      omega
    · rw [hino, (twoEntries_slot (by omega)).2.2]
      exact twoEntries_hasBlock (slotFields_block _)
    · refine ⟨by decide, ?_, ?_, ?_, ?_⟩
      · rw [hlen]
        decide
      · rw [hlen]
        decide
      · rw [hname]
        decide
      · rw [hname]
        decide
    · rw [hino]
      exact twoEntries_readable hfile
  · apply twoEntries_sound
    rw [@entryInode_past (twoEntriesDir self file) 984 off (recordsFrom_ge hpast)]
    exact Nat.zero_le 3

/-- What is not a file is a directory, or free and of block 0. -/
theorem twoEntries_other {n : Nat} (hn : n ≤ 8) (hfile : ¬ (n = 4 ∨ n = 5)) :
    firstBlock twoEntries n = twoEntriesDir 2 4 ++ zeros 984 ∧ n = 2 ∨
    firstBlock twoEntries n = twoEntriesDir 3 5 ++ zeros 984 ∧ n = 3 ∨
    firstBlock twoEntries n = zeros 1024 ∧ iMode (slotAt twoEntries n) = 0 := by
  rw [twoEntries_firstBlock hn, (twoEntries_slot hn).1]
  unfold slotFields
  split
  · exact .inl ⟨rfl, rfl⟩
  · exact .inr (.inl ⟨rfl, rfl⟩)
  · exact absurd (.inl rfl) hfile
  · exact absurd (.inr rfl) hfile
  · exact .inr (.inr ⟨rfl, rfl⟩)

theorem twoEntries_slots {n : Nat} (hn : n < 8) : SoundSlot twoEntries n where
  first := by
    rw [(twoEntries_slot (Nat.le_of_lt hn)).2.2]
    exact twoEntries_hasBlock (slotFields_block n)
  jpg := fun hj => by
    rw [twoEntries_jpg n (Nat.le_of_lt hn)] at hj
    exact twoEntries_readable (of_decide_eq_true hj)
  records := fun hreg off hoff => by
    rw [twoEntries_reg n (Nat.le_of_lt hn), decide_eq_true_eq] at hreg
    rcases twoEntries_other (Nat.le_of_lt hn) hreg with ⟨hblock, -⟩ | ⟨hblock, -⟩ | ⟨hblock, -⟩
    · rw [hblock] at hoff ⊢
      exact twoEntries_dir (by decide) (by decide) hoff
    · rw [hblock] at hoff ⊢
      exact twoEntries_dir (by decide) (by decide) hoff
    · rw [hblock]
      apply twoEntries_sound
      rw [entryInode_zeros]
      exact Nat.zero_le 3

/-- A free inode gives nothing. -/
theorem twoEntries_free {n : Nat} (hn : n ≤ 8) (hfile : ¬ (n = 4 ∨ n = 5))
    (hdir : ¬ (n = 2 ∨ n = 3)) : slotRecoveries twoEntries n = [] := by
  have hblock : firstBlock twoEntries n = zeros 1024 := by
    rcases twoEntries_other hn hfile with ⟨-, h2⟩ | ⟨-, h3⟩ | ⟨hblock, -⟩
    · exact absurd (.inl h2) hdir
    · exact absurd (.inr h3) hdir
    · exact hblock
  rw [slotRecoveries, twoEntries_reg n hn, decide_eq_false hfile, if_neg Bool.false_ne_true,
    List.filterMap_eq_nil_iff, hblock]
  intro off _
  rw [slotEntry, entryInode_zeros, twoEntries_jpg 0 (by decide)]
  rfl

theorem twoEntries_scannable : Scannable twoEntries where
  ext2 := twoEntries_ext2
  group := by
    rw [twoEntries_super]
    decide +kernel
  inodes := by
    rw [twoEntries_inodeCount]
    decide
  table := by
    rw [twoEntries_table, twoEntries_inodeCount, twoEntries_length]
    decide
  slots := by
    rw [twoEntries_inodeCount]
    exact fun n hn => twoEntries_slots hn
  before := twoEntries_free (by decide) (by decide) (by decide)
  last := by
    rw [twoEntries_inodeCount, recoveriesOf,
      ← slotAt_eq (by decide) (by rw [twoEntries_inodeCount]), (twoEntries_slot (Nat.le_refl 8)).1]
    rfl
  special := by
    rw [twoEntries_inodeCount]
    intro n hn hreg hdir
    rw [twoEntries_reg n (Nat.le_of_lt hn), decide_eq_true_eq] at hreg
    apply twoEntries_free (Nat.le_of_lt hn) hreg
    intro hdirs
    rw [(twoEntries_slot (Nat.le_of_lt hn)).1] at hdir
    rcases hdirs with rfl | rfl
    · exact hdir rfl
    · exact hdir rfl
  live := by
    rw [twoEntries_inodeCount]
    intro n hn hdir off hoff _
    have hpacked (self file : UInt8) (h : off ∈ liveRecords (twoEntriesDir self file ++ zeros 984)) :
        off ∈ packedRecords (twoEntriesDir self file ++ zeros 984) := by
      rw [twoEntries_live] at h
      rw [twoEntries_packed]
      exact List.mem_append_left (recordsFrom _ 125 40) h
    rw [(twoEntries_slot (Nat.le_of_lt hn)).1] at hdir
    have hfile : ¬ (n = 4 ∨ n = 5) := by
      intro hfile
      rcases hfile with rfl | rfl
      · cases hdir
      · cases hdir
    rcases twoEntries_other (Nat.le_of_lt hn) hfile with ⟨hblock, -⟩ | ⟨hblock, -⟩ | ⟨-, hmode⟩
    · rw [hblock] at hoff ⊢
      exact hpacked 2 4 hoff
    · rw [hblock] at hoff ⊢
      exact hpacked 3 5 hoff
    · rw [(twoEntries_slot (Nat.le_of_lt hn)).1] at hmode
      rw [hmode] at hdir
      cases hdir

/-! ### What is recovered -/

theorem twoEntries_dirRecoveries {self file : UInt8} (hself : self.toNat ≤ 3)
    (hfile : file.toNat = 4 ∨ file.toNat = 5) :
    (packedRecords (twoEntriesDir self file ++ zeros 984)).filterMap
        (slotEntry twoEntries (twoEntriesDir self file ++ zeros 984)) =
      [([97, 46, 106, 112, 103], file.toNat)] := by
  have hnone {off n : Nat} (hn : n ≤ 3)
      (h : entryInode (twoEntriesDir self file ++ zeros 984) off = n) :
      slotEntry twoEntries (twoEntriesDir self file ++ zeros 984) off = none := by
    rw [slotEntry, h, twoEntries_jpg n (by omega)]
    exact if_neg fun hj => absurd (of_decide_eq_true hj) (by omega)
  have h0 := hnone hself (twoEntriesDir_inode (by decide) : entryInode _ 0 = self.toNat)
  have h12 := hnone (n := 2) (by decide) (twoEntriesDir_inode (by decide) : entryInode _ 12 = 2)
  have hino : entryInode (twoEntriesDir self file ++ zeros 984) 24 = file.toNat :=
    twoEntriesDir_inode (by decide)
  have h24 : slotEntry twoEntries (twoEntriesDir self file ++ zeros 984) 24 =
      some ([97, 46, 106, 112, 103], file.toNat) := by
    rw [slotEntry, hino, (twoEntriesDir_name self file).2, twoEntries_jpg _ (by omega)]
    exact if_pos (decide_eq_true hfile)
  have hpast : (recordsFrom (fun off => entryRoom (entryNameLen
      (twoEntriesDir self file ++ zeros 984) off)) 125 40).filterMap
      (slotEntry twoEntries (twoEntriesDir self file ++ zeros 984)) = [] := by
    rw [List.filterMap_eq_nil_iff]
    intro off hoff
    exact hnone (Nat.zero_le 3) (@entryInode_past (twoEntriesDir self file) 984 off (recordsFrom_ge hoff))
  rw [twoEntries_packed, List.filterMap_cons_none h0, List.filterMap_cons_none h12,
    List.filterMap_cons_some h24, hpast]

theorem twoEntries_recoveries : recoveries twoEntries =
    [([97, 46, 106, 112, 103], 4), ([97, 46, 106, 112, 103], 5),
      (numberedName 4, 4), (numberedName 5, 5)] := by
  have hfree (n : Nat) (hn : n ≤ 8) (hfile : ¬ (n = 4 ∨ n = 5)) (hdir : ¬ (n = 2 ∨ n = 3)) :=
    twoEntries_free hn hfile hdir
  have hdir (n : Nat) (hn : n ≤ 8) (hreg : ¬ (n = 4 ∨ n = 5)) : slotRecoveries twoEntries n =
      (packedRecords (firstBlock twoEntries n)).filterMap
        (slotEntry twoEntries (firstBlock twoEntries n)) := by
    rw [slotRecoveries, twoEntries_reg n hn, decide_eq_false hreg, if_neg Bool.false_ne_true]
  have hfile (n : Nat) (h : n = 4 ∨ n = 5) : slotRecoveries twoEntries n = [(numberedName n, n)] := by
    rw [slotRecoveries, twoEntries_reg n (by omega), twoEntries_jpg n (by omega), decide_eq_true h]
    rfl
  have h2 : slotRecoveries twoEntries 2 = [([97, 46, 106, 112, 103], 4)] := by
    rw [hdir 2 (by decide) (by decide), twoEntries_firstBlock (by decide)]
    exact @twoEntries_dirRecoveries 2 4 (by decide) (by decide)
  have h3 : slotRecoveries twoEntries 3 = [([97, 46, 106, 112, 103], 5)] := by
    rw [hdir 3 (by decide) (by decide), twoEntries_firstBlock (by decide)]
    exact @twoEntries_dirRecoveries 3 5 (by decide) (by decide)
  rw [← recoveries_eq twoEntries_scannable, twoEntries_inodeCount]
  have hrange : List.range 8 = [0, 1, 2, 3, 4, 5, 6, 7] := rfl
  rw [hrange]
  simp only [List.flatMap_cons, List.flatMap_nil, h2, h3, hfile 4 (.inl rfl), hfile 5 (.inr rfl),
    twoEntries_free (show 0 ≤ 8 by decide) (by decide) (by decide),
    twoEntries_free (show 1 ≤ 8 by decide) (by decide) (by decide),
    twoEntries_free (show 6 ≤ 8 by decide) (by decide) (by decide),
    twoEntries_free (show 7 ≤ 8 by decide) (by decide) (by decide), List.nil_append,
    List.append_nil, List.cons_append]

/-! ## The recovery -/

end CS537.FileSystem
