import CS537.FileSystem.Scan
import Mathlib.Data.List.Perm.Basic
import Mathlib.Data.List.Range

/-!
# FileSystem — which inodes the scan looks at

Inode numbers start from 1, and the scan counts from 0. It hands its numbers to
`read_inode`, which expects real ones, so in the first group it looks at the 128
bytes before the table as inode 0 and never at the last inode of the table.
-/

namespace CS537.FileSystem

open MachineInt

/-! ## The image -/

/-- The super block. -/
def superOf (image : List UInt8) : List UInt8 := (image.drop 1024).take 1024

/-- The number of block groups. The first data block is 1. -/
def groupCount (image : List UInt8) : Nat :=
  (sBlocksCount (superOf image) - 1 + sBlocksPerGroup (superOf image) - 1)
    / sBlocksPerGroup (superOf image)

/-- The number of inodes of a group. -/
def inodeCount (image : List UInt8) : Nat := sInodesPerGroup (superOf image)

/-- The first block of the inode table of a group, from the group descriptors in
block 2. -/
def inodeTable (image : List UInt8) (group : Nat) : Nat :=
  bgInodeTable ((image.drop (2048 + 32 * group)).take 32)

/-- Where inode `n` lies: in the table of group `(n - 1) / I` at index
`(n - 1) % I`. -/
def inodePlace (image : List UInt8) (n : Nat) : Nat :=
  inodeTable image ((n - 1) / inodeCount image) * 1024 + (n - 1) % inodeCount image * 128

/-- Inode `n`. -/
def inodeOf (image : List UInt8) (n : Nat) : List UInt8 :=
  (image.drop (inodePlace image n)).take 128

/-- Inode `n` is of a regular file whose first block has the signature. -/
def isJpgInode (image : List UInt8) (n : Nat) : Bool :=
  sIsReg (iMode (inodeOf image n)) &&
    isJpg ((image.drop (iBlock (inodeOf image n) 0 * 1024)).take 1024)

/-- The super block of an ext2 image with 1024-byte blocks. -/
structure Ext2Image (image : List UInt8) : Prop where
  long : 2048 ≤ image.length
  magic : sMagic (superOf image) = ext2SuperMagic
  blocks : sLogBlockSize (superOf image) = 0
  groups : 0 < sBlocksPerGroup (superOf image) ∧ 0 < groupCount image
  inodes : 0 < inodeCount image ∧ inodeCount image % 8 = 0

/-- The scan looks at the inodes `1` to `G * I`, each once and where it is, and makes
one file for each that is a JPEG, under a name of its own. -/
structure VisitsAll (image : List UInt8) (visits : List Visit) : Prop where
  inodes : (visits.map fun v => (v.number, v.offset)).Perm
    ((List.range' 1 (groupCount image * inodeCount image)).map
      fun n => (n, (inodePlace image n : Int)))
  files : ((visits.filter Visit.created).map Visit.number).Perm
    ((List.range' 1 (groupCount image * inodeCount image)).filter (isJpgInode image))
  names : ((visits.filter Visit.created).map fun v => numberedName v.number).Nodup

/-! ## The visits of a table -/

variable {junk : List UInt8} {g : Globals} {t offset : Nat}

theorem scanInode_visit (number : Nat) (w : Work) :
    (scanInode junk g t offset number w).1.number = number
      ∧ (scanInode junk g t offset number w).1.offset
        = inodeOffset g t offset (s32 number) := by
  simp only [scanInode]
  split
  · simp only [and_self]
  · simp only [and_self]

theorem scanInodes_visits (numbers : List Nat) (w : Work) :
    (scanInodes junk g t offset numbers w).1.map (fun v => (v.number, v.offset))
      = numbers.map fun n => (n, inodeOffset g t offset (s32 n)) := by
  induction numbers generalizing w with
  | nil => rfl
  | cons number numbers ih =>
      obtain ⟨h1, h2⟩ := @scanInode_visit junk g t offset number w
      simp only [scanInodes, List.map_cons, ih, h1, h2]

theorem scanTable_visits (is : List Nat) (fd : Fd) (out : Output) :
    (scanTable junk g t offset is fd out).1.map (fun v => (v.number, v.offset))
      = (is.flatMap (blockInodes g)).map fun n => (n, inodeOffset g t offset (s32 n)) := by
  induction is generalizing fd out with
  | nil => rfl
  | cons i is ih =>
      simp only [scanTable, List.map_append, List.flatMap_cons, scanInodes_visits, ih]

/-- The numbers the scan counts through in a group. -/
theorem blockInodes_range {k : Nat} (hg : g.inodesPerBlock = 8) (hk : 8 * k ≤ 4294967296) :
    (List.range k).flatMap (blockInodes g) = List.range (8 * k) := by
  induction k with
  | zero => rfl
  | succ k ih =>
      have hlast : blockInodes g k = (List.range 8).map (8 * k + ·) := by
        rw [blockInodes, hg]
        apply List.map_congr_left
        intro j hj
        rw [List.mem_range] at hj
        rw [u32_of_lt (by omega), Nat.mul_comm]
      rw [List.range_succ, List.flatMap_append, ih (by omega), List.flatMap_singleton, hlast,
        ← List.range_add, Nat.mul_succ]

/-! ## The first group -/

/-- A super block that has been read has the fields of the image's. -/
theorem read_super {image buf : List UInt8} (h : 2048 ≤ image.length) {pos : Nat} :
    ((⟨image, pos⟩ : Fd).readAt 1024 buf 1024).1 = superOf image ++ buf.drop 1024 := by
  have hlen : (superOf image).length = 1024 := by
    rw [superOf, List.length_take, List.length_drop]
    omega
  have hread : ((⟨image, pos⟩ : Fd).readAt 1024 buf 1024).1
      = Bytes.overwrite buf 0 (superOf image) := rfl
  rw [hread, Bytes.overwrite, hlen]
  rfl

section Super

variable {image : List UInt8} (h : 2048 ≤ image.length) (rest : List UInt8)

include h in
theorem super_field {off size : Nat} (hle : off + size ≤ 1024) :
    Bytes.field (superOf image ++ rest) off size = Bytes.field (superOf image) off size := by
  apply Bytes.field_append_left
  rw [superOf, List.length_take, List.length_drop]
  omega

end Super

/-- The variables of `read_ext2.c` after it has read the super block. -/
def globalsOf (image : List UInt8) : Globals where
  blockSize := 1024
  inodesPerBlock := 8
  itableBlocks := inodeCount image / 8
  blocksPerGroup := sBlocksPerGroup (superOf image)
  numGroups := u32 (4294967295 + sBlocksCount (superOf image) + sBlocksPerGroup (superOf image))
    / sBlocksPerGroup (superOf image)
  inodesPerGroup := inodeCount image

theorem Ext2Image.blockSize {image : List UInt8} (h : Ext2Image image) (rest : List UInt8) :
    blockSizeOf (superOf image ++ rest) = 1024 := by
  have hlog : sLogBlockSize (superOf image ++ rest) = 0 := by
    rw [sLogBlockSize, super_field h.long rest (by decide)]
    exact h.blocks
  rw [blockSizeOf, hlog]
  rfl

theorem ext2ReadInit_ok {image : List UInt8} (h : Ext2Image image) :
    ∃ fd, ext2ReadInit junk ⟨image, 0⟩ = .ok (globalsOf image, fd) ∧ fd.image = image := by
  have hread := @read_super image junk h.long 0
  generalize hr : (⟨image, 0⟩ : Fd).readAt 1024 junk 1024 = r at hread
  obtain ⟨buf, fd⟩ := r
  change buf = superOf image ++ junk.drop 1024 at hread
  subst hread
  have himage : fd.image = image := by
    have := congrArg (fun r => r.2.image) hr
    exact this.symm
  have hmagic : sMagic (superOf image ++ junk.drop 1024) = ext2SuperMagic := by
    rw [sMagic, super_field h.long _ (by decide)]
    exact h.magic
  have hgroups : sBlocksPerGroup (superOf image ++ junk.drop 1024) = sBlocksPerGroup (superOf image) :=
    super_field h.long _ (by decide)
  have hcount : sBlocksCount (superOf image ++ junk.drop 1024) = sBlocksCount (superOf image) :=
    super_field h.long _ (by decide)
  have hinodes : sInodesPerGroup (superOf image ++ junk.drop 1024) = inodeCount image :=
    super_field h.long _ (by decide)
  have hpos : ¬ (1024 / inodeBytes = 0 ∨ sBlocksPerGroup (superOf image) = 0) := by
    have hgroup := h.groups.1
    change ¬ (8 = 0 ∨ sBlocksPerGroup (superOf image) = 0)
    omega
  have hbase : ((1024 : Nat) : Int) = 1024 := rfl
  refine ⟨fd, ?_, himage⟩
  simp only [ext2ReadInit, baseOffset, hbase, hr, hmagic, ne_eq, not_true_eq_false,
    if_false, h.blockSize, hgroups, hcount, hinodes, if_neg hpos]
  rfl

theorem readSuperBlock_zero {image : List UInt8} (h : Ext2Image image) (buf : List UInt8)
    {fd : Fd} (hfd : fd.image = image) :
    ∃ super fd', readSuperBlock (globalsOf image) 0 buf fd = .ok (globalsOf image, super, fd') := by
  obtain ⟨img, pos⟩ := fd
  change img = image at hfd
  subst hfd
  have hread := @read_super img buf h.long pos
  generalize hr : (⟨img, pos⟩ : Fd).readAt 1024 buf 1024 = r at hread
  obtain ⟨super, fd'⟩ := r
  change super = superOf img ++ buf.drop 1024 at hread
  subst hread
  have hmagic : sMagic (superOf img ++ buf.drop 1024) = ext2SuperMagic := by
    rw [sMagic, super_field h.long _ (by decide)]
    exact h.magic
  have hinodes : sInodesPerGroup (superOf img ++ buf.drop 1024) = inodeCount img :=
    super_field h.long _ (by decide)
  have hcopy : hasSuperCopy (s32 0) = true := by decide
  have hoff : u32 (baseOffset + blockOffset 1024 (u32 (sBlocksPerGroup (superOf img) * 0)))
      = 1024 := by
    rw [Nat.mul_zero]
    decide
  have hsize : ¬ 1024 / inodeBytes = 0 := by decide
  have hbase : ((1024 : Nat) : Int) = 1024 := rfl
  refine ⟨superOf img ++ buf.drop 1024, fd', ?_⟩
  simp only [readSuperBlock, hcopy, if_true, globalsOf, hoff, hbase, hr, hmagic, ne_eq,
    not_true_eq_false, if_false, h.blockSize, hinodes, if_neg hsize]
  rfl

/-- In the first group the scan looks at the inodes `0` to `I - 1`. -/
theorem firstGroup_visits {image : List UInt8} (h : Ext2Image image)
    (hpos : 0 < (globalsOf image).numGroups) :
    ∃ offset rest, (main junk image).1.map (fun v => (v.number, v.offset))
      = (List.range (inodeCount image)).map
          (fun n : Nat => (n, inodeOffset (globalsOf image) 0 offset (s32 n))) ++ rest := by
  obtain ⟨fd, hinit, himage⟩ := @ext2ReadInit_ok junk image h
  obtain ⟨super, fd', hsuper⟩ := readSuperBlock_zero h junk himage
  obtain ⟨n, hn⟩ : ∃ n, (globalsOf image).numGroups = n + 1 := ⟨_, (Nat.succ_pred_eq_of_pos hpos).symm⟩
  have hnumbers : (List.range (globalsOf image).itableBlocks).flatMap (blockInodes (globalsOf image))
      = List.range (inodeCount image) := by
    have hmod := h.inodes.2
    have hmul : 8 * (inodeCount image / 8) = inodeCount image := by omega
    have hlt : inodeCount image < 256 ^ 4 := Bytes.field_lt (superOf image) 40 4
    have hle : 8 * (globalsOf image).itableBlocks ≤ 4294967296 := by
      change 8 * (inodeCount image / 8) ≤ 4294967296
      omega
    rw [blockInodes_range rfl hle]
    exact congrArg List.range hmul
  apply Exists.intro
  apply Exists.intro
  simp only [main, hinit, hn, List.range_succ_eq_map, scanGroups, hsuper, List.map_append,
    scanTable_visits, hnumbers]
  rfl

/-- In an image with a group, the scan looks at an inode of the number 0. -/
theorem zero_visited {image : List UInt8} (h : Ext2Image image)
    (hpos : 0 < (globalsOf image).numGroups) :
    ∃ offset, (0, offset) ∈ (main junk image).1.map fun v => (v.number, v.offset) := by
  obtain ⟨offset, rest, hvisits⟩ := @firstGroup_visits junk image h hpos
  exists inodeOffset (globalsOf image) 0 offset (s32 0)
  rw [hvisits, List.mem_append, List.mem_map]
  apply Or.inl
  exact ⟨0, List.mem_range.mpr h.inodes.1, rfl⟩

/-- No inode has the number 0. -/
theorem VisitsAll.zero {image : List UInt8} {visits : List Visit} (h : VisitsAll image visits)
    (offset : Int) : (0, offset) ∉ visits.map fun v => (v.number, v.offset) := by
  intro hzero
  have hmem := h.inodes.mem_iff.mp hzero
  obtain ⟨n, hn, heq⟩ := List.mem_map.mp hmem
  rw [List.mem_range'_1] at hn
  have hn0 : n = 0 := congrArg Prod.fst heq
  omega

/-- The scan of an ext2 image never visits its inodes as the image numbers them. -/
theorem scan_visits_wrong {image : List UInt8} (h : Ext2Image image) :
    ¬ VisitsAll image (main junk image).1 := by
  intro hall
  by_cases hpos : 0 < (globalsOf image).numGroups
  · obtain ⟨offset, hzero⟩ := @zero_visited junk image h hpos
    exact hall.zero offset hzero
  · -- the number of groups has overflowed to 0, and nothing is scanned
    have hcount : 0 < groupCount image * inodeCount image := Nat.mul_pos h.groups.2 h.inodes.1
    have hlen := hall.inodes.length_eq
    rw [List.length_map, List.length_map, List.length_range'] at hlen
    obtain ⟨fd, hinit, _⟩ := @ext2ReadInit_ok junk image h
    have hnil : (main junk image).1 = [] := by
      have hn : (globalsOf image).numGroups = 0 := by omega
      simp only [main, hinit, hn, List.range_zero, scanGroups]
    rw [hnil] at hlen
    simp only [List.length_nil] at hlen
    omega

/-! ## An image of seven blocks -/

/-- Some zero bytes. -/
def zeros (n : Nat) : List UInt8 := List.replicate n 0

/-- An image of one group with eight inodes. The last one is of a JPEG of four
bytes. -/
def sevenBlocks : List UInt8 :=
  zeros 1024
    -- super block
    ++ zeros 4 ++ [7, 0, 0, 0] ++ zeros 24 ++ [0, 32, 0, 0] ++ zeros 4 ++ [8, 0, 0, 0] ++ zeros 12
    ++ [83, 239] ++ zeros 966
    -- group descriptors
    ++ zeros 8 ++ [5, 0, 0, 0] ++ zeros 1012
    -- bitmaps
    ++ zeros 2048
    -- inode table
    ++ zeros 896 ++ [164, 129, 0, 0, 4, 0, 0, 0] ++ zeros 32 ++ [6, 0, 0, 0] ++ zeros 84
    -- the JPEG
    ++ [255, 216, 255, 224] ++ zeros 1020

theorem sevenBlocks_ext2 : Ext2Image sevenBlocks where
  long := by decide +kernel
  magic := by decide +kernel
  blocks := by decide +kernel
  groups := by decide +kernel
  inodes := by decide +kernel

theorem scan_visits_wrong_sevenBlocks :
    Ext2Image sevenBlocks ∧ ¬ VisitsAll sevenBlocks (main (zeros 4096) sevenBlocks).1 :=
  ⟨sevenBlocks_ext2, scan_visits_wrong sevenBlocks_ext2⟩

/-- Inode 8 is a JPEG to recover, and the scan starts with an inode 0. -/
theorem scan_counts_from_zero :
    isJpgInode sevenBlocks 8 = true ∧
      ¬ VisitsAll sevenBlocks (main (zeros 4096) sevenBlocks).1 := by
  apply And.intro
  · decide +kernel
  · intro hall
    obtain ⟨offset, hzero⟩ := @zero_visited (zeros 4096) _ sevenBlocks_ext2 (by decide +kernel)
    exact hall.zero offset hzero

end CS537.FileSystem
