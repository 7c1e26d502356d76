import CS537.Lib.Bytes
import CS537.Lib.MachineInt

/-!
# FileSystem — reading an ext2 image

`P5: File systems/read_ext2.c`. The image is a file of bytes and a descriptor is a
place in it. A structure is the bytes it is read from, and its fields are read at
their offsets. A read that meets the end of the file leaves the rest of its buffer
as it was.
-/

namespace CS537.FileSystem

open MachineInt

/-- The descriptor of the image. -/
structure Fd where
  image : List UInt8
  pos : Nat

/-- `lseek` with `SEEK_SET`. A negative offset is an error. -/
def Fd.lseek (fd : Fd) (off : Int) : Fd := if off < 0 then fd else { fd with pos := off.toNat }

/-- `read`: the buffer and the descriptor after it. -/
def Fd.read (fd : Fd) (buf : List UInt8) (n : Nat) : List UInt8 × Fd :=
  let got := (fd.image.drop fd.pos).take n
  (Bytes.overwrite buf 0 got, { fd with pos := fd.pos + got.length })

/-- `lseek` and `read`. -/
def Fd.readAt (fd : Fd) (off : Int) (buf : List UInt8) (n : Nat) : List UInt8 × Fd :=
  (fd.lseek off).read buf n

/-- How the program ends before its time. -/
inductive Halt where
  /-- `exit(1)`: the magic number is wrong. -/
  | notExt2
  /-- A division by zero. -/
  | divByZero
  deriving DecidableEq, Repr

/-- The variables of `read_ext2.c`. -/
structure Globals where
  blockSize : Nat
  inodesPerBlock : Nat
  itableBlocks : Nat
  blocksPerGroup : Nat
  numGroups : Nat
  inodesPerGroup : Nat
  deriving DecidableEq, Repr

/-- `BASE_OFFSET`. -/
abbrev baseOffset : Nat := 1024

/-- `BLOCK_OFFSET`. -/
def blockOffset (blockSize block : Nat) : Nat :=
  u32 (baseOffset + u32 (4294967295 + block) * blockSize)

/-- `EXT2_SUPER_MAGIC`. -/
abbrev ext2SuperMagic : Nat := 61267

/-- `sizeof(struct ext2_inode)`. -/
abbrev inodeBytes : Nat := 128

/-! ## Structures -/

/-- `s_blocks_count`. -/
def sBlocksCount (super : List UInt8) : Nat := Bytes.field super 4 4

/-- `s_log_block_size`. -/
def sLogBlockSize (super : List UInt8) : Nat := Bytes.field super 24 4

/-- `s_blocks_per_group`. -/
def sBlocksPerGroup (super : List UInt8) : Nat := Bytes.field super 32 4

/-- `s_inodes_per_group`. -/
def sInodesPerGroup (super : List UInt8) : Nat := Bytes.field super 40 4

/-- `s_magic`. -/
def sMagic (super : List UInt8) : Nat := Bytes.field super 56 2

/-- `bg_inode_table`. -/
def bgInodeTable (group : List UInt8) : Nat := Bytes.field group 8 4

/-- `i_mode`. -/
def iMode (inode : List UInt8) : Nat := Bytes.field inode 0 2

/-- `i_size`. -/
def iSize (inode : List UInt8) : Nat := Bytes.field inode 4 4

/-- `i_block[b]`. -/
def iBlock (inode : List UInt8) (b : Nat) : Nat := Bytes.field inode (40 + 4 * b) 4

/-- `S_ISREG`. -/
def sIsReg (mode : Nat) : Bool := mode / 4096 = 8

/-- `1024 << s_log_block_size`. -/
def blockSizeOf (super : List UInt8) : Nat := u32 (1024 <<< (sLogBlockSize super % 32))

/-! ## `read_ext2.c` -/

/-- `ext2_read_init`. `junk` is what uninitialized memory holds. -/
def ext2ReadInit (junk : List UInt8) (fd : Fd) : Except Halt (Globals × Fd) :=
  let (super, fd) := fd.readAt baseOffset junk 1024
  if sMagic super ≠ ext2SuperMagic then .error .notExt2
  else
    let blockSize := blockSizeOf super
    let inodesPerBlock := blockSize / inodeBytes
    let blocksPerGroup := sBlocksPerGroup super
    if inodesPerBlock = 0 ∨ blocksPerGroup = 0 then .error .divByZero
    else
      .ok ({ blockSize := blockSize
             inodesPerBlock := inodesPerBlock
             itableBlocks := sInodesPerGroup super / inodesPerBlock
             blocksPerGroup := blocksPerGroup
             numGroups := u32 (4294967295 + sBlocksCount super + blocksPerGroup) / blocksPerGroup
             inodesPerGroup := sInodesPerGroup super }, fd)

/-- The loop of `isPowerOf`, of at most that many rounds. -/
def isPowerLoop (n : Int) : Nat → Int → Bool
  | 0, m => m = 1
  | k + 1, m =>
      if m = 1 then true
      else if m.tmod n ≠ 0 then false
      else isPowerLoop n k (m.tdiv n)

/-- `isPowerOf`. -/
def isPowerOf (m n : Int) : Bool := isPowerLoop n m.natAbs m

/-- Whether `read_super_block` looks for a copy in the group. -/
def hasSuperCopy (ngroup : Int) : Bool :=
  ngroup = 0 || ngroup = 1 || isPowerOf ngroup 3 || isPowerOf ngroup 5 || isPowerOf ngroup 7

/-- `read_super_block`. -/
def readSuperBlock (g : Globals) (t : Nat) (super : List UInt8) (fd : Fd) :
    Except Halt (Globals × List UInt8 × Fd) :=
  if hasSuperCopy (s32 t) then
    let off := u32 (baseOffset + blockOffset g.blockSize (u32 (g.blocksPerGroup * t)))
    let (super, fd) := fd.readAt off super 1024
    if sMagic super ≠ ext2SuperMagic then .error .notExt2
    else
      let blockSize := blockSizeOf super
      let inodesPerBlock := blockSize / inodeBytes
      if inodesPerBlock = 0 then .error .divByZero
      else
        .ok ({ g with
               blockSize := blockSize
               inodesPerBlock := inodesPerBlock
               itableBlocks := sInodesPerGroup super / inodesPerBlock }, super, fd)
  else .ok (g, super, fd)

/-- `read_group_desc`. -/
def readGroupDesc (g : Globals) (t : Nat) (group : List UInt8) (fd : Fd) : List UInt8 × Fd :=
  let ngroup := s32 t
  let off := baseOffset + blockOffset g.blockSize (u32 (g.blocksPerGroup * t))
  if ngroup ≠ 0 ∧ ngroup ≠ 1 ∧ isPowerOf ngroup 3 ∧ isPowerOf ngroup 5 ∧ isPowerOf ngroup 7 then
    fd.readAt (u32 off) group 32
  else fd.readAt (u32 (off + g.blockSize)) group 32

/-- `locate_inode_table`. -/
def locateInodeTable (g : Globals) (t : Nat) (group : List UInt8) : Nat :=
  blockOffset g.blockSize (u32 (bgInodeTable group + u32 (g.blocksPerGroup * t)))

/-- Where `read_inode` reads inode `inodeNo`, with `offset` the start of the table. -/
def inodeOffset (g : Globals) (t : Nat) (offset : Nat) (inodeNo : Int) : Int :=
  blockOffset g.blockSize (u32 (g.blocksPerGroup * t)) + offset + i32 (inodeNo - 1) * inodeBytes

/-- `read_inode`. -/
def readInode (g : Globals) (t : Nat) (offset : Nat) (inodeNo : Int) (inode : List UInt8)
    (fd : Fd) : List UInt8 × Fd :=
  fd.readAt (inodeOffset g t offset inodeNo) inode inodeBytes

end CS537.FileSystem
