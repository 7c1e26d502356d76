import CS537.FileSystem.Ext2
import Mathlib.Logic.Function.Basic

/-!
# FileSystem — `runscan`

`main` of `P5: File systems/runscan.c`. The copying of a file appears twice in the
source, with other buffers; here it is one definition. `junk` is what memory holds
that nothing was written to yet. The output directory is taken to be new, and
creating a file in it to succeed for a name that can be one.
-/

namespace CS537.FileSystem

open MachineInt

/-! ## The output directory -/

/-- The files of the output directory, by name. -/
abbrev Output := List UInt8 → Option (List UInt8)

/-- A name `open` can create a file under. -/
def validName (name : List UInt8) : Bool := name ≠ [] && name ≠ [46] && name ≠ [46, 46] && !name.contains 47

/-- `open` with `O_CREAT`, without `O_TRUNC`. -/
def openFile (name : List UInt8) (out : Output) : Output :=
  if validName name then Function.update out name (some ((out name).getD [])) else out

/-- `write` at the place the descriptor has come to. -/
def writeFile (name : List UInt8) (off : Nat) (data : List UInt8) (out : Output) : Output :=
  if validName name then
    Function.update out name (some (Bytes.overwrite ((out name).getD []) off data))
  else out

/-- `"file-%d.jpg"`. -/
def numberedName (number : Nat) : List UInt8 :=
  ("file-" ++ toString (s32 number) ++ ".jpg").toUTF8.toList

/-! ## Copying a file -/

/-- The state of a copy: the buffer, what is left of `size`, how far the output has
been written, the image, the output directory. -/
structure Copy where
  buffer : List UInt8
  size : Nat
  written : Nat
  fd : Fd
  out : Output

/-- Copies one block, or the rest of the file. -/
def copyBlock (blockSize : Nat) (name : List UInt8) (block : Nat) (c : Copy) : Copy :=
  let n := if c.size > 0 ∧ c.size < 1024 then c.size else 1024
  let (buffer, fd) := c.fd.readAt (blockOffset blockSize block) c.buffer n
  { buffer := buffer
    size := c.size - n
    written := c.written + n
    fd := fd
    out := writeFile name c.written (buffer.take n) c.out }

/-- Copies blocks until the file ends. -/
def copyBlocks (blockSize : Nat) (name : List UInt8) (blocks : List Nat) (c : Copy) : Copy :=
  match blocks with
  | [] => c
  | block :: blocks =>
      if c.size = 0 then c else copyBlocks blockSize name blocks (copyBlock blockSize name block c)

/-- The 256 block numbers of an indirect block. -/
def blockNumbers (buffer : List UInt8) : List Nat :=
  (List.range 256).map fun h => Bytes.field buffer (4 * h) 4

/-- The single indirect block. -/
def copyIndirect (junk : List UInt8) (blockSize : Nat) (name : List UInt8) (block : Nat)
    (c : Copy) : Copy :=
  let (buffer2, fd) := c.fd.readAt (blockOffset blockSize block) junk 1024
  copyBlocks blockSize name (blockNumbers buffer2) { c with fd := fd }

/-- The loop over the double indirect block. It goes on to read indirect blocks when
the file has ended. -/
def copyDouble (blockSize : Nat) (name : List UInt8) :
    List Nat → List UInt8 → Copy → Copy
  | [], _, c => c
  | block :: blocks, indBuffer, c =>
      let (indBuffer, fd) := c.fd.readAt (blockOffset blockSize block) indBuffer 1024
      copyDouble blockSize name blocks indBuffer
        (copyBlocks blockSize name (blockNumbers indBuffer) { c with fd := fd })

/-- The copy of a file's content to the output file. -/
def copyFile (junk : List UInt8) (blockSize : Nat) (name : List UInt8) (inode : List UInt8)
    (buffer : List UInt8) (fd : Fd) (out : Output) : Copy :=
  let c : Copy :=
    { buffer := buffer, size := iSize inode, written := 0, fd := fd, out := openFile name out }
  let c := copyBlocks blockSize name ((List.range 12).map (iBlock inode)) c
  if c.size = 0 then c
  else
    let c := copyIndirect junk blockSize name (iBlock inode 12) c
    if c.size = 0 then c
    else
      let (doubleIndBuffer, fd) := c.fd.readAt (blockOffset blockSize (iBlock inode 13)) junk 1024
      copyDouble blockSize name (blockNumbers doubleIndBuffer) junk { c with fd := fd }

/-- The JPEG signature. -/
def isJpg (buffer : List UInt8) : Bool :=
  buffer.getD 0 0 = 255 && buffer.getD 1 0 = 216 && buffer.getD 2 0 = 255 &&
    (buffer.getD 3 0 = 224 || buffer.getD 3 0 = 225 || buffer.getD 3 0 = 232)

/-! ## The two branches -/

/-- What an iteration works on: the image, the output directory, `inode` and
`buffer`. -/
structure Work where
  fd : Fd
  out : Output
  inode : List UInt8
  buffer : List UInt8

/-- The branch of regular files; whether it opened an output file. -/
def scanRegular (junk : List UInt8) (g : Globals) (number : Nat) (w : Work) : Bool × Work :=
  let (buffer, fd) := w.fd.readAt (blockOffset g.blockSize (iBlock w.inode 0)) w.buffer 1024
  if isJpg buffer then
    let c := copyFile junk g.blockSize (numberedName number) w.inode buffer fd w.out
    (true, { w with fd := c.fd, out := c.out, buffer := c.buffer })
  else (false, { w with fd := fd, buffer := buffer })

/-- The `n` bytes of the directory buffer from `off` on. After the buffer lies
`junk`. -/
def dirBytes (junk buffer : List UInt8) (off n : Nat) : List UInt8 :=
  ((buffer ++ junk).drop off).take n

/-- One entry of a directory: the file it names is looked up with the table of the
current group. `nameBuf` is the buffer `name`, a string up to its first zero. -/
def scanEntry (junk : List UInt8) (g : Globals) (t offset : Nat) (ino : Nat)
    (nameBuf : List UInt8) (w : Work) : Work :=
  let (inode, fd) := readInode g t offset (s32 ino) w.inode w.fd
  if sIsReg (iMode inode) then
    let (bufferInode, fd) := fd.readAt (blockOffset g.blockSize (iBlock inode 0)) junk 1024
    if isJpg bufferInode then
      let name := (nameBuf ++ junk).takeWhile (· ≠ 0)
      let c := copyFile junk g.blockSize name inode bufferInode fd w.out
      { w with fd := c.fd, out := c.out, inode := inode }
    else { w with fd := fd, inode := inode }
  else { w with fd := fd, inode := inode }

/-- The loop over the entries of a directory, of at most that many rounds. -/
def scanEntries (junk : List UInt8) (g : Globals) (t offset : Nat) :
    Nat → Nat → List UInt8 → Work → Work
  | 0, _, _, w => w
  | k + 1, off, nameBuf, w =>
      if off < g.blockSize then
        let ino := Bytes.ofLe (dirBytes junk w.buffer off 4)
        let nameLen := Bytes.ofLe (dirBytes junk w.buffer (off + 6) 1)
        let nameBuf := Bytes.overwrite nameBuf 0 (dirBytes junk w.buffer (off + 8) nameLen)
        let w := scanEntry junk g t offset ino nameBuf w
        let off := if nameLen % 4 ≠ 0 then off + 8 + nameLen + 4 - nameLen % 4
          else off + 8 + nameLen
        -- `memset(name, 0, EXT2_NAME_LEN)`
        scanEntries junk g t offset k off (List.replicate 255 0) w
      else w

/-- The branch of everything else: its first block is read as a directory. -/
def scanDirectory (junk : List UInt8) (g : Globals) (t offset : Nat) (w : Work) : Work :=
  let (buffer, fd) := w.fd.readAt (blockOffset g.blockSize (iBlock w.inode 0)) w.buffer 1024
  scanEntries junk g t offset (g.blockSize / 8) 0 (junk.take 255) { w with fd := fd, buffer := buffer }

/-! ## The loops of `main` -/

/-- An inode the scan has looked at: its number, where it was read, and whether a
file was made for it. -/
structure Visit where
  number : Nat
  offset : Int
  created : Bool
  deriving DecidableEq, Repr

/-- The body of the innermost loop. -/
def scanInode (junk : List UInt8) (g : Globals) (t offset number : Nat) (w : Work) :
    Visit × Work :=
  let (inode, fd) := readInode g t offset (s32 number) w.inode w.fd
  let w := { w with fd := fd, inode := inode }
  let off := inodeOffset g t offset (s32 number)
  if sIsReg (iMode inode) then
    let (created, w) := scanRegular junk g number w
    (⟨number, off, created⟩, w)
  else (⟨number, off, false⟩, scanDirectory junk g t offset w)

/-- The inodes of some numbers. -/
def scanInodes (junk : List UInt8) (g : Globals) (t offset : Nat) :
    List Nat → Work → List Visit × Work
  | [], w => ([], w)
  | number :: numbers, w =>
      let (v, w) := scanInode junk g t offset number w
      let (vs, w) := scanInodes junk g t offset numbers w
      (v :: vs, w)

/-- The numbers of the inodes of block `i` of the inode table. -/
def blockInodes (g : Globals) (i : Nat) : List Nat :=
  (List.range g.inodesPerBlock).map fun j => u32 (i * g.inodesPerBlock + j)

/-- The loop over the blocks of the inode table. `inode` and `buffer` are new for
each block. -/
def scanTable (junk : List UInt8) (g : Globals) (t offset : Nat) :
    List Nat → Fd → Output → List Visit × Fd × Output
  | [], fd, out => ([], fd, out)
  | i :: is, fd, out =>
      let (vs, w) := scanInodes junk g t offset (blockInodes g i)
        { fd := fd, out := out, inode := junk, buffer := junk }
      let (vs', fd, out) := scanTable junk g t offset is w.fd w.out
      (vs ++ vs', fd, out)

/-- The loop over the groups. `super` and `group` keep what the group before left. -/
def scanGroups (junk : List UInt8) :
    List Nat → Globals → List UInt8 → List UInt8 → Fd → Output → List Visit × Output
  | [], _, _, _, _, out => ([], out)
  | t :: ts, g, super, group, fd, out =>
      match readSuperBlock g t super fd with
      | .error _ => ([], out)
      | .ok (g, super, fd) =>
          let (group, fd) := readGroupDesc g t group fd
          let offset := locateInodeTable g t group
          let (vs, fd, out) := scanTable junk g t offset (List.range g.itableBlocks) fd out
          let (vs', out) := scanGroups junk ts g super group fd out
          (vs ++ vs', out)

/-- `main`: the inodes it looks at, in order, and the output directory it leaves. -/
def main (junk : List UInt8) (image : List UInt8) : List Visit × Output :=
  match ext2ReadInit junk ⟨image, 0⟩ with
  | .error _ => ([], fun _ => none)
  | .ok (g, fd) => scanGroups junk (List.range g.numGroups) g junk junk fd fun _ => none

end CS537.FileSystem
