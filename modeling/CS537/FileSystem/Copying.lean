import CS537.FileSystem.Scan
import Mathlib.Data.List.GetD

/-!
# FileSystem — what a copy writes

The copying loops of `runscan` follow the block numbers of an inode, directly and
through the indirect blocks. For a file whose blocks the image has, they write its
`i_size` bytes over the beginning of the output file (`copyFile_content`).
-/

namespace CS537.FileSystem

open MachineInt

/-! ## The content of a file -/

/-- Block `b` of the image. -/
def blockAt (image : List UInt8) (b : Nat) : List UInt8 := (image.drop (b * 1024)).take 1024

/-- The blocks that the indirect block `b` lists. -/
def indirectBlocks (image : List UInt8) (b : Nat) : List Nat := blockNumbers (blockAt image b)

/-- The data blocks of an inode, in the order of the file. -/
def dataBlocks (image inode : List UInt8) : List Nat :=
  (List.range 12).map (iBlock inode) ++ (indirectBlocks image (iBlock inode 12) ++
    (indirectBlocks image (iBlock inode 13)).flatMap (indirectBlocks image))

/-- The content of the file. -/
def fileBytes (image inode : List UInt8) : List UInt8 :=
  ((dataBlocks image inode).flatMap (blockAt image)).take (iSize inode)

/-- The image has block `b`, at the offset `BLOCK_OFFSET` gives. -/
def HasBlock (image : List UInt8) (b : Nat) : Prop :=
  b < 4194304 ∧ b * 1024 + 1024 ≤ image.length

instance (image : List UInt8) (b : Nat) : Decidable (HasBlock image b) :=
  inferInstanceAs (Decidable (_ ∧ _))

/-- The image has the first `n` bytes of block `b`, which is not the block 0 of a hole. -/
def HasBytes (image : List UInt8) (b n : Nat) : Prop :=
  1 ≤ b ∧ b < 4194304 ∧ b * 1024 + n ≤ image.length

instance (image : List UInt8) (b n : Nat) : Decidable (HasBytes image b n) :=
  inferInstanceAs (Decidable (_ ∧ _))

/-- The image has the first `size` bytes of some blocks. -/
def HasData (image : List UInt8) : List Nat → Nat → Prop
  | [], _ => True
  | b :: blocks, size =>
      size = 0 ∨ HasBytes image b (min size 1024) ∧ HasData image blocks (size - 1024)

instance decidableHasData (image : List UInt8) :
    (blocks : List Nat) → (size : Nat) → Decidable (HasData image blocks size)
  | [], _ => .isTrue trivial
  | _ :: blocks, size =>
      have := decidableHasData image blocks (size - 1024)
      inferInstanceAs (Decidable (_ ∨ _ ∧ _))

/-- How many indirect blocks some bytes take. -/
def indirectsOf (size : Nat) : Nat := (size + 262143) / 262144

/-- The file is no longer than the double indirect block reaches, and the image has
what it needs: the data, and whole indirect blocks. -/
structure Readable (image inode : List UInt8) : Prop where
  size : iSize inode ≤ (12 + 256 + 65536) * 1024
  data : HasData image (dataBlocks image inode) (iSize inode)
  indirect : 12 * 1024 < iSize inode → HasBytes image (iBlock inode 12) 1024
  double : 268 * 1024 < iSize inode → HasBytes image (iBlock inode 13) 1024 ∧
    ∀ b ∈ (indirectBlocks image (iBlock inode 13)).take
      (indirectsOf (iSize inode - 268 * 1024)), HasBytes image b 1024

/-! ## Reading blocks -/

theorem drop_flatten {bs : List (List UInt8)} (h : ∀ block ∈ bs, block.length = 1024) (b : Nat) :
    bs.flatten.drop (b * 1024) = (bs.drop b).flatten := by
  induction bs generalizing b with
  | nil => rw [List.drop_nil, List.flatten_nil, List.drop_nil]
  | cons block bs ih =>
      cases b with
      | zero => rw [Nat.zero_mul, List.drop_zero, List.drop_zero]
      | succ b =>
          have hlen := h block List.mem_cons_self
          have hrest := ih (fun a ha => h a (List.mem_cons_of_mem block ha)) b
          rw [List.flatten_cons, List.drop_succ_cons, ← hrest, Nat.succ_mul, Nat.add_comm,
            ← List.drop_drop, List.drop_left' hlen]

/-- The blocks of an image that is given block by block. -/
theorem blockAt_flatten {bs : List (List UInt8)} (h : ∀ block ∈ bs, block.length = 1024) (b : Nat) :
    blockAt bs.flatten b = bs.getD b [] := by
  rw [blockAt, drop_flatten h]
  by_cases hb : b < bs.length
  · have hlen := h bs[b] (List.getElem_mem hb)
    rw [List.drop_eq_getElem_cons hb, List.flatten_cons, List.take_left' hlen,
      List.getD_eq_getElem _ _ hb]
  · rw [List.drop_eq_nil_of_le (by omega), List.flatten_nil, List.take_nil,
      List.getD_eq_default _ _ (by omega)]

theorem length_flatten {bs : List (List UInt8)} (h : ∀ block ∈ bs, block.length = 1024) :
    bs.flatten.length = bs.length * 1024 := by
  induction bs with
  | nil => rfl
  | cons block bs ih =>
      rw [List.flatten_cons, List.length_append, List.length_cons, h block List.mem_cons_self,
        ih fun a ha => h a (List.mem_cons_of_mem block ha)]
      omega

/-- What lies inside a block. -/
theorem blockAt_part {image : List UInt8} {b off n : Nat} (h : off + n ≤ 1024) :
    (image.drop (b * 1024 + off)).take n = ((blockAt image b).drop off).take n := by
  rw [blockAt, List.drop_take, List.take_take, List.drop_drop, Nat.min_eq_left (by omega)]

theorem blockOffset_eq {b : Nat} (h : b < 4194304) : blockOffset 1024 b = b * 1024 := by
  unfold blockOffset u32 baseOffset
  omega

theorem Fd.readAt_image (fd : Fd) (off : Int) (buf : List UInt8) (n : Nat) :
    (fd.readAt off buf n).2.image = fd.image := by
  unfold Fd.readAt Fd.lseek
  split
  · rfl
  · rfl

theorem Fd.readAt_nat (fd : Fd) {off n : Nat} (buf : List UInt8)
    (h : off + n ≤ fd.image.length) :
    (fd.readAt off buf n).1 = (fd.image.drop off).take n ++ buf.drop n := by
  have hoff : ¬ (off : Int) < 0 := by omega
  have hlen : ((fd.image.drop off).take n).length = n := by
    rw [List.length_take, List.length_drop]
    omega
  rw [Fd.readAt, Fd.lseek, if_neg hoff]
  show Bytes.overwrite buf 0 ((fd.image.drop off).take n) = _
  rw [Bytes.overwrite, hlen, Nat.zero_add]
  rfl

variable {image : List UInt8} {name : List UInt8}

theorem HasBytes.whole {b : Nat} (h : HasBytes image b 1024) : HasBlock image b :=
  ⟨h.2.1, h.2.2⟩

theorem HasBytes.length {b n : Nat} (h : HasBytes image b n) (hn : n ≤ 1024) :
    n ≤ (blockAt image b).length := by
  have := h.2.2
  rw [blockAt, List.length_take, List.length_drop]
  omega

/-- The first bytes of a block. -/
theorem HasBytes.read {b n : Nat} {fd : Fd} (h : HasBytes image b n) (hfd : fd.image = image)
    (hn : n ≤ 1024) (buf : List UInt8) :
    (fd.readAt (blockOffset 1024 b) buf n).1 = (blockAt image b).take n ++ buf.drop n := by
  subst hfd
  rw [blockOffset_eq h.2.1, Fd.readAt_nat fd buf h.2.2, blockAt, List.take_take,
    Nat.min_eq_left hn]

theorem HasBlock.length {b : Nat} (h : HasBlock image b) : (blockAt image b).length = 1024 := by
  have := h.2
  rw [blockAt, List.length_take, List.length_drop]
  omega

/-- A whole block. -/
theorem HasBlock.read {b : Nat} {fd : Fd} (h : HasBlock image b) (hfd : fd.image = image)
    (buf : List UInt8) :
    (fd.readAt (blockOffset 1024 b) buf 1024).1 = blockAt image b ++ buf.drop 1024 := by
  subst hfd
  rw [blockOffset_eq h.1, Fd.readAt_nat fd buf h.2]
  rfl

theorem blockNumbers_length (buffer : List UInt8) : (blockNumbers buffer).length = 256 := by
  rw [blockNumbers, List.length_map, List.length_range]

theorem blockNumbers_append {block : List UInt8} (h : block.length = 1024) (rest : List UInt8) :
    blockNumbers (block ++ rest) = blockNumbers block := by
  apply List.map_congr_left
  intro i hi
  rw [List.mem_range] at hi
  exact Bytes.field_append_left (by omega)

/-- The block numbers that are read from an indirect block. -/
theorem HasBlock.readNumbers {b : Nat} {fd : Fd} (h : HasBlock image b) (hfd : fd.image = image)
    (buf : List UInt8) :
    blockNumbers (fd.readAt (blockOffset 1024 b) buf 1024).1 = indirectBlocks image b := by
  rw [h.read hfd, blockNumbers_append h.length, indirectBlocks]

/-! ## Writing one piece after the other -/

/-- A file `open` succeeded on. -/
def Opened (name : List UInt8) (out : Output) : Prop := validName name → (out name).isSome

theorem writeFile_append (off : Nat) (d d' : List UInt8) (out : Output) :
    writeFile name (off + d.length) d' (writeFile name off d out) =
      writeFile name off (d ++ d') out := by
  unfold writeFile
  split
  · rw [Function.update_idem, Function.update_self, Option.getD_some, Bytes.overwrite_append]
  · rfl

theorem writeFile_nil {off : Nat} {out : Output} (h : Opened name out) :
    writeFile name off [] out = out := by
  unfold writeFile
  split
  · rename_i hv
    obtain ⟨file, hfile⟩ := Option.isSome_iff_exists.mp (h hv)
    rw [hfile, Option.getD_some, Bytes.overwrite_nil, ← hfile, Function.update_eq_self]
  · rfl

theorem Opened.write {off : Nat} {d : List UInt8} {out : Output} :
    Opened name (writeFile name off d out) := by
  intro hv
  rw [writeFile, if_pos hv, Function.update_self]
  rfl

theorem Opened.openFile {out : Output} : Opened name (openFile name out) := by
  intro hv
  rw [FileSystem.openFile, if_pos hv, Function.update_self]
  rfl

/-! ## The loops -/

/-- `c'` is `c` after the copy of `blocks`. -/
structure Copied (image name : List UInt8) (blocks : List Nat) (c c' : Copy) : Prop where
  fd : c'.fd.image = image
  size : c'.size = c.size - blocks.length * 1024
  written : c'.written = c.written + min c.size (blocks.length * 1024)
  /-- No block was short. -/
  full : min c.size (blocks.length * 1024) ≤ (blocks.flatMap (blockAt image)).length
  out : c'.out =
    writeFile name c.written ((blocks.flatMap (blockAt image)).take c.size) c.out

theorem HasData.of_zero (blocks : List Nat) : HasData image blocks 0 := by
  cases blocks with
  | nil => trivial
  | cons b blocks => exact .inl rfl

theorem HasData.append {blocks blocks' : List Nat} {size : Nat}
    (h : HasData image (blocks ++ blocks') size) :
    HasData image blocks size ∧ HasData image blocks' (size - blocks.length * 1024) := by
  induction blocks generalizing size with
  | nil =>
      rw [List.length_nil, Nat.zero_mul, Nat.sub_zero]
      exact ⟨trivial, h⟩
  | cons b blocks ih =>
      rcases h with hzero | ⟨hb, hrest⟩
      · subst hzero
        rw [Nat.zero_sub]
        exact ⟨.inl rfl, .of_zero _⟩
      · obtain ⟨hleft, hright⟩ := ih hrest
        rw [Nat.sub_sub, Nat.add_comm, ← Nat.succ_mul] at hright
        exact ⟨.inr ⟨hb, hleft⟩, hright⟩

theorem HasData.head {b : Nat} {blocks : List Nat} {size : Nat}
    (h : HasData image (b :: blocks) size) (hs : 0 < size) :
    HasBytes image b (min size 1024) ∧ HasData image blocks (size - 1024) :=
  h.resolve_left (Nat.ne_of_gt hs)

theorem copied_nil {c : Copy} (hfd : c.fd.image = image) (hopen : Opened name c.out) :
    Copied image name [] c c where
  fd := hfd
  size := by rw [List.length_nil, Nat.zero_mul, Nat.sub_zero]
  written := by rw [List.length_nil, Nat.zero_mul, Nat.min_zero, Nat.add_zero]
  full := by rw [List.length_nil, Nat.zero_mul, Nat.min_zero]; exact Nat.zero_le _
  out := by rw [List.flatMap_nil, List.take_nil, writeFile_nil hopen]

/-- Nothing is copied of a file that has ended. -/
theorem copied_ended {c : Copy} (hfd : c.fd.image = image) (hopen : Opened name c.out)
    (hs : c.size = 0) (blocks : List Nat) : Copied image name blocks c c where
  fd := hfd
  size := by rw [hs, Nat.zero_sub]
  written := by rw [hs, Nat.zero_min, Nat.add_zero]
  full := by rw [hs, Nat.zero_min]; exact Nat.zero_le _
  out := by rw [hs, List.take_zero, writeFile_nil hopen]

theorem copyBlock_copied {b : Nat} {c : Copy} (hfd : c.fd.image = image)
    (hb : HasBytes image b (min c.size 1024)) (hs : 0 < c.size) :
    Copied image name [b] c (copyBlock 1024 name b c) := by
  obtain ⟨n, hn⟩ : ∃ n, n = if c.size > 0 ∧ c.size < 1024 then c.size else 1024 := ⟨_, rfl⟩
  have hmin : n = min c.size 1024 := by
    rw [hn]
    split
    · omega
    · omega
  rw [← hmin] at hb
  have hlen := hb.length (by omega)
  have hdata : (c.fd.readAt (blockOffset 1024 b) c.buffer n).1.take n =
      ([b].flatMap (blockAt image)).take c.size := by
    have hle : (blockAt image b).length ≤ 1024 := List.length_take_le 1024 _
    rw [hb.read hfd (by omega), List.flatMap_singleton,
      List.take_append_of_le_length (by rw [List.length_take]; omega), List.take_take, Nat.min_self]
    by_cases hlast : c.size < 1024
    · rw [hmin, Nat.min_eq_left (by omega)]
    · rw [hmin, Nat.min_eq_right (by omega), List.take_of_length_le (by omega),
        List.take_of_length_le (by omega)]
  have himage := Fd.readAt_image c.fd (blockOffset 1024 b) c.buffer n
  unfold copyBlock
  rw [← hn]
  refine ⟨himage.trans hfd, ?_, ?_, ?_, ?_⟩
  · show c.size - n = c.size - 1 * 1024
    omega
  · show c.written + n = c.written + min c.size (1 * 1024)
    omega
  · rw [List.flatMap_singleton, List.length_singleton, Nat.one_mul, ← hmin]
    exact hlen
  · show writeFile name c.written _ c.out = _
    rw [hdata]

theorem blocks_length_le (image : List UInt8) (blocks : List Nat) :
    (blocks.flatMap (blockAt image)).length ≤ blocks.length * 1024 := by
  induction blocks with
  | nil => exact Nat.le_refl 0
  | cons b blocks ih =>
      have hb : (blockAt image b).length ≤ 1024 := List.length_take_le 1024 _
      rw [List.flatMap_cons, List.length_append, List.length_cons]
      omega

theorem min_add_le {s m m' n n' : Nat} (h : min s m ≤ n) (h' : min (s - m) m' ≤ n') :
    min s (m + m') ≤ n + n' := by
  omega

/-- Two copies, one after the other. -/
theorem Copied.trans {blocks blocks' : List Nat} {c c₁ c₂ : Copy}
    (h : Copied image name blocks c c₁) (h' : Copied image name blocks' c₁ c₂) :
    Copied image name (blocks ++ blocks') c c₂ := by
  have hfull := h.full
  have hfull' := h'.full
  have hle := blocks_length_le image blocks
  have hsize := h.size
  generalize hdata : blocks.flatMap (blockAt image) = data at hfull hle
  generalize hdata' : blocks'.flatMap (blockAt image) = data' at hfull'
  have happend : (blocks ++ blocks').flatMap (blockAt image) = data ++ data' := by
    rw [List.flatMap_append, hdata, hdata']
  refine ⟨h'.fd, ?_, ?_, ?_, ?_⟩
  · rw [h'.size, hsize, List.length_append]
    omega
  · rw [h'.written, h.written, hsize, List.length_append]
    omega
  · rw [hsize] at hfull'
    rw [happend, List.length_append, List.length_append, Nat.add_mul]
    exact min_add_le hfull hfull'
  · have hlen : (data.take c.size).length = min c.size (blocks.length * 1024) := by
      rw [List.length_take]
      omega
    have hrest : c₁.size = c.size - data.length := by omega
    rw [h'.out, h.out, hdata, hdata', h.written, ← hlen, writeFile_append, happend,
      List.take_append, hrest]

theorem Copied.opened {blocks : List Nat} {c c' : Copy} (h : Copied image name blocks c c') :
    Opened name c'.out := by
  rw [h.out]
  exact Opened.write

theorem copyBlocks_copied {blocks : List Nat} {c : Copy} (hfd : c.fd.image = image)
    (hopen : Opened name c.out) (hblocks : HasData image blocks c.size) :
    Copied image name blocks c (copyBlocks 1024 name blocks c) := by
  induction blocks generalizing c with
  | nil => exact copied_nil hfd hopen
  | cons b blocks ih =>
      rw [copyBlocks]
      by_cases hs : c.size = 0
      · rw [if_pos hs]
        exact copied_ended hfd hopen hs _
      · have hpos : 0 < c.size := Nat.pos_of_ne_zero hs
        obtain ⟨hb, hdata⟩ := hblocks.head hpos
        have hfirst := @copyBlock_copied image name b c hfd hb hpos
        have hrest : HasData image blocks (copyBlock 1024 name b c).size := by
          rw [hfirst.size, List.length_singleton, Nat.one_mul]
          exact hdata
        rw [if_neg hs]
        exact hfirst.trans (ih hfirst.fd hfirst.opened hrest)

theorem indirectBlocks_length (image : List UInt8) (b : Nat) :
    (indirectBlocks image b).length = 256 := blockNumbers_length _

theorem copyIndirect_copied {b : Nat} {c : Copy} (junk : List UInt8) (hfd : c.fd.image = image)
    (hopen : Opened name c.out) (hb : HasBlock image b)
    (hblocks : HasData image (indirectBlocks image b) c.size) :
    Copied image name (indirectBlocks image b) c (copyIndirect junk 1024 name b c) := by
  have hnumbers := hb.readNumbers hfd junk
  have himage := Fd.readAt_image c.fd (blockOffset 1024 b) junk 1024
  rw [copyIndirect]
  generalize c.fd.readAt (blockOffset 1024 b) junk 1024 = r at hnumbers himage
  obtain ⟨buffer2, fd⟩ := r
  dsimp only at hnumbers himage ⊢
  rw [hnumbers]
  have hcopied := @copyBlocks_copied image name (indirectBlocks image b) { c with fd := fd }
    (himage.trans hfd) hopen hblocks
  exact ⟨hcopied.fd, hcopied.size, hcopied.written, hcopied.full, hcopied.out⟩

/-- The double indirect block goes on being read when the file has ended, to no effect. -/
theorem copyDouble_copied {bs : List Nat} {indBuffer : List UInt8} {c : Copy}
    (hfd : c.fd.image = image) (hopen : Opened name c.out)
    (hbs : ∀ b ∈ bs.take (indirectsOf c.size), HasBytes image b 1024)
    (hblocks : HasData image (bs.flatMap (indirectBlocks image)) c.size) :
    Copied image name (bs.flatMap (indirectBlocks image)) c
      (copyDouble 1024 name bs indBuffer c) := by
  induction bs generalizing indBuffer c with
  | nil => exact copied_nil hfd hopen
  | cons b bs ih =>
      have himage := Fd.readAt_image c.fd (blockOffset 1024 b) indBuffer 1024
      have hnumbers (hb : HasBlock image b) := hb.readNumbers hfd indBuffer
      rw [copyDouble]
      generalize c.fd.readAt (blockOffset 1024 b) indBuffer 1024 = r at himage hnumbers
      obtain ⟨buffer, fd⟩ := r
      dsimp only at himage hnumbers ⊢
      rw [List.flatMap_cons] at hblocks ⊢
      have hfirst : Copied image name (indirectBlocks image b) c
          (copyBlocks 1024 name (blockNumbers buffer) { c with fd := fd }) := by
        by_cases hs : c.size = 0
        · have hstop : copyBlocks 1024 name (blockNumbers buffer) { c with fd := fd } =
              { c with fd := fd } := by
            unfold copyBlocks
            split
            · rfl
            · exact if_pos hs
          have hended := copied_ended (c := { c with fd := fd }) (himage.trans hfd) hopen hs
            (indirectBlocks image b)
          rw [hstop]
          exact ⟨hended.fd, hended.size, hended.written, hended.full, hended.out⟩
        · have hb : HasBlock image b := by
            apply HasBytes.whole
            apply hbs
            rw [show indirectsOf c.size = (c.size - 1) / 262144 + 1 by
              unfold indirectsOf; omega, List.take_succ_cons]
            exact List.mem_cons_self
          have hcopied := @copyBlocks_copied image name _ { c with fd := fd }
            (himage.trans hfd) hopen hblocks.append.1
          rw [hnumbers hb]
          exact ⟨hcopied.fd, hcopied.size, hcopied.written, hcopied.full, hcopied.out⟩
      refine hfirst.trans (ih hfirst.fd hfirst.opened ?_ ?_)
      · intro a ha
        apply hbs
        rw [hfirst.size, indirectBlocks_length] at ha
        by_cases hmore : 262144 < c.size
        · rw [show indirectsOf c.size = indirectsOf (c.size - 256 * 1024) + 1 by
            unfold indirectsOf; omega, List.take_succ_cons]
          exact List.mem_cons_of_mem b ha
        · rw [show indirectsOf (c.size - 256 * 1024) = 0 by unfold indirectsOf; omega,
            List.take_zero] at ha
          cases ha
      · rw [hfirst.size]
        exact hblocks.append.2

theorem readDouble_copied {b : Nat} {c : Copy} (junk : List UInt8) (hfd : c.fd.image = image)
    (hopen : Opened name c.out) (hb : HasBlock image b)
    (hbs : ∀ a ∈ (indirectBlocks image b).take (indirectsOf c.size), HasBytes image a 1024)
    (hblocks : HasData image ((indirectBlocks image b).flatMap (indirectBlocks image)) c.size) :
    Copied image name ((indirectBlocks image b).flatMap (indirectBlocks image)) c
      (copyDouble 1024 name (blockNumbers (c.fd.readAt (blockOffset 1024 b) junk 1024).1) junk
        { c with fd := (c.fd.readAt (blockOffset 1024 b) junk 1024).2 }) := by
  have hcopied := @copyDouble_copied image name (indirectBlocks image b) junk
    { c with fd := (c.fd.readAt (blockOffset 1024 b) junk 1024).2 }
    ((Fd.readAt_image c.fd _ junk _).trans hfd) hopen hbs hblocks
  rw [hb.readNumbers hfd junk]
  exact ⟨hcopied.fd, hcopied.size, hcopied.written, hcopied.full, hcopied.out⟩

/-- A copy follows the data blocks of the inode. -/
theorem copyFile_copied {inode buffer : List UInt8} {fd : Fd} {out : Output} (junk : List UInt8)
    (hfd : fd.image = image) (h : Readable image inode) :
    Copied image name (dataBlocks image inode)
      { buffer := buffer, size := iSize inode, written := 0, fd := fd, out := openFile name out }
      (copyFile junk 1024 name inode buffer fd out) := by
  have hdata : HasData image (dataBlocks image inode) (iSize inode) := h.data
  have hdirect := @copyBlocks_copied image name ((List.range 12).map (iBlock inode))
    { buffer := buffer, size := iSize inode, written := 0, fd := fd, out := openFile name out }
    hfd Opened.openFile hdata.append.1
  have hsize₁ := hdirect.size
  rw [List.length_map, List.length_range] at hsize₁
  have hrest₁ := hdata.append.2
  rw [List.length_map, List.length_range] at hrest₁
  unfold copyFile
  dsimp only
  generalize copyBlocks 1024 name ((List.range 12).map (iBlock inode)) _ = c₁ at hdirect hsize₁ ⊢
  by_cases h₁ : c₁.size = 0
  · rw [if_pos h₁]
    exact hdirect.trans (copied_ended hdirect.fd hdirect.opened h₁ _)
  rw [if_neg h₁]
  dsimp only at hsize₁
  rw [← hsize₁] at hrest₁
  have hindirect := copyIndirect_copied junk hdirect.fd hdirect.opened (h.indirect (by omega)).whole
    hrest₁.append.1
  have hsize₂ := hindirect.size
  rw [indirectBlocks_length] at hsize₂
  have hrest₂ := hrest₁.append.2
  rw [indirectBlocks_length] at hrest₂
  generalize copyIndirect junk 1024 name (iBlock inode 12) c₁ = c₂ at hindirect hsize₂ ⊢
  by_cases h₂ : c₂.size = 0
  · rw [if_pos h₂]
    exact hdirect.trans (hindirect.trans (copied_ended hindirect.fd hindirect.opened h₂ _))
  rw [if_neg h₂]
  rw [← hsize₂] at hrest₂
  obtain ⟨hdouble, hbs⟩ := h.double (by omega)
  have hleft : c₂.size = iSize inode - 268 * 1024 := by
    rw [hsize₂, hsize₁, Nat.sub_sub]
  rw [← hleft] at hbs
  exact hdirect.trans (hindirect.trans
    (readDouble_copied junk hindirect.fd hindirect.opened hdouble.whole hbs hrest₂))

/-- **The copy of a file** writes its content over the beginning of the output file. -/
theorem copyFile_content {inode buffer : List UInt8} {fd : Fd} {out : Output}
    (junk : List UInt8) (hfd : fd.image = image) (h : Readable image inode) :
    (copyFile junk 1024 name inode buffer fd out).fd.image = image ∧
      (copyFile junk 1024 name inode buffer fd out).out =
        writeFile name 0 (fileBytes image inode) (openFile name out) := by
  have hcopied := @copyFile_copied image name inode buffer fd out junk hfd h
  exact ⟨hcopied.fd, hcopied.out⟩

theorem dataBlocks_length (image inode : List UInt8) :
    (dataBlocks image inode).length = 12 + (256 + 256 * 256) := by
  have hsum : ∀ bs : List Nat, (bs.flatMap (indirectBlocks image)).length = bs.length * 256 := by
    intro bs
    induction bs with
    | nil => rfl
    | cons b bs ih =>
        rw [List.flatMap_cons, List.length_append, ih, indirectBlocks_length, List.length_cons,
          Nat.add_mul, Nat.add_comm, Nat.one_mul]
  rw [dataBlocks, List.length_append, List.length_append, hsum, List.length_map, List.length_range,
    indirectBlocks_length, indirectBlocks_length]

theorem Readable.length {inode : List UInt8} (h : Readable image inode) :
    (fileBytes image inode).length = iSize inode := by
  have hfull := (@copyFile_copied image [] inode [] ⟨image, 0⟩ (fun _ => none) [] rfl h).full
  have hsize := h.size
  rw [dataBlocks_length, Nat.min_eq_left hsize] at hfull
  rw [fileBytes, List.length_take, Nat.min_eq_left hfull]

/-- A file of one block. -/
theorem readable_of_small {image inode : List UInt8} (hsize : iSize inode ≤ 1024)
    (h : HasBytes image (iBlock inode 0) (iSize inode)) : Readable image inode where
  size := by omega
  data := by
    have hblocks : dataBlocks image inode = iBlock inode 0 :: (dataBlocks image inode).tail := rfl
    rw [hblocks]
    refine .inr ⟨by rwa [Nat.min_eq_left hsize], ?_⟩
    rw [Nat.sub_eq_zero_of_le hsize]
    exact .of_zero _
  indirect := fun hlong => absurd hlong (by omega)
  double := fun hlong => absurd hlong (by omega)

/-! ## The two copies -/

/-- An inode of a regular file that begins like a JPEG. Its first block is read whole. -/
structure JpegInode (image inode : List UInt8) : Prop where
  reg : sIsReg (iMode inode)
  first : blockOffset 1024 (iBlock inode 0) + 1024 ≤ image.length
  jpg : isJpg ((image.drop (blockOffset 1024 (iBlock inode 0))).take 1024)

theorem isJpg_append {block : List UInt8} (h : block.length = 1024) (rest : List UInt8) :
    isJpg (block ++ rest) = isJpg block := by
  have hbyte : ∀ i < 4, (block ++ rest).getD i 0 = block.getD i 0 := by
    intro i hi
    rw [List.getD_eq_getElem?_getD, List.getElem?_append_left (by omega),
      ← List.getD_eq_getElem?_getD]
  rw [isJpg, hbyte 0 (by decide), hbyte 1 (by decide), hbyte 2 (by decide), hbyte 3 (by decide),
    ← isJpg]

/-- Either loop finds the signature, whatever its buffer held before. -/
theorem JpegInode.read {inode : List UInt8} (h : JpegInode image inode) {fd : Fd}
    (hfd : fd.image = image) (buf : List UInt8) :
    isJpg (fd.readAt (blockOffset 1024 (iBlock inode 0)) buf 1024).1 := by
  obtain ⟨-, hfirst, hjpg⟩ := h
  subst hfd
  have hlen : ((fd.image.drop (blockOffset 1024 (iBlock inode 0))).take 1024).length = 1024 := by
    rw [List.length_take, List.length_drop]
    omega
  rw [Fd.readAt_nat fd buf hfirst, isJpg_append hlen]
  exact hjpg

theorem numberedName_eq (n : Nat) :
    numberedName n =
      [102, 105, 108, 101, 45] ++ (toString (s32 n)).toUTF8.toList ++ [46, 106, 112, 103] := by
  have hfile : "file-".toUTF8.toList = [102, 105, 108, 101, 45] := by
    rw [Bytes.toList_eq]
    rfl
  have hjpg : ".jpg".toUTF8.toList = [46, 106, 112, 103] := by
    rw [Bytes.toList_eq]
    rfl
  rw [numberedName, Bytes.utf8_append, Bytes.utf8_append, hfile, hjpg]

theorem numberedName_valid (n : Nat) : validName (numberedName n) := by
  have hslash : 47 ∉ (toString (s32 n)).toUTF8.toList := by
    intro hmem
    rcases Bytes.mem_intDigits hmem with hminus | hdigit
    · exact absurd hminus (by decide)
    · exact absurd hdigit.1 (by decide)
  rw [numberedName_eq]
  generalize (toString (s32 n)).toUTF8.toList = digits at hslash
  simp [validName, hslash]

/-- What is written to a new file is all it has. -/
theorem writeFile_new {content : List UInt8} {out : Output} (hvalid : validName name)
    (hnew : out name = none) :
    writeFile name 0 content (openFile name out) = Function.update out name (some content) := by
  rw [openFile, if_pos hvalid, writeFile, if_pos hvalid, Function.update_idem,
    Function.update_self, hnew, Option.getD_some, Option.getD_none, Bytes.overwrite,
    List.take_nil, List.drop_nil, List.nil_append, List.append_nil]

theorem scanRegular_copy {inode : List UInt8} (junk : List UInt8) {g : Globals} {number : Nat}
    {w : Work} (hg : g.blockSize = 1024) (hjpg : JpegInode image inode)
    (hread : Readable image inode) (hfd : w.fd.image = image) (hinode : w.inode = inode)
    (hnew : w.out (numberedName number) = none) :
    (scanRegular junk g number w).2.out =
      Function.update w.out (numberedName number) (some (fileBytes image inode)) := by
  subst hinode
  have hsignature := hjpg.read hfd w.buffer
  have himage :=
    (Fd.readAt_image w.fd (blockOffset 1024 (iBlock w.inode 0)) w.buffer 1024).trans hfd
  rw [scanRegular, hg]
  generalize w.fd.readAt (blockOffset 1024 (iBlock w.inode 0)) w.buffer 1024 = r
    at hsignature himage ⊢
  obtain ⟨buffer, fd⟩ := r
  dsimp only at hsignature himage ⊢
  rw [if_pos hsignature]
  dsimp only
  rw [(copyFile_content junk himage hread).2, writeFile_new (numberedName_valid number) hnew]

theorem scanEntry_copy {inode : List UInt8} (junk : List UInt8) {g : Globals} {t offset ino : Nat}
    {nameBuf : List UInt8} {w : Work} (hg : g.blockSize = 1024) (hjpg : JpegInode image inode)
    (hread : Readable image inode) (hfd : w.fd.image = image)
    (hinode : (readInode g t offset (s32 ino) w.inode w.fd).1 = inode)
    (hvalid : validName ((nameBuf ++ junk).takeWhile (· ≠ 0)))
    (hnew : w.out ((nameBuf ++ junk).takeWhile (· ≠ 0)) = none) :
    (scanEntry junk g t offset ino nameBuf w).out =
      Function.update w.out ((nameBuf ++ junk).takeWhile (· ≠ 0))
        (some (fileBytes image inode)) := by
  have himage : (readInode g t offset (s32 ino) w.inode w.fd).2.image = image :=
    (Fd.readAt_image _ _ _ _).trans hfd
  rw [scanEntry, hg]
  generalize readInode g t offset (s32 ino) w.inode w.fd = r at hinode himage ⊢
  obtain ⟨inode', fd⟩ := r
  dsimp only at hinode himage ⊢
  subst hinode
  have hsignature := hjpg.read himage junk
  have himage' := (Fd.readAt_image fd (blockOffset 1024 (iBlock inode' 0)) junk 1024).trans himage
  rw [if_pos hjpg.reg]
  generalize fd.readAt (blockOffset 1024 (iBlock inode' 0)) junk 1024 = r at hsignature himage' ⊢
  obtain ⟨bufferInode, fd'⟩ := r
  dsimp only at hsignature himage' ⊢
  rw [if_pos hsignature]
  dsimp only
  rw [(copyFile_content junk himage' hread).2, writeFile_new hvalid hnew]

/-- **Both copies are exact**: under its number and under a name a JPEG is written to a new
file as the first `i_size` bytes of its blocks, and nothing after them. -/
theorem copies_exact {inode nameBuf : List UInt8} (junk : List UInt8) {g : Globals}
    {number t offset ino : Nat} {w w' : Work} (hg : g.blockSize = 1024)
    (hjpg : JpegInode image inode) (hread : Readable image inode)
    (hfd : w.fd.image = image) (hinode : w.inode = inode)
    (hnew : w.out (numberedName number) = none)
    (hfd' : w'.fd.image = image)
    (hinode' : (readInode g t offset (s32 ino) w'.inode w'.fd).1 = inode)
    (hvalid : validName ((nameBuf ++ junk).takeWhile (· ≠ 0)))
    (hnew' : w'.out ((nameBuf ++ junk).takeWhile (· ≠ 0)) = none) :
    (fileBytes image inode).length = iSize inode ∧
      (scanRegular junk g number w).2.out =
        Function.update w.out (numberedName number) (some (fileBytes image inode)) ∧
      (scanEntry junk g t offset ino nameBuf w').out =
        Function.update w'.out ((nameBuf ++ junk).takeWhile (· ≠ 0))
          (some (fileBytes image inode)) :=
  ⟨hread.length, scanRegular_copy junk hg hjpg hread hfd hinode hnew,
    scanEntry_copy junk hg hjpg hread hfd' hinode' hvalid hnew'⟩

/-- The data block of a file of six bytes, and then its inode. -/
def sixBytes : List UInt8 :=
  List.replicate 1024 0 ++ [255, 216, 255, 224, 1, 2] ++ List.replicate 1018 0 ++
    [164, 129, 0, 0, 6, 0, 0, 0] ++ List.replicate 32 0 ++ [1] ++ List.replicate 87 0

/-- The inode of the file. -/
def sixBytesInode : List UInt8 := (sixBytes.drop 2048).take 128

/-- Both copies of the file. -/
theorem copies_exact_sixBytes :
    JpegInode sixBytes sixBytesInode ∧ Readable sixBytes sixBytesInode ∧
      fileBytes sixBytes sixBytesInode = [255, 216, 255, 224, 1, 2] ∧
      ∀ junk, (scanRegular junk ⟨1024, 8, 1, 8192, 1, 8⟩ 1
          ⟨⟨sixBytes, 0⟩, fun _ => none, sixBytesInode, []⟩).2.out =
        Function.update (fun _ => none) (numberedName 1)
          (some (fileBytes sixBytes sixBytesInode)) := by
  have hjpg : JpegInode sixBytes sixBytesInode :=
    ⟨by decide +kernel, by decide +kernel, by decide +kernel⟩
  have hread : Readable sixBytes sixBytesInode :=
    readable_of_small (by decide +kernel) (by decide +kernel)
  refine ⟨hjpg, hread, by decide +kernel, fun junk => ?_⟩
  have hinode : (readInode ⟨1024, 8, 1, 8192, 1, 8⟩ 0 2048 (s32 1) [] ⟨sixBytes, 0⟩).1 =
      sixBytesInode := by decide +kernel
  have hname : ([97, 0] ++ junk).takeWhile (· ≠ 0) = [97] := rfl
  have hcopies := @copies_exact sixBytes sixBytesInode [97, 0] junk ⟨1024, 8, 1, 8192, 1, 8⟩
    1 0 2048 1
    ⟨⟨sixBytes, 0⟩, fun _ => none, sixBytesInode, []⟩ ⟨⟨sixBytes, 0⟩, fun _ => none, [], []⟩
    (by rfl) hjpg hread (by rfl) (by dsimp only) (by dsimp only) (by dsimp only) hinode
    (by rw [hname]; decide) (by rfl)
  exact hcopies.2.1

end CS537.FileSystem
