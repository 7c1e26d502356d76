import Mathlib.Data.List.Basic
import CS537.FileSystem.Recovery

/-!
# FileSystem — the scan of a scannable image

On an image that `runscan` reads as it is, the loops of `main` recover the files of
the image one after the other (`main_out`).
-/

namespace CS537.FileSystem

open MachineInt

variable {image junk : List UInt8}

/-! ## Reading an inode -/

/-- An inode and what lies behind it in memory. -/
structure ReadAs (inode slot : List UInt8) : Prop where
  length : slot.length = 128
  extends_ : ∃ rest, inode = slot ++ rest

theorem ReadAs.field {inode slot : List UInt8} (h : ReadAs inode slot) {off size : Nat}
    (hle : off + size ≤ 128) : Bytes.field inode off size = Bytes.field slot off size := by
  obtain ⟨rest, rfl⟩ := h.extends_
  apply Bytes.field_append_left
  rw [h.length]
  exact hle

theorem ReadAs.iMode {inode slot : List UInt8} (h : ReadAs inode slot) :
    iMode inode = iMode slot := h.field (by decide)

theorem ReadAs.iSize {inode slot : List UInt8} (h : ReadAs inode slot) :
    iSize inode = iSize slot := h.field (by decide)

theorem ReadAs.iBlock {inode slot : List UInt8} (h : ReadAs inode slot) {b : Nat} (hb : b < 22) :
    iBlock inode b = iBlock slot b := h.field (by omega)

theorem ReadAs.dataBlocks {inode slot : List UInt8} (h : ReadAs inode slot) :
    dataBlocks image inode = dataBlocks image slot := by
  have hdirect : (List.range 12).map (FileSystem.iBlock inode) =
      (List.range 12).map (FileSystem.iBlock slot) := by
    apply List.map_congr_left
    intro b hb
    rw [List.mem_range] at hb
    exact h.iBlock (by omega)
  rw [FileSystem.dataBlocks, FileSystem.dataBlocks, hdirect, h.iBlock (by decide),
    h.iBlock (by decide)]

theorem ReadAs.fileBytes {inode slot : List UInt8} (h : ReadAs inode slot) :
    fileBytes image inode = fileBytes image slot := by
  rw [FileSystem.fileBytes, FileSystem.fileBytes, h.dataBlocks, h.iSize]

theorem ReadAs.readable {inode slot : List UInt8} (h : ReadAs inode slot)
    (hr : Readable image slot) : Readable image inode := by
  obtain ⟨hsize, hdata, hindirect, hdouble⟩ := hr
  constructor
  · rw [h.iSize]
    exact hsize
  · rw [h.dataBlocks, h.iSize]
    exact hdata
  · rw [h.iSize, h.iBlock (by decide)]
    exact hindirect
  · rw [h.iSize, h.iBlock (by decide)]
    exact hdouble

theorem slotAt_length (h : Scannable image) {n : Nat} (hn : n ≤ inodeCount image) :
    (slotAt image n).length = 128 := by
  obtain ⟨h1, -, hin⟩ := h.table
  rw [slotAt, List.length_take, List.length_drop]
  omega

/-- Where the inode table of the first group is taken to be. -/
def tableOffset (image : List UInt8) : Nat := inodeTable image 0 * 1024

theorem inodeOffset_eq (h : Scannable image) {n : Nat} (hn : n ≤ inodeCount image) :
    inodeOffset (globalsOf image) 0 (tableOffset image) (s32 n) =
      (inodeTable image 0 * 1024 + n * 128 - 128 : Nat) := by
  have hle := h.inodes
  have h1 := h.table.1
  have hs : s32 n = (n : Int) := by
    unfold s32 u32
    rw [Nat.mod_eq_of_lt (by omega), if_pos (by omega)]
  have hi : i32 ((n : Int) - 1) = (n : Int) - 1 := i32_of_mem (by omega) (by omega)
  have hzero : blockOffset 1024 (u32 (sBlocksPerGroup (superOf image) * 0)) = 0 := by
    rw [Nat.mul_zero]
    decide
  rw [inodeOffset, hs, hi]
  show ((blockOffset 1024 (u32 (sBlocksPerGroup (superOf image) * 0)) : Nat) : Int) + _ + _ = _
  rw [hzero, tableOffset, inodeBytes]
  omega

theorem readInode_slot (h : Scannable image) {n : Nat} (hn : n ≤ inodeCount image)
    (buf : List UInt8) {fd : Fd} (hfd : fd.image = image) :
    ReadAs (readInode (globalsOf image) 0 (tableOffset image) (s32 n) buf fd).1 (slotAt image n) ∧
      (readInode (globalsOf image) 0 (tableOffset image) (s32 n) buf fd).2.image = image := by
  obtain ⟨h1, -, hin⟩ := h.table
  subst hfd
  refine ⟨⟨slotAt_length h hn, buf.drop 128, ?_⟩, Fd.readAt_image _ _ _ _⟩
  rw [readInode, inodeOffset_eq h hn, inodeBytes, Fd.readAt_nat fd buf (by omega)]
  rfl

theorem globalsOf_blockSize : (globalsOf image).blockSize = 1024 := rfl

theorem firstBlock_length {n : Nat} (hb : HasBlock image (iBlock (slotAt image n) 0)) :
    (firstBlock image n).length = 1024 := hb.length

/-- The first block of a slot, read whole. -/
theorem read_firstBlock {n : Nat} (hb : HasBlock image (iBlock (slotAt image n) 0))
    {inode : List UInt8} (hinode : ReadAs inode (slotAt image n)) (buf : List UInt8) {fd : Fd}
    (hfd : fd.image = image) :
    (fd.readAt (blockOffset 1024 (iBlock inode 0)) buf 1024).1 =
      firstBlock image n ++ buf.drop 1024 := by
  rw [hinode.iBlock (by decide), hb.read hfd]
  rfl

/-! ## The two branches -/

/-- A file is recovered: the content of a slot written under a name. -/
def recover (image : List UInt8) (out : Output) (r : List UInt8 × Nat) : Output :=
  writeFile r.1 0 (fileBytes image (slotAt image r.2)) (openFile r.1 out)

/-- `w'` is `w` after the recovery of some files. -/
structure Scanned (image : List UInt8) (rs : List (List UInt8 × Nat)) (w w' : Work) : Prop where
  fd : w'.fd.image = image
  out : w'.out = rs.foldl (recover image) w.out

theorem scanRegular_scanned {n : Nat} {w : Work} (hfd : w.fd.image = image)
    (hinode : ReadAs w.inode (slotAt image n)) (hs : SoundSlot image n)
    (hreg : sIsReg (iMode (slotAt image n))) :
    Scanned image (slotRecoveries image n) w (scanRegular junk (globalsOf image) n w).2 := by
  have hread := read_firstBlock hs.first hinode w.buffer hfd
  have himage := Fd.readAt_image w.fd (blockOffset 1024 (iBlock w.inode 0)) w.buffer 1024
  rw [scanRegular, slotRecoveries, if_pos hreg, globalsOf_blockSize]
  generalize w.fd.readAt (blockOffset 1024 (iBlock w.inode 0)) w.buffer 1024 = r at hread himage ⊢
  obtain ⟨buffer, fd⟩ := r
  dsimp only at hread himage ⊢
  rw [hread, isJpg_append (firstBlock_length hs.first)]
  have hjpg : isJpgSlot image n = isJpg (firstBlock image n) := by
    rw [isJpgSlot, hreg, Bool.true_and]
  rw [hjpg]
  by_cases hj : isJpg (firstBlock image n)
  · rw [if_pos hj, if_pos hj]
    obtain ⟨hcopy, hout⟩ := @copyFile_content image (numberedName n) w.inode
      (firstBlock image n ++ w.buffer.drop 1024) fd w.out junk (himage.trans hfd)
      (hinode.readable (hs.jpg (hjpg.trans hj)))
    rw [hinode.fileBytes] at hout
    exact ⟨hcopy, hout⟩
  · rw [if_neg hj, if_neg hj]
    exact ⟨himage.trans hfd, rfl⟩

/-- The name in the buffer, as a string, is the name of the record. -/
def InBuffer (junk image block : List UInt8) (off : Nat) (nameBuf : List UInt8) : Prop :=
  isJpgSlot image (entryInode block off) →
    (nameBuf ++ junk).takeWhile (· ≠ 0) = entryName block off

theorem scanEntry_scanned (h : Scannable image) {block nameBuf : List UInt8} {off : Nat} {w : Work}
    (hfd : w.fd.image = image) (hs : SoundRecord image block off)
    (hname : InBuffer junk image block off nameBuf) :
    Scanned image (slotEntry image block off).toList w
        (scanEntry junk (globalsOf image) 0 (tableOffset image) (entryInode block off) nameBuf w) ∧
      (scanEntry junk (globalsOf image) 0 (tableOffset image) (entryInode block off) nameBuf
        w).buffer = w.buffer := by
  obtain ⟨hinode, himage⟩ := readInode_slot h hs.inode w.inode hfd
  have hfirst := hs.first
  have hsound := hs.jpg
  unfold InBuffer at hname
  rw [scanEntry, slotEntry, globalsOf_blockSize]
  generalize entryInode block off = n at hinode himage hfirst hsound hname ⊢
  generalize readInode (globalsOf image) 0 (tableOffset image) (s32 n) w.inode w.fd = r
    at hinode himage ⊢
  obtain ⟨inode, fd⟩ := r
  dsimp only at hinode himage ⊢
  rw [hinode.iMode]
  by_cases hreg : sIsReg (iMode (slotAt image n))
  · have hb := hfirst hreg
    have hread := read_firstBlock hb hinode junk himage
    have himage' := Fd.readAt_image fd (blockOffset 1024 (iBlock inode 0)) junk 1024
    have hjpg : isJpgSlot image n = isJpg (firstBlock image n) := by
      rw [isJpgSlot, hreg, Bool.true_and]
    rw [if_pos hreg]
    generalize fd.readAt (blockOffset 1024 (iBlock inode 0)) junk 1024 = r at hread himage' ⊢
    obtain ⟨bufferInode, fd'⟩ := r
    dsimp only at hread himage' ⊢
    rw [hread, isJpg_append (firstBlock_length hb), ← hjpg]
    by_cases hj : isJpgSlot image n
    · rw [if_pos hj, if_pos hj, hname hj]
      obtain ⟨hcopy, hout⟩ := @copyFile_content image (entryName block off) inode
        (firstBlock image n ++ junk.drop 1024) fd' w.out junk (himage'.trans himage)
        (hinode.readable (hsound hj).2)
      rw [hinode.fileBytes] at hout
      exact ⟨⟨hcopy, hout⟩, rfl⟩
    · rw [if_neg hj, if_neg hj]
      exact ⟨⟨himage'.trans himage, rfl⟩, rfl⟩
  · have hj : ¬ isJpgSlot image n := by
      rw [isJpgSlot, Bool.eq_false_iff.mpr hreg]
      exact Bool.false_ne_true
    rw [if_neg hreg, if_neg hj]
    exact ⟨⟨himage, rfl⟩, rfl⟩

/-! ## The directory loop -/

theorem dirBytes_inside {block : List UInt8} (hblock : block.length = 1024) {off n : Nat}
    (h : off + n ≤ 1024) (rest : List UInt8) :
    dirBytes junk (block ++ rest) off n = (block.drop off).take n := by
  rw [dirBytes, List.append_assoc, List.drop_append_of_le_length (by omega),
    List.take_append_of_le_length (by rw [List.length_drop]; omega)]

theorem takeWhile_name {name : List UInt8} (hclean : 0 ∉ name) (hshort : name.length < 255)
    (junk : List UInt8) :
    (Bytes.overwrite (List.replicate 255 0) 0 name ++ junk).takeWhile (· ≠ 0) = name := by
  obtain ⟨m, hm⟩ : ∃ m, 255 - name.length = m + 1 :=
    ⟨_, (Nat.succ_pred_eq_of_pos (by omega)).symm⟩
  have hall : ∀ c ∈ name, decide (c ≠ 0) = true := by
    intro c hc
    exact decide_eq_true fun hzero => hclean (hzero ▸ hc)
  rw [Bytes.overwrite, Nat.zero_add, List.take_zero, List.nil_append, List.drop_replicate, hm,
    List.replicate_succ, List.append_assoc, List.takeWhile_append_of_pos hall, List.cons_append,
    List.takeWhile_cons_of_neg (by simp), List.append_nil]

theorem recordsFrom_done {next : Nat → Nat} {k off : Nat} (h : 1024 ≤ off) :
    recordsFrom next k off = [] := by
  cases k with
  | zero => rfl
  | succ k => exact if_neg (by omega)

theorem scanEntries_done {g : Globals} {t offset k off : Nat} {nameBuf : List UInt8} {w : Work}
    (h : g.blockSize ≤ off) : scanEntries junk g t offset k off nameBuf w = w := by
  cases k with
  | zero => rfl
  | succ k => exact if_neg (by omega)

theorem entryRoom_aligned (nameLen : Nat) : entryRoom nameLen % 4 = 0 ∧ 8 ≤ entryRoom nameLen := by
  unfold entryRoom
  split
  · omega
  · omega

theorem next_eq (off nameLen : Nat) :
    (if nameLen % 4 ≠ 0 then off + 8 + nameLen + 4 - nameLen % 4 else off + 8 + nameLen) =
      off + entryRoom nameLen := by
  unfold entryRoom
  split
  · omega
  · omega

theorem Scanned.append {rs rs' : List (List UInt8 × Nat)} {w w₁ w₂ : Work}
    (h : Scanned image rs w w₁) (h' : Scanned image rs' w₁ w₂) :
    Scanned image (rs ++ rs') w w₂ := by
  refine ⟨h'.fd, ?_⟩
  rw [h'.out, h.out, List.foldl_append]

theorem filterMap_cons_toList {α β : Type} (f : α → Option β) (a : α) (as : List α) :
    (a :: as).filterMap f = (f a).toList ++ as.filterMap f := by
  rw [List.filterMap_cons]
  cases f a with
  | none => rfl
  | some b => rfl

/-- The loop over the records, one step for each packed record. -/
theorem scanEntries_scanned (h : Scannable image) {block rest : List UInt8}
    (hblock : block.length = 1024) {k off : Nat} {nameBuf : List UInt8} {w : Work}
    (hfd : w.fd.image = image) (hbuffer : w.buffer = block ++ rest) (hoff : off % 4 = 0)
    (hzero : 0 < off → nameBuf = List.replicate 255 0)
    (hs : ∀ o ∈ recordsFrom (fun off => entryRoom (entryNameLen block off)) k off,
      SoundRecord image block o) :
    Scanned image
      ((recordsFrom (fun off => entryRoom (entryNameLen block off)) k off).filterMap
        (slotEntry image block)) w
      (scanEntries junk (globalsOf image) 0 (tableOffset image) k off nameBuf w) := by
  induction k generalizing off nameBuf w with
  | zero => exact ⟨hfd, rfl⟩
  | succ k ih =>
      by_cases hin : off < 1024
      · rw [recordsFrom, if_pos hin] at hs ⊢
        have hrecord := hs off List.mem_cons_self
        rw [scanEntries, globalsOf_blockSize, if_pos hin, hbuffer]
        have hino : Bytes.ofLe (dirBytes junk (block ++ rest) off 4) = entryInode block off := by
          rw [dirBytes_inside hblock (by omega)]
          rfl
        dsimp only
        rw [hino, next_eq]
        generalize hlen : Bytes.ofLe (dirBytes junk (block ++ rest) (off + 6) 1) = nameLen
        -- only in the last four bytes of the block `name_len` lies outside
        have hinside (hle : off ≤ 1016) : nameLen = entryNameLen block off := by
          rw [← hlen, dirBytes_inside hblock (by omega)]
          rfl
        have hname : InBuffer junk image block off (Bytes.overwrite nameBuf 0
            (dirBytes junk (block ++ rest) (off + 8) nameLen)) := by
          intro hj
          obtain ⟨hlater, hin', hshort, -, hclean⟩ := (hrecord.jpg hj).1
          have hbytes : dirBytes junk (block ++ rest) (off + 8) (entryNameLen block off) =
              entryName block off := dirBytes_inside hblock hin' rest
          have hle : (entryName block off).length < 255 :=
            Nat.lt_of_le_of_lt (List.length_take_le _ _) hshort
          rw [hzero hlater, hinside (by omega), hbytes]
          exact takeWhile_name hclean hle junk
        obtain ⟨hfirst, hsame⟩ := scanEntry_scanned h hfd hrecord hname
        rw [filterMap_cons_toList]
        generalize scanEntry junk (globalsOf image) 0 (tableOffset image) (entryInode block off) _ w
          = w₁ at hfirst hsame ⊢
        refine hfirst.append ?_
        by_cases hle : off ≤ 1016
        · rw [hinside hle]
          have halign := entryRoom_aligned (entryNameLen block off)
          refine ih hfirst.fd (hsame.trans hbuffer) (by omega) (fun _ => rfl) fun o ho => ?_
          exact hs o (List.mem_cons_of_mem off ho)
        · have hroom := entryRoom_aligned nameLen
          have hroom' := entryRoom_aligned (entryNameLen block off)
          rw [recordsFrom_done (by omega),
            scanEntries_done (by rw [globalsOf_blockSize]; omega)]
          exact ⟨hfirst.fd, rfl⟩
      · rw [recordsFrom_done (by omega), scanEntries_done (by rw [globalsOf_blockSize]; omega)]
        exact ⟨hfd, rfl⟩

theorem scanDirectory_scanned (h : Scannable image) {n : Nat} {w : Work}
    (hfd : w.fd.image = image) (hinode : ReadAs w.inode (slotAt image n))
    (hs : SoundSlot image n) (hreg : ¬ sIsReg (iMode (slotAt image n))) :
    Scanned image (slotRecoveries image n) w
      (scanDirectory junk (globalsOf image) 0 (tableOffset image) w) := by
  have hread := read_firstBlock hs.first hinode w.buffer hfd
  have himage := Fd.readAt_image w.fd (blockOffset 1024 (iBlock w.inode 0)) w.buffer 1024
  rw [scanDirectory, slotRecoveries, if_neg hreg, globalsOf_blockSize]
  generalize w.fd.readAt (blockOffset 1024 (iBlock w.inode 0)) w.buffer 1024 = r at hread himage ⊢
  obtain ⟨buffer, fd⟩ := r
  dsimp only at hread himage ⊢
  have hloop := @scanEntries_scanned image junk h (firstBlock image n) (w.buffer.drop 1024)
    (firstBlock_length hs.first) 128 0 (junk.take 255) { w with fd := fd, buffer := buffer }
    (himage.trans hfd) hread rfl (fun hlt => absurd hlt (Nat.lt_irrefl 0)) (hs.records hreg)
  exact ⟨hloop.fd, hloop.out⟩

theorem scanInode_scanned (h : Scannable image) {n : Nat} (hn : n < inodeCount image) {w : Work}
    (hfd : w.fd.image = image) :
    Scanned image (slotRecoveries image n) w
      (scanInode junk (globalsOf image) 0 (tableOffset image) n w).2 := by
  have hs := h.slots n hn
  obtain ⟨hinode, himage⟩ := readInode_slot h (Nat.le_of_lt hn) w.inode hfd
  rw [scanInode]
  generalize readInode (globalsOf image) 0 (tableOffset image) (s32 n) w.inode w.fd = r
    at hinode himage ⊢
  obtain ⟨inode, fd⟩ := r
  dsimp only at hinode himage ⊢
  rw [hinode.iMode]
  by_cases hreg : sIsReg (iMode (slotAt image n))
  · rw [if_pos hreg]
    have hregular := @scanRegular_scanned image junk n { w with fd := fd, inode := inode }
      himage hinode hs hreg
    exact ⟨hregular.fd, hregular.out⟩
  · rw [if_neg hreg]
    have hdirectory := @scanDirectory_scanned image junk h n { w with fd := fd, inode := inode }
      himage hinode hs hreg
    exact ⟨hdirectory.fd, hdirectory.out⟩

/-! ## The loops of `main` -/

theorem scanInodes_scanned (h : Scannable image) {numbers : List Nat}
    (hn : ∀ n ∈ numbers, n < inodeCount image) {w : Work} (hfd : w.fd.image = image) :
    Scanned image (numbers.flatMap (slotRecoveries image)) w
      (scanInodes junk (globalsOf image) 0 (tableOffset image) numbers w).2 := by
  induction numbers generalizing w with
  | nil => exact ⟨hfd, rfl⟩
  | cons n numbers ih =>
      have hfirst := @scanInode_scanned image junk h n (hn n List.mem_cons_self) w hfd
      have hrest := ih (fun m hm => hn m (List.mem_cons_of_mem n hm)) hfirst.fd
      exact hfirst.append hrest

theorem scanTable_out (h : Scannable image) {is : List Nat}
    (hn : ∀ n ∈ is.flatMap (blockInodes (globalsOf image)), n < inodeCount image) {fd : Fd}
    {out : Output} (hfd : fd.image = image) :
    (scanTable junk (globalsOf image) 0 (tableOffset image) is fd out).2.2 =
      ((is.flatMap (blockInodes (globalsOf image))).flatMap (slotRecoveries image)).foldl
        (recover image) out := by
  induction is generalizing fd out with
  | nil => rfl
  | cons i is ih =>
      rw [List.flatMap_cons] at hn ⊢
      have hblock := @scanInodes_scanned image junk h (blockInodes (globalsOf image) i)
        (fun n hmem => hn n (List.mem_append_left _ hmem))
        { fd := fd, out := out, inode := junk, buffer := junk } hfd
      have hrest := @ih (fun n hmem => hn n (List.mem_append_right _ hmem)) _
        (scanInodes junk (globalsOf image) 0 (tableOffset image) (blockInodes (globalsOf image) i)
          { fd := fd, out := out, inode := junk, buffer := junk }).2.out hblock.fd
      rw [List.flatMap_append, List.foldl_append, ← hblock.out, ← hrest]
      rfl

theorem readSuperBlock_image {g g' : Globals} {t : Nat} {super super' : List UInt8} {fd fd' : Fd}
    (h : readSuperBlock g t super fd = .ok (g', super', fd')) : fd'.image = fd.image := by
  rw [readSuperBlock] at h
  by_cases hcopy : hasSuperCopy (s32 t)
  · rw [if_pos hcopy] at h
    dsimp only at h
    split at h
    · cases h
    · split at h
      · cases h
      · cases h
        exact Fd.readAt_image _ _ _ _
  · rw [if_neg hcopy] at h
    cases h
    rfl

/-- The descriptor of the first group gives the inode table. -/
theorem readGroupDesc_table (h : Scannable image) (group : List UInt8) {fd : Fd}
    (hfd : fd.image = image) :
    locateInodeTable (globalsOf image) 0 (readGroupDesc (globalsOf image) 0 group fd).1 =
        tableOffset image ∧
      (readGroupDesc (globalsOf image) 0 group fd).2.image = image := by
  obtain ⟨h1, htable, hin⟩ := h.table
  have hzero : u32 (sBlocksPerGroup (superOf image) * 0) = 0 := by
    rw [Nat.mul_zero]
    rfl
  have hplace : u32 (baseOffset + blockOffset 1024 0 + 1024) = 2048 := by decide
  have hmain : readGroupDesc (globalsOf image) 0 group fd = fd.readAt (2048 : Nat) group 32 := by
    rw [readGroupDesc, if_neg fun hc => hc.1 (by decide)]
    show fd.readAt (u32 (baseOffset + blockOffset 1024 (u32 (sBlocksPerGroup (superOf image) * 0))
      + 1024) : Nat) group 32 = _
    rw [hzero, hplace]
  have hread := @Fd.readAt_nat fd 2048 32 group (by rw [hfd]; omega)
  rw [hfd] at hread
  have hdesc : ((image.drop 2048).take 32).length = 32 := by
    rw [List.length_take, List.length_drop]
    omega
  have hfield : bgInodeTable (((image.drop 2048).take 32) ++ group.drop 32) = inodeTable image 0 :=
    Bytes.field_append_left (by rw [hdesc]; decide)
  rw [hmain]
  refine ⟨?_, (Fd.readAt_image _ _ _ _).trans hfd⟩
  rw [hread, locateInodeTable, hfield]
  show blockOffset 1024 (u32 (inodeTable image 0 + u32 (sBlocksPerGroup (superOf image) * 0))) = _
  rw [hzero, Nat.add_zero, u32_of_lt (by omega), blockOffset_eq htable]
  rfl

theorem scanned_numGroups (h : Scannable image) : (globalsOf image).numGroups = 1 := by
  obtain ⟨h2, hle, hlt⟩ := h.group
  have hwrap : u32 (4294967295 + sBlocksCount (superOf image) + sBlocksPerGroup (superOf image)) =
      sBlocksCount (superOf image) - 1 + sBlocksPerGroup (superOf image) := by
    unfold u32
    omega
  show u32 (4294967295 + sBlocksCount (superOf image) + sBlocksPerGroup (superOf image))
    / sBlocksPerGroup (superOf image) = 1
  rw [hwrap]
  apply Nat.div_eq_of_lt_le
  · omega
  · omega

/-- The scan leaves what recovering one file after the other leaves. -/
theorem main_out (h : Scannable image) :
    (main junk image).2 = (recoveries image).foldl (recover image) fun _ => none := by
  obtain ⟨fd, hinit, himage⟩ := @ext2ReadInit_ok junk image h.ext2
  obtain ⟨super, fd', hsuper⟩ := readSuperBlock_zero h.ext2 junk himage
  have himage' := (readSuperBlock_image hsuper).trans himage
  obtain ⟨htable, himage''⟩ := readGroupDesc_table h junk himage'
  have hnumbers : (List.range (globalsOf image).itableBlocks).flatMap (blockInodes (globalsOf image))
      = List.range (inodeCount image) := by
    have hmod := h.ext2.inodes.2
    have hle := h.inodes
    have hmul : 8 * (inodeCount image / 8) = inodeCount image := by omega
    rw [blockInodes_range rfl (by show 8 * (inodeCount image / 8) ≤ _; omega)]
    exact congrArg List.range hmul
  have hscan := @scanTable_out image junk h (List.range (globalsOf image).itableBlocks)
    (by rw [hnumbers]; exact fun n hn => List.mem_range.mp hn) _ (fun _ => none) himage''
  rw [hnumbers, recoveries_eq h] at hscan
  rw [main, hinit]
  show (scanGroups junk (List.range (globalsOf image).numGroups) (globalsOf image) junk junk fd _).2
    = _
  rw [scanned_numGroups h, List.range_one, scanGroups, hsuper]
  show (scanTable junk (globalsOf image) 0 (locateInodeTable (globalsOf image) 0
    (readGroupDesc (globalsOf image) 0 junk fd').1) _ _ _).2.2 = _
  rw [htable]
  exact hscan

end CS537.FileSystem
