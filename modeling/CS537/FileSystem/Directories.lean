import CS537.Lib.Strides
import Mathlib.Data.List.TakeWhile
import CS537.FileSystem.Scanned

/-!
# FileSystem — the directory loop

`runscan` walks a directory block by the rounded name lengths and not by `rec_len`, to
find deleted entries too. Its `memcpy`s stay in their buffers exactly if every record
that the walk comes to does, and the walk comes to every live entry exactly if it tiles
the leftover bytes of every record before the last one.
-/

namespace CS537.FileSystem

open MachineInt Strides

/-! ## The rounds of the loop -/

/-- The state at the head of the loop: `offset`, the array `name`, and what the round
works on. -/
structure DirState where
  off : Nat
  name : List UInt8
  work : Work

/-- `entryPointer->inode`. -/
def DirState.ino (junk : List UInt8) (s : DirState) : Nat :=
  Bytes.ofLe (dirBytes junk s.work.buffer s.off 4)

/-- `entryPointer->name_len`. -/
def DirState.nameLen (junk : List UInt8) (s : DirState) : Nat :=
  Bytes.ofLe (dirBytes junk s.work.buffer (s.off + 6) 1)

/-- The bytes that are copied to `name`. -/
def DirState.entryBytes (junk : List UInt8) (s : DirState) : List UInt8 :=
  dirBytes junk s.work.buffer (s.off + 8) (s.nameLen junk)

/-- `name` after the `memcpy`. -/
def DirState.nameCopied (junk : List UInt8) (s : DirState) : List UInt8 :=
  Bytes.overwrite s.name 0 (s.entryBytes junk)

/-- One round. -/
def DirState.next (junk : List UInt8) (g : Globals) (t offset : Nat) (s : DirState) : DirState where
  off := if s.nameLen junk % 4 ≠ 0 then s.off + 8 + s.nameLen junk + 4 - s.nameLen junk % 4
    else s.off + 8 + s.nameLen junk
  name := List.replicate 255 0
  work := scanEntry junk g t offset (s.ino junk) (s.nameCopied junk) s.work

/-- The loop with its rounds, if it ends within some number of them. -/
def dirRun (junk : List UInt8) (g : Globals) (t offset : Nat) :
    Nat → DirState → Option (List DirState × Work)
  | 0, s => if s.off < g.blockSize then none else some ([], s.work)
  | k + 1, s =>
      if s.off < g.blockSize then
        (dirRun junk g t offset k (s.next junk g t offset)).map fun r => (s :: r.1, r.2)
      else some ([], s.work)

/-- The round finds a JPEG, and formats `name` into the path of its output file. -/
def DirState.formats (junk : List UInt8) (g : Globals) (t offset : Nat) (s : DirState) : Bool :=
  let (inode, fd) := readInode g t offset (s32 (s.ino junk)) s.work.inode s.work.fd
  sIsReg (iMode inode) && isJpg (fd.readAt (blockOffset g.blockSize (iBlock inode 0)) junk 1024).1

/-- The `memcpy`s of the round: from where in `buffer`, and how many bytes. -/
def DirState.memcpys (junk : List UInt8) (s : DirState) : List (Nat × Nat) :=
  [(s.off, 4), (s.off + 4, 2), (s.off + 6, 1), (s.off + 8, s.nameLen junk)]

/-- The string in an array, if it ends there. -/
def stringIn (array : List UInt8) : Option (List UInt8) :=
  if 0 ∈ array then some (array.takeWhile (· ≠ 0)) else none

/-- The round reads inside `buffer` and writes inside `name`, and what it formats is the
name of the entry. -/
structure DirState.StaysInside (junk : List UInt8) (g : Globals) (t offset : Nat)
    (s : DirState) : Prop where
  reads : ∀ c ∈ s.memcpys junk, ∀ i < c.2, c.1 + i < 1024
  writes : s.nameLen junk ≤ 255
  string : s.formats junk g t offset → stringIn (s.nameCopied junk) = some (s.entryBytes junk)

/-- The loop ends, after rounds that stay inside. -/
def ScanStaysInside (junk : List UInt8) (g : Globals) (t offset : Nat) (name : List UInt8)
    (w : Work) : Prop :=
  ∃ states w', dirRun junk g t offset (g.blockSize / 8) ⟨0, name, w⟩ = some (states, w') ∧
    ∀ s ∈ states, s.StaysInside junk g t offset

/-- The name of the record at an offset is a string that ends in the array `name`: right
behind it is what the array held before, which is zeros from the second round on. -/
structure NameEnds (block name : List UInt8) (off : Nat) : Prop where
  short : entryNameLen block off < 255
  clean : 0 ∉ entryName block off
  first : off = 0 → name.getD (entryNameLen block off) 1 = 0

/-- Every record on the walk lies in the block, and the names of JPEGs end. -/
structure ScanFits (junk : List UInt8) (g : Globals) (t offset : Nat) (block name : List UInt8)
    (w : Work) : Prop where
  records : ∀ off ∈ packedRecords block, off + 8 + entryNameLen block off ≤ 1024
  names : ∀ states w', dirRun junk g t offset (g.blockSize / 8) ⟨0, name, w⟩ = some (states, w') →
    ∀ s ∈ states, s.formats junk g t offset → NameEnds block name s.off

variable {junk : List UInt8} {g : Globals} {t offset : Nat}

/-! ## The rounds and the records -/

/-- The rounds are those of the loop. -/
theorem scanEntries_eq {k : Nat} {s : DirState} {states : List DirState} {w' : Work}
    (h : dirRun junk g t offset k s = some (states, w')) :
    scanEntries junk g t offset k s.off s.name s.work = w' := by
  induction k generalizing s states with
  | zero =>
      rw [dirRun] at h
      split at h
      · cases h
      · cases h
        rfl
  | succ k ih =>
      rw [dirRun] at h
      by_cases hlt : s.off < g.blockSize
      · rw [if_pos hlt, Option.map_eq_some_iff] at h
        obtain ⟨r, hr, heq⟩ := h
        obtain ⟨-, rfl⟩ := Prod.mk.inj heq
        have hrest := @ih (s.next junk g t offset) r.1 hr
        rw [scanEntries, if_pos hlt]
        exact hrest
      · rw [if_neg hlt] at h
        cases h
        exact scanEntries_done (Nat.le_of_not_lt hlt)

theorem scanEntry_buffer (ino : Nat) (nameBuf : List UInt8) (w : Work) :
    (scanEntry junk g t offset ino nameBuf w).buffer = w.buffer := by
  rw [scanEntry]
  dsimp only
  split
  · split
    · rfl
    · rfl
  · rfl

/-- What the rounds keep: the alignment, the block, and what `name` holds. -/
structure InLoop (block rest name : List UInt8) (s : DirState) : Prop where
  aligned : s.off % 4 = 0
  buffer : s.work.buffer = block ++ rest
  first : s.off = 0 → s.name = name
  later : 0 < s.off → s.name = List.replicate 255 0

variable {block rest name : List UInt8}

theorem InLoop.ino {s : DirState} (h : InLoop block rest name s) (hblock : block.length = 1024)
    (hlt : s.off < 1024) : s.ino junk = entryInode block s.off := by
  have haligned := h.aligned
  rw [DirState.ino, h.buffer, dirBytes_inside hblock (by omega)]
  rfl

theorem InLoop.nameLen {s : DirState} (h : InLoop block rest name s) (hblock : block.length = 1024)
    (hle : s.off ≤ 1016) : s.nameLen junk = entryNameLen block s.off := by
  rw [DirState.nameLen, h.buffer, dirBytes_inside hblock (by omega)]
  rfl

theorem InLoop.entryBytes {s : DirState} (h : InLoop block rest name s)
    (hblock : block.length = 1024) (hle : s.off + 8 + entryNameLen block s.off ≤ 1024) :
    s.entryBytes junk = entryName block s.off := by
  rw [DirState.entryBytes, h.nameLen hblock (by omega), h.buffer, dirBytes_inside hblock hle]
  rfl

theorem InLoop.next {s : DirState} (h : InLoop block rest name s) :
    InLoop block rest name (s.next junk g t offset) := by
  have haligned := h.aligned
  have hroom := entryRoom_aligned (s.nameLen junk)
  have hoff : (s.next junk g t offset).off = s.off + entryRoom (s.nameLen junk) := next_eq _ _
  refine ⟨?_, ?_, fun hzero => ?_, fun _ => rfl⟩
  · rw [hoff]
    omega
  · exact (scanEntry_buffer _ _ _).trans h.buffer
  · rw [hoff] at hzero
    omega

/-- The loop ends, and its rounds are at the records that lie one right after the other. -/
theorem dirRun_records (hg : g.blockSize = 1024) (hblock : block.length = 1024) {k : Nat}
    {s : DirState} (hs : InLoop block rest name s) (hk : 1024 ≤ s.off + 8 * k) :
    ∃ states w', dirRun junk g t offset k s = some (states, w') ∧
      states.map DirState.off = recordsFrom (fun off => entryRoom (entryNameLen block off)) k s.off ∧
      ∀ s' ∈ states, InLoop block rest name s' := by
  induction k generalizing s with
  | zero =>
      refine ⟨[], s.work, ?_, rfl, fun _ h => absurd h List.not_mem_nil⟩
      rw [dirRun, if_neg (by omega)]
  | succ k ih =>
      rw [dirRun, recordsFrom, hg]
      by_cases hlt : s.off < 1024
      · have hroom := entryRoom_aligned (s.nameLen junk)
        have hoff : (s.next junk g t offset).off = s.off + entryRoom (s.nameLen junk) := next_eq _ _
        obtain ⟨states, w', hrun, hmap, hall⟩ :=
          @ih (s.next junk g t offset) hs.next (by omega)
        rw [if_pos hlt, if_pos hlt, hrun]
        refine ⟨s :: states, w', rfl, ?_, ?_⟩
        · rw [List.map_cons, hmap, hoff]
          by_cases hle : s.off ≤ 1016
          · rw [hs.nameLen hblock hle]
          · -- the last four bytes of the block: either walk ends
            have hroom' := entryRoom_aligned (entryNameLen block s.off)
            have haligned := hs.aligned
            rw [recordsFrom_done (by omega), recordsFrom_done (by omega)]
        · intro s' hs'
          rcases List.mem_cons.mp hs' with rfl | hs'
          · exact hs
          · exact hall s' hs'
      · rw [if_neg hlt, if_neg hlt]
        exact ⟨[], s.work, rfl, rfl, fun _ h => absurd h List.not_mem_nil⟩

/-! ## Staying inside the buffers -/

/-- A string written over an array ends right behind its bytes if the array has a zero
there. -/
theorem stringIn_overwrite {array bytes : List UInt8} :
    stringIn (Bytes.overwrite array 0 bytes) = some bytes ↔
      0 ∉ bytes ∧ bytes.length < array.length ∧ array.getD bytes.length 1 = 0 := by
  have hover : Bytes.overwrite array 0 bytes = bytes ++ array.drop bytes.length := by
    rw [Bytes.overwrite, Nat.zero_add, List.take_zero, List.nil_append]
  have hclean (h : 0 ∉ bytes) : ∀ b ∈ bytes, decide (b ≠ 0) = true :=
    fun b hb => decide_eq_true fun hzero => h (hzero ▸ hb)
  rw [hover, stringIn]
  constructor
  · intro h
    split at h
    · rename_i hmem
      have htake := Option.some.inj h
      have hnul : 0 ∉ bytes := by
        intro hzero
        rw [← htake] at hzero
        simpa using List.mem_takeWhile_imp hzero
      rw [List.takeWhile_append_of_pos (hclean hnul)] at htake
      have hrest := List.append_right_eq_self.mp htake
      have hdrop : 0 ∈ array.drop bytes.length :=
        (List.mem_append.mp hmem).resolve_left hnul
      have hlt : bytes.length < array.length := by
        have := List.length_pos_of_mem hdrop
        rw [List.length_drop] at this
        omega
      rw [List.drop_eq_getElem_cons hlt] at hrest
      refine ⟨hnul, hlt, ?_⟩
      rw [List.getD_eq_getElem _ _ hlt]
      by_contra hne
      rw [List.takeWhile_cons_of_pos (by simpa using hne)] at hrest
      cases hrest
    · cases h
  · intro h
    obtain ⟨hnul, hlt, hzero⟩ := h
    rw [List.getD_eq_getElem _ _ hlt] at hzero
    have hdrop := List.drop_eq_getElem_cons hlt
    rw [hzero] at hdrop
    rw [hdrop, if_pos (List.mem_append_right bytes List.mem_cons_self),
      List.takeWhile_append_of_pos (hclean hnul), List.takeWhile_cons_of_neg (by simp),
      List.append_nil]

theorem entryNameLen_lt (block : List UInt8) (off : Nat) : entryNameLen block off < 256 :=
  Bytes.field_lt block (off + 6) 1

theorem InLoop.nameEnds_iff {s : DirState} (h : InLoop block rest name s)
    (hname : name.length = 255) (hlen : (entryName block s.off).length = entryNameLen block s.off) :
    stringIn (Bytes.overwrite s.name 0 (entryName block s.off)) = some (entryName block s.off) ↔
      NameEnds block name s.off := by
  rw [stringIn_overwrite, hlen]
  by_cases hoff : s.off = 0
  · rw [h.first hoff, hname]
    constructor
    · intro hends
      refine ⟨hends.2.1, hends.1, fun _ => hends.2.2⟩
    · intro hends
      exact ⟨hends.clean, hends.short, hends.first hoff⟩
  · rw [h.later (Nat.pos_of_ne_zero hoff), List.length_replicate]
    constructor
    · intro hends
      exact ⟨hends.2.1, hends.1, fun hzero => absurd hzero hoff⟩
    · intro hends
      refine ⟨hends.clean, hends.short, ?_⟩
      rw [List.getD_eq_getElem _ _ (by rw [List.length_replicate]; exact hends.short),
        List.getElem_replicate]

/-- What one round needs to stay inside. -/
theorem staysInside_iff (hblock : block.length = 1024) (hname : name.length = 255)
    {s : DirState} (hs : InLoop block rest name s) (hlt : s.off < 1024) :
    s.StaysInside junk g t offset ↔
      s.off + 8 + entryNameLen block s.off ≤ 1024 ∧
        (s.formats junk g t offset → NameEnds block name s.off) := by
  have haligned := hs.aligned
  have hbytes (hle : s.off + 8 + entryNameLen block s.off ≤ 1024) :
      s.nameCopied junk = Bytes.overwrite s.name 0 (entryName block s.off) ∧
        (entryName block s.off).length = entryNameLen block s.off := by
    rw [DirState.nameCopied, hs.entryBytes hblock hle, entryName, List.length_take,
      List.length_drop, hblock]
    exact ⟨rfl, Nat.min_eq_left (by omega)⟩
  constructor
  · intro h
    -- `rec_len` is read inside the block
    have hrec := h.reads (s.off + 4, 2) (by simp [DirState.memcpys]) 1 Nat.one_lt_two
    have hle : s.off ≤ 1016 := by omega
    have hread := h.reads (s.off + 8, s.nameLen junk) (by simp [DirState.memcpys])
    rw [hs.nameLen hblock hle] at hread
    have hin : s.off + 8 + entryNameLen block s.off ≤ 1024 := by
      by_cases hzero : entryNameLen block s.off = 0
      · omega
      · have := hread (entryNameLen block s.off - 1) (by dsimp only; omega)
        dsimp only at this
        omega
    obtain ⟨hcopied, hlen⟩ := hbytes hin
    refine ⟨hin, fun hf => ?_⟩
    have hstring := h.string hf
    rw [hcopied, hs.entryBytes hblock hin] at hstring
    exact (hs.nameEnds_iff hname hlen).mp hstring
  · intro h
    obtain ⟨hin, hends⟩ := h
    obtain ⟨hcopied, hlen⟩ := hbytes hin
    have hle := entryNameLen_lt block s.off
    refine ⟨?_, ?_, fun hf => ?_⟩
    · intro c hc i hi
      rw [DirState.memcpys, hs.nameLen hblock (by omega)] at hc
      simp only [List.mem_cons, List.not_mem_nil, or_false] at hc
      rcases hc with rfl | rfl | rfl | rfl
      · dsimp only at hi ⊢
        omega
      · dsimp only at hi ⊢
        omega
      · dsimp only at hi ⊢
        omega
      · dsimp only at hi ⊢
        omega
    · rw [hs.nameLen hblock (by omega)]
      omega
    · rw [hcopied, hs.entryBytes hblock hin]
      exact (hs.nameEnds_iff hname hlen).mpr (hends hf)

theorem inLoop_first {w : Work} (hw : w.buffer = block ++ rest) :
    InLoop block rest name ⟨0, name, w⟩ :=
  ⟨rfl, hw, fun _ => rfl, fun h => absurd h (Nat.lt_irrefl 0)⟩

/-- The rounds of the whole loop. -/
theorem dirRun_packed (junk : List UInt8) (t offset : Nat) (hg : g.blockSize = 1024)
    (hblock : block.length = 1024) {w : Work} (hw : w.buffer = block ++ rest) :
    ∃ states w', dirRun junk g t offset (g.blockSize / 8) ⟨0, name, w⟩ = some (states, w') ∧
      states.map DirState.off = packedRecords block ∧
      ∀ s ∈ states, InLoop block rest name s := by
  have hfuel : g.blockSize / 8 = 128 := by rw [hg]
  rw [hfuel]
  exact dirRun_records hg hblock (inLoop_first hw) (Nat.le_refl 1024)

/-- A loop that stays inside comes to records in the block only. -/
theorem ScanStaysInside.records {w : Work} (h : ScanStaysInside junk g t offset name w)
    (hg : g.blockSize = 1024) (hblock : block.length = 1024) (hname : name.length = 255)
    (hw : w.buffer = block ++ rest) :
    ∀ off ∈ packedRecords block, off + 8 + entryNameLen block off ≤ 1024 := by
  obtain ⟨states, w', hrun, hmap, hall⟩ :=
    @dirRun_packed g block rest name junk t offset hg hblock w hw
  obtain ⟨states', w'', hrun', hinside⟩ := h
  rw [hrun] at hrun'
  cases hrun'
  intro off hoff
  have hlt := recordsFrom_lt hoff
  rw [← hmap] at hoff
  obtain ⟨s, hs, rfl⟩ := List.mem_map.mp hoff
  exact ((staysInside_iff hblock hname (hall s hs) hlt).mp (hinside s hs)).1

/-- **The directory loop stays in its buffers** exactly if the records it comes to lie in
the block, and the names it formats end in the array. -/
theorem scan_staysInside_iff (hg : g.blockSize = 1024) (hblock : block.length = 1024)
    (hname : name.length = 255) {w : Work} (hw : w.buffer = block ++ rest) :
    ScanStaysInside junk g t offset name w ↔ ScanFits junk g t offset block name w := by
  obtain ⟨states, w', hrun, hmap, hall⟩ :=
    @dirRun_packed g block rest name junk t offset hg hblock w hw
  have hround {s : DirState} (hs : s ∈ states) : s.off ∈ packedRecords block := by
    rw [← hmap]
    exact List.mem_map_of_mem hs
  have hiff {s : DirState} (hs : s ∈ states) :=
    @staysInside_iff junk g t offset block rest name hblock hname s (hall s hs)
      (recordsFrom_lt (hround hs))
  constructor
  · intro h
    refine ⟨h.records hg hblock hname hw, fun states' w'' hrun' s hs hf => ?_⟩
    obtain ⟨states₀, w₀, hrun₀, hinside⟩ := h
    rw [hrun] at hrun' hrun₀
    cases hrun'
    cases hrun₀
    exact ((hiff hs).mp (hinside s hs)).2 hf
  · intro h
    refine ⟨states, w', hrun, fun s hs => ?_⟩
    exact (hiff hs).mpr ⟨h.records s.off (hround hs), h.names states w' hrun s hs⟩

/-- A scan of block 0 of a new image, all zeros. -/
theorem scan_staysInside_zeros :
    ScanStaysInside [] ⟨1024, 8, 1, 8192, 1, 8⟩ 0 2048 (zeros 255)
        ⟨⟨zeros 1024, 0⟩, fun _ => none, [], zeros 1024⟩ ↔
      ScanFits [] ⟨1024, 8, 1, 8192, 1, 8⟩ 0 2048 (zeros 1024) (zeros 255)
        ⟨⟨zeros 1024, 0⟩, fun _ => none, [], zeros 1024⟩ :=
  @scan_staysInside_iff [] ⟨1024, 8, 1, 8192, 1, 8⟩ 0 2048 (zeros 1024) [] (zeros 255) rfl
    List.length_replicate List.length_replicate _ (List.append_nil _).symm

/-- In a block of ones the fourth record is at 792, and its name runs past the buffer. -/
theorem scan_escapes :
    ¬ ScanStaysInside [] ⟨1024, 8, 1, 8192, 1, 8⟩ 0 2048 (zeros 255)
        ⟨⟨zeros 1024, 0⟩, fun _ => none, [], List.replicate 1024 255⟩ := by
  intro h
  have hoff : 792 ∈ packedRecords (List.replicate 1024 255) := by decide +kernel
  have hlen : entryNameLen (List.replicate 1024 255) 792 = 255 := by decide +kernel
  have hin := h.records rfl List.length_replicate List.length_replicate (List.append_nil _).symm
    792 hoff
  rw [hlen] at hin
  omega

/-! ## Finding the live entries -/

/-- A directory block as ext2 has it: from offset 0 on the records tile it, each long
enough for its name. -/
structure WellFormed (block : List UInt8) : Prop where
  length : block.length = 1024
  tiles : Tiles (entryRecLen block) 0 1024
  records : ∀ off ∈ liveRecords block,
    entryRecLen block off % 4 = 0 ∧ entryRoom (entryNameLen block off) ≤ entryRecLen block off

/-- The loop comes to every live entry, at its offset, and reads its inode number and
name there. -/
def VisitsLive (junk : List UInt8) (g : Globals) (t offset : Nat) (block name : List UInt8)
    (w : Work) : Prop :=
  ∃ states w', dirRun junk g t offset (g.blockSize / 8) ⟨0, name, w⟩ = some (states, w') ∧
    ∀ off ∈ liveRecords block, ∃ s ∈ states, s.off = off ∧
      s.ino junk = entryInode block off ∧ s.entryBytes junk = entryName block off

/-- The leftover bytes of every record but the last are tiled by what the loop takes for
records there. -/
def SlackTiled (block : List UInt8) : Prop :=
  ∀ off ∈ liveRecords block, off + entryRecLen block off < 1024 →
    Tiles (fun o => entryRoom (entryNameLen block o))
      (off + entryRoom (entryNameLen block off)) (off + entryRecLen block off)

/-- The places of a walk that makes eight bytes at least at every stride. -/
theorem mem_recordsFrom_iff {next : Nat → Nat} {k off o : Nat} (hk : 1024 ≤ off + 8 * k)
    (hstep : ∀ o ∈ recordsFrom next k off, 8 ≤ next o) :
    o ∈ recordsFrom next k off ↔ Tiles next off o ∧ o < 1024 := by
  induction k generalizing off with
  | zero =>
      refine ⟨fun h => absurd h List.not_mem_nil, fun h => ?_⟩
      have hle := h.1.le
      omega
  | succ k ih =>
      by_cases hlt : off < 1024
      · rw [recordsFrom, if_pos hlt] at hstep ⊢
        have hfirst := hstep off List.mem_cons_self
        have hrest := ih (show 1024 ≤ off + next off + 8 * k by omega)
          (fun o ho => hstep o (List.mem_cons_of_mem off ho))
        rw [List.mem_cons, hrest]
        constructor
        · intro h
          rcases h with rfl | h
          · exact ⟨.nil o, hlt⟩
          · exact ⟨.cons h.1, h.2⟩
        · intro h
          by_cases heq : o = off
          · exact .inl heq
          · exact .inr ⟨h.1.tail fun he => heq he.symm, h.2⟩
      · rw [recordsFrom, if_neg hlt]
        refine ⟨fun h => absurd h List.not_mem_nil, fun h => ?_⟩
        have hle := h.1.le
        omega

theorem mem_packedRecords (block : List UInt8) (off : Nat) :
    off ∈ packedRecords block ↔
      Tiles (fun o => entryRoom (entryNameLen block o)) 0 off ∧ off < 1024 :=
  mem_recordsFrom_iff (by decide) fun o _ => (entryRoom_aligned (entryNameLen block o)).2

theorem WellFormed.mem_live (h : WellFormed block) (off : Nat) :
    off ∈ liveRecords block ↔ Tiles (entryRecLen block) 0 off ∧ off < 1024 :=
  mem_recordsFrom_iff (by decide) fun o ho =>
    Nat.le_trans (entryRoom_aligned (entryNameLen block o)).2 (h.records o ho).2

/-- A live entry lies in the block. -/
theorem WellFormed.inside (h : WellFormed block) {off : Nat} (hoff : off ∈ liveRecords block) :
    off + 8 + entryNameLen block off ≤ off + entryRecLen block off ∧
      off + entryRecLen block off ≤ 1024 := by
  have hroom := (h.records off hoff).2
  obtain ⟨hreach, hlt⟩ := (h.mem_live off).mp hoff
  have hrest := (hreach.split h.tiles (Nat.le_of_lt hlt)).tail (Nat.ne_of_lt hlt)
  refine ⟨?_, hrest.le⟩
  unfold entryRoom at hroom
  split at hroom
  · omega
  · omega

/-- The loop comes to a live entry exactly if the packed records do. -/
theorem visitsLive_iff_packed (hg : g.blockSize = 1024) (h : WellFormed block) {w : Work}
    (hw : w.buffer = block ++ rest) :
    VisitsLive junk g t offset block name w ↔
      ∀ off ∈ liveRecords block, off ∈ packedRecords block := by
  obtain ⟨states, w', hrun, hmap, hall⟩ :=
    @dirRun_packed g block rest name junk t offset hg h.length w hw
  constructor
  · intro hvisits off hoff
    obtain ⟨states', w'', hrun', hlive⟩ := hvisits
    rw [hrun] at hrun'
    cases hrun'
    obtain ⟨s, hs, heq, -, -⟩ := hlive off hoff
    rw [← hmap, ← heq]
    exact List.mem_map_of_mem hs
  · intro hpacked
    refine ⟨states, w', hrun, fun off hoff => ?_⟩
    have hmem := hpacked off hoff
    rw [← hmap] at hmem
    obtain ⟨s, hs, rfl⟩ := List.mem_map.mp hmem
    obtain ⟨hshort, hin⟩ := h.inside hoff
    exact ⟨s, hs, rfl, (hall s hs).ino h.length (by omega),
      (hall s hs).entryBytes h.length (by omega)⟩

/-- **The loop misses no live entry** of a well-formed block exactly if the leftover bytes
of every record before the last are tiled by phantom records. -/
theorem visitsLive_iff (hg : g.blockSize = 1024) (h : WellFormed block) {w : Work}
    (hw : w.buffer = block ++ rest) :
    VisitsLive junk g t offset block name w ↔ SlackTiled block := by
  rw [visitsLive_iff_packed hg h hw]
  have hmeets := @meets_all_iff (entryRecLen block) (fun o => entryRoom (entryNameLen block o)) 1024 0
  constructor
  · intro hpacked off hoff hlt
    obtain ⟨hreach, -⟩ := (h.mem_live off).mp hoff
    have hall : ∀ b, Tiles (entryRecLen block) 0 b → b < 1024 →
        Tiles (fun o => entryRoom (entryNameLen block o)) 0 b := fun b hb hb' =>
      ((mem_packedRecords block b).mp (hpacked b ((h.mem_live b).mpr ⟨hb, hb'⟩))).1
    have hpos := (entryRoom_aligned (entryNameLen block off)).2
    have hle := (h.records off hoff).2
    exact (hmeets.mp hall off hreach hlt).tail (by omega)
  · intro hslack off hoff
    obtain ⟨hreach, hlt⟩ := (h.mem_live off).mp hoff
    rw [mem_packedRecords]
    refine ⟨hmeets.mpr (fun b hb hb' => ?_) off hreach hlt, hlt⟩
    have hlive := (h.mem_live b).mpr ⟨hb, Nat.lt_of_le_of_lt (Nat.le_add_right b _) hb'⟩
    exact .cons (hslack b hlive hb')

/-- A block of three live entries. -/
theorem wellFormed_three {a b : Nat} (hblock : block.length = 1024)
    (ha : 0 + entryRecLen block 0 = a) (hb : a + entryRecLen block a = b)
    (hc : b + entryRecLen block b = 1024) (hlt : b < 1024)
    (hrecords : ∀ off ∈ [0, a, b], entryRecLen block off % 4 = 0 ∧
      entryRoom (entryNameLen block off) ≤ entryRecLen block off) : WellFormed block where
  length := hblock
  tiles := by
    apply Tiles.cons
    rw [ha]
    apply Tiles.cons
    rw [hb]
    apply Tiles.cons
    rw [hc]
    exact .nil 1024
  records := by
    rw [liveRecords, three_records ha hb hc hlt, recordsFrom_done (Nat.le_refl 1024)]
    exact hrecords

/-- An entry, and the last one after sixteen leftover bytes. `len` is where the first
phantom record has its `name_len`. -/
def slackDir (len : UInt8) : List UInt8 :=
  [2, 0, 0, 0, 12, 0, 1, 2, 46, 0, 0, 0] ++ [2, 0, 0, 0, 28, 0, 2, 2, 46, 46, 0, 0] ++
    [0, 0, 0, 0, 0, 0, len, 0] ++ zeros 8 ++
    [4, 0, 0, 0, 216, 3, 5, 1, 97, 46, 106, 112, 103, 0, 0, 0] ++ zeros 968

theorem slackDir_wellFormed : ∀ len ∈ [8, 9], WellFormed (slackDir len) := by
  have hfields : ∀ len ∈ [8, 9], (slackDir len).length = 1024 ∧ entryRecLen (slackDir len) 0 = 12 ∧
      entryRecLen (slackDir len) 12 = 28 ∧ entryRecLen (slackDir len) 40 = 984 ∧
      ∀ off ∈ [0, 12, 40], entryRecLen (slackDir len) off % 4 = 0 ∧
        entryRoom (entryNameLen (slackDir len) off) ≤ entryRecLen (slackDir len) off := by
    decide +kernel
  intro len hlen
  obtain ⟨hblock, h0, h12, h40, hrecords⟩ := hfields len hlen
  exact wellFormed_three hblock (by rw [h0]) (by rw [h12]) (by rw [h40]) (by decide) hrecords

/-- A phantom record of sixteen bytes tiles the leftover bytes. -/
theorem visitsLive_slackDir :
    WellFormed (slackDir 8) ∧
      (VisitsLive [] ⟨1024, 8, 1, 8192, 1, 8⟩ 0 2048 (slackDir 8) (zeros 255)
          ⟨⟨zeros 1024, 0⟩, fun _ => none, [], slackDir 8⟩ ↔ SlackTiled (slackDir 8)) :=
  have hwell := slackDir_wellFormed 8 (by decide)
  ⟨hwell, @visitsLive_iff [] ⟨1024, 8, 1, 8192, 1, 8⟩ 0 2048 (slackDir 8) [] (zeros 255) rfl hwell _
    (List.append_nil _).symm⟩

/-- One of twenty bytes reaches over the last entry. -/
theorem slackDir_missed :
    WellFormed (slackDir 9) ∧
      ¬ VisitsLive [] ⟨1024, 8, 1, 8192, 1, 8⟩ 0 2048 (slackDir 9) (zeros 255)
        ⟨⟨zeros 1024, 0⟩, fun _ => none, [], slackDir 9⟩ := by
  have hwell := slackDir_wellFormed 9 (by decide)
  refine ⟨hwell, ?_⟩
  rw [visitsLive_iff_packed rfl hwell (List.append_nil _).symm]
  intro hall
  have hlive : 40 ∈ liveRecords (slackDir 9) := by
    have hfields : entryRecLen (slackDir 9) 0 = 12 ∧ entryRecLen (slackDir 9) 12 = 28 := by
      decide +kernel
    apply (hwell.mem_live 40).mpr
    refine ⟨?_, by decide⟩
    apply Tiles.cons
    rw [hfields.1]
    apply Tiles.cons
    rw [hfields.2]
    exact .nil 40
  have hpacked := hall 40 hlive
  have hrooms : entryRoom (entryNameLen (slackDir 9) 0) = 12 ∧
      entryRoom (entryNameLen (slackDir 9) 12) = 12 ∧
      entryRoom (entryNameLen (slackDir 9) 24) = 20 := by decide +kernel
  have hthree := @three_records (fun off => entryRoom (entryNameLen (slackDir 9) off)) 12 24 44
    (by rw [hrooms.1]) (by rw [hrooms.2.1]) (by rw [hrooms.2.2]) (by decide)
  rw [packedRecords, hthree, List.mem_cons, List.mem_cons, List.mem_cons] at hpacked
  have hpast := ((hpacked.resolve_left (by decide)).resolve_left (by decide)).resolve_left
    (by decide)
  exact absurd (recordsFrom_ge hpast) (by decide)

end CS537.FileSystem
