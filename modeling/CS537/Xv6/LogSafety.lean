import CS537.Lib.Redo
import CS537.Xv6.Log

/-!
# The xv6 log is a redo log

Reads see the writes of all calls, and a crash at any moment undoes the calls since the last
commit and no other: the system refines `Redo.Store`, in which a group of calls becomes durable
at once.
-/

namespace CS537.Xv6

open Function MachineInt Redo

/-! ## The header block -/

theorem getWord_putWord_ne {mem : Block} {addr addr' word : Nat}
    (h : addr + 4 ≤ addr' ∨ addr' + 4 ≤ addr) :
    Bytes.getWord (Bytes.putWord mem addr word) addr' = Bytes.getWord mem addr' := by
  refine Bytes.getWord_congr fun i hi => ?_
  exact Bytes.putWord_outside (by omega)

/-- Storing the block numbers leaves `n` and what stands before them. -/
theorem getWord_entries {addr : Nat} : ∀ {lh : List Nat} {k : Nat} {hb : Block},
    addr + 4 ≤ 4 + 4 * k →
    Bytes.getWord ((lh.zipIdx k).foldl (fun hb e => Bytes.putWord hb (4 + 4 * e.2) e.1) hb) addr =
      Bytes.getWord hb addr
  | [], _, _, _ => rfl
  | b :: lh, k, hb, h => by
      rw [List.zipIdx_cons, List.foldl_cons, getWord_entries (by omega)]
      exact getWord_putWord_ne (.inr (by omega))

theorem getWord_entry : ∀ {lh : List Nat} {k i b : Nat} {hb : Block},
    (∀ b ∈ lh, b < 4294967296) → lh[i]? = some b →
    Bytes.getWord ((lh.zipIdx k).foldl (fun hb e => Bytes.putWord hb (4 + 4 * e.2) e.1) hb)
      (4 + 4 * (k + i)) = b
  | [], _, _, _, _, _, h => by cases h
  | a :: lh, k, 0, b, hb, hlt, h => by
      cases h
      rw [List.zipIdx_cons, List.foldl_cons, getWord_entries (by omega)]
      exact Bytes.getWord_putWord _ _ (hlt a List.mem_cons_self)
  | a :: lh, k, i + 1, b, hb, hlt, h => by
      have ih := @getWord_entry lh (k + 1) i b (Bytes.putWord hb (4 + 4 * k) a)
        (fun b hb => hlt b (List.mem_cons_of_mem a hb)) (by simpa using h)
      rw [List.zipIdx_cons, List.foldl_cons]
      rwa [show k + (i + 1) = k + 1 + i by omega]

/-- The header reads back as it was written. -/
theorem header_putHeader {lh : List Nat} (hb : Block) (hlen : lh.length ≤ logSize)
    (hlt : ∀ b ∈ lh, b < 4294967296) : header (putHeader lh hb) = lh := by
  rw [logSize] at hlen
  have hn : (s32 (Bytes.getWord (putHeader lh hb) 0)).toNat = lh.length := by
    rw [putHeader, getWord_entries (by omega), Bytes.getWord_putWord _ _ (by omega)]
    unfold s32 u32
    split <;> omega
  refine List.ext_getElem? fun i => ?_
  rw [header, hn, List.getElem?_map]
  cases h : lh[i]? with
  | none =>
      rw [List.getElem?_eq_none (by simpa using List.getElem?_eq_none_iff.mp h)]
      rfl
  | some b =>
      obtain ⟨hi, -⟩ := List.getElem?_eq_some_iff.mp h
      rw [List.getElem?_range hi, Option.map_some]
      have hentry := @getWord_entry lh 0 i b (Bytes.putWord hb 0 lh.length) hlt h
      rw [Nat.zero_add] at hentry
      exact congrArg some hentry

/-! ## What a step does to the disk and to what is read -/

/-- The log of a file system. -/
def layout (start size : Nat) : Layout Block := ⟨start, size, header⟩

namespace LogState

/-- What `bread` returns. -/
def view (s : LogState) (b : Nat) : Block :=
  match s.cache b with
  | some buf => buf.data
  | none => s.disk b

/-- The block's buffer is pinned. -/
def Dirty (s : LogState) (b : Nat) : Prop := ∃ buf, s.cache b = some buf ∧ buf.dirty = true

/-- A buffer that may be recycled holds what the disk holds. -/
def Clean (s : LogState) : Prop := ∀ b, ¬ s.Dirty b → s.view b = s.disk b

def layout (s : LogState) : Layout Block := Xv6.layout s.log.start s.log.size

end LogState

variable {s : LogState}

@[simp] theorem bread_fst (b : Nat) (s : LogState) : (bread b s).1 = s.view b := by
  unfold bread LogState.view
  cases s.cache b <;> rfl

@[simp] theorem bread_disk (b : Nat) (s : LogState) : (bread b s).2.disk = s.disk := by
  unfold bread
  cases s.cache b <;> rfl

@[simp] theorem bread_log (b : Nat) (s : LogState) : (bread b s).2.log = s.log := by
  unfold bread
  cases s.cache b <;> rfl

@[simp] theorem bread_mode (b : Nat) (s : LogState) : (bread b s).2.mode = s.mode := by
  unfold bread
  cases s.cache b <;> rfl

@[simp] theorem bread_view (b : Nat) (s : LogState) : (bread b s).2.view = s.view := by
  funext x
  unfold bread
  cases h : s.cache b with
  | some buf => rfl
  | none =>
      by_cases hx : x = b
      · subst hx
        simp [LogState.view, h]
      · simp [LogState.view, update_of_ne hx]

@[simp] theorem bread_dirty (b : Nat) (s : LogState) : (bread b s).2.Dirty = s.Dirty := by
  funext x
  unfold bread
  cases h : s.cache b with
  | some buf => rfl
  | none =>
      by_cases hx : x = b
      · subst hx
        simp [LogState.Dirty, h]
      · simp [LogState.Dirty, update_of_ne hx]

@[simp] theorem bwrite_disk (b : Nat) (data : Block) (s : LogState) :
    (bwrite b data s).disk = update s.disk b data := rfl

@[simp] theorem bwrite_log (b : Nat) (data : Block) (s : LogState) :
    (bwrite b data s).log = s.log := rfl

@[simp] theorem bwrite_view (b : Nat) (data : Block) (s : LogState) :
    (bwrite b data s).view = update s.view b data := by
  funext x
  by_cases hx : x = b
  · subst hx
    simp [LogState.view, bwrite]
  · simp [LogState.view, bwrite, update_of_ne hx]

theorem bwrite_dirty (b : Nat) (data : Block) (s : LogState) (x : Nat) :
    (bwrite b data s).Dirty x ↔ s.Dirty x ∧ x ≠ b := by
  by_cases hx : x = b
  · subst hx
    simp [LogState.Dirty, bwrite]
  · simp [LogState.Dirty, bwrite, hx]

theorem bwrite_clean (b : Nat) (data : Block) (h : s.Clean) : (bwrite b data s).Clean := by
  intro x hx
  rw [bwrite_dirty] at hx
  rw [bwrite_view, bwrite_disk]
  by_cases hxb : x = b
  · subst hxb
    simp
  · rw [update_of_ne hxb, update_of_ne hxb]
    exact h x fun hd => hx ⟨hd, hxb⟩

theorem bread_clean (b : Nat) (h : s.Clean) : (bread b s).2.Clean := by
  intro x hx
  rw [bread_dirty] at hx
  rw [bread_view, bread_disk]
  exact h x hx

/-- One disk write of `commit` or of the recovery: block `b` now holds `data`. -/
structure Writes (s : LogState) (b : Nat) (data : Block) (s' : LogState) : Prop where
  disk : s'.disk = update s.disk b data
  view : s'.view = update s.view b data
  dirty : ∀ x, s'.Dirty x ↔ s.Dirty x ∧ x ≠ b
  clean : s.Clean → s'.Clean
  log : s'.log = s.log

theorem writeHead_writes (s : LogState) :
    Writes s s.log.start (putHeader s.log.lh (s.view s.log.start)) (writeHead s) where
  disk := by simp [writeHead]
  view := by simp [writeHead]
  dirty x := by simp [writeHead, bwrite_dirty]
  clean h := bwrite_clean _ _ (bread_clean _ h)
  log := by simp [writeHead]

theorem writeLogRound_writes (tail b : Nat) (s : LogState) :
    Writes s (s.layout.slot tail) (s.view b) (writeLogRound tail b s) where
  disk := by simp [writeLogRound, LogState.layout, layout, Layout.slot]
  view := by simp [writeLogRound, LogState.layout, layout, Layout.slot]
  dirty x := by simp [writeLogRound, bwrite_dirty, LogState.layout, layout, Layout.slot]
  clean h := bwrite_clean _ _ (bread_clean _ (bread_clean _ h))
  log := by simp [writeLogRound]

theorem installRound_writes (tail b : Nat) (s : LogState) :
    Writes s b (s.view (s.layout.slot tail)) (installRound tail b s) where
  disk := by simp [installRound, LogState.layout, layout, Layout.slot]
  view := by simp [installRound, LogState.layout, layout, Layout.slot]
  dirty x := by simp [installRound, bwrite_dirty]
  clean h := bwrite_clean _ _ (bread_clean _ (bread_clean _ h))
  log := by simp [installRound]

/-! ## The simulation -/

/-- Block numbers that fit the log and its header. -/
structure Entries (L : Layout Block) (lh : List Nat) : Prop where
  fits : L.Fits lh
  length : lh.length ≤ logSize
  small : ∀ b ∈ lh, b < 4294967296

theorem Entries.nil {L : Layout Block} (h : 1 ≤ L.size) : Entries L [] where
  fits := Layout.Fits.nil h
  length := by decide
  small := by simp

/-- What the log is at some moment: all that the invariant speaks of. -/
structure Face where
  disk : Nat → Block
  view : Nat → Block
  dirty : Nat → Prop
  log : Log

def LogState.face (s : LogState) : Face := ⟨s.disk, s.view, s.Dirty, s.log⟩

namespace Face

variable (f : Face) (q : Store Block)

def layout : Layout Block := Xv6.layout f.log.start f.log.size

/-- Nothing is committed: the blocks written are pinned in the cache, and reads see them. -/
structure Open : Prop where
  logged : f.layout.logged f.disk = []
  pinned : ∀ b, f.dirty b ↔ b ∈ f.log.lh
  view : ∀ b, f.layout.Home b → f.view b = q.current b

/-- The slots up to `tail` hold what is to be committed. -/
def Copied (tail : Nat) : Prop :=
  ∀ i b, i < tail → f.log.lh[i]? = some b → f.disk (f.layout.slot i) = q.current b

/-- Everything is committed, and the blocks up to `tail` are installed. -/
structure Installed (tail : Nat) : Prop where
  logged : f.layout.logged f.disk = f.log.lh
  current : ∀ b, f.layout.Home b → q.current b = q.durable b
  done : ∀ i b, i < tail → f.log.lh[i]? = some b → f.disk b = f.disk (f.layout.slot i)

/-- All blocks are installed. -/
structure Home : Prop where
  lh : f.log.lh = []
  pinned : ∀ b, ¬ f.dirty b
  disk : ∀ b, f.layout.Home b → f.disk b = q.durable b
  current : ∀ b, f.layout.Home b → q.current b = q.durable b

/-- What holds in a stage of `commit`. -/
def InCommit : Stage → Prop
  | .readHead => False
  | .writeLog tail => f.Open q ∧ f.Copied q tail
  | .writeHead => f.Open q ∧ f.Copied q f.log.lh.length
  | .install tail => f.Installed q tail ∧ (∀ b, f.dirty b ↔ b ∈ f.log.lh.drop tail) ∧
      ∀ b, f.layout.Home b → f.view b = q.current b
  | .clear => f.Home q
  | .finish => f.Home q ∧ f.layout.logged f.disk = []

/-- What holds in a stage of `recover_from_log`. -/
def InBoot : Stage → Prop
  | .readHead => f.log.lh = [] ∧ (∀ b, ¬ f.dirty b) ∧
      ∀ b, f.layout.Home b → q.current b = q.durable b
  | .install tail => f.Installed q tail ∧ ∀ b, ¬ f.dirty b
  | .clear => f.Home q
  | .finish => f.Home q ∧ f.layout.logged f.disk = []
  | _ => False

/-- What holds in each mode. -/
def At : Mode → Prop
  | .up => f.log.committing = false ∧ f.Open q ∧ (f.log.outstanding = 0 → f.log.lh = [])
  | .commit stage => f.log.committing = true ∧ f.log.outstanding = 0 ∧ f.InCommit q stage
  | .boot stage => f.log.committing = false ∧ f.log.outstanding = 0 ∧ f.InBoot q stage

/-- The invariant: what a recovery would give is what is durable. -/
structure Sim (mode : Mode) : Prop where
  clean : ∀ b, ¬ f.dirty b → f.view b = f.disk b
  onDisk : Entries f.layout (f.layout.logged f.disk)
  durable : ∀ b, f.layout.Home b → f.layout.recovered f.disk b = q.durable b
  inMemory : Entries f.layout f.log.lh
  active : q.active = f.log.outstanding
  place : f.At q mode

variable {f q}

theorem Sim.size_pos {mode : Mode} (h : f.Sim q mode) : 1 ≤ f.log.size := by
  have hroom : _ + 1 ≤ f.log.size := h.onDisk.fits.room
  omega

/-- What has not been logged is durable on the disk itself. -/
theorem Sim.disk_eq {mode : Mode} (h : f.Sim q mode) (hlogged : f.layout.logged f.disk = [])
    {b : Nat} (hb : f.layout.Home b) : f.disk b = q.durable b := by
  rw [← h.durable b hb, Layout.recovered_not_mem (by rw [hlogged]; simp)]

end Face

variable {q : Store Block}

/-! ### The calls -/

theorem sim_read (h : s.face.Sim q s.mode) (b : Nat) : (bread b s).2.face.Sim q s.mode := by
  have hface : (bread b s).2.face = s.face := by
    simp [LogState.face]
  rw [hface]
  exact h

theorem sim_recycle (h : s.face.Sim q s.mode) {b : Nat} {buf : Buf} (hbuf : s.cache b = some buf)
    (hclean : buf.dirty = false) :
    ({ s with cache := update s.cache b none } : LogState).face.Sim q s.mode := by
  have hview : ({ s with cache := update s.cache b none } : LogState).view = s.view := by
    funext x
    by_cases hx : x = b
    · subst hx
      have hx := h.clean x fun hd => by
        obtain ⟨buf', hbuf', hdirty⟩ := hd
        rw [hbuf] at hbuf'
        cases hbuf'
        rw [hclean] at hdirty
        cases hdirty
      rw [show s.view x = s.disk x from hx]
      simp [LogState.view]
    · simp [LogState.view, update_of_ne hx]
  have hdirty : ({ s with cache := update s.cache b none } : LogState).Dirty = s.Dirty := by
    funext x
    by_cases hx : x = b
    · subst hx
      simp [LogState.Dirty, hbuf, hclean]
    · simp [LogState.Dirty, update_of_ne hx]
  have hface : ({ s with cache := update s.cache b none } : LogState).face = s.face := by
    rw [LogState.face, LogState.face, hview, hdirty]
  rw [hface]
  exact h

theorem sim_beginOp {s' : LogState} (h : s.face.Sim q s.mode) (hs : beginOp s = some s')
    (hmode : ∀ stage, s.mode ≠ .boot stage) :
    s'.mode = s.mode ∧ s'.face.Sim { q with active := q.active + 1 } s.mode := by
  unfold beginOp at hs
  split at hs
  · cases hs
  · rename_i hcom
    split at hs
    · cases hs
    · cases hs
      refine ⟨rfl, h.clean, h.onDisk, h.durable, h.inMemory, ?_, ?_⟩
      · show q.active + 1 = s.log.outstanding + 1
        rw [show q.active = s.log.outstanding from h.active]
      · have hplace := h.place
        cases hm : s.mode with
        | boot stage => exact absurd hm (hmode stage)
        | up =>
            rw [hm] at hplace
            obtain ⟨hc, ho, -⟩ := hplace
            exact ⟨hc, ⟨ho.logged, ho.pinned, ho.view⟩, fun h0 => absurd h0 (Nat.succ_ne_zero _)⟩
        | commit stage =>
            rw [hm] at hplace
            exact absurd hplace.1 hcom

/-- A call in progress finds the log open. -/
theorem Face.Sim.mode_up {mode : Mode} (h : s.face.Sim q mode) (hop : 0 < s.log.outstanding) :
    mode = .up := by
  have hplace := h.place
  cases mode with
  | up => rfl
  | boot stage => exact absurd hplace.2.1 (Nat.ne_of_gt hop)
  | commit stage => exact absurd hplace.2.1 (Nat.ne_of_gt hop)

theorem sim_write {s' : LogState} {b : Nat} {data : Block} (h : s.face.Sim q s.mode)
    (hb : s.layout.Home b) (hlt : b < 4294967296) (hs : logWrite b data s = .ok s') :
    0 < q.active ∧ s'.mode = s.mode ∧
      s'.face.Sim { q with current := update q.current b data } s.mode := by
  unfold logWrite at hs
  split at hs
  · cases hs
  · rename_i hroom
    split at hs
    · cases hs
    · rename_i hop
      cases hs
      have hup := h.mode_up (by omega)
      rw [hup] at h
      obtain ⟨hcom, hopen, -⟩ := h.place
      have hactive : q.active = s.log.outstanding := h.active
      have hdirty : ∀ x, LogState.Dirty { s with
            log.lh := if b ∈ s.log.lh then s.log.lh else s.log.lh ++ [b],
            cache := update s.cache b (some ⟨data, true⟩) } x ↔ s.Dirty x ∨ x = b := by
        intro x
        by_cases hx : x = b
        · subst hx
          simp [LogState.Dirty]
        · simp [LogState.Dirty, hx]
      have hview : ∀ x, LogState.view { s with
            log.lh := if b ∈ s.log.lh then s.log.lh else s.log.lh ++ [b],
            cache := update s.cache b (some ⟨data, true⟩) } x = update s.view b data x := by
        intro x
        by_cases hx : x = b
        · subst hx
          simp [LogState.view]
        · simp [LogState.view, update_of_ne hx]
      refine ⟨by omega, rfl, ?_⟩
      rw [hup]
      refine ⟨?_, h.onDisk, h.durable, ?_, h.active, hcom, ⟨hopen.logged, ?_, ?_⟩, ?_⟩
      · intro x hx
        have hx : ¬ (s.Dirty x ∨ x = b) := fun hd => hx ((hdirty x).mpr hd)
        rw [not_or] at hx
        refine (hview x).trans ?_
        rw [update_of_ne hx.2]
        exact h.clean x hx.1
      · show Entries s.face.layout (if b ∈ s.log.lh then s.log.lh else s.log.lh ++ [b])
        split
        · exact h.inMemory
        · rename_i hnew
          have hsize : s.face.layout.size = s.log.size := rfl
          refine ⟨h.inMemory.fits.append hb hnew (by rw [hsize]; simp only [LogState.face]; omega), ?_, ?_⟩
          · rw [List.length_append, List.length_singleton]
            omega
          · intro x hx
            rcases List.mem_append.mp hx with hx | hx
            · exact h.inMemory.small x hx
            · rw [List.mem_singleton.mp hx]
              exact hlt
      · intro x
        refine (hdirty x).trans ?_
        have hx : s.Dirty x ↔ x ∈ s.log.lh := hopen.pinned x
        rw [hx]
        show _ ↔ x ∈ if b ∈ s.log.lh then s.log.lh else s.log.lh ++ [b]
        split
        · rename_i hmem
          constructor
          · rintro (hx | rfl)
            · exact hx
            · exact hmem
          · exact Or.inl
        · rw [List.mem_append, List.mem_singleton]
      · intro x hx
        refine (hview x).trans ?_
        show update s.view b data x = update q.current b data x
        by_cases hxb : x = b
        · subst hxb
          rw [update_self, update_self]
        · rw [update_of_ne hxb, update_of_ne hxb]
          exact hopen.view x hx
      · intro h0
        exact absurd h0 (by show s.log.outstanding ≠ 0; omega)

/-- With nothing logged, all blocks are where they belong. -/
theorem Face.Sim.home (h : s.face.Sim q s.mode) (hopen : s.face.Open q) (hlh : s.log.lh = []) :
    s.face.Home q where
  lh := hlh
  pinned := by
    intro b hd
    have hmem : b ∈ s.log.lh := (hopen.pinned b).mp hd
    rw [hlh] at hmem
    cases hmem
  disk := fun b hb => h.disk_eq hopen.logged hb
  current := by
    intro b hb
    have hd : ¬ s.Dirty b := by
      intro hd
      have hmem : b ∈ s.log.lh := (hopen.pinned b).mp hd
      rw [hlh] at hmem
      cases hmem
    rw [← hopen.view b hb, h.clean b hd, h.disk_eq hopen.logged hb]

theorem sim_endOp {s' : LogState} (h : s.face.Sim q s.mode) (hop : s.log.outstanding ≠ 0)
    (hs : endOp s = .ok s') :
    0 < q.active ∧ s'.face.Sim { q with active := q.active - 1 } s'.mode := by
  have hup := h.mode_up (by omega)
  have hactive : q.active = s.log.outstanding := h.active
  have hplace := h.place
  rw [hup] at hplace
  obtain ⟨hcom, hopen, -⟩ := hplace
  have hleave : q.active - 1 = s.log.outstanding - 1 := by rw [hactive]
  refine ⟨by omega, ?_⟩
  have hcom' : s.log.committing = false := hcom
  unfold endOp at hs
  simp only [hcom', Bool.false_eq_true, if_false] at hs
  split at hs
  · rename_i h0
    cases hs
    refine ⟨h.clean, h.onDisk, h.durable, h.inMemory, hleave, rfl, h0, ?_⟩
    split
    · refine ⟨⟨hopen.logged, hopen.pinned, hopen.view⟩, ?_⟩
      intro i b hi
      exact absurd hi (Nat.not_lt_zero i)
    · rename_i hlen
      have hlh : s.log.lh = [] := List.length_eq_zero_iff.mp (by omega)
      have hhome := h.home hopen hlh
      exact ⟨⟨hhome.lh, hhome.pinned, hhome.disk, hhome.current⟩, hopen.logged⟩
  · rename_i h0
    cases hs
    refine ⟨h.clean, h.onDisk, h.durable, h.inMemory, hleave, ?_⟩
    show (Face.At _ _ s.mode)
    rw [hup]
    exact ⟨rfl, ⟨hopen.logged, hopen.pinned, hopen.view⟩, fun h1 => absurd h1 h0⟩

theorem sim_crash (h : s.face.Sim q s.mode) :
    (crash s).face.Sim { q with current := q.durable, active := 0 } (.boot .readHead) := by
  have hdirty : ∀ b, ¬ (crash s).Dirty b := by
    rintro b ⟨buf, hbuf, -⟩
    cases hbuf
  refine ⟨fun b _ => rfl, h.onDisk, h.durable, Entries.nil h.size_pos, rfl, rfl, rfl, rfl,
    hdirty, fun b _ => rfl⟩

/-! ### Committing and recovering -/

theorem Writes.layout {b : Nat} {data : Block} {s' : LogState} (h : Writes s b data s') :
    s'.layout = s.layout := by
  rw [LogState.layout, LogState.layout, h.log]

theorem sim_writeLog {tail : Nat} (h : s.face.Sim q (.commit (.writeLog tail))) :
    (proceed s (.writeLog tail)).1.face.Sim q (.commit (proceed s (.writeLog tail)).2) := by
  obtain ⟨hcom, hout, hopen, hcopied⟩ := h.place
  have hroom : s.log.lh.length + 1 ≤ s.log.size := h.inMemory.fits.room
  unfold proceed
  dsimp only
  cases hb : s.log.lh[tail]? with
  | none =>
      refine ⟨h.clean, h.onDisk, h.durable, h.inMemory, h.active, hcom, hout, hopen, ?_⟩
      have htail := List.getElem?_eq_none_iff.mp hb
      intro i b hi
      exact hcopied i b (Nat.lt_of_lt_of_le hi htail)
  | some b =>
      obtain ⟨htail, -⟩ := List.getElem?_eq_some_iff.mp hb
      have hw := writeLogRound_writes tail b s
      dsimp only
      generalize writeLogRound tail b s = s' at hw
      have hslot : tail + 1 < s.layout.size := by
        show tail + 1 < s.log.size
        omega
      have hhome : s.layout.Home b := h.inMemory.fits.home b (List.mem_of_getElem? hb)
      have hlogged : s.layout.logged s'.disk = s.layout.logged s.disk := by
        rw [hw.disk]
        exact Layout.logged_update_ne _ (Layout.slot_ne_start tail)
      have hnone : s.layout.logged s.disk = [] := hopen.logged
      refine ⟨hw.clean h.clean, ?_, ?_, ?_, ?_, ?_, ?_, ⟨?_, ?_, ?_⟩, ?_⟩
      · show Entries s'.layout (s'.layout.logged s'.disk)
        rw [hw.layout, hlogged]
        exact h.onDisk
      · intro x hx
        show s'.layout.recovered s'.disk x = q.durable x
        have hx : s.layout.Home x := by rw [← hw.layout]; exact hx
        rw [hw.layout, hw.disk, Layout.recovered_write_slot _ (by rw [hnone]; exact Nat.zero_le _)
          hslot hx]
        exact h.durable x hx
      · show Entries s'.layout s'.log.lh
        rw [hw.layout, hw.log]
        exact h.inMemory
      · show q.active = s'.log.outstanding
        rw [hw.log]
        exact h.active
      · show s'.log.committing = true
        rw [hw.log]
        exact hcom
      · show s'.log.outstanding = 0
        rw [hw.log]
        exact hout
      · show s'.layout.logged s'.disk = []
        rw [hw.layout, hlogged]
        exact hnone
      · intro x
        refine (hw.dirty x).trans ?_
        show s.Dirty x ∧ x ≠ s.layout.slot tail ↔ x ∈ s'.log.lh
        rw [hw.log]
        have hx : s.Dirty x ↔ x ∈ s.log.lh := hopen.pinned x
        rw [hx, and_iff_left_iff_imp]
        intro hmem
        exact (h.inMemory.fits.home x hmem).ne_slot hslot
      · intro x hx
        have hx : s.layout.Home x := by rw [← hw.layout]; exact hx
        show s'.view x = q.current x
        rw [hw.view, update_of_ne (hx.ne_slot hslot)]
        exact hopen.view x hx
      · intro i c hi hc
        show s'.disk (s'.layout.slot i) = q.current c
        have hc : s.log.lh[i]? = some c := by rw [← hw.log]; exact hc
        rw [hw.layout, hw.disk]
        by_cases hit : i = tail
        · subst hit
          rw [hb] at hc
          cases hc
          rw [update_self]
          exact hopen.view b hhome
        · rw [update_of_ne fun heq => hit (Layout.slot_inj heq)]
          exact hcopied i c (by omega) hc

/-- The commit: what is durable is now what the calls have written. -/
theorem sim_writeHead (h : s.face.Sim q (.commit .writeHead)) :
    q.active = 0 ∧ (proceed s .writeHead).1.face.Sim { q with durable := q.current }
      (.commit (proceed s .writeHead).2) := by
  obtain ⟨hcom, hout, hopen, hcopied⟩ := h.place
  have hroom : s.log.lh.length + 1 ≤ s.log.size := h.inMemory.fits.room
  have hw := writeHead_writes s
  refine ⟨h.active.trans hout, ?_⟩
  unfold proceed
  dsimp only
  have hheader : s.layout.header (putHeader s.log.lh (s.view s.log.start)) = s.log.lh :=
    header_putHeader _ h.inMemory.length h.inMemory.small
  generalize putHeader s.log.lh (s.view s.log.start) = hb at hw hheader
  generalize writeHead s = s' at hw
  have hlogged : s.layout.logged s'.disk = s.log.lh := by
    rw [Layout.logged, hw.disk, show s.layout.start = s.log.start from rfl, update_self, hheader]
  have hne : ∀ x, s.layout.Home x → x ≠ s.log.start := by
    intro x hx
    exact hx.ne_start (Nat.le_trans (Nat.le_add_left 1 _) hroom)
  refine ⟨hw.clean h.clean, ?_, ?_, ?_, ?_, ?_, ?_, ⟨?_, ?_, ?_⟩, ?_, ?_⟩
  · show Entries s'.layout (s'.layout.logged s'.disk)
    rw [hw.layout, hlogged]
    exact h.inMemory
  · intro x hx
    have hx : s.layout.Home x := by rw [← hw.layout]; exact hx
    show s'.layout.recovered s'.disk x = q.current x
    rw [hw.layout, hw.disk]
    refine Layout.recovered_commit (by rw [hheader]; exact h.inMemory.fits) ?_ ?_ hx
    · intro i b hi
      rw [hheader] at hi
      exact hcopied i b (List.getElem?_eq_some_iff.mp hi).1 hi
    · intro b hb hnot
      rw [hheader] at hnot
      have hd : ¬ s.Dirty b := fun hd => hnot ((hopen.pinned b).mp hd)
      exact (h.clean b hd).symm.trans (hopen.view b hb)
  · show Entries s'.layout s'.log.lh
    rw [hw.layout, hw.log]
    exact h.inMemory
  · show q.active = s'.log.outstanding
    rw [hw.log]
    exact h.active
  · show s'.log.committing = true
    rw [hw.log]
    exact hcom
  · show s'.log.outstanding = 0
    rw [hw.log]
    exact hout
  · show s'.layout.logged s'.disk = s'.log.lh
    rw [hw.layout, hlogged, hw.log]
  · intro b _
    rfl
  · intro i b hi
    exact absurd hi (Nat.not_lt_zero i)
  · intro x
    refine (hw.dirty x).trans ?_
    show s.Dirty x ∧ x ≠ s.log.start ↔ x ∈ s'.log.lh.drop 0
    rw [hw.log, List.drop_zero]
    have hx : s.Dirty x ↔ x ∈ s.log.lh := hopen.pinned x
    rw [hx, and_iff_left_iff_imp]
    intro hmem
    exact hne x (h.inMemory.fits.home x hmem)
  · intro x hx
    have hx : s.layout.Home x := by rw [← hw.layout]; exact hx
    show s'.view x = q.current x
    rw [hw.view, update_of_ne (hne x hx)]
    exact hopen.view x hx

/-- Installing one more block changes neither what a recovery gives nor, where the block is
cached, what is read. -/
structure InstallsOne (s s' : LogState) (q : Store Block) (tail b : Nat) : Prop where
  onDisk : Entries s'.layout (s'.layout.logged s'.disk)
  durable : ∀ x, s'.layout.Home x → s'.layout.recovered s'.disk x = q.durable x
  inMemory : Entries s'.layout s'.log.lh
  installed : s'.face.Installed q (tail + 1)
  view : s'.view = update s.view b (q.durable b)

theorem Writes.installsOne {s' : LogState} {tail b : Nat} {mode : Mode}
    (hw : Writes s b (s.view (s.layout.slot tail)) s') (h : s.face.Sim q mode)
    (hi : s.face.Installed q tail) (hpinned : ∀ x, s.Dirty x → x ∈ s.log.lh)
    (hb : s.log.lh[tail]? = some b) : InstallsOne s s' q tail b := by
  have hroom : s.log.lh.length + 1 ≤ s.log.size := h.inMemory.fits.room
  obtain ⟨htail, -⟩ := List.getElem?_eq_some_iff.mp hb
  have hmem := List.mem_of_getElem? hb
  have hhome : s.layout.Home b := h.inMemory.fits.home b hmem
  have hslot : ∀ i, i < s.log.lh.length → ∀ x, s.layout.Home x → x ≠ s.layout.slot i := by
    intro i hi x hx
    exact hx.ne_slot (by show i + 1 < s.log.size; omega)
  have hlogged : s.layout.logged s.disk = s.log.lh := hi.logged
  have hfits : s.layout.Fits (s.layout.logged s.disk) := h.onDisk.fits
  have hget : (s.layout.logged s.disk)[tail]? = some b := by rw [hlogged]; exact hb
  -- the slot is not pinned, so its buffer holds what the disk holds
  have hclean : s.view (s.layout.slot tail) = s.disk (s.layout.slot tail) :=
    h.clean _ fun hd => hslot tail htail _ (h.inMemory.fits.home _ (hpinned _ hd)) rfl
  have hvalue : s.disk (s.layout.slot tail) = q.durable b := by
    rw [← h.durable b hhome]
    exact (Layout.recovered_get hfits.nodup hget).symm
  have hdisk := hw.disk
  rw [hclean] at hdisk
  have hlogged' : s.layout.logged s'.disk = s.layout.logged s.disk := by
    rw [hdisk]
    refine Layout.logged_update_ne _ (hhome.ne_start ?_)
    show 1 ≤ s.log.size
    omega
  refine ⟨?_, ?_, ?_, ⟨?_, ?_, ?_⟩, ?_⟩
  · rw [hw.layout, hlogged']
    exact h.onDisk
  · intro x hx
    rw [hw.layout] at hx ⊢
    rw [hdisk, Layout.recovered_install hfits hget]
    exact h.durable x hx
  · rw [hw.layout, hw.log]
    exact h.inMemory
  · show s'.layout.logged s'.disk = s'.log.lh
    rw [hw.layout, hlogged', hw.log]
    exact hlogged
  · intro x hx
    have hx : s.layout.Home x := by rw [← hw.layout]; exact hx
    exact hi.current x hx
  · intro i c hic hc
    show s'.disk c = s'.disk (s'.layout.slot i)
    have hc : s.log.lh[i]? = some c := by rw [← hw.log]; exact hc
    have hilt := (List.getElem?_eq_some_iff.mp hc).1
    rw [hw.layout, hdisk, update_of_ne (hslot i hilt b hhome).symm]
    by_cases hit : i = tail
    · subst hit
      rw [hb] at hc
      cases hc
      rw [update_self]
    · have hcb : c ≠ b := by
        rintro rfl
        have hnd : s.log.lh.Nodup := h.inMemory.fits.nodup
        have hi := Layout.idxOf_get hnd hc
        rw [Layout.idxOf_get hnd hb] at hi
        cases hi
        exact hit rfl
      rw [update_of_ne hcb]
      exact hi.done i c (by omega) hc
  · rw [hw.view, hclean, hvalue]

/-- Once all blocks are installed, they are where they belong. -/
theorem Face.Installed.home {tail : Nat} {mode : Mode} (hi : s.face.Installed q tail)
    (h : s.face.Sim q mode) (hpinned : ∀ x, s.Dirty x ↔ x ∈ s.log.lh.drop tail)
    (htail : s.log.lh.length ≤ tail) :
    (LogState.face { s with log.lh := [] }).Home q := by
  refine ⟨rfl, ?_, ?_, hi.current⟩
  · intro b hd
    have hmem : b ∈ s.log.lh.drop tail := (hpinned b).mp hd
    rw [List.drop_eq_nil_of_le htail] at hmem
    cases hmem
  · intro b hb
    show s.disk b = q.durable b
    have hrec : s.layout.recovered s.disk b = q.durable b := h.durable b hb
    have hfits : s.layout.Fits (s.layout.logged s.disk) := h.onDisk.fits
    have hlogged : s.layout.logged s.disk = s.log.lh := hi.logged
    rw [← hrec]
    refine (Layout.recovered_eq_disk hfits ?_).symm
    intro i hget
    rw [hlogged] at hget
    have hilt := (List.getElem?_eq_some_iff.mp hget).1
    exact hi.done i b (by omega) hget

theorem sim_install_commit {tail : Nat} (h : s.face.Sim q (.commit (.install tail))) :
    (proceed s (.install tail)).1.face.Sim q (.commit (proceed s (.install tail)).2) := by
  obtain ⟨hcom, hout, hi, hpinned, hview⟩ := h.place
  have hpinned : ∀ x, s.Dirty x ↔ x ∈ s.log.lh.drop tail := hpinned
  unfold proceed
  dsimp only
  cases hb : s.log.lh[tail]? with
  | none =>
      have hhome := hi.home h hpinned (List.getElem?_eq_none_iff.mp hb)
      exact ⟨h.clean, h.onDisk, h.durable, Entries.nil h.size_pos, h.active, hcom, hout, hhome⟩
  | some b =>
      obtain ⟨htail, hget⟩ := List.getElem?_eq_some_iff.mp hb
      have hw := installRound_writes tail b s
      dsimp only
      generalize installRound tail b s = s' at hw
      have hone := hw.installsOne h hi
        (fun x hx => List.mem_of_mem_drop ((hpinned x).mp hx)) hb
      refine ⟨hw.clean h.clean, hone.onDisk, hone.durable, hone.inMemory, ?_, ?_, ?_,
        hone.installed, ?_, ?_⟩
      · show q.active = s'.log.outstanding
        rw [hw.log]
        exact h.active
      · show s'.log.committing = true
        rw [hw.log]
        exact hcom
      · show s'.log.outstanding = 0
        rw [hw.log]
        exact hout
      · intro x
        refine (hw.dirty x).trans ?_
        show s.Dirty x ∧ x ≠ b ↔ x ∈ s'.log.lh.drop (tail + 1)
        have hnd : (s.log.lh.drop tail).Nodup :=
          h.inMemory.fits.nodup.sublist (List.drop_sublist tail _)
        rw [hw.log, hpinned x]
        rw [List.drop_eq_getElem_cons htail, hget, List.nodup_cons] at hnd
        rw [List.drop_eq_getElem_cons htail, hget, List.mem_cons]
        constructor
        · rintro ⟨hx | hx, hne⟩
          · exact absurd hx hne
          · exact hx
        · intro hx
          exact ⟨Or.inr hx, ne_of_mem_of_not_mem hx hnd.1⟩
      · intro x hx
        have hx : s.layout.Home x := by rw [← hw.layout]; exact hx
        show s'.view x = q.current x
        rw [hone.view]
        by_cases hxb : x = b
        · subst hxb
          rw [update_self]
          exact (hi.current x hx).symm
        · rw [update_of_ne hxb]
          exact hview x hx

theorem sim_install_boot {tail : Nat} (h : s.face.Sim q (.boot (.install tail))) :
    (proceed s (.install tail)).1.face.Sim q (.boot (proceed s (.install tail)).2) := by
  obtain ⟨hcom, hout, hi, hpinned⟩ := h.place
  have hpinned : ∀ x, ¬ s.Dirty x := hpinned
  unfold proceed
  dsimp only
  cases hb : s.log.lh[tail]? with
  | none =>
      have htail := List.getElem?_eq_none_iff.mp hb
      have hhome := hi.home h (fun x => by
        rw [List.drop_eq_nil_of_le htail]
        exact iff_of_false (hpinned x) List.not_mem_nil) htail
      exact ⟨h.clean, h.onDisk, h.durable, Entries.nil h.size_pos, h.active, hcom, hout, hhome⟩
  | some b =>
      have hw := installRound_writes tail b s
      dsimp only
      generalize installRound tail b s = s' at hw
      have hone := hw.installsOne h hi (fun x hx => absurd hx (hpinned x)) hb
      refine ⟨hw.clean h.clean, hone.onDisk, hone.durable, hone.inMemory, ?_, ?_, ?_,
        hone.installed, ?_⟩
      · show q.active = s'.log.outstanding
        rw [hw.log]
        exact h.active
      · show s'.log.committing = false
        rw [hw.log]
        exact hcom
      · show s'.log.outstanding = 0
        rw [hw.log]
        exact hout
      · intro x hx
        exact hpinned x ((hw.dirty x).mp hx).1

/-- Clearing the header, with all blocks where they belong. -/
structure Clears (s s' : LogState) (q : Store Block) : Prop where
  clean : s'.Clean
  onDisk : Entries s'.layout (s'.layout.logged s'.disk)
  durable : ∀ x, s'.layout.Home x → s'.layout.recovered s'.disk x = q.durable x
  inMemory : Entries s'.layout s'.log.lh
  home : s'.face.Home q
  logged : s'.layout.logged s'.disk = []
  log : s'.log = s.log

theorem writeHead_clears {mode : Mode} (h : s.face.Sim q mode) (hhome : s.face.Home q) :
    Clears s (writeHead s) q := by
  have hw := writeHead_writes s
  have hlh : s.log.lh = [] := hhome.lh
  have hheader : s.layout.header (putHeader s.log.lh (s.view s.log.start)) = [] := by
    rw [hlh]
    exact header_putHeader _ (by decide) (by simp)
  generalize putHeader s.log.lh (s.view s.log.start) = hb at hw hheader
  generalize writeHead s = s' at hw
  have hlogged : s'.layout.logged s'.disk = [] := by
    rw [hw.layout, Layout.logged, hw.disk, show s.layout.start = s.log.start from rfl, update_self,
      hheader]
  have hne : ∀ x, s'.layout.Home x → s'.disk x = s.disk x := by
    intro x hx
    rw [hw.layout] at hx
    have hstart : x ≠ s.log.start := hx.ne_start h.size_pos
    rw [hw.disk, update_of_ne hstart]
  have hdisk : ∀ x, s'.layout.Home x → s'.disk x = q.durable x := by
    intro x hx
    rw [hne x hx]
    exact hhome.disk x (by rw [hw.layout] at hx; exact hx)
  have hempty : Entries s'.layout [] := by
    rw [hw.layout]
    exact Entries.nil h.size_pos
  refine ⟨hw.clean h.clean, by rw [hlogged]; exact hempty, ?_, ?_, ⟨?_, ?_, hdisk, ?_⟩, hlogged,
    hw.log⟩
  · intro x hx
    rw [Layout.recovered_not_mem (by rw [hlogged]; simp)]
    exact hdisk x hx
  · rw [hw.log, hlh]
    exact hempty
  · show s'.log.lh = []
    rw [hw.log]
    exact hlh
  · intro x hx
    exact hhome.pinned x ((hw.dirty x).mp hx).1
  · intro x hx
    have hx : s.layout.Home x := by rw [← hw.layout]; exact hx
    exact hhome.current x hx

theorem sim_clear_commit (h : s.face.Sim q (.commit .clear)) :
    (proceed s .clear).1.face.Sim q (.commit (proceed s .clear).2) := by
  obtain ⟨hcom, hout, hhome⟩ := h.place
  have hc := writeHead_clears h hhome
  unfold proceed
  generalize writeHead s = s' at hc
  refine ⟨hc.clean, hc.onDisk, hc.durable, hc.inMemory, ?_, ?_, ?_, hc.home, hc.logged⟩
  · show q.active = s'.log.outstanding
    rw [hc.log]
    exact h.active
  · show s'.log.committing = true
    rw [hc.log]
    exact hcom
  · show s'.log.outstanding = 0
    rw [hc.log]
    exact hout

theorem sim_clear_boot (h : s.face.Sim q (.boot .clear)) :
    (proceed s .clear).1.face.Sim q (.boot (proceed s .clear).2) := by
  obtain ⟨hcom, hout, hhome⟩ := h.place
  have hc := writeHead_clears h hhome
  unfold proceed
  generalize writeHead s = s' at hc
  refine ⟨hc.clean, hc.onDisk, hc.durable, hc.inMemory, ?_, ?_, ?_, hc.home, hc.logged⟩
  · show q.active = s'.log.outstanding
    rw [hc.log]
    exact h.active
  · show s'.log.committing = false
    rw [hc.log]
    exact hcom
  · show s'.log.outstanding = 0
    rw [hc.log]
    exact hout

theorem sim_readHead (h : s.face.Sim q (.boot .readHead)) :
    (proceed s .readHead).1.face.Sim q (.boot (proceed s .readHead).2) := by
  obtain ⟨hcom, hout, hlh, hpinned, hcurrent⟩ := h.place
  have hpinned : ∀ x, ¬ s.Dirty x := hpinned
  have hread : header (s.view s.log.start) = s.layout.logged s.disk := by
    rw [show s.view s.log.start = s.disk s.log.start from h.clean _ (hpinned _)]
    rfl
  have hstep : (proceed s .readHead).1 =
      { (bread s.log.start s).2 with log.lh := s.layout.logged s.disk } := by
    simp [proceed, readHead, hread]
  rw [hstep]
  have hface : LogState.face { (bread s.log.start s).2 with log.lh := s.layout.logged s.disk } =
      { s.face with log.lh := s.layout.logged s.disk } := by
    have hview := bread_view s.log.start s
    have hdirty := bread_dirty s.log.start s
    have hdisk := bread_disk s.log.start s
    have hlog := bread_log s.log.start s
    simp only [LogState.face, Face.mk.injEq]
    exact ⟨hdisk, hview, hdirty, by rw [hlog]⟩
  rw [hface]
  refine ⟨h.clean, h.onDisk, h.durable, h.onDisk, h.active, hcom, hout, ⟨rfl, hcurrent, ?_⟩, hpinned⟩
  intro i b hi
  exact absurd hi (Nat.not_lt_zero i)

/-- The log is open again. -/
theorem sim_finish (h : s.face.Home q) (hlogged : s.layout.logged s.disk = [])
    (hclean : ∀ b, ¬ s.Dirty b → s.view b = s.disk b) : s.face.Open q where
  logged := hlogged
  pinned := by
    intro b
    have hlh : s.log.lh = [] := h.lh
    show s.Dirty b ↔ b ∈ s.log.lh
    rw [hlh]
    exact iff_of_false (h.pinned b) List.not_mem_nil
  view := by
    intro b hb
    show s.view b = q.current b
    rw [hclean b (h.pinned b), h.current b hb]
    exact h.disk b hb

/-! ### Every step -/

/-- What the environment keeps to: calls write blocks outside the log. -/
def LogAllowed (s : LogState) : LogAction → Prop
  | .write b _ => s.layout.Home b ∧ b < 4294967296
  | _ => True

/-- The event of `Redo.Store` that an action is: the commit is the first `write_head`. -/
def logEvent : LogAction → Option (Event Block)
  | .beginOp => some .enter
  | .write b data => some (.write b data)
  | .endOp => some .leave
  | .proceed .writeHead => some .commit
  | .crash => some .crash
  | _ => none

theorem sim_proceed {s' : LogState} {stage : Stage} (h : s.face.Sim q s.mode)
    (hs : logStep s (.proceed stage) = some s') :
    ∃ q', s'.face.Sim q' s'.mode ∧
      Lts.Run Store.Step q (logEvent (.proceed stage)).toList q' := by
  simp only [logStep] at hs
  split at hs
  · rename_i hm
    rw [hm] at h
    split at hs
    · rename_i hfin
      subst hfin
      cases hs
      obtain ⟨-, -, hhome, hlogged⟩ := h.place
      have hopen := sim_finish hhome hlogged h.clean
      exact ⟨q, ⟨h.clean, h.onDisk, h.durable, h.inMemory, h.active, rfl,
        ⟨hopen.logged, hopen.pinned, hopen.view⟩, fun _ => hhome.lh⟩, .nil q⟩
    · rename_i hne
      cases hs
      cases stage with
      | readHead => exact absurd h.place.2.2 id
      | writeLog tail => exact ⟨q, sim_writeLog h, .nil q⟩
      | writeHead =>
          obtain ⟨hactive, hsim⟩ := sim_writeHead h
          exact ⟨_, hsim, .single (.commit hactive)⟩
      | install tail => exact ⟨q, sim_install_commit h, .nil q⟩
      | clear => exact ⟨q, sim_clear_commit h, .nil q⟩
      | finish => exact absurd rfl hne
  · split at hs
    · rename_i hm
      rw [hm] at h
      split at hs
      · rename_i hfin
        subst hfin
        cases hs
        obtain ⟨hcom, -, hhome, hlogged⟩ := h.place
        have hopen := sim_finish hhome hlogged h.clean
        exact ⟨q, ⟨h.clean, h.onDisk, h.durable, h.inMemory, h.active, hcom,
          ⟨hopen.logged, hopen.pinned, hopen.view⟩, fun _ => hhome.lh⟩, .nil q⟩
      · rename_i hne
        cases hs
        cases stage with
        | readHead => exact ⟨q, sim_readHead h, .nil q⟩
        | writeLog tail => exact absurd h.place.2.2 id
        | writeHead => exact absurd h.place.2.2 id
        | install tail => exact ⟨q, sim_install_boot h, .nil q⟩
        | clear => exact ⟨q, sim_clear_boot h, .nil q⟩
        | finish => exact absurd rfl hne
    · cases hs

/-- Each step is at most one event of the store. -/
theorem sim_step {s' : LogState} {a : LogAction} (h : s.face.Sim q s.mode)
    (hok : LogAllowed s a) (hs : logStep s a = some s') :
    ∃ q', s'.face.Sim q' s'.mode ∧ Lts.Run Store.Step q (logEvent a).toList q' := by
  cases a with
  | beginOp =>
      simp only [logStep] at hs
      split at hs
      · cases hs
      · rename_i hmode
        obtain ⟨hm, hsim⟩ := sim_beginOp h hs hmode
        exact ⟨_, hm.symm ▸ hsim, .single (.enter q)⟩
  | write b data =>
      simp only [logStep] at hs
      cases hw : logWrite b data s with
      | error p =>
          rw [hw] at hs
          cases hs
      | ok t =>
          rw [hw] at hs
          cases hs
          obtain ⟨hactive, hm, hsim⟩ := sim_write h hok.1 hok.2 hw
          exact ⟨_, hm.symm ▸ hsim, .single (.write b data hactive)⟩
  | endOp =>
      simp only [logStep] at hs
      split at hs
      · cases hs
      · rename_i hop
        cases he : endOp s with
        | error p =>
            rw [he] at hs
            cases hs
        | ok t =>
            rw [he] at hs
            cases hs
            obtain ⟨hactive, hsim⟩ := sim_endOp h hop he
            exact ⟨_, hsim, .single (.leave hactive)⟩
  | read b =>
      simp only [logStep] at hs
      split at hs
      · cases hs
      · cases hs
        exact ⟨q, by rw [bread_mode]; exact sim_read h b, .nil q⟩
  | recycle b =>
      simp only [logStep] at hs
      split at hs
      · rename_i buf hbuf
        split at hs
        · cases hs
        · rename_i hdirty
          cases hs
          exact ⟨q, sim_recycle h hbuf (by simpa using hdirty), .nil q⟩
      · cases hs
  | proceed stage => exact sim_proceed h hs
  | crash =>
      cases hs
      exact ⟨_, sim_crash h, .single (.crash q)⟩

/-! ## Crash safety -/

/-- A machine about to run `initlog`, on a disk whose log is well formed. -/
structure Booting (s : LogState) : Prop where
  mode : s.mode = .boot .readHead
  log : s.log.outstanding = 0 ∧ s.log.committing = false ∧ s.log.lh = []
  cache : s.cache = fun _ => none
  onDisk : Entries s.layout (s.layout.logged s.disk)

/-- The blocks of a booting machine, its log replayed. -/
def LogState.store (s : LogState) : Store Block :=
  ⟨s.layout.recovered s.disk, s.layout.recovered s.disk, 0⟩

theorem Booting.sim (h : Booting s) : s.face.Sim s.store s.mode := by
  have hdirty : ∀ b, ¬ s.Dirty b := by
    rintro b ⟨buf, hbuf, -⟩
    rw [h.cache] at hbuf
    cases hbuf
  have hclean : ∀ b, ¬ s.Dirty b → s.view b = s.disk b := by
    intro b _
    simp [LogState.view, h.cache]
  have hsize : 1 ≤ s.layout.size := by
    have hroom := h.onDisk.fits.room
    omega
  rw [h.mode]
  refine ⟨hclean, h.onDisk, fun _ _ => rfl, ?_, ?_, h.log.2.1, h.log.1, h.log.2.2, hdirty,
    fun _ _ => rfl⟩
  · show Entries s.layout s.log.lh
    rw [h.log.2.2]
    exact Entries.nil hsize
  · exact h.log.1.symm

theorem proceed_layout (s : LogState) (stage : Stage) : (proceed s stage).1.layout = s.layout := by
  cases stage with
  | readHead => simp [proceed, readHead, LogState.layout]
  | writeLog tail =>
      unfold proceed
      dsimp only
      cases s.log.lh[tail]? with
      | none => rfl
      | some b => exact (writeLogRound_writes tail b s).layout
  | writeHead => exact (writeHead_writes s).layout
  | install tail =>
      unfold proceed
      dsimp only
      cases s.log.lh[tail]? with
      | none => rfl
      | some b => exact (installRound_writes tail b s).layout
  | clear => exact (writeHead_writes s).layout
  | finish => rfl

/-- The log stays where it is. -/
theorem logStep_layout {s' : LogState} {a : LogAction} (hs : logStep s a = some s') :
    s'.layout = s.layout := by
  cases a with
  | beginOp =>
      simp only [logStep, beginOp] at hs
      split at hs
      · cases hs
      · split at hs
        · cases hs
        · split at hs <;> cases hs
          rfl
  | write b data =>
      simp only [logStep, logWrite] at hs
      split at hs
      · cases hs
      · split at hs <;> cases hs
        rfl
  | endOp =>
      simp only [logStep, endOp] at hs
      split at hs
      · cases hs
      · split at hs
        · cases hs
        · split at hs <;> cases hs <;> rfl
  | read b =>
      simp only [logStep] at hs
      split at hs <;> cases hs
      rw [LogState.layout, bread_log]
      rfl
  | recycle b =>
      simp only [logStep] at hs
      split at hs
      · split at hs <;> cases hs
        rfl
      · cases hs
  | proceed stage =>
      simp only [logStep] at hs
      split at hs
      · split at hs <;> cases hs
        · rfl
        · exact proceed_layout s stage
      · split at hs
        · split at hs <;> cases hs
          · rfl
          · exact proceed_layout s stage
        · cases hs
  | crash =>
      cases hs
      rfl

/-- The steps of the system, for an environment that keeps to its side. -/
abbrev LogRun : LogState → List LogAction → LogState → Prop :=
  Lts.Run (Lts.Guarded LogAllowed fun s a t => logStep s a = some t)

theorem LogRun.layout {as : List LogAction} {t : LogState} (hrun : LogRun s as t) :
    t.layout = s.layout := by
  induction hrun with
  | nil => rfl
  | snoc _ hs ih => rw [logStep_layout hs.2, ih]

/-- A run of the system is a run of the store. -/
theorem sim_run {as : List LogAction} {t : LogState} (h : s.face.Sim q s.mode)
    (hrun : LogRun s as t) :
    ∃ q', t.face.Sim q' t.mode ∧ Lts.Run Store.Step q (as.filterMap logEvent) q' :=
  Lts.Run.simulate (R := fun (s : LogState) q => s.face.Sim q s.mode)
    (fun _ _ _ _ hsim hs => sim_step hsim hs.1 hs.2) hrun h

/-- What `bread` returns, from the end of `initlog` on. -/
theorem Face.Sim.bread_eq (h : s.face.Sim q s.mode) (hmode : ∀ stage, s.mode ≠ .boot stage)
    {b : Nat} (hb : s.layout.Home b) : (bread b s).1 = q.current b := by
  have hhome : s.face.Home q → s.view b = q.current b := by
    intro hhome
    rw [show s.view b = s.disk b from h.clean b (hhome.pinned b), hhome.current b hb]
    exact hhome.disk b hb
  rw [bread_fst]
  have hplace := h.place
  cases hm : s.mode with
  | boot stage => exact absurd hm (hmode stage)
  | up =>
      rw [hm] at hplace
      exact hplace.2.1.view b hb
  | commit stage =>
      rw [hm] at hplace
      obtain ⟨-, -, hstage⟩ := hplace
      cases stage with
      | readHead => exact absurd hstage id
      | writeLog tail => exact hstage.1.view b hb
      | writeHead => exact hstage.1.view b hb
      | install tail => exact hstage.2.2 b hb
      | clear => exact hhome hstage
      | finish => exact hhome hstage.1

/-- While no call is in progress and none is being committed, all is on the disk. -/
theorem Face.Sim.disk_idle (h : s.face.Sim q s.mode) (hup : s.mode = .up)
    (hidle : s.log.outstanding = 0) {b : Nat} (hb : s.layout.Home b) :
    s.disk b = q.durable b ∧ q.current b = q.durable b := by
  have hplace := h.place
  rw [hup] at hplace
  have hhome := h.home hplace.2.1 (hplace.2.2 hidle)
  exact ⟨hhome.disk b hb, hhome.current b hb⟩

/-! ### `commit` and the recovery end -/

/-- The steps that `commit` or `initlog` has left, at most. -/
def stepsLeft (s : LogState) : Stage → Nat
  | .readHead => 4 + (s.layout.logged s.disk).length
  | .writeLog tail => 5 + s.log.lh.length + (s.log.lh.length - tail)
  | .writeHead => 4 + s.log.lh.length
  | .install tail => 3 + (s.log.lh.length - tail)
  | .clear => 2
  | .finish => 1

theorem proceed_less {stage : Stage} (hne : stage ≠ .finish)
    (hread : stage = .readHead → header (s.view s.log.start) = s.layout.logged s.disk) :
    stepsLeft (proceed s stage).1 (proceed s stage).2 < stepsLeft s stage := by
  cases stage with
  | readHead =>
      simp [proceed, readHead, stepsLeft, hread rfl]
  | writeLog tail =>
      unfold proceed
      dsimp only
      cases hb : s.log.lh[tail]? with
      | none =>
          have hle := List.getElem?_eq_none_iff.mp hb
          simp only [stepsLeft]
          omega
      | some b =>
          have hlt := (List.getElem?_eq_some_iff.mp hb).1
          simp only [stepsLeft, (writeLogRound_writes tail b s).log]
          omega
  | writeHead =>
      simp only [proceed, stepsLeft, (writeHead_writes s).log]
      omega
  | install tail =>
      unfold proceed
      dsimp only
      cases hb : s.log.lh[tail]? with
      | none =>
          simp only [stepsLeft]
          omega
      | some b =>
          have hlt := (List.getElem?_eq_some_iff.mp hb).1
          simp only [stepsLeft, (installRound_writes tail b s).log]
          omega
  | clear => simp only [proceed, stepsLeft]; omega
  | finish => exact absurd rfl hne

/-- `commit` and `initlog` run to their end, unless there is a crash. -/
theorem sim_ends : ∀ {n : Nat} {s : LogState} {q : Store Block} {stage : Stage},
    s.mode = .boot stage ∨ s.mode = .commit stage → s.face.Sim q s.mode → stepsLeft s stage ≤ n →
    ∃ (stages : List Stage) (t : LogState), stages.length ≤ n ∧
      LogRun s (stages.map .proceed) t ∧ t.mode = .up := by
  intro n
  induction n with
  | zero =>
      intro s q stage _ _ hn
      cases stage <;> simp only [stepsLeft] at hn <;> omega
  | succ n ih =>
      intro s q stage hm h hn
      by_cases hfin : stage = .finish
      · subst hfin
        have hstep : ∃ t, logStep s (.proceed .finish) = some t ∧ t.mode = .up := by
          rcases hm with hm | hm
          · exact ⟨{ s with mode := .up }, by simp [logStep, hm], rfl⟩
          · exact ⟨{ s with log.committing := false, mode := .up }, by simp [logStep, hm], rfl⟩
        obtain ⟨t, hs, hup⟩ := hstep
        exact ⟨[.finish], t, by simp, .single ⟨trivial, hs⟩, hup⟩
      · have hread : stage = .readHead →
            header (s.view s.log.start) = s.layout.logged s.disk := by
          rintro rfl
          rcases hm with hm | hm
          · rw [hm] at h
            rw [show s.view s.log.start = s.disk s.log.start from h.clean _ (h.place.2.2.2.1 _)]
            rfl
          · rw [hm] at h
            exact absurd h.place.2.2 id
        have hless := proceed_less hfin hread
        have hstep : ∃ t, logStep s (.proceed stage) = some t ∧
            (t.mode = .boot (proceed s stage).2 ∨ t.mode = .commit (proceed s stage).2) ∧
            stepsLeft t (proceed s stage).2 = stepsLeft (proceed s stage).1 (proceed s stage).2 := by
          rcases hm with hm | hm
          · exact ⟨{ (proceed s stage).1 with mode := .boot (proceed s stage).2 },
              by simp [logStep, hm, hfin], .inl rfl, rfl⟩
          · exact ⟨{ (proceed s stage).1 with mode := .commit (proceed s stage).2 },
              by simp [logStep, hm, hfin], .inr rfl, rfl⟩
        obtain ⟨u, hs, hm', hleft⟩ := hstep
        obtain ⟨q', hsim, -⟩ := sim_proceed h hs
        obtain ⟨stages, t, hlen, hrun, hup⟩ := ih hm' hsim (by omega)
        have hfirst : LogRun s [.proceed stage] u := .single ⟨trivial, hs⟩
        exact ⟨stage :: stages, t, by simpa using hlen, hfirst.append hrun, hup⟩

/-- **The log is a store of groups of writes.** In every state a run reaches, reads return what
the calls have written since the last crash undid what was not durable; what is on the disk
while no call is in progress is all of it; and `commit` and `initlog` always run to their end. -/
theorem log_refines_store {s₀ t : LogState} {as : List LogAction} (h : Booting s₀)
    (hrun : LogRun s₀ as t) :
    ∃ q, Lts.Run Store.Step s₀.store (as.filterMap logEvent) q ∧
      ((∀ stage, t.mode ≠ .boot stage) → ∀ b, s₀.layout.Home b → (bread b t).1 = q.current b) ∧
      (t.mode = .up → t.log.outstanding = 0 → ∀ b, s₀.layout.Home b →
        t.disk b = q.durable b ∧ q.current b = q.durable b) ∧
      (t.mode ≠ .up → ∃ (stages : List Stage) (u : LogState),
        LogRun t (stages.map .proceed) u ∧ u.mode = .up) := by
  obtain ⟨q, hsim, hevents⟩ := sim_run h.sim hrun
  rw [← LogRun.layout hrun]
  refine ⟨q, hevents, fun hmode b hb => hsim.bread_eq hmode hb,
    fun hup hidle b hb => hsim.disk_idle hup hidle hb, ?_⟩
  intro hmode
  have hstage : ∃ stage, t.mode = .boot stage ∨ t.mode = .commit stage := by
    cases hm : t.mode with
    | boot stage => exact ⟨stage, .inl rfl⟩
    | up => exact absurd hm hmode
    | commit stage => exact ⟨stage, .inr rfl⟩
  obtain ⟨stage, hm⟩ := hstage
  obtain ⟨stages, u, -, hrest, hup⟩ := sim_ends hm hsim (Nat.le_refl _)
  exact ⟨stages, u, hrest, hup⟩

/-- What happens between a crash and the end of the recovery: `initlog` proceeds, buffers are
recycled, and there may be more crashes. -/
def Recovers : LogAction → Prop
  | .proceed _ => True
  | .recycle _ => True
  | .crash => True
  | _ => False

/-- **Crash safety.** However a run is cut off, and however often the recovery is: once it
ends, every block holds what it held at some moment of the run when no call was in progress,
and there was no commit after that moment. -/
theorem crash_atomic {s₀ s t : LogState} {as bs : List LogAction} (h : Booting s₀)
    (hrun : LogRun s₀ as s) (hrecover : LogRun (crash s) bs t) (hbs : ∀ a ∈ bs, Recovers a)
    (hup : t.mode = .up) :
    ∃ es₁ es₂ q, as.filterMap logEvent = es₁ ++ es₂ ∧ Lts.Run Store.Step s₀.store es₁ q ∧
      q.active = 0 ∧ .commit ∉ es₂ ∧
      ∀ b, s₀.layout.Home b → t.disk b = q.current b ∧ (bread b t).1 = q.current b := by
  obtain ⟨q, hsim, hevents⟩ := sim_run h.sim hrun
  obtain ⟨es₁, es₂, q₁, hes, hrun₁, hactive, hcurrent, hlast⟩ :=
    Store.durable_quiescent ⟨rfl, rfl⟩ hevents
  refine ⟨es₁, es₂, q₁, hes, hrun₁, hactive, hlast, ?_⟩
  have hlayout : t.layout = s₀.layout :=
    ((LogRun.layout hrecover).trans (show (crash s).layout = s.layout from rfl)).trans
      (LogRun.layout hrun)
  rw [← hlayout]
  obtain ⟨q', hsim', hevents'⟩ := sim_run (sim_crash hsim) hrecover
  have hsilent : ∀ e ∈ bs.filterMap logEvent, e = .commit ∨ e = .crash := by
    intro e he
    obtain ⟨a, ha, hae⟩ := List.mem_filterMap.mp he
    have hrec := hbs a ha
    cases a with
    | proceed stage =>
        cases stage <;> simp only [logEvent, reduceCtorEq, Option.some.injEq] at hae
        exact .inl hae.symm
    | crash =>
        cases hae
        exact .inr rfl
    | beginOp | write | endOp | read => exact absurd hrec id
    | recycle => cases hae
  obtain ⟨hactive', hdurable, hcurrent'⟩ := Store.after_crash hsilent ⟨rfl, rfl⟩ hevents'
  have hidle : t.log.outstanding = 0 := by
    have hout : q'.active = t.log.outstanding := hsim'.active
    omega
  intro b hb
  have hdisk := hsim'.disk_idle hup hidle hb
  have hmode : ∀ stage, t.mode ≠ .boot stage := by
    intro stage hm
    rw [hup] at hm
    cases hm
  rw [hsim'.bread_eq hmode hb, hcurrent', hdisk.1, hdurable, hcurrent]
  exact ⟨rfl, rfl⟩

/-! ### A run that is cut off -/

instance (s : LogState) : DecidablePred (LogAllowed s)
  | .write b _ => inferInstanceAs (Decidable ((b < _ ∨ _ ≤ b) ∧ b < 4294967296))
  | .beginOp | .endOp | .read _ | .recycle _ | .proceed _ | .crash => .isTrue trivial

/-- The disk `mkfs` makes: the log begins at block 2 and is empty. -/
def freshDisk : LogState where
  disk := fun _ _ => 0
  cache := fun _ => none
  log := { start := 2, size := 30, outstanding := 0, committing := false, lh := [] }
  mode := .boot .readHead

theorem freshDisk_booting : Booting freshDisk where
  mode := rfl
  log := ⟨rfl, rfl, rfl⟩
  cache := rfl
  onDisk := by
    have hlogged : freshDisk.layout.logged freshDisk.disk = [] := by decide
    rw [hlogged]
    exact Entries.nil (by decide)

/-- A call writes block 40; its commit is cut off once the header is written. -/
def cutOff : List LogAction :=
  [.proceed .readHead, .proceed (.install 0), .proceed .clear, .proceed .finish, .beginOp,
    .write 40 (fun _ => 7), .endOp, .proceed (.writeLog 0), .proceed (.writeLog 1),
    .proceed .writeHead]

/-- The recovery after it is cut off once as well. -/
def replay : List LogAction :=
  [.proceed .readHead, .proceed (.install 0), .crash, .proceed .readHead, .proceed (.install 0),
    .proceed (.install 1), .proceed .clear, .proceed .finish]

/-- The system, for an environment that keeps to its side. -/
def logNext : LogState → LogAction → Option LogState :=
  fun s a => if LogAllowed s a then logStep s a else none

theorem LogRun.of_exec {as : List LogAction} {t : LogState} (h : Lts.exec logNext s as = some t) :
    LogRun s as t := by
  rw [show logNext = fun s a => if LogAllowed s a then logStep s a else none from rfl] at h
  exact Lts.Run.of_exec_guarded h

theorem exists_cutOff : ∃ s t, LogRun freshDisk cutOff s ∧ LogRun (crash s) replay t ∧
    t.mode = .up := by
  have hfirst : (Lts.exec logNext freshDisk cutOff).isSome = true := by decide +kernel
  obtain ⟨s, hs⟩ := Option.isSome_iff_exists.mp hfirst
  have hsecond : ((Lts.exec logNext freshDisk cutOff).bind fun s =>
      (Lts.exec logNext (crash s) replay).map LogState.mode) = some .up := by decide +kernel
  rw [hs, Option.bind_some] at hsecond
  obtain ⟨t, ht, hup⟩ := Option.map_eq_some_iff.mp hsecond
  exact ⟨s, t, LogRun.of_exec hs, LogRun.of_exec ht, hup⟩

theorem log_refines_store_cutOff : ∃ s q, LogRun freshDisk cutOff s ∧
    Lts.Run Store.Step freshDisk.store (cutOff.filterMap logEvent) q ∧
    ((∀ stage, s.mode ≠ .boot stage) → (bread 40 s).1 = q.current 40) := by
  obtain ⟨s, t, hrun, -, -⟩ := exists_cutOff
  obtain ⟨q, hevents, hread, -⟩ := log_refines_store freshDisk_booting hrun
  exact ⟨s, q, hrun, hevents, fun hmode => hread hmode 40 (.inr (by decide))⟩

theorem crash_atomic_cutOff : ∃ s t es₁ es₂ q, LogRun freshDisk cutOff s ∧
    LogRun (crash s) replay t ∧ cutOff.filterMap logEvent = es₁ ++ es₂ ∧ q.active = 0 ∧
    Lts.Run Store.Step freshDisk.store es₁ q ∧ t.disk 40 = q.current 40 := by
  obtain ⟨s, t, hrun, hrecover, hup⟩ := exists_cutOff
  have hbs : ∀ a ∈ replay, Recovers a := by
    simp [replay, Recovers]
  obtain ⟨es₁, es₂, q, hes, hq, hactive, -, hdisk⟩ :=
    crash_atomic freshDisk_booting hrun hrecover hbs hup
  exact ⟨s, t, es₁, es₂, q, hrun, hrecover, hes, hactive, hq, (hdisk 40 (.inr (by decide))).1⟩

end CS537.Xv6
