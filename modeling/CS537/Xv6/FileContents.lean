import CS537.Xv6.Blocks

/-!
# Contents of files

What a file holds, block by block, whatever blocks of the disk it is in: a write changes that
block of that file, `itrunc` empties one file, and a block that `bmap` adds is zero.
-/

namespace CS537.Xv6.Blocks

open Lts

/-- The contents of a block. -/
abbrev Bytes := Fin 128 → Nat

/-- The contents of the block at a place. -/
def Disk.content (d : Disk) (p : Place) : Option Bytes :=
  if d.block p = 0 then none else some (d.data (d.block p))

/-- The contents of the block `bn` of a file. -/
def Disk.contents (d : Disk) (ip bn : Nat) : Option Bytes := (place ip bn).bind d.content

variable {nmeta size : Nat} {d d' : Disk} {b : Nat} {p q : Place}

/-- A place of a file's contents, not of an indirect block. -/
def Place.Data (q : Place) : Prop := ∀ ip, q ≠ .addr ip indirect

theorem place_data {ip bn : Nat} (h : place ip bn = some p) : p.Data := fun _ =>
  place_ne_indirect h

theorem place_inj {ip bn ip' bn' : Nat} (h : place ip bn = some p) (h' : place ip' bn' = some p) :
    ip = ip' ∧ bn = bn' := by
  unfold place at h h'
  split at h
  · split at h'
    · cases h
      cases h'
      exact ⟨rfl, rfl⟩
    · split at h'
      · cases h
        cases h'
      · cases h'
  · split at h
    · split at h'
      · cases h
        cases h'
      · split at h'
        · cases h
          simp only [Option.some.injEq, Place.entry.injEq, Fin.mk.injEq] at h'
          omega
        · cases h'
    · cases h

/-- A free block is put at a place: it is zero there, and the other contents stay. -/
theorem Sound.content_put (hs : Sound nmeta size d) (hfree : d.bitmap b = false) (hb : b ≠ 0)
    (hblock : d'.block = Function.update d.block p b)
    (hdata : ∀ c, (∀ ip, d.addrs ip indirect ≠ 0 → c ≠ d.addrs ip indirect) →
      d'.data c = (d.taken b).data c) (hq : q.Data) :
    d'.content q = if q = p then some fun _ => 0 else d.content q := by
  have hnot : ∀ r, d.block r ≠ 0 → d.block r ≠ b := fun r hr heq => by
    have hused := hs.bitmap_block hr
    rw [heq, hfree] at hused
    cases hused
  unfold Disk.content
  rw [hblock]
  by_cases hqp : q = p
  · rw [if_pos hqp, hqp, Function.update_self, if_neg hb, hdata b]
    · exact congrArg some (Function.update_self b _ d.data)
    · exact fun ip hip heq => hnot (.addr ip indirect) hip heq.symm
  · rw [if_neg hqp, Function.update_of_ne hqp]
    split
    · rfl
    · rename_i h0
      rw [hdata]
      · exact congrArg some (Function.update_of_ne (hnot q h0) _ d.data)
      · exact fun ip _ heq => hq ip (hs.apart q (.addr ip indirect) heq h0)

theorem Sound.content_loadAddr (hs : Sound nmeta size d) (hmeta : 0 < nmeta) {ip : Nat}
    {i : Fin 13} (h : Blocks.loadAddr size d ip i = some (b, d')) (hq : q.Data) :
    d'.content q =
      if q = .addr ip i then some ((d.content q).getD fun _ => 0) else d.content q := by
  unfold Blocks.loadAddr at h
  split at h
  · rename_i h0
    obtain ⟨⟨c, d₁⟩, halloc, heq⟩ := Option.map_eq_some_iff.mp h
    cases heq
    obtain ⟨hc, hfree, rfl⟩ := balloc_some halloc
    have hput := hs.content_put hfree (hs.free_ne hmeta hc hfree)
      (hs.block_putAddr hfree h0) (fun c _ => rfl) hq
    rw [hput]
    by_cases hqp : q = .addr ip i
    · have hnone : d.content q = none := by
        rw [hqp]
        exact if_pos h0
      rw [if_pos hqp, if_pos hqp, hnone]
      rfl
    · rw [if_neg hqp, if_neg hqp]
  · rename_i h0
    cases h
    by_cases hqp : q = .addr ip i
    · have hsome : d.content q = some (d.data (d.block q)) := by
        rw [hqp]
        exact if_neg h0
      rw [if_pos hqp, hsome]
      rfl
    · rw [if_neg hqp]

/-- `bmap` gives the block zeros, if it had none, and changes no other contents. -/
theorem Sound.content_bmap (hs : Sound nmeta size d) (hmeta : 0 < nmeta) {ip bn : Nat}
    (h : Blocks.bmap size d ip bn = some (b, d')) (hp : place ip bn = some p) (hq : q.Data) :
    d'.content q = if q = p then some ((d.content q).getD fun _ => 0) else d.content q := by
  unfold Blocks.bmap at h
  unfold place at hp
  split at h
  · rename_i hdirect
    rw [dif_pos hdirect] at hp
    cases hp
    exact hs.content_loadAddr hmeta h hq
  · rename_i hdirect
    rw [dif_neg hdirect] at hp
    split at h
    · rename_i hentry
      rw [dif_pos hentry] at hp
      cases hp
      obtain ⟨⟨ind, d₁⟩, hload, hrest⟩ := Option.bind_eq_some_iff.mp h
      obtain ⟨hs₁, hind, hne⟩ := hs.loadAddr hmeta hload
      have hsame : d₁.content q = d.content q := by
        rw [hs.content_loadAddr hmeta hload hq, if_neg (hq ip)]
      subst hind
      dsimp only at hrest
      rw [← hsame]
      split at hrest
      · rename_i h0
        obtain ⟨⟨c, d₂⟩, halloc, heq⟩ := Option.map_eq_some_iff.mp hrest
        cases heq
        obtain ⟨hc, hfree, rfl⟩ := balloc_some halloc
        have hzero : d₁.block (.entry ip ⟨bn - 12, hentry⟩) = 0 := by
          rw [Disk.block, if_neg hne, h0]
        have hput := hs₁.content_put (p := .entry ip ⟨bn - 12, hentry⟩) hfree
          (hs₁.free_ne hmeta hc hfree) (hs₁.block_putEntry hfree hne)
          (fun c hc => Function.update_of_ne (hc ip hne) _ _) hq
        rw [hput]
        by_cases hqp : q = .entry ip ⟨bn - 12, hentry⟩
        · have hnone : d₁.content q = none := by
            rw [hqp]
            exact if_pos hzero
          rw [if_pos hqp, if_pos hqp, hnone]
          rfl
        · rw [if_neg hqp, if_neg hqp]
      · rename_i h0
        cases hrest
        by_cases hqp : q = .entry ip ⟨bn - 12, hentry⟩
        · have hblock : d'.block q ≠ 0 := by
            rw [hqp, Disk.block, if_neg hne]
            exact h0
          have hsome : d'.content q = some (d'.data (d'.block q)) := if_neg hblock
          rw [if_pos hqp, hsome]
          rfl
        · rw [if_neg hqp]
    · cases h

/-! ## Runs -/

/-- The files, each a map from block numbers to contents, under the same calls. -/
inductive FileStep : (Nat → Nat → Option Bytes) → Call → (Nat → Nat → Option Bytes) → Prop
  | bmap {m : Nat → Nat → Option Bytes} {ip bn b : Nat} :
      FileStep m (.bmap ip bn b)
        (Function.update m ip (Function.update (m ip) bn (some ((m ip bn).getD fun _ => 0))))
  | write {m : Nat → Nat → Option Bytes} {ip bn : Nat} {bytes : Bytes} :
      FileStep m (.write ip bn bytes)
        (Function.update m ip (Function.update (m ip) bn (some bytes)))
  | itrunc {m : Nat → Nat → Option Bytes} {ip : Nat} :
      FileStep m (.itrunc ip) (Function.update m ip fun _ => none)

/-- The contents of one block of one file are replaced. -/
theorem contents_update {ip bn : Nat} {v : Option Bytes} (hp : place ip bn = some p)
    (hcontent : ∀ q, q.Data → d'.content q = if q = p then v else d.content q) :
    d'.contents = Function.update d.contents ip (Function.update (d.contents ip) bn v) := by
  funext ip' bn'
  unfold Disk.contents
  cases hq : place ip' bn' with
  | none =>
      have hne : ¬ (ip' = ip ∧ bn' = bn) := by
        rintro ⟨rfl, rfl⟩
        rw [hp] at hq
        cases hq
      by_cases hip : ip' = ip
      · subst hip
        rw [Function.update_self, Function.update_of_ne fun h => hne ⟨rfl, h⟩, hq]
        rfl
      · rw [Function.update_of_ne hip, hq]
        rfl
  | some q =>
      rw [Option.bind_some, hcontent q (place_data hq)]
      by_cases hqp : q = p
      · obtain ⟨rfl, rfl⟩ := place_inj (hqp ▸ hq) hp
        rw [if_pos hqp, Function.update_self, Function.update_self]
      · rw [if_neg hqp]
        by_cases hip : ip' = ip
        · subst hip
          have hbn : bn' ≠ bn := by
            rintro rfl
            rw [hp] at hq
            cases hq
            exact hqp rfl
          rw [Function.update_self, Function.update_of_ne hbn, hq, Option.bind_some]
        · rw [Function.update_of_ne hip, hq, Option.bind_some]

theorem Sound.fileStep (hs : Sound nmeta size d) (hmeta : 0 < nmeta) {c : Call}
    (hstep : Step size d c d') : FileStep d.contents c d'.contents := by
  cases hstep with
  | @bmap _ ip bn b h =>
      obtain ⟨-, -, p, hp, -⟩ := hs.bmap hmeta h
      have hsame : d.contents ip bn = d.content p := by
        rw [Disk.contents, hp, Option.bind_some]
      have hnew : d'.contents = Function.update d.contents ip
          (Function.update (d.contents ip) bn (some ((d.contents ip bn).getD fun _ => 0))) := by
        rw [hsame]
        refine contents_update hp fun q hq => ?_
        rw [hs.content_bmap hmeta h hp hq]
        split
        · rename_i hqp
          rw [hqp]
        · rfl
      rw [hnew]
      exact .bmap
  | @write d₁ ip bn b bytes h =>
      obtain ⟨hs₁, hb, p, hp, rfl⟩ := hs.bmap hmeta h
      have hblock := hs₁.block_written hp hb bytes
      have hnew : Disk.contents { d₁ with data := Function.update d₁.data (d₁.block p) bytes } =
          Function.update d.contents ip (Function.update (d.contents ip) bn (some bytes)) := by
        refine contents_update hp fun q hq => ?_
        unfold Disk.content
        rw [hblock]
        by_cases hqp : q = p
        · rw [if_pos hqp, hqp, if_neg hb]
          exact congrArg some (Function.update_self _ _ _)
        · have hold := hs.content_bmap hmeta h hp hq
          rw [if_neg hqp] at hold
          unfold Disk.content at hold
          rw [if_neg hqp, ← hold]
          split
          · rfl
          · rename_i h0
            refine congrArg some (Function.update_of_ne ?_ _ _)
            exact fun heq => hqp (hs₁.apart q p heq h0)
      rw [hnew]
      exact .write
  | @itrunc _ ip h =>
      obtain ⟨d₁, htrunc, -, hdata, hblock⟩ := hs.itrunc ip
      rw [htrunc] at h
      cases h
      have hnew : d'.contents = Function.update d.contents ip fun _ => none := by
        funext ip' bn
        rw [Disk.contents]
        cases hq : place ip' bn with
        | none =>
            by_cases hip : ip' = ip
            · rw [hip, Function.update_self]
              rfl
            · rw [Function.update_of_ne hip, Disk.contents, hq]
              rfl
        | some q =>
            rw [Option.bind_some, Disk.content, hblock, place_inode hq, hdata]
            by_cases hip : ip' = ip
            · rw [if_pos hip, hip, Function.update_self]
              exact if_pos rfl
            · rw [if_neg hip, Function.update_of_ne hip, Disk.contents, hq]
              rfl
      rw [hnew]
      exact .itrunc

/-- **Files do not share**: in any run the contents of all files are those that maps would have,
one for each file. -/
theorem files_apart (hmeta : 0 < nmeta) {as : List Call}
    (hrun : Run (Step size) (emptyDisk nmeta) as d) :
    Run FileStep (fun _ _ => none) as d.contents := by
  have hsound : ∀ {as d}, Run (Step size) (emptyDisk nmeta) as d → Sound nmeta size d :=
    fun hrun => hrun.invariant (fun _ _ _ hs hstep => hs.step hmeta hstep)
      (emptyDisk_sound nmeta size)
  induction hrun with
  | nil =>
      have hnone : (emptyDisk nmeta).contents = fun _ _ => none := by
        funext ip bn
        rw [Disk.contents]
        cases place ip bn with
        | none => rfl
        | some p => exact if_pos (emptyDisk_block p)
      rw [hnone]
      exact .nil _
  | snoc hrun hstep ih => exact ih.snoc ((hsound hrun).fileStep hmeta hstep)

theorem files_apart_indirect : ∃ d : Disk, d.block (.entry 7 0) = 4 ∧
    Run FileStep (fun _ _ => none) [.bmap 7 12 4] d.contents := by
  obtain ⟨d, hrun, hblock⟩ := emptyDisk_run
  exact ⟨d, hblock, files_apart (by decide) hrun⟩

end CS537.Xv6.Blocks
