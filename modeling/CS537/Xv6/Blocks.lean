import CS537.Lib.Lts
import Mathlib.Data.List.FinRange
import Mathlib.Logic.Function.Basic

/-!
# Blocks of files

`balloc`, `bfree`, `bmap` and `itrunc` of `fs.c`: the free map, the addresses in the inodes and
in the indirect blocks. A block never has two places, the free map has just the blocks that
have a place and the metadata, and `itrunc` frees no free block.
-/

namespace CS537.Xv6.Blocks

open Lts

/-- The free map (whether a block is in use), the blocks as `uint`s, and the `addrs` of the
inodes, the last for the indirect block. -/
structure Disk where
  bitmap : Nat → Bool
  data : Nat → Fin 128 → Nat
  addrs : Nat → Fin 13 → Nat

namespace Disk

/-- `ip->addrs[i] = b`. -/
def setAddr (d : Disk) (ip : Nat) (i : Fin 13) (b : Nat) : Disk :=
  { d with addrs := Function.update d.addrs ip (Function.update (d.addrs ip) i b) }

/-- `a[j] = b`, in the block `bp`. -/
def setData (d : Disk) (bp : Nat) (j : Fin 128) (b : Nat) : Disk :=
  { d with data := Function.update d.data bp (Function.update (d.data bp) j b) }

end Disk

/-- `addrs[NDIRECT]`. -/
def indirect : Fin 13 := Fin.last 12

/-- `balloc`, of a disk of `size` blocks; a panic is none. -/
def balloc (size : Nat) (d : Disk) : Option (Nat × Disk) :=
  ((List.range size).find? fun b => !d.bitmap b).map fun b =>
    (b, { d with bitmap := Function.update d.bitmap b true,
                 data := Function.update d.data b fun _ => 0 })

/-- `bfree`; a panic is none. -/
def bfree (d : Disk) (b : Nat) : Option Disk :=
  if d.bitmap b = false then none
  else some { d with bitmap := Function.update d.bitmap b false }

/-- A block for `ip->addrs[i]`, if there is none. -/
def loadAddr (size : Nat) (d : Disk) (ip : Nat) (i : Fin 13) : Option (Nat × Disk) :=
  if d.addrs ip i = 0 then (balloc size d).map fun r => (r.1, r.2.setAddr ip i r.1)
  else some (d.addrs ip i, d)

/-- `bmap`. -/
def bmap (size : Nat) (d : Disk) (ip bn : Nat) : Option (Nat × Disk) :=
  if hdirect : bn < 12 then loadAddr size d ip ⟨bn, Nat.lt_succ_of_lt hdirect⟩
  else if hentry : bn - 12 < 128 then
    (loadAddr size d ip indirect).bind fun r =>
      let j : Fin 128 := ⟨bn - 12, hentry⟩
      if r.2.data r.1 j = 0 then
        (balloc size r.2).map fun r' => (r'.1, r'.2.setData r.1 j r'.1)
      else some (r.2.data r.1 j, r.2)
  else none

/-- The first loop of `itrunc`. -/
def freeDirect (ip : Nat) : List (Fin 12) → Disk → Option Disk
  | [], d => some d
  | i :: l, d =>
      if d.addrs ip i.castSucc = 0 then freeDirect ip l d
      else (bfree d (d.addrs ip i.castSucc)).bind fun d =>
        freeDirect ip l (d.setAddr ip i.castSucc 0)

/-- The second loop of `itrunc`, over the entries of the indirect block. -/
def freeEntries (bp : Nat) : List (Fin 128) → Disk → Option Disk
  | [], d => some d
  | j :: l, d =>
      if d.data bp j = 0 then freeEntries bp l d
      else (bfree d (d.data bp j)).bind (freeEntries bp l)

/-- `itrunc`. -/
def itrunc (d : Disk) (ip : Nat) : Option Disk :=
  (freeDirect ip (List.finRange 12) d).bind fun d =>
    if d.addrs ip indirect = 0 then some d
    else (freeEntries (d.addrs ip indirect) (List.finRange 128) d).bind fun d =>
      (bfree d (d.addrs ip indirect)).map fun d => d.setAddr ip indirect 0

/-! ## Places -/

/-- Where a block's address can be. -/
inductive Place where
  | addr (ip : Nat) (i : Fin 13)
  | entry (ip : Nat) (j : Fin 128)
  deriving DecidableEq

namespace Place

/-- The inode of the place. -/
def inode : Place → Nat
  | addr ip _ => ip
  | entry ip _ => ip

end Place

/-- The block at a place, or 0. -/
def Disk.block (d : Disk) : Place → Nat
  | .addr ip i => d.addrs ip i
  | .entry ip j => if d.addrs ip indirect = 0 then 0 else d.data (d.addrs ip indirect) j

/-- Where the first `nmeta` blocks are the file system's own. -/
structure Sound (nmeta size : Nat) (d : Disk) : Prop where
  apart : ∀ p q, d.block p = d.block q → d.block p ≠ 0 → p = q
  range : ∀ p, d.block p ≠ 0 → nmeta ≤ d.block p ∧ d.block p < size
  used : ∀ b, b < size → (d.bitmap b = true ↔ b < nmeta ∨ b ≠ 0 ∧ ∃ p, d.block p = b)

variable {nmeta size : Nat} {d d' : Disk} {b : Nat} {p : Place}

/-- A free block is put at a place that has none. -/
theorem Sound.put (hs : Sound nmeta size d) (hmeta : 0 < nmeta) (hb : b < size)
    (hfree : d.bitmap b = false) (hp : d.block p = 0)
    (hbitmap : d'.bitmap = Function.update d.bitmap b true)
    (hblock : d'.block = Function.update d.block p b) : Sound nmeta size d' := by
  have hnot : ¬ (b < nmeta ∨ b ≠ 0 ∧ ∃ q, d.block q = b) := by
    rw [← hs.used b hb, hfree]
    exact Bool.false_ne_true
  rw [not_or, not_and, Nat.not_lt] at hnot
  have hb0 : b ≠ 0 := by omega
  have hnew : ∀ q, d.block q ≠ b := fun q hq => hnot.2 hb0 ⟨q, hq⟩
  refine ⟨fun q r hqr hq => ?_, fun q hq => ?_, fun c hc => ?_⟩
  · rw [hblock] at hqr hq
    by_cases hqp : q = p
    · by_cases hrp : r = p
      · rw [hqp, hrp]
      · rw [hqp, Function.update_self, Function.update_of_ne hrp] at hqr
        exact absurd hqr.symm (hnew r)
    · rw [Function.update_of_ne hqp] at hqr hq
      by_cases hrp : r = p
      · rw [hrp, Function.update_self] at hqr
        exact absurd hqr (hnew q)
      · rw [Function.update_of_ne hrp] at hqr
        exact hs.apart q r hqr hq
  · rw [hblock] at hq ⊢
    by_cases hqp : q = p
    · rw [hqp, Function.update_self]
      exact ⟨hnot.1, hb⟩
    · rw [Function.update_of_ne hqp] at hq ⊢
      exact hs.range q hq
  · rw [hbitmap, hblock]
    by_cases hcb : c = b
    · subst hcb
      rw [Function.update_self]
      exact iff_of_true rfl (.inr ⟨hb0, p, Function.update_self p c d.block⟩)
    · rw [Function.update_of_ne hcb, hs.used c hc]
      refine or_congr Iff.rfl (and_congr_right fun hc0 => ⟨fun hex => ?_, fun hex => ?_⟩)
      · obtain ⟨q, hq⟩ := hex
        refine ⟨q, ?_⟩
        rw [Function.update_of_ne, hq]
        rintro rfl
        exact hc0 (hq.symm.trans hp)
      · obtain ⟨q, hq⟩ := hex
        refine ⟨q, ?_⟩
        rwa [Function.update_of_ne] at hq
        rintro rfl
        rw [Function.update_self] at hq
        exact hcb hq.symm

/-- The blocks of some places are freed. -/
theorem Sound.drop (hs : Sound nmeta size d) (P : Place → Prop)
    (hbitmap : ∀ c, d'.bitmap c = true ↔
      d.bitmap c = true ∧ ∀ q, P q → d.block q = c → c = 0)
    (hgone : ∀ q, P q → d'.block q = 0) (hkept : ∀ q, ¬ P q → d'.block q = d.block q) :
    Sound nmeta size d' := by
  have hsub : ∀ q, d'.block q ≠ 0 → ¬ P q ∧ d'.block q = d.block q := fun q hq =>
    have hP : ¬ P q := fun hP => hq (hgone q hP)
    ⟨hP, hkept q hP⟩
  refine ⟨fun q r hqr hq => ?_, fun q hq => ?_, fun c hc => ?_⟩
  · have hr := hsub r (hqr ▸ hq)
    have hq' := hsub q hq
    rw [hq'.2] at hqr hq
    exact hs.apart q r (hqr.trans hr.2) hq
  · have hq' := hsub q hq
    rw [hq'.2] at hq ⊢
    exact hs.range q hq
  · rw [hbitmap, hs.used c hc]
    constructor
    · rintro ⟨hor, hno⟩
      refine hor.imp id fun hex => ?_
      obtain ⟨hc0, q, hq⟩ := hex
      have hP : ¬ P q := fun hP => hc0 (hno q hP hq)
      exact ⟨hc0, q, (hkept q hP).trans hq⟩
    · rintro (hlt | ⟨hc0, q, hq⟩)
      · refine ⟨.inl hlt, fun q _ hq => ?_⟩
        by_contra hc0
        have hge := (hs.range q (by rw [hq]; exact hc0)).1
        omega
      · have hq' := hsub q (by rw [hq]; exact hc0)
        refine ⟨.inr ⟨hc0, q, hq'.2 ▸ hq⟩, fun r hr hrc => ?_⟩
        have hsame := hs.apart q r ((hq'.2.symm.trans hq).trans hrc.symm)
          (by rw [← hq'.2, hq]; exact hc0)
        exact absurd (hsame ▸ hr) hq'.1

/-! ## Allocating -/

theorem Sound.bitmap_block (hs : Sound nmeta size d) (hp : d.block p ≠ 0) :
    d.bitmap (d.block p) = true :=
  (hs.used _ (hs.range p hp).2).mpr (.inr ⟨hp, p, rfl⟩)

theorem setAddr_addrs (d : Disk) (ip ip' : Nat) (i i' : Fin 13) (b : Nat) :
    (d.setAddr ip i b).addrs ip' i' = if ip' = ip ∧ i' = i then b else d.addrs ip' i' := by
  unfold Disk.setAddr
  dsimp only
  by_cases hip : ip' = ip
  · subst hip
    rw [Function.update_self]
    by_cases hi : i' = i
    · rw [hi, Function.update_self, if_pos ⟨rfl, rfl⟩]
    · rw [Function.update_of_ne hi, if_neg fun h => hi h.2]
  · rw [Function.update_of_ne hip, if_neg fun h => hip h.1]

theorem setData_data (d : Disk) (bp bp' : Nat) (j j' : Fin 128) (b : Nat) :
    (d.setData bp j b).data bp' j' = if bp' = bp ∧ j' = j then b else d.data bp' j' := by
  unfold Disk.setData
  dsimp only
  by_cases hbp : bp' = bp
  · subst hbp
    rw [Function.update_self]
    by_cases hj : j' = j
    · rw [hj, Function.update_self, if_pos ⟨rfl, rfl⟩]
    · rw [Function.update_of_ne hj, if_neg fun h => hj h.2]
  · rw [Function.update_of_ne hbp, if_neg fun h => hbp h.1]

/-- Block 0 is never free. -/
theorem Sound.free_ne (hs : Sound nmeta size d) (hmeta : 0 < nmeta) (hb : b < size)
    (hfree : d.bitmap b = false) : b ≠ 0 := by
  rintro rfl
  rw [(hs.used 0 hb).mpr (.inl hmeta)] at hfree
  cases hfree

/-- The disk after a block was marked and zeroed. -/
def Disk.taken (d : Disk) (b : Nat) : Disk :=
  { d with bitmap := Function.update d.bitmap b true,
           data := Function.update d.data b fun _ => 0 }

theorem balloc_some (h : balloc size d = some (b, d')) :
    b < size ∧ d.bitmap b = false ∧ d' = d.taken b := by
  obtain ⟨c, hfind, heq⟩ := Option.map_eq_some_iff.mp h
  cases heq
  refine ⟨List.mem_range.mp (List.mem_of_find?_eq_some hfind), ?_, rfl⟩
  simpa using List.find?_some hfind

/-- A free block is no indirect block, so zeroing it changes no place. -/
theorem Sound.block_taken (hs : Sound nmeta size d) (hfree : d.bitmap b = false) (p : Place) :
    (d.taken b).block p = d.block p := by
  cases p with
  | addr ip i => rfl
  | entry ip j =>
      change (if d.addrs ip indirect = 0 then 0
        else Function.update d.data b (fun _ => 0) (d.addrs ip indirect) j) = _
      rw [Disk.block]
      split
      · rfl
      · rename_i h0
        have hused := hs.bitmap_block (p := .addr ip indirect) h0
        rw [Function.update_of_ne]
        rintro heq
        rw [← heq, ← Disk.block, hused] at hfree
        cases hfree

theorem Sound.block_putAddr (hs : Sound nmeta size d) (hfree : d.bitmap b = false) {ip : Nat}
    {i : Fin 13} (h0 : d.addrs ip i = 0) :
    ((d.taken b).setAddr ip i b).block = Function.update d.block (.addr ip i) b := by
  funext q
  cases q with
  | addr ip' i' =>
      rw [Disk.block, setAddr_addrs]
      by_cases hq : ip' = ip ∧ i' = i
      · rw [if_pos hq, hq.1, hq.2, Function.update_self]
      · rw [if_neg hq, Function.update_of_ne]
        · rfl
        · rintro heq
          cases heq
          exact hq ⟨rfl, rfl⟩
  | entry ip' j =>
      rw [Function.update_of_ne (by simp), ← hs.block_taken hfree, Disk.block, Disk.block,
        setAddr_addrs]
      by_cases hq : ip' = ip ∧ indirect = i
      · have hold : (d.taken b).addrs ip' indirect = 0 := by rw [hq.1, hq.2]; exact h0
        have hzero : ((d.taken b).setAddr ip i b).data b j = 0 :=
          congrFun (Function.update_self b _ d.data) j
        rw [if_pos hq, if_pos hold, hzero, ite_self]
      · rw [if_neg hq]
        rfl

theorem Sound.putAddr (hs : Sound nmeta size d) (hmeta : 0 < nmeta) (hb : b < size)
    (hfree : d.bitmap b = false) {ip : Nat} {i : Fin 13} (h0 : d.addrs ip i = 0) :
    Sound nmeta size ((d.taken b).setAddr ip i b) :=
  hs.put hmeta hb hfree (p := .addr ip i) h0 rfl (hs.block_putAddr hfree h0)

theorem Sound.block_putEntry (hs : Sound nmeta size d) (hfree : d.bitmap b = false) {ip : Nat}
    {j : Fin 128} (hind : d.addrs ip indirect ≠ 0) :
    ((d.taken b).setData (d.addrs ip indirect) j b).block =
      Function.update d.block (.entry ip j) b := by
  funext q
  cases q with
  | addr ip' i' => rw [Function.update_of_ne (by simp)]; rfl
  | entry ip' j' =>
      have htaken := hs.block_taken hfree (.entry ip' j')
      rw [Disk.block] at htaken ⊢
      rw [setData_data]
      change (if d.addrs ip' indirect = 0 then 0 else _) = _
      change (if d.addrs ip' indirect = 0 then 0 else _) = _ at htaken
      by_cases hq : ip' = ip ∧ j' = j
      · obtain ⟨rfl, rfl⟩ := hq
        rw [Function.update_self, if_neg hind, if_pos ⟨rfl, rfl⟩]
      · rw [Function.update_of_ne, ← htaken]
        · split
          · rfl
          · rename_i hind'
            rw [if_neg]
            · rfl
            · rintro ⟨hsame, hj⟩
              have hplace := hs.apart (.addr ip' indirect) (.addr ip indirect) hsame hind'
              cases hplace
              exact hq ⟨rfl, hj⟩
        · rintro heq
          cases heq
          exact hq ⟨rfl, rfl⟩

theorem Sound.putEntry (hs : Sound nmeta size d) (hmeta : 0 < nmeta) (hb : b < size)
    (hfree : d.bitmap b = false) {ip : Nat} {j : Fin 128} (hind : d.addrs ip indirect ≠ 0)
    (h0 : d.data (d.addrs ip indirect) j = 0) :
    Sound nmeta size ((d.taken b).setData (d.addrs ip indirect) j b) := by
  have hp : d.block (.entry ip j) = 0 := by rw [Disk.block, if_neg hind, h0]
  exact hs.put hmeta hb hfree hp rfl (hs.block_putEntry hfree hind)

theorem Sound.loadAddr (hs : Sound nmeta size d) (hmeta : 0 < nmeta) {ip : Nat} {i : Fin 13}
    (h : loadAddr size d ip i = some (b, d')) :
    Sound nmeta size d' ∧ d'.addrs ip i = b ∧ b ≠ 0 := by
  unfold Blocks.loadAddr at h
  split at h
  · rename_i h0
    obtain ⟨⟨c, d₁⟩, halloc, heq⟩ := Option.map_eq_some_iff.mp h
    cases heq
    obtain ⟨hc, hfree, rfl⟩ := balloc_some halloc
    refine ⟨hs.putAddr hmeta hc hfree h0, ?_, hs.free_ne hmeta hc hfree⟩
    rw [setAddr_addrs, if_pos ⟨rfl, rfl⟩]
  · rename_i hne
    cases h
    exact ⟨hs, rfl, hne⟩

/-- The place of the block `bn` of a file. -/
def place (ip bn : Nat) : Option Place :=
  if hdirect : bn < 12 then some (.addr ip ⟨bn, Nat.lt_succ_of_lt hdirect⟩)
  else if hentry : bn - 12 < 128 then some (.entry ip ⟨bn - 12, hentry⟩)
  else none

/-- **`bmap`** returns the block at the place, which has one then. -/
theorem Sound.bmap (hs : Sound nmeta size d) (hmeta : 0 < nmeta) {ip bn : Nat}
    (h : bmap size d ip bn = some (b, d')) :
    Sound nmeta size d' ∧ b ≠ 0 ∧ ∃ p, place ip bn = some p ∧ d'.block p = b := by
  unfold Blocks.bmap at h
  unfold place
  split at h
  · rename_i hdirect
    obtain ⟨hs', hblock, hb⟩ := hs.loadAddr hmeta h
    rw [dif_pos hdirect]
    exact ⟨hs', hb, _, rfl, hblock⟩
  · rename_i hdirect
    rw [dif_neg hdirect]
    split at h
    · rename_i hentry
      rw [dif_pos hentry]
      obtain ⟨⟨ind, d₁⟩, hload, hrest⟩ := Option.bind_eq_some_iff.mp h
      obtain ⟨hs₁, hind, hne⟩ := hs.loadAddr hmeta hload
      subst hind
      dsimp only at hrest
      split at hrest
      · rename_i h0
        obtain ⟨⟨c, d₂⟩, halloc, heq⟩ := Option.map_eq_some_iff.mp hrest
        cases heq
        obtain ⟨hc, hfree, rfl⟩ := balloc_some halloc
        refine ⟨hs₁.putEntry hmeta hc hfree hne h0, hs₁.free_ne hmeta hc hfree, _, rfl, ?_⟩
        rw [Disk.block, setData_data]
        change (if d₁.addrs ip indirect = 0 then 0 else _) = _
        rw [if_neg hne]
        exact if_pos ⟨rfl, rfl⟩
      · rename_i hdata
        cases hrest
        refine ⟨hs₁, hdata, _, rfl, ?_⟩
        rw [Disk.block, if_neg hne]
    · cases h

/-! ## Freeing -/

theorem bfree_some (hb : d.bitmap b = true) :
    bfree d b = some { d with bitmap := Function.update d.bitmap b false } := by
  rw [bfree, hb]
  rfl

/-- One of the addresses in an inode is freed. -/
theorem Sound.dropAddr (hs : Sound nmeta size d) {ip : Nat} {i : Fin 12}
    (h0 : d.addrs ip i.castSucc ≠ 0) :
    Sound nmeta size (Disk.setAddr
      { d with bitmap := Function.update d.bitmap (d.addrs ip i.castSucc) false }
      ip i.castSucc 0) := by
  refine hs.drop (fun q => q = .addr ip i.castSucc) (fun c => ?_) (fun q hq => ?_)
    fun q hq => ?_
  · change Function.update d.bitmap (d.addrs ip i.castSucc) false c = true ↔ _
    by_cases hc : c = d.addrs ip i.castSucc
    · rw [hc, Function.update_self]
      refine iff_of_false Bool.false_ne_true fun h => h0 (h.2 _ rfl rfl)
    · rw [Function.update_of_ne hc]
      refine ⟨fun h => ⟨h, fun q hq hqc => ?_⟩, fun h => h.1⟩
      rw [hq] at hqc
      exact absurd hqc.symm hc
  · rw [hq, Disk.block, setAddr_addrs, if_pos ⟨rfl, rfl⟩]
  · cases q with
    | addr ip' i' =>
        rw [Disk.block, setAddr_addrs, if_neg]
        · rfl
        · rintro ⟨rfl, rfl⟩
          exact hq rfl
    | entry ip' j =>
        have hne : indirect ≠ i.castSucc := (Fin.castSucc_lt_last i).ne'
        have hother : ¬ (ip' = ip ∧ indirect = i.castSucc) := fun h => hne h.2
        rw [Disk.block, Disk.block, setAddr_addrs, if_neg hother]
        rfl

/-- One round of the first loop. -/
theorem Sound.freeDirect_cons (hs : Sound nmeta size d) (ip : Nat) (i : Fin 12)
    (l : List (Fin 12)) :
    ∃ d₁, freeDirect ip (i :: l) d = freeDirect ip l d₁ ∧ Sound nmeta size d₁ ∧
      d₁.data = d.data ∧ d₁.addrs ip i.castSucc = 0 ∧
      ∀ ip' i', ¬ (ip' = ip ∧ i' = i.castSucc) → d₁.addrs ip' i' = d.addrs ip' i' := by
  rw [freeDirect]
  by_cases h0 : d.addrs ip i.castSucc = 0
  · rw [if_pos h0]
    exact ⟨d, rfl, hs, rfl, h0, fun _ _ _ => rfl⟩
  · have hbit : d.bitmap (d.addrs ip i.castSucc) = true :=
      hs.bitmap_block (p := .addr ip i.castSucc) h0
    rw [if_neg h0, bfree_some hbit, Option.bind_some]
    refine ⟨_, rfl, hs.dropAddr h0, rfl, ?_, fun ip' i' hne => ?_⟩
    · rw [setAddr_addrs, if_pos ⟨rfl, rfl⟩]
    · rw [setAddr_addrs, if_neg hne]

theorem Sound.freeDirect (hs : Sound nmeta size d) (ip : Nat) (l : List (Fin 12)) :
    ∃ d', freeDirect ip l d = some d' ∧ Sound nmeta size d' ∧ d'.data = d.data ∧
      (∀ i ∈ l, d'.addrs ip i.castSucc = 0) ∧
      ∀ ip' i', (ip' = ip → ∀ i ∈ l, i' ≠ i.castSucc) → d'.addrs ip' i' = d.addrs ip' i' := by
  induction l generalizing d with
  | nil => exact ⟨d, rfl, hs, rfl, fun i hi => (by cases hi), fun ip' i' _ => rfl⟩
  | cons i l ih =>
      obtain ⟨d₁, hstep, hs₁, hdata₁, hzero, hkept₁⟩ := hs.freeDirect_cons ip i l
      obtain ⟨d', hfree, hs', hdata, hgone, hkept⟩ := ih hs₁
      refine ⟨d', hstep.trans hfree, hs', hdata.trans hdata₁, fun i' hi' => ?_,
        fun ip' i' hnot => ?_⟩
      · by_cases hin : i' ∈ l
        · exact hgone i' hin
        · obtain rfl : i' = i := (List.mem_cons.mp hi').resolve_right hin
          have hlater := hkept ip i'.castSucc fun _ k hk heq =>
            hin (Fin.castSucc_injective 12 heq ▸ hk)
          exact hlater.trans hzero
      · rw [hkept ip' i' fun hip k hk => hnot hip k (List.mem_cons_of_mem _ hk)]
        exact hkept₁ ip' i' fun h => hnot h.1 i List.mem_cons_self h.2

/-- The second loop frees what the entries name, which are in use and different. -/
theorem freeEntries_some {bp : Nat} (l : List (Fin 128)) (hl : l.Nodup)
    (hused : ∀ j ∈ l, d.data bp j ≠ 0 → d.bitmap (d.data bp j) = true)
    (hdiff : ∀ j ∈ l, ∀ k ∈ l, d.data bp j = d.data bp k → d.data bp j ≠ 0 → j = k) :
    ∃ bitmap, freeEntries bp l d = some { d with bitmap := bitmap } ∧
      ∀ c, bitmap c = true ↔ d.bitmap c = true ∧ ∀ j ∈ l, d.data bp j = c → c = 0 := by
  induction l generalizing d with
  | nil => exact ⟨d.bitmap, rfl, fun c => by simp⟩
  | cons j l ih =>
      obtain ⟨hj, hl⟩ := List.nodup_cons.mp hl
      have hin : ∀ k ∈ l, k ∈ j :: l := fun k hk => List.mem_cons_of_mem _ hk
      rw [freeEntries]
      by_cases h0 : d.data bp j = 0
      · rw [if_pos h0]
        obtain ⟨bitmap, hfree, hbitmap⟩ := ih hl (fun k hk => hused k (hin k hk))
          fun k hk k' hk' => hdiff k (hin k hk) k' (hin k' hk')
        refine ⟨bitmap, hfree, fun c => ?_⟩
        rw [hbitmap, List.forall_mem_cons]
        refine and_congr_right fun _ => ⟨fun h => ⟨fun hc => hc ▸ h0, h⟩, fun h => h.2⟩
      · have hbit := hused j List.mem_cons_self h0
        have hother : ∀ k ∈ l, d.data bp k ≠ d.data bp j := fun k hk heq => by
          have hkj := hdiff j List.mem_cons_self k (hin k hk) heq.symm h0
          exact hj (hkj ▸ hk)
        rw [if_neg h0, bfree_some hbit, Option.bind_some]
        obtain ⟨bitmap, hfree, hbitmap⟩ :=
          ih (d := { d with bitmap := Function.update d.bitmap (d.data bp j) false }) hl
            (fun k hk hk0 => by
              dsimp only
              rw [Function.update_of_ne (hother k hk)]
              exact hused k (hin k hk) hk0)
            fun k hk k' hk' => hdiff k (hin k hk) k' (hin k' hk')
        refine ⟨bitmap, hfree, fun c => ?_⟩
        rw [hbitmap, List.forall_mem_cons]
        dsimp only
        by_cases hc : c = d.data bp j
        · rw [hc, Function.update_self]
          exact iff_of_false (fun h => Bool.false_ne_true h.1) fun h => h0 (h.2.1 rfl)
        · rw [Function.update_of_ne hc]
          exact and_congr_right fun _ => ⟨fun h => ⟨fun heq => absurd heq.symm hc, h⟩, fun h => h.2⟩

/-- The blocks after the only address of an inode, that of its indirect block, is cleared. -/
theorem block_lastAddr {ip : Nat} (haddr : ∀ i, i ≠ indirect → d.addrs ip i = 0)
    (bitmap : Nat → Bool) (q : Place) :
    (Disk.setAddr { d with bitmap := bitmap } ip indirect 0).block q =
      if q.inode = ip then 0 else d.block q := by
  cases q with
  | addr ip' i =>
      rw [Disk.block, setAddr_addrs, Place.inode]
      by_cases hip : ip' = ip
      · rw [if_pos hip]
        split
        · rfl
        · rename_i hi
          rw [hip]
          exact haddr i fun h => hi ⟨hip, h⟩
      · rw [if_neg hip, if_neg fun h => hip h.1]
        rfl
  | entry ip' j =>
      rw [Disk.block, setAddr_addrs, Place.inode]
      by_cases hip : ip' = ip
      · rw [if_pos hip, if_pos (if_pos ⟨hip, rfl⟩)]
      · have hother : ¬ (ip' = ip ∧ indirect = indirect) := fun h => hip h.1
        rw [if_neg hip, if_neg hother]
        rfl

/-- The second part of `itrunc`: the entries of the indirect block are freed, then the block. -/
theorem Sound.freeIndirect (hs : Sound nmeta size d) {ip : Nat} (h0 : d.addrs ip indirect ≠ 0)
    (haddr : ∀ i, i ≠ indirect → d.addrs ip i = 0) :
    ∃ bitmap, freeEntries (d.addrs ip indirect) (List.finRange 128) d =
        some { d with bitmap := bitmap } ∧
      bitmap (d.addrs ip indirect) = true ∧
      Sound nmeta size (Disk.setAddr
        { d with bitmap := Function.update bitmap (d.addrs ip indirect) false }
        ip indirect 0) := by
  have hentry : ∀ j, d.block (.entry ip j) = d.data (d.addrs ip indirect) j := fun j => if_neg h0
  obtain ⟨bitmap, hfree, hbitmap⟩ := freeEntries_some (d := d) (List.finRange 128)
    (List.nodup_finRange 128)
    (fun j _ hj => by
      rw [← hentry] at hj ⊢
      exact hs.bitmap_block hj)
    (fun j _ k _ hjk hj => by
      rw [← hentry] at hj
      rw [← hentry, ← hentry] at hjk
      have hplace := hs.apart _ _ hjk hj
      cases hplace
      rfl)
  refine ⟨bitmap, hfree, ?_, hs.drop (fun q => q.inode = ip) (fun c => ?_) (fun q hq => ?_)
    fun q hq => ?_⟩
  · rw [hbitmap]
    refine ⟨hs.bitmap_block (p := .addr ip indirect) h0, fun j _ hj => ?_⟩
    rw [← hentry] at hj
    by_contra hne
    have hplace := hs.apart (.entry ip j) (.addr ip indirect) hj (hj ▸ hne)
    cases hplace
  · change Function.update bitmap (d.addrs ip indirect) false c = true ↔ _
    by_cases hc : c = d.addrs ip indirect
    · rw [hc, Function.update_self]
      exact iff_of_false Bool.false_ne_true fun h => h0 (h.2 (.addr ip indirect) rfl rfl)
    · rw [Function.update_of_ne hc, hbitmap]
      refine and_congr_right fun _ => ⟨fun h q hq hqc => ?_, fun h j _ hj => ?_⟩
      · cases q with
        | addr ip' i =>
            cases hq
            by_cases hi : i = indirect
            · rw [hi] at hqc
              exact absurd hqc.symm hc
            · rw [← hqc]
              exact haddr i hi
        | entry ip' j =>
            cases hq
            exact h j (List.mem_finRange j) ((hentry j).symm.trans hqc)
      · exact h (.entry ip j) rfl ((hentry j).trans hj)
  · rw [block_lastAddr haddr, if_pos hq]
  · rw [block_lastAddr haddr, if_neg hq]

/-- **`itrunc`** does not panic; the inode has no block then, and the others have theirs. -/
theorem Sound.itrunc (hs : Sound nmeta size d) (ip : Nat) :
    ∃ d', itrunc d ip = some d' ∧ Sound nmeta size d' ∧ d'.data = d.data ∧
      ∀ q, d'.block q = if q.inode = ip then 0 else d.block q := by
  obtain ⟨d₁, hdirect, hs₁, hdata, hgone, hkept⟩ := hs.freeDirect ip (List.finRange 12)
  have haddr : ∀ i, i ≠ indirect → d₁.addrs ip i = 0 := fun i hi => by
    obtain ⟨k, rfl⟩ := Fin.exists_castSucc_eq.mpr hi
    exact hgone k (List.mem_finRange k)
  have hothers : ∀ q, q.inode ≠ ip → d₁.block q = d.block q := fun q hq => by
    cases q with
    | addr ip' i => exact hkept ip' i fun hip => absurd hip hq
    | entry ip' j =>
        rw [Disk.block, Disk.block, hkept ip' _ fun hip => absurd hip hq, hdata]
  rw [Blocks.itrunc, hdirect, Option.bind_some]
  by_cases h0 : d₁.addrs ip indirect = 0
  · rw [if_pos h0]
    refine ⟨d₁, rfl, hs₁, hdata, fun q => ?_⟩
    split
    · rename_i hq
      cases q with
      | addr ip' i =>
          cases hq
          by_cases hi : i = indirect
          · rw [hi]
            exact h0
          · exact haddr i hi
      | entry ip' j =>
          cases hq
          exact if_pos h0
    · rename_i hq
      exact hothers q hq
  · obtain ⟨bitmap, hfree, hlast, hs'⟩ := hs₁.freeIndirect h0 haddr
    have hbfree : bfree { d₁ with bitmap := bitmap } (d₁.addrs ip indirect) =
        some { d₁ with bitmap := Function.update bitmap (d₁.addrs ip indirect) false } :=
      bfree_some hlast
    rw [if_neg h0, hfree, Option.bind_some, hbfree, Option.map_some]
    refine ⟨_, rfl, hs', hdata, fun q => ?_⟩
    rw [block_lastAddr haddr]
    split
    · rfl
    · rename_i hq
      exact hothers q hq

/-! ## Runs -/

/-- What is done to the blocks of a file. -/
inductive Call where
  | bmap (ip bn b : Nat)
  | write (ip bn : Nat) (bytes : Fin 128 → Nat)
  | itrunc (ip : Nat)

/-- The steps; a write is `writei`'s, into the block that `bmap` returns. -/
inductive Step (size : Nat) : Disk → Call → Disk → Prop
  | bmap {d d' : Disk} {ip bn b : Nat} :
      bmap size d ip bn = some (b, d') → Step size d (.bmap ip bn b) d'
  | write {d d' : Disk} {ip bn b : Nat} {bytes : Fin 128 → Nat} :
      bmap size d ip bn = some (b, d') →
      Step size d (.write ip bn bytes) { d' with data := Function.update d'.data b bytes }
  | itrunc {d d' : Disk} {ip : Nat} : itrunc d ip = some d' → Step size d (.itrunc ip) d'

theorem place_ne_indirect {ip bn ip' : Nat} (h : place ip bn = some p) :
    p ≠ .addr ip' indirect := by
  unfold place at h
  split at h
  · rename_i hlt
    cases h
    intro heq
    cases heq
    exact absurd hlt (Nat.lt_irrefl 12)
  · split at h
    · cases h
      simp
    · cases h

theorem place_inode {ip bn : Nat} (h : place ip bn = some p) : p.inode = ip := by
  unfold place at h
  split at h
  · cases h
    rfl
  · split at h
    · cases h
      rfl
    · cases h

/-- Writing into a block of a file changes no place. -/
theorem Sound.block_written (hs : Sound nmeta size d) {ip bn : Nat} (hp : place ip bn = some p)
    (hb : d.block p ≠ 0) (bytes : Fin 128 → Nat) :
    (Disk.block { d with data := Function.update d.data (d.block p) bytes }) = d.block := by
  funext q
  cases q with
  | addr ip' i => rfl
  | entry ip' j =>
      rw [Disk.block, Disk.block]
      dsimp only
      split
      · rfl
      · rw [Function.update_of_ne]
        intro heq
        exact place_ne_indirect hp (hs.apart p (.addr ip' indirect) heq.symm hb)

theorem Sound.step (hs : Sound nmeta size d) (hmeta : 0 < nmeta) {c : Call}
    (hstep : Step size d c d') : Sound nmeta size d' := by
  cases hstep with
  | bmap h => exact (hs.bmap hmeta h).1
  | write h =>
      obtain ⟨hs', hb, p, hp, rfl⟩ := hs.bmap hmeta h
      have hblock := hs'.block_written hp hb
      exact ⟨by rw [hblock]; exact hs'.apart, by rw [hblock]; exact hs'.range,
        by rw [hblock]; exact hs'.used⟩
  | itrunc h =>
      obtain ⟨d₁, htrunc, hs₁, -⟩ := hs.itrunc _
      rw [htrunc] at h
      cases h
      exact hs₁

/-- A disk whose inodes have no blocks. -/
def emptyDisk (nmeta : Nat) : Disk where
  bitmap b := decide (b < nmeta)
  data _ _ := 0
  addrs _ _ := 0

theorem emptyDisk_block (p : Place) : (emptyDisk nmeta).block p = 0 := by
  cases p with
  | addr ip i => rfl
  | entry ip j =>
      rw [Disk.block]
      exact if_pos rfl

theorem emptyDisk_sound (nmeta size : Nat) : Sound nmeta size (emptyDisk nmeta) := by
  have hzero : ∀ p, (emptyDisk nmeta).block p = 0 := emptyDisk_block
  refine ⟨fun p q _ hp => absurd (hzero p) hp, fun p hp => absurd (hzero p) hp, fun b _ => ?_⟩
  rw [emptyDisk, decide_eq_true_iff]
  refine ⟨.inl, fun h => h.resolve_right fun hex => ?_⟩
  obtain ⟨hb, p, hp⟩ := hex
  exact hb (hp.symm.trans (hzero p))

theorem emptyDisk_run :
    ∃ d, Run (Step 10) (emptyDisk 3) [.bmap 7 12 4] d ∧ d.block (.entry 7 0) = 4 := by
  have hmap : ((bmap 10 (emptyDisk 3) 7 12).map fun r => (r.1, r.2.block (.entry 7 0))) =
      some (4, 4) := by decide
  obtain ⟨⟨b, d⟩, hbmap, heq⟩ := Option.map_eq_some_iff.mp hmap
  obtain ⟨rfl, hblock⟩ := Prod.mk.inj heq
  exact ⟨d, .single (.bmap hbmap), hblock⟩

/-- **No block has two places**, and the free map is right, whatever files were written and
truncated. -/
theorem blocks_sound (hmeta : 0 < nmeta) {as : List Call}
    (hrun : Run (Step size) (emptyDisk nmeta) as d) :
    (∀ p q, d.block p = d.block q → d.block p ≠ 0 → p = q) ∧
      (∀ p, d.block p ≠ 0 → nmeta ≤ d.block p ∧ d.block p < size) ∧
      ∀ b, b < size → (d.bitmap b = true ↔ b < nmeta ∨ b ≠ 0 ∧ ∃ p, d.block p = b) := by
  have hs : Sound nmeta size d :=
    hrun.invariant (fun _ _ _ hs hstep => hs.step hmeta hstep) (emptyDisk_sound nmeta size)
  exact ⟨hs.apart, hs.range, hs.used⟩

theorem blocks_sound_indirect : ∃ d : Disk, d.block (.entry 7 0) = 4 ∧
    (∀ p q, d.block p = d.block q → d.block p ≠ 0 → p = q) ∧
      (∀ p, d.block p ≠ 0 → 3 ≤ d.block p ∧ d.block p < 10) ∧
      ∀ b, b < 10 → (d.bitmap b = true ↔ b < 3 ∨ b ≠ 0 ∧ ∃ p, d.block p = b) := by
  obtain ⟨d, hrun, hblock⟩ := emptyDisk_run
  exact ⟨d, hblock, blocks_sound (by decide) hrun⟩

/-- **`itrunc` frees no free block**: it does not panic, frees what the inode has and leaves
the other inodes' blocks. -/
theorem itrunc_returns (hmeta : 0 < nmeta) {as : List Call}
    (hrun : Run (Step size) (emptyDisk nmeta) as d) (ip : Nat) :
    ∃ d', itrunc d ip = some d' ∧ d'.data = d.data ∧
      (∀ q, d'.block q = if q.inode = ip then 0 else d.block q) ∧
      ∀ b, b < size → (d'.bitmap b = true ↔
        b < nmeta ∨ b ≠ 0 ∧ ∃ q, q.inode ≠ ip ∧ d.block q = b) := by
  have hs : Sound nmeta size d :=
    hrun.invariant (fun _ _ _ hs hstep => hs.step hmeta hstep) (emptyDisk_sound nmeta size)
  obtain ⟨d', htrunc, hs', hdata, hblock⟩ := hs.itrunc ip
  refine ⟨d', htrunc, hdata, hblock, fun b hb => ?_⟩
  rw [hs'.used b hb]
  refine or_congr Iff.rfl (and_congr_right fun hb0 => exists_congr fun q => ?_)
  rw [hblock]
  split
  · rename_i hq
    exact iff_of_false (fun h => hb0 h.symm) fun h => h.1 hq
  · rename_i hq
    exact ⟨fun h => ⟨hq, h⟩, fun h => h.2⟩

theorem itrunc_returns_indirect : ∃ d d' : Disk, d.block (.entry 7 0) = 4 ∧
    itrunc d 7 = some d' ∧ ∀ q, d'.block q = if q.inode = 7 then 0 else d.block q := by
  obtain ⟨d, hrun, hblock⟩ := emptyDisk_run
  obtain ⟨d', htrunc, -, hgone, -⟩ := itrunc_returns (by decide) hrun 7
  exact ⟨d, d', hblock, htrunc, hgone⟩

end CS537.Xv6.Blocks
