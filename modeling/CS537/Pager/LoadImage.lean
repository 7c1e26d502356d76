import CS537.Lib.Bytes
import CS537.Pager.HeapGrowth

/-!
# Pager — loading an image

`exec` builds a directory page by page, segment by segment and string by string. Seen
from the process this is a flat memory that is zero at first and has runs of bytes
stored into it: `Reads` says that the frames hold what that memory does. What is taken
from the allocator on the way is accounted for whether the image is completed or not.
-/

namespace CS537.Pager

open MachineInt
open Bytes (store store_nil store_outside store_append)

/-! ## Frames that are accounted for -/

/-- No step writes to a frame that is neither free, in hand nor of the directory. -/
theorem VmStep.outside {s t : Vm} {e : VmEvent} (h : VmStep s e t) (hin : e.InRange) {f : Nat}
    (hf : f ∉ s.frames) : t.phys.mem f = s.phys.mem f := by
  simp only [Vm.frames, Multiset.mem_add, Multiset.mem_coe, not_or] at hf
  obtain ⟨⟨hfree, hheld⟩, hdir⟩ := hf
  cases h with
  | table _ hlist =>
      apply Function.update_of_ne
      rintro rfl
      exact hfree (by simp [hlist])
  | alloc _ => rfl
  | fill bytes hg =>
      apply Function.update_of_ne
      rintro rfl
      exact hheld hg
  | map _ _ _ => rfl
  | kmap _ _ _ _ => rfl
  | @unmap d ph ph' held page ht hm hk =>
      apply kfree_mem hk
      rintro rfl
      apply hdir
      rw [PgDir.frames, Multiset.mem_cons, Multiset.mem_add]
      refine .inr (.inr (Inventory.mem_contents.mpr ⟨page, hin, ?_⟩))
      simp only [PgDir.pageFrame, ht, hm, Bool.and_self, if_true]
  | release hg hk =>
      apply kfree_mem hk
      rintro rfl
      exact hheld hg

theorem VmRun.outside {ok : VmEvent → Prop} (hin : ∀ e, ok e → e.InRange) {s t : Vm}
    (h : VmRun ok s t) {f : Nat} (hf : f ∉ s.frames) : t.phys.mem f = s.phys.mem f := by
  refine (h.invariant (I := fun t => t.frames = s.frames ∧ t.phys.mem f = s.phys.mem f) ?_
    ⟨rfl, rfl⟩).2
  intro a e b hok ⟨hframes, hmem⟩ hst
  refine ⟨(hst.frames (hin e hok)).trans hframes, ?_⟩
  rw [hst.outside (hin e hok) (by rwa [hframes]), hmem]

/-- The free frames and those of the directory are the same ones together, and no other
frame has been written to. -/
structure Accounted (d : PgDir) (ph : Phys) (d' : PgDir) (ph' : Phys) : Prop where
  frames : (ph'.freelist : Multiset Nat) + d'.frames = ph.freelist + d.frames
  outside : ∀ f, f ∉ (ph.freelist : Multiset Nat) + d.frames → ph'.mem f = ph.mem f

theorem Accounted.refl (d : PgDir) (ph : Phys) : Accounted d ph d ph :=
  ⟨rfl, fun _ _ => rfl⟩

theorem Accounted.trans {d d₁ d' : PgDir} {ph ph₁ ph' : Phys} (h : Accounted d ph d₁ ph₁)
    (h' : Accounted d₁ ph₁ d' ph') : Accounted d ph d' ph' where
  frames := h'.frames.trans h.frames
  outside := by
    intro f hf
    rw [h'.outside f (by rwa [h.frames]), h.outside f hf]

theorem VmRun.accounted {ok : VmEvent → Prop} (hin : ∀ e, ok e → e.InRange) {d d' : PgDir}
    {ph ph' : Phys} (h : VmRun ok ⟨d, ph, []⟩ ⟨d', ph', []⟩) : Accounted d ph d' ph' := by
  refine ⟨h.conserves hin, fun f hf => h.outside hin ?_⟩
  rwa [Vm.frames, Multiset.coe_nil, Multiset.add_zero]

theorem allocuvm_accounted {oldsz newsz r : Nat} {d d' : PgDir} {ph ph' : Phys}
    (h : allocuvm oldsz newsz d ph = .ok (r, d', ph')) : Accounted d ph d' ph' := by
  rcases allocuvm_spec h with ⟨_, _, rfl, rfl⟩ | ⟨_, _, _, rfl, rfl⟩ | ⟨hlt, _, hgrown⟩
  · exact .refl _ _
  · exact .refl _ _
  · have hle := Nat.le_of_lt hlt
    cases hgrown with
    | done hrun => exact hrun.accounted fun _ he => he.inRange hle
    | @failed _ _ mid hrun hback _ =>
        refine ⟨allocuvm_frames h, fun f hf => ?_⟩
        have hstart : f ∉ Vm.frames ⟨d, ph, []⟩ := by
          rwa [Vm.frames, Multiset.coe_nil, Multiset.add_zero]
        have hmid := hrun.frames fun _ he => he.inRange hle
        rw [← hrun.outside (fun _ he => he.inRange hle) hstart]
        exact hback.outside (fun _ he => he.inRange hle) (by rwa [hmid])

/-- `freevm` writes to the frames of the directory only. -/
theorem freevm_outside {d : PgDir} {ph ph' : Phys} {f : Nat} (hf : f ∉ d.frames)
    (h : freevm d ph = .ok ph') : ph'.mem f = ph.mem f := by
  have htables : ∀ (d : PgDir) (is : List Nat) (ph ph' : Phys), f ∉ is.filterMap d.table →
      freeTables d is ph = .ok ph' → ph'.mem f = ph.mem f := by
    intro d is
    induction is with
    | nil =>
        intro ph ph' _ h
        cases h
        rfl
    | cons i is ih =>
        intro ph ph' hf h
        rw [freeTables] at h
        cases hi : d.table i with
        | none =>
            rw [hi] at h
            rw [List.filterMap_cons_none hi] at hf
            exact ih ph ph' hf h
        | some g =>
            rw [hi] at h
            rw [List.filterMap_cons_some hi, List.mem_cons, not_or] at hf
            simp only [bind_eq_ok] at h
            obtain ⟨ph₁, hk, h⟩ := h
            rw [ih ph₁ ph' hf.2 h, kfree_mem hk hf.1]
  unfold freevm at h
  simp only [bind_eq_ok] at h
  obtain ⟨⟨r, d₁, ph₁⟩, hde, ph₂, htab, hk⟩ := h
  simp only at htab hk
  rcases deallocuvm_spec (Nat.le_refl _) [] hde with ⟨hle, _⟩ | ⟨_, _, hrun, _⟩
  · exact absurd hle (by decide)
  · have hr : ∀ e, Unmapping (pgRoundUp 0) kernbase e → e.InRange :=
      fun _ he => he.inRange (Nat.le_refl _)
    have htable : d₁.table = d.table := hrun.table_eq (by simp [Unmapping])
    have hframe : d₁.frame = d.frame := (hrun.evolved (unmapping_bounded _ _)).frame
    rw [PgDir.frames, Multiset.mem_cons, Multiset.mem_add, not_or, not_or] at hf
    obtain ⟨hne, htab', hpages⟩ := hf
    have hmem₁ : ph₁.mem f = ph.mem f := by
      -- only frames of user pages are given back here
      refine (hrun.invariant (I := fun t => (∀ page < kernPage, ∀ g,
        t.dir.pageFrame page = some g → d.pageFrame page = some g) ∧
          t.phys.mem f = ph.mem f) ?_ ⟨fun _ _ _ h => h, rfl⟩).2
      rintro a e b ⟨page, rfl, hin⟩ ⟨hsub, hmem⟩ hst
      cases hst with
      | @unmap da pa pb held _ ht hm hk =>
          have hpf : da.pageFrame page = some (da.pte page).frame := by
            simp only [PgDir.pageFrame, ht, hm, Bool.and_self, if_true]
          refine ⟨fun q hq g hg => ?_, ?_⟩
          · by_cases hqp : q = page
            · subst hqp
              rw [PgDir.pageFrame, PgDir.set_pte, if_pos rfl] at hg
              simp [Pte.zero, Pte.mapped, Flags.none] at hg
            · rw [PgDir.pageFrame_set _ hqp] at hg
              exact hsub q hq g hg
          · rw [← hmem]
            apply kfree_mem hk
            rintro rfl
            exact hpages (Inventory.mem_contents.mpr ⟨page, hin.lt_kernPage (Nat.le_refl _),
              hsub page (hin.lt_kernPage (Nat.le_refl _)) _ hpf⟩)
    have hmem₂ : ph₂.mem f = ph₁.mem f := by
      apply htables d₁ _ ph₁ ph₂ _ htab
      rw [htable]
      exact fun hin => htab' (Multiset.mem_coe.mpr hin)
    rw [kfree_mem hk (by rwa [hframe]), hmem₂, hmem₁]

/-! ## Frames that read as a flat memory -/

/-- Below `sz` the frames of the pages hold what the flat memory does. -/
def Reads (d : PgDir) (ph : Phys) (sz : Nat) (mem : Nat → UInt8) : Prop :=
  ∀ page, 4096 * page < sz → ∀ i < 4096, ph.mem (d.pte page).frame i = mem (4096 * page + i)

/-- No two pages below `sz` have the same frame. -/
def Owned (d : PgDir) (sz : Nat) : Prop :=
  ∀ p q, 4096 * p < sz → 4096 * q < sz → (d.pte p).frame = (d.pte q).frame → p = q

/-- Only frames of pages below `sz` have been written to. -/
structure Confined (d : PgDir) (sz : Nat) (ph ph' : Phys) : Prop where
  free : ph'.freelist = ph.freelist
  bytes : ∀ f, (∀ page, 4096 * page < sz → (d.pte page).frame ≠ f) → ph'.mem f = ph.mem f

theorem Confined.refl (d : PgDir) (sz : Nat) (ph : Phys) : Confined d sz ph ph :=
  ⟨rfl, fun _ _ => rfl⟩

theorem Confined.trans {d : PgDir} {sz : Nat} {ph ph₁ ph' : Phys} (h : Confined d sz ph ph₁)
    (h' : Confined d sz ph₁ ph') : Confined d sz ph ph' where
  free := h'.free.trans h.free
  bytes := fun f hf => (h'.bytes f hf).trans (h.bytes f hf)

theorem Confined.write {d : PgDir} {sz page : Nat} (hp : 4096 * page < sz) (off : Nat)
    (buf : List UInt8) (ph : Phys) :
    Confined d sz ph (ph.write (d.pte page).frame off buf) :=
  ⟨rfl, fun _ hf => Function.update_of_ne (hf page hp).symm _ _⟩

/-- Writes below a size up to which all pages are mapped. -/
theorem Confined.accounted {d : PgDir} {sz : Nat} (hsz : sz ≤ kernbase)
    (hmapped : ∀ page, 4096 * page < sz → d.hasTable page ∧ (d.pte page).mapped)
    {ph ph' : Phys} (h : Confined d sz ph ph') : Accounted d ph d ph' where
  frames := by rw [h.free]
  outside := by
    intro f hf
    apply h.bytes
    rintro page hp rfl
    apply hf
    obtain ⟨ht, hm⟩ := hmapped page hp
    rw [Multiset.mem_add, PgDir.frames, Multiset.mem_cons, Multiset.mem_add]
    refine .inr (.inr (.inr (Inventory.mem_contents.mpr ⟨page, ?_, ?_⟩)))
    · simp only [kernbase] at hsz
      change page < 524288
      omega
    · simp only [PgDir.pageFrame, ht, hm, Bool.and_self, if_true]

/-- Bytes written into one page are stored in the flat memory. -/
theorem Reads.write {d : PgDir} {ph : Phys} {sz page : Nat} {mem : Nat → UInt8}
    (h : Reads d ph sz mem) (hown : Owned d sz) (hp : 4096 * page < sz) (off : Nat)
    (buf : List UInt8) (hfits : off + buf.length ≤ 4096) :
    Reads d (ph.write (d.pte page).frame off buf) sz (store mem (4096 * page + off) buf) := by
  intro q hq i hi
  by_cases heq : q = page
  · subst heq
    have hbyte : (ph.write (d.pte q).frame off buf).mem (d.pte q).frame i =
        if off ≤ i then buf.getD (i - off) (ph.mem (d.pte q).frame i)
        else ph.mem (d.pte q).frame i := by
      rw [Phys.write]
      simp only [Function.update_self]
    have hshift : 4096 * q + i - (4096 * q + off) = i - off := by omega
    have hle : 4096 * q + off ≤ 4096 * q + i ↔ off ≤ i := by omega
    rw [hbyte, h q hq i hi, store, hshift]
    simp only [hle]
  · have hframe : (d.pte q).frame ≠ (d.pte page).frame := fun hf => heq (hown q page hq hp hf)
    have hother : (ph.write (d.pte page).frame off buf).mem (d.pte q).frame =
        ph.mem (d.pte q).frame := Function.update_of_ne hframe _ _
    rw [hother, h q hq i hi, store_outside (by omega)]

/-! ## `loaduvm` -/

/-- `readi` that reads all it is asked for. -/
theorem readi_eq_some {file buf : List UInt8} {off n : Nat} (hoff : off < 4294967296)
    (hn : n ≤ 4096) (h : readi file off n = some buf) :
    off + n < 4294967296 ∧ buf = (file.drop off).take n := by
  rw [readi] at h
  split at h
  · cases h
  · rename_i hok
    cases h
    unfold u32 at hok
    exact ⟨by omega, rfl⟩

/-- The loop stores the rest of the segment. -/
theorem loadLoop_reads {d : PgDir} {addr : Nat} {file : List UInt8} {offset filesz sz : Nat}
    (hown : Owned d sz) (hsz : sz ≤ kernbase) (hal : addr % 4096 = 0) (hend : addr + filesz ≤ sz)
    {k i : Nat} (hi : i % 4096 = 0) (hoff : i < filesz → offset + i < 4294967296)
    {ph ph' : Phys} {ok : Bool} {mem : Nat → UInt8}
    (h : loadLoop d addr file offset filesz k i ph = .ok (ok, ph')) :
    Confined d sz ph ph' ∧ (ok = true → Reads d ph sz mem →
      Reads d ph' sz (store mem (addr + i) ((file.drop (offset + i)).take (filesz - i)))) := by
  simp only [kernbase] at hsz
  have hdone : ∀ {ph : Phys} {i : Nat} {mem : Nat → UInt8}, filesz ≤ i → Reads d ph sz mem →
      Reads d ph sz (store mem (addr + i) ((file.drop (offset + i)).take (filesz - i))) := by
    intro ph i mem hle hreads
    rw [Nat.sub_eq_zero_of_le hle, List.take_zero, store_nil]
    exact hreads
  induction k generalizing i ph mem with
  | zero =>
      rw [loadLoop] at h
      split at h
      · cases h
      · cases h
        exact ⟨.refl _ _ _, fun _ => hdone (by omega)⟩
  | succ k ih =>
      rw [loadLoop] at h
      split at h
      · rename_i hlt
        have haddr : u32 (addr + i) = addr + i := u32_of_lt (by omega)
        have hpage : 4096 * ppn (addr + i) = addr + i := by
          unfold ppn
          omega
        cases hw : walkpgdir d (u32 (addr + i)) with
        | none =>
            rw [hw] at h
            cases h
        | some ptr =>
            rw [hw] at h
            rw [haddr] at hw
            obtain ⟨_, rfl⟩ := walkpgdir_eq_some.mp hw
            simp only at h
            cases hread : readi file (u32 (offset + i)) (min (filesz - i) 4096) with
            | none =>
                rw [hread] at h
                cases h
                exact ⟨.refl _ _ _, fun hf => by cases hf⟩
            | some buf =>
                have hoffset : u32 (offset + i) = offset + i := u32_of_lt (hoff hlt)
                rw [hread] at h
                rw [hoffset] at hread
                obtain ⟨hnowrap, hbuf⟩ := readi_eq_some (hoff hlt) (Nat.min_le_right _ _) hread
                have hbelow : 4096 * ppn (addr + i) < sz := by omega
                have hfirst : Confined d sz ph (ph.write (d.pte (ppn (addr + i))).frame 0 buf) :=
                  .write hbelow 0 buf ph
                simp only at h
                split at h
                · rename_i hlen
                  have hnext : u32 (i + 4096) = i + 4096 := u32_of_lt (by omega)
                  rw [hnext] at h
                  have hoff' : i + 4096 < filesz → offset + (i + 4096) < 4294967296 := by omega
                  obtain ⟨hconf, hrest⟩ := @ih (i + 4096) (by omega) hoff' _
                    (store mem (addr + i) buf) h
                  refine ⟨hfirst.trans hconf, fun hok hreads => ?_⟩
                  have hwrite := hreads.write hown hbelow 0 buf (by omega)
                  rw [hpage, Nat.add_zero] at hwrite
                  have hall := hrest hok hwrite
                  by_cases hwhole : i + 4096 ≤ filesz
                  · have hsplit : (file.drop (offset + i)).take (filesz - i) =
                        buf ++ (file.drop (offset + (i + 4096))).take (filesz - (i + 4096)) := by
                      have hdrop : file.drop (offset + (i + 4096)) =
                          (file.drop (offset + i)).drop 4096 := by
                        rw [List.drop_drop, Nat.add_assoc]
                      rw [hbuf, Nat.min_eq_right (by omega), hdrop, ← List.take_add,
                        show 4096 + (filesz - (i + 4096)) = filesz - i by omega]
                    have hlen' : buf.length = 4096 := by omega
                    rw [hsplit, store_append, hlen', Nat.add_assoc]
                    exact hall
                  · rw [Nat.sub_eq_zero_of_le (by omega : filesz ≤ i + 4096), List.take_zero,
                      store_nil, hbuf, Nat.min_eq_left (by omega)] at hall
                    exact hall
                · cases h
                  exact ⟨hfirst, fun hf => by cases hf⟩
      · cases h
        exact ⟨.refl _ _ _, fun _ => hdone (by omega)⟩

/-- `loaduvm` stores a segment. -/
theorem loaduvm_reads {d : PgDir} {addr : Nat} {file : List UInt8} {offset filesz sz : Nat}
    (hown : Owned d sz) (hsz : sz ≤ kernbase) (hend : addr + filesz ≤ sz)
    (hoff : offset < 4294967296) {ph ph' : Phys} {ok : Bool} {mem : Nat → UInt8}
    (h : loaduvm addr file offset filesz d ph = .ok (ok, ph')) :
    Confined d sz ph ph' ∧ (ok = true → Reads d ph sz mem →
      Reads d ph' sz (store mem addr ((file.drop offset).take filesz))) := by
  rw [loaduvm] at h
  split at h
  · cases h
  · rename_i hal
    exact loadLoop_reads hown hsz (by omega) hend (by decide) (fun _ => hoff) h

/-! ## `copyout` -/

/-- Only pages below `sz` may be written by the user. -/
theorem copyoutLoop_reads {d : PgDir} {sz : Nat} (hown : Owned d sz)
    (hsz : sz ≤ kernbase) (hal : sz % 4096 = 0) (hu : ∀ page, (d.pte page).u → 4096 * page < sz)
    {k va : Nat} (hva : va < 4294967296) {buf : List UInt8} {ph ph' : Phys} {ok : Bool}
    {mem : Nat → UInt8} (h : copyoutLoop d k va buf ph = .ok (ok, ph')) :
    Confined d sz ph ph' ∧ (ok = true → Reads d ph sz mem →
      Reads d ph' sz (store mem va buf)) := by
  simp only [kernbase] at hsz
  induction k generalizing va buf ph mem with
  | zero =>
      rw [copyoutLoop] at h
      split at h
      · rename_i hnil
        cases h
        rw [hnil, store_nil]
        exact ⟨.refl _ _ _, fun _ hr => hr⟩
      · cases h
  | succ k ih =>
      rw [copyoutLoop] at h
      split at h
      · rename_i hnil
        cases h
        rw [hnil, store_nil]
        exact ⟨.refl _ _ _, fun _ hr => hr⟩
      · simp only [bind_eq_ok] at h
        obtain ⟨r, hka, h⟩ := h
        cases ht : d.hasTable (ppn va) with
        | false =>
            rw [uva2ka_null (by rwa [ppn_pgRoundDown])] at hka
            cases hka
        | true =>
            rw [uva2ka_eq (by rwa [ppn_pgRoundDown]), ppn_pgRoundDown] at hka
            cases hka
            split at h
            · cases h
              exact ⟨.refl _ _ _, fun hf => by cases hf⟩
            · rename_i pa0 hpa
              split at hpa
              · rename_i hmu
                cases hpa
                rw [Bool.and_eq_true] at hmu
                have hbelow : 4096 * ppn va < sz := hu _ hmu.2
                have hoff : va - pgRoundDown va = va % 4096 := by
                  unfold pgRoundDown
                  omega
                have hsplit : 4096 * ppn va + va % 4096 = va := by
                  unfold ppn
                  omega
                have hnext : u32 (pgRoundDown va + 4096) = 4096 * ppn va + 4096 := by
                  unfold ppn at hbelow ⊢
                  unfold u32 pgRoundDown
                  omega
                rw [hoff, hnext] at h
                generalize hn : min (4096 - va % 4096) buf.length = n at h
                have hlen : (buf.take n).length = n := by
                  rw [List.length_take]
                  omega
                have hfirst := Confined.write (d := d) hbelow (va % 4096) (buf.take n) ph
                obtain ⟨hconf, hrest⟩ := @ih (4096 * ppn va + 4096) (by omega) _ _
                  (store mem va (buf.take n)) h
                refine ⟨hfirst.trans hconf, fun hok hreads => ?_⟩
                have hwrite := hreads.write hown hbelow (va % 4096) (buf.take n) (by omega)
                rw [hsplit] at hwrite
                have hall := hrest hok hwrite
                by_cases hfull : n = 4096 - va % 4096
                · -- the page is written to its end
                  have hend : va + (buf.take n).length = 4096 * ppn va + 4096 := by
                    have := Nat.mod_lt va (show 0 < 4096 by decide)
                    omega
                  rw [← hend, ← store_append, List.take_append_drop] at hall
                  exact hall
                · rw [List.drop_eq_nil_of_le (by omega), store_nil,
                    List.take_of_length_le (by omega)] at hall
                  exact hall
              · cases hpa

theorem copyout_reads {d : PgDir} {sz : Nat} (hown : Owned d sz) (hsz : sz ≤ kernbase)
    (hal : sz % 4096 = 0) (hu : ∀ page, (d.pte page).u → 4096 * page < sz) {va : Nat}
    (hva : va < 4294967296) {buf : List UInt8} {ph ph' : Phys} {ok : Bool} {mem : Nat → UInt8}
    (h : copyout va buf d ph = .ok (ok, ph')) :
    Confined d sz ph ph' ∧ (ok = true → Reads d ph sz mem →
      Reads d ph' sz (store mem va buf)) :=
  copyoutLoop_reads hown hsz hal hu hva h

/-! ## Segments -/

/-- An image under construction: its pages are those below `sz`, in the clear, with
frames of their own, and read as a flat memory that is zero from there on. -/
structure Imaged (d : PgDir) (ph : Phys) (sz : Nat) (mem : Nat → UInt8) : Prop where
  size : sz < kernbase
  apart : Vm.Apart ⟨d, ph, []⟩
  below : ∀ page, 4096 * page < sz → d.hasTable page ∧ (d.pte page).toFlags = userFlags
  user : UserBelow d sz
  reads : Reads d ph sz mem
  zero : ∀ a, pgRoundUp sz ≤ a → mem a = 0

theorem Pte.mapped_of_flags {pte : Pte} (h : pte.toFlags = userFlags) : pte.mapped = true := by
  have hp : pte.p = true := congrArg Flags.p h
  simp [Pte.mapped, hp]

theorem lt_kernPage_of_lt {page sz : Nat} (hsz : sz ≤ kernbase) (h : 4096 * page < sz) :
    page < kernPage := by
  simp only [kernbase] at hsz
  change page < 524288
  omega

theorem Imaged.userMapped {d : PgDir} {ph : Phys} {sz page : Nat} {mem : Nat → UInt8}
    (h : Imaged d ph sz mem) (hp : 4096 * page < sz) : d.UserMapped page :=
  ⟨(h.below page hp).1, Pte.mapped_of_flags (h.below page hp).2,
    .inl (lt_kernPage_of_lt (Nat.le_of_lt h.size) hp)⟩

theorem Imaged.owned {d : PgDir} {ph : Phys} {sz : Nat} {mem : Nat → UInt8}
    (h : Imaged d ph sz mem) : Owned d sz :=
  fun p q hp hq hf => h.apart.distinct p q (h.userMapped hp) (h.userMapped hq) hf

/-- A write below the size. -/
theorem Imaged.written {d : PgDir} {ph ph' : Phys} {sz : Nat} {mem mem' : Nat → UInt8}
    (h : Imaged d ph sz mem) (hconf : Confined d sz ph ph') (hreads : Reads d ph' sz mem')
    (hzero : ∀ a, pgRoundUp sz ≤ a → mem' a = 0) : Imaged d ph' sz mem' where
  size := h.size
  apart := by
    obtain ⟨hdis, hnd, hfree⟩ := h.apart
    simp only [List.nil_append] at hnd hfree
    refine ⟨hdis, ?_, ?_⟩
    · simp only [List.nil_append, hconf.free]
      exact hnd
    · intro p hp
      simp only [List.nil_append, hconf.free]
      exact hfree p hp
  below := h.below
  user := h.user
  reads := hreads
  zero := hzero

/-- Up to the end of the last page. -/
theorem Imaged.roundUp {d : PgDir} {ph : Phys} {sz : Nat} {mem : Nat → UInt8}
    (h : Imaged d ph sz mem) (hlt : pgRoundUp sz < kernbase) :
    Imaged d ph (pgRoundUp sz) mem := by
  have hsz := h.size
  have hpage : ∀ page, 4096 * page < pgRoundUp sz ↔ 4096 * page < sz := by
    intro page
    unfold pgRoundUp u32
    simp only [kernbase] at hsz
    omega
  refine ⟨hlt, h.apart, ?_, h.user.mono (le_pgRoundUp (Nat.le_of_lt hsz)), ?_, ?_⟩
  · intro page hp
    exact h.below page ((hpage page).mp hp)
  · intro page hp
    exact h.reads page ((hpage page).mp hp)
  · intro a ha
    exact h.zero a (Nat.le_trans (le_pgRoundUp (Nat.le_of_lt hlt)) ha)

/-- `setupkvm` is the start. -/
theorem setupkvm_imaged {ph ph' : Phys} {d : PgDir} (hnd : ph.freelist.Nodup)
    (h : setupkvm ph = .ok (some d, ph')) : Imaged d ph' 0 (fun _ => 0) := by
  have hnone : ∀ page, ¬ d.UserMapped page := by
    intro page ⟨_, hm, hu⟩
    rcases setupkvm_pte h page with hz | ⟨hk, hnu⟩
    · rw [hz] at hm
      cases hm
    · rcases hu with hlt | hu
      · omega
      · rw [hnu] at hu
        cases hu
  have hsub := ((setupkvm_outOfReach (P := fun _ => False) (fun _ _ hf => hf) h).2.2 d rfl).2
  refine ⟨by decide, ⟨fun p q hp => absurd hp (hnone p), ?_, fun p hp => absurd hp (hnone p)⟩,
    fun page hp => absurd hp (Nat.not_lt_zero _), setupkvm_userBelow h,
    fun page hp => absurd hp (Nat.not_lt_zero _), fun _ _ => rfl⟩
  exact hnd.sublist hsub

/-- `allocuvm` adds pages that are zero. -/
theorem Imaged.alloc {d d' : PgDir} {ph ph' : Phys} {sz newsz r : Nat} {mem : Nat → UInt8}
    (h : Imaged d ph sz mem) (halloc : allocuvm sz newsz d ph = .ok (r, d', ph'))
    (hr : r ≠ 0) : Imaged d' ph' r mem ∧ newsz ≤ r ∧ sz ≤ r := by
  have hsz := h.size
  rcases allocuvm_spec halloc with ⟨_, h0, _⟩ | ⟨_, hless, rfl, rfl, rfl⟩ | ⟨hlt, hle, hgrown⟩
  · exact absurd h0 hr
  · exact ⟨h, Nat.le_of_lt hless, Nat.le_refl _⟩
  · have hnew := allocuvm_mapped hle hlt halloc hr
    have hzero := by
      have hloop := halloc
      rw [allocuvm_grow hle hlt] at hloop
      exact allocLoop_zero hle hlt (pgRoundUp_aligned _) (Nat.le_refl _) h.apart hloop hr
    have huser := (allocuvm_userBelow (Nat.le_of_lt hsz) h.user halloc hr).1
    cases hgrown with
    | failed _ _ _ => exact absurd rfl hr
    | done hrun =>
        refine ⟨⟨hlt, growing_apart hrun h.apart, ?_, huser, ?_, ?_⟩, Nat.le_refl _, hle⟩
        · intro page hp
          by_cases hold : 4096 * page < sz
          · obtain ⟨ht, hf⟩ := h.below page hold
            have hpte := (hrun.keeps (fun q hq => by cases hq) h.apart (h.userMapped hold)).1
            change d'.pte page = d.pte page at hpte
            rw [hpte]
            exact ⟨(hrun.evolved (growing_bounded _ _)).table page ht, hf⟩
          · apply hnew page ⟨?_, hp⟩
            unfold pgRoundUp u32
            simp only [kernbase] at hsz
            omega
        · intro page hp i hi
          by_cases hold : 4096 * page < sz
          · obtain ⟨hpte, hmem⟩ :=
              hrun.keeps (fun q hq => by cases hq) h.apart (h.userMapped hold)
            change d'.pte page = d.pte page at hpte
            change ph'.mem (d.pte page).frame = ph.mem (d.pte page).frame at hmem
            rw [hpte, hmem, h.reads page hold i hi]
          · have hlow : pgRoundUp sz ≤ 4096 * page := by
              unfold pgRoundUp u32
              simp only [kernbase] at hsz
              omega
            rw [(hzero page ⟨hlow, hp⟩).2, h.zero _ (by omega)]
        · intro a ha
          apply h.zero
          refine Nat.le_trans (pgRoundUp_le (pgRoundUp_aligned _) ?_) ha
          exact Nat.le_trans hle (le_pgRoundUp (Nat.le_of_lt hlt))

/-- What a program header has loaded: the bytes of the file, and where they go. -/
structure Segment where
  vaddr : Nat
  bytes : List UInt8

/-- The segments of the `n` program headers from offset `off` on. -/
def segments (ip : List UInt8) : Nat → Nat → List Segment
  | 0, _ => []
  | n + 1, off =>
      let bytes := (readi ip off 32).getD []
      if field bytes 0 4 ≠ 1 then segments ip n (u32 (off + 32))
      else
        ⟨field bytes 8 4, (ip.drop (field bytes 4 4)).take (field bytes 16 4)⟩ ::
          segments ip n (u32 (off + 32))

/-- Segments stored one after the other. -/
def storeSegments (mem : Nat → UInt8) (segs : List Segment) : Nat → UInt8 :=
  segs.foldl (fun mem seg => store mem seg.vaddr seg.bytes) mem

theorem field_lt_word (bytes : List UInt8) (off : Nat) : field bytes off 4 < 4294967296 :=
  Bytes.field_lt bytes off 4

theorem Imaged.accounted {d : PgDir} {ph ph' : Phys} {sz : Nat} {mem : Nat → UInt8}
    (h : Imaged d ph sz mem) (hconf : Confined d sz ph ph') : Accounted d ph d ph' :=
  hconf.accounted (Nat.le_of_lt h.size)
    fun page hp => ⟨(h.below page hp).1, Pte.mapped_of_flags (h.below page hp).2⟩

/-- The loop over the program headers stores their segments. -/
theorem segLoop_imaged {ip : List UInt8} {n off sz : Nat} {res : Option Nat} {d d' : PgDir}
    {ph ph' : Phys} {mem : Nat → UInt8} (himg : Imaged d ph sz mem)
    (h : segLoop ip n off sz d ph = .ok (res, d', ph')) :
    Accounted d ph d' ph' ∧ ∀ sz', res = some sz' →
      Imaged d' ph' sz' (storeSegments mem (segments ip n off)) := by
  induction n generalizing off sz d ph mem with
  | zero =>
      cases h
      refine ⟨.refl _ _, fun sz' hsz' => ?_⟩
      cases hsz'
      exact himg
  | succ n ih =>
      rw [segLoop] at h
      rw [segments]
      generalize hbytes : (readi ip off 32).getD [] = bytes at h ⊢
      dsimp only at h ⊢
      split at h
      · cases h
        exact ⟨.refl _ _, fun _ hn => by cases hn⟩
      split at h
      · rename_i htype
        rw [if_pos htype]
        exact ih himg h
      rename_i htype
      rw [if_neg htype]
      split at h
      · cases h
        exact ⟨.refl _ _, fun _ hn => by cases hn⟩
      split at h
      · cases h
        exact ⟨.refl _ _, fun _ hn => by cases hn⟩
      rename_i hfile hwrap
      rw [bind_eq_ok] at h
      obtain ⟨⟨sz₁, d₁, ph₁⟩, halloc, h⟩ := h
      have hacc := allocuvm_accounted halloc
      dsimp only at h
      split at h
      · cases h
        exact ⟨hacc, fun _ hn => by cases hn⟩
      rename_i hne
      split at h
      · cases h
        exact ⟨hacc, fun _ hn => by cases hn⟩
      obtain ⟨himg₁, hnew, _⟩ := himg.alloc halloc hne
      rw [bind_eq_ok] at h
      obtain ⟨⟨ok, ph₂⟩, hload, h⟩ := h
      have hvaddr := field_lt_word bytes 8
      have hmemsz := field_lt_word bytes 20
      have hend : field bytes 8 4 + field bytes 16 4 ≤ sz₁ := by
        unfold u32 at hwrap hnew
        omega
      obtain ⟨hconf, hreads⟩ := @loaduvm_reads d₁ (field bytes 8 4) ip (field bytes 4 4)
        (field bytes 16 4) sz₁ himg₁.owned (Nat.le_of_lt himg₁.size) hend (field_lt_word bytes 4)
        ph₁ ph₂ ok mem hload
      have hacc₂ := hacc.trans (himg₁.accounted hconf)
      cases ok with
      | false =>
          cases h
          exact ⟨hacc₂, fun _ hn => by cases hn⟩
      | true =>
          have himg₂ := himg₁.written hconf (hreads rfl himg₁.reads) (by
            intro a ha
            have hle := le_pgRoundUp (Nat.le_of_lt himg₁.size)
            rw [store_outside, himg₁.zero a ha]
            rw [List.length_take]
            omega)
          obtain ⟨hacc₃, hrest⟩ := ih himg₂ h
          exact ⟨hacc₂.trans hacc₃, hrest⟩

end CS537.Pager
