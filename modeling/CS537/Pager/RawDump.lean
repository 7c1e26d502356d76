import CS537.Pager.EncryptRange
import CS537.Pager.PageListing

/-!
# Pager — a raw page is dumped

`dump_rawphymem` copies the bytes of a frame into the frames behind a buffer, past
the pages' encryption. It has the first byte of the buffer decrypted before, and
only that: of a buffer that is not aligned the second page may be encrypted, and
what is read there is flipped.
-/

namespace CS537.Pager

open MachineInt

variable {m m₁ m' : Machine}

/-! ## The calls -/

/-- A store of the kernel at an address of the process, run at most that many times:
the hardware sets `PTE_A`, or the page fault has `trap` call `mdecrypt`, and panic
unless that returns 0. -/
def kernelStore (slots depth va : Nat) : Nat → Machine → Except Fault Machine
  | 0, _ => .error .outOfFuel
  | tries + 1, m =>
      let page := ppn va
      let v := m.pgdir.pte page
      if m.pgdir.hasTable page && v.p && v.w then .ok (m.setPte page { v with a := true })
      else do
        let (retval, m) ← mdecrypt slots depth va m
        if retval = 0 then kernelStore slots depth va tries m else .error .panic

/-- `memmove` of `n` bytes of one frame into another. -/
def Phys.copy (dst off src start n : Nat) (ph : Phys) : Phys :=
  { ph with
    mem := Function.update ph.mem dst fun i =>
      if off ≤ i ∧ i < off + n then ph.mem src (start + (i - off)) else ph.mem dst i }

/-- The loop of `copyout`, of at most that many iterations, for a `p` that points
into a frame. `false` is its -1. -/
def copyoutFrameLoop (d : PgDir) (src : Nat) :
    Nat → Nat → Nat → Nat → Phys → Except Fault (Bool × Phys)
  | 0, _, _, len, ph => if len = 0 then .ok (true, ph) else .error .outOfFuel
  | k + 1, va, buf, len, ph =>
      if len = 0 then .ok (true, ph)
      else do
        let va0 := pgRoundDown va
        match ← uva2ka d va0 with
        | none => return (false, ph)
        | some pa0 =>
            let n := min (4096 - (va - va0)) len
            copyoutFrameLoop d src k (u32 (va0 + 4096)) (buf + n) (len - n)
              (ph.copy pa0 (va - va0) src buf n)

/-- `dump_rawphymem`. `P2V(physical_addr)` rounded down is the first byte of its
frame. -/
def dumpRawphymem (slots depth tries physicalAddr buffer : Nat) (m : Machine) :
    Except Fault (Int × Machine) :=
  if buffer = 0 then .ok (-1, m)
  else do
    -- `*buffer = *buffer`
    let m ← kernelStore slots depth buffer tries m
    let (ok, ph) ← copyoutFrameLoop m.pgdir (physicalAddr / 4096) 4097 buffer 0 4096 m.phys
    return (if ok then 0 else -1, { m with phys := ph })

/-- `sys_dump_rawphymem`, once the arguments are fetched. -/
def sysDumpRawphymem (slots depth tries physicalAddr buffer : Nat) (m : Machine) :
    Except Fault (Int × Machine) :=
  if argptr m buffer 4096 then dumpRawphymem slots depth tries physicalAddr buffer m
  else .ok (-1, m)

/-! ## What is claimed -/

/-- A byte of a page, as the process reads it. -/
def Pte.decode (pte : Pte) (b : UInt8) : UInt8 := if pte.e then b ^^^ 255 else b

/-- The byte a process reads at an address. -/
def Machine.readByte (m : Machine) (va : Nat) : UInt8 :=
  content m.pgdir m.phys (ppn va) (va % 4096)

/-- The buffer reads as the bytes frame `src` had when the copy started, in `m₁`, and
the other user bytes are those of `m`. -/
structure Delivered (m m₁ : Machine) (src buffer : Nat) (m' : Machine) : Prop where
  bytes : ∀ j < 4096, m'.readByte (buffer + j) = m₁.phys.mem src j
  others : ∀ va, m.pgdir.UserMapped (ppn va) → ¬ (buffer ≤ va ∧ va < buffer + 4096) →
    m'.readByte va = m.readByte va

/-- The byte copied to offset `j` of the buffer, if it lies in the second page: the
first page may be the one that is dumped, and has been written then. -/
def Machine.tailByte (m : Machine) (src buffer j : Nat) : UInt8 :=
  if src = (m.pgdir.pte (ppn buffer)).frame ∧ buffer % 4096 ≤ j then
    m.phys.mem src (j - buffer % 4096)
  else m.phys.mem src j

/-- The buffer is aligned, or what is copied into its second page reads as the bytes
of the frame: the page is in the clear, or the copy happens to come out right. -/
def TailReads (m : Machine) (src buffer : Nat) : Prop :=
  buffer % 4096 = 0 ∨ ∀ j, 4096 - buffer % 4096 ≤ j → j < 4096 →
    (m.pgdir.pte (ppn buffer + 1)).decode (m.tailByte src buffer j) = m.phys.mem src j

/-! ## The copy -/

theorem Phys.copy_mem (dst off src start n : Nat) (ph : Phys) (f i : Nat) :
    (ph.copy dst off src start n).mem f i =
      if f = dst ∧ off ≤ i ∧ i < off + n then ph.mem src (start + (i - off))
      else ph.mem f i := by
  rw [copy]
  by_cases hf : f = dst
  · subst hf
    simp only [Function.update_self, true_and]
  · simp only [Function.update_of_ne hf, hf, false_and, if_false]

/-- One round of the loop that goes on. -/
theorem copyoutFrameLoop_round {d : PgDir} {src k va buf len : Nat} {ph ph' : Phys}
    (hlen : len ≠ 0) (h : copyoutFrameLoop d src (k + 1) va buf len ph = .ok (true, ph')) :
    (d.hasTable (ppn va) ∧ (d.pte (ppn va)).mapped ∧ (d.pte (ppn va)).u) ∧
      copyoutFrameLoop d src k (u32 (pgRoundDown va + 4096))
        (buf + min (4096 - va % 4096) len) (len - min (4096 - va % 4096) len)
        (ph.copy (d.pte (ppn va)).frame (va % 4096) src buf (min (4096 - va % 4096) len)) =
          .ok (true, ph') := by
  have hoff : va - pgRoundDown va = va % 4096 := by
    unfold pgRoundDown
    omega
  rw [copyoutFrameLoop, if_neg hlen] at h
  simp only [hoff, bind_eq_ok] at h
  obtain ⟨r, hka, h⟩ := h
  cases ht : d.hasTable (ppn va) with
  | false =>
      rw [uva2ka_null (by rwa [ppn_pgRoundDown])] at hka
      cases hka
  | true =>
      rw [uva2ka_eq (by rwa [ppn_pgRoundDown]), ppn_pgRoundDown] at hka
      cases hka
      split at h
      · cases h
      · rename_i pa0 hpa
        split at hpa
        · rename_i hmu
          cases hpa
          rw [Bool.and_eq_true] at hmu
          exact ⟨⟨rfl, hmu.1, hmu.2⟩, h⟩
        · cases hpa

theorem copyoutFrameLoop_done {d : PgDir} {src k va buf : Nat} {ph ph' : Phys} {b : Bool}
    (h : copyoutFrameLoop d src k va buf 0 ph = .ok (b, ph')) : ph' = ph := by
  cases k with
  | zero =>
      cases h
      rfl
  | succ k =>
      cases h
      rfl

/-- The frame of the page of an address. -/
def Machine.frameAt (m : Machine) (va : Nat) : Nat := (m.pgdir.pte (ppn va)).frame

/-- What the copy of a page leaves: the head of the frame in the first page of the
buffer, and what the source holds then in the second, if it is not aligned. -/
theorem copyout_frame_spec {src buffer : Nat} {ph' : Phys} (hb : buffer + 4096 ≤ kernbase)
    (h : copyoutFrameLoop m.pgdir src 4097 buffer 0 4096 m.phys = .ok (true, ph')) :
    m.pgdir.UserMapped (ppn buffer) ∧
      (buffer % 4096 = 0 → ph' = m.phys.copy (m.frameAt buffer) 0 src 0 4096) ∧
      (buffer % 4096 ≠ 0 → m.pgdir.UserMapped (ppn buffer + 1) ∧
        ph' = (m.phys.copy (m.frameAt buffer) (buffer % 4096) src 0
            (4096 - buffer % 4096)).copy
          (m.pgdir.pte (ppn buffer + 1)).frame 0 src (4096 - buffer % 4096)
            (buffer % 4096)) := by
  simp only [kernbase] at hb
  obtain ⟨⟨ht, hm, hu⟩, h⟩ := copyoutFrameLoop_round (by decide) h
  refine ⟨⟨ht, hm, .inr hu⟩, ?_, ?_⟩
  · intro hal
    rw [hal] at h
    exact copyoutFrameLoop_done h
  · intro hoff
    have hlt : buffer % 4096 < 4096 := Nat.mod_lt _ (by decide)
    have hmin : min (4096 - buffer % 4096) 4096 = 4096 - buffer % 4096 := by omega
    have hleft : 4096 - (4096 - buffer % 4096) = buffer % 4096 := by omega
    have hnext : u32 (pgRoundDown buffer + 4096) = 4096 * (ppn buffer + 1) := by
      unfold u32 pgRoundDown ppn
      omega
    rw [hmin, hleft, hnext, Nat.zero_add] at h
    obtain ⟨⟨ht₂, hm₂, hu₂⟩, h⟩ := copyoutFrameLoop_round hoff h
    have hzero : 4096 * (ppn buffer + 1) % 4096 = 0 := by omega
    have hmin₂ : min (4096 - 0) (buffer % 4096) = buffer % 4096 := by omega
    rw [CS537.Pager.ppn_mul] at ht₂ hm₂ hu₂ h
    rw [hzero, hmin₂, Nat.sub_self] at h
    exact ⟨⟨ht₂, hm₂, .inr hu₂⟩, copyoutFrameLoop_done h⟩

/-! ## What the process reads -/

theorem Pte.decode_eq {pte : Pte} {b : UInt8} : pte.decode b = b ↔ pte.e = false := by
  unfold decode
  cases pte.e with
  | false => simp
  | true =>
      have hne : b ^^^ 255 ≠ b := by
        intro h
        have h255 : (255 : UInt8) = 0 :=
          calc (255 : UInt8) = b ^^^ (b ^^^ 255) := by
                rw [← UInt8.xor_assoc, UInt8.xor_self, UInt8.zero_xor]
            _ = 0 := by rw [h, UInt8.xor_self]
        exact absurd h255 (by decide)
      simp [hne]

theorem content_eq_decode (d : PgDir) (ph : Phys) (page i : Nat) :
    content d ph page i = (d.pte page).decode (ph.mem (d.pte page).frame i) := by
  unfold content Pte.decode
  split <;> rfl

/-- A copy into one page of a process is read back there, and nowhere else. -/
theorem Separate.content_copy (hs : Separate m) {p q : Nat} (hp : m.pgdir.UserMapped p)
    (hq : m.pgdir.UserMapped q) (off src start n i : Nat) (ph : Phys) :
    content m.pgdir (ph.copy (m.pgdir.pte p).frame off src start n) q i =
      if q = p ∧ off ≤ i ∧ i < off + n then
        (m.pgdir.pte p).decode (ph.mem src (start + (i - off)))
      else content m.pgdir ph q i := by
  rw [content_eq_decode, content_eq_decode, Phys.copy_mem]
  by_cases heq : q = p
  · subst heq
    simp only [true_and]
    split <;> rfl
  · have hframe : (m.pgdir.pte q).frame ≠ (m.pgdir.pte p).frame :=
      fun hf => heq (hs.distinct q p hq hp hf)
    rw [if_neg (fun h => hframe h.1), if_neg (fun h => heq h.1)]

/-- After the store the first page is there, and all pages read as before. -/
theorem kernelStore_spec {slots depth va tries : Nat} (hs : Separate m)
    (h : kernelStore slots depth va tries m = .ok m₁) : Recoded m m₁ := by
  induction tries generalizing m with
  | zero => cases h
  | succ tries ih =>
      rw [kernelStore] at h
      split at h
      · cases h
        exact .setRef m _ true
      · simp only [bind_eq_ok] at h
        obtain ⟨⟨retval, m₂⟩, hdec, h⟩ := h
        have hfirst := mdecrypt_recoded hs hdec
        simp only at h
        split at h
        · exact hfirst.trans (ih (hfirst.separate hs) h)
        · cases h

/-- A call that returns 0 has run to its end. -/
theorem sysDumpRawphymem_ok {slots depth tries pa buffer : Nat} (hsz : m.sz ≤ kernbase)
    (h : sysDumpRawphymem slots depth tries pa buffer m = .ok (0, m')) :
    buffer + 4096 ≤ m.sz ∧ ∃ m₁ ph', kernelStore slots depth buffer tries m = .ok m₁ ∧
      copyoutFrameLoop m₁.pgdir (pa / 4096) 4097 buffer 0 4096 m₁.phys = .ok (true, ph') ∧
      m' = { m₁ with phys := ph' } := by
  rw [sysDumpRawphymem] at h
  split at h
  · rename_i harg
    have hend := ((argptr_iff hsz ⟨by decide, by decide⟩).mp harg).2.2
    refine ⟨by omega, ?_⟩
    rw [dumpRawphymem] at h
    split at h
    · cases h
    · simp only [bind_eq_ok] at h
      obtain ⟨m₁, hstore, ⟨ok, ph'⟩, hcopy, h⟩ := h
      cases ok with
      | false => cases h
      | true =>
          cases h
          exact ⟨m₁, ph', hstore, hcopy, rfl⟩
  · cases h

/-- The bytes of an address in the first page of a buffer, and in the second one. -/
theorem buffer_page {buffer j : Nat} (hj : j < 4096) :
    (buffer % 4096 + j < 4096 →
        ppn (buffer + j) = ppn buffer ∧ (buffer + j) % 4096 = buffer % 4096 + j) ∧
      (4096 ≤ buffer % 4096 + j →
        ppn (buffer + j) = ppn buffer + 1 ∧
          (buffer + j) % 4096 = buffer % 4096 + j - 4096) := by
  unfold ppn
  omega

/-- The copy of an aligned buffer. -/
theorem delivered_aligned {src buffer : Nat} (hs : Separate m₁) (hrec : Recoded m m₁)
    (hp : m₁.pgdir.UserMapped (ppn buffer)) (hal : buffer % 4096 = 0) :
    Delivered m m₁ src buffer
        { m₁ with phys := m₁.phys.copy (m₁.frameAt buffer) 0 src 0 4096 } ↔
      (m₁.pgdir.pte (ppn buffer)).e = false := by
  have hread : ∀ j < 4096, ({ m₁ with phys := m₁.phys.copy (m₁.frameAt buffer) 0 src 0 4096 } :
      Machine).readByte (buffer + j) =
        (m₁.pgdir.pte (ppn buffer)).decode (m₁.phys.mem src j) := by
    intro j hj
    obtain ⟨hpage, hoff⟩ := (@buffer_page buffer _ hj).1 (by omega)
    rw [Machine.readByte, hpage, hoff]
    change content m₁.pgdir _ _ _ = _
    rw [Machine.frameAt, hs.content_copy hp hp, if_pos ⟨rfl, Nat.zero_le _, by omega⟩, hal]
    simp only [Nat.zero_add, Nat.sub_zero]
  constructor
  · intro hd
    exact Pte.decode_eq.mp ((hread 0 (by decide)).symm.trans (hd.bytes 0 (by decide)))
  · intro he
    constructor
    · intro j hj
      rw [hread j hj, Pte.decode_eq]
      exact he
    · intro va hva hout
      have hne : ppn va ≠ ppn buffer := by
        unfold ppn
        omega
      rw [Machine.readByte, Machine.readByte, ← hrec.content _ hva]
      change content m₁.pgdir _ _ _ = _
      rw [Machine.frameAt, hs.content_copy hp (hrec.userMapped.mpr hva), if_neg (fun h => hne h.1)]

/-- The copy of a buffer that lies in two pages. -/
theorem delivered_split {src buffer : Nat} (hs : Separate m₁) (hrec : Recoded m m₁)
    (hp : m₁.pgdir.UserMapped (ppn buffer)) (hp₂ : m₁.pgdir.UserMapped (ppn buffer + 1))
    {ph' : Phys}
    (hph : ph' = (m₁.phys.copy (m₁.frameAt buffer) (buffer % 4096) src 0
        (4096 - buffer % 4096)).copy
      (m₁.pgdir.pte (ppn buffer + 1)).frame 0 src (4096 - buffer % 4096) (buffer % 4096)) :
    Delivered m m₁ src buffer { m₁ with phys := ph' } ↔
      (m₁.pgdir.pte (ppn buffer)).e = false ∧
        ∀ j, 4096 - buffer % 4096 ≤ j → j < 4096 →
          (m₁.pgdir.pte (ppn buffer + 1)).decode (m₁.tailByte src buffer j) =
            m₁.phys.mem src j := by
  have hlt : buffer % 4096 < 4096 := Nat.mod_lt _ (by decide)
  have hhead : ∀ j, buffer % 4096 + j < 4096 →
      ({ m₁ with phys := ph' } : Machine).readByte (buffer + j) =
        (m₁.pgdir.pte (ppn buffer)).decode (m₁.phys.mem src j) := by
    intro j hj
    obtain ⟨hpage, hoff⟩ := (@buffer_page buffer _ (by omega)).1 hj
    rw [Machine.readByte, hpage, hoff]
    change content m₁.pgdir ph' _ _ = _
    rw [hph, hs.content_copy hp₂ hp, if_neg (by omega), Machine.frameAt,
      hs.content_copy hp hp, if_pos ⟨rfl, by omega, by omega⟩,
      show 0 + (buffer % 4096 + j - buffer % 4096) = j by omega]
  have htail : ∀ j, 4096 ≤ buffer % 4096 + j → j < 4096 →
      ({ m₁ with phys := ph' } : Machine).readByte (buffer + j) =
        (m₁.pgdir.pte (ppn buffer + 1)).decode (m₁.tailByte src buffer j) := by
    intro j hj hlt
    obtain ⟨hpage, hoff⟩ := (@buffer_page buffer _ hlt).2 hj
    rw [Machine.readByte, hpage, hoff]
    change content m₁.pgdir ph' _ _ = _
    have hstart : 4096 - buffer % 4096 + (buffer % 4096 + j - 4096 - 0) = j := by omega
    -- the source may be the first page, which has been written to
    rw [hph, hs.content_copy hp₂ hp₂, if_pos ⟨rfl, Nat.zero_le _, by omega⟩, hstart,
      Phys.copy_mem, Machine.tailByte, Machine.frameAt, Nat.zero_add]
    have hiff : (src = (m₁.pgdir.pte (ppn buffer)).frame ∧ buffer % 4096 ≤ j ∧
        j < buffer % 4096 + (4096 - buffer % 4096)) ↔
          src = (m₁.pgdir.pte (ppn buffer)).frame ∧ buffer % 4096 ≤ j :=
      and_congr_right fun _ => and_iff_left (by omega)
    simp only [hiff]
  constructor
  · intro hd
    constructor
    · exact Pte.decode_eq.mp ((hhead 0 (by omega)).symm.trans (hd.bytes 0 (by decide)))
    · intro j hj hlt'
      rw [← htail j (by omega) hlt']
      exact hd.bytes j hlt'
  · rintro ⟨he, hreads⟩
    constructor
    · intro j hj
      by_cases hin : buffer % 4096 + j < 4096
      · rw [hhead j hin, Pte.decode_eq]
        exact he
      · rw [htail j (by omega) hj]
        exact hreads j (by omega) hj
    · intro va hva hout
      have hva₁ := hrec.userMapped.mpr hva
      rw [Machine.readByte, Machine.readByte, ← hrec.content _ hva]
      change content m₁.pgdir ph' _ _ = _
      -- a byte of one of the two pages lies before the buffer or behind it
      rw [hph, hs.content_copy hp₂ hva₁, if_neg (by unfold ppn; omega), Machine.frameAt,
        hs.content_copy hp hva₁, if_neg (by unfold ppn; omega)]

/-- For a frame that is not the one behind the buffer's first page: the second page has
to be in the clear. -/
theorem tailReads_iff {src buffer : Nat} (hne : src ≠ m.frameAt buffer) :
    TailReads m src buffer ↔
      buffer % 4096 = 0 ∨ (m.pgdir.pte (ppn buffer + 1)).e = false := by
  have hbyte : ∀ j, m.tailByte src buffer j = m.phys.mem src j :=
    fun j => if_neg (fun h => hne h.1)
  have hlt : buffer % 4096 < 4096 := Nat.mod_lt _ (by decide)
  unfold TailReads
  by_cases hal : buffer % 4096 = 0
  · exact iff_of_true (.inl hal) (.inl hal)
  · rw [or_iff_right hal, or_iff_right hal]
    constructor
    · intro h
      have hlast := h 4095 (by omega) (by decide)
      rw [hbyte, Pte.decode_eq] at hlast
      exact hlast
    · intro he j _ _
      rw [hbyte, Pte.decode_eq]
      exact he

/-- `twoPages`, with its upper page encrypted. -/
def upperSealed : Machine :=
  twoPages.setPte 1 { twoPages.pgdir.pte 1 with p := false, e := true }

theorem separate_twoPages : Separate twoPages := by
  have hpte : ∀ {page}, twoPages.pgdir.UserMapped page →
      page < 2 ∧ (twoPages.pgdir.pte page).frame = 1026 + page := by
    intro page hp
    by_cases hlt : page < 2
    · refine ⟨hlt, ?_⟩
      change (if page < 2 then (⟨userFlags, 1026 + page⟩ : Pte) else Pte.zero).frame = _
      rw [if_pos hlt]
    · have hm := hp.mapped
      change (if page < 2 then (⟨userFlags, 1026 + page⟩ : Pte) else Pte.zero).mapped at hm
      rw [if_neg hlt] at hm
      cases hm
  refine ⟨by decide, ?_, List.nodup_nil, fun p _ h => (by cases h)⟩
  intro p q hp hq hf
  rw [(hpte hp).2, (hpte hq).2] at hf
  omega

theorem separate_upperSealed : Separate upperSealed := by
  have hframe : ∀ page, (upperSealed.pgdir.pte page).frame = (twoPages.pgdir.pte page).frame := by
    intro page
    rw [upperSealed, Machine.setPte_pgdir, PgDir.set_pte]
    split
    · rename_i heq
      rw [heq]
    · rfl
  have hmapped : ∀ {page}, upperSealed.pgdir.UserMapped page →
      twoPages.pgdir.UserMapped page := by
    intro page hp
    by_cases heq : page = 1
    · subst heq
      exact ⟨rfl, rfl, .inr rfl⟩
    · obtain ⟨ht, hm, hu⟩ := hp
      rw [upperSealed, Machine.setPte_pgdir, PgDir.set_pte, if_neg heq] at hm hu
      exact ⟨ht, hm, hu⟩
  have hs := separate_twoPages
  refine ⟨hs.size, ?_, List.nodup_nil, fun p _ h => (by cases h)⟩
  intro p q hp hq hf
  rw [hframe, hframe] at hf
  exact hs.distinct p q (hmapped hp) (hmapped hq) hf

end CS537.Pager
