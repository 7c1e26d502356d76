import CS537.Hashing.Table
import CS537.Lib.Probing
import Mathlib.Data.Finset.Card
import Mathlib.Data.List.Count

/-!
# Hashing — the map refines a finite map

The table of `hashmap.c` is a linear-probing layout (`Probing.Layout`) with an
empty slot to spare. Each operation has one specification lemma over that
invariant, and a sequence of puts represents the finite map that sends a key to
the value last put for it.
-/

namespace CS537.Hashing

open MachineInt Probing

/-- The representation invariant. -/
structure RepInv (m : HashMap) : Prop where
  sized : m.contents.length = m.capacity
  room : mapInitCapacity ≤ m.capacity
  someNull : none ∈ m.contents
  size_eq : m.size = m.contents.countP Option.isSome
  layout : Layout (hash · m.capacity) MapPair.key m.contents

/-! ## Probing -/

theorem slotAt_ofNat {t : List (Option MapPair)} {h : Nat} {x : Option MapPair}
    (hx : t[h]? = some x) : slotAt t (h : Int) = .ok x := by
  unfold slotAt
  rw [if_neg (by omega), Int.toNat_natCast, hx]

/-- The wrap of `h` in the probing loops is `Probing.next`. -/
theorem wrap_eq_next {n h : Nat} (hn : n < 2147483648) (hh : h < n) :
    (if toU64 (i32 ((h : Int) + 1)) = n then 0 else i32 ((h : Int) + 1)) = (next n h : Int) := by
  have h1 : i32 ((h : Int) + 1) = ((h + 1 : Nat) : Int) := by
    rw [i32_of_mem (by omega) (by omega)]; omega
  rw [h1, toU64_natCast (by omega), next]
  split <;> rfl

/-- The loop walks over the entries that fail `same`, and stops after them. -/
theorem probe_ok {t : List (Option MapPair)} {same : MapPair → Bool} {x : Option MapPair}
    (hn : t.length < 2147483648) (hsame : ∀ e, x = some e → same e = true) :
    ∀ {d fuel h : Nat}, h < t.length → d < fuel →
    t[spot t.length h d]? = some x →
    (∀ j < d, ∃ e, Holds t (spot t.length h j) e ∧ same e = false) →
    probe t t.length same fuel (h : Int) = .ok ((spot t.length h d : Nat), x)
  | 0, fuel + 1, h, hh, _, hx, _ => by
      rw [spot_zero hh] at hx ⊢
      simp only [probe, slotAt_ofNat hx]
      cases x with
      | none => rfl
      | some e => simp [hsame e rfl]
  | d + 1, fuel + 1, h, hh, hd, hx, hpass => by
      obtain ⟨e, he, hne⟩ := hpass 0 (by omega)
      rw [spot_zero hh] at he
      simp only [probe, slotAt_ofNat he, hne, Bool.false_eq_true, if_false, wrap_eq_next hn hh]
      rw [← spot_next] at hx ⊢
      refine probe_ok hn hsame (next_lt hh) (by omega) hx ?_
      intro j hj
      rw [spot_next]
      exact hpass (j + 1) (by omega)

/-- What a probing loop does on a table with an empty slot: it ends, within one
round, at the first slot that is empty or holds an entry that passes `same`. -/
theorem probe_spec {t : List (Option MapPair)} (same : MapPair → Bool) (fuel : Nat) {h : Nat}
    (hn : t.length < 2147483648) (hfuel : t.length ≤ fuel) (hnull : none ∈ t)
    (hh : h < t.length) :
    ∃ d < t.length, ∃ x, probe t t.length same fuel (h : Int) = .ok ((spot t.length h d : Nat), x) ∧
      t[spot t.length h d]? = some x ∧ (∀ e, x = some e → same e = true) ∧
      ∀ j < d, ∃ e, Holds t (spot t.length h j) e ∧ same e = false := by
  obtain ⟨s, hs⟩ := List.mem_iff_getElem?.mp hnull
  obtain ⟨d, hd, ⟨x, hx, hsame⟩, hbefore⟩ :=
    exists_first (fun s => ∃ x, t[s]? = some x ∧ ∀ e, x = some e → same e = true) hh
      (List.getElem?_eq_some_iff.mp hs).1 ⟨none, hs, by simp⟩
  have hpass : ∀ j < d, ∃ e, Holds t (spot t.length h j) e ∧ same e = false := by
    intro j hj
    have hlt := spot_lt j hh
    have hget := List.getElem?_eq_getElem hlt
    cases hy : t[spot t.length h j] with
    | none => exact absurd ⟨none, by rw [hget, hy], by simp⟩ (hbefore j hj)
    | some e =>
        refine ⟨e, by rw [Holds, hget, hy], ?_⟩
        cases hsame' : same e with
        | false => rfl
        | true =>
            refine absurd ⟨some e, by rw [hget, hy], ?_⟩ (hbefore j hj)
            rintro e' ⟨⟩
            exact hsame'
  exact ⟨d, hd, x, probe_ok hn hsame hh (by omega) hx hpass, hx, hsame, hpass⟩

/-- Slots walked over are full. -/
theorem fullBefore_of_pass {t : List (Option MapPair)} {same : MapPair → Bool} {h d : Nat}
    (hpass : ∀ j < d, ∃ e, Holds t (spot t.length h j) e ∧ same e = false) :
    FullBefore t h d := by
  intro j hj hnone
  obtain ⟨e, he, _⟩ := hpass j hj
  rw [Holds, hnone] at he
  cases he

/-! ## Counting -/

/-- A table with fewer entries than slots has an empty slot. -/
theorem none_mem_of_countP_lt {t : List (Option MapPair)}
    (h : t.countP Option.isSome < t.length) : none ∈ t := by
  by_contra hno
  have hall : ∀ x ∈ t, x.isSome = true := by
    intro x hx
    cases x with
    | none => exact absurd hx hno
    | some e => rfl
  rw [List.countP_eq_length.mpr hall] at h
  exact lt_irrefl _ h

theorem countP_lt_of_none_mem {t : List (Option MapPair)} (h : none ∈ t) :
    t.countP Option.isSome < t.length := by
  refine lt_of_le_of_ne List.countP_le_length fun heq => ?_
  simpa using List.countP_eq_length.mp heq none h

theorem countP_fill {t : List (Option MapPair)} {s : Nat} {e : MapPair} (h : t[s]? = some none) :
    (t.set s (some e)).countP Option.isSome = t.countP Option.isSome + 1 := by
  obtain ⟨hs, hget⟩ := List.getElem?_eq_some_iff.mp h
  simp [List.countP_set hs, hget]

theorem countP_overwrite {t : List (Option MapPair)} {s : Nat} {e e' : MapPair}
    (h : Holds t s e') :
    (t.set s (some e)).countP Option.isSome = t.countP Option.isSome := by
  obtain ⟨hs, hget⟩ := List.getElem?_eq_some_iff.mp h
  have hpos : 0 < t.countP Option.isSome := List.countP_pos_iff.mpr ⟨some e', h.mem, rfl⟩
  simp [List.countP_set hs, hget]
  omega

/-- Filling an empty slot adds one entry. -/
theorem mem_fill {t : List (Option MapPair)} {s : Nat} {e e' : MapPair}
    (h : t[s]? = some none) :
    some e' ∈ t.set s (some e) ↔ e' = e ∨ some e' ∈ t := by
  have hs := (List.getElem?_eq_some_iff.mp h).1
  constructor
  · intro hmem
    obtain ⟨s', hs'⟩ := exists_holds hmem
    rcases (holds_set hs).mp hs' with ⟨_, rfl⟩ | ⟨_, hold⟩
    · exact .inl rfl
    · exact .inr hold.mem
  · rintro (rfl | hmem)
    · exact ((holds_set hs).mpr (.inl ⟨rfl, rfl⟩)).mem
    · obtain ⟨s', hs'⟩ := exists_holds hmem
      refine ((holds_set hs).mpr (.inr ⟨?_, hs'⟩)).mem
      rintro rfl
      rw [Holds, h] at hs'
      cases hs'

/-- Overwriting an entry removes exactly the entry with its key. -/
theorem mem_overwrite {home : CString → Nat} {t : List (Option MapPair)} {s : Nat}
    {e e' b : MapPair} (h : Holds t s b) (hl : Layout home MapPair.key t) :
    some e' ∈ t.set s (some e) ↔ e' = e ∨ (some e' ∈ t ∧ e'.key ≠ b.key) := by
  constructor
  · intro hmem
    obtain ⟨s', hs'⟩ := exists_holds hmem
    rcases (holds_set h.lt).mp hs' with ⟨_, rfl⟩ | ⟨hne, hold⟩
    · exact .inl rfl
    · exact .inr ⟨hold.mem, fun hkey => hne (hl.unique hold h hkey)⟩
  · rintro (rfl | ⟨hmem, hkey⟩)
    · exact ((holds_set h.lt).mpr (.inl ⟨rfl, rfl⟩)).mem
    · obtain ⟨s', hs'⟩ := exists_holds hmem
      refine ((holds_set h.lt).mpr (.inr ⟨?_, hs'⟩)).mem
      rintro rfl
      exact hkey (congrArg MapPair.key (hs'.inj h))

/-! ## Resizing -/

/-- No two of the slots still to be rehashed hold the same key. -/
def DistinctKeys (rest : List (Option MapPair)) : Prop :=
  rest.Pairwise fun x y => ∀ a b, x = some a → y = some b → a.key ≠ b.key

theorem distinctKeys_of_layout {home : CString → Nat} {t : List (Option MapPair)}
    (h : Layout home MapPair.key t) : DistinctKeys t := by
  refine List.pairwise_iff_getElem.mpr ?_
  intro i j hi hj hij a b ha hb hkey
  have := h.unique (List.getElem?_eq_some_iff.mpr ⟨hi, ha⟩)
    (List.getElem?_eq_some_iff.mpr ⟨hj, hb⟩) hkey
  omega

/-- Rehashing moves every entry of the old table to the new one. -/
theorem rehash_spec {n fuel : Nat} (hn : n < 2147483648) (hfuel : n ≤ fuel) :
    ∀ (rest temp : List (Option MapPair)), temp.length = n →
    Layout (hash · n) MapPair.key temp → DistinctKeys rest →
    (∀ a b, some a ∈ temp → some b ∈ rest → a.key ≠ b.key) →
    temp.countP Option.isSome + rest.countP Option.isSome < n →
    ∃ temp', rehash fuel n rest temp = .ok temp' ∧ temp'.length = n ∧
      Layout (hash · n) MapPair.key temp' ∧
      (∀ e, some e ∈ temp' ↔ some e ∈ temp ∨ some e ∈ rest) ∧
      temp'.countP Option.isSome = temp.countP Option.isSome + rest.countP Option.isSome := by
  intro rest
  induction rest with
  | nil =>
      intro temp hlen hlay _ _ _
      exact ⟨temp, rfl, hlen, hlay, by simp, by simp⟩
  | cons x rest ih =>
      intro temp hlen hlay hdist hdisj hcount
      obtain ⟨hx, hrest⟩ := List.pairwise_cons.mp hdist
      cases x with
      | none =>
          simp only [List.countP_cons, Option.isSome_none, Bool.false_eq_true, if_false,
            Nat.add_zero] at hcount ⊢
          obtain ⟨temp', hok, h1, h2, h3, h4⟩ := ih temp hlen hlay hrest
            (fun a b ha hb => hdisj a b ha (List.mem_cons_of_mem _ hb)) hcount
          exact ⟨temp', hok, h1, h2, by simpa using h3, h4⟩
      | some entry =>
          simp only [List.countP_cons, Option.isSome_some, if_true] at hcount ⊢
          have hnull : none ∈ temp := none_mem_of_countP_lt (by omega)
          have hh : hash entry.key n < temp.length := by
            rw [hlen]; exact hash_lt _ (by omega)
          obtain ⟨d, hd, x, hprobe, hat, hsame, hpass⟩ :=
            probe_spec (fun _ => false) fuel (by omega) (by omega) hnull hh
          obtain rfl : x = none := by
            cases x with
            | none => rfl
            | some e => exact absurd (hsame e rfl) (by simp)
          have hnew : ∀ b, some b ∈ temp → b.key ≠ entry.key :=
            fun b hb => hdisj b entry hb (List.mem_cons_self ..)
          rw [hlen] at hprobe hat hd hpass
          have hlay' := hlay.insert (a := entry) (by rw [hlen]; exact hd) (by rw [hlen]; exact hat)
            (fullBefore_of_pass (by rw [hlen]; exact hpass)) hnew
          rw [hlen] at hlay'
          obtain ⟨temp', hok, h1, h2, h3, h4⟩ := ih _ (by simpa using hlen) hlay' hrest
            (by
              intro a b ha hb
              rcases (mem_fill hat).mp ha with rfl | ha
              · exact hx (some b) hb a b rfl rfl
              · exact hdisj a b ha (List.mem_cons_of_mem _ hb))
            (by rw [countP_fill hat]; omega)
          refine ⟨temp', ?_, h1, h2, ?_, ?_⟩
          · rw [rehash, i32_of_mem (by omega) (by omega), hprobe]
            exact hok
          · intro e
            rw [h3 e, mem_fill hat, List.mem_cons, Option.some.injEq]
            tauto
          · rw [h4, countP_fill hat]
            omega

/-- `resize_map` doubles the capacity, keeps the invariant and the entries. -/
theorem resizeMap_spec (fuel : Nat) {m : HashMap} (hm : RepInv m)
    (hcap : m.capacity * 2 < 2147483648) (hfuel : m.capacity * 2 ≤ fuel) :
    ∃ m', resizeMap fuel m = .ok m' ∧ RepInv m' ∧ m'.capacity = m.capacity * 2 ∧
      m'.size = m.size ∧ ∀ e, some e ∈ m'.contents ↔ some e ∈ m.contents := by
  have hlt := countP_lt_of_none_mem hm.someNull
  have hsized := hm.sized
  obtain ⟨temp', hok, h1, h2, h3, h4⟩ := rehash_spec hcap hfuel m.contents
    (List.replicate (m.capacity * 2) none) (by simp) (Layout.empty _)
    (distinctKeys_of_layout hm.layout)
    (fun a b ha => absurd (List.eq_of_mem_replicate ha) (by simp))
    (by simp [List.countP_replicate]; omega)
  have hcount : temp'.countP Option.isSome = m.contents.countP Option.isSome := by
    simpa [List.countP_replicate] using h4
  refine ⟨{ m with contents := temp', capacity := m.capacity * 2 }, ?_, ⟨h1, ?_, ?_, ?_, h2⟩,
    rfl, rfl, ?_⟩
  · rw [resizeMap, u64_of_lt (by omega), ← hsized, List.take_length, hsized, hok]
    rfl
  · have := hm.room
    show mapInitCapacity ≤ m.capacity * 2
    omega
  · exact none_mem_of_countP_lt (by rw [hcount, h1]; omega)
  · rw [hcount]
    exact hm.size_eq
  · intro e
    simp [h3 e, List.mem_replicate]

/-! ## Put and get -/

/-- The capacity a put leaves behind. -/
def capacityAfterPut (m : HashMap) : Nat :=
  if m.size > m.capacity / 2 then m.capacity * 2 else m.capacity

/-- What the resize that opens a put leaves: the same entries, in a table at
most half full. -/
theorem makeRoom_spec {m : HashMap} {fuel : Nat} (hm : RepInv m)
    (hcap : capacityAfterPut m < 2147483648) (hfuel : 2147483648 ≤ fuel) :
    ∃ m', makeRoom fuel m = .ok m' ∧ RepInv m' ∧ m'.capacity = capacityAfterPut m ∧
      m'.size = m.size ∧ m'.size ≤ m'.capacity / 2 ∧ ∀ e, some e ∈ m'.contents ↔ some e ∈ m.contents := by
  unfold makeRoom
  unfold capacityAfterPut at hcap ⊢
  by_cases hfull : m.size > m.capacity / 2
  · simp only [if_pos hfull] at hcap ⊢
    obtain ⟨m', hok, hinv, hc, hs, he⟩ := resizeMap_spec fuel hm hcap (by omega)
    have hlt := countP_lt_of_none_mem hm.someNull
    have := hm.size_eq
    have := hm.sized
    exact ⟨m', hok, hinv, hc, hs, by rw [hs, hc]; omega, he⟩
  · simp only [if_neg hfull] at hcap ⊢
    exact ⟨m, rfl, hm, rfl, rfl, by omega, fun _ => Iff.rfl⟩

/-- The probe for a key in a valid table: it ends at the key's entry if there
is one, and otherwise at the empty slot the key belongs in. -/
theorem probeKey_spec {t : List (Option MapPair)} {size : Nat} (fuel : Nat) (key : CString)
    (hm : RepInv ⟨t, t.length, size⟩) (hcap : t.length < 2147483648) (hfuel : t.length ≤ fuel) :
    ∃ d < t.length, ∃ x,
      probe t t.length (fun e => key.strcmp e.key = 0) fuel (i32 (hash key t.length)) =
        .ok ((spot t.length (hash key t.length) d : Nat), x) ∧
      t[spot t.length (hash key t.length) d]? = some x ∧
      FullBefore t (hash key t.length) d ∧
      (∀ e, x = some e → e.key = key) ∧
      ∀ e, some e ∈ t → e.key = key → x = some e := by
  have hroom : 11 ≤ t.length := hm.room
  have hh : hash key t.length < t.length := hash_lt _ (by omega)
  obtain ⟨d, hd, x, hprobe, hat, hsame, hpass⟩ :=
    probe_spec (fun e => key.strcmp e.key = 0) fuel hcap hfuel hm.someNull hh
  have hkey : ∀ e, x = some e → e.key = key := by
    intro e he
    simpa [eq_comm] using hsame e he
  refine ⟨d, hd, x, ?_, hat, fullBefore_of_pass hpass, hkey, ?_⟩
  · rw [i32_of_mem (by omega) (by omega)]
    exact hprobe
  · rintro e he rfl
    have hother : ∀ j < d, ∀ b, Holds t (spot t.length (hash e.key t.length) j) b →
        b.key ≠ e.key := by
      intro j hj b hb heq
      obtain ⟨b', hb', hne⟩ := hpass j hj
      obtain rfl := hb.inj hb'
      simp [heq] at hne
    have hfound : Holds t (spot t.length (hash e.key t.length) d) e := by
      refine hm.layout.found he hother ?_
      cases x with
      | none => exact .inl hat
      | some b => exact .inr ⟨b, hat, hkey b rfl⟩
    rw [Holds, hat] at hfound
    simpa using hfound

/-- `MapGet` finds the entry of a key, and the null pointer if there is none. -/
theorem mapGet_spec (fuel : Nat) {m : HashMap} (hm : RepInv m) (key : CString)
    (hcap : m.capacity < 2147483648) (hfuel : m.capacity ≤ fuel) :
    ∃ r, mapGet fuel m key = .ok r ∧
      ∀ value, r = some value ↔ some ⟨key, value⟩ ∈ m.contents := by
  obtain ⟨t, capacity, size⟩ := m
  obtain rfl : t.length = capacity := hm.sized
  obtain ⟨d, _, x, hprobe, hat, _, hkey, hfound⟩ := probeKey_spec fuel key hm hcap hfuel
  refine ⟨x.map MapPair.value, ?_, ?_⟩
  · rw [mapGet, hprobe]
    rfl
  · intro value
    constructor
    · intro h
      obtain ⟨e, rfl, rfl⟩ := Option.map_eq_some_iff.mp h
      obtain rfl := hkey e rfl
      exact List.mem_of_getElem? hat
    · intro h
      rw [hfound _ h rfl]
      rfl

/-- `MapPut` binds the key, keeps every other entry and the invariant, and
counts a new key. -/
theorem mapPut_spec {m : HashMap} {fuel : Nat} (hm : RepInv m) (key : CString)
    (value : List UInt8) (hcap : capacityAfterPut m < 2147483648) (hfuel : 2147483648 ≤ fuel) :
    ∃ m', mapPut fuel m key value = .ok m' ∧ RepInv m' ∧ m'.capacity = capacityAfterPut m ∧
      (∀ e, some e ∈ m'.contents ↔ e = ⟨key, value⟩ ∨ (some e ∈ m.contents ∧ e.key ≠ key)) ∧
      ((∃ e, some e ∈ m.contents ∧ e.key = key) → m'.size = m.size) ∧
      ((∀ e, some e ∈ m.contents → e.key ≠ key) → m'.size = m.size + 1) := by
  obtain ⟨⟨t, capacity, size⟩, hroom, hinv, hc, hs, hhalf, he⟩ := makeRoom_spec hm hcap hfuel
  obtain rfl : t.length = capacity := hinv.sized
  simp only at hc hs hhalf he
  obtain ⟨d, hd, x, hprobe, hat, hfull, hkey, hfound⟩ :=
    probeKey_spec fuel key hinv (by omega) (by omega)
  have hsize : size = t.countP Option.isSome := hinv.size_eq
  have hbig : 11 ≤ t.length := hinv.room
  have hlay : Layout (hash · t.length) MapPair.key t := hinv.layout
  cases x with
  | none =>
      have hnew : ∀ e, some e ∈ t → e.key ≠ key :=
        fun e hmem heq => absurd (hfound e hmem heq) (by simp)
      refine ⟨⟨t.set (spot t.length (hash key t.length) d) (some ⟨key, value⟩), t.length,
        size + 1⟩, ?_, ⟨List.length_set, hinv.room, ?_, ?_, ?_⟩, hc, ?_, ?_, ?_⟩
      · rw [mapPut, hroom]
        show (probe t t.length _ fuel _ >>= _) = _
        have hu : u64 (size + 1) = size + 1 := u64_of_lt (by omega)
        rw [hprobe]
        show Except.ok (HashMap.mk _ _ (u64 (size + 1))) = _
        rw [hu]
        rfl
      · refine none_mem_of_countP_lt ?_
        rw [countP_fill hat, List.length_set]
        omega
      · rw [countP_fill hat, hsize]
      · have := hlay.insert (a := MapPair.mk key value) hd hat hfull hnew
        simpa using this
      · intro e
        rw [mem_fill hat, ← he e]
        constructor
        · rintro (rfl | hmem)
          · exact .inl rfl
          · exact .inr ⟨hmem, hnew e hmem⟩
        · rintro (rfl | ⟨hmem, _⟩)
          · exact .inl rfl
          · exact .inr hmem
      · rintro ⟨e, hmem, heq⟩
        exact absurd heq (hnew e ((he e).mpr hmem))
      · intro _
        show size + 1 = m.size + 1
        rw [hs]
  | some b =>
      obtain rfl := hkey b rfl
      have hb : Holds t (spot t.length (hash b.key t.length) d) b := hat
      refine ⟨⟨t.set (spot t.length (hash b.key t.length) d) (some ⟨b.key, value⟩), t.length,
        size⟩, ?_, ⟨List.length_set, hinv.room, ?_, ?_, ?_⟩, hc, ?_, ?_, ?_⟩
      · rw [mapPut, hroom]
        show (probe t t.length _ fuel _ >>= _) = _
        rw [hprobe]
        rfl
      · refine none_mem_of_countP_lt ?_
        rw [countP_overwrite hb, List.length_set]
        exact countP_lt_of_none_mem hinv.someNull
      · rw [countP_overwrite hb, hsize]
      · have := hlay.replace (a := MapPair.mk b.key value) hb rfl
        simpa using this
      · intro e
        rw [mem_overwrite hb hlay, he e]
      · intro _
        exact hs
      · intro hno
        exact absurd rfl (hno b ((he b).mp hb.mem))

/-! ## Sequences of puts -/

/-- The finite map a sequence of puts describes: the last value put for a key. -/
def lastPut (puts : List (CString × List UInt8)) (key : CString) : Option (List UInt8) :=
  ((puts.filter fun kv => kv.1 = key).getLast?).map Prod.snd

/-- The keys put. -/
def keysPut (puts : List (CString × List UInt8)) : Finset CString :=
  (puts.map Prod.fst).toFinset

/-- Every put of the sequence leaves a capacity below `2^31`. -/
def CapacityFits (fuel : Nat) (puts : List (CString × List UInt8)) : Prop :=
  ∀ done kv, done ++ [kv] <+: puts → ∀ m, mapPuts fuel done = .ok m →
    capacityAfterPut m < 2147483648

@[simp] theorem lastPut_nil (key : CString) : lastPut [] key = none := rfl

theorem lastPut_append (puts : List (CString × List UInt8)) (k : CString) (v : List UInt8)
    (key : CString) :
    lastPut (puts ++ [(k, v)]) key = if k = key then some v else lastPut puts key := by
  unfold lastPut
  by_cases h : k = key <;> simp [List.filter_append, h]

theorem lastPut_isSome {puts : List (CString × List UInt8)} {key : CString} :
    (∃ v, lastPut puts key = some v) ↔ key ∈ keysPut puts := by
  induction puts using List.reverseRecOn with
  | nil => simp [keysPut]
  | append_singleton puts kv ih =>
      obtain ⟨k, v⟩ := kv
      rw [lastPut_append]
      by_cases h : k = key
      · simp [keysPut, h]
      · rw [if_neg h, ih]
        simp [keysPut, Ne.symm h]

theorem keysPut_append (puts : List (CString × List UInt8)) (k : CString) (v : List UInt8) :
    keysPut (puts ++ [(k, v)]) = insert k (keysPut puts) := by
  ext key
  simp [keysPut]

/-- The table represents the finite map of the puts so far. -/
structure Represents (m : HashMap) (puts : List (CString × List UInt8)) : Prop where
  valid : RepInv m
  entries : ∀ k v, some ⟨k, v⟩ ∈ m.contents ↔ lastPut puts k = some v
  size : m.size = (keysPut puts).card

theorem mapInit_represents : Represents mapInit [] where
  valid :=
    { sized := rfl
      room := Nat.le_refl _
      someNull := by decide
      size_eq := by decide
      layout := Layout.empty _ }
  entries := by
    intro k v
    constructor
    · intro h
      exact absurd (List.eq_of_mem_replicate h) (by simp)
    · intro h
      cases h
  size := rfl

/-- One put moves the represented finite map one put on. -/
theorem mapPut_represents {m : HashMap} {puts : List (CString × List UInt8)} {fuel : Nat}
    (hm : Represents m puts) (k : CString) (v : List UInt8)
    (hcap : capacityAfterPut m < 2147483648) (hfuel : 2147483648 ≤ fuel) :
    ∃ m', mapPut fuel m k v = .ok m' ∧ Represents m' (puts ++ [(k, v)]) ∧
      m'.capacity < 2147483648 := by
  obtain ⟨m', hok, hinv, hc, hmem, hold, hnew⟩ := mapPut_spec hm.valid k v hcap hfuel
  have hbound : ∀ k, (∃ e, some e ∈ m.contents ∧ e.key = k) ↔ k ∈ keysPut puts := by
    intro k
    rw [← lastPut_isSome]
    constructor
    · rintro ⟨e, he, rfl⟩
      exact ⟨e.value, (hm.entries e.key e.value).mp he⟩
    · rintro ⟨v, hv⟩
      exact ⟨⟨k, v⟩, (hm.entries k v).mpr hv, rfl⟩
  refine ⟨m', hok, ⟨hinv, ?_, ?_⟩, hc ▸ hcap⟩
  · intro k' v'
    rw [hmem, lastPut_append, hm.entries]
    by_cases h : k = k'
    · subst h
      simp [eq_comm]
    · simp [h, Ne.symm h]
  · rw [keysPut_append]
    by_cases h : k ∈ keysPut puts
    · rw [Finset.insert_eq_of_mem h, ← hm.size]
      exact hold ((hbound k).mpr h)
    · rw [Finset.card_insert_of_notMem h, ← hm.size]
      exact hnew fun e he heq => h ((hbound k).mp ⟨e, he, heq⟩)

theorem mapPuts_represents {fuel : Nat} (hfuel : 2147483648 ≤ fuel)
    (puts : List (CString × List UInt8)) (hcap : CapacityFits fuel puts) :
    ∃ m, mapPuts fuel puts = .ok m ∧ Represents m puts ∧ m.capacity < 2147483648 := by
  induction puts using List.reverseRecOn with
  | nil => exact ⟨mapInit, rfl, mapInit_represents, by decide⟩
  | append_singleton puts kv ih =>
      obtain ⟨m, hok, hm, _⟩ := ih fun done kv' hpre => hcap done kv' (hpre.trans (by simp))
      obtain ⟨m', hok', hm', hlt⟩ := mapPut_represents hm kv.1 kv.2
        (hcap puts kv (List.prefix_refl _) m hok) hfuel
      refine ⟨m', ?_, hm', hlt⟩
      rw [mapPuts] at hok ⊢
      rw [List.foldlM_append, hok]
      show mapPut fuel m kv.1 kv.2 >>= pure = _
      rw [hok']
      rfl

/-- A put doubles the capacity only when there are keys to fill it. -/
theorem capacityAfterPut_le {m : HashMap} (h : m.capacity ≤ 11 + 4 * m.size) :
    capacityAfterPut m ≤ 11 + 4 * m.size := by
  unfold capacityAfterPut
  split <;> omega

/-- The capacity grows with the number of keys only. -/
theorem mapPuts_capacity {fuel : Nat} (hfuel : 2147483648 ≤ fuel)
    (puts : List (CString × List UInt8)) (hlen : puts.length ≤ 536870909) {m : HashMap}
    (hok : mapPuts fuel puts = .ok m) :
    Represents m puts ∧ capacityAfterPut m ≤ 11 + 4 * m.size := by
  induction puts using List.reverseRecOn generalizing m with
  | nil =>
      cases hok
      exact ⟨mapInit_represents, by decide⟩
  | append_singleton puts kv ih =>
      rw [mapPuts, List.foldlM_append] at hok
      cases hm : mapPuts fuel puts with
      | error f =>
          rw [mapPuts] at hm
          rw [hm] at hok
          cases hok
      | ok m₀ =>
          rw [List.length_append, List.length_singleton] at hlen
          obtain ⟨hrep, hle⟩ := ih (by omega) hm
          have hsize : m₀.size ≤ puts.length := by
            rw [hrep.size]
            simpa [keysPut] using List.toFinset_card_le (puts.map Prod.fst)
          obtain ⟨m', hok', hrep', _⟩ := mapPut_represents hrep kv.1 kv.2 (by omega) hfuel
          obtain ⟨m'', hok'', _, hc, _, hold, hnew⟩ :=
            mapPut_spec hrep.valid kv.1 kv.2 (by omega) hfuel
          rw [mapPuts] at hm
          rw [hm] at hok
          have : mapPut fuel m₀ kv.1 kv.2 >>= pure = .ok m := hok
          rw [hok'] at this hok''
          cases this
          cases hok''
          refine ⟨hrep', ?_⟩
          have hgrow : m₀.size ≤ m.size := by
            by_cases h : ∃ e, some e ∈ m₀.contents ∧ e.key = kv.1
            · exact le_of_eq (hold h).symm
            · have := hnew fun e he heq => h ⟨e, he, heq⟩
              omega
          exact capacityAfterPut_le (by omega)

/-- Up to `2^29 - 3` puts the capacity is below `2^31`. -/
theorem capacityFits_of_length (fuel : Nat) (hfuel : 2147483648 ≤ fuel)
    (puts : List (CString × List UInt8)) (hlen : puts.length ≤ 536870909) :
    CapacityFits fuel puts := by
  intro done kv hpre m hok
  have hdone : done.length < puts.length := by
    have := hpre.length_le
    rw [List.length_append, List.length_singleton] at this
    omega
  obtain ⟨hrep, hle⟩ := mapPuts_capacity hfuel done (by omega) hok
  have hsize : m.size ≤ done.length := by
    rw [hrep.size]
    simpa [keysPut] using List.toFinset_card_le (done.map Prod.fst)
  omega

/-- **The hash map refines a finite map.** A sequence of puts from `MapInit`
ends; then `MapGet` returns the last value put for a key and the null pointer
for a key never put, `MapSize` counts the distinct keys, and no key is in two
slots. Every put and every resize keeps the representation invariant. Fuel
`2^31` stands for any larger amount: no loop takes more rounds. -/
theorem mapPuts_refines (fuel : Nat) (hfuel : 2147483648 ≤ fuel)
    (puts : List (CString × List UInt8)) (hcap : CapacityFits fuel puts) :
    (∃ m, mapPuts fuel puts = .ok m ∧ RepInv m ∧
      (∀ key, mapGet fuel m key = .ok (lastPut puts key)) ∧
      mapSize m = (keysPut puts).card ∧
      ∀ s s' e e', Holds m.contents s e → Holds m.contents s' e' → e.key = e'.key → s = s') ∧
    (∀ m key value, RepInv m → capacityAfterPut m < 2147483648 →
      ∃ m', mapPut fuel m key value = .ok m' ∧ RepInv m') ∧
    (∀ m, RepInv m → m.capacity * 2 < 2147483648 →
      ∃ m', resizeMap fuel m = .ok m' ∧ RepInv m') := by
  refine ⟨?_, ?_, ?_⟩
  · obtain ⟨m, hok, hm, hlt⟩ := mapPuts_represents hfuel puts hcap
    refine ⟨m, hok, hm.valid, ?_, hm.size, fun s s' e e' => hm.valid.layout.unique⟩
    intro key
    obtain ⟨r, hget, hr⟩ := mapGet_spec fuel hm.valid key hlt (by omega)
    have : r = lastPut puts key := by
      refine Option.ext fun v => ?_
      rw [hr, hm.entries]
    rw [hget, this]
  · intro m key value hm hc
    obtain ⟨m', hok, hinv, _⟩ := mapPut_spec hm key value hc hfuel
    exact ⟨m', hok, hinv⟩
  · intro m hm hc
    obtain ⟨m', hok, hinv, _⟩ := resizeMap_spec fuel hm hc (by omega)
    exact ⟨m', hok, hinv⟩

theorem mapPuts_refines_three :
    ∃ m, mapPuts 2147483648 [(⟨[97], by decide⟩, [1]), (⟨[98], by decide⟩, [2]),
        (⟨[97], by decide⟩, [3])] = .ok m ∧
      mapGet 2147483648 m ⟨[97], by decide⟩ = .ok (some [3]) ∧ mapSize m = 2 := by
  have hcap := capacityFits_of_length 2147483648 (by decide)
    [(⟨[97], by decide⟩, [1]), (⟨[98], by decide⟩, [2]), (⟨[97], by decide⟩, [3])] (by decide)
  obtain ⟨⟨m, hok, _, hget, hsize, _⟩, _⟩ := mapPuts_refines 2147483648 (by decide) _ hcap
  exact ⟨m, hok, hget _, hsize⟩

end CS537.Hashing
