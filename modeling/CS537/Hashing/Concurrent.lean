import CS537.Hashing.Refine
import CS537.Lib.Lts
import Mathlib.Data.Fintype.Basic

/-!
# Hashing — `MapGet` beside other threads

`MapPut` does all its work under the write lock and is one step. `MapGet` probes
under the read lock, which is one step, and then, without the lock, reads
`hashmap->contents`, the slot `h` of that array, and the `value` of the pair it
finds there: three more steps, with puts of other threads between them. A put that
resizes the map frees the array, and a put of a key that is there frees its pair.

An array is known by how many resizes came before it and a pair by how often its
key was put anew, so a pointer dangles when that number has moved on.
-/

namespace CS537.Hashing

open MachineInt Probing Lts

variable {T : Type} [DecidableEq T]

/-- Where a thread is. `start` and `stop` are the moments a call of `MapGet` spans,
counted in puts. -/
inductive Pc where
  | idle
  /-- `MapGet` has found `key` in slot `h` and unlocked. -/
  | unlocked (key : CString) (h : Int) (start : Nat)
  /-- It has read `hashmap->contents`. -/
  | indexing (key : CString) (h : Int) (array start : Nat)
  /-- It has read `contents[h]`. -/
  | loading (key : CString) (e : MapPair) (version start : Nat)
  | returned (key : CString) (result : Option (List UInt8)) (start stop : Nat)
  /-- It has followed a null or a dangling pointer. -/
  | faulted
  deriving DecidableEq

/-- The map, the number of its array and of the pair of each key, the maps there
have been up to this one, and the threads. -/
structure State (T : Type) where
  map : HashMap
  array : Nat
  version : CString → Nat
  history : List HashMap
  pc : T → Pc

inductive Event (T : Type) where
  | put (t : T) (key : CString) (value : List UInt8)
  /-- `MapGet`, up to where it unlocks. -/
  | get (t : T) (key : CString)
  /-- The next access of a `MapGet` that has unlocked. -/
  | read (t : T)

def State.goto (s : State T) (t : T) (pc : Pc) : State T :=
  { s with pc := Function.update s.pc t pc }

/-- The moment a step belongs to. -/
def State.now (s : State T) : Nat := s.history.length - 1

/-- `MapPut` finds the key and frees its pair. -/
def HashMap.replaces (map : HashMap) (key : CString) : Bool :=
  map.contents.any fun slot => slot.any fun e => e.key = key

/-- `MapPut` resizes the map first. -/
def HashMap.resizes (map : HashMap) : Bool := map.size > map.capacity / 2

/-- `contents[h]`, through a pointer to an array. -/
def readSlot (s : State T) (key : CString) (h : Int) (array start : Nat) : Pc :=
  if array ≠ s.array then .faulted
  else
    match slotAt s.map.contents h with
    | .ok (some e) => .loading key e (s.version e.key) start
    | _ => .faulted

/-- `->value`, through a pointer to a pair. -/
def readValue (s : State T) (key : CString) (e : MapPair) (version start : Nat) : Pc :=
  if version ≠ s.version e.key then .faulted
  else .returned key (some e.value) start s.now

def Pc.free : Pc → Bool
  | .idle => true
  | .returned _ _ _ _ => true
  | _ => false

/-- `MapPut`. -/
def putStep (fuel : Nat) (s : State T) (t : T) (key : CString) (value : List UInt8) :
    State T :=
  match mapPut fuel s.map key value with
  | .error _ => s.goto t .faulted
  | .ok map =>
      { s with
        map := map
        array := if s.map.resizes then s.array + 1 else s.array
        version := if s.map.replaces key then
          Function.update s.version key (s.version key + 1) else s.version
        history := s.history ++ [map] }

/-- `MapGet` under the lock. -/
def getStep (fuel : Nat) (s : State T) (t : T) (key : CString) : State T :=
  match probe s.map.contents s.map.capacity (fun e => key.strcmp e.key = 0) fuel
      (i32 (hash key s.map.capacity)) with
  | .error _ => s.goto t .faulted
  | .ok (_, none) => s.goto t (.returned key none s.now s.now)
  | .ok (h, some _) => s.goto t (.unlocked key h s.now)

/-- One step. -/
def next (fuel : Nat) (s : State T) : Event T → Option (State T)
  | .put t key value => if (s.pc t).free then some (putStep fuel s t key value) else none
  | .get t key => if (s.pc t).free then some (getStep fuel s t key) else none
  | .read t =>
      match s.pc t with
      | .unlocked key h start => some (s.goto t (.indexing key h s.array start))
      | .indexing key h array start => some (s.goto t (readSlot s key h array start))
      | .loading key e version start => some (s.goto t (readValue s key e version start))
      | _ => none

def Step (fuel : Nat) (s : State T) (e : Event T) (s' : State T) : Prop := next fuel s e = some s'

/-- After `MapInit`. -/
def start : State T where
  map := mapInit
  array := 0
  version := fun _ => 0
  history := [mapInit]
  pc := fun _ => .idle

/-! ## What a get may return -/

/-- What the map binds the key to. -/
def Bound (m : HashMap) (key : CString) (r : Option (List UInt8)) : Prop :=
  ∀ v, r = some v ↔ some ⟨key, v⟩ ∈ m.contents

/-- At some moment between `first` and `last` the key was bound so. -/
def State.Answers (s : State T) (key : CString) (r : Option (List UInt8))
    (first last : Nat) : Prop :=
  ∃ i m, first ≤ i ∧ i ≤ last ∧ s.history[i]? = some m ∧ Bound m key r

/-- The thread has followed no bad pointer, and if its call has returned, then
something the key was bound to during the call. -/
def Pc.Right (s : State T) (pc : Pc) : Prop :=
  pc ≠ .faulted ∧
    ∀ key r first last, pc = .returned key r first last → s.Answers key r first last

/-- `MapGet` is between its unlock and its read of `contents[h]`. -/
def Pc.holdsSlot : Pc → Bool
  | .unlocked _ _ _ => true
  | .indexing _ _ _ _ => true
  | _ => false

/-- `MapGet` is between its read of `contents[h]` and its read of the value of the
pair of `key`. -/
def Pc.holdsPair (key : CString) : Pc → Bool
  | .loading _ e _ _ => e.key = key
  | _ => false

/-- The put frees nothing that a get is about to read. -/
def Quiet (s : State T) : Event T → Prop
  | .put _ key _ => capacityAfterPut s.map < 2147483648 ∧
      (s.map.resizes → ∀ t, (s.pc t).holdsSlot = false) ∧
      (s.map.replaces key → ∀ t, (s.pc t).holdsPair key = false)
  | _ => True

/-! ## One put -/

/-- A put that does not resize leaves each slot its key. -/
theorem mapPut_slots {m m' : HashMap} {fuel : Nat} (hm : RepInv m)
    (hcap : m.capacity < 2147483648) (hfuel : 2147483648 ≤ fuel) {key : CString}
    {value : List UInt8} (hno : m.resizes = false) (h : mapPut fuel m key value = .ok m')
    {n : Nat} {e : MapPair} (he : Holds m.contents n e) :
    ∃ e', Holds m'.contents n e' ∧ e'.key = e.key := by
  obtain ⟨t, capacity, size⟩ := m
  obtain rfl : t.length = capacity := hm.sized
  have hroom : makeRoom fuel ⟨t, t.length, size⟩ = .ok ⟨t, t.length, size⟩ := by
    rw [makeRoom, if_neg (by simpa [HashMap.resizes] using hno)]
  obtain ⟨d, _, x, hprobe, hat, _, hkey, _⟩ :=
    probeKey_spec fuel key hm hcap (Nat.le_trans (Nat.le_of_lt hcap) hfuel)
  have hs := (List.getElem?_eq_some_iff.mp hat).1
  have hcontents : m'.contents
      = t.set (spot t.length (hash key t.length) d) (some ⟨key, value⟩) := by
    rw [mapPut, hroom] at h
    change (probe t t.length _ fuel _ >>= _) = _ at h
    rw [hprobe] at h
    cases x with
    | none =>
        cases h
        rfl
    | some b =>
        cases h
        rfl
  rw [hcontents]
  by_cases hn : n = spot t.length (hash key t.length) d
  · subst hn
    refine ⟨⟨key, value⟩, (holds_set hs).mpr (.inl ⟨rfl, rfl⟩), ?_⟩
    -- the slot was not empty, so the probe ended there at the key
    rw [Holds, hat] at he
    exact (hkey e (Option.some.inj he)).symm
  · exact ⟨e, (holds_set hs).mpr (.inr ⟨hn, he⟩), rfl⟩

/-- What is in a slot is what its key is bound to. -/
theorem bound_of_holds {m : HashMap} (hm : RepInv m) {n : Nat} {e : MapPair}
    (h : Holds m.contents n e) : Bound m e.key (some e.value) := by
  intro v
  constructor
  · intro hv
    cases hv
    exact h.mem
  · intro hmem
    obtain ⟨n', hn'⟩ := exists_holds hmem
    obtain rfl := hm.layout.unique h hn' rfl
    rw [h.inj hn']

/-! ## The invariant -/

/-- Slot `h` holds the key. -/
def State.Slot (s : State T) (key : CString) (h : Int) : Prop :=
  ∃ (n : Nat) (e : MapPair), h = n ∧ Holds s.map.contents n e ∧ e.key = key

/-- What a thread may rely on where it is. -/
def Pc.Ok (s : State T) : Pc → Prop
  | .idle => True
  | .unlocked key h first => first ≤ s.now ∧ s.Slot key h
  | .indexing key h array first => array = s.array ∧ first ≤ s.now ∧ s.Slot key h
  | .loading key e version first =>
      version = s.version e.key ∧ e.key = key ∧ s.Answers key (some e.value) first s.now
  | .returned key r first last => s.Answers key r first last
  | .faulted => False

structure Inv (s : State T) : Prop where
  valid : RepInv s.map
  fits : s.map.capacity < 2147483648
  current : s.history[s.now]? = some s.map
  pc : ∀ t, (s.pc t).Ok s

omit [DecidableEq T] in
theorem Inv.start : Inv (Hashing.start : State T) where
  valid := mapInit_represents.valid
  fits := by
    change 11 < 2147483648
    decide
  current := rfl
  pc _ := trivial

omit [DecidableEq T] in
theorem Inv.answers {s : State T} (h : Inv s) {key : CString} {r : Option (List UInt8)}
    {first : Nat} (hfirst : first ≤ s.now) (hr : Bound s.map key r) :
    s.Answers key r first s.now :=
  ⟨s.now, s.map, hfirst, Nat.le_refl _, h.current, hr⟩

/-- Moving one thread on. -/
theorem Inv.goto {s : State T} (h : Inv s) (t : T) {pc : Pc} (hpc : pc.Ok s) :
    Inv (s.goto t pc) where
  valid := h.valid
  fits := h.fits
  current := h.current
  pc := by
    intro u
    have hsame : ∀ p : Pc, p.Ok s → p.Ok (s.goto t pc) := by
      intro p hp
      cases p <;> exact hp
    change (Function.update s.pc t pc u).Ok (s.goto t pc)
    by_cases hu : u = t
    · rw [hu, Function.update_self]
      exact hsame pc hpc
    · rw [Function.update_of_ne hu]
      exact hsame _ (h.pc u)

/-! ## The steps -/

variable {fuel : Nat} {s s' : State T}

theorem Inv.getStep (h : Inv s) (hfuel : 2147483648 ≤ fuel) (t : T) (key : CString) :
    Inv (getStep fuel s t key) := by
  have hlen : s.map.contents.length = s.map.capacity := h.valid.sized
  have hm : RepInv ⟨s.map.contents, s.map.contents.length, s.map.size⟩ := by
    rw [hlen]
    exact h.valid
  have hcap := h.fits
  obtain ⟨d, _, x, hprobe, hat, _, hkey, hfound⟩ :=
    probeKey_spec fuel key hm (by omega) (by omega)
  rw [hlen] at hprobe hat
  rw [Hashing.getStep, hprobe]
  cases x with
  | none =>
      apply h.goto
      apply h.answers (Nat.le_refl _)
      intro v
      constructor
      · intro hv
        cases hv
      · intro hmem
        cases hfound ⟨key, v⟩ hmem rfl
  | some e =>
      apply h.goto
      exact ⟨Nat.le_refl _, _, e, rfl, hat, hkey e rfl⟩

theorem Inv.readStep (h : Inv s) {t : T} (hstep : next fuel s (.read t) = some s') : Inv s' := by
  have hok := h.pc t
  rw [next] at hstep
  split at hstep
  · rename_i key h' first hpc
    cases hstep
    rw [hpc] at hok
    exact h.goto t ⟨rfl, hok⟩
  · rename_i key h' array first hpc
    cases hstep
    rw [hpc] at hok
    obtain ⟨rfl, hfirst, n, e, rfl, he, rfl⟩ := hok
    apply h.goto
    rw [readSlot, if_neg (not_not.mpr rfl), slotAt_ofNat he]
    exact ⟨rfl, rfl, h.answers hfirst (bound_of_holds h.valid he)⟩
  · rename_i key e version first hpc
    cases hstep
    rw [hpc] at hok
    obtain ⟨rfl, rfl, hans⟩ := hok
    apply h.goto
    rw [readValue, if_neg (not_not.mpr rfl)]
    exact hans
  · cases hstep

omit [DecidableEq T] in
/-- Answers stay answers. -/
theorem State.Answers.later {key : CString} {r : Option (List UInt8)} {first last last' : Nat}
    (h : s.Answers key r first last) (hle : last ≤ last')
    (hh : ∃ m, s'.history = s.history ++ [m]) : s'.Answers key r first last' := by
  obtain ⟨i, m, h1, h2, h3, h4⟩ := h
  obtain ⟨m', hm'⟩ := hh
  refine ⟨i, m, h1, Nat.le_trans h2 hle, ?_, h4⟩
  rw [hm', List.getElem?_append_left (List.getElem?_eq_some_iff.mp h3).1]
  exact h3

theorem Inv.putStep (h : Inv s) (hfuel : 2147483648 ≤ fuel) (t : T) {key : CString}
    {value : List UInt8} (hq : Quiet s (.put t key value)) :
    Inv (putStep fuel s t key value) := by
  obtain ⟨hcap, hresize, hreplace⟩ := hq
  obtain ⟨m', hok, hinv, hcap', _⟩ := mapPut_spec h.valid key value hcap hfuel
  have hpos : 0 < s.history.length :=
    Nat.lt_of_le_of_lt (Nat.zero_le _) (List.getElem?_eq_some_iff.mp h.current).1
  have hnow : s.history.length - 1 ≤ (s.history ++ [m']).length - 1 := by
    rw [List.length_append]
    omega
  have hslot : ∀ {k : CString} {n : Int}, s.map.resizes = false → s.Slot k n →
      ∃ (i : Nat) (e : MapPair), n = i ∧ Holds m'.contents i e ∧ e.key = k := by
    intro k n hno ⟨i, e, hn, he, hk⟩
    obtain ⟨e', he', hk'⟩ := mapPut_slots h.valid h.fits hfuel hno hok he
    exact ⟨i, e', hn, he', hk'.trans hk⟩
  rw [Hashing.putStep, hok]
  constructor
  · exact hinv
  · rw [hcap']
    exact hcap
  · simp [State.now]
  · intro u
    have hu := h.pc u
    have hno : (s.pc u).holdsSlot = true → s.map.resizes = false := by
      intro hs
      rw [Bool.eq_false_iff]
      intro hr
      rw [hresize hr u] at hs
      cases hs
    have hkeep : ∀ k, (s.pc u).holdsPair k = true → k = key → s.map.replaces key = false := by
      intro k hs hk
      rw [Bool.eq_false_iff]
      intro hr
      rw [hk, hreplace hr u] at hs
      cases hs
    cases hpc : s.pc u with
    | idle => trivial
    | faulted =>
        rw [hpc] at hu
        exact hu
    | returned k r first last =>
        rw [hpc] at hu
        exact State.Answers.later hu (Nat.le_refl _) ⟨m', rfl⟩
    | unlocked k n first =>
        rw [hpc] at hu hno
        exact ⟨Nat.le_trans hu.1 hnow, hslot (hno rfl) hu.2⟩
    | indexing k n array first =>
        rw [hpc] at hu hno
        refine ⟨?_, Nat.le_trans hu.2.1 hnow, hslot (hno rfl) hu.2.2⟩
        simp only [hno rfl, Bool.false_eq_true, if_false]
        exact hu.1
    | loading k e version first =>
        rw [hpc] at hu hkeep
        refine ⟨?_, hu.2.1, State.Answers.later hu.2.2 hnow ⟨m', rfl⟩⟩
        simp only
        split
        · rename_i hr
          -- the pair that is freed is that of another key
          have hne : e.key ≠ key := by
            intro hk
            have := hkeep e.key (by simp [Pc.holdsPair]) hk
            rw [hr] at this
            cases this
          rw [Function.update_of_ne hne]
          exact hu.1
        · exact hu.1

/-- What one step keeps. -/
theorem Inv.step (h : Inv s) (hfuel : 2147483648 ≤ fuel) {e : Event T} (hq : Quiet s e)
    (hstep : Step fuel s e s') : Inv s' := by
  cases e with
  | put t key value =>
      simp only [Step, next] at hstep
      split at hstep
      · cases hstep
        exact h.putStep hfuel t hq
      · cases hstep
  | get t key =>
      simp only [Step, next] at hstep
      split at hstep
      · cases hstep
        exact h.getStep hfuel t key
      · cases hstep
  | read t => exact h.readStep hstep

/-- In a run whose puts free nothing that a get is about to read, no get follows a
bad pointer, and each returns something its key was bound to during the call. -/
theorem mapGet_answers (hfuel : 2147483648 ≤ fuel) {es : List (Event T)} {s : State T}
    (h : Run (Guarded Quiet (Step fuel)) start es s) (t : T) : (s.pc t).Right s := by
  have hinv : Inv s :=
    h.invariant (I := Inv) (fun _ _ _ hi hs => hi.step hfuel hs.1 hs.2) Inv.start
  have hok := hinv.pc t
  constructor
  · intro hf
    rw [hf] at hok
    exact hok
  · intro key r first last hpc
    rw [hpc] at hok
    exact hok

instance [Fintype T] (s : State T) : (e : Event T) → Decidable (Quiet s e)
  | .put _ _ _ => inferInstanceAs (Decidable (_ ∧ _ ∧ _))
  | .get _ _ => inferInstanceAs (Decidable True)
  | .read _ => inferInstanceAs (Decidable True)

/-- The key of one letter. -/
def letter (c : UInt8) : CString := .ofBuffer [c]

/-- A put of another key while a get is about to read its slot. -/
def quietRun : List (Event (Fin 2)) :=
  [.put 0 (letter 97) [1], .get 1 (letter 97), .put 0 (letter 98) [2], .read 1, .read 1, .read 1]

theorem mapGet_answers_letter :
    ∃ s : State (Fin 2), Run (Guarded Quiet (Step 2147483648)) start quietRun s ∧
      s.pc 1 = .returned (letter 97) (some [1]) 1 2 ∧
      s.Answers (letter 97) (some [1]) 1 2 := by
  have hexec : (exec (fun s e => if Quiet s e then next 2147483648 s e else none)
      (start : State (Fin 2)) quietRun).map (fun s => s.pc 1)
        = some (.returned (letter 97) (some [1]) 1 2) := by
    decide +kernel
  obtain ⟨s, hs, hpc⟩ := Option.map_eq_some_iff.mp hexec
  have hrun := Run.of_exec_guarded hs
  exact ⟨s, hrun, hpc, (mapGet_answers (Nat.le_refl _) hrun 1).2 _ _ _ _ hpc⟩

/-- Six keys, a get of the first, and the put that resizes the map. -/
def resizeRun : List (Event (Fin 2)) :=
  [.put 0 (letter 97) [1], .put 0 (letter 98) [2], .put 0 (letter 99) [3],
    .put 0 (letter 100) [4], .put 0 (letter 101) [5], .put 0 (letter 102) [6],
    .get 1 (letter 97), .read 1, .put 0 (letter 103) [7], .read 1]

/-- The get reads a slot of the array that the put has freed. -/
theorem mapGet_can_fault :
    ¬ ∀ (es : List (Event (Fin 2))) (s : State (Fin 2)),
      Run (Step 2147483648) start es s → ∀ t, (s.pc t).Right s := by
  intro hall
  have hexec : (exec (next 2147483648) (start : State (Fin 2)) resizeRun).map
      (fun s => s.pc 1) = some .faulted := by
    decide +kernel
  obtain ⟨s, hs, hpc⟩ := Option.map_eq_some_iff.mp hexec
  exact (hall resizeRun s (Run.of_exec hs) 1).1 hpc

end CS537.Hashing
