import CS537.Lib.Lts
import Mathlib.Logic.Function.Basic

/-!
# Monitors

Threads that share data under a lock. A thread that cannot go on sleeps on a channel and
gives the lock up for that time; another thread wakes the sleepers of the channel. To fall
asleep and to wake takes a second lock, that of the table of threads, which is taken before
the first one is given up.

A proof outline says what holds of the data at each point of the program. From it follow,
for any number of threads and any order of their steps: the assertions, that no wakeup is
lost, and that threads that cannot go on are all waiting for what they say.
-/

namespace Monitor

open Lts

/-- What a thread does at a point of its program. -/
inductive Instr (I D C L E : Type) where
  | acquire (next : L)
  | release (next : L)
  /-- Works on the data, and maybe shows something. -/
  | act (f : I → Bool → D → L × D × Option E)
  | wakeup (c : C) (next : L)
  | sleep (c : C) (next : L)
  /-- Between two calls. -/
  | stop

/-- Where a thread is in `sleep` or `wakeup`, with the point after it. -/
inductive Phase (C L : Type) where
  | run
  /-- Has the lock of the table, to wake others. -/
  | waking (c : C) (next : L)
  /-- Has both locks, to fall asleep. -/
  | enter (c : C) (next : L)
  /-- Has the lock of the table only. -/
  | leave (c : C) (next : L)
  | asleep (c : C) (next : L)
  | woken (next : L)
  /-- Runs again, with the lock of the table. -/
  | back (next : L)
  /-- Is to take the lock again. -/
  | again (next : L)

structure Thread (C L : Type) where
  point : L
  phase : Phase C L
  killed : Bool

structure State (I D C L : Type) where
  data : D
  lock : Option I
  table : Option I
  thread : I → Thread C L

/-- A step of a thread, with what it shows; or the thread is killed, or starts a call. -/
inductive Label (I L E : Type) where
  | step (i : I) (e : Option E)
  | kill (i : I)
  | start (i : I) (l : L)

variable {I D C L E : Type}

/-- The sleepers of the channel can run again. -/
def Thread.wake [DecidableEq C] (c : C) (t : Thread C L) : Thread C L :=
  match t.phase with
  | .asleep d next => { t with phase := if d = c then .woken next else .asleep d next }
  | _ => t

/-- A thread that is killed does not sleep on. -/
def Thread.kill (t : Thread C L) : Thread C L :=
  match t.phase with
  | .asleep _ next => { t with killed := true, phase := .woken next }
  | _ => { t with killed := true }

/-- Another state of one thread. -/
def State.put [DecidableEq I] (s : State I D C L) (i : I) (t : Thread C L) : State I D C L :=
  { s with thread := Function.update s.thread i t }

theorem State.put_thread [DecidableEq I] (s : State I D C L) (i : I) (t : Thread C L) (j : I) :
    (s.put i t).thread j = if j = i then t else s.thread j :=
  Function.update_apply ..

/-- One step. `entry` says which calls a thread can start. -/
inductive Step [DecidableEq I] [DecidableEq C] (code : L → Instr I D C L E) (entry : I → L → L → Prop) :
    State I D C L → Label I L E → State I D C L → Prop
  | acquire {s : State I D C L} {i : I} {l next : L} {k : Bool} :
      s.thread i = ⟨l, .run, k⟩ → code l = .acquire next → s.lock = none →
      Step code entry s (.step i none) ({ s with lock := some i }.put i ⟨next, .run, k⟩)
  | release {s : State I D C L} {i : I} {l next : L} {k : Bool} :
      s.thread i = ⟨l, .run, k⟩ → code l = .release next →
      Step code entry s (.step i none) ({ s with lock := none }.put i ⟨next, .run, k⟩)
  | act {s : State I D C L} {i : I} {l next : L} {k : Bool} {d : D} {e : Option E}
      {f : I → Bool → D → L × D × Option E} :
      s.thread i = ⟨l, .run, k⟩ → code l = .act f → f i k s.data = (next, d, e) →
      Step code entry s (.step i e) ({ s with data := d }.put i ⟨next, .run, k⟩)
  | wakeup {s : State I D C L} {i : I} {l next : L} {k : Bool} {c : C} :
      s.thread i = ⟨l, .run, k⟩ → code l = .wakeup c next → s.table = none →
      Step code entry s (.step i none) ({ s with table := some i }.put i ⟨l, .waking c next, k⟩)
  | wake {s : State I D C L} {i : I} {l next : L} {k : Bool} {c : C} :
      s.thread i = ⟨l, .waking c next, k⟩ →
      Step code entry s (.step i none)
        ({ s with table := none, thread := fun j => (s.thread j).wake c }.put i ⟨next, .run, k⟩)
  | sleep {s : State I D C L} {i : I} {l next : L} {k : Bool} {c : C} :
      s.thread i = ⟨l, .run, k⟩ → code l = .sleep c next → s.table = none →
      Step code entry s (.step i none) ({ s with table := some i }.put i ⟨l, .enter c next, k⟩)
  | leave {s : State I D C L} {i : I} {l next : L} {k : Bool} {c : C} :
      s.thread i = ⟨l, .enter c next, k⟩ →
      Step code entry s (.step i none) ({ s with lock := none }.put i ⟨l, .leave c next, k⟩)
  | fall {s : State I D C L} {i : I} {l next : L} {k : Bool} {c : C} :
      s.thread i = ⟨l, .leave c next, k⟩ →
      Step code entry s (.step i none) ({ s with table := none }.put i ⟨l, .asleep c next, k⟩)
  | run {s : State I D C L} {i : I} {l next : L} {k : Bool} :
      s.thread i = ⟨l, .woken next, k⟩ → s.table = none →
      Step code entry s (.step i none) ({ s with table := some i }.put i ⟨l, .back next, k⟩)
  | back {s : State I D C L} {i : I} {l next : L} {k : Bool} :
      s.thread i = ⟨l, .back next, k⟩ →
      Step code entry s (.step i none) ({ s with table := none }.put i ⟨l, .again next, k⟩)
  | again {s : State I D C L} {i : I} {l next : L} {k : Bool} :
      s.thread i = ⟨l, .again next, k⟩ → s.lock = none →
      Step code entry s (.step i none) ({ s with lock := some i }.put i ⟨next, .run, k⟩)
  | kill {s : State I D C L} {i : I} :
      s.table = none → Step code entry s (.kill i) (s.put i (s.thread i).kill)
  | start {s : State I D C L} {i : I} {l m : L} {k : Bool} :
      s.thread i = ⟨l, .run, k⟩ → code l = .stop → entry i l m →
      Step code entry s (.start i m) (s.put i ⟨m, .run, k⟩)

/-- A proof outline: `Locked` are the points where a thread has the lock, `J` holds while
nobody has it, `A` holds at a point, and `S` for a thread that sleeps before it. -/
structure Outline (code : L → Instr I D C L E) (entry : I → L → L → Prop) (Locked : L → Prop)
    (J : D → Prop) (A S : I → L → D → Prop) : Prop where
  acquire : ∀ {l next}, code l = .acquire next → ¬ Locked l ∧ Locked next ∧
    ∀ i d, A i l d → J d → A i next d
  release : ∀ {l next}, code l = .release next → Locked l ∧ ¬ Locked next ∧
    ∀ i d, A i l d → J d ∧ A i next d
  act : ∀ {l f}, code l = .act f → Locked l ∧ ∀ i k d, A i l d →
    Locked (f i k d).1 ∧ A i (f i k d).1 (f i k d).2.1
  wakeup : ∀ {l c next}, code l = .wakeup c next → Locked l ∧ Locked next ∧
    ∀ i d, A i l d → A i next d
  sleep : ∀ {l c next}, code l = .sleep c next → Locked l ∧ Locked next ∧
    ∀ i d, A i l d → J d ∧ S i next d
  again : ∀ {i m d}, S i m d → J d → A i m d
  entry : ∀ {i l m}, entry i l m → code l = .stop → ¬ Locked m ∧ ∀ d, A i l d → A i m d
  stop : ∀ {l}, code l = .stop → ¬ Locked l
  /-- What a thread without the lock relies on is kept by the others. -/
  apart : ∀ {l f}, code l = .act f → ∀ {m i j k d}, ¬ Locked m → i ≠ j → A j l d → A i m d →
    A i m (f j k d).2.1
  asleep : ∀ {l f}, code l = .act f → ∀ {m i j k d}, i ≠ j → A j l d → S i m d →
    S i m (f j k d).2.1

/-- The thread has the lock. -/
def Thread.HasLock (Locked : L → Prop) (t : Thread C L) : Prop :=
  match t.phase with
  | .run => Locked t.point
  | .waking _ _ => True
  | .enter _ _ => True
  | _ => False

/-- The thread has the lock of the table. -/
def Thread.HasTable (t : Thread C L) : Prop :=
  match t.phase with
  | .waking _ _ => True
  | .enter _ _ => True
  | .leave _ _ => True
  | .back _ => True
  | _ => False

/-- What holds for the thread. -/
def Thread.Holds (A S : I → L → D → Prop) (i : I) (t : Thread C L) (d : D) : Prop :=
  match t.phase with
  | .run => A i t.point d
  | .waking _ _ => A i t.point d
  | .enter _ _ => A i t.point d
  | .leave _ next => S i next d
  | .asleep _ next => S i next d
  | .woken next => S i next d
  | .back next => S i next d
  | .again next => S i next d

/-- The thread is in the `sleep` or `wakeup` of its point. -/
def Thread.Fits (code : L → Instr I D C L E) (t : Thread C L) : Prop :=
  match t.phase with
  | .run => True
  | .waking c next => code t.point = .wakeup c next
  | .enter c next => code t.point = .sleep c next
  | .leave c next => code t.point = .sleep c next
  | .asleep c next => code t.point = .sleep c next
  | .woken next => ∃ c, code t.point = .sleep c next
  | .back next => ∃ c, code t.point = .sleep c next
  | .again next => ∃ c, code t.point = .sleep c next

/-- What holds of every state. -/
structure Inv (code : L → Instr I D C L E) (Locked : L → Prop) (J : D → Prop)
    (A S : I → L → D → Prop) (s : State I D C L) : Prop where
  lock : ∀ i, s.lock = some i ↔ (s.thread i).HasLock Locked
  table : ∀ i, s.table = some i ↔ (s.thread i).HasTable
  free : s.lock = none → J s.data
  holds : ∀ i, (s.thread i).Holds A S i s.data
  fits : ∀ i, (s.thread i).Fits code

variable {code : L → Instr I D C L E} {entry : I → L → L → Prop} {Locked : L → Prop}
  {J : D → Prop} {A S : I → L → D → Prop} {s s' : State I D C L} {i : I}

/-- One thread and the data change. -/
theorem Inv.put [DecidableEq I] (h : Inv code Locked J A S s) {t : Thread C L}
    (hthread : s'.thread = Function.update s.thread i t)
    (hlock : (s'.lock = some i ↔ t.HasLock Locked) ∧ ∀ j ≠ i, (s'.lock = some j ↔ s.lock = some j))
    (htable : (s'.table = some i ↔ t.HasTable) ∧ ∀ j ≠ i, (s'.table = some j ↔ s.table = some j))
    (hfree : s'.lock = none → J s'.data) (hothers : ∀ j ≠ i, (s.thread j).Holds A S j s'.data)
    (hholds : t.Holds A S i s'.data) (hfits : t.Fits code) : Inv code Locked J A S s' := by
  have hself : s'.thread i = t := by rw [hthread, Function.update_self]
  have hother : ∀ j ≠ i, s'.thread j = s.thread j := by
    intro j hj
    rw [hthread, Function.update_of_ne hj]
  refine ⟨fun j => ?_, fun j => ?_, hfree, fun j => ?_, fun j => ?_⟩
  · by_cases hj : j = i
    · subst hj
      rw [hself]
      exact hlock.1
    · rw [hother j hj, hlock.2 j hj]
      exact h.lock j
  · by_cases hj : j = i
    · subst hj
      rw [hself]
      exact htable.1
    · rw [hother j hj, htable.2 j hj]
      exact h.table j
  · by_cases hj : j = i
    · subst hj
      rw [hself]
      exact hholds
    · rw [hother j hj]
      exact hothers j hj
  · by_cases hj : j = i
    · subst hj
      rw [hself]
      exact hfits
    · rw [hother j hj]
      exact h.fits j

/-- A sleeper may have been woken. -/
structure Roused (t t' : Thread C L) : Prop where
  point : t'.point = t.point
  phase : t'.phase = t.phase ∨ ∃ c next, t.phase = .asleep c next ∧ t'.phase = .woken next

namespace Roused

variable {t t' : Thread C L}

theorem hasLock (h : Roused t t') : t'.HasLock Locked ↔ t.HasLock Locked := by
  rw [Thread.HasLock, Thread.HasLock, h.point]
  rcases h.phase with heq | ⟨c, next, hp, hp'⟩
  · rw [heq]
  · rw [hp, hp']

theorem hasTable (h : Roused t t') : t'.HasTable ↔ t.HasTable := by
  rw [Thread.HasTable, Thread.HasTable]
  rcases h.phase with heq | ⟨c, next, hp, hp'⟩
  · rw [heq]
  · rw [hp, hp']

theorem holds (h : Roused t t') {d : D} (hh : t.Holds A S i d) : t'.Holds A S i d := by
  rw [Thread.Holds] at hh ⊢
  rw [h.point]
  rcases h.phase with heq | ⟨c, next, hp, hp'⟩
  · rw [heq]
    exact hh
  · rw [hp] at hh
    rw [hp']
    exact hh

theorem fits (h : Roused t t') (hf : t.Fits code) : t'.Fits code := by
  rw [Thread.Fits] at hf ⊢
  rw [h.point]
  rcases h.phase with heq | ⟨c, next, hp, hp'⟩
  · rw [heq]
    exact hf
  · rw [hp] at hf
    rw [hp']
    exact ⟨c, hf⟩

end Roused

theorem Thread.wake_roused [DecidableEq C] (c : C) (t : Thread C L) : Roused t (t.wake c) := by
  obtain ⟨l, p, k⟩ := t
  cases p with
  | asleep d next =>
      refine ⟨rfl, ?_⟩
      change (if d = c then Phase.woken next else .asleep d next) = .asleep d next ∨ _
      split
      · exact .inr ⟨d, next, rfl, if_pos ‹_›⟩
      · exact .inl rfl
  | run => exact ⟨rfl, .inl rfl⟩
  | waking d next => exact ⟨rfl, .inl rfl⟩
  | enter d next => exact ⟨rfl, .inl rfl⟩
  | leave d next => exact ⟨rfl, .inl rfl⟩
  | woken next => exact ⟨rfl, .inl rfl⟩
  | back next => exact ⟨rfl, .inl rfl⟩
  | again next => exact ⟨rfl, .inl rfl⟩

theorem Thread.kill_roused (t : Thread C L) : Roused t t.kill := by
  obtain ⟨l, p, k⟩ := t
  cases p with
  | asleep d next => exact ⟨rfl, .inr ⟨d, next, rfl, rfl⟩⟩
  | run => exact ⟨rfl, .inl rfl⟩
  | waking d next => exact ⟨rfl, .inl rfl⟩
  | enter d next => exact ⟨rfl, .inl rfl⟩
  | leave d next => exact ⟨rfl, .inl rfl⟩
  | woken next => exact ⟨rfl, .inl rfl⟩
  | back next => exact ⟨rfl, .inl rfl⟩
  | again next => exact ⟨rfl, .inl rfl⟩

theorem Inv.roused (h : Inv code Locked J A S s) {thread : I → Thread C L}
    (hr : ∀ j, Roused (s.thread j) (thread j)) :
    Inv code Locked J A S { s with thread := thread } where
  lock := fun j => (h.lock j).trans (hr j).hasLock.symm
  table := fun j => (h.table j).trans (hr j).hasTable.symm
  free := h.free
  holds := fun j => (hr j).holds (h.holds j)
  fits := fun j => (hr j).fits (h.fits j)

/-- Two threads do not have the lock at once. -/
theorem Inv.alone (h : Inv code Locked J A S s) {j : I} (hi : (s.thread i).HasLock Locked)
    (hj : (s.thread j).HasLock Locked) : j = i := by
  have heq := (h.lock j).mpr hj
  rw [(h.lock i).mpr hi] at heq
  exact (Option.some.inj heq).symm

/-- What holds of one thread. -/
theorem Inv.one (h : Inv code Locked J A S s) {t : Thread C L} (ht : s.thread i = t) :
    (s.lock = some i ↔ t.HasLock Locked) ∧ (s.table = some i ↔ t.HasTable) ∧
      t.Holds A S i s.data ∧ t.Fits code :=
  ht ▸ ⟨h.lock i, h.table i, h.holds i, h.fits i⟩

/-- A thread between two calls is nowhere in `sleep` or `wakeup`. -/
theorem Inv.stopped (h : Inv code Locked J A S s) (hc : code (s.thread i).point = .stop) :
    A i (s.thread i).point s.data := by
  have hfits := h.fits i
  have hh := h.holds i
  rw [Thread.Fits, hc] at hfits
  rw [Thread.Holds] at hh
  cases hp : (s.thread i).phase <;> rw [hp] at hfits hh <;> dsimp only at hfits hh
  case run => exact hh
  case waking c next => cases hfits
  case enter c next => cases hfits
  case leave c next => cases hfits
  case asleep c next => cases hfits
  case woken next => cases hfits.choose_spec
  case back next => cases hfits.choose_spec
  case again next => cases hfits.choose_spec

/-- Each step keeps the assertions. -/
theorem Step.inv [DecidableEq I] [DecidableEq C] (o : Outline code entry Locked J A S)
    {a : Label I L E} (h : Step code entry s a s') (hs : Inv code Locked J A S s) :
    Inv code Locked J A S s' := by
  have htaken : ∀ {l : Option I} {i j : I}, l = none → j ≠ i → (some i = some j ↔ l = some j) := by
    rintro l i j rfl hj
    exact ⟨fun heq => absurd (Option.some.inj heq).symm hj, fun heq => by cases heq⟩
  have hgiven : ∀ {l : Option I} {i j : I}, l = some i → j ≠ i → (none = some j ↔ l = some j) := by
    rintro l i j rfl hj
    exact ⟨fun heq => (by cases heq), fun heq => absurd (Option.some.inj heq).symm hj⟩
  have hnothing : ∀ {i : I} {p : Prop}, ¬ p → (none = some i ↔ p) := fun hp =>
    ⟨fun heq => (by cases heq), fun h => absurd h hp⟩
  cases h with
  | @acquire i l next k ht hc hfree =>
      obtain ⟨hl, htable, hh, hfits⟩ := hs.one ht
      obtain ⟨-, hin, hrule⟩ := o.acquire hc
      exact hs.put rfl ⟨iff_of_true rfl hin, fun j => htaken hfree⟩
        ⟨htable, fun j _ => Iff.rfl⟩ (fun hnone => by cases hnone)
        (fun j _ => hs.holds j) (hrule i _ hh (hs.free hfree)) trivial
  | @release i l next k ht hc =>
      obtain ⟨hl, htable, hh, hfits⟩ := hs.one ht
      obtain ⟨hin, hout, hrule⟩ := o.release hc
      have hlock := hl.mpr hin
      obtain ⟨hJ, hA⟩ := hrule i _ hh
      exact hs.put rfl ⟨hnothing hout, fun j => hgiven hlock⟩
        ⟨htable, fun j _ => Iff.rfl⟩ (fun _ => hJ) (fun j _ => hs.holds j) hA trivial
  | @act i l next k d e f ht hc hf =>
      obtain ⟨hl, htable, hh, hfits⟩ := hs.one ht
      obtain ⟨hin, hrule⟩ := o.act hc
      have hlock := hl.mpr hin
      have hacts := hrule i k s.data hh
      rw [hf] at hacts
      refine hs.put rfl ⟨iff_of_true hlock hacts.1, fun j _ => Iff.rfl⟩
        ⟨htable, fun j _ => Iff.rfl⟩ (fun hnone => ?_) (fun j hj => ?_) hacts.2 trivial
      · have hsome := hlock.symm.trans hnone
        cases hsome
      · -- the others have not the lock, and rely on nothing that this thread changes
        have hno : ¬ (s.thread j).HasLock Locked := fun hj' =>
          hj (hs.alone (i := i) (ht ▸ hin) hj')
        have hold := hs.holds j
        have hsleep : ∀ {m : L}, S j m s.data → S j m d := by
          intro m hm
          have hkept := @Outline.asleep _ _ _ _ _ _ _ _ _ _ _ o l f hc m j i k _ hj hh hm
          rwa [hf] at hkept
        generalize s.thread j = u at hno hold
        obtain ⟨m, p, k'⟩ := u
        cases p with
        | run =>
            have hkept := @Outline.apart _ _ _ _ _ _ _ _ _ _ _ o l f hc m j i k _ hno hj hh hold
            rwa [hf] at hkept
        | waking _ _ => exact absurd trivial hno
        | enter _ _ => exact absurd trivial hno
        | leave _ m => exact hsleep hold
        | asleep _ m => exact hsleep hold
        | woken m => exact hsleep hold
        | back m => exact hsleep hold
        | again m => exact hsleep hold
  | @wakeup i l next k c ht hc htab =>
      obtain ⟨hl, htable, hh, hfits⟩ := hs.one ht
      obtain ⟨hin, -, -⟩ := o.wakeup hc
      have hlock := hl.mpr hin
      exact hs.put rfl ⟨iff_of_true hlock trivial, fun j _ => Iff.rfl⟩
        ⟨iff_of_true rfl trivial, fun j => htaken htab⟩ hs.free (fun j _ => hs.holds j) hh hc
  | @wake i l next k c ht =>
      obtain ⟨hl, htable, hh, hfits⟩ := hs.one ht
      obtain ⟨-, hin, hrule⟩ := o.wakeup hfits
      have hlock := hl.mpr trivial
      have htab := htable.mpr trivial
      have hroused := hs.roused fun j => (s.thread j).wake_roused c
      exact hroused.put rfl ⟨iff_of_true hlock hin, fun j _ => Iff.rfl⟩
        ⟨hnothing id, fun j => hgiven htab⟩ hs.free (fun j _ => hroused.holds j)
        (hrule i _ hh) trivial
  | @sleep i l next k c ht hc htab =>
      obtain ⟨hl, htable, hh, hfits⟩ := hs.one ht
      obtain ⟨hin, -, -⟩ := o.sleep hc
      have hlock := hl.mpr hin
      exact hs.put rfl ⟨iff_of_true hlock trivial, fun j _ => Iff.rfl⟩
        ⟨iff_of_true rfl trivial, fun j => htaken htab⟩ hs.free (fun j _ => hs.holds j) hh hc
  | @leave i l next k c ht =>
      obtain ⟨hl, htable, hh, hfits⟩ := hs.one ht
      obtain ⟨-, -, hrule⟩ := o.sleep hfits
      have hlock := hl.mpr trivial
      obtain ⟨hJ, hafter⟩ := hrule i _ hh
      exact hs.put rfl ⟨hnothing id, fun j => hgiven hlock⟩
        ⟨iff_of_true (htable.mpr trivial) trivial, fun j _ => Iff.rfl⟩ (fun _ => hJ)
        (fun j _ => hs.holds j) hafter hfits
  | @fall i l next k c ht =>
      obtain ⟨hl, htable, hh, hfits⟩ := hs.one ht
      have htab := htable.mpr trivial
      exact hs.put rfl ⟨hl, fun j _ => Iff.rfl⟩ ⟨hnothing id, fun j => hgiven htab⟩
        hs.free (fun j _ => hs.holds j) hh hfits
  | @run i l next k ht htab =>
      obtain ⟨hl, htable, hh, hfits⟩ := hs.one ht
      exact hs.put rfl ⟨hl, fun j _ => Iff.rfl⟩
        ⟨iff_of_true rfl trivial, fun j => htaken htab⟩ hs.free (fun j _ => hs.holds j)
        hh hfits
  | @back i l next k ht =>
      obtain ⟨hl, htable, hh, hfits⟩ := hs.one ht
      have htab := htable.mpr trivial
      exact hs.put rfl ⟨hl, fun j _ => Iff.rfl⟩ ⟨hnothing id, fun j => hgiven htab⟩
        hs.free (fun j _ => hs.holds j) hh hfits
  | @again i l next k ht hfree =>
      obtain ⟨hl, htable, hh, hfits⟩ := hs.one ht
      obtain ⟨c, hc⟩ := hfits
      obtain ⟨-, hin, -⟩ := o.sleep hc
      exact hs.put rfl ⟨iff_of_true rfl hin, fun j => htaken hfree⟩
        ⟨htable, fun j _ => Iff.rfl⟩ (fun hnone => by cases hnone)
        (fun j _ => hs.holds j) (o.again hh (hs.free hfree)) trivial
  | @kill i htab =>
      refine hs.roused fun j => ?_
      rw [Function.update_apply]
      split
      · rename_i heq
        exact heq ▸ (s.thread i).kill_roused
      · exact ⟨rfl, .inl rfl⟩
  | @start i l m k ht hc he =>
      obtain ⟨hl, htable, hh, hfits⟩ := hs.one ht
      obtain ⟨hout, hrule⟩ := o.entry he hc
      exact hs.put rfl ⟨hl.trans (iff_of_false (o.stop hc) hout), fun j _ => Iff.rfl⟩
        ⟨htable, fun j _ => Iff.rfl⟩ hs.free (fun j _ => hs.holds j) (hrule _ hh) trivial

/-! ## Wakeups -/

/-- An outline of the wakeups: who sleeps on a channel waits as long as `W` holds; `Owes` are
the points where a thread has still to wake the sleepers. Only steps that show what is `ok`
follow it. -/
structure Wakes (code : L → Instr I D C L E) (A : I → L → D → Prop) (W : C → D → Prop)
    (Owes : L → C → Prop) (ok : Option E → Prop) : Prop where
  release : ∀ {l next}, code l = .release next → ∀ {i d c}, A i l d → Owes l c → W c d
  act : ∀ {l f}, code l = .act f → ∀ {i k d c}, A i l d → ok (f i k d).2.2 → W c d ∨ Owes l c →
    W c (f i k d).2.1 ∨ Owes (f i k d).1 c
  wakeup : ∀ {l c next}, code l = .wakeup c next → ∀ {i d c'}, A i l d → c' ≠ c → Owes l c' →
    W c' d ∨ Owes next c'
  sleep : ∀ {l c next}, code l = .sleep c next → ∀ {i d}, A i l d →
    W c d ∧ ∀ c', Owes l c' → W c' d

/-- The thread sleeps on the channel, or is about to. -/
def Thread.WaitsOn (t : Thread C L) (c : C) : Prop :=
  match t.phase with
  | .enter d _ => d = c
  | .leave d _ => d = c
  | .asleep d _ => d = c
  | _ => False

/-- The sleepers of the channel have to wait, or are going to be woken. -/
def Due (W : C → D → Prop) (Owes : L → C → Prop) (s : State I D C L) (c : C) : Prop :=
  W c s.data ∨ ∃ i, s.lock = some i ∧ Owes (s.thread i).point c

/-- No wakeup is lost. -/
def Waits (W : C → D → Prop) (Owes : L → C → Prop) (s : State I D C L) : Prop :=
  ∀ j c, (s.thread j).WaitsOn c → Due W Owes s c

/-- What the step shows is as it should be. -/
def Label.Fine (ok : Option E → Prop) : Label I L E → Prop
  | .step _ e => ok e
  | _ => True

variable {W : C → D → Prop} {Owes : L → C → Prop} {ok : Option E → Prop}

/-- One thread changes. -/
theorem Waits.put [DecidableEq I] (h : Waits W Owes s) {t : Thread C L}
    (hthread : s'.thread = Function.update s.thread i t)
    (hdue : ∀ c, Due W Owes s c → Due W Owes s' c)
    (hself : ∀ c, t.WaitsOn c → (s.thread i).WaitsOn c ∨ W c s'.data) : Waits W Owes s' := by
  intro j c hj
  rw [hthread, Function.update_apply] at hj
  split at hj
  · rcases hself c hj with hold | hW
    · exact hdue c (h i c hold)
    · exact .inl hW
  · exact hdue c (h j c hj)

/-- The thread with the lock is the one that owes. -/
theorem Due.holder {c : C} (h : Due W Owes s c) (hlock : s.lock = some i) :
    W c s.data ∨ Owes (s.thread i).point c := by
  rcases h with hW | ⟨j, hj, howes⟩
  · exact .inl hW
  · rw [hlock] at hj
    cases hj
    exact .inr howes

theorem Due.free {c : C} (h : Due W Owes s c) (hlock : s.lock = none) : W c s.data := by
  rcases h with hW | ⟨j, hj, _⟩
  · exact hW
  · rw [hlock] at hj
    cases hj

/-- Data and points stay, and so does the lock. -/
theorem Due.same {c : C} (h : Due W Owes s c) (hdata : s'.data = s.data) (hlock : s'.lock = s.lock)
    (hpoint : ∀ j, s.lock = some j → (s'.thread j).point = (s.thread j).point) :
    Due W Owes s' c := by
  rw [Due, hdata, hlock]
  rcases h with hW | ⟨j, hj, howes⟩
  · exact .inl hW
  · exact .inr ⟨j, hj, by rwa [hpoint j hj]⟩

theorem Roused.waitsOn {t t' : Thread C L} (h : Roused t t') {c : C} (hw : t'.WaitsOn c) :
    t.WaitsOn c := by
  rw [Thread.WaitsOn] at hw ⊢
  rcases h.phase with heq | ⟨d, next, hp, hp'⟩
  · rwa [heq] at hw
  · rw [hp'] at hw
    exact hw.elim

/-- Once they are woken, nobody sleeps on the channel. -/
theorem Thread.waitsOn_wake [DecidableEq C] {t : Thread C L} {c d : C}
    (h : (t.wake c).WaitsOn d) : t.WaitsOn d ∧ (d = c → t.HasTable) := by
  refine ⟨(t.wake_roused c).waitsOn h, ?_⟩
  rintro rfl
  obtain ⟨l, p, k⟩ := t
  cases p with
  | asleep e next =>
      by_cases he : e = d
      · have hw : (⟨l, if e = d then .woken next else .asleep e next, k⟩ : Thread C L).WaitsOn d := h
        rw [if_pos he] at hw
        exact hw.elim
      · have hw : (⟨l, if e = d then .woken next else .asleep e next, k⟩ : Thread C L).WaitsOn d := h
        rw [if_neg he] at hw
        exact absurd hw he
  | enter e next => trivial
  | leave e next => trivial
  | run => exact h.elim
  | waking e next => exact h.elim
  | woken next => exact h.elim
  | back next => exact h.elim
  | again next => exact h.elim

/-- Each step keeps that no wakeup is lost. -/
theorem Step.waits [DecidableEq I] [DecidableEq C] (o : Outline code entry Locked J A S)
    (w : Wakes code A W Owes ok) {a : Label I L E} (h : Step code entry s a s') (ha : a.Fine ok)
    (hs : Inv code Locked J A S s) (hw : Waits W Owes s) : Waits W Owes s' := by
  have hpoint : ∀ {s : State I D C L} {i : I} {t : Thread C L}, t.point = (s.thread i).point →
      ∀ j, (Function.update s.thread i t j).point = (s.thread j).point := by
    intro s i t ht j
    rw [Function.update_apply]
    split
    · rename_i heq
      rw [ht, heq]
    · rfl
  cases h with
  | @acquire i l next k ht hc hfree =>
      exact hw.put rfl (fun c hdue => .inl (hdue.free hfree)) fun c hself => hself.elim
  | @release i l next k ht hc =>
      obtain ⟨hl, -, hh, -⟩ := hs.one ht
      have hlock := hl.mpr (o.release hc).1
      refine hw.put rfl (fun c hdue => .inl ?_) fun c hself => hself.elim
      rcases hdue.holder hlock with hW | howes
      · exact hW
      · rw [ht] at howes
        exact w.release hc hh howes
  | @act i l next k d e f ht hc hf =>
      obtain ⟨hl, -, hh, -⟩ := hs.one ht
      have hlock := hl.mpr (o.act hc).1
      refine hw.put rfl (fun c hdue => ?_) fun c hself => hself.elim
      have hold := hdue.holder hlock
      rw [ht] at hold
      have hfine : ok (f i k s.data).2.2 := by
        rw [hf]
        exact ha
      have hnew := w.act hc hh hfine hold
      rw [hf] at hnew
      rcases hnew with hW | howes
      · exact .inl hW
      · refine .inr ⟨i, hlock, ?_⟩
        rw [State.put_thread, if_pos rfl]
        exact howes
  | @wakeup i l next k c ht hc htab =>
      exact hw.put rfl (fun c hdue => hdue.same rfl rfl fun j _ => hpoint (by rw [ht]) j)
        fun c hself => hself.elim
  | @wake i l next k c ht =>
      obtain ⟨hl, htable, hh, hfits⟩ := hs.one ht
      have hlock := hl.mpr trivial
      intro j d hj
      rw [State.put_thread] at hj
      split at hj
      · exact hj.elim
      · rename_i hne
        obtain ⟨hold, hd⟩ := Thread.waitsOn_wake hj
        have hne' : d ≠ c := by
          -- a thread on its way into this sleep would have the lock of the table
          intro heq
          have hj' := (hs.table j).mpr (hd heq)
          rw [htable.mpr trivial] at hj'
          exact hne (Option.some.inj hj').symm
        rcases (hw j d hold).holder hlock with hW | howes
        · exact .inl hW
        · rw [ht] at howes
          rcases w.wakeup hfits hh hne' howes with hW | howes
          · exact .inl hW
          · refine .inr ⟨i, hlock, ?_⟩
            rw [State.put_thread, if_pos rfl]
            exact howes
  | @sleep i l next k c ht hc htab =>
      obtain ⟨-, -, hh, -⟩ := hs.one ht
      refine hw.put rfl (fun c hdue => hdue.same rfl rfl fun j _ => hpoint (by rw [ht]) j)
        fun d hself => .inr ?_
      have heq : c = d := hself
      exact heq ▸ (w.sleep hc hh).1
  | @leave i l next k c ht =>
      obtain ⟨hl, -, hh, hfits⟩ := hs.one ht
      have hlock := hl.mpr trivial
      refine hw.put rfl (fun d hdue => .inl ?_) fun d hself => .inl (by rw [ht]; exact hself)
      rcases hdue.holder hlock with hW | howes
      · exact hW
      · rw [ht] at howes
        exact (w.sleep hfits hh).2 d howes
  | @fall i l next k c ht =>
      exact hw.put rfl (fun c hdue => hdue.same rfl rfl fun j _ => hpoint (by rw [ht]) j)
        fun d hself => .inl (by rw [ht]; exact hself)
  | @run i l next k ht htab =>
      exact hw.put rfl (fun c hdue => hdue.same rfl rfl fun j _ => hpoint (by rw [ht]) j)
        fun c hself => hself.elim
  | @back i l next k ht =>
      exact hw.put rfl (fun c hdue => hdue.same rfl rfl fun j _ => hpoint (by rw [ht]) j)
        fun c hself => hself.elim
  | @again i l next k ht hfree =>
      exact hw.put rfl (fun c hdue => .inl (hdue.free hfree)) fun c hself => hself.elim
  | @kill i htab =>
      refine hw.put rfl (fun c hdue => hdue.same rfl rfl fun j _ => ?_) fun c hself =>
        .inl ((s.thread i).kill_roused.waitsOn hself)
      exact hpoint (s.thread i).kill_roused.point j
  | @start i l m k ht hc he =>
      obtain ⟨hl, -, -, -⟩ := hs.one ht
      refine hw.put rfl (fun c hdue => hdue.same rfl rfl fun j hj => ?_) fun c hself => hself.elim
      have hne : j ≠ i := by
        rintro rfl
        exact o.stop hc (hl.mp hj)
      exact congrArg Thread.point (Function.update_of_ne hne _ _)

/-! ## Runs -/

section Runs

variable [DecidableEq I] [DecidableEq C] {s₀ : State I D C L} {as : List (Label I L E)}

theorem run_inv (o : Outline code entry Locked J A S) (h : Run (Step code entry) s₀ as s)
    (hs : Inv code Locked J A S s₀) : Inv code Locked J A S s :=
  h.invariant (fun _ _ _ hs hstep => hstep.inv o hs) hs

theorem run_waits (o : Outline code entry Locked J A S) (w : Wakes code A W Owes ok)
    (h : Run (Step code entry) s₀ as s) (ha : ∀ a ∈ as, a.Fine ok) (hs : Inv code Locked J A S s₀)
    (hw : Waits W Owes s₀) : Waits W Owes s := by
  induction h with
  | nil => exact hw
  | snoc hrun hstep ih =>
      have hold := ih fun a ha' => ha a (List.mem_append_left _ ha')
      exact hstep.waits o w (ha _ (List.mem_append_right _ (List.mem_singleton_self _)))
        (run_inv o hrun hs) hold

omit [DecidableEq I] [DecidableEq C] in
/-- Who sleeps while nobody has the lock has to sleep. -/
theorem asleep_waits (hw : Waits W Owes s) (hlock : s.lock = none) {next : L} {c : C}
    (hp : (s.thread i).phase = .asleep c next) : W c s.data := by
  refine (hw i c ?_).free hlock
  rw [Thread.WaitsOn, hp]

/-- Where no thread can go on, both locks are free. -/
theorem stuck_free (o : Outline code entry Locked J A S) (hs : Inv code Locked J A S s)
    (hstuck : ∀ i e s', ¬ Step code entry s (.step i e) s') : s.lock = none ∧ s.table = none := by
  have htable : s.table = none := by
    cases htab : s.table with
    | none => rfl
    | some i =>
        have hhas := (hs.table i).mp htab
        cases ht : s.thread i with
        | mk l p k =>
            rw [ht] at hhas
            cases p with
            | waking c next => exact absurd (.wake ht) (hstuck i none _)
            | enter c next => exact absurd (.leave ht) (hstuck i none _)
            | leave c next => exact absurd (.fall ht) (hstuck i none _)
            | back next => exact absurd (.back ht) (hstuck i none _)
            | run => exact hhas.elim
            | asleep c next => exact hhas.elim
            | woken next => exact hhas.elim
            | again next => exact hhas.elim
  refine ⟨?_, htable⟩
  cases hlock : s.lock with
  | none => rfl
  | some i =>
      have hhas := (hs.lock i).mp hlock
      cases ht : s.thread i with
      | mk l p k =>
          rw [ht] at hhas
          cases p with
          | run =>
              have hin : Locked l := hhas
              cases hc : code l with
              | acquire next => exact absurd hin (o.acquire hc).1
              | release next => exact absurd (.release ht hc) (hstuck i none _)
              | act f => exact absurd (.act ht hc rfl) (hstuck i _ _)
              | wakeup c next => exact absurd (.wakeup ht hc htable) (hstuck i none _)
              | sleep c next => exact absurd (.sleep ht hc htable) (hstuck i none _)
              | stop => exact absurd hin (o.stop hc)
          | waking c next => exact absurd (.wake ht) (hstuck i none _)
          | enter c next => exact absurd (.leave ht) (hstuck i none _)
          | leave c next => exact hhas.elim
          | asleep c next => exact hhas.elim
          | woken next => exact hhas.elim
          | back next => exact hhas.elim
          | again next => exact hhas.elim

/-- A thread that takes a step neither sleeps nor is between two calls. -/
theorem Step.awake {e : Option E}
    (h : Step code entry s (.step i e) s') : (∀ c next, (s.thread i).phase ≠ .asleep c next) ∧
      ((s.thread i).phase = .run → code (s.thread i).point ≠ .stop) := by
  have hgo : ∀ {t : Thread C L}, s.thread i = t → (∀ c next, t.phase ≠ .asleep c next) →
      (t.phase = .run → code t.point ≠ .stop) →
      (∀ c next, (s.thread i).phase ≠ .asleep c next) ∧
        ((s.thread i).phase = .run → code (s.thread i).point ≠ .stop) := by
    rintro t rfl hsleep hstop
    exact ⟨hsleep, hstop⟩
  cases h with
  | acquire ht hc _ => exact hgo ht (by simp) fun _ => by simp [hc]
  | release ht hc => exact hgo ht (by simp) fun _ => by simp [hc]
  | act ht hc _ => exact hgo ht (by simp) fun _ => by simp [hc]
  | wakeup ht hc _ => exact hgo ht (by simp) fun _ => by simp [hc]
  | wake ht => exact hgo ht (by simp) (by simp)
  | sleep ht hc _ => exact hgo ht (by simp) fun _ => by simp [hc]
  | leave ht => exact hgo ht (by simp) (by simp)
  | fall ht => exact hgo ht (by simp) (by simp)
  | run ht _ => exact hgo ht (by simp) (by simp)
  | back ht => exact hgo ht (by simp) (by simp)
  | again ht _ => exact hgo ht (by simp) (by simp)

/-- **No deadlock**: where no thread can go on, each is between two calls, or sleeps and has
to. -/
theorem stuck_waits (o : Outline code entry Locked J A S) (hs : Inv code Locked J A S s)
    (hw : Waits W Owes s) (hstuck : ∀ i e s', ¬ Step code entry s (.step i e) s') (i : I) :
    code (s.thread i).point = .stop ∨
      ∃ c next, (s.thread i).phase = .asleep c next ∧ W c s.data := by
  obtain ⟨hlock, htable⟩ := stuck_free o hs hstuck
  cases ht : s.thread i with
  | mk l p k =>
      have hnolock : ¬ (⟨l, p, k⟩ : Thread C L).HasLock Locked := by
        rw [← ht, ← hs.lock, hlock]
        exact fun heq => by cases heq
      cases p with
      | run =>
          cases hc : code l with
          | acquire next => exact absurd (.acquire ht hc hlock) (hstuck i none _)
          | release next => exact absurd (o.release hc).1 hnolock
          | act f => exact absurd (o.act hc).1 hnolock
          | wakeup c next => exact absurd (o.wakeup hc).1 hnolock
          | sleep c next => exact absurd (o.sleep hc).1 hnolock
          | stop => exact .inl rfl
      | waking c next => exact absurd (.wake ht) (hstuck i none _)
      | enter c next => exact absurd (.leave ht) (hstuck i none _)
      | leave c next => exact absurd (.fall ht) (hstuck i none _)
      | asleep c next => exact .inr ⟨c, next, rfl, asleep_waits hw hlock (by rw [ht])⟩
      | woken next => exact absurd (.run ht htable) (hstuck i none _)
      | back next => exact absurd (.back ht) (hstuck i none _)
      | again next => exact absurd (.again ht hlock) (hstuck i none _)

/-- What has been shown. -/
def Label.shown : Label I L E → Option E
  | .step _ e => e
  | _ => none

/-- What a run has shown so far is in accord with the data. -/
theorem run_shown {H : List E → D → Prop} (o : Outline code entry Locked J A S)
    (hact : ∀ {l f}, code l = .act f → ∀ {i k d h}, A i l d → H h d →
      H (h ++ (f i k d).2.2.toList) (f i k d).2.1)
    (h : Run (Step code entry) s₀ as s) (hs : Inv code Locked J A S s₀) (h₀ : H [] s₀.data) :
    H (as.filterMap Label.shown) s.data := by
  induction h with
  | nil => exact h₀
  | @snoc t u as a hrun hstep ih =>
      have hsame : ∀ {a : Label I L E}, a.shown = none → u.data = t.data →
          H ((as ++ [a]).filterMap Label.shown) u.data := by
        intro a ha hd
        rw [List.filterMap_append, List.filterMap_cons_none ha, List.filterMap_nil,
          List.append_nil, hd]
        exact ih
      cases hstep with
      | @act i l next k d e f ht hc hf =>
          obtain ⟨-, -, hh, -⟩ := (run_inv o hrun hs).one ht
          have hnew := @hact l f hc i k _ _ hh ih
          rw [hf] at hnew
          have hshown : [Label.step i e].filterMap (Label.shown (L := L)) = e.toList := by
            cases e <;> rfl
          rw [List.filterMap_append, hshown]
          exact hnew
      | acquire _ _ _ => exact hsame rfl rfl
      | release _ _ => exact hsame rfl rfl
      | wakeup _ _ _ => exact hsame rfl rfl
      | wake _ => exact hsame rfl rfl
      | sleep _ _ _ => exact hsame rfl rfl
      | leave _ => exact hsame rfl rfl
      | fall _ => exact hsame rfl rfl
      | run _ _ => exact hsame rfl rfl
      | back _ => exact hsame rfl rfl
      | again _ _ => exact hsame rfl rfl
      | kill _ => exact hsame rfl rfl
      | start _ _ _ => exact hsame rfl rfl

/-- What a thread has shown in the call it is in. -/
def told (i : I) (as : List (Label I L E)) : List E :=
  as.foldl (fun h a =>
    match a with
    | .step j e => if j = i then h ++ e.toList else h
    | .start j _ => if j = i then [] else h
    | .kill _ => h) []

/-- What a thread has shown in its call is in accord with the point it is at. -/
structure Tells (code : L → Instr I D C L E) (entry : I → L → L → Prop) (A : I → L → D → Prop)
    (T : I → L → List E → Prop) : Prop where
  acquire : ∀ {l next}, code l = .acquire next → ∀ {i h}, T i l h → T i next h
  release : ∀ {l next}, code l = .release next → ∀ {i h}, T i l h → T i next h
  act : ∀ {l f}, code l = .act f → ∀ {i k d h}, A i l d → T i l h →
    T i (f i k d).1 (h ++ (f i k d).2.2.toList)
  wakeup : ∀ {l c next}, code l = .wakeup c next → ∀ {i h}, T i l h → T i next h
  sleep : ∀ {l c next}, code l = .sleep c next → ∀ {i h}, T i l h → T i next h
  entry : ∀ {i l m}, entry i l m → T i m []

omit [DecidableEq C] in
theorem told_snoc (i : I) (as : List (Label I L E)) (a : Label I L E) :
    told i (as ++ [a]) =
      match a with
      | .step j e => if j = i then told i as ++ e.toList else told i as
      | .start j _ => if j = i then [] else told i as
      | .kill _ => told i as := by
  rw [told, List.foldl_append]
  rfl

theorem run_told {T : I → L → List E → Prop} (o : Outline code entry Locked J A S)
    (hT : Tells code entry A T) (h : Run (Step code entry) s₀ as s) (hs : Inv code Locked J A S s₀)
    (h₀ : ∀ i, T i (s₀.thread i).point []) (i : I) : T i (s.thread i).point (told i as) := by
  induction h generalizing i with
  | nil => exact h₀ i
  | @snoc t u as a hrun hstep ih =>
      have hinv := run_inv o hrun hs
      -- a step that shows nothing
      have hquiet : ∀ {j : I} {t' : Thread C L} {w : State I D C L},
          (∀ i, (w.thread i).point = (t.thread i).point) →
          T j t'.point (told j as) → T i ((w.put j t').thread i).point (told i as) := by
        intro j t' w hw hj
        rw [State.put_thread]
        split
        · rename_i heq
          exact heq ▸ hj
        · rw [hw]
          exact ih i
      have hsame : ∀ {j : I}, told i (as ++ [.step j none]) = told i as := by
        intro j
        rw [told_snoc]
        dsimp only
        split
        · exact List.append_nil _
        · rfl
      have hpoint : ∀ {j : I} {l : L} {p : Phase C L} {k : Bool}, t.thread j = ⟨l, p, k⟩ →
          T j l (told j as) := by
        intro j l p k hj
        have hold := ih j
        rwa [hj] at hold
      cases hstep with
      | acquire ht hc _ => exact hsame ▸ hquiet (fun _ => rfl) (hT.acquire hc (hpoint ht))
      | release ht hc => exact hsame ▸ hquiet (fun _ => rfl) (hT.release hc (hpoint ht))
      | wakeup ht _ _ => exact hsame ▸ hquiet (fun _ => rfl) (hpoint ht)
      | @wake j l next k c ht =>
          obtain ⟨-, -, -, hfits⟩ := hinv.one ht
          exact hsame ▸ hquiet (fun i => ((t.thread i).wake_roused c).point)
            (hT.wakeup hfits (hpoint ht))
      | sleep ht _ _ => exact hsame ▸ hquiet (fun _ => rfl) (hpoint ht)
      | leave ht => exact hsame ▸ hquiet (fun _ => rfl) (hpoint ht)
      | fall ht => exact hsame ▸ hquiet (fun _ => rfl) (hpoint ht)
      | run ht _ => exact hsame ▸ hquiet (fun _ => rfl) (hpoint ht)
      | back ht => exact hsame ▸ hquiet (fun _ => rfl) (hpoint ht)
      | again ht _ =>
          obtain ⟨-, -, -, c, hc⟩ := hinv.one ht
          exact hsame ▸ hquiet (fun _ => rfl) (hT.sleep hc (hpoint ht))
      | @act j l next k d e f ht hc hf =>
          obtain ⟨-, -, hh, -⟩ := hinv.one ht
          rw [told_snoc, State.put_thread]
          dsimp only
          by_cases hj : i = j
          · subst hj
            rw [if_pos rfl, if_pos rfl]
            have hnew := @Tells.act _ _ _ _ _ _ _ _ _ hT l f hc i k _ _ hh (hpoint ht)
            rw [hf] at hnew
            exact hnew
          · rw [if_neg hj, if_neg (Ne.symm hj)]
            exact ih i
      | @kill j _ =>
          rw [told_snoc]
          refine hquiet (fun _ => rfl) ?_
          rw [(t.thread j).kill_roused.point]
          exact ih j
      | @start j l m k ht hc he =>
          rw [told_snoc, State.put_thread]
          dsimp only
          by_cases hj : i = j
          · subst hj
            rw [if_pos rfl, if_pos rfl]
            exact hT.entry he
          · rw [if_neg hj, if_neg (Ne.symm hj)]
            exact ih i

/-- `R` holds of the data only while some thread is at a point of `P`. -/
structure Stands (code : L → Instr I D C L E) (entry : I → L → L → Prop) (A : I → L → D → Prop)
    (P : L → Prop) (R : D → Prop) : Prop where
  acquire : ∀ {l next}, code l = .acquire next → P l → P next
  release : ∀ {l next}, code l = .release next → P l → P next
  act : ∀ {l f}, code l = .act f → ∀ {i k d}, A i l d → R (f i k d).2.1 →
    P (f i k d).1 ∨ R d ∧ ¬ P l
  wakeup : ∀ {l c next}, code l = .wakeup c next → P l → P next
  sleep : ∀ {l c next}, code l = .sleep c next → P l → P next
  entry : ∀ {i l m}, entry i l m → P l → P m

theorem run_stands {P : L → Prop} {R : D → Prop} (o : Outline code entry Locked J A S)
    (hP : Stands code entry A P R) (h : Run (Step code entry) s₀ as s)
    (hs : Inv code Locked J A S s₀) (h₀ : R s₀.data → ∃ i, P (s₀.thread i).point) :
    R s.data → ∃ i, P (s.thread i).point := by
  induction h with
  | nil => exact h₀
  | @snoc t u as a hrun hstep ih =>
      have hinv := run_inv o hrun hs
      -- the data stay, and the thread stays in `P`
      have hmoves : ∀ {j : I} {l : L} {p : Phase C L} {k : Bool} {w : State I D C L}
          {t' : Thread C L}, t.thread j = ⟨l, p, k⟩ → w.data = t.data →
          (∀ i, (w.thread i).point = (t.thread i).point) → (P l → P t'.point) →
          R (w.put j t').data → ∃ i, P ((w.put j t').thread i).point := by
        intro j l p k w t' ht hdata hw hP hR
        obtain ⟨i, hi⟩ := ih (hdata ▸ hR)
        refine ⟨i, ?_⟩
        rw [State.put_thread]
        split
        · rename_i heq
          rw [heq, ht] at hi
          exact hP hi
        · rw [hw]
          exact hi
      cases hstep with
      | acquire ht hc _ => exact hmoves ht rfl (fun _ => rfl) (hP.acquire hc)
      | release ht hc => exact hmoves ht rfl (fun _ => rfl) (hP.release hc)
      | wakeup ht _ _ => exact hmoves ht rfl (fun _ => rfl) id
      | @wake j l next k c ht =>
          obtain ⟨-, -, -, hfits⟩ := hinv.one ht
          exact hmoves ht rfl (fun i => ((t.thread i).wake_roused c).point) (hP.wakeup hfits)
      | sleep ht _ _ => exact hmoves ht rfl (fun _ => rfl) id
      | leave ht => exact hmoves ht rfl (fun _ => rfl) id
      | fall ht => exact hmoves ht rfl (fun _ => rfl) id
      | run ht _ => exact hmoves ht rfl (fun _ => rfl) id
      | back ht => exact hmoves ht rfl (fun _ => rfl) id
      | again ht _ =>
          obtain ⟨-, -, -, c, hc⟩ := hinv.one ht
          exact hmoves ht rfl (fun _ => rfl) (hP.sleep hc)
      | @kill j _ =>
          refine hmoves (j := j) rfl rfl (fun _ => rfl) fun hj => ?_
          rw [(t.thread j).kill_roused.point]
          exact hj
      | start ht _ he => exact hmoves ht rfl (fun _ => rfl) (hP.entry he)
      | @act j l next k d e f ht hc hf =>
          obtain ⟨-, -, hh, -⟩ := hinv.one ht
          intro hR
          have hgo := @Stands.act _ _ _ _ _ _ _ _ _ _ hP l f hc j k _ hh
          rw [hf] at hgo
          rcases hgo hR with hnext | ⟨hold, hout⟩
          · exact ⟨j, by rw [State.put_thread, if_pos rfl]; exact hnext⟩
          · obtain ⟨i, hi⟩ := ih hold
            have hij : i ≠ j := by
              rintro rfl
              rw [ht] at hi
              exact hout hi
            exact ⟨i, by rw [State.put_thread, if_neg hij]; exact hi⟩

end Runs

end Monitor
