import CS537.Threads.SharedSize

/-!
# Threads — the write of `join`

`sys_join` checks its pointer once, and `join` writes through it after a sleep of
any length. The user pages of each directory are added to the state here: which
of them are mapped.
-/

namespace CS537.Threads

open MachineInt

/-- The kernel with the user pages: whether a page of a directory is present. -/
structure Machine where
  kernel : Kernel
  present : PgDir → Nat → Bool

/-! ## The page tables -/

/-- The pages a loop from `PGROUNDUP(lo)` up to `hi` visits. -/
def inRange (lo hi page : Nat) : Bool := lo ≤ page * pgsize && page * pgsize < hi

/-- The pages below a size. -/
def image (sz page : Nat) : Bool := page * pgsize < sz

/-- What `growproc` does to the pages of the directory; `none` is
`panic("remap")`. When `allocuvm` runs out of memory it frees the whole range. -/
def growPages (enough : Bool) (n : Int) (sz : Nat) (pages : Nat → Bool) : Option (Nat → Bool) :=
  let newsz := toU32 (sz + n)
  if n > 0 then
    if newsz ≥ kernbase ∨ newsz < sz then some pages
    else if enough then
      if (List.range (newsz / pgsize + 1)).any fun page => inRange sz newsz page && pages page then none
      else some fun page => inRange sz newsz page || pages page
    else some fun page => pages page && !inRange sz newsz page
  else if n < 0 then
    if newsz ≥ sz then some pages else some fun page => pages page && !inRange newsz sz page
  else some pages

/-- The pages of one directory replaced. -/
def setPages (present : PgDir → Nat → Bool) (d : PgDir) (pages : Nat → Bool) :
    PgDir → Nat → Bool :=
  fun e => if e = d then pages else present e

/-- The pages an event maps and unmaps, before a directory is freed; `none` is a
panic. `copyuvm` panics at a page that is not present. -/
def mapPages (m : Machine) : Event → Option (PgDir → Nat → Bool)
  | .fork s (.copied d) =>
      let sz := (m.kernel.proc s).sz
      match (m.kernel.proc s).pgdir, m.kernel.find fun p => p.state = .unused with
      | some old, some _ =>
          if (List.range (sz / pgsize + 1)).all fun page => image sz page → m.present old page then
            some (setPages m.present d (image sz))
          else none
      | _, _ => some m.present
  | .exec _ (.image d sz) => some (setPages m.present d (image sz))
  | .sbrk s n enough =>
      match (m.kernel.proc s).pgdir with
      | none => none
      | some d =>
          (growPages enough n (m.kernel.proc s).sz (m.present d)).map (setPages m.present d)
  | _ => some m.present

/-- A directory `freevm` was called on between two states. -/
def freedBetween (k k' : Kernel) (d : PgDir) : Bool :=
  (k'.freed.drop k.freed.length).any fun c => c.dir = d

/-! ## System calls -/

/-- `argptr`, for a pointer `i` the process passed. -/
def argptr (sz i size : Nat) : Bool := !(i ≥ sz || u32 (i + size) > sz)

/-- A step of the kernel, with the check of `sys_join`. -/
def sysStep (k : Kernel) (e : Event) : Option Kernel :=
  match e with
  | .join s stack =>
      if argptr (k.proc s).sz stack 4 then step k e
      else if (k.proc s).state = .running then some k
      else none
  | e => step k e

/-- The arguments the code around these functions can pass: `sbrk` has an `int`,
and `exec` builds an image below `KERNBASE`. -/
def Event.inBounds : Event → Bool
  | .sbrk _ n _ => -2147483648 ≤ n && n < 2147483648
  | .exec _ (.image _ sz) => sz < kernbase
  | _ => true

/-- One step of the kernel and the page tables. -/
def Machine.step (m : Machine) (e : Event) : Option Machine :=
  if e.inBounds then
    (sysStep m.kernel e).bind fun k' =>
      (mapPages m e).map fun present =>
        { kernel := k'
          present := fun d page => !freedBetween m.kernel k' d && present d page }
  else none

/-- `Machine.step` as a relation. -/
def Machine.Step (m : Machine) (e : Event) (m' : Machine) : Prop := m.step e = some m'

/-- The write `*stack = p->stack` of an event: the process that makes it and the
address. -/
def joinWrite (k : Kernel) : Event → Option (Slot × Nat)
  | .join s stack =>
      if argptr (k.proc s).sz stack 4 then (scan (.join stack) s k).map fun _ => (s, stack) else none
  | .schedule s =>
      let k' := k.upd s fun p => { p with state := .running, chan := none, call := none }
      match (k.proc s).call with
      | some (.join stack) => (scan (.join stack) s k').map fun _ => (s, stack)
      | _ => none
  | _ => none

/-- The four bytes at an address are below the size of the process, on pages that
are mapped. -/
def Machine.Writable (m : Machine) (s : Slot) (addr : Nat) : Prop :=
  addr + 4 ≤ (m.kernel.proc s).sz ∧
    ∀ b < 4, ∃ d, (m.kernel.proc s).pgdir = some d ∧ m.present d ((addr + b) / pgsize) = true

/-- The kernel after boot, with the pages of init and the shell. -/
def Machine.boot : Machine where
  kernel := Threads.boot
  present d page := (d = 0 && image (3 * pgsize) page) || (d = 1 && image (4 * pgsize) page)

/-! ## Calls that sleep -/

/-- The call a process sleeps in, before and after a step: kept, with the process
not put on a processor; or none; or it goes to sleep in a call it had before or
`asks` for. -/
def Proc.CallStep (asks : Call → Prop) (p p' : Proc) : Prop :=
  (p.state ≠ .unused ∧ p'.call = p.call ∧ (p'.state = .running → p.state = .running)) ∨
  p'.call = none ∨
  p'.state = .sleeping ∧ ∃ c, p'.call = some c ∧
    (p.state ≠ .unused ∧ p.call = some c ∨ asks c)

/-- The same for every process that there is after the step. -/
def Calls (asks : Slot → Call → Prop) (k k' : Kernel) : Prop :=
  ∀ q, (k'.proc q).state ≠ .unused → Proc.CallStep (asks q) (k.proc q) (k'.proc q)

/-- Every process keeps its call, and none is put on a processor. -/
def CallsKept (k k' : Kernel) : Prop :=
  ∀ q, (k'.proc q).state ≠ .unused → (k.proc q).state ≠ .unused ∧
    (k'.proc q).call = (k.proc q).call ∧
    ((k'.proc q).state = .running → (k.proc q).state = .running)

theorem CallsKept.refl (k : Kernel) : CallsKept k k := fun _ hq => ⟨hq, rfl, id⟩

theorem CallsKept.trans {k k' k'' : Kernel} (h : CallsKept k k') (h' : CallsKept k' k'') :
    CallsKept k k'' := by
  intro q hq
  obtain ⟨hlive', hcall', hrun'⟩ := h' q hq
  obtain ⟨hlive, hcall, hrun⟩ := h q hlive'
  exact ⟨hlive, hcall'.trans hcall, fun h => hrun (hrun' h)⟩

/-- One slot changes, and the process in it keeps its call. -/
theorem CallsKept.upd (k : Kernel) (s : Slot) {f : Proc → Proc}
    (hf : (f (k.proc s)).state ≠ .unused → (k.proc s).state ≠ .unused ∧
      (f (k.proc s)).call = (k.proc s).call ∧
      ((f (k.proc s)).state = .running → (k.proc s).state = .running)) :
    CallsKept k (k.upd s f) := by
  intro q hq
  by_cases hqs : q = s
  · subst hqs
    rw [Kernel.upd_proc, if_pos rfl] at hq ⊢
    exact hf hq
  · rw [Kernel.upd_proc, if_neg hqs] at hq ⊢
    exact ⟨hq, rfl, id⟩

variable {wants : Slot → Call → Prop}

theorem CallsKept.calls {k k' : Kernel} (h : CallsKept k k') : Calls wants k k' :=
  fun q hq => .inl (h q hq)

/-- One slot changes. -/
theorem Calls.upd (k : Kernel) (s : Slot) {f : Proc → Proc}
    (hf : (f (k.proc s)).state ≠ .unused →
      Proc.CallStep (wants s) (k.proc s) (f (k.proc s))) : Calls wants k (k.upd s f) := by
  intro q hq
  by_cases hqs : q = s
  · subst hqs
    rw [Kernel.upd_proc, if_pos rfl] at hq ⊢
    exact hf hq
  · rw [Kernel.upd_proc, if_neg hqs] at hq ⊢
    exact .inl ⟨hq, rfl, id⟩

/-- Slot `np` is emptied or gets a process that sleeps in no call. -/
theorem Calls.newborn {k k' : Kernel} {np : Slot}
    (hnp : (k'.proc np).state ≠ .unused → (k'.proc np).call = none)
    (hother : ∀ q, q ≠ np → k'.proc q = k.proc q) : Calls wants k k' := by
  intro q hq
  by_cases hqn : q = np
  · subst hqn
    exact .inr (.inl (hnp hq))
  · rw [hother q hqn] at hq ⊢
    exact .inl ⟨hq, rfl, id⟩

theorem callsKept_wakeup1 (chan : Option Chan) (k : Kernel) : CallsKept k (wakeup1 chan k) := by
  intro q
  simp only [wakeup1]
  split
  · rename_i hsleep
    simp [hsleep.1]
  · intro hq
    exact ⟨hq, rfl, id⟩

theorem callsKept_kill (pid : Int) (k : Kernel) : CallsKept k (kill pid k).2 := by
  unfold kill
  split
  · exact .refl k
  · rename_i s _
    apply CallsKept.upd k s (f := fun p =>
      { p with killed := true, state := if p.state = .sleeping then .runnable else p.state })
    intro hs
    by_cases hsleep : (k.proc s).state = .sleeping
    · simp [hsleep]
    · simpa [hsleep] using hs

theorem callsKept_reparent (s : Slot) (ts : List Slot) (k : Kernel) :
    CallsKept k (reparent s ts k) := by
  induction ts generalizing k with
  | nil => exact .refl k
  | cons t ts ih =>
      have hset : CallsKept k (k.upd t fun p => { p with parent := some k.initproc }) := by
        apply CallsKept.upd
        intro ht
        exact ⟨ht, rfl, id⟩
      unfold reparent
      split
      · dsimp only
        split
        · exact (hset.trans (callsKept_wakeup1 _ _)).trans (ih _)
        · exact hset.trans (ih _)
      · exact ih k

theorem callsKept_exit {k k' : Kernel} {s : Slot} (hs : (k.proc s).state = .running)
    (h : exit s k = some k') : CallsKept k k' := by
  unfold exit at h
  split at h
  · cases h
  · rename_i hinit
    cases h
    have hwake := callsKept_wakeup1 ((k.proc s).parent.map .proc) k
    apply (hwake.trans (callsKept_reparent s slots _)).trans
    apply CallsKept.upd
    intro _
    have hadopted := adopted_reparent slots (wakeup1 ((k.proc s).parent.map .proc) k) hinit
    have hlive := (hadopted.unused s).trans ((quiet_wakeup1 _ k).unused s)
    refine ⟨fun hu => ?_, rfl, by simp⟩
    rw [hlive, hs] at hu
    cases hu

theorem calls_sleep {s : Slot} {k : Kernel} {chan : Chan} {call : Option Call}
    (hcall : ∀ c, call = some c → wants s c) : Calls wants k (sleep s chan call k) := by
  apply Calls.upd
  intro _
  cases call with
  | none => exact .inr (.inl rfl)
  | some c => exact .inr (.inr ⟨rfl, c, rfl, .inr (hcall c rfl)⟩)

theorem calls_wait {k k' : Kernel} {s : Slot} (hs : wants s .wait) (h : wait s k = some k') :
    Calls wants k k' := by
  simp only [wait] at h
  split at h
  · rename_i t _
    obtain ⟨d, _, rfl⟩ := Option.map_eq_some_iff.mp h
    apply @Calls.newborn _ _ _ t
    · intro hu
      simp [Proc.reap] at hu
    · intro q hq
      simp [freevm, hq]
  · split at h
    · cases h
      exact (CallsKept.refl k).calls
    · cases h
      apply calls_sleep
      rintro c ⟨⟩
      exact hs

theorem calls_join {k : Kernel} {s : Slot} {stack : Nat} (hs : wants s (.join stack)) :
    Calls wants k (join stack s k) := by
  simp only [join]
  split
  · rename_i t _
    apply @Calls.newborn _ _ _ t
    · intro hu
      simp [Proc.reap] at hu
    · intro q hq
      simp [hq]
  · split
    · exact (CallsKept.refl k).calls
    · apply calls_sleep
      rintro c ⟨⟩
      exact hs

/-- The process the scheduler picked goes on with the call it slept in. -/
theorem Calls.pick {k k' : Kernel} {s : Slot} (hs : (k.proc s).state = .runnable)
    (h : Calls (fun q c => q = s ∧ (k.proc s).call = some c)
      (k.upd s fun p => { p with state := .running, chan := none, call := none }) k') :
    Calls wants k k' := by
  intro q hq
  have hstep := h q hq
  by_cases hqs : q = s
  · subst hqs
    simp only [Proc.CallStep, Kernel.upd_proc] at hstep
    rcases hstep with ⟨_, hcall, _⟩ | hcall | ⟨hsleep, c, hcall, hask⟩
    · exact .inr (.inl hcall)
    · exact .inr (.inl hcall)
    · rcases hask with ⟨_, hnone⟩ | ⟨_, hcall'⟩
      · cases hnone
      · exact .inr (.inr ⟨hsleep, c, hcall, .inl ⟨by simp [hs], hcall'⟩⟩)
  · simp only [Proc.CallStep, Kernel.upd_proc, hqs, false_and, or_false] at hstep
    rcases hstep with hkept | hcall | ⟨hsleep, c, hcall, hask⟩
    · exact .inl hkept
    · exact .inr (.inl hcall)
    · exact .inr (.inr ⟨hsleep, c, hcall, .inl hask⟩)

theorem calls_schedule {k k' : Kernel} {s : Slot} (hs : (k.proc s).state = .runnable)
    (h : schedule s k = some k') : Calls wants k k' := by
  apply Calls.pick hs
  unfold schedule at h
  split at h
  · cases h
    exact (CallsKept.refl _).calls
  · rename_i hcall
    exact calls_wait ⟨rfl, hcall⟩ h
  · rename_i stack hcall
    cases h
    exact calls_join ⟨rfl, hcall⟩

theorem calls_allocproc {kstack : Bool} {k k' : Kernel} (h : allocproc kstack k = (none, k')) :
    Calls wants k k' := by
  unfold allocproc at h
  split at h
  · cases h
    exact (CallsKept.refl k).calls
  · rename_i np _
    split at h
    · cases h
    · cases h
      apply @Calls.newborn _ _ _ np
      · intro hu
        simp at hu
      · intro q hq
        simp [takeSlot, hq]

theorem calls_fork {k : Kernel} {s : Slot} {mem : ForkMemory} : Calls wants k (fork mem s k).2 := by
  unfold fork
  rcases allocproc_cases (mem ≠ .noKstack) k with ⟨np, _, _, halloc⟩ | ⟨k', halloc, _⟩
  · have hgone : Calls wants k ((takeSlot np k).upd np fun p =>
        { p with pgdir := none, state := .unused }) := by
      apply @Calls.newborn _ _ _ np
      · intro hu
        simp at hu
      · intro q hq
        simp [takeSlot, hq]
    simp only [halloc]
    cases mem with
    | noKstack => exact hgone
    | noPages d =>
        cases d with
        | none => exact hgone
        | some d => exact hgone
    | copied d =>
        apply @Calls.newborn _ _ _ np
        · intro _
          simp [copyuvm]
        · intro q hq
          simp [copyuvm, setupkvm, takeSlot, hq]
  · simp only [halloc]
    exact calls_allocproc halloc

theorem calls_clone {k : Kernel} {s : Slot} {kstack : Bool} {stack : Nat} :
    Calls wants k (clone kstack stack s k).2 := by
  unfold clone
  split
  · exact (CallsKept.refl k).calls
  · split
    · exact (CallsKept.refl k).calls
    · rcases allocproc_cases kstack k with ⟨np, _, _, halloc⟩ | ⟨k', halloc, _⟩
      · simp only [halloc]
        apply @Calls.newborn _ _ _ np
        · intro _
          simp
        · intro q hq
          simp [takeSlot, hq]
      · simp only [halloc]
        exact calls_allocproc halloc

theorem calls_exec {k k' : Kernel} {s : Slot} {r : ExecResult} {code : Int}
    (h : exec r s k = some (code, k')) : Calls wants k k' := by
  apply CallsKept.calls
  cases r with
  | bad d =>
      cases d with
      | none =>
          cases h
          exact .refl k
      | some d =>
          cases h
          exact .refl k
  | image d sz =>
      obtain ⟨old, _, heq⟩ := Option.map_eq_some_iff.mp h
      cases heq
      intro q hq
      by_cases hqs : q = s
      · subst hqs
        simpa [freevm, setupkvm] using hq
      · simpa [freevm, setupkvm, hqs] using hq

theorem calls_growproc {k : Kernel} {s : Slot} {n : Int} {enough : Bool} :
    Calls wants k (growproc enough n s k).2 := by
  apply CallsKept.calls
  rcases growproc_cases enough n s k with heq | ⟨sz, heq⟩
  · rw [heq]
    exact .refl k
  · rw [heq]
    intro q hq
    by_cases hshare : (k.proc q).pgdir = (k.proc s).pgdir
    · simp only [if_pos hshare] at hq ⊢
      exact ⟨hq, trivial, id⟩
    · simp only [if_neg hshare] at hq ⊢
      exact ⟨hq, trivial, id⟩

/-- The call an event makes. -/
def Event.asks (e : Event) (s : Slot) (c : Call) : Prop :=
  e = .wait s ∧ c = .wait ∨ ∃ stack, e = .join s stack ∧ c = .join stack

theorem step_calls {k k' : Kernel} {e : Event} (hs : Step k e k') : Calls e.asks k k' := by
  simp only [Step, Threads.step] at hs
  split at hs
  · rename_i hcan
    obtain ⟨hactor, _⟩ := hcan
    cases e with
    | schedule s =>
        simp only [effect, Option.ite_none_right_eq_some] at hs
        exact calls_schedule hs.1 hs.2
    | yield s =>
        cases hs
        apply CallsKept.calls
        apply CallsKept.upd
        intro _
        simp [hactor s rfl]
    | sleep s addr =>
        cases hs
        apply calls_sleep
        rintro c ⟨⟩
    | wakeup addr =>
        cases hs
        exact (callsKept_wakeup1 _ k).calls
    | kill pid =>
        cases hs
        exact (callsKept_kill pid k).calls
    | fork s mem =>
        cases hs
        exact calls_fork
    | clone s stack kstack =>
        cases hs
        exact calls_clone
    | exec s r =>
        obtain ⟨⟨code, k''⟩, hexec, rfl⟩ := Option.map_eq_some_iff.mp hs
        exact calls_exec hexec
    | sbrk s n enough =>
        cases hs
        exact calls_growproc
    | exit s => exact (callsKept_exit (hactor s rfl) hs).calls
    | wait s => exact calls_wait (.inl ⟨rfl, rfl⟩) hs
    | join s stack =>
        cases hs
        exact calls_join (.inr ⟨stack, rfl, rfl⟩)
  · cases hs

/-! ## The pages below a size are mapped -/

/-- A step that changes no page of the directories in use before it. -/
theorem mapPages_other {m : Machine} {e : Event} {present : PgDir → Nat → Bool}
    (h : mapPages m e = some present) (hne : ∀ s n enough, e ≠ .sbrk s n enough)
    (hfresh : ∀ d ∈ e.fresh, m.kernel.allocated d = false) {d : PgDir}
    (hd : m.kernel.allocated d = true) : present d = m.present d := by
  have hset : ∀ d' pages, m.kernel.allocated d' = false →
      setPages m.present d' pages d = m.present d := by
    intro d' pages hd'
    have hdd : d ≠ d' := by
      rintro rfl
      rw [hd] at hd'
      cases hd'
    simp [setPages, hdd]
  unfold mapPages at h
  split at h
  · rename_i s d'
    have hd' := hfresh d' rfl
    simp only at h
    split at h
    · split at h
      · cases h
        exact hset d' _ hd'
      · cases h
    · cases h
      rfl
  · rename_i s d' sz
    cases h
    exact hset d' _ (hfresh d' rfl)
  · rename_i s n enough
    exact absurd rfl (hne s n enough)
  · cases h
    rfl

/-- The copy has the pages below the size of the process that forked. -/
theorem mapPages_fork {m : Machine} {s np : Slot} {d old : PgDir} {present : PgDir → Nat → Bool}
    (h : mapPages m (.fork s (.copied d)) = some present)
    (hold : (m.kernel.proc s).pgdir = some old) (hnp : (m.kernel.proc np).state = .unused) :
    present d = image (m.kernel.proc s).sz := by
  obtain ⟨slot, hslot⟩ : ∃ slot, m.kernel.find (fun p => p.state = .unused) = some slot := by
    cases hfind : m.kernel.find fun p => p.state = .unused with
    | some slot => exact ⟨slot, rfl⟩
    | none =>
        have hno := findSlot_none hfind np
        simp [hnp] at hno
  simp only [mapPages, hold, hslot] at h
  split at h
  · cases h
    simp [setPages]
  · cases h

/-- What `growproc` does to the size and to the pages of its directory together. -/
theorem grow_cases {m : Machine} {s : Slot} {n : Int} {enough : Bool} {pages pages' : Nat → Bool}
    (hsz : (m.kernel.proc s).sz < kernbase) (hlo : -2147483648 ≤ n) (hhi : n < 2147483648)
    (hzero : n < 0 → (m.kernel.proc s).sz + n ≠ 0)
    (h : growPages enough n (m.kernel.proc s).sz pages = some pages') :
    ∃ newsz, (newsz = (m.kernel.proc s).sz ∧ (growproc enough n s m.kernel).2 = m.kernel ∨
        (growproc enough n s m.kernel).2 = { m.kernel with proc := fun t =>
          if (m.kernel.proc t).pgdir = (m.kernel.proc s).pgdir
          then { m.kernel.proc t with sz := newsz } else m.kernel.proc t }) ∧
      newsz < kernbase ∧
      (newsz < (m.kernel.proc s).sz → n < 0 ∧ (newsz : Int) = (m.kernel.proc s).sz + n) ∧
      ∀ page, image newsz page = true → (image (m.kernel.proc s).sz page = true →
        pages page = true) → pages' page = true := by
  simp only [kernbase] at hsz
  generalize hold : (m.kernel.proc s).sz = sz at *
  unfold growPages at h
  unfold growproc
  rw [hold]
  simp only [kernbase] at h ⊢
  generalize hnew : toU32 (sz + n) = newsz at *
  have hwrap : (newsz : Int) = (sz + n) % 4294967296 := by
    rw [← hnew, toU32]
    omega
  clear hnew
  have hbelow : ∀ page, image newsz page = true → (image sz page = true → pages page = true) →
      pages page = false → inRange sz newsz page = true := by
    intro page hnew hold hout
    simp only [image, inRange, decide_eq_true_eq, Bool.and_eq_true] at *
    refine ⟨Nat.le_of_not_lt fun hlt => ?_, hnew⟩
    rw [hold hlt] at hout
    cases hout
  by_cases hpos : n > 0
  · have hsum : (newsz : Int) = sz + n := by omega
    rw [if_pos hpos] at h ⊢
    by_cases hbig : newsz ≥ 2147483648
    · -- too large: nothing happens
      rw [if_pos (.inl hbig)] at h
      cases h
      simp only [allocuvm, kernbase, if_pos hbig]
      exact ⟨sz, .inl ⟨rfl, trivial⟩, hsz, fun hlt => absurd hlt (Nat.lt_irrefl _),
        fun page hpage hin => hin hpage⟩
    · have hge : ¬ newsz < sz := by omega
      rw [if_neg (fun hor => hor.elim hbig hge)] at h
      simp only [allocuvm, kernbase, if_neg hbig, if_neg hge]
      cases enough with
      | true =>
          simp only [if_true] at h ⊢
          split at h
          · cases h
          · cases h
            refine ⟨newsz, .inr rfl, by omega, fun hlt => absurd hlt hge, fun page hpage hin => ?_⟩
            change (inRange sz newsz page || pages page) = true
            cases hpages : pages page with
            | true => rw [Bool.or_true]
            | false => rw [hbelow page hpage hin hpages, Bool.true_or]
      | false =>
          -- no memory: the range is freed, all of it above the size
          simp only [Bool.false_eq_true, if_false] at h ⊢
          cases h
          refine ⟨sz, .inl ⟨rfl, trivial⟩, hsz, fun hlt => absurd hlt (Nat.lt_irrefl _),
            fun page hpage hin => ?_⟩
          change (pages page && !inRange sz newsz page) = true
          rw [hin hpage, Bool.true_and]
          simp only [image, inRange, decide_eq_true_eq] at hpage ⊢
          simp [hpage]
  · rw [if_neg hpos] at h ⊢
    by_cases hneg : n < 0
    · rw [if_pos hneg] at h ⊢
      have hne := hzero hneg
      by_cases hge : newsz ≥ sz
      · rw [if_pos hge] at h
        cases h
        simp only [deallocuvm, if_pos hge]
        refine ⟨sz, ?_, hsz, fun hlt => absurd hlt (Nat.lt_irrefl _), fun page hpage hin => hin hpage⟩
        by_cases h0 : sz = 0
        · rw [if_pos h0]
          exact .inl ⟨rfl, rfl⟩
        · rw [if_neg h0]
          exact .inr rfl
      · rw [if_neg hge] at h
        cases h
        have hsum : (newsz : Int) = sz + n := by omega
        have h0 : ¬ newsz = 0 := by omega
        simp only [deallocuvm, if_neg hge, if_neg h0]
        refine ⟨newsz, .inr rfl, by omega, fun _ => ⟨hneg, hsum⟩, fun page hpage hin => ?_⟩
        simp only [image, inRange, decide_eq_true_eq] at hpage hin ⊢
        rw [hin (by omega), Bool.true_and]
        simp
        omega
    · rw [if_neg hneg] at h ⊢
      cases h
      exact ⟨sz, .inr rfl, hsz, fun hlt => absurd hlt (Nat.lt_irrefl _),
        fun page hpage hin => hin hpage⟩

/-- The discipline under which the pointer stays good. `sbrk` does not give up
the whole address space, nor cut it below the pointer of a process that sleeps in
`join` with the same directory (a decrement beyond the size does nothing); and the
step frees no directory that another process still has. -/
structure KeepsPointers (m : Machine) (e : Event) : Prop where
  shrink : ∀ s n enough, e = .sbrk s n enough → n < 0 →
    (m.kernel.proc s).sz + n ≠ 0 ∧
      ∀ q stack, (m.kernel.proc q).state ≠ .unused → (m.kernel.proc q).call = some (.join stack) →
        (m.kernel.proc q).pgdir = (m.kernel.proc s).pgdir →
        (m.kernel.proc s).sz + n < 0 ∨ (stack : Int) + 4 ≤ (m.kernel.proc s).sz + n
  frees : ∀ k', sysStep m.kernel e = some k' → FreedAlone k'

/-- The invariant: pages below the size are mapped, and a process that sleeps in
`join` has its pointer below its size. -/
structure Mapped (m : Machine) : Prop where
  alone : FreedAlone m.kernel
  sized : Sized m.kernel
  below : ∀ q, (m.kernel.proc q).state ≠ .unused → (m.kernel.proc q).sz < kernbase
  mapped : ∀ q d, (m.kernel.proc q).state ≠ .unused → (m.kernel.proc q).pgdir = some d →
    ∀ page, image (m.kernel.proc q).sz page = true → m.present d page = true
  awake : ∀ q, (m.kernel.proc q).state = .running → (m.kernel.proc q).call = none
  joining : ∀ q stack, (m.kernel.proc q).state ≠ .unused →
    (m.kernel.proc q).call = some (.join stack) → stack + 4 ≤ (m.kernel.proc q).sz

theorem Change.released {k k' : Kernel} {e : Event} (h : Change k k' e) : Released k k' := by
  cases h with
  | fewer h _ => exact h.released
  | cloned h _ => exact released_same h.freed
  | forked h _ => exact released_same h.freed
  | installed h _ _ => exact h.released
  | @grown s n enough _ h =>
      rw [h]
      rcases growproc_cases enough n s k with heq | ⟨sz, heq⟩
      · rw [heq]
        exact released_same rfl
      · rw [heq]
        exact released_same rfl

/-- A directory in use after a step was not freed by it. -/
theorem not_freedBetween {k k' : Kernel} (h : Released k k') {d : PgDir}
    (hd : k'.allocated d = true) : freedBetween k k' d = false := by
  apply Bool.eq_false_iff.mpr
  intro hfreed
  obtain ⟨c, hc, hdir⟩ := List.any_eq_true.mp hfreed
  have hno := h c hc
  simp only [decide_eq_true_eq] at hdir
  rw [hdir, hd] at hno
  cases hno

/-- The check of `sys_join`. -/
theorem argptr_le {sz stack : Nat} (hsz : sz < kernbase) (h : argptr sz stack 4 = true) :
    stack + 4 ≤ sz := by
  simp only [kernbase] at hsz
  simp only [argptr, Bool.not_eq_true', Bool.or_eq_false_iff, decide_eq_false_iff_not] at h
  obtain ⟨hstack, hend⟩ := h
  unfold u32 at hend
  omega

theorem step_can {k k' : Kernel} {e : Event} (h : Threads.step k e = some k') :
    (∀ s ∈ e.actor, (k.proc s).state = .running) ∧ (∀ d ∈ e.fresh, k.allocated d = false) ∧
      effect k e = some k' := by
  unfold Threads.step at h
  split at h
  · rename_i hcan
    exact ⟨hcan.1, hcan.2, h⟩
  · cases h

/-- The sizes and pages after a step: sizes are below `KERNBASE`, the pages below
them are mapped, and the pointer of a process that sleeps in `join` stays below its
size. -/
theorem Mapped.sizes {m : Machine} {e : Event} {k' : Kernel} {pages : PgDir → Nat → Bool}
    (h : Mapped m) (hbounds : e.inBounds = true) (hok : KeepsPointers m e)
    (hs : Threads.Step m.kernel e k') (hpages : mapPages m e = some pages) :
    (∀ q, (k'.proc q).state ≠ .unused → (k'.proc q).sz < kernbase) ∧
    (∀ q d, (k'.proc q).state ≠ .unused → (k'.proc q).pgdir = some d →
      ∀ page, image (k'.proc q).sz page = true → pages d page = true) ∧
    ∀ q stack, (m.kernel.proc q).state ≠ .unused → (m.kernel.proc q).state ≠ .running →
      (m.kernel.proc q).call = some (.join stack) → (k'.proc q).state ≠ .unused →
      stack + 4 ≤ (k'.proc q).sz := by
  have hfresh := (step_can hs).2.1
  -- a process that stays keeps its pages, unless the event is `sbrk`
  have hkept : (∀ s n enough, e ≠ .sbrk s n enough) → ∀ q d, (m.kernel.proc q).state ≠ .unused →
      (m.kernel.proc q).pgdir = some d → ∀ page, image (m.kernel.proc q).sz page = true →
        pages d page = true := by
    intro hne q d hq hd page hpage
    obtain ⟨d', hd', hal⟩ := h.sized.dirs q hq
    cases hd.symm.trans hd'
    rw [mapPages_other hpages hne hfresh hal]
    exact h.mapped q d hq hd page hpage
  -- a new process in slot `np`, next to the ones that stay
  have hborn : ∀ np s, Born np s m.kernel k' → (∀ s n enough, e ≠ .sbrk s n enough) →
      (∀ d, (k'.proc np).pgdir = some d → ∀ page, image (m.kernel.proc s).sz page = true →
        pages d page = true) →
      (∀ q, (k'.proc q).state ≠ .unused → (k'.proc q).sz < kernbase) ∧
      (∀ q d, (k'.proc q).state ≠ .unused → (k'.proc q).pgdir = some d →
        ∀ page, image (k'.proc q).sz page = true → pages d page = true) ∧
      ∀ q stack, (m.kernel.proc q).state ≠ .unused → (m.kernel.proc q).state ≠ .running →
        (m.kernel.proc q).call = some (.join stack) → (k'.proc q).state ≠ .unused →
        stack + 4 ≤ (k'.proc q).sz := by
    intro np s hb hne hnew
    refine ⟨fun q hq => ?_, fun q d hq hd page hpage => ?_, fun q stack hq _ hcall _ => ?_⟩
    · by_cases hqn : q = np
      · rw [hqn, hb.sz]
        exact h.below s (by simp [hb.running])
      · rw [hb.other q hqn] at hq ⊢
        exact h.below q hq
    · by_cases hqn : q = np
      · rw [hqn, hb.sz] at hpage
        rw [hqn] at hd
        exact hnew d hd page hpage
      · rw [hb.other q hqn] at hq hd hpage
        exact hkept hne q d hq hd page hpage
    · have hqn : q ≠ np := by
        rintro rfl
        exact hq hb.unused
      rw [hb.other q hqn]
      exact h.joining q stack hq hcall
  cases step_cases hs with
  | fewer hf hne =>
      refine ⟨fun q hq => ?_, fun q d hq hd page hpage => ?_, fun q stack hq _ hcall hq' => ?_⟩
      · rw [hf.sz q hq]
        exact h.below q (hf.live q hq)
      · rw [hf.sz q hq] at hpage
        rw [hf.pgdir q hq] at hd
        exact hkept hne q d (hf.live q hq) hd page hpage
      · rw [hf.sz q hq']
        exact h.joining q stack hq hcall
  | @cloned np s stack kstack hb hdir =>
      have hs' : (m.kernel.proc s).state ≠ .unused := by simp [hb.running]
      apply hborn np s hb (by simp)
      intro d hd page hpage
      exact hkept (by simp) s d hs' (hdir.symm.trans hd) page hpage
  | @forked np s d hb hdir =>
      have hs' : (m.kernel.proc s).state ≠ .unused := by simp [hb.running]
      obtain ⟨old, hold, _⟩ := h.sized.dirs s hs'
      apply hborn np s hb (by simp)
      intro d' hd' page hpage
      cases hdir.symm.trans hd'
      rw [mapPages_fork hpages hold hb.unused]
      exact hpage
  | @installed s d sz hi hdir hsz =>
      have hsz' : sz < kernbase := by simpa [Event.inBounds] using hbounds
      have hlive : ∀ q, q ≠ s → (k'.proc q).state ≠ .unused → (m.kernel.proc q).state ≠ .unused := by
        intro q hqs hq
        rw [← hi.other q hqs]
        exact hq
      refine ⟨fun q hq => ?_, fun q d' hq hd page hpage => ?_, fun q stack hq hrun hcall _ => ?_⟩
      · by_cases hqs : q = s
        · rw [hqs, hsz]
          exact hsz'
        · rw [hi.other q hqs]
          exact h.below q (hlive q hqs hq)
      · by_cases hqs : q = s
        · rw [hqs, hsz] at hpage
          rw [hqs, hdir] at hd
          cases hd
          cases hpages
          simpa [setPages] using hpage
        · have hq' := hlive q hqs hq
          rw [hi.other q hqs] at hd hpage
          exact hkept (by simp) q d' hq' hd page hpage
      · have hqs : q ≠ s := by
          rintro rfl
          exact hrun hi.running
        rw [hi.other q hqs]
        exact h.joining q stack hq hcall
  | @grown s n enough hrun heq =>
      have hs' : (m.kernel.proc s).state ≠ .unused := by simp [hrun]
      obtain ⟨d, hd, hal⟩ := h.sized.dirs s hs'
      simp only [Event.inBounds, Bool.and_eq_true, decide_eq_true_eq] at hbounds
      simp only [mapPages, hd] at hpages
      obtain ⟨pages', hgrow, rfl⟩ := Option.map_eq_some_iff.mp hpages
      obtain ⟨newsz, hk, hnew, hless, hin⟩ := grow_cases (h.below s hs') hbounds.1 hbounds.2
        (fun hn => (hok.shrink s n enough rfl hn).1) hgrow
      -- the processes that share the directory have the old size
      have hshare : ∀ q, (m.kernel.proc q).state ≠ .unused →
          (m.kernel.proc q).pgdir = (m.kernel.proc s).pgdir →
          (m.kernel.proc q).sz = (m.kernel.proc s).sz := fun q hq => h.sized.sizes q s hq hs'
      have hproc : ∀ q, (k'.proc q).state = (m.kernel.proc q).state ∧
          (k'.proc q).pgdir = (m.kernel.proc q).pgdir ∧
          ((m.kernel.proc q).state ≠ .unused → (k'.proc q).sz =
            if (m.kernel.proc q).pgdir = (m.kernel.proc s).pgdir then newsz
            else (m.kernel.proc q).sz) := by
        intro q
        rcases hk with ⟨hsame, hk⟩ | hk
        · rw [heq, hk]
          refine ⟨rfl, rfl, fun hq => ?_⟩
          split
          · rename_i hdir
            rw [hsame]
            exact hshare q hq hdir
          · rfl
        · rw [heq, hk]
          dsimp only
          split
          · exact ⟨rfl, rfl, fun _ => rfl⟩
          · exact ⟨rfl, rfl, fun _ => rfl⟩
      refine ⟨fun q hq => ?_, fun q e hq he page hpage => ?_, fun q stack hq hrun hcall hq' => ?_⟩
      · rw [(hproc q).1] at hq
        rw [(hproc q).2.2 hq]
        split
        · exact hnew
        · exact h.below q hq
      · rw [(hproc q).1] at hq
        rw [(hproc q).2.1] at he
        rw [(hproc q).2.2 hq] at hpage
        by_cases hdir : (m.kernel.proc q).pgdir = (m.kernel.proc s).pgdir
        · have hde : e = d := by
            rw [hdir, hd] at he
            exact (Option.some.inj he).symm
          rw [if_pos hdir] at hpage
          rw [hde]
          simp only [setPages, if_true]
          apply hin page hpage
          intro hold
          rw [← hshare q hq hdir] at hold
          exact hde ▸ h.mapped q e hq he page hold
        · have hde : e ≠ d := by
            rintro rfl
            exact hdir (he.trans hd.symm)
          rw [if_neg hdir] at hpage
          simp only [setPages, if_neg hde]
          exact h.mapped q e hq he page hpage
      · rw [(hproc q).2.2 hq]
        have hold := h.joining q stack hq hcall
        split
        · rename_i hdir
          by_cases hlt : newsz < (m.kernel.proc s).sz
          · obtain ⟨hneg, hsum⟩ := hless hlt
            have hcut := (hok.shrink s n enough rfl hneg).2 q stack hq hcall hdir
            omega
          · have := hshare q hq hdir
            omega
        · exact hold

theorem sysStep_join (k : Kernel) (s : Slot) (stack : Nat) :
    sysStep k (.join s stack) = if argptr (k.proc s).sz stack 4 then Threads.step k (.join s stack)
      else if (k.proc s).state = .running then some k else none := rfl

/-- A step of the kernel behind a step of the machine, or none. -/
theorem sysStep_cases {k k' : Kernel} {e : Event} (h : sysStep k e = some k') :
    Threads.step k e = some k' ∨ k' = k ∧ ∃ s stack, e = .join s stack := by
  unfold sysStep at h
  split at h
  · rename_i s stack
    split at h
    · exact .inl h
    · split at h
      · cases h
        exact .inr ⟨rfl, s, stack, rfl⟩
      · cases h
  · exact .inl h

/-- The pointer of a process that sleeps in `join` after a step. -/
theorem Mapped.joined {m : Machine} {e : Event} {k' : Kernel} {pages : PgDir → Nat → Bool}
    (h : Mapped m) (hbounds : e.inBounds = true) (hok : KeepsPointers m e)
    (hs : sysStep m.kernel e = some k') (hpages : mapPages m e = some pages) {q : Slot}
    {stack : Nat} (hq : (k'.proc q).state ≠ .unused)
    (hcall : (k'.proc q).call = some (.join stack)) : stack + 4 ≤ (k'.proc q).sz := by
  rcases sysStep_cases hs with hstep | ⟨rfl, _⟩
  · obtain ⟨_, _, hstay⟩ := h.sizes hbounds hok hstep hpages
    rcases step_calls hstep q hq with ⟨hlive, hsame, _⟩ | hnone | ⟨_, c, hc, hask⟩
    · rw [hsame] at hcall
      have hrun : (m.kernel.proc q).state ≠ .running := by
        intro hrun
        rw [h.awake q hrun] at hcall
        cases hcall
      exact hstay q stack hlive hrun hcall hq
    · rw [hnone] at hcall
      cases hcall
    · cases hcall.symm.trans hc
      rcases hask with ⟨hlive, hold⟩ | ⟨_, hwait⟩ | ⟨stack', rfl, heq⟩
      · have hrun : (m.kernel.proc q).state ≠ .running := by
          intro hrun
          rw [h.awake q hrun] at hold
          cases hold
        exact hstay q stack hlive hrun hold hq
      · cases hwait
      · -- the call was made now, and its pointer has just been checked
        cases heq
        rw [sysStep_join] at hs
        by_cases hptr : argptr (m.kernel.proc q).sz stack 4 = true
        · obtain hf : Fewer m.kernel k' := by
            cases step_cases hstep with
            | fewer hf _ => exact hf
          rw [hf.sz q hq]
          exact argptr_le (h.below q (hf.live q hq)) hptr
        · rw [if_neg hptr] at hs
          split at hs
          · cases hs
            exact h.joining q stack hq hcall
          · cases hs
  · exact h.joining q stack hq hcall

theorem Mapped.step {m m' : Machine} {e : Event} (h : Mapped m) (hok : KeepsPointers m e)
    (hs : m.Step e m') : Mapped m' := by
  simp only [Machine.Step, Machine.step] at hs
  split at hs
  · rename_i hbounds
    obtain ⟨k', hk, hrest⟩ := Option.bind_eq_some_iff.mp hs
    obtain ⟨pages, hpages, rfl⟩ := Option.map_eq_some_iff.mp hrest
    have hjoined := fun q stack => @h.joined _ _ _ _ hbounds hok hk hpages q stack
    rcases sysStep_cases hk with hstep | ⟨rfl, s, stack, rfl⟩
    · have halone := hok.frees k' hk
      have hsized := h.sized.step hstep halone
      obtain ⟨hbelow, hmapped, _⟩ := h.sizes hbounds hok hstep hpages
      refine ⟨halone, hsized, hbelow, fun q d hq hd page hpage => ?_, fun q hq => ?_, hjoined⟩
      · obtain ⟨d', hd', hal⟩ := hsized.dirs q hq
        cases hd.symm.trans hd'
        dsimp only
        rw [not_freedBetween (step_cases hstep).released hal, hmapped q d hq hd page hpage]
        rfl
      · have hlive : (k'.proc q).state ≠ .unused := by
          rw [hq]
          decide
        rcases step_calls hstep q hlive with ⟨_, hsame, hrun⟩ | hnone | ⟨hsleep, _⟩
        · exact hsame.trans (h.awake q (hrun hq))
        · exact hnone
        · rw [hq] at hsleep
          cases hsleep
    · cases hpages
      refine ⟨h.alone, h.sized, h.below, fun q d hq hd page hpage => ?_, h.awake, h.joining⟩
      obtain ⟨d', hd', hal⟩ := h.sized.dirs q hq
      cases hd.symm.trans hd'
      dsimp only
      rw [not_freedBetween (released_same rfl) hal, h.mapped q d hq hd page hpage]
      rfl
  · cases hs

theorem mapped_boot : Mapped Machine.boot := by
  have halive : ∀ q : Slot, (boot.proc q).state ≠ .unused → q = 0 ∨ q = 1 := by decide
  refine ⟨?_, sized_boot, by decide, fun q d hq hd page hpage => ?_, by decide, ?_⟩
  · intro c hc
    cases hc
  · rcases halive q hq with rfl | rfl
    · cases hd
      change (true && image (3 * pgsize) page || false) = true
      rw [Bool.true_and, Bool.or_false]
      exact hpage
    · cases hd
      exact hpage
  · intro q stack hq hcall
    rcases halive q hq with rfl | rfl
    · cases hcall
    · cases hcall

/-- Pages that hold four bytes below the size. -/
theorem Mapped.writable {m : Machine} (h : Mapped m) {s : Slot} {stack : Nat}
    (hs : (m.kernel.proc s).state ≠ .unused) (hle : stack + 4 ≤ (m.kernel.proc s).sz) :
    m.Writable s stack := by
  refine ⟨hle, fun b hb => ?_⟩
  obtain ⟨d, hd, _⟩ := h.sized.dirs s hs
  refine ⟨d, hd, h.mapped s d hs hd _ ?_⟩
  have hpage := Nat.div_mul_le_self (stack + b) pgsize
  simp only [image, decide_eq_true_eq]
  omega

/-- The writes of `join` in a state where the invariant holds. -/
theorem Mapped.joinWrite {m m' : Machine} {e : Event} (h : Mapped m) (hs : m.Step e m')
    {s : Slot} {addr : Nat} (hw : joinWrite m.kernel e = some (s, addr)) : m.Writable s addr := by
  have hstep : ∃ k', sysStep m.kernel e = some k' := by
    simp only [Machine.Step, Machine.step] at hs
    split at hs
    · obtain ⟨k', hk, _⟩ := Option.bind_eq_some_iff.mp hs
      exact ⟨k', hk⟩
    · cases hs
  obtain ⟨k', hk⟩ := hstep
  cases e with
  | join q stack =>
      simp only [Threads.joinWrite] at hw
      split at hw
      · rename_i hptr
        obtain ⟨_, _, heq⟩ := Option.map_eq_some_iff.mp hw
        cases heq
        rw [sysStep_join, if_pos hptr] at hk
        have hrun : (m.kernel.proc s).state = .running := (step_can hk).1 s rfl
        have hlive : (m.kernel.proc s).state ≠ .unused := by simp [hrun]
        exact h.writable hlive (argptr_le (h.below s hlive) hptr)
      · cases hw
  | schedule q =>
      simp only [Threads.joinWrite] at hw
      split at hw
      · rename_i stack hcall
        obtain ⟨_, _, heq⟩ := Option.map_eq_some_iff.mp hw
        cases heq
        have hrun : (m.kernel.proc s).state = .runnable := by
          have heffect := (step_can hk).2.2
          simp only [effect, Option.ite_none_right_eq_some] at heffect
          exact heffect.1
        have hlive : (m.kernel.proc s).state ≠ .unused := by simp [hrun]
        exact h.writable hlive (h.joining s addr hlive hcall)
      · cases hw
  | _ => cases hw

/-- Every write of `join` along a run that keeps to the discipline is below the
caller's size, on mapped pages. -/
theorem join_writes_mapped {m m' : Machine} {e : Event}
    (h : Lts.Reachable (· = Machine.boot) (Lts.Guarded KeepsPointers Machine.Step) m)
    (hs : m.Step e m') {s : Slot} {addr : Nat} (hw : joinWrite m.kernel e = some (s, addr)) :
    m.Writable s addr := by
  have hinv : Mapped m := by
    refine Lts.Reachable.invariant ?_ (fun m e m' hm hs => hm.step hs.1 hs.2) h
    rintro m rfl
    exact mapped_boot
  exact hinv.joinWrite hs hw

/-! ## Two runs -/

theorem Machine.Step.kernel {m m' : Machine} {e : Event} (h : m.Step e m') :
    sysStep m.kernel e = some m'.kernel := by
  simp only [Machine.Step, Machine.step] at h
  split at h
  · obtain ⟨k', hk, hrest⟩ := Option.bind_eq_some_iff.mp h
    obtain ⟨pages, _, rfl⟩ := Option.map_eq_some_iff.mp hrest
    exact hk
  · cases h

/-- A run without `sbrk` that frees no directory keeps to the discipline. -/
theorem keepsPointers_run {m m' : Machine} {es : List Event} (h : Lts.Run Machine.Step m es m')
    (hes : ∀ e ∈ es, ∀ s n enough, e ≠ .sbrk s n enough) (hfreed : m'.kernel.freed = []) :
    Lts.Run (Lts.Guarded KeepsPointers Machine.Step) m es m' := by
  induction h with
  | nil => exact .nil _
  | @snoc t u es e _ hs ih =>
      have ht : t.kernel.freed = [] := by
        rcases sysStep_cases hs.kernel with hstep | ⟨hsame, _⟩
        · have hprefix := step_freed hstep
          rw [hfreed] at hprefix
          exact List.prefix_nil.mp hprefix
        · rw [← hsame]
          exact hfreed
      refine (ih (fun e he => hes e (List.mem_append_left _ he)) ht).snoc ⟨⟨?_, ?_⟩, hs⟩
      · intro s n enough heq
        exact absurd heq (hes e (by simp) s n enough)
      · intro k' hk'
        rw [hs.kernel] at hk'
        cases hk'
        intro c hc
        rw [hfreed] at hc
        cases hc

/-- The shell clones a thread, which exits. -/
def threadExits : List Event := [.schedule 1, .clone 1 4096 true, .schedule 2, .exit 2]

theorem threadExits_run :
    (Lts.exec Machine.step Machine.boot threadExits).map (fun m => (m.kernel.freed,
      (m.step (.join 1 16000)).isSome, joinWrite m.kernel (.join 1 16000))) =
      some ([], true, some (1, 16000)) := by
  decide +kernel

theorem join_writes_mapped_threadExits :
    ∃ m m' : Machine, m.Step (.join 1 16000) m' ∧
      joinWrite m.kernel (.join 1 16000) = some (1, 16000) ∧ m.Writable 1 16000 := by
  obtain ⟨m, hm, hfacts⟩ := Option.map_eq_some_iff.mp threadExits_run
  simp only [Prod.mk.injEq] at hfacts
  obtain ⟨hfreed, hsome, hwrite⟩ := hfacts
  obtain ⟨m', hm'⟩ := Option.isSome_iff_exists.mp hsome
  have hrun := keepsPointers_run (.of_exec hm) (by simp [threadExits]) hfreed
  exact ⟨m, m', hm', hwrite, join_writes_mapped ⟨_, threadExits, rfl, hrun⟩ hm' hwrite⟩

/-- The shell sleeps in `join` with a pointer on its last page, and its thread gives
up the two last pages and exits. -/
def shrunkBehind : List Event :=
  [.schedule 1, .clone 1 4096 true, .join 1 16000, .schedule 2, .sbrk 2 (-8192) true, .exit 2]

theorem shrunkBehind_run :
    (Lts.exec Machine.step Machine.boot shrunkBehind).map (fun m =>
      ((m.step (.schedule 1)).isSome, joinWrite m.kernel (.schedule 1), (m.kernel.proc 1).sz,
        m.present 1 (16000 / pgsize))) =
      some (true, some (1, 16000), 8192, false) := by
  decide +kernel

/-- `join` then writes above the size, on a page that is not mapped. -/
theorem join_writes_unmapped :
    ¬ ∀ (m m' : Machine) (e : Event) (s : Slot) (addr : Nat),
      Lts.Reachable (· = Machine.boot) Machine.Step m → m.Step e m' →
      joinWrite m.kernel e = some (s, addr) → m.Writable s addr := by
  intro hall
  obtain ⟨m, hm, hfacts⟩ := Option.map_eq_some_iff.mp shrunkBehind_run
  simp only [Prod.mk.injEq] at hfacts
  obtain ⟨hsome, hwrite, hsz, _⟩ := hfacts
  obtain ⟨m', hm'⟩ := Option.isSome_iff_exists.mp hsome
  have hle := (hall m m' _ 1 16000 ⟨_, shrunkBehind, rfl, .of_exec hm⟩ hm' hwrite).1
  rw [hsz] at hle
  omega

end CS537.Threads
