import CS537.Threads.Proc
import CS537.Lib.Sharing

/-!
# Threads — the lifetime of a page directory

`wait` and `exec` free a directory without counting who still has it. The
processes that share a directory form a tree under the one that brought it in
(`Sharing.Forest`), as long as no process leaves threads behind when it exits
and none calls `exec` while it shares its directory. In such a run `freevm` is
always called on a last reference.
-/

namespace CS537.Threads

open Sharing

/-- The processes with their parents and page directories. -/
def sharing (k : Kernel) : Family Slot (Option PgDir) where
  alive s := (k.proc s).state ≠ .unused
  parent s := (k.proc s).parent
  res s := (k.proc s).pgdir

/-- The call of `freevm` was on a last reference: only the process being reaped
or running `exec` has the directory, and it was allocated. -/
def Freevm.LastReference (c : Freevm) : Prop :=
  (∀ q ∈ c.holders, c.subject = some q) ∧ c.allocated = true

instance (c : Freevm) : Decidable c.LastReference := inferInstanceAs (Decidable (_ ∧ _))

theorem mem_holders {d : PgDir} {k : Kernel} {q : Slot} :
    q ∈ holders d k ↔ (k.proc q).state ≠ .unused ∧ (k.proc q).pgdir = some d := by
  simp [holders, mem_slots]

/-- The invariant of a run that leaves no thread behind. -/
structure Inv (k : Kernel) : Prop where
  forest : Forest (sharing k)
  dirs : ∀ q, (k.proc q).state ≠ .unused → ∃ d, (k.proc q).pgdir = some d ∧ k.allocated d = true
  parents : ∀ q r, (k.proc q).state ≠ .unused → (k.proc q).parent = some r →
    (k.proc r).state ≠ .zombie
  initAlive : (k.proc k.initproc).state ≠ .unused ∧ (k.proc k.initproc).state ≠ .zombie
  initRoot : (k.proc k.initproc).parent = none
  freed : ∀ c ∈ k.freed, c.LastReference

/-! ## Steps that concern no directory -/

/-- A step that only moves processes between states other than `UNUSED` and
`ZOMBIE`, and may write to unused slots. -/
structure Quiet (k k' : Kernel) : Prop where
  initproc : k'.initproc = k.initproc
  allocated : k'.allocated = k.allocated
  freed : k'.freed = k.freed
  unused : ∀ q, (k'.proc q).state = .unused ↔ (k.proc q).state = .unused
  zombie : ∀ q, (k'.proc q).state = .zombie ↔ (k.proc q).state = .zombie
  parent : ∀ q, (k.proc q).state ≠ .unused → (k'.proc q).parent = (k.proc q).parent
  pgdir : ∀ q, (k.proc q).state ≠ .unused → (k'.proc q).pgdir = (k.proc q).pgdir

theorem Quiet.refl (k : Kernel) : Quiet k k :=
  ⟨rfl, rfl, rfl, fun _ => Iff.rfl, fun _ => Iff.rfl, fun _ _ => rfl, fun _ _ => rfl⟩

theorem Quiet.trans {k k' k'' : Kernel} (h : Quiet k k') (h' : Quiet k' k'') : Quiet k k'' where
  initproc := h'.initproc.trans h.initproc
  allocated := h'.allocated.trans h.allocated
  freed := h'.freed.trans h.freed
  unused q := (h'.unused q).trans (h.unused q)
  zombie q := (h'.zombie q).trans (h.zombie q)
  parent q hq := (h'.parent q fun hu => hq ((h.unused q).mp hu)).trans (h.parent q hq)
  pgdir q hq := (h'.pgdir q fun hu => hq ((h.unused q).mp hu)).trans (h.pgdir q hq)

/-- An update of one slot that keeps its tree fields and its kind of state. -/
theorem Quiet.upd (k : Kernel) (s : Slot) {f : Proc → Proc}
    (hu : (f (k.proc s)).state = .unused ↔ (k.proc s).state = .unused)
    (hz : (f (k.proc s)).state = .zombie ↔ (k.proc s).state = .zombie)
    (hp : (f (k.proc s)).parent = (k.proc s).parent)
    (hd : (f (k.proc s)).pgdir = (k.proc s).pgdir) : Quiet k (k.upd s f) := by
  refine ⟨rfl, rfl, rfl, ?_, ?_, ?_, ?_⟩ <;> intro q <;> by_cases hq : q = s <;>
    simp [hq, hu, hz, hp, hd]

/-- An update of a slot that is unused before and after. -/
theorem Quiet.upd_unused (k : Kernel) (s : Slot) {f : Proc → Proc}
    (hs : (k.proc s).state = .unused) (hf : (f (k.proc s)).state = .unused) :
    Quiet k (k.upd s f) := by
  refine ⟨rfl, rfl, rfl, ?_, ?_, ?_, ?_⟩ <;> intro q <;> by_cases hq : q = s <;>
    simp [hq, hs, hf]

theorem quiet_wakeup1 (chan : Option Chan) (k : Kernel) : Quiet k (wakeup1 chan k) := by
  refine ⟨rfl, rfl, rfl, ?_, ?_, ?_, ?_⟩ <;> intro q <;> simp only [wakeup1] <;> split <;>
    simp_all

theorem quiet_sleep {s : Slot} {k : Kernel} (chan : Chan) (call : Option Call)
    (hs : (k.proc s).state = .running) : Quiet k (sleep s chan call k) :=
  .upd k s (by simp [hs]) (by simp [hs]) rfl rfl

theorem quiet_kill (pid : Int) (k : Kernel) : Quiet k (kill pid k).2 := by
  unfold kill
  split
  · exact .refl k
  · rename_i s _
    show Quiet k (k.upd s fun p =>
      { p with killed := true, state := if p.state = .sleeping then .runnable else p.state })
    refine .upd k s ?_ ?_ rfl rfl <;>
      by_cases hs : (k.proc s).state = .sleeping <;> simp [hs]

theorem quiet_growproc (enough : Bool) (n : Int) (s : Slot) (k : Kernel) :
    Quiet k (growproc enough n s k).2 := by
  simp only [growproc]
  split
  · exact .refl k
  · refine ⟨rfl, rfl, rfl, ?_, ?_, ?_, ?_⟩ <;> intro q <;> dsimp only <;> split <;> simp

theorem Inv.quiet {k k' : Kernel} (h : Inv k) (hq : Quiet k k') : Inv k' := by
  have halive : ∀ q, (k'.proc q).state ≠ .unused ↔ (k.proc q).state ≠ .unused :=
    fun q => not_congr (hq.unused q)
  refine ⟨h.forest.congr halive hq.parent hq.pgdir, ?_, ?_, ?_, ?_, ?_⟩
  · intro q hqa
    rw [hq.pgdir q ((halive q).mp hqa), hq.allocated]
    exact h.dirs q ((halive q).mp hqa)
  · intro q r hqa hpar
    have hqa' := (halive q).mp hqa
    rw [hq.parent q hqa'] at hpar
    rw [Ne, hq.zombie]
    exact h.parents q r hqa' hpar
  · rw [hq.initproc]
    exact ⟨(halive _).mpr h.initAlive.1, fun hz => h.initAlive.2 ((hq.zombie _).mp hz)⟩
  · rw [hq.initproc, hq.parent _ h.initAlive.1]
    exact h.initRoot
  · rw [hq.freed]
    exact h.freed

/-! ## Reaping -/

/-- A zombie has no children. -/
theorem Inv.childless {k : Kernel} (h : Inv k) {t : Slot} (ht : (k.proc t).state = .zombie) :
    ∀ q, (k.proc q).state ≠ .unused → (k.proc q).parent ≠ some t :=
  fun q hq hpar => h.parents q t hq hpar ht

/-- Slot `t` is emptied and nothing else changes. -/
theorem Inv.reap {k k' : Kernel} (h : Inv k) {t : Slot} (ht : (k.proc t).state = .zombie)
    (hproc : k'.proc = (k.upd t Proc.reap).proc) (hinit : k'.initproc = k.initproc)
    (hdirs : ∀ q, (k.proc q).state ≠ .unused → q ≠ t → ∀ d, (k.proc q).pgdir = some d →
      k.allocated d = true → k'.allocated d = true)
    (hfreed : ∀ c ∈ k'.freed, c.LastReference) : Inv k' := by
  have hself : (k'.proc t).state = .unused := by simp [hproc, Proc.reap]
  have hother : ∀ q ≠ t, k'.proc q = k.proc q := fun q hq => by simp [hproc, hq]
  have halive : ∀ q, (k'.proc q).state ≠ .unused ↔ (k.proc q).state ≠ .unused ∧ q ≠ t := by
    intro q
    by_cases hq : q = t
    · subst hq; simp [hself]
    · simp [hother q hq, hq]
  have hsame : ∀ q, (k'.proc q).state ≠ .unused → k'.proc q = k.proc q :=
    fun q hq => hother q ((halive q).mp hq).2
  have hne : k.initproc ≠ t := by
    rintro rfl
    exact h.initAlive.2 ht
  refine ⟨h.forest.leave (h.childless ht) halive (fun q hq => ?_) (fun q hq => ?_), ?_, ?_, ?_,
    ?_, hfreed⟩
  · exact congrArg Proc.parent (hsame q hq)
  · exact congrArg Proc.pgdir (hsame q hq)
  · intro q hq
    obtain ⟨hqa, hqt⟩ := (halive q).mp hq
    obtain ⟨d, hd, hal⟩ := h.dirs q hqa
    exact ⟨d, by rw [hsame q hq, hd], hdirs q hqa hqt d hd hal⟩
  · intro q r hq hpar
    rw [hsame q hq] at hpar
    obtain ⟨hqa, _⟩ := (halive q).mp hq
    by_cases hr : r = t
    · subst hr
      exact absurd hpar (h.childless ht q hqa)
    · rw [hother r hr]
      exact h.parents q r hqa hpar
  · rw [hinit, hother _ hne]
    exact h.initAlive
  · rw [hinit, hother _ hne]
    exact h.initRoot

/-- One scan by `wait` reaps a zombie child that has another directory, or
frees nothing. -/
theorem wait_cases {k k' : Kernel} {s : Slot} (hs : (k.proc s).state = .running)
    (h : wait s k = some k') :
    (∃ t d, (k.proc t).parent = some s ∧ (k.proc t).pgdir ≠ (k.proc s).pgdir ∧
      (k.proc t).state = .zombie ∧ (k.proc t).pgdir = some d ∧
      k' = (freevm (some t) d k).upd t Proc.reap) ∨ Quiet k k' := by
  simp only [wait] at h
  split at h
  · rename_i t ht
    have hkid := findSlot_some ht
    simp only [Bool.decide_and, Bool.and_eq_true, decide_eq_true_eq] at hkid
    obtain ⟨d, hd, rfl⟩ := Option.map_eq_some_iff.mp h
    exact .inl ⟨t, d, hkid.1.1, hkid.1.2, hkid.2, hd, rfl⟩
  · split at h
    · cases h
      exact .inr (.refl k)
    · cases h
      exact .inr (quiet_sleep _ _ hs)

/-- One scan by `join` reaps a zombie child, or changes no slot's kind. -/
theorem join_cases {k : Kernel} {s : Slot} (stack : Nat) (hs : (k.proc s).state = .running) :
    (∃ t, (k.proc t).state = .zombie ∧ join stack s k = k.upd t Proc.reap) ∨
      Quiet k (join stack s k) := by
  simp only [join]
  split
  · rename_i t ht
    have hkid := findSlot_some ht
    simp only [Bool.decide_and, Bool.and_eq_true, decide_eq_true_eq] at hkid
    exact .inl ⟨t, hkid.2, rfl⟩
  · split
    · exact .inr (.refl k)
    · exact .inr (quiet_sleep _ _ hs)

/-- A zombie child with another directory than its parent's is the last to have
its directory. -/
theorem Inv.last_child {k : Kernel} (h : Inv k) {s t : Slot} (hpar : (k.proc t).parent = some s)
    (hne : (k.proc t).pgdir ≠ (k.proc s).pgdir) (ht : (k.proc t).state = .zombie) :
    ∀ q, (k.proc q).state ≠ .unused → (k.proc q).pgdir = (k.proc t).pgdir → q = t := by
  refine h.forest.alone (by simp [sharing, ht]) ?_ fun q hq hqpar => ?_
  · intro r hr
    obtain rfl : s = r := by
      have hr' : (k.proc t).parent = some r := hr
      rw [hpar] at hr'
      exact Option.some.inj hr'
    exact hne.symm
  · exact absurd hqpar (h.childless ht q hq)

/-- Freeing a directory that only `t` has is a last reference, and leaves every
other process its own. -/
theorem Inv.free {k : Kernel} (h : Inv k) {t : Slot} {d : PgDir} (hal : k.allocated d = true)
    (honly : ∀ q, (k.proc q).state ≠ .unused → (k.proc q).pgdir = some d → q = t) :
    (∀ c ∈ (freevm (some t) d k).freed, c.LastReference) ∧
      ∀ q, (k.proc q).state ≠ .unused → q ≠ t → ∀ e, (k.proc q).pgdir = some e →
        k.allocated e = true → (freevm (some t) d k).allocated e = true := by
  constructor
  · intro c hc
    rcases List.mem_append.mp hc with hc | hc
    · exact h.freed c hc
    · obtain rfl := List.mem_singleton.mp hc
      refine ⟨fun q hq => ?_, hal⟩
      obtain ⟨hqa, hqd⟩ := mem_holders.mp hq
      rw [honly q hqa hqd]
  · intro q hq hqt e he hae
    have hed : e ≠ d := by
      rintro rfl
      exact hqt (honly q hq he)
    simp [freevm, hed, hae]

theorem Inv.wait {k k' : Kernel} {s : Slot} (h : Inv k) (hs : (k.proc s).state = .running)
    (hw : wait s k = some k') : Inv k' := by
  rcases wait_cases hs hw with ⟨t, d, hpar, hne, ht, hd, rfl⟩ | hq
  · have hta : (k.proc t).state ≠ .unused := by simp [ht]
    obtain ⟨e, he, hal⟩ := h.dirs t hta
    obtain rfl : d = e := by
      rw [hd] at he
      exact Option.some.inj he
    have honly := h.last_child hpar hne ht
    rw [hd] at honly
    obtain ⟨hfreed, hdirs⟩ := h.free hal honly
    exact h.reap ht rfl rfl hdirs hfreed
  · exact h.quiet hq

theorem Inv.join {k : Kernel} {s : Slot} (stack : Nat) (h : Inv k)
    (hs : (k.proc s).state = .running) : Inv (join stack s k) := by
  rcases join_cases stack hs with ⟨t, ht, heq⟩ | hq
  · rw [heq]
    exact h.reap ht rfl rfl (fun _ _ _ _ _ hal => hal) h.freed
  · exact h.quiet hq

/-- The scheduler's choice, and what it goes on with. -/
theorem Inv.schedule {k k' : Kernel} {s : Slot} (h : Inv k) (hs : (k.proc s).state = .runnable)
    (hsch : schedule s k = some k') : Inv k' := by
  have hq : Quiet k (k.upd s fun p => { p with state := .running, chan := none, call := none }) :=
    .upd k s (by simp [hs]) (by simp [hs]) rfl rfl
  have hrun : ((k.upd s fun p =>
      { p with state := .running, chan := none, call := none }).proc s).state = .running := by
    simp
  unfold Threads.schedule at hsch
  split at hsch
  · cases hsch
    exact h.quiet hq
  · exact (h.quiet hq).wait hrun hsch
  · cases hsch
    exact (h.quiet hq).join _ hrun

/-! ## Creation -/

/-- `allocproc` finds a slot that is unused, or leaves the table as it was. -/
theorem allocproc_cases (kstack : Bool) (k : Kernel) :
    (∃ np, (k.find fun p => p.state = .unused) = some np ∧ (k.proc np).state = .unused ∧
      allocproc kstack k = (some np, takeSlot np k)) ∨
      ∃ k', allocproc kstack k = (none, k') ∧ Quiet k k' := by
  unfold allocproc
  split
  · exact .inr ⟨k, rfl, .refl k⟩
  · rename_i np hnp
    have hu : (k.proc np).state = .unused := by simpa using findSlot_some hnp
    split
    · exact .inl ⟨np, hnp, hu, rfl⟩
    · refine .inr ⟨_, rfl, rfl, rfl, rfl, ?_, ?_, ?_, ?_⟩ <;> intro q <;>
        by_cases hq : q = np <;> simp [takeSlot, hq, hu]

/-- Slot `np` is filled with a child of `s`, and nothing else changes. -/
theorem Inv.born {k k' : Kernel} (h : Inv k) {np s : Slot}
    (hnp : (k.proc np).state = .unused) (hs : (k.proc s).state = .running)
    (hother : ∀ q ≠ np, k'.proc q = k.proc q) (hstate : (k'.proc np).state = .runnable)
    (hparent : (k'.proc np).parent = some s)
    (hdir : (k'.proc np).pgdir = (k.proc s).pgdir ∨
      ∀ q, (k.proc q).state ≠ .unused → (k.proc q).pgdir ≠ (k'.proc np).pgdir)
    (hown : ∃ d, (k'.proc np).pgdir = some d ∧ k'.allocated d = true)
    (hdirs : ∀ d, k.allocated d = true → k'.allocated d = true)
    (hinit : k'.initproc = k.initproc) (hfreed : k'.freed = k.freed) : Inv k' := by
  have hsa : (k.proc s).state ≠ .unused := by simp [hs]
  have hne : ∀ q, (k.proc q).state ≠ .unused → q ≠ np := by
    rintro q hq rfl
    exact hq hnp
  have halive : ∀ q, (k'.proc q).state ≠ .unused ↔ (k.proc q).state ≠ .unused ∨ q = np := by
    intro q
    by_cases hq : q = np
    · subst hq; simp [hstate]
    · simp [hother q hq, hq]
  refine ⟨h.forest.join (n := np) (s := s) (by simp [sharing, hnp]) hsa halive hparent hdir
    (fun q hq => ?_) (fun q hq => ?_), ?_, ?_, ?_, ?_, ?_⟩
  · exact congrArg Proc.parent (hother q hq)
  · exact congrArg Proc.pgdir (hother q hq)
  · intro q hq
    by_cases hqn : q = np
    · subst hqn
      exact hown
    · obtain ⟨d, hd, hal⟩ := h.dirs q (((halive q).mp hq).resolve_right hqn)
      exact ⟨d, by rw [hother q hqn, hd], hdirs d hal⟩
  · intro q r hq hpar
    by_cases hr : r = np
    · simp [hr, hstate]
    · rw [hother r hr]
      by_cases hqn : q = np
      · subst hqn
        rw [hparent] at hpar
        cases hpar
        simp [hs]
      · rw [hother q hqn] at hpar
        exact h.parents q r (((halive q).mp hq).resolve_right hqn) hpar
  · rw [hinit, hother _ (hne _ h.initAlive.1)]
    exact h.initAlive
  · rw [hinit, hother _ (hne _ h.initAlive.1)]
    exact h.initRoot
  · rw [hfreed]
    exact h.freed

/-- No process has a directory that is not allocated. -/
theorem Inv.dir_ne {k : Kernel} (h : Inv k) {d : PgDir} (hd : k.allocated d = false) :
    ∀ q, (k.proc q).state ≠ .unused → (k.proc q).pgdir ≠ some d := by
  intro q hq heq
  obtain ⟨e, he, hal⟩ := h.dirs q hq
  rw [heq] at he
  cases he
  rw [hd] at hal
  cases hal

/-- A directory that is allocated and freed again, and that nobody has. -/
theorem freevm_setupkvm {k : Kernel} {d : PgDir} (subject : Option Slot)
    (hd : k.allocated d = false)
    (hno : ∀ q, (k.proc q).state ≠ .unused → (k.proc q).pgdir ≠ some d) :
    freevm subject d (setupkvm d k) = { k with freed := k.freed ++ [⟨d, subject, [], true⟩] } := by
  have hholders : holders d (setupkvm d k) = [] := by
    refine List.eq_nil_iff_forall_not_mem.mpr fun q hq => ?_
    obtain ⟨hqa, hqd⟩ := mem_holders.mp hq
    exact hno q hqa hqd
  have hall : (fun e => if e = d then false else (setupkvm d k).allocated e) = k.allocated := by
    funext e
    by_cases he : e = d <;> simp [setupkvm, he, hd]
  have hself : (setupkvm d k).allocated d = true := by simp [setupkvm]
  rw [freevm, hholders, hall, hself]
  rfl

theorem Inv.record {k : Kernel} (h : Inv k) (d : PgDir) (subject : Option Slot) :
    Inv { k with freed := k.freed ++ [⟨d, subject, [], true⟩] } := by
  refine ⟨h.forest, h.dirs, h.parents, h.initAlive, h.initRoot, fun c hc => ?_⟩
  rcases List.mem_append.mp hc with hc | hc
  · exact h.freed c hc
  · obtain rfl := List.mem_singleton.mp hc
    exact ⟨by simp, rfl⟩

/-- A fork that fails in `copyuvm` frees a directory nobody has, unless it is
the one the free slot had before. -/
theorem Inv.fork {k : Kernel} {s : Slot} {mem : ForkMemory} (h : Inv k)
    (hs : (k.proc s).state = .running)
    (hfresh : ∀ d ∈ (Event.fork s mem).fresh, k.allocated d = false)
    (hstale : ∀ d, mem = .noPages (some d) → ∀ np,
      (k.find fun p => p.state = .unused) = some np → (k.proc np).pgdir ≠ some d) :
    Inv (fork mem s k).2 := by
  unfold Threads.fork
  rcases allocproc_cases (mem ≠ .noKstack) k with ⟨np, hfind, hnp, halloc⟩ | ⟨k', halloc, hq⟩
  · have hsnp : s ≠ np := by
      rintro rfl
      rw [hnp] at hs
      cases hs
    have hgone : Quiet k ((takeSlot np k).upd np fun p =>
        { p with pgdir := none, state := .unused }) := by
      refine ⟨rfl, rfl, rfl, ?_, ?_, ?_, ?_⟩ <;> intro q <;>
        by_cases hq : q = np <;> simp [takeSlot, hq, hnp]
    simp only [halloc]
    cases mem with
    | noKstack => exact h.quiet hgone
    | noPages d =>
        cases d with
        | none => exact h.quiet hgone
        | some d =>
            have hd : k.allocated d = false := hfresh d rfl
            have hno : ∀ q, ((takeSlot np k).proc q).state ≠ .unused →
                ((takeSlot np k).proc q).pgdir ≠ some d := by
              intro q hqa
              by_cases hq : q = np
              · subst hq
                simpa [takeSlot] using hstale d rfl q hfind
              · have hqa' : (k.proc q).state ≠ .unused := by simpa [takeSlot, hq] using hqa
                simpa [takeSlot, hq] using h.dir_ne hd q hqa'
            simp only [copyuvm, freevm_setupkvm none (k := takeSlot np k) hd hno]
            exact (h.quiet hgone).record d none
    | copied d =>
        have hd : k.allocated d = false := hfresh d rfl
        refine h.born hnp hs (fun q hq => ?_) ?_ ?_ (.inr fun q hq => ?_) ⟨d, ?_, ?_⟩ ?_ rfl rfl
        · simp [copyuvm, setupkvm, takeSlot, hq]
        · simp [copyuvm]
        · simp [copyuvm]
        · simpa [copyuvm] using h.dir_ne hd q hq
        · simp [copyuvm]
        · simp [copyuvm, setupkvm]
        · intro e he
          by_cases hed : e = d <;> simp [copyuvm, setupkvm, takeSlot, hed, he]
  · simp only [halloc]
    exact h.quiet hq

theorem Inv.clone {k : Kernel} {s : Slot} {kstack : Bool} {stack : Nat} (h : Inv k)
    (hs : (k.proc s).state = .running) : Inv (clone kstack stack s k).2 := by
  unfold Threads.clone
  split
  · exact h
  · split
    · exact h
    · rcases allocproc_cases kstack k with ⟨np, _, hnp, halloc⟩ | ⟨k', halloc, hq⟩
      · simp only [halloc]
        refine h.born hnp hs (fun q hq => ?_) ?_ ?_ (.inl ?_) ?_ (fun _ => id) rfl rfl
        · simp [takeSlot, hq]
        · simp
        · simp
        · simp
        · obtain ⟨d, hd, hal⟩ := h.dirs s (by simp [hs])
          exact ⟨d, by simp [hd], hal⟩
      · simp only [halloc]
        exact h.quiet hq

/-! ## Exec and exit -/

/-- The process in slot `s` shares its page directory with none of its
children. -/
def NoThreads (k : Kernel) (s : Slot) : Prop :=
  ∀ t, (k.proc t).state ≠ .unused → (k.proc t).parent = some s →
    (k.proc t).pgdir ≠ (k.proc s).pgdir

/-- The process in slot `s` does not share its page directory with its parent. -/
def NotThread (k : Kernel) (s : Slot) : Prop :=
  ∀ r, (k.proc s).parent = some r → (k.proc r).pgdir ≠ (k.proc s).pgdir

instance (k : Kernel) (s : Slot) : Decidable (NoThreads k s) :=
  inferInstanceAs (Decidable (∀ t, (k.proc t).state ≠ .unused → (k.proc t).parent = some s →
    (k.proc t).pgdir ≠ (k.proc s).pgdir))

instance (k : Kernel) (s : Slot) : Decidable (NotThread k s) :=
  match h : (k.proc s).parent with
  | none => isTrue fun r hr => by rw [h] at hr; cases hr
  | some r =>
      decidable_of_iff ((k.proc r).pgdir ≠ (k.proc s).pgdir)
        ⟨fun hne r' hr' => by rw [h] at hr'; cases hr'; exact hne, fun hall => hall r h⟩

/-- A process that has its directory for itself takes a new one. -/
theorem Inv.install {k : Kernel} {s : Slot} {d : PgDir} {sz : Nat} (h : Inv k)
    (hd : k.allocated d = false)
    (halone : ∀ q, (sharing k).alive q → (sharing k).res q = (sharing k).res s → q = s) :
    Inv ((setupkvm d k).upd s fun p => { p with pgdir := some d, sz := sz }) := by
  have hproc : ∀ q ≠ s, ((setupkvm d k).upd s fun p =>
      { p with pgdir := some d, sz := sz }).proc q = k.proc q := by
    intro q hq
    simp [setupkvm, hq]
  have hstate : ∀ q, (((setupkvm d k).upd s fun p =>
      { p with pgdir := some d, sz := sz }).proc q).state = (k.proc q).state := by
    intro q
    by_cases hq : q = s <;> simp [setupkvm, hq]
  have hparent : ∀ q, (((setupkvm d k).upd s fun p =>
      { p with pgdir := some d, sz := sz }).proc q).parent = (k.proc q).parent := by
    intro q
    by_cases hq : q = s <;> simp [setupkvm, hq]
  refine ⟨h.forest.renew (s := s) halone (fun q hq => ?_) (fun q => ?_) hparent (fun q hq => ?_),
    ?_, ?_, ?_, ?_, h.freed⟩
  · simpa [sharing] using h.dir_ne hd q hq
  · exact not_congr (by rw [hstate])
  · exact congrArg Proc.pgdir (hproc q hq)
  · intro q hq
    by_cases hqs : q = s
    · subst hqs
      exact ⟨d, by simp, by simp [setupkvm]⟩
    · rw [hproc q hqs] at hq ⊢
      obtain ⟨e, he, hal⟩ := h.dirs q hq
      exact ⟨e, he, by by_cases hed : e = d <;> simp [setupkvm, hed, hal]⟩
  · intro q r hq hpar
    rw [hstate] at hq ⊢
    rw [hparent] at hpar
    exact h.parents q r hq hpar
  · show (Proc.state _) ≠ _ ∧ (Proc.state _) ≠ _
    rw [hstate]
    exact h.initAlive
  · show Proc.parent _ = none
    rw [hparent]
    exact h.initRoot

/-- Freeing a directory nobody has any more. -/
theorem Inv.freevm {k : Kernel} {d : PgDir} (h : Inv k) (subject : Option Slot)
    (hal : k.allocated d = true)
    (hno : ∀ q, (k.proc q).state ≠ .unused → (k.proc q).pgdir ≠ some d) :
    Inv (freevm subject d k) := by
  refine ⟨h.forest, fun q hq => ?_, h.parents, h.initAlive, h.initRoot, fun c hc => ?_⟩
  · obtain ⟨e, he, hale⟩ := h.dirs q hq
    have hed : e ≠ d := by
      rintro rfl
      exact hno q hq he
    exact ⟨e, he, by simp [Threads.freevm, hed, hale]⟩
  · rcases List.mem_append.mp hc with hc | hc
    · exact h.freed c hc
    · obtain rfl := List.mem_singleton.mp hc
      refine ⟨fun q hq => ?_, hal⟩
      obtain ⟨hqa, hqd⟩ := mem_holders.mp hq
      exact absurd hqd (hno q hqa)

theorem Inv.exec {k k' : Kernel} {s : Slot} {r : ExecResult} {code : Int} (h : Inv k)
    (hs : (k.proc s).state = .running)
    (hfresh : ∀ d ∈ (Event.exec s r).fresh, k.allocated d = false)
    (hshare : ∀ d sz, r = .image d sz → NoThreads k s ∧ NotThread k s)
    (hexec : exec r s k = some (code, k')) : Inv k' := by
  have hsa : (k.proc s).state ≠ .unused := by simp [hs]
  cases r with
  | bad d =>
      cases d with
      | none =>
          cases hexec
          exact h
      | some d =>
          have hd : k.allocated d = false := hfresh d rfl
          simp only [Threads.exec, freevm_setupkvm (some s) hd (h.dir_ne hd)] at hexec
          cases hexec
          exact h.record d (some s)
  | image d sz =>
      have hd : k.allocated d = false := hfresh d rfl
      obtain ⟨hkids, hpar⟩ := hshare d sz rfl
      have halone := h.forest.alone (p := s) hsa hpar fun q hq hqp => hkids q hq hqp
      obtain ⟨old, hold, hal⟩ := h.dirs s hsa
      have hne : d ≠ old := by
        rintro rfl
        rw [hd] at hal
        cases hal
      simp only [Threads.exec, hold, Option.map_some, Option.some.injEq, Prod.mk.injEq] at hexec
      obtain ⟨-, rfl⟩ := hexec
      refine (h.install hd halone).freevm (some s) ?_ ?_
      · simp [setupkvm, hne.symm, hal]
      intro q hq hqd
      by_cases hqs : q = s
      · subst hqs
        simp [hne] at hqd
      · simp only [Kernel.upd_proc, if_neg hqs] at hq hqd
        exact hqs (halone q hq (hqd.trans hold.symm))

/-- What the loop of `exit` has done to the slots it visited. -/
structure Adopted (s : Slot) (ts : List Slot) (k k' : Kernel) : Prop where
  initproc : k'.initproc = k.initproc
  allocated : k'.allocated = k.allocated
  freed : k'.freed = k.freed
  unused : ∀ q, (k'.proc q).state = .unused ↔ (k.proc q).state = .unused
  zombie : ∀ q, (k'.proc q).state = .zombie ↔ (k.proc q).state = .zombie
  pgdir : ∀ q, (k'.proc q).pgdir = (k.proc q).pgdir
  parent : ∀ q, (k'.proc q).parent =
    if (k.proc q).parent = some s ∧ q ∈ ts then some k.initproc else (k.proc q).parent

theorem wakeup1_fields (chan : Option Chan) (k : Kernel) (q : Slot) :
    ((wakeup1 chan k).proc q).pgdir = (k.proc q).pgdir ∧
      ((wakeup1 chan k).proc q).parent = (k.proc q).parent := by
  simp only [wakeup1]
  split <;> exact ⟨rfl, rfl⟩

theorem adopted_reparent {s : Slot} : ∀ (ts : List Slot) (k : Kernel), s ≠ k.initproc →
    Adopted s ts k (reparent s ts k)
  | [], k, _ => ⟨rfl, rfl, rfl, fun _ => Iff.rfl, fun _ => Iff.rfl, fun _ => rfl, by simp [reparent]⟩
  | t :: ts, k, hs => by
      have hskip : (k.proc t).parent ≠ some s → Adopted s (t :: ts) k (reparent s ts k) := by
        intro hpar
        have ih := adopted_reparent ts k hs
        refine ⟨ih.initproc, ih.allocated, ih.freed, ih.unused, ih.zombie, ih.pgdir, ?_⟩
        intro q
        rw [ih.parent]
        by_cases hq : q = t
        · subst hq; simp [hpar]
        · simp [hq]
      by_cases hpar : (k.proc t).parent = some s
      · -- init may be woken in between; that changes no parent and no directory
        have hmove : ∀ k', Quiet (k.upd t fun p => { p with parent := some k.initproc }) k' →
            (∀ q, (k'.proc q).pgdir = (k.proc q).pgdir ∧ (k'.proc q).parent =
              ((k.upd t fun p => { p with parent := some k.initproc }).proc q).parent) →
            Adopted s (t :: ts) k (reparent s ts k') := by
          intro k' hq hf
          have ih := adopted_reparent ts k' (by rw [hq.initproc]; exact hs)
          refine ⟨ih.initproc.trans hq.initproc, ih.allocated.trans hq.allocated,
            ih.freed.trans hq.freed, ?_, ?_, ?_, ?_⟩
          · intro q
            rw [ih.unused, hq.unused]
            by_cases h : q = t <;> simp [h]
          · intro q
            rw [ih.zombie, hq.zombie]
            by_cases h : q = t <;> simp [h]
          · intro q
            rw [ih.pgdir, (hf q).1]
          · intro q
            rw [ih.parent, (hf q).2, hq.initproc]
            by_cases h : q = t
            · subst h
              simp [hpar, Ne.symm hs]
            · simp [h]
        simp only [reparent, if_pos hpar]
        split
        · refine hmove _ (quiet_wakeup1 _ _) fun q => ?_
          obtain ⟨h1, h2⟩ := wakeup1_fields (some (.proc k.initproc))
            (k.upd t fun p => { p with parent := some k.initproc }) q
          refine ⟨?_, h2⟩
          rw [h1]
          by_cases h : q = t <;> simp [h]
        · refine hmove _ (.refl _) fun q => ⟨?_, rfl⟩
          by_cases h : q = t <;> simp [h]
      · rw [reparent, if_neg hpar]
        exact hskip hpar

theorem Inv.exit {k k' : Kernel} {s : Slot} (h : Inv k) (hs : (k.proc s).state = .running)
    (hkids : NoThreads k s) (hexit : exit s k = some k') : Inv k' := by
  unfold Threads.exit at hexit
  split at hexit
  · cases hexit
  · rename_i hinit
    cases hexit
    have hsa : (k.proc s).state ≠ .unused := by simp [hs]
    have hw := quiet_wakeup1 ((k.proc s).parent.map .proc) k
    have hf := wakeup1_fields ((k.proc s).parent.map .proc) k
    have ha := adopted_reparent slots (wakeup1 ((k.proc s).parent.map .proc) k) hinit
    generalize reparent s slots (wakeup1 ((k.proc s).parent.map .proc) k) = k₁ at ha
    have hunused : ∀ q, (k₁.proc q).state = .unused ↔ (k.proc q).state = .unused :=
      fun q => (ha.unused q).trans (hw.unused q)
    have hdir : ∀ q, (k₁.proc q).pgdir = (k.proc q).pgdir :=
      fun q => (ha.pgdir q).trans (hf q).1
    have hparent : ∀ q, (k₁.proc q).parent =
        if (k.proc q).parent = some s then some k.initproc else (k.proc q).parent := by
      intro q
      rw [ha.parent, (hf q).2, hw.initproc]
      simp [mem_slots]
    have hs₁ : (k₁.proc s).state ≠ .unused := fun hu => hsa ((hunused s).mp hu)
    -- the exiting process keeps its fields but the state
    let kz := k₁.upd s fun p => { p with state := .zombie }
    have halive : ∀ q, (kz.proc q).state ≠ .unused ↔ (k.proc q).state ≠ .unused := by
      intro q
      by_cases hq : q = s
      · subst hq; simp [kz, hsa]
      · simp [kz, hq, hunused]
    have hzdir : ∀ q, (kz.proc q).pgdir = (k.proc q).pgdir := by
      intro q
      by_cases hq : q = s <;> simp [kz, hq, hdir]
    have hzparent : ∀ q, (kz.proc q).parent =
        if (k.proc q).parent = some s then some k.initproc else (k.proc q).parent := by
      intro q
      by_cases hq : q = s <;> simp [kz, hq, hparent]
    have hzinit : kz.initproc = k.initproc := ha.initproc.trans hw.initproc
    have hzombie : ∀ q ≠ s, (kz.proc q).state = .zombie ↔ (k.proc q).state = .zombie := by
      intro q hq
      simp only [kz, Kernel.upd_proc, if_neg hq]
      exact (ha.zombie q).trans (hw.zombie q)
    refine ⟨h.forest.adopt (s := s) (i := k.initproc) h.initAlive.1 h.initRoot
      (fun q hq hpar => hkids q hq hpar) halive (fun q hq hpar => ?_) (fun q hq hpar => ?_)
      (fun q _ => hzdir q), ?_, ?_, ?_, ?_, ?_⟩
    · exact (hzparent q).trans (if_pos hpar)
    · exact (hzparent q).trans (if_neg hpar)
    · intro q hq
      obtain ⟨d, hd, hal⟩ := h.dirs q ((halive q).mp hq)
      refine ⟨d, (hzdir q).trans hd, ?_⟩
      show k₁.allocated d = true
      rw [ha.allocated, hw.allocated]
      exact hal
    · intro q r hq hpar
      have hqa := (halive q).mp hq
      have hpar' := (hzparent q).symm.trans hpar
      split at hpar'
      · cases hpar'
        rw [Ne, hzombie _ (Ne.symm hinit)]
        exact h.initAlive.2
      · rename_i hne
        have hrs : r ≠ s := by
          rintro rfl
          exact hne hpar'
        rw [Ne, hzombie r hrs]
        exact h.parents q r hqa hpar'
    · show (kz.proc kz.initproc).state ≠ .unused ∧ (kz.proc kz.initproc).state ≠ .zombie
      rw [hzinit]
      exact ⟨(halive _).mpr h.initAlive.1,
        fun hz => h.initAlive.2 ((hzombie _ (Ne.symm hinit)).mp hz)⟩
    · show (kz.proc kz.initproc).parent = none
      rw [hzinit, hzparent, h.initRoot]
      rfl
    · show ∀ c ∈ k₁.freed, c.LastReference
      rw [ha.freed, hw.freed]
      exact h.freed

/-! ## Runs -/

/-- The discipline under which freeing is safe: a process that exits has joined
its threads, and one that calls `exec` has no threads and is none. A fork whose
`copyuvm` fails did not get back the very frame the free slot's stale `pgdir`
still names. -/
def LeavesNoThread (k : Kernel) : Event → Prop
  | .exit s => NoThreads k s
  | .exec s (.image _ _) => NoThreads k s ∧ NotThread k s
  | .fork _ (.noPages (some d)) =>
      ∀ np, (k.find fun p => p.state = .unused) = some np → (k.proc np).pgdir ≠ some d
  | _ => True

instance (k : Kernel) : (e : Event) → Decidable (LeavesNoThread k e)
  | .exit s => inferInstanceAs (Decidable (NoThreads k s))
  | .exec s (.image _ _) => inferInstanceAs (Decidable (NoThreads k s ∧ NotThread k s))
  | .exec _ (.bad _) => isTrue trivial
  | .fork _ (.noPages (some d)) =>
      match h : k.find fun p => p.state = .unused with
      | none => isTrue fun np hnp => by rw [h] at hnp; cases hnp
      | some np =>
          decidable_of_iff ((k.proc np).pgdir ≠ some d)
            ⟨fun hne np' hnp' => by rw [h] at hnp'; cases hnp'; exact hne, fun hall => hall np h⟩
  | .fork _ (.noPages none) => isTrue trivial
  | .fork _ .noKstack => isTrue trivial
  | .fork _ (.copied _) => isTrue trivial
  | .schedule _ => isTrue trivial
  | .yield _ => isTrue trivial
  | .sleep _ _ => isTrue trivial
  | .wakeup _ => isTrue trivial
  | .kill _ => isTrue trivial
  | .clone _ _ _ => isTrue trivial
  | .sbrk _ _ _ => isTrue trivial
  | .wait _ => isTrue trivial
  | .join _ _ => isTrue trivial

theorem Inv.step {k k' : Kernel} {e : Event} (h : Inv k) (hok : LeavesNoThread k e)
    (hs : Step k e k') : Inv k' := by
  simp only [Step, Threads.step] at hs
  split at hs
  · rename_i hcan
    obtain ⟨hactor, hfresh⟩ := hcan
    cases e with
    | schedule s =>
        simp only [effect, Option.ite_none_right_eq_some] at hs
        exact h.schedule hs.1 hs.2
    | yield s =>
        cases hs
        have hrun := hactor s rfl
        exact h.quiet (.upd k s (by simp [hrun]) (by simp [hrun]) rfl rfl)
    | sleep s addr =>
        cases hs
        exact h.quiet (quiet_sleep _ _ (hactor s rfl))
    | wakeup addr =>
        cases hs
        exact h.quiet (quiet_wakeup1 _ k)
    | kill pid =>
        cases hs
        exact h.quiet (quiet_kill pid k)
    | fork s mem =>
        cases hs
        refine h.fork (hactor s rfl) hfresh ?_
        rintro d rfl
        exact hok
    | clone s stack kstack =>
        cases hs
        exact h.clone (hactor s rfl)
    | exec s r =>
        obtain ⟨⟨code, k''⟩, hexec, rfl⟩ := Option.map_eq_some_iff.mp hs
        refine h.exec (hactor s rfl) hfresh ?_ hexec
        rintro d sz rfl
        exact hok
    | sbrk s n enough =>
        cases hs
        exact h.quiet (quiet_growproc enough n s k)
    | exit s => exact h.exit (hactor s rfl) hok hs
    | wait s => exact h.wait (hactor s rfl) hs
    | join s stack =>
        cases hs
        exact h.join stack (hactor s rfl)
  · cases hs

theorem inv_boot : Inv boot := by
  have halive : ∀ q : Slot, (boot.proc q).state ≠ .unused → q = 0 ∨ q = 1 := by decide
  have hpar : ∀ q r : Slot, (boot.proc q).parent = some r → q = 1 ∧ r = 0 := by
    intro q r h
    by_cases h0 : q = 0
    · subst h0; cases h
    · by_cases h1 : q = 1
      · subst h1; cases h; exact ⟨rfl, rfl⟩
      · simp [boot, h0, h1, Proc.zero] at h
  refine ⟨⟨?_, ⟨fun _ => 0, ?_⟩, ?_⟩, ?_, ?_, by decide, rfl, by simp [boot]⟩
  · rintro q r _ h
    obtain ⟨rfl, rfl⟩ := hpar q r h
    exact (by decide : (boot.proc 0).state ≠ .unused)
  · intro q r _ h heq
    obtain ⟨rfl, rfl⟩ := hpar q r h
    cases heq
  · intro q q' hq hq' heq _ _
    rcases halive q hq with rfl | rfl <;> rcases halive q' hq' with rfl | rfl
    · rfl
    · cases heq
    · cases heq
    · rfl
  · intro q hq
    rcases halive q hq with rfl | rfl
    · exact ⟨0, rfl, by decide⟩
    · exact ⟨1, rfl, by decide⟩
  · intro q r _ h
    obtain ⟨rfl, rfl⟩ := hpar q r h
    decide

/-- **Last reference**: along a run that leaves no thread behind, every call of
`freevm` is on a directory only the process being reaped or running `exec` has,
no directory is freed twice, and every process has a directory in use. -/
theorem freevm_last_reference {k : Kernel}
    (h : Lts.Reachable (· = boot) (Lts.Guarded LeavesNoThread Step) k) :
    (∀ c ∈ k.freed, c.LastReference) ∧
      ∀ q, (k.proc q).state ≠ .unused →
        ∃ d, (k.proc q).pgdir = some d ∧ k.allocated d = true := by
  have hinv : Inv k := by
    refine Lts.Reachable.invariant ?_ (fun k e k' hk hs => hk.step hs.1 hs.2) h
    rintro k rfl
    exact inv_boot
  exact ⟨hinv.freed, hinv.dirs⟩

/-- The shell forks a process that clones a thread, joins it and exits; then
the shell reaps the process. -/
def joined : List Event :=
  [.schedule 1, .fork 1 (.copied 2), .schedule 2, .clone 2 4096 true, .schedule 3, .exit 3,
    .join 2 0, .exit 2, .wait 1]

theorem joined_run :
    (Lts.exec (fun k e => if LeavesNoThread k e then step k e else none) boot joined).map
      Kernel.freed = some [⟨2, some 2, [2], true⟩] := by
  decide +kernel

theorem freevm_last_reference_joined :
    ∃ k : Kernel, k.freed = [⟨2, some 2, [2], true⟩] ∧ ∀ c ∈ k.freed, c.LastReference := by
  obtain ⟨k, hk, hfreed⟩ := Option.map_eq_some_iff.mp joined_run
  exact ⟨k, hfreed, (freevm_last_reference ⟨boot, joined, rfl, .of_exec_guarded hk⟩).1⟩

/-- The same, but the process exits without joining its thread. -/
def leftBehind : List Event :=
  [.schedule 1, .fork 1 (.copied 2), .schedule 2, .clone 2 4096 true, .exit 2, .wait 1]

theorem leftBehind_run :
    (Lts.exec step boot leftBehind).map (fun k => (k.freed, (k.proc 3).state, (k.proc 3).pgdir)) =
      some ([⟨2, some 2, [2, 3], true⟩], .runnable, some 2) := by
  decide +kernel

/-- The thread left behind is `RUNNABLE` on the directory `wait` has freed. -/
theorem freevm_not_last_reference :
    ¬ ∀ k, Lts.Reachable (· = boot) Step k →
      (∀ c ∈ k.freed, c.LastReference) ∧
        ∀ q, (k.proc q).state ≠ .unused →
          ∃ d, (k.proc q).pgdir = some d ∧ k.allocated d = true := by
  intro hall
  obtain ⟨k, hk, hfacts⟩ := Option.map_eq_some_iff.mp leftBehind_run
  simp only [Prod.mk.injEq] at hfacts
  have hlast := (hall k ⟨boot, leftBehind, rfl, .of_exec hk⟩).1
  rw [hfacts.1] at hlast
  revert hlast
  decide

end CS537.Threads
