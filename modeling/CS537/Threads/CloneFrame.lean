import CS537.Lib.Bytes
import CS537.Threads.UserMemory

/-!
# Threads — the first frame of a thread

`sys_clone` passes all four of its words through `argptr`, the two arguments of
the thread included, and `clone` checks the stack with an unsigned subtraction.
Together they accept exactly the stacks whose page lies below the size, but
they refuse the arguments that are not addresses of the process
(`clone_first_frame_iff`).

The trap frames and the bytes of the user pages are added to the process table
here. The pages below the size of a process are mapped.
-/

namespace CS537.Threads

open MachineInt Bytes

/-- `struct trapframe`. -/
structure TrapFrame where
  edi : Nat
  esi : Nat
  ebp : Nat
  oesp : Nat
  ebx : Nat
  edx : Nat
  ecx : Nat
  eax : Nat
  gs : Nat
  fs : Nat
  es : Nat
  ds : Nat
  trapno : Nat
  err : Nat
  eip : Nat
  cs : Nat
  eflags : Nat
  esp : Nat
  ss : Nat
  deriving DecidableEq, Repr

/-- The kernel with the trap frame of each process and the bytes under each
directory, by virtual address. -/
structure Frames where
  kernel : Kernel
  tf : Slot → TrapFrame
  mem : PgDir → Nat → UInt8

/-- The three words `clone` stores on the stack of the thread. -/
def cloneStack (arg1 arg2 stack : Nat) (bytes : Nat → UInt8) : Nat → UInt8 :=
  let bytes := putWord bytes (stack + pgsize - 4) arg2
  let bytes := putWord bytes (stack + pgsize - 2 * 4) arg1
  putWord bytes (stack + pgsize - 3 * 4) 4294967295

/-- The part of `clone` after `allocproc`, for the slot `np` it returned. -/
def startThread (fcn arg1 arg2 stack : Nat) (s np : Slot) (k' : Kernel) (m : Frames) :
    Int × Frames :=
  let caller := m.kernel.proc s
  let k' := k'.upd np fun p =>
    { p with pgdir := caller.pgdir, sz := caller.sz, parent := some s, stack := stack,
             state := .runnable, call := none }
  let esp := u32 (stack + pgsize + (4294967296 - 3 * 4))
  let tf := { m.tf s with eax := 0, eip := fcn, esp := esp, ebp := esp }
  ((k'.proc np).pid,
    { kernel := k'
      tf := fun t => if t = np then tf else m.tf t
      mem := fun d =>
        if caller.pgdir = some d then cloneStack arg1 arg2 stack (m.mem d) else m.mem d })

/-- `clone` by the process in slot `s`, with the trap frame of the thread and
its stack. -/
def cloneFrame (kstack : Bool) (fcn arg1 arg2 stack : Nat) (s : Slot) (m : Frames) :
    Int × Frames :=
  if stack % pgsize ≠ 0 then (-1, m)
  else if u32 ((m.kernel.proc s).sz + (4294967296 - stack)) < pgsize then (-1, m)
  else
    match allocproc kstack m.kernel with
    | (none, k') => (-1, { m with kernel := k' })
    | (some np, k') => startThread fcn arg1 arg2 stack s np k' m

/-- `sys_clone`, given the four words it fetches from the user stack. -/
def sysClone (kstack : Bool) (fcn arg1 arg2 stack : Nat) (s : Slot) (m : Frames) : Int × Frames :=
  let sz := (m.kernel.proc s).sz
  if argptr sz fcn 4 && argptr sz arg1 4 && argptr sz arg2 4 && argptr sz stack 4 then
    cloneFrame kstack fcn arg1 arg2 stack s m
  else (-1, m)

/-- On the process table it is `clone`. -/
theorem cloneFrame_kernel (kstack : Bool) (fcn arg1 arg2 stack : Nat) (s : Slot) (m : Frames) :
    ((cloneFrame kstack fcn arg1 arg2 stack s m).1,
      (cloneFrame kstack fcn arg1 arg2 stack s m).2.kernel) = clone kstack stack s m.kernel := by
  rw [cloneFrame, clone]
  split
  · rfl
  · split
    · rfl
    · obtain ⟨np, k', h⟩ : ∃ np k', allocproc kstack m.kernel = (np, k') := ⟨_, _, rfl⟩
      rw [h]
      cases np with
      | none => rfl
      | some np => rfl

/-! ## What the checks accept -/

/-- `argptr` accepts a word exactly when four bytes from there on are below the
size, for a size that leaves room for the addition. -/
theorem argptr_four {sz i : Nat} (hsz : sz ≤ 4294967292) : argptr sz i 4 = true ↔ i + 4 ≤ sz := by
  simp only [argptr, Bool.not_eq_true', Bool.or_eq_false_iff, decide_eq_false_iff_not]
  constructor
  · rintro ⟨h1, h2⟩
    rw [u32_of_lt (by omega)] at h2
    omega
  · intro h
    rw [u32_of_lt (by omega)]
    omega

/-- A page-aligned stack passes both checks exactly when its page is below the
size. -/
theorem stack_checks {sz stack : Nat} (hsz : sz < 4294967296) (haligned : stack % pgsize = 0) :
    argptr sz stack 4 = true ∧ ¬ u32 (sz + (4294967296 - stack)) < pgsize ↔
      stack + pgsize ≤ sz := by
  simp only [argptr, Bool.not_eq_true', Bool.or_eq_false_iff, decide_eq_false_iff_not, pgsize]
    at haligned ⊢
  constructor
  · rintro ⟨⟨h1, -⟩, h2⟩
    have hwrap : u32 (sz + (4294967296 - stack)) = sz - stack := by
      unfold u32; omega
    rw [hwrap] at h2
    omega
  · intro h
    have hwrap : u32 (sz + (4294967296 - stack)) = sz - stack := by
      unfold u32; omega
    rw [hwrap, u32_of_lt (by omega)]
    omega

/-! ## The frame -/

/-- The bytes `clone` writes. -/
def InFrame (stack a : Nat) : Prop := stack + pgsize - 12 ≤ a ∧ a < stack + pgsize

theorem cloneStack_words {arg1 arg2 stack : Nat} (bytes : Nat → UInt8) (h1 : arg1 < 4294967296)
    (h2 : arg2 < 4294967296) :
    getWord (cloneStack arg1 arg2 stack bytes) (stack + pgsize - 12) = 4294967295 ∧
    getWord (cloneStack arg1 arg2 stack bytes) (stack + pgsize - 8) = arg1 ∧
    getWord (cloneStack arg1 arg2 stack bytes) (stack + pgsize - 4) = arg2 := by
  refine ⟨?_, ?_, ?_⟩
  · exact getWord_putWord _ _ (by decide)
  · have hskip : getWord (cloneStack arg1 arg2 stack bytes) (stack + pgsize - 8) =
        getWord (putWord (putWord bytes (stack + pgsize - 4) arg2) (stack + pgsize - 8) arg1)
          (stack + pgsize - 8) := by
      apply getWord_congr
      intro i hi
      exact putWord_outside (by simp only [pgsize]; omega)
    rw [hskip]
    exact getWord_putWord _ _ h1
  · have hskip : getWord (cloneStack arg1 arg2 stack bytes) (stack + pgsize - 4) =
        getWord (putWord bytes (stack + pgsize - 4) arg2) (stack + pgsize - 4) := by
      apply getWord_congr
      intro i hi
      rw [cloneStack, putWord_outside (by simp only [pgsize]; omega),
        putWord_outside (by simp only [pgsize]; omega)]
    rw [hskip]
    exact getWord_putWord _ _ h2

theorem cloneStack_outside {arg1 arg2 stack a : Nat} (bytes : Nat → UInt8)
    (h : ¬ InFrame stack a) : cloneStack arg1 arg2 stack bytes a = bytes a := by
  simp only [InFrame, pgsize] at h
  rw [cloneStack, putWord_outside (by simp only [pgsize]; omega),
    putWord_outside (by simp only [pgsize]; omega), putWord_outside (by simp only [pgsize]; omega)]

/-- The call made a thread in an empty slot, about to run `fcn(arg1, arg2)` on
the stack, and wrote nothing else into memory. -/
structure FirstFrame (fcn arg1 arg2 stack : Nat) (d : PgDir) (m : Frames) (r : Int × Frames)
    (np : Slot) : Prop where
  free : (m.kernel.proc np).state = .unused
  pid : r.1 = m.kernel.nextpid ∧ (r.2.kernel.proc np).pid = r.1
  runnable : (r.2.kernel.proc np).state = .runnable
  shares : (r.2.kernel.proc np).pgdir = some d
  eip : (r.2.tf np).eip = fcn
  esp : (r.2.tf np).esp = stack + pgsize - 12
  eax : (r.2.tf np).eax = 0
  words : getWord (r.2.mem d) (stack + pgsize - 12) = 4294967295 ∧
    getWord (r.2.mem d) (stack + pgsize - 8) = arg1 ∧
    getWord (r.2.mem d) (stack + pgsize - 4) = arg2
  others : ∀ e a, ¬ (e = d ∧ InFrame stack a) → r.2.mem e a = m.mem e a

/-- With a free slot and a kernel stack, `clone` builds the frame on any stack
that passes its checks. -/
theorem cloneFrame_builds {fcn arg1 arg2 stack : Nat} {s : Slot} {d : PgDir} {m : Frames}
    (hd : (m.kernel.proc s).pgdir = some d) (hfree : ∃ np, (m.kernel.proc np).state = .unused)
    (haligned : stack % pgsize = 0)
    (hpage : ¬ u32 ((m.kernel.proc s).sz + (4294967296 - stack)) < pgsize)
    (hend : stack + pgsize ≤ 4294967296)
    (h1 : arg1 < 4294967296) (h2 : arg2 < 4294967296) :
    ∃ np, FirstFrame fcn arg1 arg2 stack d m (cloneFrame true fcn arg1 arg2 stack s m) np := by
  obtain ⟨u, hu⟩ := hfree
  cases hf : m.kernel.find fun p => p.state = .unused with
  | none =>
      have hno := findSlot_none hf u
      simp [hu] at hno
  | some np =>
      have hnp : (m.kernel.proc np).state = .unused := by simpa using findSlot_some hf
      have hcall : cloneFrame true fcn arg1 arg2 stack s m =
          startThread fcn arg1 arg2 stack s np (takeSlot np m.kernel) m := by
        have halloc : allocproc true m.kernel = (some np, takeSlot np m.kernel) := by
          rw [allocproc, hf]
          rfl
        rw [cloneFrame, if_neg (fun h => h haligned), if_neg hpage, halloc]
      have hesp : u32 (stack + pgsize + (4294967296 - 3 * 4)) = stack + pgsize - 12 := by
        simp only [u32, pgsize] at hend ⊢
        omega
      refine ⟨np, ?_⟩
      rw [hcall]
      constructor
      · exact hnp
      · simp [startThread, takeSlot]
      · simp [startThread]
      · simp [startThread, hd]
      · simp [startThread]
      · simp [startThread, hesp]
      · simp [startThread]
      · simp only [startThread, hd, if_true]
        exact cloneStack_words (m.mem d) h1 h2
      · intro e a hea
        simp only [startThread, hd, Option.some.injEq]
        split
        · rename_i he
          subst he
          exact cloneStack_outside (m.mem d) (fun ha => hea ⟨rfl, ha⟩)
        · rfl

/-! ## The system call -/

/-- What `clone` should do for the process in slot `s` with the address space
`d`: on a good stack, with a function to run, build the frame for whatever the
two arguments are, and on any other stack fail and change nothing. -/
structure ClonesFrame (fcn arg1 arg2 stack : Nat) (s : Slot) (d : PgDir) (m : Frames) : Prop where
  good : stack % pgsize = 0 → stack + pgsize ≤ (m.kernel.proc s).sz →
    fcn + 4 < (m.kernel.proc s).sz →
    ∃ np, FirstFrame fcn arg1 arg2 stack d m (sysClone true fcn arg1 arg2 stack s m) np
  bad : stack % pgsize ≠ 0 ∨ (m.kernel.proc s).sz < stack + pgsize →
    ∀ kstack, sysClone kstack fcn arg1 arg2 stack s m = (-1, m)

theorem sysClone_bad_stack {kstack : Bool} {fcn arg1 arg2 stack : Nat} {s : Slot} {m : Frames}
    (hsz : (m.kernel.proc s).sz < 4294967296)
    (hbad : stack % pgsize ≠ 0 ∨ (m.kernel.proc s).sz < stack + pgsize) :
    sysClone kstack fcn arg1 arg2 stack s m = (-1, m) := by
  rw [sysClone]
  split
  · rename_i hargs
    simp only [Bool.and_eq_true] at hargs
    by_cases haligned : stack % pgsize = 0
    · -- `argptr` lets the stack pass, so the subtraction does not wrap
      have hpage : u32 ((m.kernel.proc s).sz + (4294967296 - stack)) < pgsize := by
        by_contra hpage
        have hend := (stack_checks hsz haligned).mp ⟨hargs.2, hpage⟩
        rcases hbad with hbad | hbad
        · exact hbad haligned
        · omega
      rw [cloneFrame, if_neg (fun h => h haligned), if_pos hpage]
    · rw [cloneFrame, if_pos haligned]
  · rfl

theorem FirstFrame.succeeds {fcn arg1 arg2 stack : Nat} {d : PgDir} {m : Frames} {r : Int × Frames}
    {np : Slot} (h : FirstFrame fcn arg1 arg2 stack d m r np) : r.2 ≠ m := by
  intro he
  have hrun := h.runnable
  rw [he, h.free] at hrun
  cases hrun

/-- **The first frame**: with a free slot and a kernel stack, `sys_clone` does
what it should exactly when, on a good stack, `argptr` accepts both arguments
of the thread as addresses. -/
theorem clone_first_frame_iff {fcn arg1 arg2 stack : Nat} {s : Slot} {d : PgDir} {m : Frames}
    (hd : (m.kernel.proc s).pgdir = some d) (hsz : (m.kernel.proc s).sz ≤ kernbase)
    (hfree : ∃ np, (m.kernel.proc np).state = .unused)
    (h1 : arg1 < 4294967296) (h2 : arg2 < 4294967296) :
    ClonesFrame fcn arg1 arg2 stack s d m ↔
      (stack % pgsize = 0 → stack + pgsize ≤ (m.kernel.proc s).sz →
        fcn + 4 < (m.kernel.proc s).sz →
        arg1 + 4 ≤ (m.kernel.proc s).sz ∧ arg2 + 4 ≤ (m.kernel.proc s).sz) := by
  simp only [kernbase] at hsz
  have hargptr : ∀ i, argptr (m.kernel.proc s).sz i 4 = true ↔ i + 4 ≤ (m.kernel.proc s).sz :=
    fun i => argptr_four (by omega)
  constructor
  · intro h haligned hend hfcn
    obtain ⟨np, hframe⟩ := h.good haligned hend hfcn
    by_contra hargs
    apply hframe.succeeds
    rw [sysClone, if_neg]
    simp only [Bool.and_eq_true, hargptr]
    rintro ⟨⟨⟨-, ha1⟩, ha2⟩, -⟩
    exact hargs ⟨ha1, ha2⟩
  · intro hargs
    refine ⟨?_, fun hbad kstack => sysClone_bad_stack (by omega) hbad⟩
    intro haligned hend hfcn
    obtain ⟨ha1, ha2⟩ := hargs haligned hend hfcn
    obtain ⟨hstack, hpage⟩ := (stack_checks (by omega) haligned).mpr hend
    have hcall : sysClone true fcn arg1 arg2 stack s m =
        cloneFrame true fcn arg1 arg2 stack s m := by
      rw [sysClone, if_pos]
      simp only [Bool.and_eq_true]
      exact ⟨⟨⟨(hargptr fcn).mpr (by omega), (hargptr arg1).mpr ha1⟩, (hargptr arg2).mpr ha2⟩,
        hstack⟩
    rw [hcall]
    exact cloneFrame_builds hd hfree haligned hpage (by omega) h1 h2

/-- The shell running, with nothing in its registers and its memory. -/
def shellFrames : Frames where
  kernel := boot.upd 1 fun p => { p with state := .running }
  tf _ :=
    { edi := 0, esi := 0, ebp := 0, oesp := 0, ebx := 0, edx := 0, ecx := 0, eax := 0, gs := 0,
      fs := 0, es := 0, ds := 0, trapno := 64, err := 0, eip := 0, cs := 0, eflags := 0, esp := 0,
      ss := 0 }
  mem _ _ := 0

theorem clone_first_frame_shell : ClonesFrame 0 7 8 8192 1 1 shellFrames :=
  (clone_first_frame_iff rfl (by decide) ⟨2, rfl⟩ (by decide) (by decide)).mpr
    fun _ _ _ => by decide

/-- A thread cannot be given the word -1. -/
theorem clone_refuses_word :
    ¬ ∀ (m : Frames) (s : Slot) (d : PgDir) (fcn arg1 arg2 stack : Nat),
      (m.kernel.proc s).pgdir = some d → (m.kernel.proc s).sz ≤ kernbase →
      (∃ np, (m.kernel.proc np).state = .unused) → arg1 < 4294967296 → arg2 < 4294967296 →
      ClonesFrame fcn arg1 arg2 stack s d m := by
  intro h
  obtain ⟨np, hframe⟩ :=
    (h shellFrames 1 1 0 4294967295 0 8192 rfl (by decide) ⟨2, rfl⟩ (by decide) (by decide)).good
      (by decide) (by decide) (by decide)
  apply hframe.succeeds
  rw [sysClone, if_neg (by decide)]

end CS537.Threads
