import CS537.Lib.MachineInt
import CS537.Lib.Monitor
import CS537.Lib.Ring

/-!
# Pipes

`pipe.c`, with the `sleep`, `wakeup` and `kill` of `proc.c`: any number of processes in
`pipewrite`, `piperead` and `pipeclose` of one pipe, in any order of their steps. The bytes
come out in the order in which they went in, every call returns what it has copied, and who
sleeps has to.
-/

namespace CS537.Xv6

open Monitor MachineInt Lts

/-- `PIPESIZE`. -/
def pipesize : Nat := 512

/-- `struct pipe`, less its lock. -/
structure Pipe where
  data : Nat → UInt8
  nread : Nat
  nwrite : Nat
  readopen : Bool
  writeopen : Bool

/-- `&p->nread` and `&p->nwrite`, where processes sleep. -/
inductive PipeChan where
  | nread
  | nwrite
  deriving DecidableEq

inductive PipeEvent where
  | put (b : UInt8)
  | got (b : UInt8)
  /-- A killed writer leaves a full pipe that can still be read. -/
  | gaveUp
  deriving DecidableEq

namespace Pipe

/-- DOC: pipewrite-full. -/
def Full (p : Pipe) : Prop := p.nwrite = u32 (p.nread + pipesize)

/-- DOC: pipe-empty, less its test of `writeopen`. -/
def Empty (p : Pipe) : Prop := p.nread = p.nwrite

instance (p : Pipe) : Decidable p.Full := inferInstanceAs (Decidable (_ = _))

instance (p : Pipe) : Decidable p.Empty := inferInstanceAs (Decidable (_ = _))

/-- `p->data[p->nwrite++ % PIPESIZE] = b`. -/
def put (p : Pipe) (b : UInt8) : Pipe :=
  { p with
    data := Function.update p.data (p.nwrite % pipesize) b
    nwrite := u32 (p.nwrite + 1) }

/-- The byte `p->data[p->nread % PIPESIZE]`. -/
def first (p : Pipe) : UInt8 := p.data (p.nread % pipesize)

/-- `p->nread++`. -/
def drop (p : Pipe) : Pipe := { p with nread := u32 (p.nread + 1) }

/-- One end is closed. -/
def shut (p : Pipe) (writable : Bool) : Pipe :=
  if writable then { p with writeopen := false } else { p with readopen := false }

end Pipe

/-- Where a process is in the calls of a pipe. `addr` are the bytes to write, `got` those that
were read, `n` is the most to read. -/
inductive PipePoint where
  | idle
  | write (addr : List UInt8)
  | writeTest (addr : List UInt8) (i : Nat)
  | writeCheck (addr : List UInt8) (i : Nat)
  | writeFail (addr : List UInt8) (i : Nat)
  | writeWake (addr : List UInt8) (i : Nat)
  | writeSleep (addr : List UInt8) (i : Nat)
  | writePut (addr : List UInt8) (i : Nat)
  | writeEnd (addr : List UInt8) (i : Nat)
  | writeRelease (addr : List UInt8) (i : Nat)
  | writeReturn (addr : List UInt8) (i : Nat) (r : Int)
  | read (n : Nat)
  | readTest (n : Nat)
  | readCheck (n : Nat)
  | readFail (n : Nat)
  | readSleep (n : Nat)
  | readCopy (n : Nat) (got : List UInt8)
  | readWake (n : Nat) (got : List UInt8)
  | readRelease (n : Nat) (got : List UInt8)
  | readReturn (n : Nat) (got : List UInt8) (r : Int)
  | close (writable : Bool)
  | closeEnd (writable : Bool)
  | closeWake (writable : Bool)
  | closeTest (writable : Bool)
  | closeFree (writable : Bool)
  | closeRelease (writable : Bool)
  | closeReturn (writable freed : Bool)

variable {I : Type}

/-- `pipewrite`, `piperead` and `pipeclose`. -/
def pipeCode : PipePoint → Instr I Pipe PipeChan PipePoint PipeEvent
  | .idle => .stop
  | .write addr => .acquire (.writeTest addr 0)
  | .writeTest addr i => .act fun _ _ p =>
      if i < addr.length then (if p.Full then .writeCheck addr i else .writePut addr i, p, none)
      else (.writeEnd addr i, p, none)
  | .writeCheck addr i => .act fun _ killed p =>
      if p.readopen = false then (.writeFail addr i, p, none)
      else if killed then (.writeFail addr i, p, some .gaveUp)
      else (.writeWake addr i, p, none)
  | .writeFail addr i => .release (.writeReturn addr i (-1))
  | .writeWake addr i => .wakeup .nread (.writeSleep addr i)
  | .writeSleep addr i => .sleep .nwrite (.writeTest addr i)
  | .writePut addr i => .act fun _ _ p =>
      (.writeTest addr (i + 1), p.put (addr.getD i 0), some (.put (addr.getD i 0)))
  | .writeEnd addr i => .wakeup .nread (.writeRelease addr i)
  | .writeRelease addr i => .release (.writeReturn addr i addr.length)
  | .writeReturn _ _ _ => .stop
  | .read n => .acquire (.readTest n)
  | .readTest n => .act fun _ _ p =>
      if p.Empty ∧ p.writeopen then (.readCheck n, p, none) else (.readCopy n [], p, none)
  | .readCheck n => .act fun _ killed p =>
      if killed then (.readFail n, p, none) else (.readSleep n, p, none)
  | .readFail n => .release (.readReturn n [] (-1))
  | .readSleep n => .sleep .nread (.readTest n)
  | .readCopy n got => .act fun _ _ p =>
      if got.length < n ∧ ¬ p.Empty then
        (.readCopy n (got ++ [p.first]), p.drop, some (.got p.first))
      else (.readWake n got, p, none)
  | .readWake n got => .wakeup .nwrite (.readRelease n got)
  | .readRelease n got => .release (.readReturn n got got.length)
  | .readReturn _ _ _ => .stop
  | .close w => .acquire (.closeEnd w)
  | .closeEnd w => .act fun _ _ p => (.closeWake w, p.shut w, none)
  | .closeWake w => .wakeup (if w then .nread else .nwrite) (.closeTest w)
  | .closeTest w => .act fun _ _ p =>
      if p.readopen = false ∧ p.writeopen = false then (.closeFree w, p, none)
      else (.closeRelease w, p, none)
  | .closeFree w => .release (.closeReturn w true)
  | .closeRelease w => .release (.closeReturn w false)
  | .closeReturn _ _ => .stop

/-- The calls. -/
def PipeCall : PipePoint → Prop
  | .write _ => True
  | .read _ => True
  | .close _ => True
  | _ => False

/-- A process between two calls may start any of them. -/
def pipeEntry (_ : I) (_ m : PipePoint) : Prop := PipeCall m

/-- The process has the lock of the pipe. -/
def PipeLocked : PipePoint → Prop
  | .idle => False
  | .write _ => False
  | .writeReturn _ _ _ => False
  | .read _ => False
  | .readReturn _ _ _ => False
  | .close _ => False
  | .closeReturn _ _ => False
  | _ => True

namespace Pipe

/-! ## The queue -/

/-- How many bytes are in the pipe: `nwrite - nread` of the wrapped counters. -/
def count (p : Pipe) : Nat := u32 (p.nwrite + (4294967296 - p.nread))

/-- The bytes in the pipe, the oldest first. -/
def content (p : Pipe) : List UInt8 := Ring.part pipesize p.data p.nread p.count

/-- What holds of the pipe while nobody has its lock. -/
structure Ok (p : Pipe) : Prop where
  nread : p.nread < 4294967296
  nwrite : p.nwrite < 4294967296
  count : p.count ≤ pipesize

variable {p : Pipe}

theorem Ok.full_iff (h : p.Ok) : p.Full ↔ p.count = pipesize := by
  obtain ⟨hr, hw, hc⟩ := h
  unfold Full
  unfold Pipe.count pipesize u32 at *
  omega

theorem Ok.empty_iff (h : p.Ok) : p.Empty ↔ p.count = 0 := by
  obtain ⟨hr, hw, hc⟩ := h
  unfold Empty
  unfold Pipe.count pipesize u32 at *
  omega

/-- A pipe is not full and empty. -/
theorem Ok.not_both (h : p.Ok) (hf : p.Full) (he : p.Empty) : False := by
  have hfull := h.full_iff.mp hf
  rw [h.empty_iff.mp he] at hfull
  exact absurd hfull (by decide)

@[simp] theorem content_length : p.content.length = p.count := Ring.part_length ..

theorem Ok.put_count (h : p.Ok) (hf : ¬ p.Full) (b : UInt8) : (p.put b).count = p.count + 1 := by
  have hne := mt h.full_iff.mpr hf
  obtain ⟨hr, hw, hc⟩ := h
  unfold Pipe.count pipesize u32 at *
  unfold Pipe.put u32
  dsimp only
  omega

theorem Ok.drop_count (h : p.Ok) (he : ¬ p.Empty) : p.count = p.drop.count + 1 := by
  have hne := mt h.empty_iff.mpr he
  obtain ⟨hr, hw, hc⟩ := h
  unfold Pipe.count pipesize u32 at *
  unfold Pipe.drop u32
  dsimp only
  omega

theorem Ok.put (h : p.Ok) (hf : ¬ p.Full) (b : UInt8) : (p.put b).Ok where
  nread := h.nread
  nwrite := Nat.mod_lt _ (by decide)
  count := by
    rw [h.put_count hf]
    exact Nat.lt_of_le_of_ne h.count (mt h.full_iff.mpr hf)

theorem Ok.drop (h : p.Ok) (he : ¬ p.Empty) : p.drop.Ok where
  nread := Nat.mod_lt _ (by decide)
  nwrite := h.nwrite
  count := by
    have hcount := h.count
    rw [h.drop_count he] at hcount
    exact Nat.le_of_succ_le hcount

theorem Ok.shut (h : p.Ok) (w : Bool) : (p.shut w).Ok := by
  cases w <;> exact ⟨h.nread, h.nwrite, h.count⟩

@[simp] theorem shut_content (w : Bool) : (p.shut w).content = p.content := by
  cases w <;> rfl

/-- What is put in comes last. -/
theorem Ok.put_content (h : p.Ok) (hf : ¬ p.Full) (b : UInt8) :
    (p.put b).content = p.content ++ [b] := by
  have hlt : p.count < pipesize := Nat.lt_of_le_of_ne h.count (mt h.full_iff.mpr hf)
  -- the wrapped counter is as far round the ring as the true one
  have hslot : p.nwrite % pipesize = (p.nread + p.count) % pipesize := by
    obtain ⟨hr, hw, hc⟩ := h
    unfold Pipe.count u32 pipesize at *
    omega
  rw [content, h.put_count hf, Pipe.put, hslot]
  exact Ring.part_write hlt b

/-- What is taken out came first. -/
theorem Ok.content_eq (h : p.Ok) (he : ¬ p.Empty) :
    p.content = p.first :: p.drop.content := by
  have hnext : p.drop.nread % pipesize = (p.nread + 1) % pipesize := by
    unfold Pipe.drop pipesize u32
    dsimp only
    omega
  rw [content, h.drop_count he, Ring.part_cons, content, ← Ring.part_mod _ p.drop.nread, hnext,
    Ring.part_mod]
  rfl

end Pipe

/-! ## The proof outline -/

/-- What a process knows of the pipe at a point. -/
def PipeAssert (_ : I) : PipePoint → Pipe → Prop
  | .idle, _ => True
  | .write _, _ => True
  | .writeTest addr i, p => p.Ok ∧ i ≤ addr.length
  | .writeCheck addr i, p => p.Ok ∧ i < addr.length ∧ p.Full
  | .writeFail addr i, p => p.Ok ∧ i < addr.length
  | .writeWake addr i, p => p.Ok ∧ i < addr.length ∧ p.Full ∧ p.readopen
  | .writeSleep addr i, p => p.Ok ∧ i < addr.length ∧ p.Full ∧ p.readopen
  | .writePut addr i, p => p.Ok ∧ i < addr.length ∧ ¬ p.Full
  | .writeEnd addr i, p => p.Ok ∧ i = addr.length
  | .writeRelease addr i, p => p.Ok ∧ i = addr.length
  | .writeReturn addr i r, _ => r = addr.length ∧ i = addr.length ∨ r = -1 ∧ i < addr.length
  | .read _, _ => True
  | .readTest _, p => p.Ok
  | .readCheck _, p => p.Ok ∧ p.Empty ∧ p.writeopen
  | .readFail _, p => p.Ok
  | .readSleep _, p => p.Ok ∧ p.Empty ∧ p.writeopen
  | .readCopy n got, p => p.Ok ∧ got.length ≤ n ∧ (got = [] → p.Empty → p.writeopen = false)
  | .readWake n got, p => p.Ok ∧ got.length ≤ n ∧ (got = [] → n = 0 ∨ p.writeopen = false)
  | .readRelease n got, p => p.Ok ∧ got.length ≤ n ∧ (got = [] → n = 0 ∨ p.writeopen = false)
  | .readReturn n got r, p => r = -1 ∧ got = [] ∨
      r = got.length ∧ got.length ≤ n ∧ (got = [] → n = 0 ∨ p.writeopen = false)
  | .close _, _ => True
  | .closeEnd _, p => p.Ok
  | .closeWake w, p => p.Ok ∧ p.shut w = p
  | .closeTest w, p => p.Ok ∧ p.shut w = p
  | .closeFree w, p => p.Ok ∧ p.shut w = p ∧ p.readopen = false ∧ p.writeopen = false
  | .closeRelease w, p => p.Ok ∧ p.shut w = p
  | .closeReturn w freed, p =>
      p.shut w = p ∧ (freed = true → p.readopen = false ∧ p.writeopen = false)

/-- What no process undoes: an end that is closed stays closed. -/
structure Pipe.Later (p p' : Pipe) : Prop where
  readopen : p.readopen = false → p'.readopen = false
  writeopen : p.writeopen = false → p'.writeopen = false

theorem Pipe.shut_eq_iff {p : Pipe} {w : Bool} :
    p.shut w = p ↔ if w then p.writeopen = false else p.readopen = false := by
  obtain ⟨d, r, n, a, b⟩ := p
  cases w <;> simp [Pipe.shut, eq_comm]

theorem Pipe.Later.shut {p p' : Pipe} (h : p.Later p') {w : Bool} (hw : p.shut w = p) :
    p'.shut w = p' := by
  rw [Pipe.shut_eq_iff] at *
  cases w
  · exact h.readopen hw
  · exact h.writeopen hw

/-- The work of a process closes ends only. -/
theorem pipeCode_later {l : PipePoint} {f : I → Bool → Pipe → PipePoint × Pipe × Option PipeEvent}
    (h : pipeCode l = .act f) (i : I) (k : Bool) (p : Pipe) : p.Later (f i k p).2.1 := by
  have hsame : p.Later p := ⟨id, id⟩
  cases l <;> simp only [pipeCode, reduceCtorEq, Instr.act.injEq] at h <;> subst h
  case writePut => exact ⟨id, id⟩
  case closeEnd w =>
    cases w
    · exact ⟨fun _ => rfl, id⟩
    · exact ⟨id, fun _ => rfl⟩
  all_goals
    dsimp only
    split_ifs
    all_goals first | exact hsame | exact ⟨id, id⟩

/-- A process that sleeps knows nothing of the pipe but that it is as it should be. -/
def PipeAsleep (i : I) (l : PipePoint) (_ : Pipe) : Prop := ∀ p : Pipe, p.Ok → PipeAssert i l p

/-- `pipe.c` keeps its outline. -/
theorem pipe_outline :
    Outline (I := I) pipeCode pipeEntry PipeLocked Pipe.Ok PipeAssert PipeAsleep where
  acquire := by
    intro l next h
    cases l <;> simp only [pipeCode, reduceCtorEq, Instr.acquire.injEq] at h <;> subst h
    case write addr => exact ⟨id, trivial, fun _ _ _ hp => ⟨hp, Nat.zero_le _⟩⟩
    case read n => exact ⟨id, trivial, fun _ _ _ hp => hp⟩
    case close w => exact ⟨id, trivial, fun _ _ _ hp => hp⟩
  release := by
    intro l next h
    cases l <;> simp only [pipeCode, reduceCtorEq, Instr.release.injEq] at h <;> subst h
    case writeFail addr i => exact ⟨trivial, id, fun _ _ ha => ⟨ha.1, .inr ⟨rfl, ha.2⟩⟩⟩
    case writeRelease addr i => exact ⟨trivial, id, fun _ _ ha => ⟨ha.1, .inl ⟨rfl, ha.2⟩⟩⟩
    case readFail n => exact ⟨trivial, id, fun _ _ ha => ⟨ha, .inl ⟨rfl, rfl⟩⟩⟩
    case readRelease n got => exact ⟨trivial, id, fun _ _ ha => ⟨ha.1, .inr ⟨rfl, ha.2⟩⟩⟩
    case closeFree w => exact ⟨trivial, id, fun _ _ ha => ⟨ha.1, ha.2.1, fun _ => ha.2.2⟩⟩
    case closeRelease w =>
      exact ⟨trivial, id, fun _ _ ha => ⟨ha.1, ha.2, fun h => by cases h⟩⟩
  act := by
    intro l f h
    cases l <;> simp only [pipeCode, reduceCtorEq, Instr.act.injEq] at h <;> subst h
    case writeTest addr i =>
      refine ⟨trivial, fun _ _ p ha => ?_⟩
      dsimp only
      split_ifs with hi hfull
      · exact ⟨trivial, ha.1, hi, hfull⟩
      · exact ⟨trivial, ha.1, hi, hfull⟩
      · exact ⟨trivial, ha.1, Nat.le_antisymm ha.2 (Nat.le_of_not_lt hi)⟩
    case writeCheck addr i =>
      refine ⟨trivial, fun _ _ p ha => ?_⟩
      dsimp only
      split_ifs with hopen hkilled
      · exact ⟨trivial, ha.1, ha.2.1⟩
      · exact ⟨trivial, ha.1, ha.2.1⟩
      · exact ⟨trivial, ha.1, ha.2.1, ha.2.2, Bool.eq_true_of_not_eq_false hopen⟩
    case writePut addr i =>
      exact ⟨trivial, fun _ _ p ha => ⟨trivial, ha.1.put ha.2.2 _, ha.2.1⟩⟩
    case readTest n =>
      refine ⟨trivial, fun _ _ p ha => ?_⟩
      dsimp only
      split_ifs with hempty
      · exact ⟨trivial, ha, hempty⟩
      · refine ⟨trivial, ha, Nat.zero_le _, fun _ he => ?_⟩
        exact Bool.eq_false_of_not_eq_true fun hopen => hempty ⟨he, hopen⟩
    case readCheck n =>
      refine ⟨trivial, fun _ _ p ha => ?_⟩
      dsimp only
      split_ifs
      · exact ⟨trivial, ha.1⟩
      · exact ⟨trivial, ha⟩
    case readCopy n got =>
      refine ⟨trivial, fun _ _ p ha => ?_⟩
      dsimp only
      split_ifs with hmore
      · refine ⟨trivial, ha.1.drop hmore.2, ?_, fun hnil => ?_⟩
        · rw [List.length_append]
          exact hmore.1
        · exact absurd hnil (List.append_ne_nil_of_right_ne_nil _ (List.cons_ne_nil _ _))
      · refine ⟨trivial, ha.1, ha.2.1, ?_⟩
        rintro rfl
        by_cases he : p.Empty
        · exact .inr (ha.2.2 rfl he)
        · exact .inl (Nat.eq_zero_of_not_pos fun hn => hmore ⟨hn, he⟩)
    case closeEnd w =>
      refine ⟨trivial, fun _ _ p ha => ⟨trivial, ha.shut w, ?_⟩⟩
      cases w <;> rfl
    case closeTest w =>
      refine ⟨trivial, fun _ _ p ha => ?_⟩
      dsimp only
      split_ifs with hboth
      · exact ⟨trivial, ha.1, ha.2, hboth⟩
      · exact ⟨trivial, ha⟩
  wakeup := by
    intro l c next h
    cases l <;> simp only [pipeCode, reduceCtorEq, Instr.wakeup.injEq] at h <;>
      obtain ⟨rfl, rfl⟩ := h <;> exact ⟨trivial, trivial, fun _ _ ha => ha⟩
  sleep := by
    intro l c next h
    cases l <;> simp only [pipeCode, reduceCtorEq, Instr.sleep.injEq] at h <;>
      obtain ⟨rfl, rfl⟩ := h
    case writeSleep addr i =>
      exact ⟨trivial, trivial, fun _ _ ha => ⟨ha.1, fun _ hp => ⟨hp, ha.2.1.le⟩⟩⟩
    case readSleep n => exact ⟨trivial, trivial, fun _ _ ha => ⟨ha.1, fun _ hp => hp⟩⟩
  again h hp := h _ hp
  asleep _ _ _ _ _ _ _ _ h := h
  entry := by
    intro i l m h _
    cases m <;> first | exact h.elim | exact ⟨id, fun _ _ => trivial⟩
  stop := by
    intro l h
    cases l <;> simp only [pipeCode, reduceCtorEq] at h <;> exact id
  apart := by
    intro l f h m i j k p hm _ _ ha
    have hlater := pipeCode_later h j k p
    cases m <;> first | exact absurd trivial hm | exact ha | skip
    case readReturn n got r =>
      exact ha.imp_right fun h => ⟨h.1, h.2.1, fun hnil => (h.2.2 hnil).imp_right hlater.writeopen⟩
    case closeReturn w freed =>
      exact ⟨hlater.shut ha.1, fun hf => (ha.2 hf).imp hlater.readopen hlater.writeopen⟩

/-! ## What is copied -/

/-- The bytes that were put in. -/
def puts (es : List PipeEvent) : List UInt8 :=
  es.filterMap fun e =>
    match e with
    | .put b => some b
    | _ => none

/-- The bytes that were taken out. -/
def gots (es : List PipeEvent) : List UInt8 :=
  es.filterMap fun e =>
    match e with
    | .got b => some b
    | _ => none

@[simp] theorem puts_append (es fs : List PipeEvent) : puts (es ++ fs) = puts es ++ puts fs :=
  List.filterMap_append

@[simp] theorem gots_append (es fs : List PipeEvent) : gots (es ++ fs) = gots es ++ gots fs :=
  List.filterMap_append

/-- What went in is what came out and what is in the pipe. -/
def InOrder (es : List PipeEvent) (p : Pipe) : Prop := puts es = gots es ++ p.content

theorem pipeCode_inOrder {l : PipePoint}
    {f : I → Bool → Pipe → PipePoint × Pipe × Option PipeEvent} (h : pipeCode l = .act f) {i : I}
    {k : Bool} {p : Pipe} {es : List PipeEvent} (ha : PipeAssert i l p) (ho : InOrder es p) :
    InOrder (es ++ (f i k p).2.2.toList) (f i k p).2.1 := by
  have hquiet : InOrder (es ++ []) p := by rwa [List.append_nil]
  cases l <;> simp only [pipeCode, reduceCtorEq, Instr.act.injEq] at h <;> subst h
  case writePut addr i =>
    rw [InOrder, puts_append, gots_append, ho, ha.1.put_content ha.2.2, List.append_assoc,
      List.append_assoc]
    rfl
  case readCopy n got =>
    dsimp only
    split_ifs with hmore
    · rw [InOrder, puts_append, gots_append, ho, ha.1.content_eq hmore.2]
      change gots es ++ (p.first :: p.drop.content) ++ [] = gots es ++ [p.first] ++ p.drop.content
      rw [List.append_nil, List.append_assoc]
      rfl
    · exact hquiet
  case writeCheck addr i =>
    dsimp only
    split_ifs
    · exact hquiet
    · rw [InOrder, puts_append, gots_append, ho]
      change gots es ++ p.content ++ [] = gots es ++ [] ++ p.content
      rw [List.append_nil, List.append_nil]
    · exact hquiet
  case closeEnd w =>
    rw [InOrder, Pipe.shut_content]
    exact hquiet
  all_goals
    dsimp only
    split_ifs <;> exact hquiet

/-- The bytes the call has put in. -/
def PipePoint.put : PipePoint → List UInt8
  | .writeTest addr i => addr.take i
  | .writeCheck addr i => addr.take i
  | .writeFail addr i => addr.take i
  | .writeWake addr i => addr.take i
  | .writeSleep addr i => addr.take i
  | .writePut addr i => addr.take i
  | .writeEnd addr i => addr.take i
  | .writeRelease addr i => addr.take i
  | .writeReturn addr i _ => addr.take i
  | _ => []

/-- The bytes the call has taken out. -/
def PipePoint.got : PipePoint → List UInt8
  | .readCopy _ got => got
  | .readWake _ got => got
  | .readRelease _ got => got
  | .readReturn _ got _ => got
  | _ => []

/-- The call has copied what its point says. -/
def Copied (_ : I) (l : PipePoint) (es : List PipeEvent) : Prop :=
  puts es = l.put ∧ gots es = l.got

theorem pipe_tells : Tells (I := I) pipeCode pipeEntry PipeAssert Copied where
  acquire := by
    intro l next h i es ht
    cases l <;> simp only [pipeCode, reduceCtorEq, Instr.acquire.injEq] at h <;> subst h <;>
      exact ht
  release := by
    intro l next h i es ht
    cases l <;> simp only [pipeCode, reduceCtorEq, Instr.release.injEq] at h <;> subst h <;>
      exact ht
  wakeup := by
    intro l c next h i es ht
    cases l <;> simp only [pipeCode, reduceCtorEq, Instr.wakeup.injEq] at h <;>
      obtain ⟨rfl, rfl⟩ := h <;> exact ht
  sleep := by
    intro l c next h i es ht
    cases l <;> simp only [pipeCode, reduceCtorEq, Instr.sleep.injEq] at h <;>
      obtain ⟨rfl, rfl⟩ := h <;> exact ht
  entry := by
    intro i l m h
    cases m <;> first | exact h.elim | exact ⟨rfl, rfl⟩
  act := by
    intro l f h i k p es ha ht
    have hquiet : puts (es ++ []) = l.put ∧ gots (es ++ []) = l.got := by
      rwa [List.append_nil]
    cases l <;> simp only [pipeCode, reduceCtorEq, Instr.act.injEq] at h <;> subst h
    case writePut addr i =>
      obtain ⟨hput, hgot⟩ := ht
      refine ⟨?_, ?_⟩
      · rw [puts_append, hput]
        change addr.take i ++ [addr.getD i 0] = addr.take (i + 1)
        rw [List.take_add_one, List.getD_eq_getElem?_getD, List.getElem?_eq_getElem ha.2.1]
        rfl
      · rw [gots_append, hgot]
        rfl
    case readCopy n got =>
      obtain ⟨hput, hgot⟩ := ht
      dsimp only
      split_ifs
      · refine ⟨?_, ?_⟩
        · rw [puts_append, hput]
          rfl
        · rw [gots_append, hgot]
          rfl
      · exact hquiet
    case writeCheck addr i =>
      obtain ⟨hput, hgot⟩ := ht
      dsimp only
      split_ifs
      · exact hquiet
      · refine ⟨?_, ?_⟩
        · rw [puts_append, hput]
          exact List.append_nil _
        · rw [gots_append, hgot]
          rfl
      · exact hquiet
    case closeEnd w => exact hquiet
    all_goals
      dsimp only
      split_ifs <;> exact hquiet

/-! ## Wakeups -/

/-- Who sleeps waits for this. In a run where killed writers may give up (`lax`) it says
nothing of the readers. -/
def PipeWait (lax : Prop) : PipeChan → Pipe → Prop
  | .nwrite, p => p.Full ∧ p.readopen
  | .nread, p => lax ∨ p.Empty ∧ p.writeopen ∨ p.readopen = false

/-- The process has still to wake the sleepers of the channel. -/
def PipeOwes : PipePoint → PipeChan → Prop
  | .writeTest _ _, .nread => True
  | .writeCheck _ _, .nread => True
  | .writeWake _ _, .nread => True
  | .writePut _ _, .nread => True
  | .writeEnd _ _, .nread => True
  | .readCopy _ _, .nwrite => True
  | .readWake _ _, .nwrite => True
  | .closeWake w, .nread => w = true
  | .closeWake w, .nwrite => w = false
  | _, _ => False

theorem pipe_wakes (lax : Prop) :
    Wakes (I := I) pipeCode PipeAssert (PipeWait lax) PipeOwes
      (fun e => lax ∨ e ≠ some .gaveUp) where
  release := by
    intro l next h i p c _ ho
    cases l <;> simp only [pipeCode, reduceCtorEq] at h <;> exact ho.elim
  act := by
    intro l f h i k p c ha hok hd
    cases l <;> simp only [pipeCode, reduceCtorEq, Instr.act.injEq] at h <;> subst h
    case writeTest addr i =>
      dsimp only
      cases c with
      | nread => split_ifs <;> exact .inr trivial
      | nwrite =>
          have hw : PipeWait lax .nwrite p := hd.resolve_right id
          split_ifs <;> exact .inl hw
    case writeCheck addr i =>
      dsimp only at hok ⊢
      cases c with
      | nread =>
          split_ifs at hok ⊢ with hopen hkilled
          · exact .inl (.inr (.inr hopen))
          · exact .inl (.inl (hok.resolve_right fun h => h rfl))
          · exact .inr trivial
      | nwrite =>
          left
          have hw : PipeWait lax .nwrite p := hd.resolve_right id
          split_ifs <;> exact hw
    case writePut addr i =>
      cases c with
      | nread => exact .inr trivial
      | nwrite => exact absurd (hd.resolve_right id).1 ha.2.2
    case readTest n =>
      have hw : PipeWait lax c p := hd.resolve_right (by cases c <;> exact id)
      dsimp only
      split_ifs <;> exact .inl hw
    case readCheck n =>
      have hw : PipeWait lax c p := hd.resolve_right (by cases c <;> exact id)
      dsimp only
      split_ifs <;> exact .inl hw
    case readCopy n got =>
      dsimp only
      cases c with
      | nread =>
          have hw : PipeWait lax .nread p := hd.resolve_right id
          split_ifs with hmore
          · exact .inl (hw.imp_right fun h => .inr (h.resolve_left fun he => hmore.2 he.1))
          · exact .inl hw
      | nwrite => split_ifs <;> exact .inr trivial
    case closeEnd w =>
      have hw : PipeWait lax c p := hd.resolve_right (by cases c <;> exact id)
      cases w <;> cases c
      · exact .inl (.inr (.inr rfl))
      · exact .inr rfl
      · exact .inr rfl
      · exact .inl hw
    case closeTest w =>
      have hw : PipeWait lax c p := hd.resolve_right (by cases c <;> exact id)
      dsimp only
      split_ifs <;> exact .inl hw
  wakeup := by
    intro l c next h i p c' ha hne ho
    cases l <;> simp only [pipeCode, reduceCtorEq, Instr.wakeup.injEq] at h <;>
      obtain ⟨rfl, rfl⟩ := h <;> cases c'
    case closeWake.nread w =>
      have hw : w = true := ho
      subst hw
      exact absurd rfl hne
    case closeWake.nwrite w =>
      have hw : w = false := ho
      subst hw
      exact absurd rfl hne
    all_goals first | exact ho.elim | exact absurd rfl hne
  sleep := by
    intro l c next h i p ha
    cases l <;> simp only [pipeCode, reduceCtorEq, Instr.sleep.injEq] at h <;>
      obtain ⟨rfl, rfl⟩ := h
    case writeSleep addr i =>
      exact ⟨⟨ha.2.2.1, ha.2.2.2⟩, fun c' ho => by cases c' <;> exact ho.elim⟩
    case readSleep n => exact ⟨.inr (.inl ha.2), fun c' ho => by cases c' <;> exact ho.elim⟩

/-! ## Runs -/

/-- The pipe of `pipealloc`, in a page with anything in it. -/
def pipealloc (page : Nat → UInt8) : Pipe where
  data := page
  nread := 0
  nwrite := 0
  readopen := true
  writeopen := true

/-- A new pipe, and processes that are in none of its calls. -/
def pipeStart (page : Nat → UInt8) (killed : I → Bool) : State I Pipe PipeChan PipePoint where
  data := pipealloc page
  lock := none
  table := none
  thread i := ⟨.idle, .run, killed i⟩

theorem pipealloc_ok (page : Nat → UInt8) : (pipealloc page).Ok := by
  refine ⟨Nat.zero_lt_succ _, Nat.zero_lt_succ _, ?_⟩
  change u32 (0 + (4294967296 - 0)) ≤ pipesize
  decide

theorem pipealloc_content (page : Nat → UInt8) : (pipealloc page).content = [] := by
  apply List.eq_nil_of_length_eq_zero
  rw [Pipe.content_length]
  exact (pipealloc_ok page).empty_iff.mp rfl

theorem pipeStart_inv (page : Nat → UInt8) (killed : I → Bool) :
    Inv pipeCode PipeLocked Pipe.Ok PipeAssert PipeAsleep (pipeStart page killed) where
  lock i := ⟨fun h => (by cases h), fun h => h.elim⟩
  table i := ⟨fun h => (by cases h), fun h => h.elim⟩
  free _ := pipealloc_ok page
  holds _ := trivial
  fits _ := trivial

/-- At a point with the lock the counters are right. -/
theorem PipeAssert.ok {i : I} {l : PipePoint} {p : Pipe} (h : PipeAssert i l p)
    (hl : PipeLocked l) : p.Ok := by
  cases l <;> first | exact hl.elim | exact h.1 | exact h

/-- The counters are right in every state. -/
theorem pipe_ok {s : State I Pipe PipeChan PipePoint}
    (h : Inv pipeCode PipeLocked Pipe.Ok PipeAssert PipeAsleep s) : s.data.Ok := by
  cases hlock : s.lock with
  | none => exact h.free hlock
  | some i =>
      have hhas := (h.lock i).mp hlock
      obtain ⟨-, -, hh, hfits⟩ := h.one (i := i) rfl
      rw [Thread.HasLock] at hhas
      rw [Thread.Holds] at hh
      rw [Thread.Fits] at hfits
      cases hp : (s.thread i).phase <;> rw [hp] at hhas hh hfits <;> dsimp only at hhas hh hfits
      case run => exact hh.ok hhas
      case waking c next => exact hh.ok (pipe_outline (I := I).wakeup hfits).1
      case enter c next => exact hh.ok (pipe_outline (I := I).sleep hfits).1

/-- What a call that has returned has copied, told by the bytes it has put in and taken out. -/
def PipeReturns (p : Pipe) (es : List PipeEvent) : PipePoint → Prop
  | .writeReturn addr k r => gots es = [] ∧ puts es = addr.take k ∧
      (r = addr.length ∧ k = addr.length ∨ r = -1 ∧ k < addr.length)
  | .readReturn n got r => puts es = [] ∧ gots es = got ∧
      (r = -1 ∧ got = [] ∨
        r = got.length ∧ got.length ≤ n ∧ (got = [] → n = 0 ∨ p.writeopen = false))
  | .closeReturn w freed => puts es = [] ∧ gots es = [] ∧ p.shut w = p ∧
      (freed = true → p.readopen = false ∧ p.writeopen = false)
  | _ => True

section Runs

variable [DecidableEq I] {page : Nat → UInt8} {killed : I → Bool}
  {as : List (Label I PipePoint PipeEvent)} {s : State I Pipe PipeChan PipePoint}

/-- **A pipe is a queue**: whatever the processes do, the bytes that went in are those that
came out and then those in the pipe, at most `PIPESIZE`; and every call has copied what it
returns. -/
theorem pipe_fifo (h : Run (Step pipeCode pipeEntry) (pipeStart page killed) as s) :
    puts (as.filterMap Label.shown) = gots (as.filterMap Label.shown) ++ s.data.content ∧
      s.data.content.length ≤ pipesize ∧
      ∀ i, PipeReturns s.data (told i as) (s.thread i).point := by
  have hinv := run_inv pipe_outline h (pipeStart_inv page killed)
  refine ⟨?_, ?_, fun i => ?_⟩
  · refine run_shown pipe_outline pipeCode_inOrder h (pipeStart_inv page killed) ?_
    change [] = [] ++ (pipealloc page).content
    rw [pipealloc_content]
    rfl
  · rw [Pipe.content_length]
    exact (pipe_ok hinv).count
  · have htold := run_told pipe_outline pipe_tells h (pipeStart_inv page killed)
      (fun _ => ⟨rfl, rfl⟩) i
    have hknown := hinv.stopped (i := i)
    generalize (s.thread i).point = l at htold hknown
    cases l <;> first | trivial | skip
    case writeReturn addr k r => exact ⟨htold.2, htold.1, hknown rfl⟩
    case readReturn n got r => exact ⟨htold.1, htold.2, hknown rfl⟩
    case closeReturn w freed => exact ⟨htold.1, htold.2, hknown rfl⟩

theorem pipe_waits (lax : Prop)
    (h : Run (Step pipeCode pipeEntry) (pipeStart page killed) as s)
    (hshown : ∀ e ∈ as.filterMap Label.shown, lax ∨ e ≠ .gaveUp) :
    Waits (PipeWait lax) PipeOwes s := by
  refine run_waits pipe_outline (pipe_wakes lax) h (fun a ha => ?_) (pipeStart_inv page killed)
    fun _ _ hw => hw.elim
  cases a with
  | step i e =>
      cases e with
      | none => exact .inr fun h => by cases h
      | some e =>
          have he := hshown e (List.mem_filterMap.mpr ⟨_, ha, rfl⟩)
          exact he.imp_right fun hne heq => hne (Option.some.inj heq)
  | kill i => trivial
  | start i l => trivial

/-- **No wakeup is lost**: a writer sleeps on a full pipe that can be read. A reader sleeps on
an empty pipe that can be written, or the read end is closed, where no killed writer has left a
full pipe. -/
theorem pipe_sleepers (h : Run (Step pipeCode pipeEntry) (pipeStart page killed) as s)
    (hfree : s.lock = none) (i : I) (next : PipePoint) :
    ((s.thread i).phase = .asleep .nwrite next → s.data.Full ∧ s.data.readopen = true) ∧
      ((s.thread i).phase = .asleep .nread next → .gaveUp ∉ as.filterMap Label.shown →
        s.data.Empty ∧ s.data.writeopen = true ∨ s.data.readopen = false) := by
  refine ⟨fun hp => ?_, fun hp hgave => ?_⟩
  · exact asleep_waits (pipe_waits True h fun _ _ => .inl trivial) hfree hp
  · have hwait := asleep_waits (pipe_waits False h fun e he => .inr fun heq => ?_) hfree hp
    · exact hwait.resolve_left id
    · exact hgave (heq ▸ he)

/-- **No deadlock**: where no process can go on, with the read end open and no full pipe left
by a killed writer, those that have not returned are all writers, with a full pipe, or all
readers, with an empty one whose write end is open. -/
theorem pipe_stuck (h : Run (Step pipeCode pipeEntry) (pipeStart page killed) as s)
    (hopen : s.data.readopen = true) (hgave : .gaveUp ∉ as.filterMap Label.shown)
    (hstuck : ∀ i e s', ¬ Step pipeCode pipeEntry s (.step i e) s') :
    (∀ i, pipeCode (I := I) (s.thread i).point = .stop) ∨
      s.data.Full ∧ (∀ i, pipeCode (I := I) (s.thread i).point = .stop ∨
        ∃ next, (s.thread i).phase = .asleep .nwrite next) ∨
      (s.data.Empty ∧ s.data.writeopen = true) ∧
        (∀ i, pipeCode (I := I) (s.thread i).point = .stop ∨
          ∃ next, (s.thread i).phase = .asleep .nread next) := by
  have hinv := run_inv pipe_outline h (pipeStart_inv page killed)
  have hwaits := pipe_waits False h fun e he => .inr fun heq => hgave (heq ▸ he)
  have heach := fun i => stuck_waits pipe_outline hinv hwaits hstuck i
  by_cases hfull : s.data.Full
  · refine .inr (.inl ⟨hfull, fun i => (heach i).imp_right ?_⟩)
    rintro ⟨c, next, hp, hw⟩
    cases c with
    | nwrite => exact ⟨next, hp⟩
    | nread =>
        rcases hw with hno | hempty | hclosed
        · exact hno.elim
        · exact ((pipe_ok hinv).not_both hfull hempty.1).elim
        · rw [hopen] at hclosed
          cases hclosed
  by_cases hempty : s.data.Empty ∧ s.data.writeopen = true
  · refine .inr (.inr ⟨hempty, fun i => (heach i).imp_right ?_⟩)
    rintro ⟨c, next, hp, hw⟩
    cases c with
    | nread => exact ⟨next, hp⟩
    | nwrite => exact absurd hw.1 hfull
  · refine .inl fun i => (heach i).resolve_right ?_
    rintro ⟨c, next, -, hw⟩
    cases c with
    | nwrite => exact hfull hw.1
    | nread =>
        rcases hw with hno | hw | hclosed
        · exact hno
        · exact hempty hw
        · rw [hopen] at hclosed
          cases hclosed

end Runs

/-! ## A killed writer -/

/-- A reader, `false`, and a writer, `true`. -/
def pairState (p : Pipe) (lock table : Option Bool) (r w : Thread PipeChan PipePoint) :
    State Bool Pipe PipeChan PipePoint :=
  ⟨p, lock, table, fun i => if i then w else r⟩

@[simp] theorem pairState_put_true {p : Pipe} {lock table : Option Bool}
    {r w t : Thread PipeChan PipePoint} :
    State.put (pairState p lock table r w) true t = pairState p lock table r t := by
  rw [State.put, pairState, State.mk.injEq]
  refine ⟨rfl, rfl, rfl, funext fun i => ?_⟩
  cases i <;> rfl

@[simp] theorem pairState_put_false {p : Pipe} {lock table : Option Bool}
    {r w t : Thread PipeChan PipePoint} :
    State.put (pairState p lock table r w) false t = pairState p lock table t w := by
  rw [State.put, pairState, State.mk.injEq]
  refine ⟨rfl, rfl, rfl, funext fun i => ?_⟩
  cases i <;> rfl

variable {p : Pipe} {r : Thread PipeChan PipePoint} {w : Thread PipeChan PipePoint}

theorem reader_step {s : State Bool Pipe PipeChan PipePoint} {lock table : Option Bool}
    {t : Thread PipeChan PipePoint} {a : Label Bool PipePoint PipeEvent}
    (h : Step pipeCode pipeEntry s a (State.put (pairState p lock table r w) false t)) :
    Run (Step pipeCode pipeEntry) s [a] (pairState p lock table t w) :=
  .single (pairState_put_false ▸ h)

theorem writer_step {s : State Bool Pipe PipeChan PipePoint} {lock table : Option Bool}
    {t : Thread PipeChan PipePoint} {a : Label Bool PipePoint PipeEvent}
    (h : Step pipeCode pipeEntry s a (State.put (pairState p lock table r w) true t)) :
    Run (Step pipeCode pipeEntry) s [a] (pairState p lock table r t) :=
  .single (pairState_put_true ▸ h)

/-- A reader falls asleep on the empty pipe. -/
theorem reader_sleeps (hempty : p.Empty) (hopen : p.writeopen = true) (n : Nat) :
    Run (Step pipeCode pipeEntry) (pairState p none none ⟨.idle, .run, false⟩ w)
      (.start false (.read n) :: List.replicate 6 (.step false none))
      (pairState p none none ⟨.readSleep n, .asleep .nread (.readTest n), false⟩ w) := by
  have hstart : Run (Step pipeCode pipeEntry) (pairState p none none ⟨.idle, .run, false⟩ w) _
      (pairState p none none ⟨.read n, .run, false⟩ w) := reader_step (.start rfl rfl trivial)
  have hacquire : Run (Step pipeCode pipeEntry) _ _
      (pairState p (some false) none ⟨.readTest n, .run, false⟩ w) :=
    hstart.append (reader_step (.acquire rfl rfl rfl))
  have htest : Run (Step pipeCode pipeEntry) _ _
      (pairState p (some false) none ⟨.readCheck n, .run, false⟩ w) :=
    hacquire.append (reader_step (.act rfl rfl (if_pos ⟨hempty, hopen⟩)))
  have hcheck : Run (Step pipeCode pipeEntry) _ _
      (pairState p (some false) none ⟨.readSleep n, .run, false⟩ w) :=
    htest.append (reader_step (.act rfl rfl rfl))
  have henter : Run (Step pipeCode pipeEntry) _ _
      (pairState p (some false) (some false)
        ⟨.readSleep n, .enter .nread (.readTest n), false⟩ w) :=
    hcheck.append (reader_step (.sleep rfl rfl rfl))
  have hleave : Run (Step pipeCode pipeEntry) _ _
      (pairState p none (some false) ⟨.readSleep n, .leave .nread (.readTest n), false⟩ w) :=
    henter.append (reader_step (.leave rfl))
  exact hleave.append (reader_step (.fall rfl))

/-- The writer fills the pipe. -/
theorem writer_puts (hp : p.Ok) (hempty : p.Empty) (hopen : p.readopen = true)
    {addr : List UInt8} : ∀ k ≤ pipesize, k < addr.length → ∃ q as, q.Ok ∧ q.count = k ∧
      q.readopen = true ∧
      Run (Step pipeCode pipeEntry) (pairState p (some true) none r ⟨.writeTest addr 0, .run, true⟩)
        as (pairState q (some true) none r ⟨.writeTest addr k, .run, true⟩) := by
  intro k
  induction k with
  | zero => exact fun _ _ => ⟨p, [], hp, hp.empty_iff.mp hempty, hopen, .nil _⟩
  | succ k ih =>
      intro hk hlen
      obtain ⟨q, as, hq, hcount, hqopen, hrun⟩ := ih (Nat.le_of_succ_le hk) (Nat.lt_of_succ_lt hlen)
      have hroom : ¬ q.Full := by
        rw [hq.full_iff, hcount]
        exact Nat.ne_of_lt hk
      have htest : Run (Step pipeCode pipeEntry) _ _
          (pairState q (some true) none r ⟨.writePut addr k, .run, true⟩) :=
        hrun.append (writer_step (.act rfl rfl
          ((if_pos (Nat.lt_of_succ_lt hlen)).trans (congrArg (·, q, none) (if_neg hroom)))))
      refine ⟨q.put (addr.getD k 0), _, hq.put hroom _, ?_, hqopen,
        htest.append (writer_step (.act rfl rfl rfl))⟩
      rw [hq.put_count hroom, hcount]

theorem pipeStart_pair (page : Nat → UInt8) (killed : Bool → Bool) :
    pipeStart page killed = pairState (pipealloc page) none none
      ⟨.idle, .run, killed false⟩ ⟨.idle, .run, killed true⟩ := by
  rw [pipeStart, pairState, State.mk.injEq]
  refine ⟨rfl, rfl, rfl, funext fun i => ?_⟩
  cases i <;> rfl

/-- The reader sleeps, and a killed writer has put `k` bytes in. -/
theorem killed_writer_puts (page : Nat → UInt8) {addr : List UInt8} {k : Nat} (hk : k ≤ pipesize)
    (hlen : k < addr.length) (n : Nat) :
    ∃ q as, q.Ok ∧ q.count = k ∧ q.readopen = true ∧
      Run (Step pipeCode pipeEntry) (pipeStart page id) as
        (pairState q (some true) none ⟨.readSleep n, .asleep .nread (.readTest n), false⟩
          ⟨.writeTest addr k, .run, true⟩) := by
  have hsleeps := reader_sleeps (p := pipealloc page) (w := ⟨.idle, .run, true⟩) rfl rfl n
  have hstart : Run (Step pipeCode pipeEntry) _ _
      (pairState (pipealloc page) none none ⟨.readSleep n, .asleep .nread (.readTest n), false⟩
        ⟨.write addr, .run, true⟩) := hsleeps.append (writer_step (.start rfl rfl trivial))
  have hacquire : Run (Step pipeCode pipeEntry) _ _
      (pairState (pipealloc page) (some true) none
        ⟨.readSleep n, .asleep .nread (.readTest n), false⟩ ⟨.writeTest addr 0, .run, true⟩) :=
    hstart.append (writer_step (.acquire rfl rfl rfl))
  obtain ⟨q, as, hq, hcount, hopen, hputs⟩ := writer_puts
    (r := ⟨.readSleep n, .asleep .nread (.readTest n), false⟩) (pipealloc_ok page) rfl rfl
    k hk hlen
  exact ⟨q, _, hq, hcount, hopen, pipeStart_pair page id ▸ hacquire.append hputs⟩

theorem pipe_fifo_two : ∃ (as : List (Label Bool PipePoint PipeEvent))
      (s : State Bool Pipe PipeChan PipePoint),
    s.data.count = 2 ∧
      puts (as.filterMap Label.shown) = gots (as.filterMap Label.shown) ++ s.data.content ∧
      s.data.content.length ≤ pipesize ∧
      ∀ i, PipeReturns s.data (told i as) (s.thread i).point := by
  obtain ⟨q, as, -, hcount, -, hrun⟩ :=
    @killed_writer_puts (fun _ => 0) [104, 105, 33] 2 (by decide) (by decide) 1
  exact ⟨as, _, hcount, pipe_fifo hrun⟩

/-- The reader of a new pipe sleeps. -/
theorem reader_sleeps_new : Run (Step pipeCode pipeEntry) (pipeStart (fun _ => 0) fun _ => false)
    (.start false (.read 1) :: List.replicate 6 (.step false none))
    (pairState (pipealloc fun _ => 0) none none
      ⟨.readSleep 1, .asleep .nread (.readTest 1), false⟩ ⟨.idle, .run, false⟩) := by
  rw [pipeStart_pair]
  exact reader_sleeps (p := pipealloc fun _ => 0) rfl rfl 1

theorem pipe_sleepers_new :
    (pipealloc fun _ => 0).Empty ∧ (pipealloc fun _ => 0).writeopen = true ∨
      (pipealloc fun _ => 0).readopen = false :=
  (pipe_sleepers reader_sleeps_new rfl false (.readTest 1)).2 rfl (by decide)

theorem pipe_stuck_new :
    ∃ s : State Bool Pipe PipeChan PipePoint,
    (∀ i, pipeCode (I := Bool) (s.thread i).point = .stop) ∨
      s.data.Full ∧ (∀ i, pipeCode (I := Bool) (s.thread i).point = .stop ∨
        ∃ next, (s.thread i).phase = .asleep .nwrite next) ∨
      (s.data.Empty ∧ s.data.writeopen = true) ∧
        (∀ i, pipeCode (I := Bool) (s.thread i).point = .stop ∨
          ∃ next, (s.thread i).phase = .asleep .nread next) := by
  refine ⟨_, pipe_stuck reader_sleeps_new rfl (by decide) fun i e s' hstep => ?_⟩
  cases i
  · exact hstep.awake.1 _ _ rfl
  · exact hstep.awake.2 rfl rfl

end CS537.Xv6
