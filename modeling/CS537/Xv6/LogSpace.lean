import CS537.Xv6.LogSafety
import Mathlib.Algebra.BigOperators.Group.List.Basic

/-!
# Room in the xv6 log

`begin_op` reserves `MAXOPBLOCKS` blocks for each call and admits a call only while `LOGSIZE`
is not exceeded. `log_write` panics at `LOGSIZE` blocks, but also at `log.size - 1`, and `mkfs`
makes `log.size` equal to `LOGSIZE`.
-/

namespace CS537.Xv6

open Redo

/-- The system, with the blocks that each call in progress may still write. -/
inductive CallStep : LogState × List Nat → LogAction → LogState × List Nat → Prop
  | beginOp {s s' : LogState} {left : List Nat} : logStep s .beginOp = some s' →
      CallStep (s, left) .beginOp (s', maxOpBlocks :: left)
  | write {s s' : LogState} {left : List Nat} {i n b : Nat} {data : Block} :
      left[i]? = some (n + 1) → LogAllowed s (.write b data) →
      logStep s (.write b data) = some s' →
      CallStep (s, left) (.write b data) (s', left.set i n)
  | endOp {s s' : LogState} {left : List Nat} {i : Nat} : i < left.length →
      logStep s .endOp = some s' → CallStep (s, left) .endOp (s', left.eraseIdx i)
  | read {s s' : LogState} {left : List Nat} {b : Nat} : logStep s (.read b) = some s' →
      CallStep (s, left) (.read b) (s', left)
  | recycle {s s' : LogState} {left : List Nat} {b : Nat} : logStep s (.recycle b) = some s' →
      CallStep (s, left) (.recycle b) (s', left)
  | proceed {s s' : LogState} {left : List Nat} {stage : Stage} :
      logStep s (.proceed stage) = some s' → CallStep (s, left) (.proceed stage) (s', left)
  | crash {s : LogState} {left : List Nat} : CallStep (s, left) .crash (crash s, [])

/-- No call in progress can be made to panic. -/
def NoPanic (s : LogState) (left : List Nat) : Prop :=
  (∀ (i n b : Nat) (data : Block), left[i]? = some (n + 1) → LogAllowed s (.write b data) →
    ∃ s', logWrite b data s = .ok s') ∧
  (left ≠ [] → ∃ s', endOp s = .ok s')

theorem CallStep.logStep {s s' : LogState} {left left' : List Nat} {a : LogAction}
    (h : CallStep (s, left) a (s', left')) : LogAllowed s a ∧ logStep s a = some s' := by
  cases h with
  | write _ hok hs => exact ⟨hok, hs⟩
  | beginOp hs | endOp _ hs | read hs | recycle hs | proceed hs => exact ⟨trivial, hs⟩
  | crash => exact ⟨trivial, rfl⟩

theorem callRun_logRun {c c' : LogState × List Nat} {as : List LogAction}
    (h : Lts.Run CallStep c as c') : LogRun c.1 as c'.1 := by
  induction h with
  | nil => exact .nil _
  | snoc _ hs ih => exact ih.snoc hs.logStep

/-! ## What is reserved -/

/-- What the calls in progress may still write fits the log, beside what they have written. -/
structure Reserved (s : LogState) (left : List Nat) : Prop where
  count : left.length = s.log.outstanding
  each : ∀ n ∈ left, n ≤ maxOpBlocks
  total : s.mode = .up → s.log.lh.length + left.sum ≤ logSize

theorem sum_set {left : List Nat} {i n : Nat} (h : left[i]? = some (n + 1)) :
    (left.set i n).sum + 1 = left.sum := by
  induction left generalizing i with
  | nil => cases h
  | cons a left ih =>
      cases i with
      | zero =>
          cases h
          simp only [List.set_cons_zero, List.sum_cons]
          omega
      | succ i =>
          have ih := @ih i (by simpa using h)
          simp only [List.set_cons_succ, List.sum_cons]
          omega

theorem sum_eraseIdx_le (left : List Nat) (i : Nat) : (left.eraseIdx i).sum ≤ left.sum := by
  induction left generalizing i with
  | nil => simp
  | cons a left ih =>
      cases i with
      | zero => simp
      | succ i =>
          have := ih i
          simp only [List.eraseIdx_cons_succ, List.sum_cons]
          omega

theorem sum_le_of_each {left : List Nat} {m : Nat} (h : ∀ n ∈ left, n ≤ m) :
    left.sum ≤ left.length * m := by
  induction left with
  | nil => simp
  | cons a left ih =>
      have ha := h a List.mem_cons_self
      have ih := ih fun n hn => h n (List.mem_cons_of_mem a hn)
      rw [List.sum_cons, List.length_cons, Nat.add_mul]
      omega

/-- `proceed` changes neither the calls in progress nor, outside the log's own work, what is
logged. -/
theorem proceed_outstanding {s s' : LogState} {stage : Stage}
    (hs : logStep s (.proceed stage) = some s') : s'.log.outstanding = s.log.outstanding := by
  have hproceed : ∀ stage, (proceed s stage).1.log.outstanding = s.log.outstanding := by
    intro stage
    cases stage with
    | readHead => simp [proceed, readHead]
    | writeLog tail =>
        unfold proceed
        dsimp only
        cases s.log.lh[tail]? with
        | none => rfl
        | some b => rw [(writeLogRound_writes tail b s).log]
    | writeHead => exact congrArg Log.outstanding (writeHead_writes s).log
    | install tail =>
        unfold proceed
        dsimp only
        cases s.log.lh[tail]? with
        | none => rfl
        | some b => rw [(installRound_writes tail b s).log]
    | clear => exact congrArg Log.outstanding (writeHead_writes s).log
    | finish => rfl
  simp only [Xv6.logStep] at hs
  split at hs
  · split at hs <;> cases hs
    · rfl
    · exact hproceed stage
  · split at hs
    · split at hs <;> cases hs
      · rfl
      · exact hproceed stage
    · cases hs

theorem reserved_step {s s' : LogState} {left left' : List Nat} {a : LogAction} {q : Store Block}
    (h : Reserved s left) (hsim : s.face.Sim q s.mode) (hs : CallStep (s, left) a (s', left')) :
    Reserved s' left' := by
  have hsum := sum_le_of_each h.each
  obtain ⟨q', hsim', -⟩ := sim_step hsim hs.logStep.1 hs.logStep.2
  -- without calls in progress, nothing is logged once the log is open
  have hidle : s'.mode = .up → s'.log.outstanding = 0 → s'.log.lh.length = 0 := by
    intro hup h0
    have hplace := hsim'.place
    rw [hup] at hplace
    exact List.length_eq_zero_iff.mpr (hplace.2.2 h0)
  cases hs with
  | beginOp hs =>
      simp only [Xv6.logStep] at hs
      split at hs
      · cases hs
      · simp only [Xv6.beginOp] at hs
        split at hs
        · cases hs
        · split at hs
          · cases hs
          · rename_i hroom
            cases hs
            refine ⟨by simp [h.count], ?_, ?_⟩
            · intro n hn
              rcases List.mem_cons.mp hn with rfl | hn
              · exact Nat.le_refl _
              · exact h.each n hn
            · intro _
              show s.log.lh.length + (maxOpBlocks :: left).sum ≤ logSize
              rw [List.sum_cons]
              rw [h.count] at hsum
              rw [Nat.add_mul] at hroom
              omega
  | @write _ _ _ i n b data hi hok hs =>
      have hset := sum_set hi
      have hup := hsim.mode_up (by rw [← h.count]; exact List.length_pos_of_mem (List.mem_of_getElem? hi))
      have htotal := h.total hup
      simp only [Xv6.logStep, Xv6.logWrite] at hs
      split at hs
      · cases hs
      · split at hs
        · cases hs
        · cases hs
          refine ⟨by rw [List.length_set]; exact h.count, ?_, ?_⟩
          · intro m hm
            rcases List.mem_or_eq_of_mem_set hm with hm | rfl
            · exact h.each m hm
            · have := h.each (m + 1) (List.mem_of_getElem? hi)
              omega
          · intro _
            show (if b ∈ s.log.lh then s.log.lh else s.log.lh ++ [b]).length + (left.set i n).sum ≤
              logSize
            split
            · omega
            · rw [List.length_append, List.length_singleton]
              omega
  | @endOp _ _ _ i hi hs =>
      have herase := sum_eraseIdx_le left i
      have hout := h.count
      simp only [Xv6.logStep] at hs
      split at hs
      · cases hs
      · have hup := hsim.mode_up (by omega)
        have htotal := h.total hup
        simp only [Xv6.endOp] at hs
        split at hs
        · cases hs
        · split at hs <;> cases hs
          · refine ⟨?_, ?_, ?_⟩
            · rw [List.length_eraseIdx_of_lt hi]
              show left.length - 1 = s.log.outstanding - 1
              omega
            · intro n hn
              exact h.each n (List.mem_of_mem_eraseIdx hn)
            · intro hm
              cases hm
          · refine ⟨?_, ?_, ?_⟩
            · rw [List.length_eraseIdx_of_lt hi]
              show left.length - 1 = s.log.outstanding - 1
              omega
            · intro n hn
              exact h.each n (List.mem_of_mem_eraseIdx hn)
            · intro _
              show s.log.lh.length + (left.eraseIdx i).sum ≤ logSize
              omega
  | read hs =>
      simp only [Xv6.logStep] at hs
      split at hs
      · cases hs
      · cases hs
        refine ⟨by rw [bread_log]; exact h.count, h.each, ?_⟩
        rw [bread_mode, bread_log]
        exact h.total
  | recycle hs =>
      simp only [Xv6.logStep] at hs
      split at hs
      · split at hs <;> cases hs
        exact ⟨h.count, h.each, h.total⟩
      · cases hs
  | proceed hs =>
      have hout := proceed_outstanding hs
      refine ⟨by rw [hout]; exact h.count, h.each, ?_⟩
      intro hup
      -- only `commit` and `initlog` proceed, and no call is in progress then
      have h0 : s.log.outstanding = 0 := by
        by_contra hne
        have hm := hsim.mode_up (Nat.pos_of_ne_zero hne)
        simp [Xv6.logStep, hm] at hs
      have hleft : left = [] := List.length_eq_zero_iff.mp (by rw [h.count, h0])
      have hlen := hidle hup (by rw [hout, h0])
      rw [hlen, hleft]
      exact Nat.zero_le _
  | crash => exact ⟨rfl, by simp, fun hup => by cases hup⟩

theorem reserved_run {s₀ s : LogState} {left : List Nat} {as : List LogAction} (h : Booting s₀)
    (hrun : Lts.Run CallStep (s₀, []) as (s, left)) :
    Reserved s left ∧ ∃ q, s.face.Sim q s.mode := by
  refine hrun.invariant (I := fun c => Reserved c.1 c.2 ∧ ∃ q, c.1.face.Sim q c.1.mode) ?_ ?_
  · rintro ⟨t, left₁⟩ a ⟨u, left₂⟩ ⟨hres, q, hsim⟩ hs
    obtain ⟨q', hsim', -⟩ := sim_step hsim hs.logStep.1 hs.logStep.2
    exact ⟨reserved_step hres hsim hs, q', hsim'⟩
  · refine ⟨⟨h.log.1.symm, by simp, ?_⟩, _, h.sim⟩
    intro hup
    rw [h.mode] at hup
    cases hup

/-- With one block more than `LOGSIZE`, what is reserved is there. -/
theorem Reserved.noPanic {s : LogState} {left : List Nat} {q : Store Block} (h : Reserved s left)
    (hsim : s.face.Sim q s.mode) (hsize : 31 ≤ s.log.size) : NoPanic s left := by
  have hpos : ∀ n ∈ left, 0 < s.log.outstanding := by
    intro n hn
    rw [← h.count]
    exact List.length_pos_of_mem hn
  constructor
  · intro i n b data hi _
    have hmem := List.mem_of_getElem? hi
    have hout := hpos _ hmem
    have htotal := h.total (hsim.mode_up hout)
    have hset := sum_set hi
    rw [logSize] at htotal
    unfold logWrite
    rw [if_neg (by rw [logSize]; omega), if_neg (by omega)]
    exact ⟨_, rfl⟩
  · intro hne
    obtain ⟨n, hn⟩ := List.exists_mem_of_ne_nil left hne
    have hup := hsim.mode_up (hpos n hn)
    have hplace := hsim.place
    rw [hup] at hplace
    have hcom : s.log.committing = false := hplace.1
    unfold endOp
    simp only [hcom, Bool.false_eq_true, if_false]
    split <;> exact ⟨_, rfl⟩

/-! ## A log of `LOGSIZE` blocks -/

theorem callRun_proceed {s t : LogState} : ∀ {stages : List Stage},
    LogRun s (stages.map .proceed) t → Lts.Run CallStep (s, []) (stages.map .proceed) (t, []) := by
  intro stages
  induction stages using List.reverseRecOn generalizing t with
  | nil =>
      intro hrun
      generalize has : ([] : List Stage).map LogAction.proceed = as at hrun
      cases hrun with
      | nil => exact .nil _
      | snoc _ _ => simp at has
  | append_singleton stages stage ih =>
      intro hrun
      rw [List.map_append, List.map_singleton] at hrun ⊢
      obtain ⟨u, hu, hlast⟩ := hrun.last
      exact (ih hu).snoc (.proceed hlast.2)

/-- The log open, with three calls in progress that have written `k` blocks. -/
structure Filled (s₀ s : LogState) (left : List Nat) (k : Nat) : Prop where
  mode : s.mode = .up
  layout : s.layout = s₀.layout
  outstanding : s.log.outstanding = 3
  length : s.log.lh.length = k
  left : left.sum + k = logSize
  below : ∀ b ∈ s.log.lh, b < s₀.log.start + s₀.log.size + k

theorem exists_left {left : List Nat} (h : 0 < left.sum) :
    ∃ i n : Nat, left[i]? = some (n + 1) := by
  induction left with
  | nil => cases h
  | cons a left ih =>
      cases a with
      | zero =>
          obtain ⟨i, n, hi⟩ := ih (by simpa using h)
          exact ⟨i + 1, n, by simpa using hi⟩
      | succ n => exact ⟨0, n, rfl⟩

theorem exists_open {s₀ : LogState} (h : Booting s₀) :
    ∃ as s left, Lts.Run CallStep (s₀, []) as (s, left) ∧ Filled s₀ s left 0 := by
  obtain ⟨stages, t, -, hrun, hup⟩ := sim_ends (.inl h.mode) h.sim (Nat.le_refl _)
  have hcalls := callRun_proceed hrun
  obtain ⟨hres, q, hsim⟩ := reserved_run h hcalls
  have hplace := hsim.place
  rw [hup] at hplace
  obtain ⟨hcom, -, hidle⟩ := hplace
  have hcom : t.log.committing = false := hcom
  have hout : t.log.outstanding = 0 := hres.count.symm
  have hlh : t.log.lh = [] := hidle hout
  have hbegin : ∀ k ≤ 2, ∀ left : List Nat,
      CallStep ({ t with log.outstanding := k }, left) .beginOp
        ({ t with log.outstanding := k + 1 }, maxOpBlocks :: left) := by
    intro k hk left
    refine .beginOp ?_
    simp only [Xv6.logStep, hup, Xv6.beginOp, hcom, hlh, List.length_nil, maxOpBlocks, logSize]
    simp
    omega
  have hzero : ({ t with log.outstanding := 0 } : LogState) = t := by
    rw [← hout]
  have hlayout : t.layout = s₀.layout := LogRun.layout hrun
  have hfirst := hbegin 0 (by omega) []
  rw [hzero] at hfirst
  refine ⟨_, _, _, ((hcalls.snoc hfirst).snoc (hbegin 1 (by omega) _)).snoc (hbegin 2 (by omega) _),
    hup, hlayout, rfl, ?_, rfl, ?_⟩
  · show t.log.lh.length = 0
    rw [hlh]
    rfl
  · intro b hb
    have hb : b ∈ t.log.lh := hb
    rw [hlh] at hb
    cases hb

theorem exists_filled {s₀ : LogState} (h : Booting s₀) (hsize : s₀.log.size ≤ 30)
    (hdisk : s₀.log.start + s₀.log.size + 30 ≤ 4294967296) : ∀ k, k + 1 ≤ s₀.log.size →
    ∃ as s left, Lts.Run CallStep (s₀, []) as (s, left) ∧ Filled s₀ s left k
  | 0, _ => exists_open h
  | k + 1, hk => by
      obtain ⟨as, s, left, hrun, hf⟩ := exists_filled h hsize hdisk k (by omega)
      have hleft := hf.left
      rw [logSize] at hleft
      obtain ⟨i, n, hi⟩ := @exists_left left (by omega)
      have hstart : s.log.start = s₀.log.start := congrArg Layout.start hf.layout
      have hsz : s.log.size = s₀.log.size := congrArg Layout.size hf.layout
      let b := s₀.log.start + s₀.log.size + k
      have hnew : b ∉ s.log.lh := fun hb => Nat.lt_irrefl _ (hf.below b hb)
      have hok : LogAllowed s (.write b fun _ => 0) := by
        refine ⟨.inr ?_, ?_⟩
        · show s.log.start + s.log.size ≤ s₀.log.start + s₀.log.size + k
          omega
        · show s₀.log.start + s₀.log.size + k < 4294967296
          omega
      have hwrite : logWrite b (fun _ => 0) s = .ok { s with
          log.lh := s.log.lh ++ [b],
          cache := Function.update s.cache b (some ⟨fun _ => 0, true⟩) } := by
        unfold logWrite
        have hlen := hf.length
        have hout := hf.outstanding
        rw [if_neg (by rw [logSize]; omega), if_neg (by omega), if_neg hnew]
      have hstep : Xv6.logStep s (.write b fun _ => 0) = some { s with
          log.lh := s.log.lh ++ [b],
          cache := Function.update s.cache b (some ⟨fun _ => 0, true⟩) } := by
        simp only [Xv6.logStep, hwrite]
        rfl
      refine ⟨_, _, _, hrun.snoc (.write hi hok hstep), hf.mode, hf.layout, hf.outstanding,
        ?_, ?_, ?_⟩
      · show (s.log.lh ++ [b]).length = k + 1
        rw [List.length_append, List.length_singleton, hf.length]
      · have hset := sum_set hi
        rw [logSize]
        omega
      · intro c hc
        have hc : c ∈ s.log.lh ++ [b] := hc
        rcases List.mem_append.mp hc with hc | hc
        · have := hf.below c hc
          omega
        · rw [List.mem_singleton.mp hc]
          show s₀.log.start + s₀.log.size + k < _
          omega

end CS537.Xv6
