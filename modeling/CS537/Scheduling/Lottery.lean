import Mathlib.Algebra.Ring.Int.Defs
import CS537.Scheduling.Proc

/-!
# Scheduling — the lottery

`scheduler` sums the tickets in one loop, `hold_lottery` counts them again in
another, and both wrap at 32 bits. The loops agree (`lotteryLoop_winner` ends
at the count `totalTickets` starts from), so the draw finds a winner exactly
when the wrapped total is positive.
-/

namespace CS537.Scheduling

open MachineInt

/-- What one process adds to the pot: its tickets, twice while it is boosted,
and nothing unless it is `RUNNABLE`. -/
def Proc.weight (p : Proc) : Int :=
  if p.state = .runnable then
    if p.boostsleft > 0 then 2 * p.ticket else p.ticket
  else 0

/-- The pot of a list of slots, without wrap-around. -/
def pot (k : Kernel) (ss : List Slot) : Int :=
  (ss.map fun s => (k.proc s).weight).sum

@[simp] theorem pot_nil (k : Kernel) : pot k [] = 0 := rfl

@[simp] theorem pot_cons (k : Kernel) (s : Slot) (ss : List Slot) :
    pot k (s :: ss) = (k.proc s).weight + pot k ss := by
  simp [pot]

theorem weight_of_not_runnable {p : Proc} (h : p.state ≠ .runnable) : p.weight = 0 := by
  simp [Proc.weight, h]

/-- One iteration of either loop adds the weight, wrapped. -/
theorem i32_add_weight (count : Int) {p : Proc} (h : p.state = .runnable) :
    (if p.boostsleft > 0 then i32 (count + i32 (2 * p.ticket)) else i32 (count + p.ticket))
      = i32 (count + p.weight) := by
  by_cases hb : p.boostsleft > 0
  · rw [if_pos hb, Proc.weight, if_pos h, if_pos hb]
    unfold i32; omega
  · rw [if_neg hb, Proc.weight, if_pos h, if_neg hb]

/-- The pot of slots a write does not reach. -/
theorem pot_upd (k : Kernel) {s : Slot} (f : Proc → Proc) {ss : List Slot} (h : s ∉ ss) :
    pot (k.upd s f) ss = pot k ss := by
  induction ss with
  | nil => rfl
  | cons t ts ih =>
      have ht : t ≠ s := fun he => h (by simp [he])
      rw [pot_cons, pot_cons, ih (fun hm => h (by simp [hm])), Kernel.upd_proc, if_neg ht]

theorem pot_rand (k : Kernel) (ss : List Slot) : pot (rand k).2 ss = pot k ss := by
  simp only [pot, rand_proc]

/-- The sum loop of `scheduler` computes the pot modulo `2^32`. -/
theorem totalTickets_eq (k : Kernel) : totalTickets k = i32 (pot k slots) := by
  have hfold : ∀ (ss : List Slot) (total : Int),
      ss.foldl (fun total s =>
        if (k.proc s).state = .runnable then
          if (k.proc s).boostsleft > 0 then i32 (total + i32 (2 * (k.proc s).ticket))
          else i32 (total + (k.proc s).ticket)
        else total) (i32 total) = i32 (total + pot k ss) := by
    intro ss
    induction ss with
    | nil => intro total; simp
    | cons s ss ih =>
        intro total
        rw [List.foldl_cons, pot_cons]
        by_cases hr : (k.proc s).state = .runnable
        · rw [if_pos hr, i32_add_weight _ hr]
          rw [show i32 (i32 total + (k.proc s).weight) = i32 (total + (k.proc s).weight) from by
            unfold i32; omega, ih, Int.add_assoc]
        · rw [if_neg hr, ih, weight_of_not_runnable hr, Int.zero_add]
  have h := hfold slots 0
  rwa [Int.zero_add, show i32 0 = 0 from rfl] at h

/-- Once `ifFound` is set the loop keeps its winner. -/
theorem lotteryLoop_found (w : Nat) (s : Slot) :
    ∀ (ss : List Slot) (count : Int) (k : Kernel),
    (lotteryLoop w ss count (some s) k).1 = some s := by
  intro ss
  induction ss with
  | nil => intro count k; rfl
  | cons t ts ih =>
      intro count k
      rw [lotteryLoop]
      split
      · simpa using ih _ _
      · exact ih _ _

/-- **The draw finds a winner**: if the winning number is below the count the
loop ends with, and not below the count it starts with, the loop meets a
`RUNNABLE` process at which the count passes the number. -/
theorem lotteryLoop_winner (w : Nat) :
    ∀ (ss : List Slot) (count : Int) (k : Kernel), ss.Nodup →
    toU32 count ≤ w → w < toU32 (i32 (count + pot k ss)) → i32 count = count →
    ∃ s, (lotteryLoop w ss count none k).1 = some s ∧ (k.proc s).state = .runnable := by
  intro ss
  induction ss with
  | nil =>
      intro count k _ h1 h2 hc
      rw [pot_nil, Int.add_zero, hc] at h2
      omega
  | cons t ts ih =>
      intro count k hnd h1 h2 hc
      obtain ⟨hmem, hnd'⟩ := List.nodup_cons.mp hnd
      rw [lotteryLoop]
      by_cases hr : (k.proc t).state = .runnable
      · rw [if_pos hr]
        simp only [i32_add_weight count hr, true_and]
        by_cases hw : toU32 (i32 (count + (k.proc t).weight)) > w
        · rw [if_pos hw]
          exact ⟨t, lotteryLoop_found w t _ _ _, hr⟩
        · rw [if_neg hw]
          -- the boost spent at `t` leaves the later slots as they were
          obtain ⟨k', hk'⟩ : ∃ k', k' = (if (k.proc t).boostsleft > 0 then
            k.upd t fun p => { p with boostsleft := i32 (p.boostsleft - 1) } else k) := ⟨_, rfl⟩
          have hpot : pot k' ts = pot k ts := by
            rw [hk']
            split
            · exact pot_upd k _ hmem
            · rfl
          have hstate : ∀ s, (k'.proc s).state = (k.proc s).state := by
            intro s
            rw [hk']
            split
            · rw [Kernel.upd_proc]
              split
              · rename_i heq; subst heq; rfl
              · rfl
            · rfl
          have hend : w < toU32 (i32 (i32 (count + (k.proc t).weight) + pot k' ts)) := by
            rw [pot_cons] at h2
            rw [hpot, show i32 (i32 (count + (k.proc t).weight) + pot k ts)
              = i32 (count + ((k.proc t).weight + pot k ts)) from by unfold i32; omega]
            exact h2
          obtain ⟨s, hs, hrun⟩ := ih (i32 (count + (k.proc t).weight)) k' hnd' (by omega) hend
            (by unfold i32; omega)
          exact ⟨s, by rw [← hk']; exact hs, by rw [← hstate]; exact hrun⟩
      · rw [if_neg hr]
        rw [pot_cons, weight_of_not_runnable hr, Int.zero_add] at h2
        exact ih count k hnd' h1 h2 hc

theorem slots_nodup : slots.Nodup := List.nodup_finRange nproc

/-- With a positive total the draw yields a `RUNNABLE` process. -/
theorem holdLottery_winner {k : Kernel} (h : 0 < totalTickets k) :
    ∃ s, (holdLottery (totalTickets k) k).1 = some s ∧ (k.proc s).state = .runnable := by
  have hbound : totalTickets k < 2147483648 := by
    rw [totalTickets_eq]; exact (i32_bounds _).2
  have hu : toU32 (totalTickets k) = (totalTickets k).toNat := by
    unfold toU32; omega
  rw [holdLottery, if_neg (by omega)]
  have hw : (rand k).1 % toU32 (totalTickets k) < toU32 (totalTickets k) :=
    Nat.mod_lt _ (by omega)
  have hend : (rand k).1 % toU32 (totalTickets k)
      < toU32 (i32 (0 + pot (rand k).2 slots)) := by
    rw [Int.zero_add, pot_rand, ← totalTickets_eq]
    exact hw
  exact lotteryLoop_winner _ slots 0 (rand k).2 slots_nodup (by unfold toU32; omega) hend
    (by unfold i32; omega)

/-- A pass of `scheduler` that switches to a `RUNNABLE` process. -/
def Yields (k : Kernel) : Prop :=
  ∃ s, (schedulerPass k).1 = .run s ∧ (k.proc s).state = .runnable

theorem schedulerPass_of_pos {k : Kernel} (h : 0 < totalTickets k) : Yields k := by
  obtain ⟨s, hs, hrun⟩ := holdLottery_winner h
  refine ⟨s, ?_, hrun⟩
  rw [schedulerPass, if_neg (by omega)]
  generalize holdLottery (totalTickets k) k = r at hs
  obtain ⟨w, k'⟩ := r
  subst hs
  rfl

/-- A total that wrapped below zero ends in the panic of `switchuvm`. -/
theorem schedulerPass_of_neg {k : Kernel} (h : totalTickets k < 0) :
    (schedulerPass k).1 = .panic := by
  rw [schedulerPass, if_neg (by omega), holdLottery, if_pos (by omega)]

theorem schedulerPass_of_zero {k : Kernel} (h : totalTickets k = 0) :
    (schedulerPass k).1 = .idle := by
  rw [schedulerPass, if_pos h]

/-- **When the lottery yields a process**: exactly when the weights of the
`RUNNABLE` processes sum, modulo `2^32`, to a positive `int`. -/
theorem yields_iff (k : Kernel) :
    Yields k ↔ 0 < pot k slots % 4294967296 ∧ pot k slots % 4294967296 < 2147483648 := by
  rw [← i32_pos_iff, ← totalTickets_eq]
  constructor
  · rintro ⟨s, hs, -⟩
    rcases Int.lt_trichotomy (totalTickets k) 0 with hneg | hzero | hpos
    · rw [schedulerPass_of_neg hneg] at hs
      cases hs
    · rw [schedulerPass_of_zero hzero] at hs
      cases hs
    · exact hpos
  · exact schedulerPass_of_pos

/-- Two slots of the boot table with `2^30` tickets each. -/
def heavyTable : Kernel :=
  { boot with
    proc := fun s =>
      if s.val < 2 then
        { Proc.zero with state := .runnable, pid := s.val + 1, ticket := 1073741824 }
      else Proc.zero }

theorem pot_heavyTable : pot heavyTable slots = 2147483648 := by
  decide

/-- Tickets that `sys_settickets` accepts can wrap the total: the pass panics
although two processes are `RUNNABLE`. -/
theorem not_always_yields :
    ¬ ∀ k : Kernel,
      (∀ s, (k.proc s).state ≠ .unused → 0 < (k.proc s).ticket ∧
        (k.proc s).ticket < 2147483648) →
      (∃ s, (k.proc s).state = .runnable) → Yields k := by
  intro h
  obtain ⟨s, hs, -⟩ := h heavyTable (by decide) ⟨0, rfl⟩
  have hneg : totalTickets heavyTable < 0 := by
    rw [totalTickets_eq, pot_heavyTable]; decide
  rw [schedulerPass_of_neg hneg] at hs
  cases hs

end CS537.Scheduling
