import CS537.Lib.Shares
import CS537.Scheduling.Lottery

/-!
# Scheduling — everyone gets their tickets

`hold_lottery` counts tickets, spends boosts and looks for the winner in one
scan, and goes on scanning once it has the winner. Without overflow that scan
is `Shares.draw` on the weights at its start, so the numbers that make a
process win are as many as the tickets it weighs, and what the scan leaves
behind does not depend on who won.
-/

namespace CS537.Scheduling

open MachineInt Shares

/-- What `hold_lottery` returns when the winning number is `v`. -/
def selected (k : Kernel) (v : Nat) : Option Slot := (lotteryLoop v slots 0 none k).1

/-- The tickets of a process as a share of the numbers. -/
def Kernel.share (k : Kernel) (s : Slot) : Nat := (k.proc s).weight.toNat

/-- Nobody in the lottery holds less than one ticket. -/
def HoldTickets (k : Kernel) : Prop :=
  ∀ s, (k.proc s).state = .runnable → 1 ≤ (k.proc s).ticket

theorem HoldTickets.weight_nonneg {k : Kernel} (h : HoldTickets k) (s : Slot) :
    0 ≤ (k.proc s).weight := by
  by_cases hr : (k.proc s).state = .runnable
  · have ht := h s hr
    rw [Proc.weight, if_pos hr]
    split <;> omega
  · rw [weight_of_not_runnable hr]

theorem HoldTickets.weight_pos {k : Kernel} (h : HoldTickets k) {s : Slot}
    (hr : (k.proc s).state = .runnable) : 0 < (k.proc s).weight := by
  have ht := h s hr
  rw [Proc.weight, if_pos hr]
  split <;> omega

theorem pot_eq_total {k : Kernel} (h : HoldTickets k) (ss : List Slot) :
    pot k ss = (total k.share ss : Int) := by
  induction ss with
  | nil => rfl
  | cons s ss ih =>
      have hw := h.weight_nonneg s
      rw [pot_cons, total_cons, ih, Kernel.share]
      omega

/-! ## Who wins -/

/-- The two tables agree on what the scan still has to read. -/
def SameWeights (ss : List Slot) (k k' : Kernel) : Prop :=
  ∀ s ∈ ss, (k'.proc s).state = (k.proc s).state ∧ (k'.proc s).weight = (k.proc s).weight

/-- The boost spent at one slot is not read again. -/
theorem SameWeights.spend {k k' : Kernel} {s : Slot} {ss : List Slot} {f : Proc → Proc}
    (h : SameWeights (s :: ss) k k') (hs : s ∉ ss) : SameWeights ss k (k'.upd s f) := by
  intro t ht
  have hts : t ≠ s := fun he => hs (he ▸ ht)
  rw [Kernel.upd_proc, if_neg hts]
  exact h t (by simp [ht])

theorem SameWeights.tail {k k' : Kernel} {s : Slot} {ss : List Slot}
    (h : SameWeights (s :: ss) k k') : SameWeights ss k k' :=
  fun t ht => h t (by simp [ht])

/-- The scan is a proportional draw among the slots it has still to visit. -/
theorem lotteryLoop_draw {k : Kernel} (h : HoldTickets k) (v : Nat) :
    ∀ (ss : List Slot) (count : Nat) (k' : Kernel), ss.Nodup → SameWeights ss k k' →
    count ≤ v → count + total k.share ss < 2147483648 →
    (lotteryLoop v ss count none k').1 = draw k.share ss (v - count) := by
  intro ss
  induction ss with
  | nil => intro count k' _ _ _ _; rfl
  | cons s ss ih =>
      intro count k' hnd hsame hv hbound
      obtain ⟨hs, hnd'⟩ := List.nodup_cons.mp hnd
      obtain ⟨hstate, hweight⟩ := hsame s (by simp)
      rw [total_cons] at hbound
      rw [lotteryLoop, draw]
      by_cases hr : (k.proc s).state = .runnable
      · have hw := h.weight_pos hr
        have hshare : ((k.share s : Nat) : Int) = (k.proc s).weight := by
          rw [Kernel.share]; omega
        -- no overflow: the new count is the old one and the share
        have hcount : i32 ((count : Int) + (k'.proc s).weight) =
            ((count + k.share s : Nat) : Int) := by
          rw [hweight, i32_of_mem (by omega) (by omega)]
          omega
        have hu : toU32 ((count + k.share s : Nat) : Int) = count + k.share s := by
          have hz := @toU32_of_nonneg ((count + k.share s : Nat) : Int) (by omega) (by omega)
          omega
        rw [if_pos (by rw [hstate]; exact hr)]
        simp only [i32_add_weight _ (hstate.trans hr), hcount, hu, true_and]
        by_cases hwin : v < count + k.share s
        · rw [if_pos (show count + k.share s > v from hwin),
            if_pos (show v - count < k.share s by omega)]
          exact lotteryLoop_found _ _ _ _ _
        · rw [if_neg (show ¬ count + k.share s > v from hwin),
            if_neg (show ¬ v - count < k.share s by omega), Nat.sub_sub]
          apply ih (count + k.share s) _ hnd' _ (by omega) (by omega)
          split
          · exact hsame.spend hs
          · exact hsame.tail
      · have hzero : k.share s = 0 := by
          rw [Kernel.share, weight_of_not_runnable hr]; rfl
        rw [if_neg (by rw [hstate]; exact hr), hzero, if_neg (by omega), Nat.sub_zero]
        exact ih count k' hnd' hsame.tail hv (by omega)

/-- The winner of a draw of `v` is the process `v` falls to. -/
theorem selected_eq_draw {k : Kernel} (h : HoldTickets k) (hpot : pot k slots < 2147483648)
    (v : Nat) : selected k v = draw k.share slots v := by
  rw [pot_eq_total h] at hpot
  have hd := lotteryLoop_draw h v slots 0 k slots_nodup (fun _ _ => ⟨rfl, rfl⟩) (by omega)
    (by omega)
  rwa [Nat.sub_zero] at hd

/-! ## What a call leaves behind -/

/-- A process after a lottery it took part in. -/
def Proc.spent (p : Proc) : Proc :=
  if p.state = .runnable ∧ 0 < p.boostsleft then { p with boostsleft := p.boostsleft - 1 } else p

/-- The scan spends one boost of every slot it visits, whoever wins. -/
theorem lotteryLoop_spends (v : Nat) :
    ∀ (ss : List Slot) (count : Int) (winner : Option Slot) (k : Kernel), ss.Nodup →
    (∀ s ∈ ss, i32 (k.proc s).boostsleft = (k.proc s).boostsleft) →
    ∀ t, (lotteryLoop v ss count winner k).2.proc t =
      if t ∈ ss then (k.proc t).spent else k.proc t := by
  intro ss
  induction ss with
  | nil => intro count winner k _ _ t; rfl
  | cons s ss ih =>
      intro count winner k hnd hint t
      obtain ⟨hs, hnd'⟩ := List.nodup_cons.mp hnd
      have hint' : ∀ t ∈ ss, i32 (k.proc t).boostsleft = (k.proc t).boostsleft :=
        fun t ht => hint t (by simp [ht])
      rw [lotteryLoop]
      by_cases hr : (k.proc s).state = .runnable
      · rw [if_pos hr]
        by_cases hb : (k.proc s).boostsleft > 0
        · have hne : ∀ t ∈ ss, t ≠ s := fun t ht he => hs (he ▸ ht)
          have hdec : i32 ((k.proc s).boostsleft - 1) = (k.proc s).boostsleft - 1 := by
            have hrange := i32_bounds (k.proc s).boostsleft
            rw [hint s (by simp)] at hrange
            exact i32_of_mem (by omega) (by omega)
          simp only [hb, if_true]
          rw [ih _ _ _ hnd' (by
            intro u hu
            rw [Kernel.upd_proc, if_neg (hne u hu)]
            exact hint' u hu)]
          by_cases hts : t = s
          · subst hts
            rw [if_neg hs, Kernel.upd_proc, if_pos rfl, if_pos (by simp), Proc.spent,
              if_pos ⟨hr, hb⟩, hdec]
          · rw [Kernel.upd_proc, if_neg hts]
            simp only [List.mem_cons, hts, false_or]
        · simp only [hb, if_false]
          rw [ih _ _ _ hnd' hint']
          by_cases hts : t = s
          · subst hts
            rw [if_neg hs, if_pos (by simp), Proc.spent, if_neg (fun h => hb h.2)]
          · simp only [List.mem_cons, hts, false_or]
      · rw [if_neg hr, ih _ _ _ hnd' hint']
        by_cases hts : t = s
        · subst hts
          rw [if_neg hs, if_pos (by simp), Proc.spent, if_neg (fun h => hr h.1)]
        · simp only [List.mem_cons, hts, false_or]

/-- `rand` does not touch the table. -/
theorem selected_rand (k : Kernel) (h : HoldTickets k) (hpot : pot k slots < 2147483648)
    (v : Nat) : selected (rand k).2 v = selected k v := by
  rw [selected_eq_draw h hpot, selected_eq_draw (k := (rand k).2) h (by rwa [pot_rand])]
  rfl

/-- **Exact shares**: without overflow the total is the pot, a process wins on
as many of the numbers below it as it weighs, nobody else ever wins, and a
call spends exactly one boost of every `RUNNABLE` process that has one. -/
theorem lottery_exact_shares {k : Kernel} (htickets : HoldTickets k)
    (hint : ∀ s, i32 (k.proc s).boostsleft = (k.proc s).boostsleft)
    (hpos : 1 ≤ pot k slots) (hpot : pot k slots < 2147483648) :
    totalTickets k = pot k slots ∧
    (holdLottery (totalTickets k) k).1 = selected k ((rand k).1 % (pot k slots).toNat) ∧
    (∀ s, (k.proc s).state = .runnable →
      (((Finset.range (pot k slots).toNat).filter fun v => selected k v = some s).card : Int) =
        (k.proc s).weight) ∧
    (∀ v s, selected k v = some s → (k.proc s).state = .runnable) ∧
    (∀ v < (pot k slots).toNat, ∃ s, selected k v = some s) ∧
    ∀ s, (holdLottery (totalTickets k) k).2.proc s = (k.proc s).spent := by
  have htotal : totalTickets k = pot k slots := by
    rw [totalTickets_eq]
    exact i32_of_mem (by omega) hpot
  have hnat : (pot k slots).toNat = total k.share slots := by
    rw [pot_eq_total htickets, Int.toNat_natCast]
  have hu : toU32 (pot k slots) = (pot k slots).toNat := by
    have hz := toU32_of_nonneg (show 0 ≤ pot k slots by omega) hpot
    omega
  have hcall : holdLottery (totalTickets k) k =
      lotteryLoop ((rand k).1 % (pot k slots).toNat) slots 0 none (rand k).2 := by
    rw [holdLottery, if_neg (by omega), htotal, hu]
  refine ⟨htotal, ?_, ?_, ?_, ?_, ?_⟩
  · rw [hcall]
    exact selected_rand k htickets hpot _
  · intro s hr
    have hw := htickets.weight_pos hr
    simp only [selected_eq_draw htickets hpot, hnat]
    rw [card_draw k.share slots_nodup s, if_pos (mem_slots s), Kernel.share]
    omega
  · intro v s hs
    rw [selected_eq_draw htickets hpot] at hs
    by_contra hr
    have hshare := (draw_mem hs).2
    rw [Kernel.share, weight_of_not_runnable hr] at hshare
    exact absurd hshare (by decide)
  · intro v hv
    rw [hnat] at hv
    rw [show selected k v = _ from selected_eq_draw htickets hpot v]
    exact draw_of_lt hv
  · intro s
    rw [hcall, lotteryLoop_spends _ slots 0 none (rand k).2 slots_nodup (fun s _ => hint s),
      if_pos (mem_slots s)]
    rfl

/-- Three tickets against one, doubled by a boost. -/
def boostedTable : Kernel :=
  { boot with
    proc := fun s =>
      if s = 0 then { Proc.zero with state := .runnable, pid := 1, ticket := 3 }
      else if s = 1 then
        { Proc.zero with state := .runnable, pid := 2, ticket := 1, boostsleft := 4 }
      else Proc.zero }

theorem lottery_exact_shares_boosted :
    (∀ s, (boostedTable.proc s).state = .runnable → 1 ≤ (boostedTable.proc s).ticket) ∧
    (((Finset.range (pot boostedTable slots).toNat).filter fun v =>
      selected boostedTable v = some 1).card : Int) = 2 := by
  have htickets : HoldTickets boostedTable := by
    unfold HoldTickets; decide
  exact ⟨htickets, (lottery_exact_shares htickets (by decide) (by decide)
    (by decide)).2.2.1 1 (by decide)⟩

end CS537.Scheduling
