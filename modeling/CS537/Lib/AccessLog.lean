import Mathlib.Data.List.Basic

/-!
# Access logs

The reads and writes of an array, in their order. A log is sound if every access lies in
the array and every read comes after a write of the same place.
-/

namespace AccessLog

/-- An access to a place of the array. -/
inductive Access where
  | read (i : Nat)
  | write (i : Nat)
  deriving DecidableEq, Repr

def Access.index : Access → Nat
  | .read i => i
  | .write i => i

/-- Every access lies below `limit`, and no place is read before it was written. -/
structure Sound (limit : Nat) (log : List Access) : Prop where
  inside : ∀ a ∈ log, a.index < limit
  written : ∀ before i after, log = before ++ .read i :: after → .write i ∈ before

variable {limit i : Nat} {log log' : List Access}

theorem Sound.nil : Sound limit [] where
  inside := fun _ h => absurd h List.not_mem_nil
  written := fun before i after h => by
    have hlen := congrArg List.length h
    rw [List.length_append, List.length_cons, List.length_nil] at hlen
    omega

/-- Another access at the end: a read needs a write before it. -/
theorem Sound.concat {a : Access} (h : Sound limit log) (hin : a.index < limit)
    (hread : ∀ i, a = .read i → .write i ∈ log) : Sound limit (log ++ [a]) where
  inside := by
    intro b hb
    rcases List.mem_append.mp hb with hold | hnew
    · exact h.inside b hold
    · rw [List.mem_singleton.mp hnew]
      exact hin
  written := by
    intro before i after heq
    rcases List.eq_nil_or_concat' after with rfl | ⟨after, b, rfl⟩
    · have hlast := List.append_inj' heq rfl
      rw [← hlast.1]
      exact hread i (List.cons.inj hlast.2).1
    · rw [← List.cons_append, ← List.append_assoc] at heq
      exact h.written before i after (List.append_inj' heq rfl).1

theorem Sound.write (h : Sound limit log) (hin : i < limit) :
    Sound limit (log ++ [.write i]) := by
  refine h.concat hin fun j heq => ?_
  cases heq

theorem Sound.read (h : Sound limit log) (hwritten : .write i ∈ log) :
    Sound limit (log ++ [.read i]) := by
  have hin : i < limit := h.inside (.write i) hwritten
  refine h.concat hin fun j heq => ?_
  cases heq
  exact hwritten

/-- A read at the end of a sound log comes after a write. -/
theorem Sound.last_read (h : Sound limit (log ++ [.read i])) : .write i ∈ log :=
  h.written log i [] rfl

/-- A write at the end of a sound log lies in the array. -/
theorem Sound.last_write (h : Sound limit (log ++ [.write i])) : i < limit :=
  h.inside (.write i) (List.mem_append_right log List.mem_cons_self)

end AccessLog
