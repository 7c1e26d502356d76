import Mathlib.Algebra.Ring.Nat
import Mathlib.Data.List.Nodup
import CS537.Lib.Lts

/-!
# First-in first-out locks

What a fair lock is for: parties join a queue, the party at its head enters,
and a party that entered leaves. Whatever the order of the steps, the parties
enter in the order they joined. A lock implementation is shown fair by
simulating these steps.
-/

namespace FifoLock

open Lts

variable {α : Type}

/-- What a party does. -/
inductive Event (α : Type) where
  | join (a : α)
  | enter (a : α)
  | leave (a : α)
  deriving DecidableEq

/-- The party that has entered and not left, and those that joined and have not
entered, in the order they joined. -/
structure State (α : Type) where
  inside : Option α
  waiting : List α

/-- Everyone that joined and has not left, in the order they joined. -/
def State.queue (s : State α) : List α := s.inside.toList ++ s.waiting

theorem State.mem_queue {s : State α} {a : α} :
    a ∈ s.queue ↔ s.inside = some a ∨ a ∈ s.waiting := by
  rw [State.queue, List.mem_append, Option.mem_toList]

inductive Step : State α → Event α → State α → Prop
  | join {s : State α} {a : α} (ha : a ∉ s.queue) :
      Step s (.join a) { s with waiting := s.waiting ++ [a] }
  | enter {q : List α} {a : α} : Step ⟨none, a :: q⟩ (.enter a) ⟨some a, q⟩
  | leave {q : List α} {a : α} : Step ⟨some a, q⟩ (.leave a) ⟨none, q⟩

/-- Nobody has joined. -/
def State.empty : State α := ⟨none, []⟩

/-- The parties in the order they joined. -/
def joined (es : List (Event α)) : List α :=
  es.filterMap fun
    | .join a => some a
    | _ => none

/-- The parties in the order they entered. -/
def entered (es : List (Event α)) : List α :=
  es.filterMap fun
    | .enter a => some a
    | _ => none

theorem Step.nodup {s t : State α} {e : Event α} (h : Step s e t) (hs : s.queue.Nodup) :
    t.queue.Nodup := by
  cases h with
  | join ha =>
      change (s.inside.toList ++ (s.waiting ++ [_])).Nodup
      rw [← List.append_assoc]
      apply List.Nodup.append hs (List.nodup_singleton _)
      intro b hb hb'
      rw [List.mem_singleton] at hb'
      exact ha (hb' ▸ hb)
  | enter => exact hs
  | leave => exact hs.of_cons

theorem Run.nodup {t : State α} {es : List (Event α)} (h : Run Step State.empty es t) :
    t.queue.Nodup :=
  h.invariant (I := fun s => s.queue.Nodup) (fun _ _ _ hs hstep => hstep.nodup hs)
    List.nodup_nil

/-- The parties that left are those that joined first, and exactly they and the
one inside have entered. -/
theorem Run.history {t : State α} {es : List (Event α)} (h : Run Step State.empty es t) :
    ∃ gone, joined es = gone ++ t.queue ∧ entered es = gone ++ t.inside.toList := by
  induction h with
  | nil => exact ⟨[], rfl, rfl⟩
  | snoc _ hstep ih =>
      obtain ⟨gone, hj, he⟩ := ih
      simp only [joined, entered] at hj he ⊢
      rw [List.filterMap_append, List.filterMap_append, hj, he]
      cases hstep with
      | join ha => exact ⟨gone, by simp [State.queue], by simp⟩
      | enter => exact ⟨gone, by simp [State.queue], by simp⟩
      | @leave q a => exact ⟨gone ++ [a], by simp [State.queue], by simp⟩

/-- The parties enter in the order they joined. -/
theorem Run.fifo {t : State α} {es : List (Event α)} (h : Run Step State.empty es t) :
    entered es <+: joined es := by
  obtain ⟨gone, hj, he⟩ := Run.history h
  rw [hj, he]
  exact (List.prefix_append_right_inj gone).mpr (List.prefix_append _ _)

end FifoLock
