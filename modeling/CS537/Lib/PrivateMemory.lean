import CS537.Lib.Lts
import Mathlib.Logic.Function.Basic

/-!
# Private memories

Processes, each with a memory of its own: pages that it can load from and store to, a copy
of them that another process starts with, and nothing that one process does to another's.
How a process changes the size of its memory is a parameter.
-/

namespace PrivateMemory

/-- A page: whether the process may touch it, and its bytes. -/
structure Page (O B : Type) where
  user : Bool
  bytes : O → B

structure Space (O B : Type) where
  size : Nat
  page : Nat → Option (Page O B)

/-- What the processes do. -/
inductive Event (I O B : Type) where
  | load (i : I) (page : Nat) (off : O) (b : B)
  | store (i : I) (page : Nat) (off : O) (b : B)
  | resize (i : I) (n : Int)
  /-- `j` starts with a copy of what `i` has. -/
  | copy (i j : I)
  /-- Another memory, or none. -/
  | put (i : I) (x : Option (Space O B))

variable {I O B : Type} [DecidableEq I] [DecidableEq O]

/-- A store to a page. -/
def Page.store (pg : Page O B) (off : O) (b : B) : Page O B :=
  { pg with bytes := Function.update pg.bytes off b }

/-- A page in place of another. -/
def Space.setPage (x : Space O B) (page : Nat) (pg : Page O B) : Space O B :=
  { x with page := Function.update x.page page (some pg) }

omit [DecidableEq O] in
theorem Space.setPage_page (x : Space O B) (page : Nat) (pg : Page O B) (q : Nat) :
    (x.setPage page pg).page q = if q = page then some pg else x.page q :=
  Function.update_apply ..

/-- One event; `resized n x y` says that a change by `n` can make `y` of `x`. -/
inductive Step (resized : Int → Space O B → Space O B → Prop) :
    (I → Option (Space O B)) → Event I O B → (I → Option (Space O B)) → Prop
  | load {M : I → Option (Space O B)} {i : I} {x : Space O B} {page : Nat} {pg : Page O B}
      {off : O} :
      M i = some x → x.page page = some pg → pg.user →
      Step resized M (.load i page off (pg.bytes off)) M
  | store {M : I → Option (Space O B)} {i : I} {x : Space O B} {page : Nat} {pg : Page O B}
      {off : O} {b : B} :
      M i = some x → x.page page = some pg → pg.user →
      Step resized M (.store i page off b)
        (Function.update M i (some (x.setPage page (pg.store off b))))
  | resize {M : I → Option (Space O B)} {i : I} {x y : Space O B} {n : Int} :
      M i = some x → resized n x y →
      Step resized M (.resize i n) (Function.update M i (some y))
  | copy {M : I → Option (Space O B)} {i j : I} {x : Space O B} :
      M i = some x → M j = none → Step resized M (.copy i j) (Function.update M j (some x))
  | put {M : I → Option (Space O B)} {i : I} {x : Option (Space O B)} :
      Step resized M (.put i x) (Function.update M i x)

/-- The event can change that byte of that process. -/
def Event.Touches (i : I) (page : Nat) (off : O) : Event I O B → Prop
  | .load _ _ _ _ => False
  | .store j page' off' _ => j = i ∧ page' = page ∧ off' = off
  | .resize j n => j = i ∧ n < 0
  | .copy _ _ => False
  | .put j _ => j = i

/-- The byte, if its page is there. -/
def byteAt (M : I → Option (Space O B)) (i : I) (page : Nat) (off : O) : Option B :=
  (M i).bind fun x => (x.page page).map fun pg => pg.bytes off

omit [DecidableEq I] [DecidableEq O] in
theorem byteAt_eq_some {M : I → Option (Space O B)} {i : I} {page : Nat} {off : O} {b : B} :
    byteAt M i page off = some b ↔
      ∃ x pg, M i = some x ∧ x.page page = some pg ∧ pg.bytes off = b := by
  unfold byteAt
  simp only [Option.bind_eq_some_iff, Option.map_eq_some_iff]
  constructor
  · rintro ⟨x, hx, pg, hpg, hb⟩
    exact ⟨x, pg, hx, hpg, hb⟩
  · rintro ⟨x, pg, hx, hpg, hb⟩
    exact ⟨x, hx, pg, hpg, hb⟩

variable {resized : Int → Space O B → Space O B → Prop} {M M' : I → Option (Space O B)}

/-- The frame rule of a step, where a memory that grows keeps its pages. -/
theorem Step.keeps (hgrow : ∀ {n x y page pg}, 0 ≤ n → resized n x y →
      x.page page = some pg → y.page page = some pg)
    {e : Event I O B} (h : Step resized M e M') {i : I} {page : Nat} {off : O} {b : B}
    (he : ¬ e.Touches i page off) (hb : byteAt M i page off = some b) :
    byteAt M' i page off = some b := by
  obtain ⟨z, pz, hz, hpz, hbz⟩ := byteAt_eq_some.mp hb
  cases h with
  | load _ _ _ => exact hb
  | @store j x page' pg off' b' hx hpg _ =>
      by_cases hj : i = j
      · subst hj
        obtain rfl := Option.some.inj (hz.symm.trans hx)
        refine byteAt_eq_some.mpr ⟨_, if page = page' then pg.store off' b' else pz,
          Function.update_self _ _ _, ?_, ?_⟩
        · rw [Space.setPage_page]
          split
          · rfl
          · exact hpz
        · split
          · rename_i hp
            subst hp
            obtain rfl := Option.some.inj (hpz.symm.trans hpg)
            have hoff : off ≠ off' := fun h => he ⟨rfl, rfl, h.symm⟩
            exact (Function.update_of_ne hoff _ _).trans hbz
          · exact hbz
      · exact byteAt_eq_some.mpr ⟨z, pz, (Function.update_of_ne hj _ _).trans hz, hpz, hbz⟩
  | @resize j x y n hx hres =>
      by_cases hj : i = j
      · subst hj
        obtain rfl := Option.some.inj (hz.symm.trans hx)
        have hn : 0 ≤ n := by
          by_contra hneg
          exact he ⟨rfl, by omega⟩
        exact byteAt_eq_some.mpr ⟨y, pz, Function.update_self _ _ _, hgrow hn hres hpz, hbz⟩
      · exact byteAt_eq_some.mpr ⟨z, pz, (Function.update_of_ne hj _ _).trans hz, hpz, hbz⟩
  | copy _ hnone =>
      refine byteAt_eq_some.mpr ⟨z, pz, (Function.update_of_ne ?_ _ _).trans hz, hpz, hbz⟩
      rintro rfl
      rw [hnone] at hz
      cases hz
  | put =>
      exact byteAt_eq_some.mpr
        ⟨z, pz, (Function.update_of_ne (fun h => he h.symm) _ _).trans hz, hpz, hbz⟩

/-- The frame rule of a run. -/
theorem run_keeps (hgrow : ∀ {n x y page pg}, 0 ≤ n → resized n x y →
      x.page page = some pg → y.page page = some pg)
    {es : List (Event I O B)} (h : Lts.Run (Step resized) M es M') {i : I} {page : Nat} {off : O}
    {b : B} (hes : ∀ e ∈ es, ¬ e.Touches i page off) (hb : byteAt M i page off = some b) :
    byteAt M' i page off = some b := by
  induction h with
  | nil => exact hb
  | @snoc t u es e _ hstep ih =>
      have hold := ih fun e he => hes e (List.mem_append_left _ he)
      exact hstep.keeps hgrow (hes e (List.mem_append_right _ (List.mem_singleton_self e))) hold

/-- A store is there. -/
theorem Step.stored {i : I} {page : Nat} {off : O} {b : B}
    (h : Step resized M (.store i page off b) M') : byteAt M' i page off = some b := by
  cases h with
  | @store _ x _ pg _ _ _ _ _ =>
      refine byteAt_eq_some.mpr
        ⟨x.setPage page (pg.store off b), pg.store off b, Function.update_self _ _ _, ?_, ?_⟩
      · exact (Space.setPage_page _ _ _ _).trans (if_pos rfl)
      · exact Function.update_self _ _ _

/-- A load gives what is there. -/
theorem Step.loaded {i : I} {page : Nat} {off : O} {b : B}
    (h : Step resized M (.load i page off b) M') : byteAt M i page off = some b := by
  cases h with
  | load hx hpg _ => exact byteAt_eq_some.mpr ⟨_, _, hx, hpg, rfl⟩

end PrivateMemory
