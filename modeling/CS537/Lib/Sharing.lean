import Mathlib.Order.Basic
import Mathlib.Logic.Function.Basic

/-!
# Sharing forests

Members of a family each have one resource, which several may share, and a
parent. Nobody counts references. The family is a `Forest` when the members
that share a resource hang together under one of them, the root of the
resource: then a root none of whose children shares its resource is the only
one that has it (`Forest.alone`), a test that looks at parents and children
only.
-/

namespace Sharing

/-- Who is in the family, with their parents and resources. -/
structure Family (ι ρ : Type) where
  alive : ι → Prop
  parent : ι → Option ι
  res : ι → ρ

variable {ι ρ : Type}

/-- A member whose parent, if any, has another resource. -/
def Family.IsRoot (F : Family ι ρ) (q : ι) : Prop :=
  ∀ r, F.parent q = some r → F.res r ≠ F.res q

/-- The members that share a resource form a tree. -/
structure Forest (F : Family ι ρ) : Prop where
  closed : ∀ q r, F.alive q → F.parent q = some r → F.alive r
  ranked : ∃ depth : ι → Nat, ∀ q r, F.alive q → F.parent q = some r → F.res r = F.res q →
    depth r < depth q
  oneRoot : ∀ q q', F.alive q → F.alive q' → F.res q = F.res q' → F.IsRoot q → F.IsRoot q' →
    q = q'

variable {F F' : Family ι ρ}

/-- **Last reference by a local test**: a root whose children all have other
resources is the only member with its resource. -/
theorem Forest.alone (h : Forest F) {p : ι} (hp : F.alive p) (hroot : F.IsRoot p)
    (hleaf : ∀ q, F.alive q → F.parent q = some p → F.res q ≠ F.res p) :
    ∀ q, F.alive q → F.res q = F.res p → q = p := by
  obtain ⟨depth, hdepth⟩ := h.ranked
  -- induction on the depth: the parent of a member below the root is nearer to it
  intro q
  induction hd : depth q using Nat.strongRecOn generalizing q with
  | _ n ih =>
      intro hq hres
      by_cases hqroot : F.IsRoot q
      · exact h.oneRoot q p hq hp hres hqroot hroot
      · obtain ⟨r, hr, hrres⟩ : ∃ r, F.parent q = some r ∧ F.res r = F.res q := by
          simpa [Family.IsRoot] using hqroot
        have hrp := ih (depth r) (hd ▸ hdepth q r hq hr hrres) r rfl (h.closed q r hq hr)
          (hrres.trans hres)
        subst hrp
        exact absurd hres (hleaf q hq hr)

/-- A root stays what it was if its parent and the resources of the two are the same. -/
theorem Family.IsRoot.of_same {q : ι} (hr : F'.IsRoot q) (hparent : F'.parent q = F.parent q)
    (hres : F'.res q = F.res q) (hkept : ∀ r, F.parent q = some r → F'.res r = F.res r) :
    F.IsRoot q := by
  intro r hpar
  rw [← hres, ← hkept r hpar]
  exact hr r (by rw [hparent, hpar])

/-- Nothing the family says about its members changes. -/
theorem Forest.congr (h : Forest F) (halive : ∀ q, F'.alive q ↔ F.alive q)
    (hparent : ∀ q, F.alive q → F'.parent q = F.parent q)
    (hres : ∀ q, F.alive q → F'.res q = F.res q) : Forest F' := by
  obtain ⟨depth, hdepth⟩ := h.ranked
  have hroot : ∀ q, F.alive q → F'.IsRoot q → F.IsRoot q := fun q hq hr =>
    hr.of_same (hparent q hq) (hres q hq) fun r hpar => hres r (h.closed q r hq hpar)
  refine ⟨?_, ⟨depth, ?_⟩, ?_⟩
  · intro q r hq hpar
    rw [halive] at hq ⊢
    rw [hparent q hq] at hpar
    exact h.closed q r hq hpar
  · intro q r hq hpar heq
    rw [halive] at hq
    rw [hparent q hq] at hpar
    rw [hres q hq, hres r (h.closed q r hq hpar)] at heq
    exact hdepth q r hq hpar heq
  · intro q q' hq hq' heq hr hr'
    rw [halive] at hq hq'
    rw [hres q hq, hres q' hq'] at heq
    exact h.oneRoot q q' hq hq' heq (hroot q hq hr) (hroot q' hq' hr')

/-- A member without children leaves. -/
theorem Forest.leave (h : Forest F) {t : ι} (hchildless : ∀ q, F.alive q → F.parent q ≠ some t)
    (halive : ∀ q, F'.alive q ↔ F.alive q ∧ q ≠ t)
    (hparent : ∀ q, F'.alive q → F'.parent q = F.parent q)
    (hres : ∀ q, F'.alive q → F'.res q = F.res q) : Forest F' := by
  have hclosed : ∀ q r, F'.alive q → F.parent q = some r → F'.alive r := by
    intro q r hq hpar
    have hq' := ((halive q).mp hq).1
    refine (halive r).mpr ⟨h.closed q r hq' hpar, ?_⟩
    rintro rfl
    exact hchildless q hq' hpar
  obtain ⟨depth, hdepth⟩ := h.ranked
  have hroot : ∀ q, F'.alive q → F'.IsRoot q → F.IsRoot q := fun q hq hr =>
    hr.of_same (hparent q hq) (hres q hq) fun r hpar => hres r (hclosed q r hq hpar)
  refine ⟨?_, ⟨depth, ?_⟩, ?_⟩
  · intro q r hq hpar
    rw [hparent q hq] at hpar
    exact hclosed q r hq hpar
  · intro q r hq hpar heq
    rw [hparent q hq] at hpar
    rw [hres q hq, hres r (hclosed q r hq hpar)] at heq
    exact hdepth q r ((halive q).mp hq).1 hpar heq
  · intro q q' hq hq' heq hr hr'
    rw [hres q hq, hres q' hq'] at heq
    exact h.oneRoot q q' ((halive q).mp hq).1 ((halive q').mp hq').1 heq (hroot q hq hr)
      (hroot q' hq' hr')

/-- A new member joins under `s`, with the resource of `s` or with one nobody
has. -/
theorem Forest.join (h : Forest F) {n s : ι} (hn : ¬ F.alive n) (hs : F.alive s)
    (halive : ∀ q, F'.alive q ↔ F.alive q ∨ q = n) (hparent : F'.parent n = some s)
    (hnew : F'.res n = F.res s ∨ ∀ q, F.alive q → F.res q ≠ F'.res n)
    (hparents : ∀ q ≠ n, F'.parent q = F.parent q) (hres : ∀ q ≠ n, F'.res q = F.res q) :
    Forest F' := by
  have hne : ∀ q, F.alive q → q ≠ n := fun q hq => by rintro rfl; exact hn hq
  obtain ⟨depth, hdepth⟩ := h.ranked
  have hroot : ∀ q, F.alive q → F'.IsRoot q → F.IsRoot q := fun q hq hr =>
    hr.of_same (hparents q (hne q hq)) (hres q (hne q hq))
      fun r hpar => hres r (hne r (h.closed q r hq hpar))
  -- the new member is a root only with a resource of its own
  have hown : F'.IsRoot n → ∀ q, F.alive q → F.res q ≠ F'.res n := by
    intro hr
    rcases hnew with heq | hfresh
    · exact absurd (by rw [hres s (hne s hs), heq]) (hr s hparent)
    · exact hfresh
  classical
  refine ⟨?_, ⟨fun q => if q = n then depth s + 1 else depth q, ?_⟩, ?_⟩
  · intro q r hq hpar
    rw [halive] at hq ⊢
    by_cases hqn : q = n
    · subst hqn
      rw [hparent] at hpar
      cases hpar
      exact .inl hs
    · rw [hparents q hqn] at hpar
      exact .inl (h.closed q r (hq.resolve_right hqn) hpar)
  · intro q r hq hpar heq
    rw [halive] at hq
    by_cases hqn : q = n
    · subst hqn
      rw [hparent] at hpar
      cases hpar
      simp [hne s hs]
    · have hq' := hq.resolve_right hqn
      rw [hparents q hqn] at hpar
      have hr := h.closed q r hq' hpar
      rw [hres q hqn, hres r (hne r hr)] at heq
      simpa [hqn, hne r hr] using hdepth q r hq' hpar heq
  · intro q q' hq hq' heq hr hr'
    rw [halive] at hq hq'
    rcases hq with hq | rfl <;> rcases hq' with hq' | rfl
    · rw [hres q (hne q hq), hres q' (hne q' hq')] at heq
      exact h.oneRoot q q' hq hq' heq (hroot q hq hr) (hroot q' hq' hr')
    · rw [hres q (hne q hq)] at heq
      exact absurd heq (hown hr' q hq)
    · rw [hres q' (hne q' hq')] at heq
      exact absurd heq.symm (hown hr q' hq')
    · rfl

/-- A member that has its resource for itself changes it for one nobody has. -/
theorem Forest.renew (h : Forest F) {s : ι}
    (halone : ∀ q, F.alive q → F.res q = F.res s → q = s)
    (hfresh : ∀ q, F.alive q → F.res q ≠ F'.res s) (halive : ∀ q, F'.alive q ↔ F.alive q)
    (hparent : ∀ q, F'.parent q = F.parent q) (hres : ∀ q ≠ s, F'.res q = F.res q) :
    Forest F' := by
  obtain ⟨depth, hdepth⟩ := h.ranked
  have hroot : ∀ q ≠ s, F.alive q → F'.IsRoot q → F.IsRoot q := by
    intro q hqs hq hr r hpar heq
    by_cases hrs : r = s
    · subst hrs
      exact hqs (halone q hq heq.symm)
    · refine hr r (by rw [hparent q, hpar]) ?_
      rw [hres r hrs, hres q hqs, heq]
  refine ⟨?_, ⟨depth, ?_⟩, ?_⟩
  · intro q r hq hpar
    rw [halive] at hq ⊢
    rw [hparent] at hpar
    exact h.closed q r hq hpar
  · intro q r hq hpar heq
    rw [halive] at hq
    rw [hparent] at hpar
    have hr := h.closed q r hq hpar
    by_cases hqs : q = s <;> by_cases hrs : r = s
    · subst hqs hrs
      exact hdepth _ _ hq hpar rfl
    · subst hqs
      rw [hres r hrs] at heq
      exact absurd heq (hfresh r hr)
    · subst hrs
      rw [hres q hqs] at heq
      exact absurd heq.symm (hfresh q hq)
    · rw [hres q hqs, hres r hrs] at heq
      exact hdepth q r hq hpar heq
  · intro q q' hq hq' heq hr hr'
    rw [halive] at hq hq'
    by_cases hqs : q = s <;> by_cases hqs' : q' = s
    · rw [hqs, hqs']
    · subst hqs
      rw [hres q' hqs'] at heq
      exact absurd heq.symm (hfresh q' hq')
    · subst hqs'
      rw [hres q hqs] at heq
      exact absurd heq (hfresh q hq)
    · rw [hres q hqs, hres q' hqs'] at heq
      exact h.oneRoot q q' hq hq' heq (hroot q hqs hq hr) (hroot q' hqs' hq' hr')

/-- The children of `s`, none of which shares its resource, go to `i`, a member
without a parent. -/
theorem Forest.adopt (h : Forest F) {s i : ι} (hi : F.alive i) (hiroot : F.parent i = none)
    (hshare : ∀ q, F.alive q → F.parent q = some s → F.res q ≠ F.res s)
    (halive : ∀ q, F'.alive q ↔ F.alive q)
    (hmoved : ∀ q, F.alive q → F.parent q = some s → F'.parent q = some i)
    (hkept : ∀ q, F.alive q → F.parent q ≠ some s → F'.parent q = F.parent q)
    (hres : ∀ q, F.alive q → F'.res q = F.res q) : Forest F' := by
  obtain ⟨depth, hdepth⟩ := h.ranked
  -- an adopted child was the root of its resource and does not share with `i`
  have hother : ∀ q, F.alive q → F.parent q = some s → F.IsRoot q ∧ F.res i ≠ F.res q := by
    intro q hq hpar
    have hroot : F.IsRoot q := by
      intro r hr
      rw [hpar] at hr
      cases hr
      exact (hshare q hq hpar).symm
    refine ⟨hroot, fun heq => ?_⟩
    have : i = q := h.oneRoot i q hi hq heq (fun r hr => by rw [hiroot] at hr; cases hr) hroot
    rw [← this, hiroot] at hpar
    cases hpar
  have hroot : ∀ q, F.alive q → F'.IsRoot q → F.IsRoot q := by
    intro q hq hr
    by_cases hpar : F.parent q = some s
    · exact (hother q hq hpar).1
    · exact hr.of_same (hkept q hq hpar) (hres q hq) fun r hpr => hres r (h.closed q r hq hpr)
  refine ⟨?_, ⟨depth, ?_⟩, ?_⟩
  · intro q r hq hpr
    rw [halive] at hq ⊢
    by_cases hpar : F.parent q = some s
    · rw [hmoved q hq hpar] at hpr
      cases hpr
      exact hi
    · rw [hkept q hq hpar] at hpr
      exact h.closed q r hq hpr
  · intro q r hq hpr heq
    rw [halive] at hq
    by_cases hpar : F.parent q = some s
    · rw [hmoved q hq hpar] at hpr
      cases hpr
      rw [hres q hq, hres i hi] at heq
      exact absurd heq (hother q hq hpar).2
    · rw [hkept q hq hpar] at hpr
      rw [hres q hq, hres r (h.closed q r hq hpr)] at heq
      exact hdepth q r hq hpr heq
  · intro q q' hq hq' heq hr hr'
    rw [halive] at hq hq'
    rw [hres q hq, hres q' hq'] at heq
    exact h.oneRoot q q' hq hq' heq (hroot q hq hr) (hroot q' hq' hr')

end Sharing
