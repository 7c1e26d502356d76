import CS537.Pager.Encryption
import CS537.Pager.Vm
import Mathlib.Logic.Relation

/-!
# Pager — what the functions on page directories can do

Each function of `vm.c` that builds or takes down a page directory does so in
the few kinds of steps of `VmStep`: it hands out a page table, takes a frame from
the allocator, writes a frame it has taken, maps it, or gives one back. What such
a function can do is stated once, as a run of these steps with a bound on the
pages they are about, and facts about its effect follow from what one step can do.
-/

namespace CS537.Pager

open MachineInt

/-! ## Steps -/

/-- A page directory that is worked on, physical memory, and the frames taken from
the allocator that are neither mapped nor given back yet. -/
structure Vm where
  dir : PgDir
  phys : Phys
  held : List Nat

inductive VmEvent where
  | table (page : Nat)
  | alloc
  | fill (frame : Nat)
  | map (page : Nat) (pte : Pte)
  | kmap (page : Nat) (pte : Pte)
  | unmap (page : Nat)
  | release (frame : Nat)

/-- The first page of the kernel. -/
abbrev kernPage : Nat := 524288

/-- One step on a page directory. -/
inductive VmStep : Vm → VmEvent → Vm → Prop
  | table {d : PgDir} {ph : Phys} {held rest : List Nat} {f page : Nat} :
      d.hasTable page = false → ph.freelist = f :: rest →
      VmStep ⟨d, ph, held⟩ (.table page)
        ⟨d.newTable page f, memset f 0 { ph with freelist := rest }, held⟩
  | alloc {d : PgDir} {ph : Phys} {held rest : List Nat} {f : Nat} :
      ph.freelist = f :: rest →
      VmStep ⟨d, ph, held⟩ .alloc ⟨d, { ph with freelist := rest }, f :: held⟩
  | fill {d : PgDir} {ph : Phys} {held : List Nat} {f : Nat} (bytes : Nat → UInt8) :
      f ∈ held →
      VmStep ⟨d, ph, held⟩ (.fill f)
        ⟨d, { ph with mem := Function.update ph.mem f bytes }, held⟩
  | map {d : PgDir} {ph : Phys} {held : List Nat} {page : Nat} {pte : Pte} :
      d.hasTable page → (d.pte page).mapped = false → pte.frame ∈ held →
      VmStep ⟨d, ph, held⟩ (.map page pte) ⟨d.set page pte, ph, held.erase pte.frame⟩
  | kmap {d : PgDir} {ph : Phys} {held : List Nat} {page : Nat} {pte : Pte} :
      d.hasTable page → (d.pte page).mapped = false → kernPage ≤ page → pte.u = false →
      VmStep ⟨d, ph, held⟩ (.kmap page pte) ⟨d.set page pte, ph, held⟩
  | unmap {d : PgDir} {ph ph' : Phys} {held : List Nat} {page : Nat} :
      d.hasTable page → (d.pte page).mapped → kfree (d.pte page).frame ph = .ok ph' →
      VmStep ⟨d, ph, held⟩ (.unmap page) ⟨d.set page Pte.zero, ph', held⟩
  | release {d : PgDir} {ph ph' : Phys} {held : List Nat} {f : Nat} :
      f ∈ held → kfree f ph = .ok ph' →
      VmStep ⟨d, ph, held⟩ (.release f) ⟨d, ph', held.erase f⟩

/-- Steps that are all of a kind. -/
def VmRun (ok : VmEvent → Prop) : Vm → Vm → Prop :=
  Relation.ReflTransGen fun s t => ∃ e, ok e ∧ VmStep s e t

namespace VmRun

variable {ok ok' : VmEvent → Prop} {s t u : Vm}

theorem refl (s : Vm) : VmRun ok s s := Relation.ReflTransGen.refl

theorem trans (h : VmRun ok s t) (h' : VmRun ok t u) : VmRun ok s u :=
  Relation.ReflTransGen.trans h h'

theorem single {e : VmEvent} (hok : ok e) (h : VmStep s e t) : VmRun ok s t :=
  Relation.ReflTransGen.single ⟨e, hok, h⟩

theorem mono (hok : ∀ e, ok e → ok' e) (h : VmRun ok s t) : VmRun ok' s t := by
  refine Relation.ReflTransGen.mono ?_ _ _ h
  intro a b ⟨e, he, hs⟩
  exact ⟨e, hok e he, hs⟩

/-- The invariant rule. -/
theorem invariant {I : Vm → Prop} (hstep : ∀ s e t, ok e → I s → VmStep s e t → I t)
    (h : VmRun ok s t) (hs : I s) : I t := by
  induction h with
  | refl => exact hs
  | tail _ hlast ih =>
      obtain ⟨e, he, hst⟩ := hlast
      exact hstep _ e _ he ih hst

end VmRun

/-! ## The directory after a run -/

theorem PgDir.newTable_pte (d : PgDir) (page f q : Nat) :
    (d.newTable page f).pte q = if pdx q = pdx page then Pte.zero else d.pte q := rfl

theorem PgDir.newTable_hasTable (d : PgDir) (page f q : Nat) :
    (d.newTable page f).hasTable q = (decide (pdx q = pdx page) || d.hasTable q) := by
  by_cases h : pdx q = pdx page
  · simp [hasTable, newTable, h]
  · simp [hasTable, newTable, h]

/-- Pages of one page table have it together. -/
theorem PgDir.hasTable_congr {d : PgDir} {p q : Nat} (h : pdx p = pdx q) :
    d.hasTable p = d.hasTable q := by
  rw [hasTable, hasTable, h]

/-- Where the entries of a directory after some steps come from: `new` are those
that were written, `gone` the pages taken down. -/
structure Evolved (new : Nat → Pte → Prop) (gone : Nat → Prop) (d d' : PgDir) : Prop where
  frame : d'.frame = d.frame
  table : ∀ page, d.hasTable page → d'.hasTable page
  pte : ∀ page, d'.pte page = d.pte page
    ∨ (d'.pte page = Pte.zero ∧ (gone page ∨ d.hasTable page = false))
    ∨ (d'.hasTable page ∧ new page (d'.pte page))

/-- The entries a kind of steps writes, and the pages it takes down. -/
structure Bounded (ok : VmEvent → Prop) (new : Nat → Pte → Prop) (gone : Nat → Prop) :
    Prop where
  map : ∀ page pte, ok (.map page pte) → new page pte
  kmap : ∀ page pte, ok (.kmap page pte) → kernPage ≤ page → pte.u = false → new page pte
  unmap : ∀ page, ok (.unmap page) → gone page

theorem VmRun.evolved {ok : VmEvent → Prop} {new : Nat → Pte → Prop} {gone : Nat → Prop}
    {s t : Vm} (hb : Bounded ok new gone) (h : VmRun ok s t) :
    Evolved new gone s.dir t.dir := by
  refine h.invariant (I := fun t => Evolved new gone s.dir t.dir) ?_
    ⟨rfl, fun _ h => h, fun _ => .inl rfl⟩
  intro a e b hok hev hst
  cases hst with
  | @table d ph held rest f page ht _ =>
      refine ⟨hev.frame, ?_, ?_⟩
      · intro q hq
        rw [PgDir.newTable_hasTable, hev.table q hq, Bool.or_true]
      · intro q
        rw [PgDir.newTable_pte]
        split
        · rename_i hq
          -- an entry of the new table: the page had none before
          refine .inr (.inl ⟨rfl, .inr ?_⟩)
          by_contra hne
          have := hev.table q (by simpa using hne)
          rw [PgDir.hasTable_congr hq, ht] at this
          cases this
        · rw [PgDir.newTable_hasTable]
          refine (hev.pte q).imp id (Or.imp id ?_)
          intro hpair
          obtain ⟨htq, hnew⟩ := hpair
          exact ⟨by simp [show d.hasTable q = true from htq], hnew⟩
  | alloc _ => exact hev
  | fill _ _ => exact hev
  | @map d ph held page pte ht _ _ =>
      refine ⟨hev.frame, hev.table, ?_⟩
      intro q
      rw [PgDir.set_pte]
      split
      · rename_i hq
        rw [hq]
        exact .inr (.inr ⟨ht, hb.map page pte hok⟩)
      · exact hev.pte q
  | @kmap d ph held page pte ht _ hk hu =>
      refine ⟨hev.frame, hev.table, ?_⟩
      intro q
      rw [PgDir.set_pte]
      split
      · rename_i hq
        rw [hq]
        exact .inr (.inr ⟨ht, hb.kmap page pte hok hk hu⟩)
      · exact hev.pte q
  | @unmap d ph ph' held page _ _ _ =>
      refine ⟨hev.frame, hev.table, ?_⟩
      intro q
      rw [PgDir.set_pte]
      split
      · rename_i hq
        rw [hq]
        exact .inr (.inl ⟨rfl, .inl (hb.unmap page hok)⟩)
      · exact hev.pte q
  | release _ _ => exact hev

/-- Steps that hand out no page table leave the tables alone. -/
theorem VmRun.table_eq {ok : VmEvent → Prop} {s t : Vm} (hno : ∀ page, ¬ ok (.table page))
    (h : VmRun ok s t) : t.dir.table = s.dir.table := by
  refine h.invariant (I := fun t => t.dir.table = s.dir.table) ?_ rfl
  intro a e b hok htab hst
  cases hst with
  | table _ _ => exact absurd hok (hno _)
  | alloc _ => exact htab
  | fill _ _ => exact htab
  | map _ _ _ => exact htab
  | kmap _ _ _ _ => exact htab
  | unmap _ _ _ => exact htab
  | release _ _ => exact htab

/-- Only a step that hands out its table gives a page one. -/
theorem VmRun.hasTable_eq {ok : VmEvent → Prop} {q : Nat}
    (hq : ∀ page, ok (.table page) → pdx q ≠ pdx page) {s t : Vm} (h : VmRun ok s t) :
    t.dir.hasTable q = s.dir.hasTable q := by
  refine h.invariant (I := fun t => t.dir.hasTable q = s.dir.hasTable q) ?_ rfl
  intro a e b hok hsame hst
  cases hst with
  | @table d ph held rest f page _ _ =>
      change (d.newTable page f).hasTable q = s.dir.hasTable q
      rw [PgDir.newTable_hasTable, decide_eq_false (hq page hok), Bool.false_or]
      exact hsame
  | alloc _ => exact hsame
  | fill _ _ => exact hsame
  | map _ _ _ => exact hsame
  | kmap _ _ _ _ => exact hsame
  | unmap _ _ _ => exact hsame
  | release _ _ => exact hsame

/-- Steps that give nothing back only take from the free list. -/
theorem VmRun.freelist {ok : VmEvent → Prop} {s t : Vm} (hun : ∀ page, ¬ ok (.unmap page))
    (hre : ∀ f, ¬ ok (.release f)) (h : VmRun ok s t) :
    t.phys.freelist.Sublist s.phys.freelist := by
  refine h.invariant (I := fun t => t.phys.freelist.Sublist s.phys.freelist) ?_ (.refl _)
  intro a e b hok hsub hst
  cases hst with
  | table _ hfree =>
      rw [hfree] at hsub
      exact (List.sublist_cons_self _ _).trans hsub
  | alloc hfree =>
      rw [hfree] at hsub
      exact (List.sublist_cons_self _ _).trans hsub
  | fill _ _ => exact hsub
  | map _ _ _ => exact hsub
  | kmap _ _ _ _ => exact hsub
  | unmap _ _ _ => exact absurd hok (hun _)
  | release _ _ => exact absurd hok (hre _)

/-- The kernel stays where it is. -/
theorem kfree_firstFree {f : Nat} {ph ph' : Phys} (h : kfree f ph = .ok ph') :
    ph'.firstFree = ph.firstFree := by
  unfold kfree at h
  split at h
  · cases h
  · cases h
    rfl

theorem VmRun.firstFree {ok : VmEvent → Prop} {s t : Vm} (h : VmRun ok s t) :
    t.phys.firstFree = s.phys.firstFree := by
  refine h.invariant (I := fun t => t.phys.firstFree = s.phys.firstFree) ?_ rfl
  intro a e b _ hff hst
  cases hst with
  | table _ _ => exact hff
  | alloc _ => exact hff
  | fill _ _ => exact hff
  | map _ _ _ => exact hff
  | kmap _ _ _ _ => exact hff
  | unmap _ _ hfree =>
      rw [kfree_firstFree hfree]
      exact hff
  | release _ hfree =>
      rw [kfree_firstFree hfree]
      exact hff

/-! ## The memory after a run -/

theorem kfree_mem {f g : Nat} {ph ph' : Phys} (h : kfree f ph = .ok ph') (hne : g ≠ f) :
    ph'.mem g = ph.mem g := by
  unfold kfree at h
  split at h
  · cases h
  · cases h
    exact Function.update_of_ne hne _ _

theorem kfree_freelist {f : Nat} {ph ph' : Phys} (h : kfree f ph = .ok ph') :
    ph'.freelist = f :: ph.freelist := by
  unfold kfree at h
  split at h
  · cases h
  · cases h
    rfl

/-- No step of a kind that takes down only pages of `gone` can reach the frames of
`P`. -/
structure Avoids (P : Nat → Prop) (gone : Nat → Prop) (s : Vm) : Prop where
  free : ∀ f ∈ s.phys.freelist, ¬ P f
  held : ∀ f ∈ s.held, ¬ P f
  mapped : ∀ page, gone page → (s.dir.pte page).mapped → ¬ P (s.dir.pte page).frame

/-- Frames out of reach keep their bytes. -/
theorem VmRun.avoids {ok : VmEvent → Prop} {P gone : Nat → Prop} {s t : Vm}
    (hgone : ∀ page, ok (.unmap page) → gone page)
    (hkern : ∀ page pte, ok (.kmap page pte) → kernPage ≤ page → ¬ gone page)
    (h : VmRun ok s t) (hs : Avoids P gone s) :
    Avoids P gone t ∧ ∀ f, P f → t.phys.mem f = s.phys.mem f := by
  refine h.invariant (I := fun t => Avoids P gone t ∧ ∀ f, P f → t.phys.mem f = s.phys.mem f)
    ?_ ⟨hs, fun _ _ => rfl⟩
  intro a e b hok ⟨hav, hmem⟩ hst
  cases hst with
  | @table d ph held rest f page ht hfree =>
      have hf : ¬ P f := hav.free f (by simp [hfree])
      refine ⟨⟨?_, hav.held, ?_⟩, ?_⟩
      · intro g hg
        exact hav.free g (by rw [hfree]; exact List.mem_cons_of_mem _ hg)
      · intro q hq hm
        change ((d.newTable page f).pte q).mapped at hm
        change ¬ P ((d.newTable page f).pte q).frame
        rw [PgDir.newTable_pte] at hm ⊢
        split at hm
        · cases hm
        · rename_i hne
          rw [if_neg hne]
          exact hav.mapped q hq hm
      · intro g hg
        rw [← hmem g hg]
        apply Function.update_of_ne
        intro heq
        exact hf (heq ▸ hg)
  | @alloc d ph held rest f hfree =>
      refine ⟨⟨?_, ?_, hav.mapped⟩, hmem⟩
      · intro g hg
        exact hav.free g (by rw [hfree]; exact List.mem_cons_of_mem _ hg)
      · intro g hg
        rcases List.mem_cons.mp hg with rfl | hg
        · exact hav.free g (by simp [hfree])
        · exact hav.held g hg
  | @fill d ph held f bytes hf =>
      refine ⟨⟨hav.free, hav.held, hav.mapped⟩, ?_⟩
      intro g hg
      rw [← hmem g hg]
      apply Function.update_of_ne
      intro heq
      exact hav.held f hf (heq ▸ hg)
  | @map d ph held page pte _ _ hf =>
      refine ⟨⟨hav.free, fun g hg => hav.held g (List.mem_of_mem_erase hg), ?_⟩, hmem⟩
      intro q hq hm
      change ((d.set page pte).pte q).mapped at hm
      change ¬ P ((d.set page pte).pte q).frame
      rw [PgDir.set_pte] at hm ⊢
      split
      · exact hav.held _ hf
      · rename_i hne
        rw [if_neg hne] at hm
        exact hav.mapped q hq hm
  | @kmap d ph held page pte _ _ hk _ =>
      refine ⟨⟨hav.free, hav.held, ?_⟩, hmem⟩
      intro q hq hm
      change ((d.set page pte).pte q).mapped at hm
      change ¬ P ((d.set page pte).pte q).frame
      rw [PgDir.set_pte] at hm ⊢
      split
      · rename_i heq
        exact absurd (heq ▸ hq) (hkern page pte hok hk)
      · rename_i hne
        rw [if_neg hne] at hm
        exact hav.mapped q hq hm
  | @unmap d ph ph' held page _ hm hfree =>
      have hf := hav.mapped page (hgone page hok) hm
      refine ⟨⟨?_, hav.held, ?_⟩, ?_⟩
      · intro g hg
        rw [kfree_freelist hfree, List.mem_cons] at hg
        rcases hg with rfl | hg
        · exact hf
        · exact hav.free g hg
      · intro q hq hm'
        change ((d.set page Pte.zero).pte q).mapped at hm'
        change ¬ P ((d.set page Pte.zero).pte q).frame
        rw [PgDir.set_pte] at hm' ⊢
        split at hm'
        · cases hm'
        · rename_i hne
          rw [if_neg hne]
          exact hav.mapped q hq hm'
      · intro g hg
        rw [← hmem g hg]
        apply kfree_mem hfree
        intro heq
        exact hf (heq ▸ hg)
  | @release d ph ph' held f hf hfree =>
      refine ⟨⟨?_, fun g hg => hav.held g (List.mem_of_mem_erase hg), hav.mapped⟩, ?_⟩
      · intro g hg
        rw [kfree_freelist hfree, List.mem_cons] at hg
        rcases hg with rfl | hg
        · exact hav.held g hf
        · exact hav.free g hg
      · intro g hg
        rw [← hmem g hg]
        apply kfree_mem hfree
        intro heq
        exact hav.held f hf (heq ▸ hg)

/-- Page tables come from the allocator, so they are out of reach of `P` as well. -/
theorem VmRun.tables {ok : VmEvent → Prop} {P gone : Nat → Prop} {s t : Vm}
    (hgone : ∀ page, ok (.unmap page) → gone page)
    (hkern : ∀ page pte, ok (.kmap page pte) → kernPage ≤ page → ¬ gone page)
    (h : VmRun ok s t) (hs : Avoids P gone s)
    (ht : ∀ i f, s.dir.table i = some f → ¬ P f) :
    ∀ i f, t.dir.table i = some f → ¬ P f := by
  refine (h.invariant
    (I := fun t => Avoids P gone t ∧ ∀ i f, t.dir.table i = some f → ¬ P f) ?_ ⟨hs, ht⟩).2
  intro a e b hok ⟨hav, htab⟩ hst
  refine ⟨((VmRun.single hok hst).avoids hgone hkern hav).1, ?_⟩
  cases hst with
  | @table d ph held rest f page _ hfree =>
      intro i g hg
      change Function.update d.table (pdx page) (some f) i = some g at hg
      rw [Function.update_apply] at hg
      split at hg
      · cases hg
        exact hav.free f (by simp [hfree])
      · exact htab i g hg
  | alloc _ => exact htab
  | fill _ _ => exact htab
  | map _ _ _ => exact htab
  | kmap _ _ _ _ => exact htab
  | unmap _ _ _ => exact htab
  | release _ _ => exact htab

end CS537.Pager
