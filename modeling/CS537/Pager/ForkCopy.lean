import CS537.Pager.Conservation
import CS537.Pager.Fork

/-!
# Pager — `fork` copies the state of the pager

The child's pages have the flags and the raw bytes of the parent's in frames that
were free, and its queue names the same pages through the child's own entries.
An entry can be pointed to only where the child has a page table: below `sz`,
rounded up to 4 MiB.
-/

namespace CS537.Pager

open MachineInt

variable {m m' c : Machine}

/-! ## The page tables of a copy -/

/-- A page table covers 4 MiB. -/
theorem pdx_ppn (va : Nat) : pdx (ppn va) = va / 4194304 :=
  Nat.div_div_eq_div_mul va 4096 1024

/-- A copy has page tables for the 4 MiB regions that begin below `sz`. -/
theorem copyuvm_hasTable {pgdir d : PgDir} {sz : Nat} (hsz : sz ≤ kernbase) {ph ph' : Phys}
    (h : copyuvm pgdir sz ph = .ok (some d, ph')) {page : Nat} (hk : page < kernPage) :
    d.hasTable page ↔ pdx page * 4194304 < sz := by
  have hcopy := copyuvm_copyOf hsz h
  constructor
  · intro ht
    by_contra hge
    rcases copyuvm_spec hsz h with ⟨_, _, hd, _⟩ | ⟨d₀, ph₀, d₁, ph₁, b, hsetup, hcop, hend⟩
    · cases hd
    · rcases hend with ⟨hb, hd, _⟩ | ⟨_, hd, _⟩
      · cases hd
        have hlast := (hcop.run.2 hb).hasTable_eq (q := page) (by
          intro p hp heq
          cases hp with
          | table hin =>
              have := hin.2
              unfold pdx at heq hge
              omega)
        rcases setupkvm_run hsetup with ⟨_, hn, _⟩ | ⟨f, rest, d₂, ph₂, _, hrun, hres⟩
        · cases hn
        · have hfirst := hrun.hasTable_eq (q := page) (by
            intro p hp heq
            rcases hp with ⟨p', he, hlo, _⟩ | ⟨_, _, he⟩
            · cases he
              simp only [kernPage] at hk hlo
              unfold pdx at heq
              omega
            · cases he)
          rcases hres with ⟨hd, _⟩ | ⟨hd, _⟩
          · cases hd
            change d.hasTable page = d₀.hasTable page at hlast
            change d₀.hasTable page = (emptyDir f).hasTable page at hfirst
            rw [hlast, hfirst] at ht
            cases ht
          · cases hd
      · cases hd
  · intro hlt
    -- the first page of the region is one of those copied
    have hfirst : d.hasTable (pdx page * 1024) := hcopy.table _ (by omega)
    have hsame : pdx (pdx page * 1024) = pdx page := by
      unfold pdx
      omega
    rw [PgDir.hasTable_congr hsame] at hfirst
    exact hfirst

/-! ## What the child has -/

/-- The pages of `c` below `m.sz` are copies of those of `m`, in frames of their
own. -/
structure SamePages (m c : Machine) : Prop where
  size : c.sz = m.sz
  table : ∀ page, 4096 * page < m.sz → c.pgdir.hasTable page
  flags : ∀ page, 4096 * page < m.sz →
    (c.pgdir.pte page).toFlags = (m.pgdir.pte page).toFlags
  bytes : ∀ page, 4096 * page < m.sz →
    c.phys.mem (c.pgdir.pte page).frame = m.phys.mem (m.pgdir.pte page).frame
  /-- The frame was free. -/
  taken : ∀ page, 4096 * page < m.sz →
    (c.pgdir.pte page).frame ∈ m.phys.freelist ∧ (c.pgdir.pte page).frame ∉ c.phys.freelist
  apart : ∀ p q, 4096 * p < m.sz → 4096 * q < m.sz →
    (c.pgdir.pte p).frame = (c.pgdir.pte q).frame → p = q
  parent : ∀ p q, m.pgdir.UserMapped p → 4096 * q < m.sz →
    (m.pgdir.pte p).frame ≠ (c.pgdir.pte q).frame
  tables : ∀ page, 4096 * page < m.sz →
    (c.pgdir.pte page).frame ≠ c.pgdir.frame
      ∧ ∀ i < npdentries, c.pgdir.table i ≠ some (c.pgdir.pte page).frame

/-- The queue of `c` reads as that of `m`, through the entries of `c`: where `c`
has a page table the slot points to the entry of its page, and elsewhere it has a
null pointer. -/
structure SameQueue (m c : Machine) : Prop where
  index : c.clockIndex = m.clockIndex
  vpn : ∀ i, (c.clockQueue i).vpn = (m.clockQueue i).vpn
  own : ∀ i, (m.clockQueue i).vpn < kernbase →
    (m.clockQueue i).vpn / 4194304 * 4194304 < m.sz →
    (c.clockQueue i).pte = some ⟨c.pgdir.frame, ppn (m.clockQueue i).vpn⟩
  beyond : ∀ i, (m.clockQueue i).vpn < kernbase →
    m.sz ≤ (m.clockQueue i).vpn / 4194304 * 4194304 → (c.clockQueue i).pte = none

/-- The same content under the same `PTE_E` is the same bytes. -/
theorem bytes_of_content {d d' : PgDir} {ph ph' : Phys} {page : Nat}
    (he : (d'.pte page).e = (d.pte page).e)
    (h : content d' ph' page = content d ph page) :
    ph'.mem (d'.pte page).frame = ph.mem (d.pte page).frame := by
  unfold content at h
  rw [he] at h
  split at h
  · funext i
    have hi := congrFun h i
    simpa using hi
  · exact h

theorem pageFrame_eq_some {d : PgDir} {page : Nat} (ht : d.hasTable page)
    (hm : (d.pte page).mapped) : d.pageFrame page = some (d.pte page).frame := by
  simp [PgDir.pageFrame, ht, hm]

/-- The frames of a copy are its own. -/
theorem copyuvm_apart {pgdir d : PgDir} {sz : Nat} (hsz : sz ≤ kernbase) {ph ph' : Phys}
    (hnd : ph.freelist.Nodup) (h : copyuvm pgdir sz ph = .ok (some d, ph')) :
    (∀ page, 4096 * page < sz →
        (d.pte page).frame ∈ ph.freelist ∧ (d.pte page).frame ∉ ph'.freelist)
      ∧ (∀ p q, 4096 * p < sz → 4096 * q < sz →
          (d.pte p).frame = (d.pte q).frame → p = q)
      ∧ ∀ page, 4096 * page < sz → (d.pte page).frame ≠ d.frame
          ∧ ∀ i < npdentries, d.table i ≠ some (d.pte page).frame := by
  have hcopy := copyuvm_copyOf hsz h
  have hall : (ph'.freelist : Multiset Nat) + d.frames = ph.freelist := by
    simpa using copyuvm_frames hsz h
  have hnodup : ((ph'.freelist : Multiset Nat) + d.frames).Nodup := by
    rw [hall]
    exact Multiset.coe_nodup.mpr hnd
  obtain ⟨-, hframes, hdisj⟩ := Multiset.nodup_add.mp hnodup
  obtain ⟨hdir, htp⟩ := Multiset.nodup_cons.mp hframes
  obtain ⟨-, hpages, htabs⟩ := Multiset.nodup_add.mp htp
  have hkern : ∀ page, 4096 * page < sz → page < kernPage := by
    intro page hlt
    simp only [kernbase] at hsz
    change page < 524288
    omega
  have hslot : ∀ page, 4096 * page < sz →
      d.pageFrame page = some (d.pte page).frame := by
    intro page hlt
    apply pageFrame_eq_some (hcopy.table page hlt)
    have hf := hcopy.flags page hlt
    have hm := (hcopy.source page hlt).2
    have hp : (d.pte page).p = (pgdir.pte page).p := congrArg Flags.p hf
    have he : (d.pte page).e = (pgdir.pte page).e := congrArg Flags.e hf
    rw [Pte.mapped, hp, he]
    exact hm
  have hin : ∀ page, 4096 * page < sz → (d.pte page).frame ∈ d.pages :=
    fun page hlt => Inventory.mem_contents.mpr ⟨page, hkern page hlt, hslot page hlt⟩
  have hmem : ∀ page, 4096 * page < sz → (d.pte page).frame ∈ d.frames := by
    intro page hlt
    apply Multiset.mem_cons_of_mem
    exact Multiset.mem_add.mpr (.inr (hin page hlt))
  refine ⟨?_, ?_, ?_⟩
  · intro page hlt
    constructor
    · rw [← Multiset.mem_coe, ← hall, Multiset.mem_add]
      exact .inr (hmem page hlt)
    · intro hfree
      exact Multiset.disjoint_left.mp hdisj (Multiset.mem_coe.mpr hfree) (hmem page hlt)
  · intro p q hp hq heq
    have hq' := hslot q hq
    rw [← heq] at hq'
    exact Inventory.contents_inj hpages (hkern p hp) (hkern q hq) (hslot p hp) hq'
  · intro page hlt
    constructor
    · intro heq
      apply hdir
      rw [← heq]
      exact Multiset.mem_add.mpr (.inr (hin page hlt))
    · intro i hi hti
      exact Multiset.disjoint_left.mp htabs (Inventory.mem_contents.mpr ⟨i, hi, hti⟩)
        (hin page hlt)

/-- Where the slots of the child point. -/
theorem sameQueue_childOf {d : PgDir} {ph ph' : Phys} (hsz : m.sz ≤ kernbase)
    (h : copyuvm m.pgdir m.sz ph = .ok (some d, ph')) (name : Nat) :
    SameQueue m (m.childOf d ph' name) where
  index := rfl
  vpn _ := rfl
  own := by
    intro i hv hlt
    apply walkpgdir_eq_some.mpr
    refine ⟨(copyuvm_hasTable hsz h ?_).mpr ?_, rfl⟩
    · unfold ppn
      simp only [kernbase] at hv
      change _ < 524288
      omega
    · rw [pdx_ppn]
      exact hlt
  beyond := by
    intro i hv hge
    have hno : ¬ d.hasTable (ppn (m.clockQueue i).vpn) := by
      rw [copyuvm_hasTable hsz h (by
        unfold ppn
        simp only [kernbase] at hv
        change _ < 524288
        omega), pdx_ppn]
      exact Nat.not_lt.mpr hge
    change walkpgdir d (m.clockQueue i).vpn = none
    rw [walkpgdir, if_neg hno]

/-! ## A process that shrank -/

/-- With frames for the kernel part, the pages and their tables, `fork` returns a
child. -/
theorem fork_ok {pid : Int} {name : Nat} (hlt : m.sz < kernbase)
    (hsrc : ∀ page, 4096 * page < m.sz → m.pgdir.hasTable page ∧ (m.pgdir.pte page).mapped)
    (hfree : 123 + 2 * (pgRoundUp m.sz / 4096) ≤ m.phys.freelist.length) :
    ∃ c m', fork (some pid) name m = .ok (pid, some c, m') := by
  obtain ⟨kstack, rest, hl⟩ : ∃ kstack rest, m.phys.freelist = kstack :: rest := by
    cases hl : m.phys.freelist with
    | nil =>
        rw [hl, List.length_nil] at hfree
        omega
    | cons kstack rest => exact ⟨kstack, rest, rfl⟩
  rw [hl, List.length_cons] at hfree
  obtain ⟨d, ph, hsetup, hle, _⟩ := @setupkvm_ok { m.phys with freelist := rest }
    (by change 122 ≤ rest.length; omega)
  change rest.length ≤ _ at hle
  have hun : ∀ page, Within 0 m.sz page → (d.pte page).mapped = false := by
    intro page ⟨_, h⟩
    rcases setupkvm_pte hsetup page with hz | ⟨hk, _⟩
    · rw [hz]
      rfl
    · simp only [kernbase] at hlt
      change 524288 ≤ page at hk
      omega
  have hframes := framesFor_le ((pgRoundUp m.sz - 0) / 4096) (ppn 0) d
  obtain ⟨d', ph', hcopy⟩ := @copyLoop_ok m.pgdir m.sz (m.sz / 4096 + 1) 0 hlt rfl (by omega)
    d ph (fun page hin => hsrc page hin.2) hun (by omega)
  have hcopyuvm : copyuvm m.pgdir m.sz { m.phys with freelist := rest }
      = .ok (some d', ph') := by
    simp only [copyuvm, hsetup, ok_bind, hcopy, if_true, pure_eq_ok]
  refine ⟨m.childOf d' ph' name, { m with phys := ph' }, ?_⟩
  simp only [fork, kalloc, hl, hcopyuvm, ok_bind]
  rfl

/-- A process of one page whose slot 0 still names page 1024, whose region it has
given up. -/
def shrunk : Machine where
  phys := .zeroed (List.range' 2000 200)
  pgdir := ⟨1024, fun i => if i = 0 then some 1025 else if i = 1 then some 1027 else none,
    fun page => if page = 0 then ⟨⟨true, true, true, true, false⟩, 1026⟩ else Pte.zero⟩
  sz := 4096
  clockQueue := fun i =>
    if i = 0 then ⟨4194304, some ⟨1024, 1024⟩⟩
    else if i = 1 then ⟨0, some ⟨1024, 0⟩⟩ else ⟨noVpn, none⟩
  clockIndex := 1
  nameTail := 0

theorem shrunk_page {page : Nat} (h : 4096 * page < shrunk.sz) : page = 0 := by
  change 4096 * page < 4096 at h
  omega

theorem shrunk_free {p : Nat} (hp : shrunk.pgdir.UserMapped p) :
    (shrunk.pgdir.pte p).frame ∉ shrunk.phys.freelist := by
  have hzero : p = 0 := by
    by_contra hne
    have hm := hp.mapped
    simp [shrunk, hne, Pte.zero, Flags.none, Pte.mapped] at hm
  subst hzero
  change 1026 ∉ List.range' 2000 200
  simp

theorem shrunk_fork : ∃ c m', fork (some 7) 0 shrunk = .ok (7, some c, m') := by
  apply fork_ok
  · decide
  · intro page h
    rw [shrunk_page h]
    decide
  · change _ ≤ (List.range' 2000 200).length
    rw [List.length_range']
    decide

/-! ## `fork` -/

/-- What `fork` copies, and that it leaves the parent as it was. -/
theorem fork_copies {pid : Option Int} {name : Nat} {r : Int} {child : Option Machine}
    (hsz : m.sz ≤ kernbase) (hnd : m.phys.freelist.Nodup)
    (hfree : ∀ p, m.pgdir.UserMapped p → (m.pgdir.pte p).frame ∉ m.phys.freelist)
    (h : fork pid name m = .ok (r, child, m')) :
    (0 < r → ∃ c, child = some c ∧ SamePages m c ∧ SameQueue m c ∧ c.phys = m'.phys)
      ∧ m' = { m with phys := m'.phys }
      ∧ ∀ page, m.pgdir.UserMapped page →
          m'.phys.mem (m.pgdir.pte page).frame = m.phys.mem (m.pgdir.pte page).frame := by
  have huser : ∀ f ∈ m.phys.freelist, ¬ UserFrame m.pgdir f := by
    intro f hf ⟨page, hp, heq⟩
    exact hfree page hp (heq ▸ hf)
  cases fork_spec h with
  | refused => exact ⟨fun h => absurd h (by decide), rfl, fun _ _ => rfl⟩
  | @failed kstack rest ph ph' hcons hcopy hkf =>
      refine ⟨fun h => absurd h (by decide), rfl, ?_⟩
      intro page hp
      rw [hcons, List.nodup_cons] at hnd
      have hrest : ∀ f ∈ rest, ¬ UserFrame m.pgdir f := by
        intro f hf
        exact huser f (by rw [hcons]; exact List.mem_cons_of_mem _ hf)
      have hne : (m.pgdir.pte page).frame ≠ kstack := by
        intro heq
        exact hfree page hp (by rw [hcons, heq]; exact List.mem_cons_self)
      rw [kfree_mem hkf hne]
      exact (copyuvm_content hsz hnd.2 hrest hcopy).1 _ ⟨page, hp, rfl⟩
  | @child n kstack rest d ph hpid hcons hcopy =>
      have hnd' := hnd
      rw [hcons, List.nodup_cons] at hnd'
      have hrest : ∀ f ∈ rest, ¬ UserFrame m.pgdir f := by
        intro f hf
        exact huser f (by rw [hcons]; exact List.mem_cons_of_mem _ hf)
      obtain ⟨hmem, hcontent⟩ := copyuvm_content hsz hnd'.2 hrest hcopy
      have hof := copyuvm_copyOf hsz hcopy
      obtain ⟨htaken, hinj, htabs⟩ := copyuvm_apart hsz hnd'.2 hcopy
      have hsub : ∀ f ∈ rest, f ∈ m.phys.freelist := by
        intro f hf
        rw [hcons]
        exact List.mem_cons_of_mem _ hf
      refine ⟨fun _ => ⟨_, rfl, ?_, sameQueue_childOf hsz hcopy name, rfl⟩, rfl, ?_⟩
      · constructor
        · rfl
        · exact hof.table
        · exact hof.flags
        · intro page hlt
          exact bytes_of_content (congrArg Flags.e (hof.flags page hlt))
            (hcontent d rfl page hlt)
        · intro page hlt
          exact ⟨hsub _ (htaken page hlt).1, (htaken page hlt).2⟩
        · exact hinj
        · intro p q hp hq heq
          exact hfree p hp (heq ▸ hsub _ (htaken q hq).1)
        · exact htabs
      · intro page hp
        exact hmem _ ⟨page, hp, rfl⟩

theorem fork_copies_shrunk :
    ∃ c m', fork (some 7) 0 shrunk = .ok (7, some c, m')
      ∧ SamePages shrunk c ∧ SameQueue shrunk c := by
  obtain ⟨c, m', hfork⟩ := shrunk_fork
  obtain ⟨hchild, -⟩ := fork_copies (by decide) List.nodup_range' (fun _ => shrunk_free) hfork
  obtain ⟨c', hc', hpages, hqueue, -⟩ := hchild (by decide)
  cases hc'
  exact ⟨c, m', hfork, hpages, hqueue⟩

/-- The child's slot 0 has a null pointer. -/
theorem fork_slot_can_be_null :
    ¬ ∀ (m m' : Machine) (pid : Option Int) (name : Nat) (r : Int) (child : Option Machine),
        m.sz ≤ kernbase → m.phys.freelist.Nodup →
        (∀ p, m.pgdir.UserMapped p → (m.pgdir.pte p).frame ∉ m.phys.freelist) →
        (∀ page, 4096 * page < m.sz → m.pgdir.hasTable page
          ∧ (m.pgdir.pte page).p ≠ (m.pgdir.pte page).e) →
        fork pid name m = .ok (r, child, m') → 0 < r →
        ∃ c, child = some c ∧ ∀ i < clocksize, (m.clockQueue i).vpn ≠ noVpn →
          (c.clockQueue i).pte = some ⟨c.pgdir.frame, ppn (m.clockQueue i).vpn⟩ := by
  intro hall
  obtain ⟨c, m', hfork⟩ := shrunk_fork
  have hnd : shrunk.phys.freelist.Nodup := List.nodup_range'
  have hone : ∀ page, 4096 * page < shrunk.sz → shrunk.pgdir.hasTable page
      ∧ (shrunk.pgdir.pte page).p ≠ (shrunk.pgdir.pte page).e := by
    intro page h
    rw [shrunk_page h]
    decide
  obtain ⟨c', hc', hslots⟩ := hall shrunk m' (some 7) 0 7 (some c) (by decide) hnd
    (fun _ => shrunk_free) hone hfork (by decide)
  cases hc'
  have hslot := hslots 0 (by decide) (by decide)
  cases fork_spec hfork with
  | child _ _ hcopy =>
      have hnull := (sameQueue_childOf (by decide) hcopy 0).beyond 0 (by decide) (by decide)
      rw [hnull] at hslot
      cases hslot

end CS537.Pager
