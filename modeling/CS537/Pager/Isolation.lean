import CS537.Pager.NewSpaces

/-!
# Pager — every process has its memory to itself

The processes see private memories that know nothing of encryption: a load gives what was
stored, whatever has been encrypted, decrypted, evicted from a queue, copied or freed since,
and whatever the other processes have done.
-/

namespace CS537.Pager

open MachineInt

variable {k k' : Kernel} {s : Slot} {p : Process} {m : Machine} {va : Nat}

/-! ## One process runs -/

theorem Kernel.Sound.inventoried (h : k.Sound) (hp : k.proc s = some p) :
    (p.machine k.phys).Inventoried := by
  have hnodup := h.nodup
  rw [k.frames_eq s, hp] at hnodup
  have hsplit : (k.phys.freelist : Multiset Nat) + Pager.frames (some p) =
      p.kstack ::ₘ (k.phys.freelist + p.pgdir.frames) := by
    change (k.phys.freelist : Multiset Nat) + p.kstack ::ₘ p.pgdir.frames = _
    rw [Multiset.add_cons]
  have hown := (Multiset.nodup_add.mp hnodup).1
  rw [hsplit] at hown
  exact (Multiset.nodup_cons.mp hown).2

theorem Kernel.Sound.tidy (h : k.Sound) (hp : k.proc s = some p) : Tidy (p.machine k.phys) := by
  have hs := h.procs s p hp
  exact ⟨(h.inventoried hp).separate hs.size fun page hu => (hs.guarded page hu).1, hs.guarded⟩

theorem Kernel.spaces_some (hp : k.proc s = some p) : k.spaces s = some (p.space k.phys) := by
  rw [spaces, hp, Option.map_some]

theorem Kernel.spaces_none (hp : k.proc s = none) : k.spaces s = none := by
  rw [spaces, hp, Option.map_none]

/-- It has done what it did with the free pages and its own. -/
theorem Kernel.Sound.run (h : k.Sound) (hp : k.proc s = some p)
    (hacc : Accounted p.pgdir k.phys m.pgdir m.phys) (hs : (m.process p.kstack).Sound) :
    (k.put s m p.kstack).Sound ∧ (k.put s m p.kstack).spaces =
      Function.update k.spaces s (some ((m.process p.kstack).space m.phys)) := by
  refine @Kernel.Sound.put k s h (some (m.process p.kstack)) m.phys ?_ ?_ fun f hf => ?_
  · rintro q ⟨⟩
    exact hs
  · rw [hp]
    change (m.phys.freelist : Multiset Nat) + p.kstack ::ₘ m.pgdir.frames ≤
      k.phys.freelist + p.kstack ::ₘ p.pgdir.frames
    rw [Multiset.add_cons, Multiset.add_cons, hacc.frames]
  · rw [hp] at hf
    refine hacc.outside f fun hin => hf ?_
    change f ∈ (k.phys.freelist : Multiset Nat) + p.kstack ::ₘ p.pgdir.frames
    rw [Multiset.add_cons]
    exact Multiset.mem_cons_of_mem hin

/-- It has worked in place. -/
theorem Kernel.Sound.inplace (h : k.Sound) (hp : k.proc s = some p)
    (hin : Inplace (p.machine k.phys) m) :
    (k.put s m p.kstack).Sound ∧ (k.put s m p.kstack).spaces = k.spaces := by
  have hsame : (p.machine k.phys).process p.kstack = p := rfl
  have hs : (m.process p.kstack).Sound := hin.sound (h.procs s p hp)
  obtain ⟨hsound, hspaces⟩ := h.run hp hin.accounted hs
  have hspace : (m.process p.kstack).space m.phys = p.space k.phys := hin.space p.kstack
  rw [hspace, ← Kernel.spaces_some hp, Function.update_eq_self] at hspaces
  exact ⟨hsound, hspaces⟩

/-- A call has failed, and given back what it took. -/
theorem Kernel.Sound.kept (h : k.Sound) (hp : k.proc s = some p) {ph : Phys}
    (ht : Took 0 k.phys ph) :
    (k.put s { p.machine k.phys with phys := ph } p.kstack).Sound ∧
      (k.put s { p.machine k.phys with phys := ph } p.kstack).spaces = k.spaces := by
  have hfree : (ph.freelist : Multiset Nat) = k.phys.freelist := by
    have := ht.frames
    rwa [add_zero] at this
  have hacc : Accounted p.pgdir k.phys p.pgdir ph := by
    refine ⟨by rw [hfree], fun f hf => ht.outside f fun hin => hf ?_⟩
    exact Multiset.mem_add.mpr (.inl (Multiset.mem_coe.mpr hin))
  have hdisj : ∀ f ∈ p.frames, f ∉ k.phys.freelist := by
    intro f hf hin
    have hnodup := h.nodup
    rw [k.frames_eq s, hp] at hnodup
    have hown := (Multiset.nodup_add.mp hnodup).1
    exact Multiset.disjoint_left.mp (Multiset.nodup_add.mp hown).2.2
      (Multiset.mem_coe.mpr hin) hf
  obtain ⟨hsound, hspaces⟩ :=
    @Kernel.Sound.run k s p { p.machine k.phys with phys := ph } h hp hacc (h.procs s p hp)
  have hspace : p.space ph = p.space k.phys :=
    Process.space_congr fun f hf => ht.outside f (hdisj f hf)
  refine ⟨hsound, hspaces.trans ?_⟩
  change Function.update k.spaces s (some (p.space ph)) = k.spaces
  rw [hspace, ← Kernel.spaces_some hp, Function.update_eq_self]

/-- A process is made of free pages. -/
theorem Kernel.Sound.made (h : k.Sound) (hnone : k.proc s = none) {q : Process} {ph : Phys}
    (ht : Took q.frames k.phys ph) (hq : q.Sound) :
    Kernel.Sound ⟨ph, Function.update k.proc s (some q)⟩ ∧
      Kernel.spaces ⟨ph, Function.update k.proc s (some q)⟩ =
        Function.update k.spaces s (some (q.space ph)) := by
  refine @Kernel.Sound.put k s h (some q) ph ?_ ?_ fun f hf => ht.outside f fun hin => hf ?_
  · rintro q' ⟨⟩
    exact hq
  · rw [hnone]
    exact le_of_eq (ht.frames.trans (add_zero _).symm)
  · exact Multiset.mem_add.mpr (.inl (Multiset.mem_coe.mpr hin))

/-! ## Loads and stores -/

/-- The page of an address that can be touched. -/
theorem Tidy.touchable (h : Tidy m) (ht : m.pgdir.Touchable va) :
    ppn va < kernPage ∧ (m.pgdir.pageFrame (ppn va)).isSome ∧
      content m.pgdir m.phys (ppn va) = m.phys.mem (m.pgdir.pte (ppn va)).frame := by
  obtain ⟨hlt, hplain⟩ := h.guarded _ ht.user
  have hm : (m.pgdir.pte (ppn va)).mapped = true := by simp [Pte.mapped, ht.present]
  refine ⟨hlt, PgDir.pageFrame_isSome.mpr ⟨ht.table, hm⟩, ?_⟩
  rw [content, if_neg]
  rw [hplain ht.present]
  decide

theorem Machine.touch_inplace (m : Machine) (va : Nat) : Inplace m (m.touch va) :=
  .setRef m (ppn va) true

theorem PgDir.Touchable.touch (h : m.pgdir.Touchable va) : (m.touch va).pgdir.Touchable va := by
  have hpte : (m.touch va).pgdir.pte (ppn va) = { m.pgdir.pte (ppn va) with a := true } :=
    (PgDir.set_pte _ _ _ _).trans (if_pos rfl)
  exact ⟨h.address, h.table, by rw [hpte]; exact h.present, by rw [hpte]; exact h.user⟩

/-- The frame of the page is written to, at the offset. -/
theorem Machine.poke_mem (m : Machine) (va : Nat) (b : UInt8) :
    (m.poke va b).phys.mem = Function.update m.phys.mem (m.pgdir.pte (ppn va)).frame
      (Function.update (m.phys.mem (m.pgdir.pte (ppn va)).frame) (va % 4096) b) := by
  change Function.update m.phys.mem _ _ = _
  congr 1
  funext i
  rw [Function.update_apply]
  rcases lt_trichotomy i (va % 4096) with hlt | rfl | hgt
  · rw [if_neg (by omega), if_neg (by omega)]
  · rw [if_pos (Nat.le_refl _), if_pos rfl, Nat.sub_self]
    rfl
  · rw [if_pos (by omega), if_neg (by omega), List.getD_eq_getElem?_getD,
      List.getElem?_eq_none (by simp only [List.length_cons, List.length_nil]; omega)]
    rfl

theorem Tidy.poke_view (h : Tidy m) (ht : m.pgdir.Touchable va) (b : UInt8) :
    view m.pgdir (m.poke va b).phys = Function.update (view m.pgdir m.phys) (ppn va)
      (some (PrivateMemory.Page.store
        ⟨(m.pgdir.pte (ppn va)).u, fun i => content m.pgdir m.phys (ppn va) i⟩
        (pageOff va) b)) := by
  obtain ⟨hlt, hm, hcontent⟩ := h.touchable ht
  funext page
  rw [Function.update_apply]
  split
  · rename_i heq
    subst heq
    rw [view_some hlt hm, PrivateMemory.Page.store]
    congr 2
    funext i
    have hplain := (h.guarded _ ht.user).2 ht.present
    rw [content, if_neg (by rw [hplain]; decide), Machine.poke_mem, Function.update_self,
      hcontent, Function.update_apply, Function.update_apply]
    have hoff : (i : Nat) = va % 4096 ↔ i = pageOff va :=
      ⟨fun h => Fin.ext h, fun h => congrArg Fin.val h⟩
    simp only [hoff]
  · rename_i hne
    refine view_congr (fun _ => rfl) fun hp _ => ⟨rfl, ?_⟩
    have hpage : m.pgdir.UserMapped (ppn va) := PgDir.userMapped_of_pageFrame hlt hm
    have hframe : (m.pgdir.pte page).frame ≠ (m.pgdir.pte (ppn va)).frame :=
      fun heq => hne (h.separate.distinct _ _ hp hpage heq)
    rw [content, content, Machine.poke_mem, Function.update_of_ne hframe]

theorem Tidy.poke_accounted (h : Tidy m) (ht : m.pgdir.Touchable va) (b : UInt8) :
    Accounted m.pgdir m.phys m.pgdir (m.poke va b).phys := by
  obtain ⟨hlt, hm, _⟩ := h.touchable ht
  refine ⟨rfl, fun f hf => ?_⟩
  rw [Machine.poke_mem]
  apply Function.update_of_ne
  rintro rfl
  exact hf (Multiset.mem_add.mpr (.inr (PgDir.mem_frames hlt hm)))

/-! ## Steps -/

theorem Kernel.Sound.load_step (h : k.Sound) (hp : k.proc s = some p)
    (ht : p.pgdir.Touchable va) :
    PrivateMemory.Step SbrkTo k.spaces (.load s (ppn va) (pageOff va)
      (k.phys.mem (p.pgdir.pte (ppn va)).frame (va % 4096))) k.spaces := by
  obtain ⟨hlt, hm, hcontent⟩ := (h.tidy hp).touchable ht
  have hpage : (p.space k.phys).page (ppn va) = some ⟨(p.pgdir.pte (ppn va)).u,
      fun i => content p.pgdir k.phys (ppn va) i⟩ := view_some hlt hm
  have hbyte : k.phys.mem (p.pgdir.pte (ppn va)).frame (va % 4096) =
      content p.pgdir k.phys (ppn va) (pageOff va) := congrFun hcontent.symm _
  rw [hbyte]
  exact .load (Kernel.spaces_some hp) hpage ht.user

theorem Kernel.Sound.store_step (h : k.Sound) (hp : k.proc s = some p)
    (ht : p.pgdir.Touchable va) (b : UInt8) :
    (k.put s (((p.machine k.phys).touch va).poke va b) p.kstack).Sound ∧
      PrivateMemory.Step SbrkTo k.spaces (.store s (ppn va) (pageOff va) b)
        (k.put s (((p.machine k.phys).touch va).poke va b) p.kstack).spaces := by
  have htidy := h.tidy hp
  have hin := (p.machine k.phys).touch_inplace va
  have htidy' := hin.tidy htidy
  have ht' : ((p.machine k.phys).touch va).pgdir.Touchable va :=
    @PgDir.Touchable.touch (p.machine k.phys) va ht
  have hacc := hin.accounted.trans (htidy'.poke_accounted ht' b)
  have hs := hin.sound (h.procs s p hp)
  obtain ⟨hsound, hspaces⟩ :=
    @Kernel.Sound.run k s p (((p.machine k.phys).touch va).poke va b) h hp hacc hs
  obtain ⟨hlt, hm, _⟩ := htidy'.touchable ht'
  refine ⟨hsound, ?_⟩
  rw [hspaces]
  have hpage : (p.space k.phys).page (ppn va) =
      some ⟨(((p.machine k.phys).touch va).pgdir.pte (ppn va)).u,
        fun i => content ((p.machine k.phys).touch va).pgdir k.phys (ppn va) i⟩ := by
    change view (p.machine k.phys).pgdir (p.machine k.phys).phys (ppn va) = _
    rw [← hin.view]
    exact view_some hlt hm
  have hafter : ((((p.machine k.phys).touch va).poke va b).process p.kstack).space
      (((p.machine k.phys).touch va).poke va b).phys =
        (p.space k.phys).setPage (ppn va) (PrivateMemory.Page.store
          ⟨(((p.machine k.phys).touch va).pgdir.pte (ppn va)).u,
            fun i => content ((p.machine k.phys).touch va).pgdir k.phys (ppn va) i⟩
          (pageOff va) b) := by
    change (⟨p.sz, view ((p.machine k.phys).touch va).pgdir
      (((p.machine k.phys).touch va).poke va b).phys⟩ :
        PrivateMemory.Space (Fin 4096) UInt8) = ⟨p.sz, Function.update _ _ _⟩
    rw [htidy'.poke_view ht', hin.view]
    rfl
  rw [hafter]
  exact .store (Kernel.spaces_some hp) hpage ht'.user

/-- The child starts with a copy. -/
theorem Kernel.Sound.fork_step (h : k.Sound) (hp : k.proc s = some p) {child : Slot}
    (hnone : k.proc child = none) {kstack name : Nat} {rest : List Nat} {d : PgDir} {ph : Phys}
    (hfree : k.phys.freelist = kstack :: rest)
    (hcopy : copyuvm p.pgdir p.sz { k.phys with freelist := rest } = .ok (some d, ph)) :
    let c := ((p.machine k.phys).childOf d ph name).process kstack
    Kernel.Sound ⟨ph, Function.update k.proc child (some c)⟩ ∧
      PrivateMemory.Step SbrkTo k.spaces (.copy s child)
        (Kernel.spaces ⟨ph, Function.update k.proc child (some c)⟩) := by
  intro c
  have hs := h.procs s p hp
  have htidy := h.tidy hp
  have htook : Took c.frames k.phys ph := (copyuvm_took hs.size hcopy).kalloc hfree
  have hc : c.Sound := by
    exact ⟨hs.size, copyuvm_covers hs.size hcopy,
      (copyuvm_copyOf hs.size hcopy).guarded hs.size hs.guarded⟩
  obtain ⟨hsound, hspaces⟩ := h.made hnone htook hc
  refine ⟨hsound, ?_⟩
  have hnodup : (kstack :: rest).Nodup := hfree ▸ htidy.separate.nodup
  have hapart : ∀ f ∈ rest, ¬ UserFrame p.pgdir f := by
    rintro f hf ⟨page, hpage, rfl⟩
    have hnot : (p.pgdir.pte page).frame ∉ k.phys.freelist := htidy.separate.free page hpage
    rw [hfree] at hnot
    exact hnot (List.mem_cons_of_mem _ hf)
  have hview := copyuvm_view hs.size hs.covers (List.nodup_cons.mp hnodup).2 hapart hcopy
  have hspace : c.space ph = p.space k.phys := by
    change (⟨p.sz, view d ph⟩ : PrivateMemory.Space (Fin 4096) UInt8) = ⟨p.sz, view p.pgdir k.phys⟩
    rw [hview]
    rfl
  rw [hspaces, hspace]
  exact .copy (Kernel.spaces_some hp) (Kernel.spaces_none hnone)

/-- `wait` takes all the pages of the process back. -/
theorem Kernel.Sound.wait_step (h : k.Sound) (hp : k.proc s = some p) {ph ph' : Phys}
    (hstack : kfree p.kstack k.phys = .ok ph) (hfree : freevm p.pgdir ph = .ok ph') :
    Kernel.Sound ⟨ph', Function.update k.proc s none⟩ ∧
      PrivateMemory.Step SbrkTo k.spaces (.put s none)
        (Kernel.spaces ⟨ph', Function.update k.proc s none⟩) := by
  obtain ⟨hsound, hspaces⟩ := @Kernel.Sound.put k s h none ph' (fun q hq => by cases hq) (by
    rw [hp]
    change (ph'.freelist : Multiset Nat) + 0 ≤ k.phys.freelist + p.kstack ::ₘ p.pgdir.frames
    rw [add_zero, freevm_frames hfree, kfree_freelist hstack, ← Multiset.cons_coe,
      Multiset.cons_add, ← Multiset.add_cons]) fun f hf => by
    rw [hp] at hf
    have hno : f ∉ (k.phys.freelist : Multiset Nat) + p.kstack ::ₘ p.pgdir.frames := hf
    rw [Multiset.mem_add, Multiset.mem_cons, not_or, not_or] at hno
    exact (freevm_outside hno.2.2 hfree).trans (kfree_mem hstack hno.2.1)
  refine ⟨hsound, ?_⟩
  rw [hspaces]
  exact .put

/-- Each event of the kernel is an event of the private memories, or nothing. -/
theorem KernelStep.refines (h : k.Sound) {e : KernelEvent} (hstep : KernelStep k e k') :
    k'.Sound ∧ Lts.Run (PrivateMemory.Step SbrkTo) k.spaces e.shown.toList k'.spaces := by
  cases hstep with
  | @userinit init kstack rest d d' ph ph' hnone hfree hsetup hinit hpage =>
      have hnodup : (kstack :: rest).Nodup :=
        hfree ▸ Multiset.coe_nodup.mp (Multiset.nodup_add.mp h.nodup).1
      obtain ⟨htook, hcov, hguarded, hview⟩ :=
        inituvm_loaded (List.nodup_cons.mp hnodup).2 hsetup hinit hpage
      have hsize : pgsize ≤ kernbase := by decide
      have hs : (initProcess d' kstack).Sound := ⟨hsize, hcov, hguarded⟩
      have hmade : Took (initProcess d' kstack).frames k.phys ph' := htook.kalloc hfree
      obtain ⟨hsound, hspaces⟩ := h.made (hnone 0) hmade hs
      have hspace : (initProcess d' kstack).space ph' = initSpace init := by
        change (⟨pgsize, view d' ph'⟩ : PrivateMemory.Space (Fin 4096) UInt8) = _
        rw [hview]
        rfl
      refine ⟨hsound, ?_⟩
      rw [hspaces, hspace]
      exact .single .put
  | @load s p va hp ht =>
      have hin := (p.machine k.phys).touch_inplace va
      obtain ⟨hsound, hspaces⟩ := h.inplace hp hin
      rw [hspaces]
      exact ⟨hsound, .single (h.load_step hp ht)⟩
  | store hp ht _ =>
      obtain ⟨hsound, hstep⟩ := h.store_step hp ht _
      exact ⟨hsound, .single hstep⟩
  | fault hp _ _ _ hok =>
      obtain ⟨hsound, hspaces⟩ := h.inplace hp ((h.tidy hp).mdecrypt hok)
      rw [hspaces]
      exact ⟨hsound, .nil _⟩
  | mencrypt hp _ _ hok =>
      obtain ⟨hsound, hspaces⟩ := h.inplace hp ((h.tidy hp).sysMencrypt hok)
      rw [hspaces]
      exact ⟨hsound, .nil _⟩
  | @sbrk s p n r m hp hn hok =>
      have htidy := h.tidy hp
      obtain ⟨hsbrk, hs⟩ := htidy.growproc_space (h.procs s p hp).covers hn hok p.kstack
      obtain ⟨hsound, hspaces⟩ := h.run hp (htidy.growproc hok).1 hs
      refine ⟨hsound, ?_⟩
      rw [hspaces]
      exact .single (.resize (Kernel.spaces_some hp) hsbrk)
  | @nofork s p pid r name m hp hok =>
      cases fork_spec hok with
      | refused =>
          obtain ⟨hsound, hspaces⟩ := h.kept hp (.refl _)
          exact ⟨hsound, hspaces.symm ▸ .nil _⟩
      | failed hfree hcopy hkfree =>
          have htook : Took (_ ::ₘ 0) k.phys _ :=
            (copyuvm_took (h.procs s p hp).size hcopy).kalloc hfree
          obtain ⟨hsound, hspaces⟩ := h.kept hp (htook.kfree hkfree)
          exact ⟨hsound, hspaces.symm ▸ .nil _⟩
  | @fork s child p pid r name kstack rest m c hp hunused hfree hok =>
      have hnone : k.proc child = none := by
        simpa using findSlot_some hunused
      cases fork_spec hok with
      | @child _ kstack' rest' d ph hpid hfree' hcopy =>
          obtain ⟨rfl, rfl⟩ := List.cons.inj (hfree.symm.trans hfree')
          obtain ⟨hsound, hstep⟩ := @Kernel.Sound.fork_step k s p h hp child hnone _ name _ _ _
            hfree hcopy
          have hput : (k.put s { p.machine k.phys with phys := ph } p.kstack).proc = k.proc := by
            change Function.update k.proc s (some p) = k.proc
            rw [← hp, Function.update_eq_self]
          rw [hput]
          exact ⟨hsound, .single hstep⟩
  | @exec s p ip argv name m hp hok =>
      rcases exec_ends (h.inventoried hp) hok with ⟨hr, _⟩ | ⟨_, ip', hip, hload⟩
      · cases hr
      · cases hip
        have hs : (m.process p.kstack).Sound :=
          ⟨Nat.le_of_lt hload.size, hload.covers, hload.guarded⟩
        obtain ⟨hsound, hspaces⟩ := h.run hp ⟨hload.frames, hload.outside⟩ hs
        have hspace : (m.process p.kstack).space m.phys = imageSpace ip argv m.sz := by
          change (⟨m.sz, view m.pgdir m.phys⟩ : PrivateMemory.Space (Fin 4096) UInt8) = _
          rw [hload.view]
          rfl
        refine ⟨hsound, ?_⟩
        rw [hspaces, hspace]
        exact .single .put
  | @noexec s p file argv name m hp hok =>
      rcases exec_ends (h.inventoried hp) hok with ⟨_, ph, rfl, htook⟩ | ⟨hr, _⟩
      · obtain ⟨hsound, hspaces⟩ := h.kept hp htook
        exact ⟨hsound, hspaces.symm ▸ .nil _⟩
      · cases hr
  | wait hp hstack hfree =>
      obtain ⟨hsound, hstep⟩ := h.wait_step hp hstack hfree
      exact ⟨hsound, .single hstep⟩

/-! ## A run of the kernel -/

/-- A process that has just started stores a byte, encrypts its page and loads the byte. -/
theorem stored_run (hp : k.proc s = some p) (ht : p.pgdir.Touchable 5)
    (hw : (p.pgdir.pte 0).w) (he : (p.pgdir.pte 0).e = false) (hsz : p.sz = pgsize)
    (hindex : p.clockIndex = -1) (hqueue : ∀ i, (p.clockQueue i).vpn = noVpn) :
    ∃ k' b, Lts.Run KernelStep k
      [.store s 5 7, .mencrypt s 0 1, .fault s 5, .load s 5 b] k' := by
  generalize hm₁ : ((p.machine k.phys).touch 5).poke 5 7 = m₁
  have hdir₁ : m₁.pgdir = p.pgdir.set 0 { p.pgdir.pte 0 with a := true } := by
    rw [← hm₁]
    rfl
  have hpte₁ : m₁.pgdir.pte 0 = { p.pgdir.pte 0 with a := true } := by
    rw [hdir₁, PgDir.set_pte, if_pos rfl]
  have ht₁ : m₁.pgdir.hasTable 0 := by
    rw [hdir₁]
    exact ht.table
  have hclear : (m₁.pgdir.pte 0).clear = true := by
    have hpresent : (p.pgdir.pte 0).p = true := ht.present
    have huser : (p.pgdir.pte 0).u = true := ht.user
    simp [hpte₁, Pte.clear, Pte.mapped, hpresent, huser, he]
  have hstore : KernelStep k (.store s 5 7) (k.put s m₁ p.kstack) := hm₁ ▸ .store hp ht hw
  generalize hm₂ : m₁.encryptAt 0 = m₂
  have hpte₂ : m₂.pgdir.pte 0 = { m₁.pgdir.pte 0 with p := false, e := true } := by
    rw [← hm₂, Machine.encryptAt_pte, if_pos rfl, Pte.encrypted, if_pos hclear]
  have henc : sysMencrypt 0 1 m₁ = .ok (0, m₂) := by
    have hsz₁ : m₁.sz = 4096 := by
      rw [← hm₁]
      exact hsz
    rw [sysMencrypt, if_neg (by decide), if_neg (by rw [hsz₁]; decide), if_neg (by decide), ← hm₂]
    exact mencrypt_one ht₁
  have hproc₁ : (k.put s m₁ p.kstack).proc s = some (m₁.process p.kstack) :=
    Function.update_self _ _ _
  have hencrypt : KernelStep (k.put s m₁ p.kstack) (.mencrypt s 0 1)
      ((k.put s m₁ p.kstack).put s m₂ p.kstack) :=
    @KernelStep.mencrypt _ s (m₁.process p.kstack) 0 1 0 m₂ hproc₁ (by decide)
      ⟨by decide, by decide⟩ henc
  generalize hm₃ : ((m₂.decryptAt 0).setIndex 0).setSlot 0
    ⟨pgRoundDown 5, some ⟨m₂.pgdir.frame, 0⟩⟩ = m₃
  have hpte₃ : m₃.pgdir.pte 0 = { m₂.pgdir.pte 0 with p := true, e := false } := by
    rw [← hm₃]
    exact (PgDir.set_pte _ _ _ _).trans (if_pos rfl)
  have ht₂ : m₂.pgdir.hasTable 0 := by
    rw [← hm₂, Machine.encryptAt_hasTable]
    exact ht₁
  have ht₃ : m₃.pgdir.hasTable 0 := by
    rw [← hm₃]
    exact ht₂
  have huser : (m₁.pgdir.pte 0).u = true := by
    rw [hpte₁]
    exact ht.user
  have hinsert : insertLoop (pgRoundDown 5) (some ⟨m₂.pgdir.frame, 0⟩) 1 (m₂.decryptAt 0) =
      .ok m₃ := by
    have hidx : (m₂.decryptAt 0).clockIndex = -1 := by
      change m₂.clockIndex = -1
      rw [← hm₂, Machine.encryptAt_clockIndex, ← hm₁]
      exact hindex
    have hslot : ∀ i, ((m₂.decryptAt 0).clockQueue i).vpn = noVpn := by
      intro i
      change (m₂.clockQueue i).vpn = noVpn
      rw [← hm₂, Machine.encryptAt_clockQueue, ← hm₁]
      exact hqueue i
    rw [insertLoop, hidx]
    change (if (((m₂.decryptAt 0).setIndex 0).clockQueue 0).vpn = noVpn then _ else _) = _
    rw [Machine.setIndex_clockQueue, if_pos (hslot 0), ← hm₃]
    rfl
  have hfault : mdecrypt 1 1 5 m₂ = .ok (0, m₃) := by
    have hsealed : (m₂.pgdir.pte (ppn 5)).sealed := by
      change (m₂.pgdir.pte 0).sealed
      simp [hpte₂, Pte.sealed, huser]
    have hagain : (m₃.pgdir.pte (ppn (pgRoundDown 5))).sealed = false := by
      change (m₃.pgdir.pte 0).sealed = false
      simp [hpte₃, Pte.sealed]
    have hppn : ppn 5 = 0 := by decide
    rw [mdecrypt, mdecryptWith_sealed ht₂ hsealed, insertQueue, hppn, hinsert, ok_bind, mdecrypt,
      mdecryptWith_not_sealed ht₃ hagain]
    rfl
  have hproc₂ : ((k.put s m₁ p.kstack).put s m₂ p.kstack).proc s = some (m₂.process p.kstack) :=
    Function.update_self _ _ _
  have hfaults : KernelStep ((k.put s m₁ p.kstack).put s m₂ p.kstack) (.fault s 5)
      (((k.put s m₁ p.kstack).put s m₂ p.kstack).put s m₃ p.kstack) :=
    @KernelStep.fault _ s (m₂.process p.kstack) 5 1 1 m₃ hproc₂ (by decide) ht₂
      (by change (m₂.pgdir.pte 0).p = false; rw [hpte₂]) hfault
  have hproc₃ : (((k.put s m₁ p.kstack).put s m₂ p.kstack).put s m₃ p.kstack).proc s =
      some (m₃.process p.kstack) := Function.update_self _ _ _
  have htouch : m₃.pgdir.Touchable 5 := by
    have hu : (m₃.pgdir.pte 0).u = true := by
      rw [hpte₃, hpte₂]
      exact huser
    exact ⟨by decide, ht₃, by change (m₃.pgdir.pte 0).p; rw [hpte₃], hu⟩
  have hload := @KernelStep.load _ s (m₃.process p.kstack) 5 hproc₃ htouch
  exact ⟨_, _, (((Lts.Run.single hstore).snoc hencrypt).snoc hfaults).snoc hload⟩

/-- It boots. -/
theorem boot_run : ∃ k d ph, KernelStep ⟨.zeroed (List.range' 2000 200), fun _ => none⟩
    (.userinit [204]) k ∧ k = ⟨ph, Function.update (fun _ => none) 0 (some (initProcess d 2000))⟩ ∧
      d.hasTable 0 ∧ (d.pte 0).toFlags = userFlags := by
  obtain ⟨d, ph, hsetup, hle, _⟩ :=
    @setupkvm_ok (.zeroed (List.range' 2001 199)) (by simp [Phys.zeroed])
  have hlen : (Phys.zeroed (List.range' 2001 199)).freelist.length = 199 := by simp [Phys.zeroed]
  rw [hlen] at hle
  obtain ⟨mem, rest, hfree⟩ : ∃ mem rest, ph.freelist = mem :: rest := by
    cases hlist : ph.freelist with
    | nil =>
        rw [hlist, List.length_nil] at hle
        omega
    | cons mem rest => exact ⟨mem, rest, rfl⟩
  rw [hfree, List.length_cons] at hle
  have hnone : ∀ q, ppn 0 ≤ q → q < ppn 0 + (0 + 1) → (d.pte q).mapped = false := by
    intro q _ hq
    rcases setupkvm_pte hsetup q with hz | ⟨hk, _⟩
    · rw [hz]
      rfl
    · have hzero : ppn 0 = 0 := by decide
      have hkern : (524288 : Nat) ≤ q := hk
      omega
  obtain ⟨d', ph', hmap, _⟩ := @mapLoop_ok Flags.user 0 0 (mem * 4096) (by decide) (by decide) d
    (memset mem 0 { ph with freelist := rest }) hnone (by
      have htables : pdx (ppn 0 + 0) - pdx (ppn 0) = 0 := by decide
      rw [htables]
      change _ ≤ rest.length
      split
      · omega
      · omega)
  obtain ⟨d₁, _, ⟨hb, _⟩ | ⟨_, ht, _, hd'⟩⟩ := mapPage_spec hmap
  · cases hb
  have hpte : d'.pte 0 = mapEntry (mem * 4096) Flags.user := by
    rw [hd', PgDir.set_pte, if_pos (by decide)]
  have ht' : d'.hasTable 0 := by
    rw [hd']
    exact ht
  have hinit : inituvm [204] d ph = .ok (d', ph'.write mem 0 [204]) := by
    have hkalloc : kalloc ph = some (mem, { ph with freelist := rest }) := by
      rw [kalloc, hfree]
    rw [inituvm, if_neg (by decide), hkalloc]
    change (mappages 0 pgsize (mem * 4096) Flags.user d _ >>= _) = _
    rw [mappages_page (by decide), hmap]
    rfl
  refine ⟨_, d', _, .userinit (fun _ => rfl) rfl hsetup hinit ?_, rfl, ht', ?_⟩
  · rw [PgDir.pageFrame_isSome, hpte]
    exact ⟨ht', rfl⟩
  · rw [hpte]
    rfl

/-- A run that stores, encrypts and loads. -/
theorem boot_stores : ∃ k b, Lts.Run KernelStep ⟨.zeroed (List.range' 2000 200), fun _ => none⟩
    [.userinit [204], .store 0 5 7, .mencrypt 0 0 1, .fault 0 5, .load 0 5 b] k := by
  obtain ⟨k, d, ph, hboot, rfl, ht, hflags⟩ := boot_run
  have hpte : (d.pte (ppn 5)).toFlags = userFlags := hflags
  have hproc : Kernel.proc ⟨ph, Function.update (fun _ => none) 0 (some (initProcess d 2000))⟩ 0 =
      some (initProcess d 2000) := by
    dsimp only
    rw [Function.update_self]
  obtain ⟨k', b, hrun⟩ := stored_run hproc
    ⟨by decide, ht, congrArg Flags.p hpte, congrArg Flags.u hpte⟩ (congrArg Flags.w hflags)
    (congrArg Flags.e hflags) rfl rfl fun _ => rfl
  exact ⟨k', b, (Lts.Run.single hboot).append hrun⟩

/-! ## Runs -/

theorem boot_sound {ph : Phys} (hnd : ph.freelist.Nodup) : Kernel.Sound ⟨ph, fun _ => none⟩ := by
  refine ⟨?_, fun s p hp => by cases hp⟩
  have hnone : (∑ s : Slot, Pager.frames ((fun _ => none : Slot → Option Process) s)) = 0 :=
    Finset.sum_eq_zero fun _ _ => rfl
  rw [Kernel.frames]
  dsimp only at hnone ⊢
  rw [hnone, add_zero]
  exact Multiset.coe_nodup.mpr hnd

/-- **Private memories**: what processes load and store, in any order and with any page
faults, encryption, `sbrk`, `fork`, `exec` and `wait` in between, is a run of memories that
each process has to itself and that are never encrypted. -/
theorem memories_private {ph : Phys} (hnd : ph.freelist.Nodup) {es : List KernelEvent}
    (hrun : Lts.Run KernelStep ⟨ph, fun _ => none⟩ es k) :
    k.Sound ∧ Lts.Run (PrivateMemory.Step SbrkTo) (fun _ => none)
      (es.filterMap KernelEvent.shown) k.spaces := by
  obtain ⟨M, ⟨hsound, rfl⟩, hprivate⟩ := hrun.simulate
    (R := fun k M => k.Sound ∧ M = k.spaces) (fun k e k' M hk hstep => by
      obtain ⟨hsound, rfl⟩ := hk
      obtain ⟨hsound', hshown⟩ := hstep.refines hsound
      exact ⟨k'.spaces, ⟨hsound', rfl⟩, hshown⟩) ⟨boot_sound hnd, rfl⟩
  exact ⟨hsound, hprivate⟩

theorem memories_private_boot : ∃ k b, Lts.Run (PrivateMemory.Step SbrkTo) (fun _ => none)
    [.put 0 (some (initSpace [204])), .store 0 0 5 7, .load 0 0 5 b] (Kernel.spaces k) := by
  obtain ⟨k, b, hrun⟩ := boot_stores
  exact ⟨k, b, (memories_private List.nodup_range' hrun).2⟩

/-- The event can change what the process has stored at the address. -/
def KernelEvent.Overwrites (s : Slot) (va : Nat) : KernelEvent → Prop
  | .store t a _ => t = s ∧ a = va
  | .sbrk t n => t = s ∧ n < 0
  | .exec t _ _ _ => t = s
  | .wait t => t = s
  | _ => False

theorem pageOff_inj {a b : Nat} (hpage : ppn a = ppn b) (hoff : pageOff a = pageOff b) : a = b := by
  have hmod : a % 4096 = b % 4096 := congrArg Fin.val hoff
  unfold ppn at hpage
  omega

/-- A step keeps the byte that it does not overwrite. -/
theorem KernelStep.keeps (h : k.Sound) {e : KernelEvent} (hstep : KernelStep k e k') {b : UInt8}
    (he : ¬ e.Overwrites s va)
    (hb : PrivateMemory.byteAt k.spaces s (ppn va) (pageOff va) = some b) :
    PrivateMemory.byteAt k'.spaces s (ppn va) (pageOff va) = some b := by
  obtain ⟨_, hrun⟩ := hstep.refines h
  refine PrivateMemory.run_keeps SbrkTo.keeps hrun (fun f hf hno => ?_) hb
  rw [Option.mem_toList] at hf
  cases hstep with
  | userinit hnone _ _ _ _ =>
      -- at boot there is no process that has stored anything
      rw [PrivateMemory.byteAt, Kernel.spaces_none (hnone s)] at hb
      cases hb
  | load _ _ =>
      cases hf
      exact hno
  | store _ _ _ =>
      cases hf
      exact he ⟨hno.1, pageOff_inj hno.2.1 hno.2.2⟩
  | fault _ _ _ _ _ => cases hf
  | mencrypt _ _ _ _ => cases hf
  | sbrk _ _ _ =>
      cases hf
      exact he hno
  | nofork _ _ => cases hf
  | fork _ _ _ _ =>
      cases hf
      exact hno
  | exec _ _ =>
      cases hf
      exact he hno
  | noexec _ _ => cases hf
  | wait _ _ _ =>
      cases hf
      exact he hno

theorem run_sound {es : List KernelEvent} (hrun : Lts.Run KernelStep k es k') (h : k.Sound) :
    k'.Sound :=
  hrun.invariant (fun _ _ _ hs hstep => (hstep.refines hs).1) h

theorem run_keeps {es : List KernelEvent} (hrun : Lts.Run KernelStep k es k') (h : k.Sound)
    {b : UInt8} (hes : ∀ e ∈ es, ¬ e.Overwrites s va)
    (hb : PrivateMemory.byteAt k.spaces s (ppn va) (pageOff va) = some b) :
    PrivateMemory.byteAt k'.spaces s (ppn va) (pageOff va) = some b := by
  induction hrun with
  | nil => exact hb
  | @snoc t u es e hrun hstep ih =>
      have hold := ih fun e he => hes e (List.mem_append_left _ he)
      exact hstep.keeps (run_sound hrun h)
        (hes e (List.mem_append_right _ (List.mem_singleton_self e))) hold

/-- **Loads give what was stored**: after a process has stored a byte, it loads that byte
from the address, unless it has stored there since, has given memory back or has been
replaced by another program, whatever it and the others do otherwise. -/
theorem load_gives_stored {ph : Phys} (hnd : ph.freelist.Nodup) {es₀ es : List KernelEvent}
    {b b' : UInt8} (hes : ∀ e ∈ es, ¬ e.Overwrites s va)
    (hrun : Lts.Run KernelStep ⟨ph, fun _ => none⟩
      (es₀ ++ .store s va b :: (es ++ [.load s va b'])) k) : b' = b := by
  rw [List.append_cons, ← List.append_assoc] at hrun
  obtain ⟨k₃, hrun, hload⟩ := hrun.last
  obtain ⟨k₂, hrun, hmid⟩ := hrun.split
  obtain ⟨k₁, hbefore, hstore⟩ := hrun.last
  have hsound₁ := run_sound hbefore (boot_sound hnd)
  obtain ⟨hsound₂, hstored⟩ := hstore.refines hsound₁
  obtain ⟨_, _, hput⟩ := @Lts.Run.last _ _ _ _ _ [] _ hstored
  have hkept := run_keeps hmid hsound₂ hes hput.stored
  obtain ⟨_, hloaded⟩ := hload.refines (run_sound hmid hsound₂)
  cases hload with
  | load hp ht =>
      have hthere := ((run_sound hmid hsound₂).load_step hp ht).loaded
      exact Option.some.inj (hthere.symm.trans hkept)

theorem load_gives_stored_boot : ∃ k, Lts.Run KernelStep
    ⟨.zeroed (List.range' 2000 200), fun _ => none⟩
    ([.userinit [204]] ++ .store 0 5 7 :: ([.mencrypt 0 0 1, .fault 0 5] ++ [.load 0 5 7])) k := by
  obtain ⟨k, b, hrun⟩ := boot_stores
  have hseven : b = 7 := @load_gives_stored k 0 5 _ List.nodup_range' [.userinit [204]]
    [.mencrypt 0 0 1, .fault 0 5] 7 b (by
      intro e he hover
      simp only [List.mem_cons, List.not_mem_nil, or_false] at he
      rcases he with rfl | rfl
      · exact hover
      · exact hover) hrun
  subst hseven
  exact ⟨k, hrun⟩

end CS537.Pager
