import CS537.Pager.System

/-!
# Pager — what a process sees

The memory of a process knows nothing of encryption: page faults, `mencrypt` and the queue
work on it in place, so that nothing of them is to be seen.
-/

namespace CS537.Pager

open MachineInt

variable {m m' : Machine}

/-! ## In place -/

/-- An inventory without duplicates keeps the pages separate. -/
theorem Machine.Inventoried.separate (h : m.Inventoried) (hsz : m.sz ≤ kernbase)
    (huser : ∀ page, (m.pgdir.pte page).u → page < kernPage) : Separate m := by
  obtain ⟨hfree, hdir, hdisj⟩ := Multiset.nodup_add.mp h
  have hlt : ∀ {page}, m.pgdir.UserMapped page → page < kernPage := by
    intro page hp
    rcases hp.user with hlt | hu
    · exact hlt
    · exact huser page hu
  have hsome : ∀ {page}, m.pgdir.UserMapped page → (m.pgdir.pageFrame page).isSome :=
    fun hp => PgDir.pageFrame_isSome.mpr ⟨hp.table, hp.mapped⟩
  refine ⟨hsz, fun p q hp hq heq => ?_, Multiset.coe_nodup.mp hfree, fun p hp hin => ?_⟩
  · have hpages := (Multiset.nodup_add.mp (Multiset.nodup_cons.mp hdir).2).2.1
    have hframe := pageFrame_eq_some hq.table hq.mapped
    rw [← heq] at hframe
    exact Inventory.contents_inj hpages (hlt hp) (hlt hq) (pageFrame_eq_some hp.table hp.mapped)
      hframe
  · exact Multiset.disjoint_left.mp hdisj (Multiset.mem_coe.mpr hin)
      (PgDir.mem_frames (hlt hp) (hsome hp))

theorem Recoded.frames (h : Recoded m m') : m'.pgdir.frames = m.pgdir.frames := by
  have hpages : m'.pgdir.pages = m.pgdir.pages :=
    Inventory.contents_congr fun page _ => h.pageFrame page
  have htables : m'.pgdir.tables = m.pgdir.tables := by
    rw [PgDir.tables, h.table, PgDir.tables]
  rw [PgDir.frames, hpages, htables, h.frame, PgDir.frames]

/-- The pages keep their contents, and no frame of another process is written to. -/
structure Inplace (m m' : Machine) : Prop where
  recoded : Recoded m m'
  outside : ∀ f, f ∉ m.pgdir.frames → m'.phys.mem f = m.phys.mem f
  plain : ∀ page, (m.pgdir.pte page).Plain → (m'.pgdir.pte page).Plain

namespace Inplace

theorem refl (m : Machine) : Inplace m m := ⟨.refl m, fun _ _ => rfl, fun _ h => h⟩

theorem trans {m'' : Machine} (h : Inplace m m') (h' : Inplace m' m'') : Inplace m m'' where
  recoded := h.recoded.trans h'.recoded
  outside := by
    intro f hf
    rw [h'.outside f (by rwa [h.recoded.frames]), h.outside f hf]
  plain := fun page hp => h'.plain page (h.plain page hp)

/-- Only the queue or the index changes. -/
theorem of_queue (hp : m'.phys = m.phys) (hd : m'.pgdir = m.pgdir) (hs : m'.sz = m.sz) :
    Inplace m m' :=
  ⟨.of_queue hp hd hs, fun f _ => by rw [hp], fun page h => by rwa [hd]⟩

/-- A reference bit changes. -/
theorem setRef (m : Machine) (page : Nat) (b : Bool) :
    Inplace m (m.setPte page { m.pgdir.pte page with a := b }) := by
  refine ⟨.setRef m page b, fun _ _ => rfl, fun q hq => ?_⟩
  rw [Machine.setPte_pgdir, PgDir.set_pte]
  split
  · rename_i heq
    subst heq
    exact hq
  · exact hq

/-- The bytes of a mapped page are flipped. -/
theorem of_flip {page : Nat} (h : Recoded m m')
    (hmem : m'.phys.mem = (m.phys.flip (m.pgdir.pte page).frame).mem)
    (hplain : ∀ q, (m.pgdir.pte q).Plain → (m'.pgdir.pte q).Plain)
    (hp : m.pgdir.UserMapped page) (hlt : page < kernPage) : Inplace m m' := by
  refine ⟨h, fun f hf => ?_, hplain⟩
  have hne : f ≠ (m.pgdir.pte page).frame := fun heq =>
    hf (heq ▸ PgDir.mem_frames hlt (PgDir.pageFrame_isSome.mpr ⟨hp.table, hp.mapped⟩))
  rw [hmem, Phys.flip_mem, if_neg hne]

theorem accounted (h : Inplace m m') : Accounted m.pgdir m.phys m'.pgdir m'.phys where
  frames := by rw [h.recoded.frames, h.recoded.free]
  outside := fun f hf => h.outside f fun hin => hf (Multiset.mem_add.mpr (.inr hin))

end Inplace

/-- A machine whose pages are separate, and whose process may touch no page of the kernel. -/
structure Tidy (m : Machine) : Prop where
  separate : Separate m
  guarded : m.pgdir.Guarded

theorem Inplace.tidy (h : Inplace m m') (ht : Tidy m) : Tidy m' where
  separate := h.recoded.separate ht.separate
  guarded := by
    intro page hu
    rw [(h.recoded.pte page).2.1] at hu
    obtain ⟨hlt, hplain⟩ := ht.guarded page hu
    exact ⟨hlt, h.plain page hplain⟩

theorem Tidy.encryptAt (h : Tidy m) {page : Nat} (ht : m.pgdir.hasTable page) :
    Inplace m (m.encryptAt page) := by
  have hrec := Recoded.encryptAt h.separate ht
  unfold Machine.encryptAt at hrec ⊢
  split
  · rename_i hc
    rw [if_pos hc] at hrec
    simp only [Pte.clear, Bool.and_eq_true] at hc
    refine .of_flip hrec rfl (fun q hq => ?_) ⟨ht, hc.1.1, .inr hc.1.2⟩ (h.guarded page hc.1.2).1
    rw [Machine.flip_pgdir, Machine.setPte_pgdir, PgDir.set_pte]
    split
    · intro hp
      cases hp
    · exact hq
  · exact .refl m

theorem Tidy.encryptAll (h : Tidy m) {pages : List Nat}
    (ht : ∀ page ∈ pages, m.pgdir.hasTable page) : Inplace m (m.encryptAll pages) := by
  induction pages generalizing m with
  | nil => exact .refl m
  | cons page pages ih =>
      rw [List.forall_mem_cons] at ht
      have hfirst := h.encryptAt ht.1
      rw [Machine.encryptAll_cons]
      refine hfirst.trans (ih (hfirst.tidy h) fun q hq => ?_)
      simpa using ht.2 q hq

theorem Tidy.mencrypt (h : Tidy m) {va : Nat} {len r : Int}
    (hok : mencrypt va len m = .ok (r, m')) : Inplace m m' := by
  obtain ⟨ht, rfl⟩ := mencrypt_spec hok
  exact h.encryptAll ht

theorem Tidy.sysMencrypt (h : Tidy m) {va : Nat} {len r : Int}
    (hok : sysMencrypt va len m = .ok (r, m')) : Inplace m m' := by
  unfold Pager.sysMencrypt at hok
  split at hok
  · cases hok
    exact .refl m
  split at hok
  · cases hok
    exact .refl m
  split at hok
  · cases hok
    exact .refl m
  · exact h.mencrypt hok

theorem Tidy.decryptAt (h : Tidy m) {page : Nat} (ht : m.pgdir.hasTable page)
    (hs : (m.pgdir.pte page).sealed) : Inplace m (m.decryptAt page) := by
  have hrec := Recoded.decryptAt h.separate ht hs
  simp only [Pte.sealed, Bool.and_eq_true, Bool.not_eq_true'] at hs
  obtain ⟨⟨he, -⟩, hu⟩ := hs
  refine .of_flip hrec rfl (fun q hq => ?_) ⟨ht, by simp [Pte.mapped, he], .inr hu⟩
    (h.guarded page hu).1
  rw [Machine.decryptAt, Machine.setPte_pgdir, Machine.flip_pgdir, PgDir.set_pte]
  split
  · exact fun _ => rfl
  · exact hq

theorem Tidy.insertLoop {slots vpn : Nat} {pte : Option PtePtr} (h : Tidy m)
    (hok : insertLoop vpn pte slots m = .ok m') : Inplace m m' := by
  induction slots generalizing m with
  | zero => cases hok
  | succ slots ih =>
      simp only [Pager.insertLoop, bind_eq_ok] at hok
      obtain ⟨i, _, hok⟩ := hok
      generalize hm₁ : m.setIndex ((m.clockIndex + 1).tmod clocksize) = m₁ at hok
      have hidx : Inplace m m₁ := by
        rw [← hm₁]
        exact .of_queue rfl rfl rfl
      have h₁ := hidx.tidy h
      split at hok
      · cases hok
        exact hidx.trans (.of_queue rfl rfl rfl)
      · simp only [bind_eq_ok] at hok
        obtain ⟨page, _, hok⟩ := hok
        split at hok
        · simp only [bind_eq_ok] at hok
          obtain ⟨⟨r, m₂⟩, henc, hok⟩ := hok
          cases hok
          exact hidx.trans ((h₁.mencrypt henc).trans (.of_queue rfl rfl rfl))
        · have hset : Inplace m₁ (m₁.setPte page { m₁.pgdir.pte page with a := false }) :=
            .setRef m₁ page false
          exact hidx.trans (hset.trans (ih (hset.tidy h₁) hok))

theorem Tidy.mdecrypt {slots depth va : Nat} {r : Int} (h : Tidy m)
    (hok : mdecrypt slots depth va m = .ok (r, m')) : Inplace m m' := by
  induction depth generalizing m m' va r with
  | zero =>
      obtain ⟨_, ⟨_, _, rfl⟩ | ⟨_, _, hins⟩⟩ := mdecryptWith_spec hok
      · exact .refl _
      · cases hins
  | succ depth ih =>
      obtain ⟨ht, ⟨_, _, rfl⟩ | ⟨hsealed, _, hins⟩⟩ := mdecryptWith_spec hok
      · exact .refl _
      · have hdec := h.decryptAt ht hsealed
        have h₁ := hdec.tidy h
        simp only [insertQueue, bind_eq_ok] at hins
        obtain ⟨m₂, hloop, ⟨r', m₃⟩, hrec, hlast⟩ := hins
        cases hlast
        have hl := h₁.insertLoop hloop
        exact hdec.trans (hl.trans (ih (hl.tidy h₁) hrec))

theorem shiftLoop_inplace {s : Int} {fuel i : Nat} (hok : shiftLoop s fuel i m = .ok m') :
    Inplace m m' := by
  induction fuel generalizing m i with
  | zero =>
      rw [shiftLoop] at hok
      split at hok
      · cases hok
        exact .refl _
      · cases hok
  | succ fuel ih =>
      rw [shiftLoop] at hok
      split at hok
      · cases hok
        exact .refl _
      · have hset : Inplace m (m.setSlot i (m.clockQueue ((i + 1) % clocksize))) :=
          .of_queue rfl rfl rfl
        exact hset.trans (ih hok)

theorem Tidy.removeQueue {vpn : Nat} (h : Tidy m) (hok : removeQueue vpn m = .ok m') :
    Inplace m m' := by
  simp only [Pager.removeQueue, bind_eq_ok] at hok
  obtain ⟨j, _, hok⟩ := hok
  split at hok
  · cases hok
    exact .refl _
  · simp only [bind_eq_ok] at hok
    obtain ⟨i, _, ⟨r, m₁⟩, henc, m₂, hshift, s, _, hok⟩ := hok
    cases hok
    exact (h.mencrypt henc).trans
      ((shiftLoop_inplace hshift).trans (.of_queue rfl rfl rfl))

theorem Tidy.removeLoop {sz k page : Nat} (h : Tidy m)
    (hok : removeLoop sz k page m = .ok m') : Inplace m m' := by
  induction k generalizing m page with
  | zero =>
      rw [Pager.removeLoop] at hok
      split at hok
      · cases hok
      · cases hok
        exact .refl _
  | succ k ih =>
      rw [Pager.removeLoop] at hok
      split at hok
      · rw [bind_eq_ok] at hok
        obtain ⟨m₁, hrem, hok⟩ := hok
        have hfirst := h.removeQueue hrem
        exact hfirst.trans (ih (hfirst.tidy h) hok)
      · cases hok
        exact .refl _

/-! ## Memories -/

theorem Process.machine_process (p : Process) (ph : Phys) :
    (p.machine ph).process p.kstack = p := rfl

/-- A page of zeros. -/
def zeroPage : PrivateMemory.Page (Fin 4096) UInt8 := ⟨true, fun _ => 0⟩

/-- Pages of zeros from the end of the last page on. -/
def grown (x : PrivateMemory.Space (Fin 4096) UInt8) (n : Int) :
    PrivateMemory.Space (Fin 4096) UInt8 where
  size := (x.size + n).toNat
  page page := if Within (pgRoundUp x.size) (x.size + n).toNat page then some zeroPage else x.page page

/-- Without the pages behind a size. -/
def cut (x : PrivateMemory.Space (Fin 4096) UInt8) (size : Nat) :
    Nat → Option (PrivateMemory.Page (Fin 4096) UInt8) :=
  fun page => if Within (pgRoundUp size) x.size page then none else x.page page

/-- What `sbrk` does to a memory. -/
inductive SbrkTo (n : Int) :
    PrivateMemory.Space (Fin 4096) UInt8 → PrivateMemory.Space (Fin 4096) UInt8 → Prop
  | grown {x : PrivateMemory.Space (Fin 4096) UInt8} :
      0 < n → x.size + n < kernbase →
      (∀ page, Within (pgRoundUp x.size) (x.size + n).toNat page → x.page page = none) →
      SbrkTo n x (Pager.grown x n)
  /-- There is no memory for more, or no less is asked for, or less than nothing. -/
  | kept {x : PrivateMemory.Space (Fin 4096) UInt8} :
      (n < 0 → x.size = 0 ∨ n < -x.size) → SbrkTo n x x
  | shrunk {x : PrivateMemory.Space (Fin 4096) UInt8} :
      n < 0 → -x.size < n →
      SbrkTo n x ⟨(x.size + n).toNat, cut x (x.size + n).toNat⟩
  /-- To give up everything fails, and takes the pages all the same. -/
  | lost {x : PrivateMemory.Space (Fin 4096) UInt8} :
      0 < x.size → n = -x.size → SbrkTo n x ⟨x.size, cut x 0⟩

/-- The memory of a program at its start. -/
def imageSpace (ip : List UInt8) (argv : List (List UInt8)) (sz : Nat) :
    PrivateMemory.Space (Fin 4096) UInt8 where
  size := sz
  page page :=
    if 4096 * page < sz then
      some ⟨decide (page ≠ guardPage sz), fun i => (imageOf ip argv sz).2 (4096 * page + i)⟩
    else none

/-- The memory of the first process. -/
def initSpace (init : List UInt8) : PrivateMemory.Space (Fin 4096) UInt8 where
  size := pgsize
  page page := if page = 0 then some ⟨true, fun i => init.getD i 0⟩ else none

/-- The offset of an address in its page. -/
def pageOff (va : Nat) : Fin 4096 := ⟨va % 4096, Nat.mod_lt _ (by decide)⟩

/-- What an event is to the memories; page faults and encryption are nothing. -/
def KernelEvent.shown : KernelEvent → Option (PrivateMemory.Event Slot (Fin 4096) UInt8)
  | .userinit init => some (.put 0 (some (initSpace init)))
  | .load s va b => some (.load s (ppn va) (pageOff va) b)
  | .store s va b => some (.store s (ppn va) (pageOff va) b)
  | .fault _ _ => none
  | .mencrypt _ _ _ => none
  | .sbrk s n => some (.resize s n)
  | .fork s child => child.map (.copy s)
  | .exec s ip argv sz => some (.put s (some (imageSpace ip argv sz)))
  | .noexec _ => none
  | .wait s => some (.put s none)

/-- In place nothing is to be seen. -/
theorem Inplace.view (h : Inplace m m') : view m'.pgdir m'.phys = view m.pgdir m.phys := by
  funext page
  refine view_congr (fun _ => ?_) fun hp _ => ⟨(h.recoded.pte page).2.1, h.recoded.content page hp⟩
  exact congrArg Option.isSome (h.recoded.pageFrame page)

theorem Inplace.space (h : Inplace m m') (kstack : Nat) :
    (m'.process kstack).space m'.phys = (m.process kstack).space m.phys := by
  change (⟨m'.sz, Pager.view m'.pgdir m'.phys⟩ : PrivateMemory.Space (Fin 4096) UInt8) =
    ⟨m.sz, Pager.view m.pgdir m.phys⟩
  rw [h.recoded.size, h.view]

theorem Inplace.sound (h : Inplace m m') {kstack : Nat} (hs : (m.process kstack).Sound) :
    (m'.process kstack).Sound where
  size := by
    change m'.sz ≤ kernbase
    rw [h.recoded.size]
    exact hs.size
  covers := by
    intro page hpage hge
    change pgRoundUp m'.sz ≤ 4096 * page at hge
    change m'.pgdir.pageFrame page = none
    rw [h.recoded.size] at hge
    rw [h.recoded.pageFrame]
    exact hs.covers page hpage hge
  guarded := by
    intro page hu
    change (m'.pgdir.pte page).u at hu
    rw [(h.recoded.pte page).2.1] at hu
    obtain ⟨hlt, hplain⟩ := hs.guarded page hu
    exact ⟨hlt, h.plain page hplain⟩

end CS537.Pager
