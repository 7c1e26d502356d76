import CS537.Pager.LoadImage

/-!
# Pager — `exec` starts encrypted or changes nothing

`exec` with all it leaves in the process: name and trap frame besides the machine. It
builds the new directory aside and frees it on every way out but one, so a call that
fails leaves the process as it was. A call that succeeds leaves the image, all of it
encrypted but the guard page, and has given back the old directory.

The strings of `argv` are in pages `sys_exec` has just read; they are values here.
-/

namespace CS537.Pager

open MachineInt
open Bytes (store store_nil store_outside store_append)

/-! ## The call -/

/-- The current process, and the fields of `struct proc` and of its trap frame that
only `exec` sets. -/
structure ExecProc where
  machine : Machine
  name : List UInt8
  eip : Nat
  esp : Nat

/-- `exec` between `setupkvm` and the commit: the size and the stack pointer of the
image, `none` being `goto bad`. -/
def loadStack (ip : List UInt8) (elf : List UInt8) (argv : List (List UInt8))
    (d : PgDir) (ph : Phys) : Except Fault (Option (Nat × Nat) × PgDir × Phys) := do
  let (res, d, ph) ← segLoop ip (field elf 44 2) (field elf 28 4) 0 d ph
  match res with
  | none => return (none, d, ph)
  | some sz =>
      let sz := pgRoundUp sz
      let (sz, d, ph) ← allocuvm sz (u32 (sz + 8192)) d ph
      if sz = 0 then return (none, d, ph)
      let d ← clearpteu (sz - 8192) d
      let (res, ph) ← argLoop d argv 0 sz [] ph
      match res with
      | none => return (none, d, ph)
      | some (sp, args) =>
          let argc := args.length
          let ustack := [4294967295, argc, toU32 ((sp : Int) - (argc + 1) * 4)] ++ args ++ [0]
          let sp := toU32 ((sp : Int) - (3 + argc + 1) * 4)
          let (ok, ph) ← copyout sp (ustack.flatMap uintBytes) d ph
          if !ok then return (none, d, ph)
          return (some (sz, sp), d, ph)

/-- The loop that finds the last part of a path. -/
def lastLoop : List UInt8 → List UInt8 → List UInt8
  | [], last => last
  | c :: s, last => lastLoop s (if c = 47 then s else last)

/-- `safestrcpy` of a string into an array of `n` bytes. -/
def safestrcpy : Nat → List UInt8 → List UInt8 → List UInt8
  | 0, s, _ => s
  | 1, s, _ => 0 :: s.drop 1
  -- the terminator is copied, and stored once more behind
  | _ + 2, s, [] => 0 :: 0 :: s.drop 2
  | n + 2, s, c :: t => c :: safestrcpy (n + 1) (s.drop 1) t

/-- `exec`, of a path and what `namei` finds there. -/
def execProc (path : List UInt8) (file : Option (List UInt8)) (argv : List (List UInt8))
    (p : ExecProc) : Except Fault (Int × ExecProc) :=
  match file with
  | none => .ok (-1, p)
  | some ip =>
      let elf := (readi ip 0 52).getD []
      if elf.length ≠ 52 then .ok (-1, p)
      else if field elf 0 4 ≠ 1179403647 then .ok (-1, p)
      else do
        match ← setupkvm p.machine.phys with
        | (none, ph) => return (-1, { p with machine := { p.machine with phys := ph } })
        | (some d, ph) =>
            match ← loadStack ip elf argv d ph with
            | (none, d, ph) =>
                let ph ← freevm d ph
                return (-1, { p with machine := { p.machine with phys := ph } })
            | (some (sz, sp), d, ph) =>
                let name := safestrcpy 16 p.name (lastLoop path path)
                let ph ← freevm p.machine.pgdir ph
                let m := { p.machine with
                  phys := ph, pgdir := d, sz := sz, nameTail := field name 8 4 }
                let (_, m) ← mencrypt 0 (sz / 4096 : Nat) m
                return (0, ⟨m.resetQueue, name, field elf 24 4, sp⟩)

/-- `loadImage` is `loadStack` without the stack pointer. -/
theorem loadImage_eq (ip elf : List UInt8) (argv : List (List UInt8)) (d : PgDir)
    (ph : Phys) :
    loadImage ip elf argv d ph =
      (loadStack ip elf argv d ph).map fun r => (r.1.map Prod.fst, r.2) := by
  unfold loadImage loadStack
  cases segLoop ip (field elf 44 2) (field elf 28 4) 0 d ph with
  | error e => rfl
  | ok r₁ =>
      obtain ⟨r₁, d₁, ph₁⟩ := r₁
      cases r₁ with
      | none => rfl
      | some sz₁ =>
          simp only [ok_bind]
          cases allocuvm (pgRoundUp sz₁) (u32 (pgRoundUp sz₁ + 8192)) d₁ ph₁ with
          | error e => rfl
          | ok r₂ =>
              obtain ⟨sz₂, d₂, ph₂⟩ := r₂
              simp only [ok_bind]
              split
              · rfl
              cases clearpteu (sz₂ - 8192) d₂ with
              | error e => rfl
              | ok d₃ =>
                  simp only [ok_bind]
                  cases argLoop d₃ argv 0 sz₂ [] ph₂ with
                  | error e => rfl
                  | ok r₃ =>
                      obtain ⟨r₃, ph₃⟩ := r₃
                      cases r₃ with
                      | none => rfl
                      | some r =>
                          simp only [ok_bind]
                          generalize copyout _ _ d₃ ph₃ = copied
                          rcases copied with _ | ⟨_ | _, ph₄⟩ <;> rfl

/-- The machine of a process changes as `exec` says. -/
theorem exec_eq (path : List UInt8) (file : Option (List UInt8))
    (argv : List (List UInt8)) (p : ExecProc) :
    exec file argv (field (safestrcpy 16 p.name (lastLoop path path)) 8 4) p.machine =
      (execProc path file argv p).map fun r => (r.1, r.2.machine) := by
  unfold exec execProc
  cases file with
  | none => rfl
  | some ip =>
      dsimp only
      split
      · rfl
      split
      · rfl
      cases setupkvm p.machine.phys with
      | error e => rfl
      | ok r =>
          obtain ⟨rd, ph⟩ := r
          cases rd with
          | none => rfl
          | some d =>
              simp only [ok_bind, loadImage_eq]
              cases loadStack ip ((readi ip 0 52).getD []) argv d ph with
              | error e => rfl
              | ok r₁ =>
                  obtain ⟨r₁, d₁, ph₁⟩ := r₁
                  cases r₁ with
                  | none =>
                      simp only [ok_bind, Except.map, Option.map]
                      cases freevm d₁ ph₁ with
                      | error e => rfl
                      | ok ph₂ => rfl
                  | some s =>
                      simp only [ok_bind, Except.map, Option.map]
                      cases freevm p.machine.pgdir ph₁ with
                      | error e => rfl
                      | ok ph₂ =>
                          simp only [ok_bind]
                          generalize mencrypt 0 _ _ = encrypted
                          cases encrypted with
                          | error e => rfl
                          | ok r₃ => rfl

/-! ## The image -/

/-- The argument strings pushed onto a stack in a flat memory: the stack pointer, the
addresses of the strings, and the memory. -/
def pushArgs : List (List UInt8) → Nat → List Nat → (Nat → UInt8) →
    Nat × List Nat × (Nat → UInt8)
  | [], sp, args, mem => (sp, args, mem)
  | arg :: argv, sp, args, mem =>
      let sp := toU32 ((sp : Int) - (arg.length + 1)) / 4 * 4
      pushArgs argv sp (args ++ [sp]) (store mem sp (arg ++ [0]))

/-- What lies below the strings: a return address, `argc`, `argv`, and the pointers. -/
def startWords (sp : Nat) (args : List Nat) : List Nat :=
  [4294967295, args.length, toU32 ((sp : Int) - (args.length + 1) * 4)] ++ args ++ [0]

/-- The stack pointer and the memory of a program of that size at its start: zeros, the
segments of the file in their order, and the argument stack. -/
def imageOf (ip : List UInt8) (argv : List (List UInt8)) (sz : Nat) :
    Nat × (Nat → UInt8) :=
  let elf := (readi ip 0 52).getD []
  let segs := segments ip (field elf 44 2) (field elf 28 4)
  let (sp, args, mem) := pushArgs argv sz [] (storeSegments (fun _ => 0) segs)
  let start := toU32 ((sp : Int) - (3 + args.length + 1) * 4)
  (start, store mem start ((startWords sp args).flatMap uintBytes))

/-- The page below the stack. -/
def guardPage (sz : Nat) : Nat := sz / 4096 - 2

/-- The flags of the guard page. -/
def guardFlags : Flags := { userFlags with u := false }

/-- An image that is complete. -/
structure Built (ip : List UInt8) (argv : List (List UInt8)) (d : PgDir) (ph : Phys)
    (sz sp : Nat) : Prop where
  aligned : sz % 4096 = 0
  room : 8192 ≤ sz
  size : sz < kernbase
  apart : Vm.Apart ⟨d, ph, []⟩
  table : ∀ page, 4096 * page < sz → d.hasTable page
  flags : ∀ page, 4096 * page < sz →
    (d.pte page).toFlags = if page = guardPage sz then guardFlags else userFlags
  user : ∀ page, (d.pte page).u → 4096 * page < sz
  stack : (imageOf ip argv sz).1 = sp
  reads : Reads d ph sz (imageOf ip argv sz).2

/-! ## The stack -/

theorem toU32_lt (z : Int) : toU32 z < 4294967296 := by
  unfold toU32
  omega

/-- Strings are pushed into the flat memory. -/
theorem argLoop_reads {d : PgDir} {sz : Nat} (hown : Owned d sz) (hsz : sz ≤ kernbase)
    (hal : sz % 4096 = 0) (hu : ∀ page, (d.pte page).u → 4096 * page < sz)
    {argv : List (List UInt8)} {argc sp : Nat} {args : List Nat} {ph ph' : Phys}
    {res : Option (Nat × List Nat)} {mem : Nat → UInt8} (hreads : Reads d ph sz mem)
    (h : argLoop d argv argc sp args ph = .ok (res, ph')) :
    Confined d sz ph ph' ∧ ∀ sp' args', res = some (sp', args') →
      ∃ mem', pushArgs argv sp args mem = (sp', args', mem') ∧ Reads d ph' sz mem' := by
  induction argv generalizing argc sp args ph mem with
  | nil =>
      cases h
      refine ⟨.refl _ _ _, fun sp' args' hres => ?_⟩
      cases hres
      exact ⟨mem, rfl, hreads⟩
  | cons arg argv ih =>
      rw [argLoop] at h
      split at h
      · cases h
        exact ⟨.refl _ _ _, fun _ _ hn => by cases hn⟩
      · dsimp only at h
        rw [bind_eq_ok] at h
        obtain ⟨⟨ok, ph₁⟩, hcopy, h⟩ := h
        have hva : toU32 ((sp : Int) - (arg.length + 1)) / 4 * 4 < 4294967296 := by
          have := toU32_lt ((sp : Int) - (arg.length + 1))
          omega
        obtain ⟨hconf, hwrote⟩ := @copyout_reads d sz hown hsz hal hu _ hva _ ph ph₁ ok mem hcopy
        cases ok with
        | false =>
            cases h
            exact ⟨hconf, fun _ _ hn => by cases hn⟩
        | true =>
            obtain ⟨hconf', hrest⟩ := ih (hwrote rfl hreads) h
            exact ⟨hconf.trans hconf', hrest⟩

/-- `clearpteu` of a page below the size. -/
theorem clearpteu_eq {va : Nat} {d d' : PgDir} (h : clearpteu va d = .ok d') :
    d' = d.set (ppn va) { d.pte (ppn va) with u := false } := by
  rw [clearpteu] at h
  cases hw : walkpgdir d va with
  | none =>
      rw [hw] at h
      cases h
  | some ptr =>
      rw [hw] at h
      obtain ⟨_, rfl⟩ := walkpgdir_eq_some.mp hw
      cases h
      rfl

theorem PgDir.setUser_pageFrame (d : PgDir) (page : Nat) (u : Bool) (q : Nat) :
    (d.set page { d.pte page with u := u }).pageFrame q = d.pageFrame q := by
  by_cases hq : q = page
  · subst hq
    simp only [pageFrame, set_hasTable, PgDir.set_pte, if_true, Pte.mapped]
    rfl
  · exact pageFrame_set d hq _

/-- The frames are the same ones. -/
theorem PgDir.setUser_accounted (d : PgDir) (page : Nat) (u : Bool) (ph : Phys) :
    Accounted d ph (d.set page { d.pte page with u := u }) ph := by
  refine ⟨?_, fun _ _ => rfl⟩
  have hpages : (d.set page { d.pte page with u := u }).pages = d.pages :=
    Inventory.contents_congr fun q _ => setUser_pageFrame d page u q
  rw [frames, frames, hpages, set_tables, set_frame]

/-- The guard page below the stack. -/
theorem Imaged.guard {d : PgDir} {ph : Phys} {sz : Nat} {mem : Nat → UInt8}
    (h : Imaged d ph sz mem) (hal : sz % 4096 = 0) (hroom : 8192 ≤ sz) {d' : PgDir}
    (hd : d' = d.set (guardPage sz) { d.pte (guardPage sz) with u := false }) :
    Vm.Apart ⟨d', ph, []⟩ ∧ Owned d' sz ∧
      (∀ page, 4096 * page < sz → d'.hasTable page ∧
        (d'.pte page).toFlags = if page = guardPage sz then guardFlags else userFlags) ∧
      (∀ page, (d'.pte page).u → 4096 * page < sz) ∧ Reads d' ph sz mem := by
  subst hd
  have hframe : ∀ page, ((d.set (guardPage sz)
      { d.pte (guardPage sz) with u := false }).pte page).frame = (d.pte page).frame := by
    intro page
    rw [PgDir.set_pte]
    split
    · rename_i heq
      rw [heq]
    · rfl
  have hguard : 4096 * guardPage sz < sz := by
    unfold guardPage
    omega
  have huser : ∀ {page}, (d.set (guardPage sz)
      { d.pte (guardPage sz) with u := false }).UserMapped page → d.UserMapped page := by
    intro page hp
    by_cases heq : page = guardPage sz
    · rw [heq]
      exact h.userMapped hguard
    · exact hp.of_set heq
  obtain ⟨hdis, hnd, hfree⟩ := h.apart
  refine ⟨⟨?_, hnd, ?_⟩, ?_, ?_, ?_, ?_⟩
  · intro p q hp hq hf
    rw [hframe, hframe] at hf
    exact hdis p q (huser hp) (huser hq) hf
  · intro p hp
    rw [hframe]
    exact hfree p (huser hp)
  · intro p q hp hq hf
    rw [hframe, hframe] at hf
    exact h.owned p q hp hq hf
  · intro page hp
    obtain ⟨ht, hf⟩ := h.below page hp
    refine ⟨ht, ?_⟩
    rw [PgDir.set_pte]
    split
    · rename_i heq
      rw [← heq]
      change ({ (d.pte page).toFlags with u := false } : Flags) = guardFlags
      rw [hf]
      rfl
    · exact hf
  · intro page hu
    rw [PgDir.set_pte] at hu
    split at hu
    · cases hu
    · exact (h.user page hu).2.1
  · intro page hp i hi
    rw [hframe]
    exact h.reads page hp i hi

/-- Loading is accounted for, and what it completes is the image. -/
theorem loadStack_built {ip : List UInt8} {argv : List (List UInt8)} {d d' : PgDir}
    {ph ph' : Phys} {res : Option (Nat × Nat)} (himg : Imaged d ph 0 (fun _ => 0))
    (h : loadStack ip ((readi ip 0 52).getD []) argv d ph = .ok (res, d', ph')) :
    Accounted d ph d' ph' ∧ ∀ sz sp, res = some (sz, sp) → Built ip argv d' ph' sz sp := by
  unfold loadStack at h
  rw [bind_eq_ok] at h
  obtain ⟨⟨r₁, d₁, ph₁⟩, hseg, h⟩ := h
  obtain ⟨hacc₁, hsegs⟩ := segLoop_imaged himg hseg
  cases r₁ with
  | none =>
      cases h
      exact ⟨hacc₁, fun _ _ hn => by cases hn⟩
  | some sz₁ =>
      have himg₁ := hsegs sz₁ rfl
      dsimp only at h
      rw [bind_eq_ok] at h
      obtain ⟨⟨sz, d₂, ph₂⟩, halloc, h⟩ := h
      have hacc₂ := hacc₁.trans (allocuvm_accounted halloc)
      dsimp only at h
      split at h
      · cases h
        exact ⟨hacc₂, fun _ _ hn => by cases hn⟩
      rename_i hne
      have hsz₁ := himg₁.size
      simp only [kernbase] at hsz₁
      have hup : pgRoundUp sz₁ ≤ kernbase := by
        unfold pgRoundUp u32
        simp only [kernbase]
        omega
      have hadd : u32 (pgRoundUp sz₁ + 8192) = pgRoundUp sz₁ + 8192 := by
        apply u32_of_lt
        simp only [kernbase] at hup
        omega
      rw [hadd] at halloc
      have hfits : pgRoundUp sz₁ + 8192 < kernbase := by
        rcases allocuvm_spec halloc with ⟨_, h0, _⟩ | ⟨hlt, _⟩ | ⟨hlt, _⟩
        · exact absurd h0 hne
        · exact hlt
        · exact hlt
      obtain ⟨himg₂, hlow, _⟩ := (himg₁.roundUp (by omega)).alloc halloc hne
      have hsz : sz = pgRoundUp sz₁ + 8192 := by
        rcases allocuvm_spec halloc with ⟨_, h0, _⟩ | ⟨_, hless, _⟩ | ⟨_, _, hgrown⟩
        · exact absurd h0 hne
        · omega
        · cases hgrown with
          | failed _ _ _ => exact absurd rfl hne
          | done _ => rfl
      have hal : sz % 4096 = 0 := by
        have := pgRoundUp_aligned sz₁
        omega
      have hroom : 8192 ≤ sz := by omega
      have hle := Nat.le_of_lt himg₂.size
      rw [bind_eq_ok] at h
      obtain ⟨d₃, hclear, h⟩ := h
      have hpage : ppn (sz - 8192) = guardPage sz := by
        unfold ppn guardPage
        omega
      have hd₃ := clearpteu_eq hclear
      rw [hpage] at hd₃
      obtain ⟨hapart, hown, hflags, huser, hreads⟩ := himg₂.guard hal hroom hd₃
      have hmapped : ∀ page, 4096 * page < sz → d₃.hasTable page ∧ (d₃.pte page).mapped := by
        intro page hp
        obtain ⟨ht, hf⟩ := hflags page hp
        refine ⟨ht, ?_⟩
        have hpresent : (d₃.pte page).p = true := by
          rw [hf]
          split <;> rfl
        simp [Pte.mapped, hpresent]
      have hacc₃ : Accounted d ph d₃ ph₂ := by
        rw [hd₃]
        exact hacc₂.trans (d₂.setUser_accounted _ _ _)
      rw [bind_eq_ok] at h
      obtain ⟨⟨r₂, ph₃⟩, hargs, h⟩ := h
      obtain ⟨hconf, hpushed⟩ := argLoop_reads hown hle hal huser hreads hargs
      have hacc₄ := hacc₃.trans (hconf.accounted hle hmapped)
      cases r₂ with
      | none =>
          cases h
          exact ⟨hacc₄, fun _ _ hn => by cases hn⟩
      | some r =>
          obtain ⟨sp, args⟩ := r
          obtain ⟨mem, hpush, hreads'⟩ := hpushed sp args rfl
          dsimp only at h
          rw [bind_eq_ok] at h
          obtain ⟨⟨ok, ph₄⟩, hcopy, h⟩ := h
          obtain ⟨hconf', hwrote⟩ := @copyout_reads d₃ sz hown hle hal huser _ (toU32_lt _) _
            ph₃ ph₄ ok mem hcopy
          have hacc₅ := hacc₄.trans (hconf'.accounted hle hmapped)
          cases ok with
          | false =>
              cases h
              exact ⟨hacc₅, fun _ _ hn => by cases hn⟩
          | true =>
              cases h
              refine ⟨hacc₅, fun sz' sp' hres => ?_⟩
              cases hres
              have himage : imageOf ip argv sz =
                  (toU32 ((sp : Int) - (3 + args.length + 1) * 4),
                    store mem (toU32 ((sp : Int) - (3 + args.length + 1) * 4))
                      ((startWords sp args).flatMap uintBytes)) := by
                rw [imageOf]
                dsimp only
                rw [hpush]
              have hfree := (hconf.trans hconf').free
              refine ⟨hal, hroom, himg₂.size, ?_, fun page hp => (hflags page hp).1,
                fun page hp => (hflags page hp).2, huser, by rw [himage], ?_⟩
              · obtain ⟨hdis, hnd, hfr⟩ := hapart
                refine ⟨hdis, ?_, ?_⟩
                · rw [hfree]
                  exact hnd
                · rw [hfree]
                  exact hfr
              · rw [himage]
                exact hwrote rfl hreads'

/-! ## What `exec` leaves -/

/-- The process is at the start of the program. -/
structure Started (ip path : List UInt8) (argv : List (List UInt8)) (p p' : ExecProc) :
    Prop where
  aligned : p'.machine.sz % 4096 = 0
  mapped : ∀ page, 4096 * page < p'.machine.sz →
    p'.machine.pgdir.hasTable page ∧ (p'.machine.pgdir.pte page).mapped
  guard : 8192 ≤ p'.machine.sz ∧ (p'.machine.pgdir.pte (guardPage p'.machine.sz)).u = false ∧
    (p'.machine.pgdir.pte (guardPage p'.machine.sz)).p
  encrypted : ∀ page, 4096 * page < p'.machine.sz → page ≠ guardPage p'.machine.sz →
    (p'.machine.pgdir.pte page).u ∧ (p'.machine.pgdir.pte page).e ∧
      (p'.machine.pgdir.pte page).p = false
  image : ∀ page, 4096 * page < p'.machine.sz → ∀ i < 4096,
    content p'.machine.pgdir p'.machine.phys page i =
      (imageOf ip argv p'.machine.sz).2 (4096 * page + i)
  queue : p'.machine.clockIndex = -1 ∧ ∀ i, (p'.machine.clockQueue i).vpn = noVpn
  -- of the free pages it has taken those of the new directory, and given back each one of
  -- the old directory
  freed : ∃ rest, (p.machine.phys.freelist : Multiset Nat) = rest + p'.machine.pgdir.frames ∧
    (p'.machine.phys.freelist : Multiset Nat) = rest + p.machine.pgdir.frames
  name : p'.name = safestrcpy 16 p.name (lastLoop path path)
  entry : p'.eip = field ((readi ip 0 52).getD []) 24 4 ∧
    p'.esp = (imageOf ip argv p'.machine.sz).1

/-- The process is as it was: the free pages are the same ones, and its own hold what
they did. -/
structure Unchanged (p p' : ExecProc) : Prop where
  proc : ∃ ph, p' = { p with machine := { p.machine with phys := ph } }
  free : (p'.machine.phys.freelist : Multiset Nat) = p.machine.phys.freelist
  contents : ∀ page < kernPage, (p.machine.pgdir.pageFrame page).isSome →
    content p'.machine.pgdir p'.machine.phys page =
      content p.machine.pgdir p.machine.phys page

variable {m m' : Machine}

/-- Each physical page is free or in one place of the directory. -/
def Machine.Inventoried (m : Machine) : Prop :=
  ((m.phys.freelist : Multiset Nat) + m.pgdir.frames).Nodup

theorem PgDir.mem_frames {d : PgDir} {page : Nat} (hp : page < kernPage)
    (hs : (d.pageFrame page).isSome) : (d.pte page).frame ∈ d.frames := by
  obtain ⟨ht, hm⟩ := PgDir.pageFrame_isSome.mp hs
  rw [frames, Multiset.mem_cons, Multiset.mem_add]
  refine .inr (.inr (Inventory.mem_contents.mpr ⟨page, hp, ?_⟩))
  simp only [pageFrame, ht, hm, Bool.and_self, if_true]

/-- A call that gives back all it took, and writes to nothing else. -/
theorem Unchanged.of_free {p : ExecProc} {ph : Phys} (hinv : p.machine.Inventoried)
    (hfree : (ph.freelist : Multiset Nat) = p.machine.phys.freelist)
    (hbytes : ∀ f, f ∉ p.machine.phys.freelist → ph.mem f = p.machine.phys.mem f) :
    Unchanged p { p with machine := { p.machine with phys := ph } } := by
  refine ⟨⟨ph, rfl⟩, hfree, fun page hp hs => ?_⟩
  have hmem := PgDir.mem_frames hp hs
  have hout : (p.machine.pgdir.pte page).frame ∉ p.machine.phys.freelist := by
    intro hin
    exact (Multiset.disjoint_left.mp (Multiset.nodup_add.mp hinv).2.2)
      (Multiset.mem_coe.mpr hin) hmem
  unfold content
  rw [hbytes _ hout]

/-- The pages of a range from page 0 on. -/
theorem mem_mencryptPages_zero {sz page : Nat} (hal : sz % 4096 = 0) (hsz : sz < kernbase) :
    page ∈ mencryptPages 0 ((sz / 4096 : Nat) : Int) ↔ 4096 * page < sz := by
  simp only [kernbase] at hsz
  rw [mencryptPages, Int.toNat_natCast, mem_pagesFrom (by decide)]
  · simp only [ppn, pgRoundDown]
    omega
  · simp only [pgRoundDown]
    omega

/-- The commit: the old directory is freed, and the image is encrypted. -/
theorem Built.committed {ip path : List UInt8} {argv : List (List UInt8)} {d : PgDir}
    {ph ph' : Phys} {sz sp : Nat} {p : ExecProc} {name : Nat} {r : Int}
    (hb : Built ip argv d ph sz sp) (hinv : p.machine.Inventoried)
    (hacc : (ph.freelist : Multiset Nat) + d.frames = p.machine.phys.freelist)
    (hfreevm : freevm p.machine.pgdir ph = .ok ph')
    (henc : mencrypt 0 ((sz / 4096 : Nat) : Int)
      { p.machine with phys := ph', pgdir := d, sz := sz, nameTail := name } = .ok (r, m')) :
    Started ip path argv p ⟨m'.resetQueue, safestrcpy 16 p.name (lastLoop path path),
      field ((readi ip 0 52).getD []) 24 4, sp⟩ := by
  have hsz := hb.size
  have hfree := freevm_frames hfreevm
  -- the inventory after the old directory is freed
  have hall : ((ph'.freelist : Multiset Nat) + d.frames).Nodup := by
    have hsum : (ph'.freelist : Multiset Nat) + d.frames =
        p.machine.phys.freelist + p.machine.pgdir.frames := by
      rw [hfree, ← hacc]
      ac_rfl
    rw [hsum]
    exact hinv
  have hold : ∀ f ∈ d.frames, f ∉ p.machine.pgdir.frames := by
    intro f hf
    have hin : f ∈ (p.machine.phys.freelist : Multiset Nat) := by
      rw [← hacc, Multiset.mem_add]
      exact .inr hf
    exact Multiset.disjoint_left.mp (Multiset.nodup_add.mp hinv).2.2 hin
  have hpage : ∀ {page}, d.UserMapped page → (d.pte page).frame ∈ d.frames := by
    intro page hp
    have hlt : page < kernPage := by
      rcases hp.user with hlt | hu
      · exact hlt
      · exact lt_kernPage_of_lt (Nat.le_of_lt hsz) (hb.user page hu)
    exact PgDir.mem_frames hlt (PgDir.pageFrame_isSome.mpr ⟨hp.table, hp.mapped⟩)
  have hsep : Separate { p.machine with phys := ph', pgdir := d, sz := sz, nameTail := name } := by
    refine ⟨Nat.le_of_lt hsz, hb.apart.distinct, ?_, ?_⟩
    · exact Multiset.coe_nodup.mp (Multiset.nodup_add.mp hall).1
    · intro page hp hin
      exact Multiset.disjoint_left.mp (Multiset.nodup_add.mp hall).2.2
        (Multiset.mem_coe.mpr hin) (hpage hp)
  have hrec := mencrypt_recoded hsep henc
  obtain ⟨_, hm'⟩ := mencrypt_spec henc
  have hflags : ∀ page, 4096 * page < sz →
      (d.pte page).mapped ∧ (d.pte page).p ∧ (d.pte page).e = false := by
    intro page hp
    have hf := hb.flags page hp
    have hp' : (d.pte page).p = true := by
      rw [hf]
      split <;> rfl
    have he : (d.pte page).e = false := by
      rw [hf]
      split <;> rfl
    exact ⟨by simp [Pte.mapped, hp'], hp', he⟩
  have hum : ∀ page, 4096 * page < sz → d.UserMapped page := fun page hp =>
    ⟨hb.table page hp, (hflags page hp).1,
      .inl (lt_kernPage_of_lt (Nat.le_of_lt hsz) hp)⟩
  have hsize : m'.resetQueue.sz = sz := hrec.size
  have hpte : ∀ page, 4096 * page < sz →
      m'.resetQueue.pgdir.pte page = (d.pte page).encrypted := by
    intro page hp
    change m'.pgdir.pte page = _
    rw [hm', Machine.encryptAll_pte, if_pos ((mem_mencryptPages_zero hb.aligned hsz).mpr hp)]
  have hroom := hb.room
  constructor
  · rw [hsize]
    exact hb.aligned
  · intro page hp
    rw [hsize] at hp
    have hm := hrec.userMapped.mpr (hum page hp)
    exact ⟨hm.table, hm.mapped⟩
  · have hguard : 4096 * guardPage sz < sz := by
      unfold guardPage
      omega
    have hf := hb.flags (guardPage sz) hguard
    rw [if_pos rfl] at hf
    have hu : (d.pte (guardPage sz)).u = false := congrArg Flags.u hf
    have hnot : (d.pte (guardPage sz)).clear = false := by
      simp [Pte.clear, hu]
    rw [hsize, hpte _ hguard, Pte.encrypted_of_not_clear hnot]
    exact ⟨hroom, hu, (hflags _ hguard).2.1⟩
  · intro page hp hne
    rw [hsize] at hp hne
    have hf := hb.flags page hp
    rw [if_neg hne] at hf
    have hu : (d.pte page).u = true := congrArg Flags.u hf
    have hc : (d.pte page).clear = true := by
      simp [Pte.clear, (hflags page hp).1, hu, (hflags page hp).2.2]
    rw [hpte page hp, Pte.encrypted, if_pos hc]
    exact ⟨hu, rfl, rfl⟩
  · intro page hp i hi
    rw [hsize] at hp ⊢
    have hbytes : ph'.mem (d.pte page).frame = ph.mem (d.pte page).frame :=
      freevm_outside (hold _ (hpage (hum page hp))) hfreevm
    calc content m'.pgdir m'.phys page i = content d ph' page i :=
          congrFun (hrec.content page (hum page hp)) i
      _ = ph'.mem (d.pte page).frame i := by
          rw [content, if_neg (by simp [(hflags page hp).2.2])]
      _ = ph.mem (d.pte page).frame i := by rw [hbytes]
      _ = (imageOf ip argv sz).2 (4096 * page + i) := hb.reads page hp i hi
  · exact ⟨rfl, fun _ => rfl⟩
  · have hframes : m'.resetQueue.pgdir.frames = d.frames := by
      have hpages : m'.pgdir.pages = d.pages :=
        Inventory.contents_congr fun page _ => hrec.pageFrame page
      have htables : m'.pgdir.tables = d.tables := by
        rw [PgDir.tables, hrec.table, PgDir.tables]
      change m'.pgdir.frames = d.frames
      rw [PgDir.frames, hpages, htables, hrec.frame, PgDir.frames]
    refine ⟨ph.freelist, ?_, ?_⟩
    · rw [hframes, hacc]
    · change (m'.phys.freelist : Multiset Nat) = _
      rw [hrec.free, hfree]
  · rfl
  · rw [hsize]
    exact ⟨rfl, hb.stack.symm⟩

/-- The process before the first `exec`. -/
def blankProc : ExecProc := ⟨blank, List.replicate 16 0, 0, 0⟩

theorem blank_inventoried : blank.Inventoried := by
  have htables : blank.pgdir.tables = 0 := Inventory.contents_none fun _ _ => rfl
  have hpages : blank.pgdir.pages = 0 := Inventory.contents_none fun _ _ => rfl
  rw [Machine.Inventoried, PgDir.frames, htables, hpages, add_zero, Multiset.nodup_add]
  refine ⟨Multiset.coe_nodup.mpr (List.nodup_range' ..), Multiset.nodup_singleton _, ?_⟩
  apply Multiset.disjoint_left.mpr
  intro f hfree hf
  rw [Multiset.mem_singleton.mp hf] at hfree
  have hin : 1024 ∈ List.range' 2000 200 := Multiset.mem_coe.mp hfree
  have := List.left_le_of_mem_range' hin
  omega

end CS537.Pager
