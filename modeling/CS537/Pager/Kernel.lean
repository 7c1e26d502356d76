import CS537.Lib.Lts
import CS537.Pager.Vm

/-!
# Pager — the calls of a process

`growproc` and `fork` of `proc.c`, `exec.c`, and what a process does from one
call to the next. Followed is one process, or by `fork` one line of descent. The
physical memory it finds after others have run is arbitrary.
-/

namespace CS537.Pager

open MachineInt

/-! ## `growproc` -/

/-- The loop of `growproc` over the pages given up, of at most that many
iterations. -/
def removeLoop (sz : Nat) : Nat → Nat → Machine → Except Fault Machine
  | 0, page, m => if page ≥ sz then .error .outOfFuel else .ok m
  | k + 1, page, m =>
      if page ≥ sz then do
        let m ← removeQueue page m
        removeLoop sz k (u32 (page + 4294963200)) m
      else .ok m

/-- `growproc`. -/
def growproc (n : Int) (m : Machine) : Except Fault (Int × Machine) :=
  let oldSz := m.sz
  if n > 0 then do
    let (sz, d, ph) ← allocuvm m.sz (toU32 (m.sz + n)) m.pgdir m.phys
    let m := { m with pgdir := d, phys := ph }
    if sz = 0 then return (-1, m)
    let (_, m) ← mencrypt oldSz (n.tdiv 4096) m
    return (0, { m with sz := sz })
  else if n < 0 then do
    let (sz, d, ph) ← deallocuvm m.sz (toU32 (m.sz + n)) m.pgdir m.phys
    let m := { m with pgdir := d, phys := ph }
    if sz = 0 then return (-1, m)
    let page := pgRoundDown (toU32 ((oldSz : Int) - 1))
    let m ← removeLoop sz (page / 4096 + 1) page m
    return (0, { m with sz := sz })
  else return (0, m)

/-! ## `fork` -/

/-- `fork`: what it returns, the child, and the parent. `pid` is the one
`allocproc` hands out, unless the process table is full; `name` is the child's
`nameTail`. -/
def fork (pid : Option Int) (name : Nat) (m : Machine) :
    Except Fault (Int × Option Machine × Machine) :=
  match pid with
  | none => .ok (-1, none, m)
  | some pid =>
      match kalloc m.phys with
      | none => .ok (-1, none, m)
      | some (kstack, ph) => do
          match ← copyuvm m.pgdir m.sz ph with
          | (none, ph) =>
              let ph ← kfree kstack ph
              return (-1, none, { m with phys := ph })
          | (some d, ph) =>
              let child : Machine :=
                { phys := ph
                  pgdir := d
                  sz := m.sz
                  clockQueue := fun i =>
                    ⟨(m.clockQueue i).vpn, walkpgdir d (m.clockQueue i).vpn⟩
                  clockIndex := m.clockIndex
                  nameTail := name }
              return (pid, some child, { m with phys := ph })

/-! ## `exec` -/

/-- The little-endian number of some bytes. -/
def leBytes (bytes : List UInt8) : Nat :=
  bytes.foldr (fun b n => b.toNat + 256 * n) 0

/-- The field of a C structure that lies at an offset. -/
def field (bytes : List UInt8) (off size : Nat) : Nat :=
  leBytes ((bytes.drop off).take size)

/-- The bytes of a `uint`. -/
def uintBytes (n : Nat) : List UInt8 :=
  [n, n / 256, n / 65536, n / 16777216].map UInt8.ofNat

/-- The loop of `exec` over the program headers, from offset `off` on: the size
it comes to, `none` being `goto bad`. -/
def segLoop (ip : List UInt8) :
    Nat → Nat → Nat → PgDir → Phys → Except Fault (Option Nat × PgDir × Phys)
  | 0, _, sz, d, ph => .ok (some sz, d, ph)
  | n + 1, off, sz, d, ph =>
      let bytes := (readi ip off 32).getD []
      let filesz := field bytes 16 4
      let memsz := field bytes 20 4
      let vaddr := field bytes 8 4
      if bytes.length ≠ 32 then .ok (none, d, ph)
      -- `ELF_PROG_LOAD`
      else if field bytes 0 4 ≠ 1 then segLoop ip n (u32 (off + 32)) sz d ph
      else if memsz < filesz then .ok (none, d, ph)
      else if u32 (vaddr + memsz) < vaddr then .ok (none, d, ph)
      else do
        let (sz, d, ph) ← allocuvm sz (u32 (vaddr + memsz)) d ph
        if sz = 0 then return (none, d, ph)
        if vaddr % 4096 ≠ 0 then return (none, d, ph)
        let (ok, ph) ← loaduvm vaddr ip (field bytes 4 4) filesz d ph
        if !ok then return (none, d, ph)
        segLoop ip n (u32 (off + 32)) sz d ph

/-- The loop of `exec` over the arguments: the stack pointer it comes to and the
words of `ustack` it has filled in. -/
def argLoop (d : PgDir) :
    List (List UInt8) → Nat → Nat → List Nat → Phys →
      Except Fault (Option (Nat × List Nat) × Phys)
  | [], _, sp, ustack, ph => .ok (some (sp, ustack), ph)
  | arg :: argv, argc, sp, ustack, ph =>
      -- `MAXARG`
      if argc ≥ 32 then .ok (none, ph)
      else do
        let sp := toU32 ((sp : Int) - (arg.length + 1)) / 4 * 4
        let (ok, ph) ← copyout sp (arg ++ [0]) d ph
        if !ok then return (none, ph)
        argLoop d argv (argc + 1) sp (ustack ++ [sp]) ph

/-- What `exec` does between `setupkvm` and committing to the user image. -/
def loadImage (ip : List UInt8) (elf : List UInt8) (argv : List (List UInt8))
    (d : PgDir) (ph : Phys) : Except Fault (Option Nat × PgDir × Phys) := do
  let (res, d, ph) ← segLoop ip (field elf 44 2) (field elf 28 4) 0 d ph
  match res with
  | none => return (none, d, ph)
  | some sz =>
      let sz := pgRoundUp sz
      let (sz, d, ph) ← allocuvm sz (u32 (sz + 8192)) d ph
      if sz = 0 then return (none, d, ph)
      let d ← clearpteu (sz - 8192) d
      let (res, ph) ← argLoop d argv 0 sz [] ph
      match res with
      | none => return (none, d, ph)
      | some (sp, args) =>
          let argc := args.length
          let ustack := [4294967295, argc, toU32 ((sp : Int) - (argc + 1) * 4)] ++ args ++ [0]
          let sp := toU32 ((sp : Int) - (3 + argc + 1) * 4)
          let (ok, ph) ← copyout sp (ustack.flatMap uintBytes) d ph
          if !ok then return (none, d, ph)
          return (some sz, d, ph)

/-- The end of `exec`: the working set of the new image is empty. -/
def Machine.resetQueue (m : Machine) : Machine :=
  { m with
    clockIndex := -1
    clockQueue := fun i => { m.clockQueue i with vpn := noVpn } }

/-- `exec` of what `namei` finds. `name` is the `nameTail` it leaves. -/
def exec (file : Option (List UInt8)) (argv : List (List UInt8)) (name : Nat)
    (m : Machine) : Except Fault (Int × Machine) :=
  match file with
  | none => .ok (-1, m)
  | some ip =>
      let elf := (readi ip 0 52).getD []
      if elf.length ≠ 52 then .ok (-1, m)
      -- `ELF_MAGIC`
      else if field elf 0 4 ≠ 1179403647 then .ok (-1, m)
      else do
        match ← setupkvm m.phys with
        | (none, ph) => return (-1, { m with phys := ph })
        | (some d, ph) =>
            match ← loadImage ip elf argv d ph with
            | (none, d, ph) =>
                let ph ← freevm d ph
                return (-1, { m with phys := ph })
            | (some sz, d, ph) =>
                let ph ← freevm m.pgdir ph
                let m := { m with phys := ph, pgdir := d, sz := sz, nameTail := name }
                let (_, m) ← mencrypt 0 (sz / 4096 : Nat) m
                return (0, m.resetQueue)

/-! ## Runs -/

/-- What the process does, or what happens while it does not run. -/
inductive Event where
  /-- User code touches an address. -/
  | access (va : Nat)
  | mencrypt (va : Nat) (len : Int)
  | sbrk (n : Int)
  /-- `fork`, going on with the parent. -/
  | fork (pid : Option Int) (name : Nat)
  /-- `fork`, going on with the child. -/
  | child (pid : Option Int) (name : Nat)
  | exec (file : Option (List UInt8)) (argv : List (List UInt8)) (name : Nat)
  /-- Others run. -/
  | other (ph : Phys)

/-- The `int` values. -/
def IsInt (z : Int) : Prop := -2147483648 ≤ z ∧ z < 2147483648

/-- One event. A run does not go on after a fault of the kernel, nor after an
access that gets the process killed. -/
inductive Step : Machine → Event → Machine → Prop
  /-- The hardware sets `PTE_A`. -/
  | touch {m : Machine} {va : Nat} :
      va < 4294967296 → m.pgdir.hasTable (ppn va) →
      (m.pgdir.pte (ppn va)).p → (m.pgdir.pte (ppn va)).u →
      Step m (.access va) (m.setPte (ppn va) { m.pgdir.pte (ppn va) with a := true })
  /-- `trap` of a page fault, when it returns to the process. -/
  | fault {m m' : Machine} {va slots depth : Nat} :
      va < 4294967296 → m.pgdir.hasTable (ppn va) →
      (m.pgdir.pte (ppn va)).p = false →
      mdecrypt slots depth va m = .ok (0, m') → Step m (.access va) m'
  | mencrypt {m m' : Machine} {va : Nat} {len r : Int} :
      va < 4294967296 → IsInt len → sysMencrypt va len m = .ok (r, m') →
      Step m (.mencrypt va len) m'
  | sbrk {m m' : Machine} {n r : Int} :
      IsInt n → growproc n m = .ok (r, m') → Step m (.sbrk n) m'
  | fork {m m' : Machine} {pid : Option Int} {name : Nat} {r : Int}
      {child : Option Machine} :
      fork pid name m = .ok (r, child, m') → Step m (.fork pid name) m'
  | child {m m' child : Machine} {pid : Option Int} {name : Nat} {r : Int} :
      fork pid name m = .ok (r, some child, m') → Step m (.child pid name) child
  | exec {m m' : Machine} {file : Option (List UInt8)} {argv : List (List UInt8)}
      {name : Nat} {r : Int} :
      exec file argv name m = .ok (r, m') → Step m (.exec file argv name) m'
  | other {m : Machine} {ph : Phys} : Step m (.other ph) { m with phys := ph }

/-- The states of a process that has just completed `exec`. -/
def Execs (m : Machine) : Prop :=
  ∃ m₀ file argv name, exec file argv name m₀ = .ok (0, m)

end CS537.Pager
