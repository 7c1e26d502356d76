import CS537.Pager.Queue

/-!
# Pager — page directories

The part of `vm.c` that builds, grows, copies and frees page directories. These
functions work on any page directory, so they take it and physical memory as
arguments. Loops over pages have a bound on their iterations that covers the
pages in question.
-/

namespace CS537.Pager

open MachineInt

/-- A directory entry for `page` that points to the zeroed table in `frame`. -/
def PgDir.newTable (d : PgDir) (page frame : Nat) : PgDir :=
  { d with
    table := Function.update d.table (pdx page) (some frame),
    pte := fun q => if pdx q = pdx page then Pte.zero else d.pte q }

/-- `walkpgdir` with `alloc` 1. -/
def walkpgdirAlloc (d : PgDir) (va : Nat) (ph : Phys) : Option (PgDir × Phys) :=
  if d.hasTable (ppn va) then some (d, ph)
  else
    match kalloc ph with
    | none => none
    | some (f, ph) => some (d.newTable (ppn va) f, memset f 0 ph)

/-- The entry `mappages` writes. -/
def mapEntry (pa : Nat) (perm : Flags) : Pte :=
  if perm.e then { perm with frame := pa / 4096 }
  else { perm with p := true, frame := pa / 4096 }

/-- The loop of `mappages`, over `n` pages. `false` is its -1. -/
def mapLoop (perm : Flags) :
    Nat → Nat → Nat → PgDir → Phys → Except Fault (Bool × PgDir × Phys)
  | 0, _, _, d, ph => .ok (true, d, ph)
  | n + 1, a, pa, d, ph =>
      match walkpgdirAlloc d a ph with
      | none => .ok (false, d, ph)
      | some (d, ph) =>
          if (d.pte (ppn a)).mapped then .error .panic
          else
            mapLoop perm n (u32 (a + 4096)) (u32 (pa + 4096))
              (d.set (ppn a) (mapEntry pa perm)) ph

/-- `mappages`. Its loop goes from `a` on to `last`, round the end of the address
space if need be. -/
def mappages (va size pa : Nat) (perm : Flags) (d : PgDir) (ph : Phys) :
    Except Fault (Bool × PgDir × Phys) :=
  let a := pgRoundDown va
  let last := pgRoundDown (u32 (va + size + 4294967295))
  mapLoop perm (u32 (last + 4294967296 - a) / 4096 + 1) a pa d ph

/-! ## Freeing -/

/-- The loop of `deallocuvm`, of at most that many iterations. -/
def deallocLoop (oldsz : Nat) :
    Nat → Nat → PgDir → Phys → Except Fault (PgDir × Phys)
  | 0, a, d, ph => if a < oldsz then .error .outOfFuel else .ok (d, ph)
  | n + 1, a, d, ph =>
      if a < oldsz then
        match walkpgdir d a with
        -- `PGADDR(PDX(a) + 1, 0, 0)`, after the increment of the loop
        | none => deallocLoop oldsz n (u32 ((pdx (ppn a) + 1) * 4194304)) d ph
        | some ptr =>
            let pte := d.pte ptr.page
            if !pte.mapped then deallocLoop oldsz n (u32 (a + 4096)) d ph
            else if pte.frame = 0 then .error .panic
            else do
              let ph ← kfree pte.frame ph
              deallocLoop oldsz n (u32 (a + 4096)) (d.set ptr.page Pte.zero) ph
      else .ok (d, ph)

/-- `deallocuvm`. -/
def deallocuvm (oldsz newsz : Nat) (d : PgDir) (ph : Phys) :
    Except Fault (Nat × PgDir × Phys) :=
  if newsz ≥ oldsz then .ok (oldsz, d, ph)
  else do
    let (d, ph) ← deallocLoop oldsz (oldsz / 4096 + 1) (pgRoundUp newsz) d ph
    return (newsz, d, ph)

/-- The loop of `freevm` over the directory entries. -/
def freeTables (d : PgDir) (is : List Nat) (ph : Phys) : Except Fault Phys :=
  match is with
  | [] => .ok ph
  | i :: is =>
      match d.table i with
      | none => freeTables d is ph
      | some f => do freeTables d is (← kfree f ph)

/-- `freevm`. -/
def freevm (d : PgDir) (ph : Phys) : Except Fault Phys := do
  let (_, d, ph) ← deallocuvm kernbase 0 d ph
  let ph ← freeTables d (List.range npdentries) ph
  kfree d.frame ph

/-! ## Building -/

/-- `struct kmap`. -/
structure Kmap where
  virt : Nat
  physStart : Nat
  physEnd : Nat
  perm : Flags

/-- `PTE_W`. -/
def Flags.write : Flags := { Flags.none with w := true }

/-- `PTE_W | PTE_U`. -/
def Flags.user : Flags := { Flags.none with w := true, u := true }

/-- `kmap`. -/
def kmap (data : Nat) : List Kmap :=
  [⟨kernbase, 0, extmem, Flags.write⟩,
   ⟨kernlink, extmem, data * 4096, Flags.none⟩,
   ⟨kernbase + data * 4096, data * 4096, phystop, Flags.write⟩,
   ⟨devspace, devspace, 0, Flags.write⟩]

/-- The loop of `setupkvm`. -/
def kmapLoop : List Kmap → PgDir → Phys → Except Fault (Bool × PgDir × Phys)
  | [], d, ph => .ok (true, d, ph)
  | k :: ks, d, ph => do
      let (ok, d, ph) ← mappages k.virt (u32 (k.physEnd + 4294967296 - k.physStart))
        k.physStart k.perm d ph
      if ok then kmapLoop ks d ph else return (false, d, ph)

/-- `setupkvm`. `PHYSTOP` is not too high. -/
def setupkvm (ph : Phys) : Except Fault (Option PgDir × Phys) :=
  match kalloc ph with
  | none => .ok (none, ph)
  | some (f, ph) => do
      let d : PgDir := ⟨f, fun _ => none, fun _ => Pte.zero⟩
      let (ok, d, ph) ← kmapLoop (kmap ph.data) d (memset f 0 ph)
      if ok then return (some d, ph)
      else
        let ph ← freevm d ph
        return (none, ph)

/-- The loop of `allocuvm`, of at most that many iterations. -/
def allocLoop (oldsz newsz : Nat) :
    Nat → Nat → PgDir → Phys → Except Fault (Nat × PgDir × Phys)
  | 0, a, d, ph => if a < newsz then .error .outOfFuel else .ok (newsz, d, ph)
  | n + 1, a, d, ph =>
      if a < newsz then
        match kalloc ph with
        | none => do
            let (_, d, ph) ← deallocuvm newsz oldsz d ph
            return (0, d, ph)
        | some (mem, ph) => do
            let (ok, d, ph) ← mappages a pgsize (mem * 4096) Flags.user d (memset mem 0 ph)
            if ok then allocLoop oldsz newsz n (u32 (a + 4096)) d ph
            else
              let (_, d, ph) ← deallocuvm newsz oldsz d ph
              let ph ← kfree mem ph
              return (0, d, ph)
      else .ok (newsz, d, ph)

/-- `allocuvm`. -/
def allocuvm (oldsz newsz : Nat) (d : PgDir) (ph : Phys) :
    Except Fault (Nat × PgDir × Phys) :=
  if newsz ≥ kernbase then .ok (0, d, ph)
  else if newsz < oldsz then .ok (oldsz, d, ph)
  else allocLoop oldsz newsz (newsz / 4096 + 1) (pgRoundUp oldsz) d ph

/-- `clearpteu`. -/
def clearpteu (uva : Nat) (d : PgDir) : Except Fault PgDir :=
  match walkpgdir d uva with
  | none => .error .panic
  | some ptr => .ok (d.set ptr.page { d.pte ptr.page with u := false })

/-! ## Copying -/

/-- `memmove` of a page. -/
def memmove (dst src : Nat) (ph : Phys) : Phys :=
  { ph with mem := Function.update ph.mem dst (ph.mem src) }

/-- The loop of `copyuvm`, of at most that many iterations. -/
def copyLoop (pgdir : PgDir) (sz : Nat) :
    Nat → Nat → PgDir → Phys → Except Fault (Bool × PgDir × Phys)
  | 0, i, d, ph => if i < sz then .error .outOfFuel else .ok (true, d, ph)
  | n + 1, i, d, ph =>
      if i < sz then
        match walkpgdir pgdir i with
        | none => .error .panic
        | some ptr =>
            let pte := pgdir.pte ptr.page
            if pte.mapped then
              match kalloc ph with
              | none => .ok (false, d, ph)
              | some (mem, ph) => do
                  let (ok, d, ph) ← mappages i pgsize (mem * 4096) pte.toFlags d
                    (memmove mem pte.frame ph)
                  if ok then copyLoop pgdir sz n (u32 (i + 4096)) d ph
                  else
                    let ph ← kfree mem ph
                    return (false, d, ph)
            else .error .panic
      else .ok (true, d, ph)

/-- `copyuvm`. -/
def copyuvm (pgdir : PgDir) (sz : Nat) (ph : Phys) : Except Fault (Option PgDir × Phys) := do
  match ← setupkvm ph with
  | (none, ph) => return (none, ph)
  | (some d, ph) =>
      let (ok, d, ph) ← copyLoop pgdir sz (sz / 4096 + 1) 0 d ph
      if ok then return (some d, ph)
      else
        let ph ← freevm d ph
        return (none, ph)

/-- `memmove` of some bytes into a page, from offset `off` on. -/
def Phys.write (frame off : Nat) (buf : List UInt8) (ph : Phys) : Phys :=
  { ph with
    mem := Function.update ph.mem frame fun i =>
      if off ≤ i then buf.getD (i - off) (ph.mem frame i) else ph.mem frame i }

/-- The loop of `copyout`, of at most that many iterations. `false` is its -1. -/
def copyoutLoop (d : PgDir) : Nat → Nat → List UInt8 → Phys → Except Fault (Bool × Phys)
  | 0, _, buf, ph => if buf = [] then .ok (true, ph) else .error .outOfFuel
  | k + 1, va, buf, ph =>
      if buf = [] then .ok (true, ph)
      else do
        let va0 := pgRoundDown va
        match ← uva2ka d va0 with
        | none => return (false, ph)
        | some pa0 =>
            let n := min (4096 - (va - va0)) buf.length
            copyoutLoop d k (u32 (va0 + 4096)) (buf.drop n)
              (ph.write pa0 (va - va0) (buf.take n))

/-- `copyout`. -/
def copyout (va : Nat) (buf : List UInt8) (d : PgDir) (ph : Phys) :
    Except Fault (Bool × Phys) :=
  copyoutLoop d (buf.length + 1) va buf ph

/-! ## Loading -/

/-- `readi` of a file that is not a device: what it reads, `none` being -1. -/
def readi (file : List UInt8) (off n : Nat) : Option (List UInt8) :=
  if off > file.length ∨ u32 (off + n) < off then none
  else some ((file.drop off).take n)

/-- The loop of `loaduvm`, of at most that many iterations. `false` is its -1. -/
def loadLoop (d : PgDir) (addr : Nat) (file : List UInt8) (offset sz : Nat) :
    Nat → Nat → Phys → Except Fault (Bool × Phys)
  | 0, i, ph => if i < sz then .error .outOfFuel else .ok (true, ph)
  | k + 1, i, ph =>
      if i < sz then
        match walkpgdir d (u32 (addr + i)) with
        | none => .error .panic
        | some ptr =>
            let n := min (sz - i) 4096
            match readi file (u32 (offset + i)) n with
            | none => .ok (false, ph)
            | some buf =>
                let ph := ph.write (d.pte ptr.page).frame 0 buf
                if buf.length = n then
                  loadLoop d addr file offset sz k (u32 (i + 4096)) ph
                else .ok (false, ph)
      else .ok (true, ph)

/-- `loaduvm`. -/
def loaduvm (addr : Nat) (file : List UInt8) (offset sz : Nat) (d : PgDir) (ph : Phys) :
    Except Fault (Bool × Phys) :=
  if addr % 4096 ≠ 0 then .error .panic
  else loadLoop d addr file offset sz (sz / 4096 + 1) 0 ph

end CS537.Pager
