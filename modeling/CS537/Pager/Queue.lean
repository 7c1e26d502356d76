import CS537.Pager.Memory

/-!
# Pager — encryption and the clock queue

The encryption half of `vm.c`, and `sys_mencrypt`. `mdecrypt` and `insertQueue`
call each other. Here the number of slots `insertQueue` may examine is an
argument of both, and so is the number of calls of `insertQueue` that may be
nested; a call that needs more ends in `outOfFuel`.
-/

namespace CS537.Pager

open MachineInt

/-- `walkpgdir` with `alloc` 0. -/
def walkpgdir (d : PgDir) (va : Nat) : Option PtePtr :=
  if d.hasTable (ppn va) then some ⟨d.frame, ppn va⟩ else none

/-- The page whose entry a `pte_t *` of the current process points to. -/
def Machine.resolve (m : Machine) : Option PtePtr → Except Fault Nat
  | none => .error .nullDeref
  | some ptr =>
      if ptr.dir = m.pgdir.frame ∧ m.pgdir.hasTable ptr.page then .ok ptr.page
      else .error .wildPte

/-- `uva2ka`: the frame of a user page. -/
def uva2ka (d : PgDir) (uva : Nat) : Except Fault (Option Nat) :=
  match walkpgdir d uva with
  | none => .error .nullDeref
  | some ptr =>
      let pte := d.pte ptr.page
      if !pte.mapped then .ok none
      else if !pte.u then .ok none
      else .ok (some pte.frame)

/-! ## `mencrypt` -/

/-- The body of the loop of `mencrypt`. -/
def mencryptPage (pageStart : Nat) (m : Machine) : Except Fault Machine := do
  match ← uva2ka m.pgdir pageStart with
  | none => return m
  | some kernelAddr =>
      let page := ppn pageStart
      let pte := m.pgdir.pte page
      if pte.e then return m
      return (m.setPte page { pte with p := false, e := true }).flip kernelAddr

/-- The loop of `mencrypt`, over `n` pages. -/
def mencryptLoop : Nat → Nat → Machine → Except Fault Machine
  | 0, _, m => .ok m
  | n + 1, pageStart, m => do
      let m ← mencryptPage pageStart m
      mencryptLoop n (u32 (pageStart + 4096)) m

/-- `mencrypt`. -/
def mencrypt (va : Nat) (len : Int) (m : Machine) : Except Fault (Int × Machine) :=
  if len = 0 then .ok (0, m)
  else if len < 0 then .ok (-1, m)
  else do
    let m ← mencryptLoop len.toNat (pgRoundDown va) m
    return (0, m)

/-- `sys_mencrypt`, once the arguments are fetched. -/
def sysMencrypt (va : Nat) (len : Int) (m : Machine) : Except Fault (Int × Machine) :=
  if len ≤ 0 then .ok (-1, m)
  -- `argptr`, with size 1
  else if va ≥ m.sz ∨ u32 (va + 1) > m.sz then .ok (-1, m)
  -- `P2V(PHYSTOP)`
  else if va ≥ kernbase + phystop then .ok (-1, m)
  else mencrypt va len m

/-! ## `insertQueue` and `mdecrypt` -/

/-- `clockQueue[i]`, to be read. Before the array lies `name`. -/
def Machine.vpnAt (m : Machine) (i : Int) : Except Fault Nat :=
  if 0 ≤ i ∧ i < clocksize then .ok (m.clockQueue i.toNat).vpn
  else if i = -1 then .ok m.nameTail
  else .error .badIndex

/-- An index of `clockQueue`. -/
def slotIndex (i : Int) : Except Fault Nat :=
  if 0 ≤ i ∧ i < clocksize then .ok i.toNat else .error .badIndex

/-- The loop of `insertQueue`, examining at most that many slots. -/
def insertLoop (vpn : Nat) (pte : Option PtePtr) : Nat → Machine → Except Fault Machine
  | 0, _ => .error .outOfFuel
  | slots + 1, m => do
      let m := m.setIndex ((m.clockIndex + 1).tmod clocksize)
      let i ← slotIndex m.clockIndex
      let node := m.clockQueue i
      if node.vpn = noVpn then return m.setSlot i ⟨vpn, pte⟩
      let page ← m.resolve node.pte
      let v := m.pgdir.pte page
      if !v.a then
        let (_, m) ← mencrypt node.vpn 1 m
        return m.setSlot i ⟨vpn, pte⟩
      insertLoop vpn pte slots (m.setPte page { v with a := false })

/-- `insertQueue`, with the `mdecrypt` it ends in. -/
def insertQueue (slots : Nat) (mdecrypt : Nat → Machine → Except Fault (Int × Machine))
    (vpn : Nat) (pte : Option PtePtr) (m : Machine) : Except Fault Machine := do
  let m ← insertLoop vpn pte slots m
  let (_, m) ← mdecrypt vpn m
  return m

/-- `mdecrypt`, with the `insertQueue` it calls. -/
def mdecryptWith (insertQueue : Nat → Option PtePtr → Machine → Except Fault Machine)
    (va : Nat) (m : Machine) : Except Fault (Int × Machine) := do
  let alignedAddr := pgRoundDown va
  match ← uva2ka m.pgdir alignedAddr with
  | none => return (-1, m)
  | some kernelAddr =>
      let pte := walkpgdir m.pgdir alignedAddr
      let page := ppn alignedAddr
      let v := m.pgdir.pte page
      if v.e && !v.p then
        let m := (m.flip kernelAddr).setPte page { v with p := true, e := false }
        let m ← insertQueue alignedAddr pte m
        return (0, m)
      else return (-1, m)

/-- `mdecrypt`, with at most `depth` calls of `insertQueue` nested. -/
def mdecrypt (slots : Nat) : Nat → Nat → Machine → Except Fault (Int × Machine)
  | 0 => mdecryptWith fun _ _ _ => .error .outOfFuel
  | depth + 1 => mdecryptWith (insertQueue slots (mdecrypt slots depth))

/-! ## `removeQueue` -/

/-- The first loop of `removeQueue`: `matchedIndex`, or -1. -/
def findLoop (vpn : Nat) (m : Machine) : Nat → Nat → Except Fault Int
  | 0, _ => .ok (-1)
  | n + 1, i => do
      let index := (m.clockIndex + i).tmod clocksize
      if (← m.vpnAt index) = vpn then return index
      findLoop vpn m n (i + 1)

/-- The second loop of `removeQueue`, of at most that many iterations. It ends
only at an index of the array. -/
def shiftLoop (startIndex : Int) : Nat → Nat → Machine → Except Fault Machine
  | 0, i, m => if (i : Int) = startIndex then .ok m else .error .outOfFuel
  | n + 1, i, m =>
      if (i : Int) = startIndex then .ok m
      else
        let nextIndex := (i + 1) % clocksize
        shiftLoop startIndex n nextIndex (m.setSlot i (m.clockQueue nextIndex))

/-- `removeQueue`. -/
def removeQueue (vpn : Nat) (m : Machine) : Except Fault Machine := do
  let matchedIndex ← findLoop vpn m clocksize 0
  if matchedIndex = -1 then return m
  let i ← slotIndex matchedIndex
  let (_, m) ← mencrypt (m.clockQueue i).vpn 1 m
  let m ← shiftLoop m.clockIndex clocksize i m
  let s ← slotIndex m.clockIndex
  let m := m.setSlot s { m.clockQueue s with vpn := noVpn }
  return m.setIndex (if m.clockIndex = 0 then clocksize - 1 else m.clockIndex - 1)

end CS537.Pager
