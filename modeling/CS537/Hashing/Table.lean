import CS537.Lib.MachineInt
import CS537.Lib.CString

/-!
# Hashing — the table

`P3A: MapReduce/hashmap.c`: an open-addressing hash map from C strings to
blocks of bytes. A slot of `contents` is `none` for a null pointer; indexing
`contents` outside the block it points to is a `Fault`, and so is a loop that
runs longer than the fuel it is given. Allocation succeeds and the lock is
held, so neither appears.
-/

namespace CS537.Hashing

open MachineInt

/-- A `MapPair`: the key and the `value_size` bytes copied for it. -/
structure MapPair where
  key : CString
  value : List UInt8
  deriving DecidableEq, Repr

structure HashMap where
  contents : List (Option MapPair)
  capacity : Nat
  size : Nat
  deriving DecidableEq, Repr

inductive Fault where
  | badIndex
  | outOfFuel
  deriving DecidableEq, Repr

/-- `MAP_INIT_CAPACITY`. -/
def mapInitCapacity : Nat := 11

/-- `MapInit`. -/
def mapInit : HashMap where
  contents := List.replicate mapInitCapacity none
  capacity := mapInitCapacity
  size := 0

/-! ## Hashing -/

/-- `FNV_OFFSET`. -/
def fnvOffset : UInt64 := 14695981039346656037

/-- `FNV_PRIME`. -/
def fnvPrime : UInt64 := 1099511628211

/-- One round of the loop of `Hash`. The first xor takes the byte unsigned, the
second as a `char`, which is signed: it extends the sign bit. -/
def hashByte (h : UInt64) (c : UInt8) : UInt64 :=
  ((h ^^^ c.toUInt64) * fnvPrime) ^^^ c.toInt8.toInt64.toUInt64

/-- `Hash`. -/
def hash (key : CString) (capacity : Nat) : Nat :=
  (key.bytes.foldl hashByte fnvOffset).toNat % capacity

theorem hash_lt {capacity : Nat} (key : CString) (h : 0 < capacity) :
    hash key capacity < capacity := Nat.mod_lt _ h

/-! ## Probing -/

/-- `contents[h]`. -/
def slotAt (contents : List (Option MapPair)) (h : Int) : Except Fault (Option MapPair) :=
  if h < 0 then .error .badIndex
  else
    match contents[h.toNat]? with
    | some slot => .ok slot
    | none => .error .badIndex

/-- The probing loop of `MapPut`, `MapGet` and `resize_map`: from slot `h` up
to the first empty slot or the first entry that passes `same`, and that slot's
contents. `h` is an `int`; the test for the end compares it with a `size_t`. -/
def probe (contents : List (Option MapPair)) (capacity : Nat) (same : MapPair → Bool) :
    Nat → Int → Except Fault (Int × Option MapPair)
  | 0, _ => .error .outOfFuel
  | fuel + 1, h =>
      match slotAt contents h with
      | .error f => .error f
      | .ok none => .ok (h, none)
      | .ok (some entry) =>
          if same entry then .ok (h, some entry)
          else
            let h' := i32 (h + 1)
            probe contents capacity same fuel (if toU64 h' = capacity then 0 else h')

/-- The loop of `resize_map` over the old slots still to visit. Its probe
compares no keys. -/
def rehash (fuel newcapacity : Nat) :
    List (Option MapPair) → List (Option MapPair) → Except Fault (List (Option MapPair))
  | [], temp => .ok temp
  | none :: rest, temp => rehash fuel newcapacity rest temp
  | some entry :: rest, temp => do
      let (h, _) ← probe temp newcapacity (fun _ => false) fuel (i32 (hash entry.key newcapacity))
      rehash fuel newcapacity rest (temp.set h.toNat (some entry))

/-- `resize_map`. -/
def resizeMap (fuel : Nat) (map : HashMap) : Except Fault HashMap := do
  let newcapacity := u64 (map.capacity * 2)
  let temp ← rehash fuel newcapacity (map.contents.take map.capacity)
    (List.replicate newcapacity none)
  return { map with contents := temp, capacity := newcapacity }

/-- The test that opens `MapPut`. -/
def makeRoom (fuel : Nat) (map : HashMap) : Except Fault HashMap :=
  if map.size > map.capacity / 2 then resizeMap fuel map else .ok map

/-- `MapPut`. -/
def mapPut (fuel : Nat) (map : HashMap) (key : CString) (value : List UInt8) :
    Except Fault HashMap := do
  let map ← makeRoom fuel map
  let (h, found) ← probe map.contents map.capacity (fun e => key.strcmp e.key = 0) fuel
    (i32 (hash key map.capacity))
  let contents := map.contents.set h.toNat (some { key, value })
  match found with
  | some _ => return { map with contents }
  | none => return { map with contents, size := u64 (map.size + 1) }

/-- `MapGet`; `none` is the null pointer. -/
def mapGet (fuel : Nat) (map : HashMap) (key : CString) : Except Fault (Option (List UInt8)) := do
  let (_, found) ← probe map.contents map.capacity (fun e => key.strcmp e.key = 0) fuel
    (i32 (hash key map.capacity))
  return found.map MapPair.value

/-- `MapSize`. -/
def mapSize (map : HashMap) : Nat := map.size

/-- A sequence of `MapPut` calls on the map `MapInit` returns. -/
def mapPuts (fuel : Nat) (puts : List (CString × List UInt8)) : Except Fault HashMap :=
  puts.foldlM (fun map kv => mapPut fuel map kv.1 kv.2) mapInit

end CS537.Hashing
