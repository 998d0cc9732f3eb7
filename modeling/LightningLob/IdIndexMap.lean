import LightningLob.Types
import Mathlib.Data.Nat.Notation

/-! # The order-id index

    `id_index_map.hpp`: open addressing with linear probing, Fibonacci
    hashing, and backward-shift deletion.  A slot whose key is
    `kInvalidOrderId` is empty.

    The three probe loops of the source (`insert`, `find`, `erase`) are the
    same loop: walk from the home slot to the first slot that is empty or
    holds the key.  The home slot is a parameter of the loops, so that their
    correctness does not rest on the particular hash. -/

namespace LightningLob

/-! ## Section 1: Slots and probing -/

/-- `IdIndexMap::Slot`. -/
structure Slot where
  key : OrderId := kInvalidOrderId
  value : Nat := 0
  deriving DecidableEq, Repr

namespace Slots

/-- `(idx + 1) & mask()`. -/
def advance (slots : List Slot) (idx : Nat) : Nat :=
  (idx + 1) &&& (slots.length - 1)

/-- The probe loop: the first slot from `idx` on that is empty or holds `key`.
    One trip round the table without finding one means the loop never ends. -/
def probeFrom (slots : List Slot) (key : OrderId) : Nat → Nat → Run Nat
  | 0, _ => none
  | fuel + 1, idx => do
      let s ← slots[idx]?
      if s.key = kInvalidOrderId ∨ s.key = key then
        pure idx
      else
        probeFrom slots key fuel (advance slots idx)

def probe (home : OrderId → Nat) (slots : List Slot) (key : OrderId) : Run Nat :=
  probeFrom slots key slots.length (home key)

/-- `r` lies in the cyclic interval `(i, j]`. -/
def between (i r j : Nat) : Bool :=
  if i ≤ j then i < r ∧ r ≤ j else i < r ∨ r ≤ j

/-- The repair loop of `erase`: `i` is the hole, `j` the last slot scanned.
    An entry moves back into the hole unless its home lies in `(i, j]`. -/
def shiftBack (home : OrderId → Nat) : Nat → List Slot → Nat → Nat → Run (List Slot)
  | 0, _, _, _ => none
  | fuel + 1, slots, i, j => do
      let j := advance slots j
      let s ← slots[j]?
      -- the end of the cluster
      if s.key = kInvalidOrderId then
        pure slots
      else if between i (home s.key) j then
        shiftBack home fuel slots i j
      else
        shiftBack home fuel ((slots.set i s).set j {}) j j

/-- `erase` on the slots alone: `none` inside the run when the key is absent. -/
def erase (home : OrderId → Nat) (slots : List Slot) (key : OrderId) :
    Run (Option (List Slot)) := do
  let i ← probe home slots key
  let s ← slots[i]?
  if s.key = kInvalidOrderId then
    pure none
  else
    let slots ← shiftBack home slots.length (slots.set i {}) i i
    pure (some slots)

end Slots

/-! ## Section 2: The map -/

structure IdIndexMap where
  slots : List Slot
  size : Nat := 0
  shift : Nat
  deriving DecidableEq, Repr

namespace IdIndexMap

def kMinCapacity : Nat := 16

/-- The 64-bit golden-ratio multiplier. -/
def kFibonacciMul : Nat := 0x9E3779B97F4A7C15

/-- `slot_for`: the high bits of the 64-bit product. -/
def slotFor (shift : Nat) (key : OrderId) : Nat :=
  (key * kFibonacciMul % 2 ^ 64) >>> shift

/-- `allocate`: `cap` empty slots and the matching shift. -/
def allocate (cap : Nat) : IdIndexMap where
  slots := List.replicate cap {}
  shift := 64 - countrZero cap

/-- The constructor's sizing loop in 64-bit arithmetic.  Once the doubling has
    overflowed to zero it never ends; 64 rounds are enough to tell. -/
def capacityFor (target : Nat) : Nat → Nat → Run Nat
  | 0, _ => none
  | fuel + 1, cap =>
      if cap < target then capacityFor target fuel (cap * 2 % 2 ^ 64) else pure cap

def create (capacityHint : Nat) : Run IdIndexMap := do
  let cap ← capacityFor (capacityHint * 2 % 2 ^ 64) 64 kMinCapacity
  pure (allocate cap)

def find (m : IdIndexMap) (key : OrderId) : Run (Option Nat) := do
  let idx ← Slots.probe (slotFor m.shift) m.slots key
  let s ← m.slots[idx]?
  pure (if s.key = kInvalidOrderId then none else some s.value)

def contains (m : IdIndexMap) (key : OrderId) : Run Bool := do
  let v ← m.find key
  pure v.isSome

/-- `insert` once there is room: `false` if the key is already present. -/
def insertSlot (m : IdIndexMap) (key : OrderId) (value : Nat) : Run (Bool × IdIndexMap) := do
  let idx ← Slots.probe (slotFor m.shift) m.slots key
  let s ← m.slots[idx]?
  if s.key = kInvalidOrderId then
    pure (true, { m with slots := m.slots.set idx ⟨key, value⟩, size := m.size + 1 })
  else
    pure (false, m)

/-- `grow`: a table of twice the size, every live slot inserted again with the
    given `insert`. -/
def grow (insert : IdIndexMap → OrderId → Nat → Run (Bool × IdIndexMap)) (m : IdIndexMap) :
    Run IdIndexMap :=
  m.slots.foldlM
    (fun acc s =>
      if s.key ≠ kInvalidOrderId then (insert acc s.key s.value).map Prod.snd else pure acc)
    (allocate (m.slots.length * 2))

/-- `insert` and `grow` call each other.  The first argument bounds the
    nesting: exceeding it is a fault. -/
def insertNested : Nat → IdIndexMap → OrderId → Nat → Run (Bool × IdIndexMap)
  | 0, _, _, _ => none
  | depth + 1, m, key, value => do
      -- at most half full after the insertion
      let m ← if (m.size + 1) * 2 > m.slots.length then m.grow (insertNested depth) else pure m
      m.insertSlot key value

/-- `insert`: a rehash inserts into a half-empty table, so growth never nests. -/
def insert (m : IdIndexMap) (key : OrderId) (value : Nat) : Run (Bool × IdIndexMap) :=
  insertNested 2 m key value

def erase (m : IdIndexMap) (key : OrderId) : Run (Bool × IdIndexMap) := do
  match ← Slots.erase (slotFor m.shift) m.slots key with
  | some slots => pure (true, { m with slots := slots, size := m.size - 1 })
  | none => pure (false, m)

def clear (m : IdIndexMap) : IdIndexMap :=
  { m with slots := List.replicate m.slots.length {}, size := 0 }

end IdIndexMap

end LightningLob
