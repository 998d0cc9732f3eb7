import LightningLob.Types

/-! # Occupancy bitset

    `bitset_utils.hpp`: a dynamic bitset with nearest-set-bit scans that work
    a 64-bit word at a time. -/

namespace LightningLob

/-- One word of the bitset. -/
abbrev Word : Type := BitVec 64

def kBitsPerWord : Nat := 64

/-- `std::countl_zero` on a word. -/
def Word.countlZero (w : Word) : Nat :=
  ((List.range 64).find? fun i => w.getMsbD i).getD 64

/-- `std::popcount` on a word. -/
def Word.popcount (w : Word) : Nat :=
  (List.range 64).countP fun i => w.getLsbD i

structure Bitset where
  numBits : Nat
  words : List Word
  deriving DecidableEq, Repr

namespace Bitset

/-- The constructor.  It rounds up in `size_t`, where the sum can wrap. -/
def create (numBits : Nat) : Bitset where
  numBits := numBits
  words := List.replicate ((numBits + kBitsPerWord - 1) % 2 ^ 64 / kBitsPerWord) 0

/-- The word mask of a position. -/
def bit (index : Nat) : Word := 1#64 <<< (index % kBitsPerWord)

/-- The word holding a position.  `assert(index < num_bits_)` and the vector
    bound are both faults when violated. -/
def wordOf (b : Bitset) (index : Nat) : Run Word :=
  if index < b.numBits then b.words[index / kBitsPerWord]? else none

def set (b : Bitset) (index : Nat) : Run Bitset := do
  let w ← b.wordOf index
  pure { b with words := b.words.set (index / kBitsPerWord) (w ||| bit index) }

def clear (b : Bitset) (index : Nat) : Run Bitset := do
  let w ← b.wordOf index
  pure { b with words := b.words.set (index / kBitsPerWord) (w &&& ~~~(bit index)) }

def test (b : Bitset) (index : Nat) : Run Bool := do
  let w ← b.wordOf index
  pure (w &&& bit index != 0)

def count (b : Bitset) : Nat :=
  (b.words.map Word.popcount).sum

/-- The forward scan over the words still ahead, `wordIdx` being the position
    of the first of them. -/
def scanUp (wordIdx : Nat) : List Word → Option Nat
  | [] => none
  | w :: ws =>
      if w ≠ 0 then some (wordIdx * kBitsPerWord + countrZero w.toNat) else scanUp (wordIdx + 1) ws

/-- `find_next_set`: the smallest set bit at or above `pos`. -/
def findNextSet (b : Bitset) (pos : Nat) : Run (Option Nat) :=
  if pos ≥ b.numBits then
    pure none
  else do
    let wordIdx := pos / kBitsPerWord
    let w ← b.words[wordIdx]?
    -- bits below `pos` in the first word do not count
    let masked := w &&& (~~~(0#64) <<< (pos % kBitsPerWord))
    pure ((scanUp wordIdx (masked :: b.words.drop (wordIdx + 1))).filter (· < b.numBits))

/-- The backward scan: `word` is the (masked) word at `wordIdx`. -/
def scanDown (words : List Word) : Nat → Word → Run (Option Nat)
  | wordIdx, word =>
      if word ≠ 0 then
        pure (some (wordIdx * kBitsPerWord + (kBitsPerWord - 1 - word.countlZero)))
      else
        match wordIdx with
        | 0 => pure none
        | k + 1 => do
            let w ← words[k]?
            scanDown words k w

/-- `find_prev_set`: the largest set bit at or below `pos`. -/
def findPrevSet (b : Bitset) (pos : Nat) : Run (Option Nat) :=
  if b.words.isEmpty ∨ pos ≥ b.numBits then
    pure none
  else do
    let wordIdx := pos / kBitsPerWord
    let bitOff := pos % kBitsPerWord
    -- a shift by 64 would be undefined, hence the case
    let mask : Word := if bitOff = kBitsPerWord - 1 then ~~~(0#64) else (1#64 <<< (bitOff + 1)) - 1
    let w ← b.words[wordIdx]?
    scanDown b.words wordIdx (w &&& mask)

end Bitset

end LightningLob
