import LightningLob.BitsetSpec
import Mathlib.Data.Finset.Card
import Mathlib.Order.Bounds.Defs

/-! # The bitset as a set of positions

    Writes one after another, and the set of positions that were last set.
    Membership, count and both scans read that set, whatever the number of
    positions and wherever they fall in the words. -/

namespace LightningLob

namespace Bitset

/-! ## Section 1: Writes -/

/-- A call that changes the bitset. -/
inductive Write where
  | set (index : Nat)
  | clear (index : Nat)
  deriving DecidableEq, Repr

/-- The position a write is about. -/
def Write.index : Write → Nat
  | .set i => i
  | .clear i => i

/-- One write on the words. -/
def write (b : Bitset) : Write → Run Bitset
  | .set i => b.set i
  | .clear i => b.clear i

/-- One write on the set of positions. -/
def Write.apply (positions : Finset Nat) : Write → Finset Nat
  | .set i => insert i positions
  | .clear i => positions.erase i

/-- The positions last set by a sequence of writes. -/
def lastSet (writes : List Write) : Finset Nat := writes.foldl Write.apply ∅

/-! ## Section 2: The words stand for the set -/

/-- The bitset of `n` positions whose set ones are those of `positions`. -/
structure StandsFor (n : Nat) (b : Bitset) (positions : Finset Nat) : Prop where
  wf : b.WF
  numBits_eq : b.numBits = n
  has_iff : ∀ i, b.has i = true ↔ i ∈ positions

/-- One write changes the words and the set alike. -/
theorem StandsFor.write {n : Nat} {b : Bitset} {positions : Finset Nat}
    (h : StandsFor n b positions) {w : Write} (hw : w.index < n) :
    ∃ b', b.write w = some b' ∧ StandsFor n b' (w.apply positions) := by
  cases w with
  | set i =>
    obtain ⟨b', hrun, hwrites⟩ := h.wf.set_spec (i := i) (by rw [h.numBits_eq]; exact hw)
    refine ⟨b', hrun, hwrites.wf, hwrites.numBits_eq.trans h.numBits_eq, ?_⟩
    intro j
    rw [hwrites.has_eq]
    by_cases hj : j = i
    · simp [hj, Write.apply]
    · simp [hj, Write.apply, h.has_iff]
  | clear i =>
    obtain ⟨b', hrun, hwrites⟩ := h.wf.clear_spec (i := i) (by rw [h.numBits_eq]; exact hw)
    refine ⟨b', hrun, hwrites.wf, hwrites.numBits_eq.trans h.numBits_eq, ?_⟩
    intro j
    rw [hwrites.has_eq]
    by_cases hj : j = i
    · simp [hj, Write.apply]
    · simp [hj, Write.apply, h.has_iff]

/-- So does any sequence of writes. -/
theorem StandsFor.writes {n : Nat} :
    ∀ (writes : List Write) {b : Bitset} {positions : Finset Nat}, StandsFor n b positions →
      (∀ w ∈ writes, w.index < n) →
      ∃ b', writes.foldlM Bitset.write b = some b' ∧
        StandsFor n b' (writes.foldl Write.apply positions) := by
  intro writes
  induction writes with
  | nil => intro b positions h _; exact ⟨b, rfl, h⟩
  | cons w writes ih =>
    intro b positions h hlt
    obtain ⟨b₁, hrun, h₁⟩ := h.write (hlt w (by simp))
    obtain ⟨b', hrest, h'⟩ := ih h₁ fun v hv => hlt v (by simp [hv])
    exact ⟨b', by rw [List.foldlM_cons, hrun]; exact hrest, h'⟩

theorem StandsFor.create {n : Nat} (hn : n ≤ 2 ^ 64 - 64) : StandsFor n (create n) ∅ := by
  obtain ⟨hwf, hnone⟩ := create_spec hn
  exact ⟨hwf, rfl, by simp [hnone]⟩

/-! ## Section 3: Reading the set -/

section reading

variable {n : Nat} {b : Bitset} {positions : Finset Nat}

theorem StandsFor.has_eq (h : StandsFor n b positions) (i : Nat) :
    b.has i = decide (i ∈ positions) := by
  rw [Bool.eq_iff_iff, h.has_iff, decide_eq_true_iff]

theorem StandsFor.lt (h : StandsFor n b positions) {i : Nat} (hi : i ∈ positions) : i < n := by
  rw [← h.numBits_eq]
  exact h.wf.lt_of_has ((h.has_iff i).mpr hi)

/-- `count` is the number of elements. -/
theorem StandsFor.count_eq (h : StandsFor n b positions) : b.count = positions.card := by
  have hset : positions = ((List.range n).filter b.has).toFinset := by
    ext i
    simp only [List.mem_toFinset, List.mem_filter, List.mem_range, h.has_iff]
    constructor
    · intro hi
      exact ⟨h.lt hi, hi⟩
    · intro hi
      exact hi.2
  have hnodup : ((List.range n).filter b.has).Nodup := List.nodup_range.filter _
  rw [h.wf.count_eq, h.numBits_eq, List.countP_eq_length_filter,
    ← List.toFinset_card_of_nodup hnodup, ← hset]

/-- The least element from `pos` up, or nothing. -/
def LeastFrom (positions : Finset Nat) (pos : Nat) : Option Nat → Prop
  | none => ∀ i ∈ positions, i < pos
  | some i => IsLeast { j | j ∈ positions ∧ pos ≤ j } i

/-- The greatest element from `pos` down, or nothing. -/
def GreatestFrom (positions : Finset Nat) (pos : Nat) : Option Nat → Prop
  | none => ∀ i ∈ positions, pos < i
  | some i => IsGreatest { j | j ∈ positions ∧ j ≤ pos } i

theorem StandsFor.leastFrom (h : StandsFor n b positions) {pos : Nat} {r : Option Nat}
    (hr : IsFirst b.has pos r) : LeastFrom positions pos r := by
  cases r with
  | none =>
    intro i hi
    by_contra hge
    have := hr i (by omega)
    rw [(h.has_iff i).mpr hi] at this
    cases this
  | some i =>
    obtain ⟨hle, hi, hbelow⟩ := hr
    refine ⟨⟨(h.has_iff i).mp hi, hle⟩, ?_⟩
    rintro j ⟨hj, hpos⟩
    by_contra hlt
    have := hbelow j hpos (by omega)
    rw [(h.has_iff j).mpr hj] at this
    cases this

theorem StandsFor.greatestFrom (h : StandsFor n b positions) {pos : Nat} {r : Option Nat}
    (hr : IsLast b.has pos r) : GreatestFrom positions pos r := by
  cases r with
  | none =>
    intro i hi
    by_contra hge
    have := hr i (by omega)
    rw [(h.has_iff i).mpr hi] at this
    cases this
  | some i =>
    obtain ⟨hle, hi, habove⟩ := hr
    refine ⟨⟨(h.has_iff i).mp hi, hle⟩, ?_⟩
    rintro j ⟨hj, hpos⟩
    by_contra hlt
    have := habove j (by omega) hpos
    rw [(h.has_iff j).mpr hj] at this
    cases this

end reading

/-! ## Section 4: Sizes that wrap -/

/-- Writes change no word count and no size. -/
theorem write_size {b b' : Bitset} {w : Write} (h : b.write w = some b') :
    b'.numBits = b.numBits ∧ b'.words.length = b.words.length := by
  cases w with
  | set i | clear i =>
    obtain ⟨word, -, hb⟩ := Option.bind_eq_some_iff.mp h
    cases hb
    exact ⟨rfl, List.length_set⟩

theorem writes_size :
    ∀ (writes : List Write) {b b' : Bitset}, writes.foldlM write b = some b' →
      b'.numBits = b.numBits ∧ b'.words.length = b.words.length := by
  intro writes
  induction writes with
  | nil =>
    intro b b' h
    cases h
    exact ⟨rfl, rfl⟩
  | cons w writes ih =>
    intro b b' h
    rw [List.foldlM_cons] at h
    obtain ⟨b₁, hw, hrest⟩ := Option.bind_eq_some_iff.mp h
    obtain ⟨hbits₁, hwords₁⟩ := write_size hw
    obtain ⟨hbits, hwords⟩ := ih hrest
    exact ⟨hbits.trans hbits₁, hwords.trans hwords₁⟩

/-- Where the rounding up wraps, the last position has no word. -/
theorem no_last_word {numBits : Nat} (hwrap : 2 ^ 64 - 64 < numBits) :
    (create numBits).words.length ≤ (numBits - 1) / kBitsPerWord := by
  have hlength : (create numBits).words.length =
      (numBits + kBitsPerWord - 1) % 2 ^ 64 / kBitsPerWord := List.length_replicate
  have hmod := Nat.mod_lt (numBits + kBitsPerWord - 1) (Nat.two_pow_pos 64)
  rw [hlength]
  simp only [kBitsPerWord] at *
  omega

/-- A scan that starts past the words reads outside them. -/
theorem findNextSet_fault {b : Bitset} {pos : Nat} (hpos : pos < b.numBits)
    (hwords : b.words.length ≤ pos / kBitsPerWord) : b.findNextSet pos = none := by
  have hnone : b.words[pos / kBitsPerWord]? = none := List.getElem?_eq_none hwords
  simp [findNextSet, Nat.not_le.mpr hpos, hnone]

/-! ## Section 5: Exactly when the scans are right -/

/-- What the writes leave answers `test`, `count`, `find_next_set` from any
    position and `find_prev_set` from any position in range by the set of
    positions last set, and no call reads outside the words. -/
def ReadsLastSet (numBits : Nat) (writes : List Write) : Prop :=
  ∃ b, writes.foldlM write (create numBits) = some b ∧
    (∀ i < numBits, b.test i = some (decide (i ∈ lastSet writes))) ∧
    (∀ i ∈ lastSet writes, i < numBits) ∧
    b.count = (lastSet writes).card ∧
    (∀ pos, ∃ r, b.findNextSet pos = some r ∧ LeastFrom (lastSet writes) pos r) ∧
    (∀ pos < numBits, ∃ r, b.findPrevSet pos = some r ∧ GreatestFrom (lastSet writes) pos r)

theorem readsLastSet {numBits : Nat} (hn : numBits ≤ 2 ^ 64 - 64) {writes : List Write}
    (h : ∀ w ∈ writes, w.index < numBits) : ReadsLastSet numBits writes := by
  obtain ⟨b, hrun, hb⟩ := StandsFor.writes writes (StandsFor.create hn) h
  refine ⟨b, hrun, ?_, fun i hi => hb.lt hi, hb.count_eq, ?_, ?_⟩
  · intro i hi
    rw [hb.wf.test_spec (by rw [hb.numBits_eq]; exact hi), hb.has_eq]
    rfl
  · intro pos
    obtain ⟨r, hr, hfirst⟩ := hb.wf.findNextSet_spec pos
    exact ⟨r, hr, hb.leastFrom hfirst⟩
  · intro pos hpos
    obtain ⟨r, hr, hlast⟩ := hb.wf.findPrevSet_spec (by rw [hb.numBits_eq]; exact hpos)
    exact ⟨r, hr, hb.greatestFrom hlast⟩

/-- **The scans are their set-level definitions** after any writes to positions
    in range, exactly if the constructor's rounding up does not wrap. -/
theorem bitset_scans_read_last_set_iff (numBits : Nat) (writes : List Write)
    (h : ∀ w ∈ writes, w.index < numBits) :
    ReadsLastSet numBits writes ↔ numBits ≤ 2 ^ 64 - 64 := by
  constructor
  · rintro ⟨b, hrun, -, -, -, hnext, -⟩
    by_contra hwrap
    obtain ⟨hbits, hwords⟩ := writes_size writes hrun
    have hbits : b.numBits = numBits := hbits
    -- the scan from the last position finds no word to start with
    have hfault : b.findNextSet (numBits - 1) = none :=
      findNextSet_fault (by omega) (hwords ▸ no_last_word (by omega))
    obtain ⟨r, hr, -⟩ := hnext (numBits - 1)
    rw [hfault] at hr
    cases hr
  · intro hn
    exact readsLastSet hn h

/-- Seventy positions, with a write on each side of a word boundary. -/
theorem bitset_scans_read_last_set_across_words :
    ReadsLastSet 70 [.set 63, .set 64, .set 69, .clear 64] ∧
      lastSet [.set 63, .set 64, .set 69, .clear 64] = {63, 69} := by
  have hiff := bitset_scans_read_last_set_iff 70 [.set 63, .set 64, .set 69, .clear 64]
    (by simp [Write.index])
  exact ⟨hiff.mpr (by decide), by decide⟩

/-- The largest size has no words: neither a scan nor a write finds one. -/
theorem bitset_without_words :
    (create (2 ^ 64 - 1)).findNextSet 0 = none ∧ (create (2 ^ 64 - 1)).set 0 = none ∧
      ¬ ReadsLastSet (2 ^ 64 - 1) [] := by
  have hwords : (create (2 ^ 64 - 1)).words.length = 0 := by decide
  have hscan : (create (2 ^ 64 - 1)).findNextSet 0 = none :=
    findNextSet_fault (by decide) (Nat.le_of_eq hwords)
  refine ⟨hscan, by decide, ?_⟩
  rintro ⟨b, hrun, -, -, -, hnext, -⟩
  cases hrun
  obtain ⟨r, hr, -⟩ := hnext 0
  rw [hscan] at hr
  cases hr

end Bitset

end LightningLob
