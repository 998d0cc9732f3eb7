import LightningLob.Bitset
import Mathlib.Data.Nat.Bitwise
import Mathlib.Data.List.Range

/-! # What the bitset operations do

    A bitset is read through `has`, the set of its set positions; the scans
    find the nearest set position above or below, and faults never happen for
    positions inside the set. -/

namespace LightningLob

/-! ## Section 1: Words -/

namespace Word

/-- The lowest set bit. -/
theorem countrZero_spec {w : Word} (h : w ≠ 0) :
    countrZero w.toNat < 64 ∧ w.getLsbD (countrZero w.toNat) = true ∧
      ∀ j < countrZero w.toNat, w.getLsbD j = false := by
  unfold countrZero
  cases hf : (List.range 64).find? fun i => w.toNat.testBit i with
  | none =>
    -- a non-zero word has a set bit
    exfalso
    apply h
    apply BitVec.eq_of_getLsbD_eq
    intro i hi
    have hbit : ¬ w.getLsbD i = true := List.find?_eq_none.mp hf i (by simpa using hi)
    simpa using hbit
  | some i =>
    obtain ⟨hi, hmem, hlt⟩ := List.find?_range_eq_some.mp hf
    refine ⟨by simpa using hmem, hi, ?_⟩
    intro j hj
    have hbit : (!w.getLsbD j) = true := hlt j hj
    simpa using hbit

/-- The highest set bit. -/
theorem countlZero_spec {w : Word} (h : w ≠ 0) :
    w.countlZero < 64 ∧ w.getLsbD (63 - w.countlZero) = true ∧
      ∀ j, 63 - w.countlZero < j → w.getLsbD j = false := by
  unfold countlZero
  cases hf : (List.range 64).find? fun i => w.getMsbD i with
  | none =>
    exfalso
    apply h
    apply BitVec.eq_of_getMsbD_eq
    intro i hi
    have := List.find?_eq_none.mp hf i (by simpa using hi)
    simpa using this
  | some i =>
    obtain ⟨hi, hmem, hlt⟩ := List.find?_range_eq_some.mp hf
    have hi64 : i < 64 := by simpa using hmem
    refine ⟨hi64, ?_, ?_⟩
    · simpa [BitVec.getMsbD, hi64] using hi
    · intro j hj
      by_cases hj64 : j < 64
      · have := hlt (63 - j) (by simp at hj; omega)
        simp only [BitVec.getMsbD, Bool.not_eq_true', Bool.and_eq_false_iff,
          decide_eq_false_iff_not] at this
        rcases this with hc | hc
        · omega
        · rwa [show 64 - 1 - (63 - j) = j by omega] at hc
      · exact BitVec.getLsbD_of_ge w j (by omega)

theorem getLsbD_bit {i j : Nat} (hi : i < 64) : (1#64 <<< i).getLsbD j = decide (j = i) := by
  rw [BitVec.getLsbD_shiftLeft, BitVec.getLsbD_one, Bool.eq_iff_iff]
  simp only [Bool.and_eq_true, Bool.not_eq_true', decide_eq_true_eq, decide_eq_false_iff_not]
  omega

/-- The mask of the positions from `i` up. -/
theorem getLsbD_maskUp {i j : Nat} (hj : j < 64) :
    (~~~(0#64) <<< i).getLsbD j = decide (i ≤ j) := by
  rw [BitVec.getLsbD_shiftLeft, BitVec.getLsbD_not, BitVec.getLsbD_zero, Bool.eq_iff_iff]
  simp only [Bool.and_eq_true, Bool.not_eq_true', decide_eq_true_eq, decide_eq_false_iff_not,
    Bool.not_false, and_true]
  omega

/-- The mask of the positions up to `i`. -/
theorem getLsbD_maskDown {i j : Nat} (hi : i < 64) (hj : j < 64) :
    (if i = 63 then ~~~(0#64) else (1#64 <<< (i + 1)) - 1).getLsbD j = decide (j ≤ i) := by
  by_cases h : i = 63
  · rw [if_pos h, BitVec.getLsbD_not, BitVec.getLsbD_zero, Bool.eq_iff_iff]
    simp only [Bool.and_eq_true, decide_eq_true_eq, Bool.not_false, and_true]
    omega
  · rw [if_neg h]
    -- `(1 << (i + 1)) - 1`, computed without overflow for `i < 63`
    have hpow : 2 ^ (i + 1) < 2 ^ 64 := Nat.pow_lt_pow_right (by decide) (by omega)
    have hpos : 0 < 2 ^ (i + 1) := Nat.two_pow_pos _
    have hnat : ((1#64 <<< (i + 1)) - 1).toNat = 2 ^ (i + 1) - 1 := by
      have hone : (1 : BitVec 64).toNat = 1 := rfl
      have hone' : (1#64).toNat = 1 := rfl
      rw [BitVec.toNat_sub, BitVec.toNat_shiftLeft, hone, hone', Nat.shiftLeft_eq, Nat.one_mul]
      generalize 2 ^ (i + 1) = n at *
      omega
    rw [BitVec.getLsbD, hnat, Nat.testBit_two_pow_sub_one, Bool.eq_iff_iff]
    simp only [decide_eq_true_eq]
    omega

end Word

/-! ## Section 2: The set of set positions -/

namespace Bitset

/-- Whether a position is set. -/
def has (b : Bitset) (i : Nat) : Bool :=
  (b.words[i / 64]?.map fun w => w.getLsbD (i % 64)).getD false

theorem getLsbD_bit (i j : Nat) : (bit i).getLsbD j = decide (j = i % 64) :=
  Word.getLsbD_bit (Nat.mod_lt _ (by decide))

/-- The words cover the positions, and nothing is set beyond them. -/
structure WF (b : Bitset) : Prop where
  length : b.words.length = (b.numBits + 63) / 64
  above : ∀ i, b.numBits ≤ i → b.has i = false

section specs

variable {b : Bitset} {i : Nat}

theorem WF.lt_of_has (h : b.WF) (hi : b.has i = true) : i < b.numBits := by
  by_contra hc
  rw [h.above i (by omega)] at hi
  cases hi

theorem WF.wordOf_eq (h : b.WF) (hi : i < b.numBits) :
    ∃ w, b.wordOf i = some w ∧ b.words[i / 64]? = some w := by
  have hlt : i / 64 < b.words.length := by rw [h.length]; omega
  refine ⟨b.words[i / 64], ?_, List.getElem?_eq_getElem hlt⟩
  simp [wordOf, hi, kBitsPerWord, List.getElem?_eq_getElem hlt]

theorem has_eq {w : Word} (hw : b.words[i / 64]? = some w) : b.has i = w.getLsbD (i % 64) := by
  simp [has, hw]

/-- A word that changes one bit changes one position. -/
theorem has_set_word {w w' : Word} (hw : b.words[i / 64]? = some w) {v : Bool}
    (hw' : ∀ j < 64, w'.getLsbD j = if j = i % 64 then v else w.getLsbD j) (j : Nat) :
    has { b with words := b.words.set (i / 64) w' } j = if j = i then v else b.has j := by
  have hlt : i / 64 < b.words.length := (List.getElem?_eq_some_iff.mp hw).1
  by_cases hj : j / 64 = i / 64
  -- a position of the same word: its bit decides
  · have hset : (b.words.set (i / 64) w')[j / 64]? = some w' := by
      rw [hj, List.getElem?_set_self hlt]
    rw [has, hset, Option.map_some, Option.getD_some, hw' _ (Nat.mod_lt _ (by decide)),
      has_eq (hj ▸ hw)]
    by_cases hji : j = i
    · simp [hji]
    · rw [if_neg hji, if_neg (by omega)]
  · have hset : (b.words.set (i / 64) w')[j / 64]? = b.words[j / 64]? :=
      List.getElem?_set_ne (Ne.symm hj)
    rw [has, hset, if_neg (by rintro rfl; exact hj rfl)]
    rfl

/-- After a write to one position. -/
structure Writes (b : Bitset) (i : Nat) (v : Bool) (b' : Bitset) : Prop where
  wf : b'.WF
  numBits_eq : b'.numBits = b.numBits
  has_eq : ∀ j, b'.has j = if j = i then v else b.has j

theorem WF.writes (h : b.WF) (hi : i < b.numBits) {w w' : Word} (hw : b.words[i / 64]? = some w)
    {v : Bool} (hw' : ∀ j < 64, w'.getLsbD j = if j = i % 64 then v else w.getLsbD j) :
    Writes b i v { b with words := b.words.set (i / 64) w' } where
  wf := by
    refine ⟨by simp [h.length], ?_⟩
    intro j hj
    rw [has_set_word hw hw', if_neg, h.above j hj]
    rintro rfl
    exact absurd hi (Nat.not_lt.mpr hj)
  numBits_eq := rfl
  has_eq := has_set_word hw hw'

theorem WF.set_spec (h : b.WF) (hi : i < b.numBits) :
    ∃ b', b.set i = some b' ∧ Writes b i true b' := by
  obtain ⟨w, hrun, hw⟩ := h.wordOf_eq hi
  refine ⟨_, by simp only [set, hrun, Option.bind_eq_bind, Option.bind_some]; rfl,
    h.writes hi hw ?_⟩
  intro j hj
  rw [BitVec.getLsbD_or, getLsbD_bit]
  by_cases hji : j = i % 64 <;> simp [hji]

theorem WF.clear_spec (h : b.WF) (hi : i < b.numBits) :
    ∃ b', b.clear i = some b' ∧ Writes b i false b' := by
  obtain ⟨w, hrun, hw⟩ := h.wordOf_eq hi
  refine ⟨_, by simp only [clear, hrun, Option.bind_eq_bind, Option.bind_some]; rfl,
    h.writes hi hw ?_⟩
  intro j hj
  rw [BitVec.getLsbD_and, BitVec.getLsbD_not, getLsbD_bit]
  by_cases hji : j = i % 64 <;> simp [hji, hj]

theorem WF.test_spec (h : b.WF) (hi : i < b.numBits) : b.test i = some (b.has i) := by
  obtain ⟨w, hrun, hw⟩ := h.wordOf_eq hi
  -- only the tested bit can survive the mask
  have hbit : ∀ j, (w &&& bit i).getLsbD j = (w.getLsbD j && decide (j = i % 64)) := by
    intro j
    rw [BitVec.getLsbD_and, getLsbD_bit]
  simp only [test, hrun, Option.bind_eq_bind, Option.bind_some, Option.pure_def, Option.some.injEq,
    has_eq hw]
  cases hv : w.getLsbD (i % 64) with
  | true =>
    rw [bne_iff_ne]
    intro hc
    have := hbit (i % 64)
    rw [hc, hv] at this
    simp at this
  | false =>
    rw [bne_eq_false_iff_eq]
    apply BitVec.eq_of_getLsbD_eq
    intro j hj
    rw [hbit]
    by_cases hji : j = i % 64
    · simp [hji, hv]
    · simp [hji]

end specs

/-! ## Section 3: The scans -/

/-- `r` is the first position from `pos` up that satisfies `p`. -/
def IsFirst (p : Nat → Bool) (pos : Nat) : Option Nat → Prop
  | none => ∀ j, pos ≤ j → p j = false
  | some i => pos ≤ i ∧ p i = true ∧ ∀ j, pos ≤ j → j < i → p j = false

/-- `r` is the first position from `pos` down that satisfies `p`. -/
def IsLast (p : Nat → Bool) (pos : Nat) : Option Nat → Prop
  | none => ∀ j, j ≤ pos → p j = false
  | some i => i ≤ pos ∧ p i = true ∧ ∀ j, i < j → j ≤ pos → p j = false

/-- The forward scan over the words from position `k` on. -/
theorem scanUp_spec (ws : List Word) :
    ∀ (k : Nat) (p : Nat → Bool),
      (∀ j, p (k * 64 + j) = (ws[j / 64]?.map fun w => w.getLsbD (j % 64)).getD false) →
      IsFirst p (k * 64) (scanUp k ws) := by
  -- `p` reads the words still ahead, so the induction can shift it by a word
  induction ws with
  | nil =>
    intro k p hp j hj
    obtain ⟨d, rfl⟩ := Nat.exists_eq_add_of_le hj
    rw [hp]
    simp
  | cons w ws ih =>
    intro k p hp
    have hword : ∀ j < 64, p (k * 64 + j) = w.getLsbD j := by
      intro j hj
      rw [hp, Nat.div_eq_of_lt hj, Nat.mod_eq_of_lt hj]
      rfl
    simp only [scanUp]
    by_cases hw : w = 0
    · -- nothing in this word: the rest of the scan decides
      rw [if_neg (not_not.mpr hw)]
      have hzero : ∀ j, k * 64 ≤ j → j < (k + 1) * 64 → p j = false := by
        intro j hj hlt
        obtain ⟨d, rfl⟩ := Nat.exists_eq_add_of_le hj
        rw [hword d (by omega), hw]
        simp
      have hrest := ih (k + 1) p (by
        intro j
        rw [show (k + 1) * 64 + j = k * 64 + (64 + j) by omega, hp,
          show (64 + j) / 64 = j / 64 + 1 by omega, show (64 + j) % 64 = j % 64 by omega]
        rfl)
      cases hr : scanUp (k + 1) ws with
      | none =>
        rw [hr] at hrest
        intro j hj
        rcases Nat.lt_or_ge j ((k + 1) * 64) with hlt | hge
        · exact hzero j hj hlt
        · exact hrest j hge
      | some i =>
        rw [hr] at hrest
        obtain ⟨hle, hi, hlt⟩ := hrest
        refine ⟨by omega, hi, ?_⟩
        intro j hj hji
        rcases Nat.lt_or_ge j ((k + 1) * 64) with hlt' | hge
        · exact hzero j hj hlt'
        · exact hlt j hge hji
    · rw [if_pos hw]
      obtain ⟨hlt, hset, hbelow⟩ := Word.countrZero_spec hw
      refine ⟨Nat.le_add_right _ _, by rw [kBitsPerWord, hword _ hlt]; exact hset, ?_⟩
      intro j hj hji
      obtain ⟨d, rfl⟩ := Nat.exists_eq_add_of_le hj
      have hd : d < countrZero w.toNat := by simpa [kBitsPerWord] using hji
      rw [hword d (by omega)]
      exact hbelow d hd

/-- `find_next_set` returns the first set position from `pos` up. -/
theorem WF.findNextSet_spec {b : Bitset} (h : b.WF) (pos : Nat) :
    ∃ r, b.findNextSet pos = some r ∧ IsFirst b.has pos r := by
  unfold findNextSet
  by_cases hpos : pos ≥ b.numBits
  · rw [if_pos hpos]
    exact ⟨none, rfl, fun j hj => h.above j (by omega)⟩
  · rw [if_neg hpos]
    have hlt : pos / 64 < b.words.length := by rw [h.length]; omega
    obtain ⟨w, hw⟩ : ∃ w, b.words[pos / 64]? = some w := ⟨_, List.getElem?_eq_getElem hlt⟩
    -- the scan sees the first word masked: positions below `pos` are not counted
    have hfirst := scanUp_spec
      ((w &&& (~~~(0#64) <<< (pos % 64))) :: b.words.drop (pos / 64 + 1)) (pos / 64)
      (fun j => decide (pos ≤ j) && b.has j) (by
        intro j
        by_cases hj : j < 64
        · rw [Nat.div_eq_of_lt hj, Nat.mod_eq_of_lt hj]
          have hdiv : (pos / 64 * 64 + j) / 64 = pos / 64 := by omega
          have hmod : (pos / 64 * 64 + j) % 64 = j := by omega
          have hle : (pos ≤ pos / 64 * 64 + j) ↔ pos % 64 ≤ j := by omega
          simp only [List.getElem?_cons_zero, Option.map_some, Option.getD_some,
            BitVec.getLsbD_and, Word.getLsbD_maskUp hj]
          rw [has_eq (by rw [hdiv]; exact hw), hmod, Bool.and_comm, decide_eq_decide.mpr hle]
        · have hle : pos ≤ pos / 64 * 64 + j := by omega
          rw [show j / 64 = (j / 64 - 1) + 1 by omega, List.getElem?_cons_succ, List.getElem?_drop]
          simp only [hle, decide_true, Bool.true_and, has]
          rw [show (pos / 64 * 64 + j) / 64 = pos / 64 + 1 + (j / 64 - 1) by omega,
            show (pos / 64 * 64 + j) % 64 = j % 64 by omega])
    have hw' : b.words[pos / kBitsPerWord]? = some w := hw
    simp only [hw', Option.bind_eq_bind, Option.bind_some, Option.pure_def]
    refine ⟨_, rfl, ?_⟩
    show IsFirst b.has pos (Option.filter _ (scanUp (pos / 64)
      ((w &&& (~~~(0#64) <<< (pos % 64))) :: b.words.drop (pos / 64 + 1))))
    cases hr : scanUp (pos / 64)
      ((w &&& (~~~(0#64) <<< (pos % 64))) :: b.words.drop (pos / 64 + 1)) with
    | none =>
      rw [hr] at hfirst
      intro j hj
      have := hfirst j (by omega)
      simpa [hj] using this
    | some i =>
      rw [hr] at hfirst
      obtain ⟨hle, hi, hbelow⟩ := hfirst
      simp only [Bool.and_eq_true, decide_eq_true_eq] at hi
      -- the source's bound check on the result never fails
      have hfilter : (some i).filter (fun x => decide (x < b.numBits)) = some i := by
        simp [h.lt_of_has hi.2]
      rw [hfilter]
      refine ⟨hi.1, hi.2, ?_⟩
      intro j hj hji
      have := hbelow j (by omega) hji
      simpa [hj] using this

/-- The highest set bit of word `k` is the last position of that word. -/
theorem isLast_word {k : Nat} {w : Word} {p : Nat → Bool} (hw : w ≠ 0)
    (hword : ∀ j < 64, p (k * 64 + j) = w.getLsbD j) :
    IsLast p (k * 64 + 63) (some (k * kBitsPerWord + (63 - w.countlZero))) := by
  obtain ⟨hlt, hset, habove⟩ := Word.countlZero_spec hw
  rw [kBitsPerWord]
  refine ⟨by omega, by rw [hword _ (by omega)]; exact hset, ?_⟩
  intro j hij hj
  obtain ⟨d, rfl⟩ := Nat.exists_eq_add_of_le (show k * 64 ≤ j by omega)
  rw [hword d (by omega)]
  exact habove d (by omega)

/-- The backward scan from word `k` down, `w` being that word as masked. -/
theorem scanDown_spec (words : List Word) :
    ∀ (k : Nat) (w : Word) (p : Nat → Bool), k ≤ words.length →
      (∀ j < 64, p (k * 64 + j) = w.getLsbD j) →
      (∀ j, j < k * 64 → p j = (words[j / 64]?.map fun w => w.getLsbD (j % 64)).getD false) →
      ∃ r, scanDown words k w = some r ∧ IsLast p (k * 64 + 63) r := by
  intro k
  induction k with
  | zero =>
    intro w p _ hword _
    rw [scanDown]
    by_cases hw : w = 0
    · rw [if_neg (not_not.mpr hw)]
      refine ⟨none, rfl, ?_⟩
      intro j hj
      have := hword j (by omega)
      rw [hw] at this
      simpa using this
    · rw [if_pos hw]
      exact ⟨_, rfl, isLast_word hw hword⟩
  | succ k ih =>
    intro w p hlen hword hbelow
    rw [scanDown]
    by_cases hw : w = 0
    · rw [if_neg (not_not.mpr hw)]
      -- an empty word: step down to the one below
      obtain ⟨w', hw'⟩ : ∃ w', words[k]? = some w' := ⟨_, List.getElem?_eq_getElem (by omega)⟩
      have hzero : ∀ j, k * 64 + 63 < j → j ≤ (k + 1) * 64 + 63 → p j = false := by
        intro j hj hjle
        obtain ⟨d, rfl⟩ := Nat.exists_eq_add_of_le (show (k + 1) * 64 ≤ j by omega)
        rw [hword d (by omega), hw]
        simp
      obtain ⟨r, hrun, hlast⟩ := ih w' p (by omega)
        (by
          intro j hj
          rw [hbelow _ (by omega), show (k * 64 + j) / 64 = k by omega,
            show (k * 64 + j) % 64 = j by omega, hw']
          rfl)
        (fun j hj => hbelow j (by omega))
      refine ⟨r, by simp [hw', hrun], ?_⟩
      cases r with
      | none =>
        intro j hj
        rcases Nat.lt_or_ge (k * 64 + 63) j with hlt | hge
        · exact hzero j hlt hj
        · exact hlast j hge
      | some i =>
        obtain ⟨hle, hi, habove⟩ := hlast
        refine ⟨by omega, hi, ?_⟩
        intro j hij hj
        rcases Nat.lt_or_ge (k * 64 + 63) j with hlt | hge
        · exact hzero j hlt hj
        · exact habove j hij hge
    · rw [if_pos hw]
      exact ⟨_, rfl, isLast_word hw hword⟩

/-- `find_prev_set` returns the first set position from `pos` down. -/
theorem WF.findPrevSet_spec {b : Bitset} (h : b.WF) {pos : Nat} (hpos : pos < b.numBits) :
    ∃ r, b.findPrevSet pos = some r ∧ IsLast b.has pos r := by
  have hlt : pos / 64 < b.words.length := by rw [h.length]; omega
  obtain ⟨w, hw⟩ : ∃ w, b.words[pos / 64]? = some w := ⟨_, List.getElem?_eq_getElem hlt⟩
  have hne : ¬ (b.words.isEmpty = true ∨ pos ≥ b.numBits) := by
    rintro (hc | hc)
    · rw [List.isEmpty_iff.mp hc] at hlt
      cases hlt
    · omega
  -- the first word is masked to the positions up to `pos`
  obtain ⟨r, hrun, hlast⟩ := scanDown_spec b.words (pos / 64)
    (w &&& (if pos % 64 = 63 then ~~~(0#64) else (1#64 <<< (pos % 64 + 1)) - 1))
    (fun j => decide (j ≤ pos) && b.has j) (by omega)
    (by
      intro j hj
      have hle : (pos / 64 * 64 + j ≤ pos) ↔ j ≤ pos % 64 := by omega
      rw [BitVec.getLsbD_and, Word.getLsbD_maskDown (Nat.mod_lt _ (by decide)) hj,
        has_eq (by rw [show (pos / 64 * 64 + j) / 64 = pos / 64 by omega]; exact hw),
        show (pos / 64 * 64 + j) % 64 = j by omega, Bool.and_comm, decide_eq_decide.mpr hle])
    (by
      intro j hj
      have hle : j ≤ pos := by omega
      simp only [hle, decide_true, Bool.true_and]
      rfl)
  refine ⟨r, ?_, ?_⟩
  · have hw' : b.words[pos / kBitsPerWord]? = some w := hw
    simp only [findPrevSet, if_neg hne, hw', Option.bind_eq_bind, Option.bind_some]
    exact hrun
  · cases r with
    | none =>
      intro j hj
      have := hlast j (by omega)
      simpa [hj] using this
    | some i =>
      obtain ⟨-, hi, habove⟩ := hlast
      simp only [Bool.and_eq_true, decide_eq_true_eq] at hi
      refine ⟨hi.1, hi.2, ?_⟩
      intro j hij hj
      have := habove j hij (by omega)
      simpa [hj] using this

/-! ## Section 4: Counting and creation -/

/-- The set positions of a list of words, in one range. -/
theorem popcount_words (ws : List Word) :
    (ws.map Word.popcount).sum = (List.range (ws.length * 64)).countP fun j =>
      (ws[j / 64]?.map fun w => w.getLsbD (j % 64)).getD false := by
  induction ws with
  | nil => rfl
  | cons w ws ih =>
    have hfirst : (List.range 64).countP (fun j =>
        ((w :: ws)[j / 64]?.map fun w => w.getLsbD (j % 64)).getD false) = w.popcount := by
      refine List.countP_congr ?_
      intro j hj
      have hj' : j < 64 := by simpa using hj
      rw [Nat.div_eq_of_lt hj', Nat.mod_eq_of_lt hj']
      rfl
    have hrest : ((List.range (ws.length * 64)).map (64 + ·)).countP (fun j =>
        ((w :: ws)[j / 64]?.map fun w => w.getLsbD (j % 64)).getD false) =
        (ws.map Word.popcount).sum := by
      rw [List.countP_map, ih]
      refine List.countP_congr ?_
      intro j _
      simp only [Function.comp_apply]
      rw [show (64 + j) / 64 = j / 64 + 1 by omega, show (64 + j) % 64 = j % 64 by omega,
        List.getElem?_cons_succ]
    rw [List.map_cons, List.sum_cons, List.length_cons,
      show (ws.length + 1) * 64 = 64 + ws.length * 64 by omega, List.range_add, List.countP_append,
      hfirst, hrest]

/-- `count` counts the set positions. -/
theorem WF.count_eq {b : Bitset} (h : b.WF) : b.count = (List.range b.numBits).countP b.has := by
  have hle : b.numBits ≤ b.words.length * 64 := by rw [h.length]; omega
  -- the last word may reach beyond `numBits`, where nothing is set
  obtain ⟨d, hd⟩ := Nat.exists_eq_add_of_le hle
  have hzero : ((List.range d).map (b.numBits + ·)).countP b.has = 0 := by
    rw [List.countP_eq_zero]
    intro j hj
    obtain ⟨x, -, rfl⟩ := List.mem_map.mp hj
    rw [h.above _ (Nat.le_add_right _ _)]
    simp
  rw [count, popcount_words, hd, List.range_add, List.countP_append]
  show _ + ((List.range d).map (b.numBits + ·)).countP b.has = _
  rw [hzero]
  rfl

/-- A new bitset is empty, if its size does not wrap. -/
theorem create_spec {n : Nat} (hn : n ≤ 2 ^ 64 - 64) :
    (create n).WF ∧ ∀ i, (create n).has i = false := by
  have hwords : (n + kBitsPerWord - 1) % 2 ^ 64 / kBitsPerWord = (n + 63) / 64 := by
    rw [show n + kBitsPerWord - 1 = n + 63 from rfl, Nat.mod_eq_of_lt (by omega), kBitsPerWord]
  have hnone : ∀ i, (create n).has i = false := by
    intro i
    simp only [has, create, hwords]
    by_cases hi : i / 64 < (n + 63) / 64
    · rw [List.getElem?_replicate, if_pos hi]
      simp
    · rw [List.getElem?_replicate, if_neg hi]
      rfl
  exact ⟨⟨List.length_replicate.trans hwords, fun i _ => hnone i⟩, hnone⟩

end Bitset

end LightningLob
