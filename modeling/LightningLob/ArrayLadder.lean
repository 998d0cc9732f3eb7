import LightningLob.BitsetSpec
import LightningLob.Ladder
import LightningLob.OrderBookArray
import Mathlib.Data.List.Sort

/-! # The direct-indexed array is a ladder

    A side of `OrderBookArray` keeps three things in step: the levels, the
    bitmap of the occupied ones and the cached best index.  `ArrayLevels.WF`
    says how they agree.  The occupied indices, listed in the order of the
    side, are determined by the bitmap alone, so each operation is a change to
    that list. -/

namespace LightningLob

open LevelStore

namespace ArrayLevels

/-! ## Section 1: The occupied indices in order -/

/-- Index `i` is the better price: low for asks, high for bids. -/
def Before (side : Side) (i j : Nat) : Prop :=
  match side with
  | .buy => j < i
  | .sell => i < j

/-- The occupied indices of a side, best first. -/
def occupied (side : Side) (bitmap : Bitset) : List Nat :=
  let up := (List.range bitmap.numBits).filter bitmap.has
  match side with
  | .buy => up.reverse
  | .sell => up

theorem before_irrefl (side : Side) (i : Nat) : ¬ Before side i i := by
  cases side <;> exact Nat.lt_irrefl i

theorem before_asymm {side : Side} {i j : Nat} (h : Before side i j) : ¬ Before side j i := by
  cases side <;> exact Nat.lt_asymm h

theorem before_total (side : Side) (i j : Nat) : Before side i j ∨ i = j ∨ Before side j i := by
  cases side <;> simp only [Before] <;> omega

theorem better_iff_before {side : Side} {p : Int} {i j : Nat} :
    better side (p + i) (p + j) = true ↔ Before side i j := by
  cases side <;> simp only [better, Before, decide_eq_true_eq] <;> omega

section occupied_lemmas

variable {side : Side} {bitmap : Bitset} {xs : List Nat}

theorem mem_occupied (side : Side) (h : bitmap.WF) {i : Nat} :
    i ∈ occupied side bitmap ↔ bitmap.has i = true := by
  have hmem : i ∈ (List.range bitmap.numBits).filter bitmap.has ↔ bitmap.has i = true := by
    rw [List.mem_filter, List.mem_range]
    exact ⟨fun hi => hi.2, fun hi => ⟨h.lt_of_has hi, hi⟩⟩
  cases side with
  | buy => exact List.mem_reverse.trans hmem
  | sell => exact hmem

theorem occupied_pairwise (side : Side) (bitmap : Bitset) :
    (occupied side bitmap).Pairwise (Before side) := by
  have hup : ((List.range bitmap.numBits).filter bitmap.has).Pairwise (· < ·) :=
    List.pairwise_lt_range.filter _
  cases side with
  | buy => exact List.pairwise_reverse.mpr hup
  | sell => exact hup

/-- The bitmap determines the list. -/
theorem occupied_eq (h : bitmap.WF) (hpair : xs.Pairwise (Before side))
    (hmem : ∀ i, i ∈ xs ↔ bitmap.has i = true) : occupied side bitmap = xs := by
  have hanti : Std.Antisymm (Before side) := ⟨fun a b hab hba => (before_asymm hab hba).elim⟩
  have hirr : Std.Irrefl (Before side) := ⟨before_irrefl side⟩
  refine (occupied_pairwise side bitmap).eq_of_mem_iff hpair ?_
  intro i
  rw [mem_occupied side h, hmem]

theorem occupied_length (side : Side) (bitmap : Bitset) :
    (occupied side bitmap).length = (List.range bitmap.numBits).countP bitmap.has := by
  cases side with
  | buy => simp [occupied, List.countP_eq_length_filter]
  | sell => simp [occupied, List.countP_eq_length_filter]

/-- `r` is the first occupied index behind `idx`, if there is one. -/
def FirstBehind (side : Side) (bitmap : Bitset) (idx : Nat) : Option Nat → Prop
  | none => ∀ j, Before side idx j → bitmap.has j = false
  | some i => bitmap.has i = true ∧ Before side idx i ∧
      ∀ j, Before side idx j → Before side j i → bitmap.has j = false

theorem FirstBehind.unique {idx : Nat} {r r' : Option Nat} (h : FirstBehind side bitmap idx r)
    (h' : FirstBehind side bitmap idx r') : r = r' := by
  cases r with
  | none =>
    cases r' with
    | none => rfl
    | some j =>
      have hj := h j h'.2.1
      rw [h'.1] at hj
      cases hj
  | some i =>
    cases r' with
    | none =>
      have hi := h' i h.2.1
      rw [h.1] at hi
      cases hi
    | some j =>
      rcases before_total side i j with hij | heq | hji
      · have hi := h'.2.2 i h.2.1 hij
        rw [h.1] at hi
        cases hi
      · rw [heq]
      · have hj := h.2.2 j h'.2.1 hji
        rw [h'.1] at hj
        cases hj

/-- Of the occupied indices behind `idx`, listed best first, it is the head. -/
theorem head_firstBehind {idx : Nat} (hpair : xs.Pairwise (Before side))
    (hmem : ∀ j, j ∈ xs ↔ bitmap.has j = true ∧ Before side idx j) :
    FirstBehind side bitmap idx xs.head? := by
  cases xs with
  | nil =>
    intro j hj
    by_contra hc
    have := (hmem j).mpr ⟨by simpa using hc, hj⟩
    cases this
  | cons i ys =>
    obtain ⟨hi, hbehind⟩ := (hmem i).mp (by simp)
    refine ⟨hi, hbehind, ?_⟩
    intro j hj hji
    by_contra hc
    rcases List.mem_cons.mp ((hmem j).mpr ⟨by simpa using hc, hj⟩) with rfl | hmem'
    · exact before_irrefl side j hji
    · exact before_asymm hji ((List.pairwise_cons.mp hpair).1 j hmem')

/-- It is what the scan finds: upwards from `idx + 1` among the asks, and
    downwards from `idx - 1` among the bids, unless `idx` is already 0. -/
theorem nextWorse_firstBehind (side : Side) (h : bitmap.WF) {idx : Nat}
    (hidx : idx < bitmap.numBits) :
    ∃ r, nextWorse side bitmap idx = some r ∧ FirstBehind side bitmap idx r := by
  cases side with
  | sell =>
    obtain ⟨r, hrun, hfirst⟩ := h.findNextSet_spec (idx + 1)
    refine ⟨r, hrun, ?_⟩
    cases r with
    | none => exact hfirst
    | some i => exact ⟨hfirst.2.1, hfirst.1, hfirst.2.2⟩
  | buy =>
    by_cases h0 : idx = 0
    · refine ⟨none, if_pos h0, ?_⟩
      intro j hj
      have hlt : j < idx := hj
      omega
    · obtain ⟨r, hrun, hlast⟩ := h.findPrevSet_spec (show idx - 1 < bitmap.numBits by omega)
      refine ⟨r, by simp only [nextWorse, if_neg h0, hrun], ?_⟩
      cases r with
      | none =>
        intro j hj
        have hlt : j < idx := hj
        exact hlast j (by omega)
      | some i =>
        obtain ⟨hle, hi, hgap⟩ := hlast
        refine ⟨hi, show i < idx by omega, ?_⟩
        intro j hj hji
        have hlt : j < idx := hj
        exact hgap j hji (by omega)

/-- A scan from `idx` towards worse prices finds the first occupied index
    behind it. -/
theorem nextWorse_spec (h : bitmap.WF) {idx : Nat} (hidx : idx < bitmap.numBits)
    (hpair : xs.Pairwise (Before side))
    (hmem : ∀ j, j ∈ xs ↔ bitmap.has j = true ∧ Before side idx j) :
    nextWorse side bitmap idx = some xs.head? := by
  obtain ⟨r, hrun, hr⟩ := nextWorse_firstBehind side h hidx
  rw [hrun, hr.unique (head_firstBehind hpair hmem)]

end occupied_lemmas

/-! ## Section 2: How levels, bitmap and best index agree -/

/-- The level at an index. -/
def levelAt (a : ArrayLevels) (i : Nat) : PriceLevel := a.levels[i]?.getD {}

/-- What the bit of an index says about its level: an occupied level has
    orders and carries the price of its index, an unoccupied one is empty. -/
def LevelBit (minPrice : Int) (i : Nat) (l : PriceLevel) : Bool → Prop
  | true => l.orderCount ≠ 0 ∧ l.price = minPrice + i
  | false => l = { price := l.price }

/-- The invariant of one side of the array book. -/
structure WF (side : Side) (a : ArrayLevels) : Prop where
  positive : 0 < a.minPrice
  band : a.minPrice ≤ a.maxPrice
  length : a.levels.length = (a.maxPrice - a.minPrice).toNat + 1
  bitmap : a.bitmap.WF
  numBits : a.bitmap.numBits = a.levels.length
  level : ∀ i < a.levels.length, LevelBit a.minPrice i (a.levelAt i) (a.bitmap.has i)
  best : a.bestIdx = (occupied side a.bitmap).head?

/-- The levels of the occupied indices. -/
def view (side : Side) (a : ArrayLevels) : List PriceLevel :=
  (occupied side a.bitmap).map a.levelAt

section invariant

variable {side : Side} {a : ArrayLevels} {idx : Nat} {l : PriceLevel}

theorem levels_eq (hidx : idx < a.levels.length) : a.levels[idx]? = some (a.levelAt idx) := by
  simp [levelAt, List.getElem?_eq_getElem hidx]

theorem WF.lt_of_mem (h : WF side a) (hi : idx ∈ occupied side a.bitmap) :
    idx < a.levels.length := by
  rw [← h.numBits]
  exact h.bitmap.lt_of_has ((mem_occupied side h.bitmap).mp hi)

theorem WF.level_of_mem (h : WF side a) (hi : idx ∈ occupied side a.bitmap) :
    (a.levelAt idx).orderCount ≠ 0 ∧ (a.levelAt idx).price = a.minPrice + idx := by
  have := h.level idx (h.lt_of_mem hi)
  rw [(mem_occupied side h.bitmap).mp hi] at this
  exact this

/-- A price of an occupied index leads back to the index. -/
theorem indexOf_price (i : Nat) : a.indexOf (a.minPrice + i) = some i := by
  simp [indexOf]

theorem WF.inRange_of_lt (h : WF side a) (hi : idx < a.levels.length) :
    inRange a (a.minPrice + idx) = true := by
  have h₁ := h.length
  have h₂ := h.band
  simp only [inRange, decide_eq_true_eq]
  omega

theorem WF.exists_index (h : WF side a) {p : Int} (hp : inRange a p = true) :
    ∃ i < a.levels.length, p = a.minPrice + i := by
  have h₁ := h.length
  have h₂ := h.band
  simp only [inRange, decide_eq_true_eq] at hp
  exact ⟨(p - a.minPrice).toNat, by omega, by omega⟩

theorem WF.occupied_length_le (h : WF side a) :
    (occupied side a.bitmap).length ≤ a.levels.length := by
  have : (List.range a.bitmap.numBits).countP a.bitmap.has ≤ _ := List.countP_le_length
  rw [occupied_length, ← h.numBits]
  simpa using this

theorem WF.sorted (h : WF side a) : Ladder.Sorted side (view side a) := by
  refine List.pairwise_map.mpr ((occupied_pairwise side a.bitmap).imp_of_mem ?_)
  intro i j hi hj hij
  rw [(h.level_of_mem hi).2, (h.level_of_mem hj).2]
  exact better_iff_before.mpr hij

/-- Rewriting one level and its bit, with the best index the bitmap asks for. -/
theorem WF.change (h : WF side a) (hidx : idx < a.levels.length) {v : Bool} {bitmap : Bitset}
    (hw : a.bitmap.Writes idx v bitmap) (hl : LevelBit a.minPrice idx l v) {xs : List Nat}
    (hpair : xs.Pairwise (Before side)) (hmem : ∀ i, i ∈ xs ↔ bitmap.has i = true) :
    Becomes (WF side) (view side) a
      { a with levels := a.levels.set idx l, bitmap := bitmap, bestIdx := xs.head? }
      (xs.map fun i => if i = idx then l else a.levelAt i) := by
  have hocc : occupied side bitmap = xs := occupied_eq hw.wf hpair hmem
  have hat : ∀ i, levelAt { a with
      levels := a.levels.set idx l, bitmap := bitmap, bestIdx := xs.head? } i =
      if i = idx then l else a.levelAt i := by
    intro i
    by_cases hi : i = idx
    · subst hi
      simp [levelAt, List.getElem?_set_self hidx]
    · simp [levelAt, List.getElem?_set_ne (Ne.symm hi), hi]
  refine ⟨⟨h.positive, h.band, by simp [h.length], hw.wf, ?_, ?_, ?_⟩, ?_, rfl⟩
  · simp [hw.numBits_eq, h.numBits]
  · intro i hi
    have hi' : i < a.levels.length := by simpa using hi
    rw [hat, hw.has_eq]
    by_cases he : i = idx
    · subst he
      simpa using hl
    · simpa [he] using h.level i hi'
  · rw [hocc]
  · rw [view, hocc]
    exact List.map_congr_left fun i _ => hat i

end invariant

/-! ## Section 3: Writing, vacating and occupying a level -/

section writing

variable {side : Side} {a : ArrayLevels} {idx : Nat} {l : PriceLevel} {α β : List Nat}

/-- A split of the view is a split of the occupied indices. -/
theorem view_split {as bs : List PriceLevel} {l₀ : PriceLevel}
    (hview : view side a = as ++ l₀ :: bs) :
    ∃ α i β, occupied side a.bitmap = α ++ i :: β ∧ α.map a.levelAt = as ∧ a.levelAt i = l₀ ∧
      β.map a.levelAt = bs := by
  obtain ⟨α, β', hocc, hα, hβ'⟩ := List.map_eq_append_iff.mp hview
  obtain ⟨i, β, rfl, hi, hβ⟩ := List.map_eq_cons_iff.mp hβ'
  exact ⟨α, i, β, hocc, hα, hi, hβ⟩

/-- Around an occupied index, the others are better before it and worse after. -/
theorem occupied_around (hocc : occupied side a.bitmap = α ++ idx :: β) :
    (∀ i ∈ α, Before side i idx) ∧ (∀ i ∈ β, Before side idx i) := by
  have hpair := occupied_pairwise side a.bitmap
  rw [hocc] at hpair
  obtain ⟨-, hβ, hαβ⟩ := List.pairwise_append.mp hpair
  exact ⟨fun i hi => hαβ i hi idx (by simp), (List.pairwise_cons.mp hβ).1⟩

theorem map_others {xs : List Nat} (hxs : idx ∉ xs) :
    xs.map (fun i => if i = idx then l else a.levelAt i) = xs.map a.levelAt := by
  refine List.map_congr_left fun i hi => if_neg ?_
  rintro rfl
  exact hxs hi

theorem notMem_around (hα : ∀ i ∈ α, Before side i idx) (hβ : ∀ i ∈ β, Before side idx i) :
    idx ∉ α ∧ idx ∉ β :=
  ⟨fun h => before_irrefl side idx (hα idx h), fun h => before_irrefl side idx (hβ idx h)⟩

/-- Writing an occupied level back with orders in it. -/
theorem WF.assign_spec (h : WF side a) (hocc : occupied side a.bitmap = α ++ idx :: β)
    (hp : l.price = a.minPrice + idx) (hc : l.orderCount ≠ 0) :
    ∃ a', a.assign idx l = some a' ∧ Becomes (WF side) (view side) a a'
      (α.map a.levelAt ++ l :: β.map a.levelAt) := by
  have hmem : idx ∈ occupied side a.bitmap := by rw [hocc]; simp
  have hidx := h.lt_of_mem hmem
  have hhas := (mem_occupied side h.bitmap).mp hmem
  -- the bit is set already, so the bitmap stays as it is
  have hw : a.bitmap.Writes idx true a.bitmap := by
    refine ⟨h.bitmap, rfl, fun j => ?_⟩
    by_cases hj : j = idx
    · rw [if_pos hj, hj, hhas]
    · rw [if_neg hj]
  have hchange := h.change hidx hw ⟨hc, hp⟩ (occupied_pairwise side a.bitmap)
    fun i => mem_occupied side h.bitmap
  obtain ⟨hα, hβ⟩ := occupied_around hocc
  obtain ⟨hnα, hnβ⟩ := notMem_around hα hβ
  rw [← h.best, hocc, List.map_append, List.map_cons, if_pos rfl, map_others hnα, map_others hnβ]
    at hchange
  exact ⟨_, if_pos hidx, hchange⟩

/-- Writing an occupied level back empty: its bit is cleared and the best index
    moves on if it was the best. -/
theorem WF.vacate_spec (h : WF side a) (hocc : occupied side a.bitmap = α ++ idx :: β)
    (hl : l = { price := l.price }) :
    ∃ a₁ a', a.assign idx l = some a₁ ∧ a₁.vacate side idx = some a' ∧
      Becomes (WF side) (view side) a a' (α.map a.levelAt ++ β.map a.levelAt) := by
  have hmem : idx ∈ occupied side a.bitmap := by rw [hocc]; simp
  have hidx := h.lt_of_mem hmem
  have hbit : idx < a.bitmap.numBits := by rw [h.numBits]; exact hidx
  obtain ⟨bitmap, hclear, hw⟩ := h.bitmap.clear_spec hbit
  obtain ⟨hα, hβ⟩ := occupied_around hocc
  obtain ⟨hnα, hnβ⟩ := notMem_around hα hβ
  have hpair : (α ++ β).Pairwise (Before side) := by
    have := occupied_pairwise side a.bitmap
    rw [hocc] at this
    exact this.sublist (by simp)
  -- the cleared bit takes `idx`, and nothing else, off the list
  have hmem' : ∀ i, i ∈ α ++ β ↔ bitmap.has i = true := by
    intro i
    rw [hw.has_eq]
    by_cases hi : i = idx
    · subst hi
      simp [hnα, hnβ]
    · rw [if_neg hi, ← mem_occupied side h.bitmap, hocc]
      simp [hi]
  have hchange := h.change hidx hw (l := l) hl hpair hmem'
  rw [List.map_append, map_others hnα, map_others hnβ] at hchange
  refine ⟨_, _, if_pos hidx, ?_, hchange⟩
  have hbest := h.best
  rw [hocc] at hbest
  cases α with
  | nil =>
    -- the best level is gone: the scan finds the next
    have hnext : nextWorse side bitmap idx = some β.head? := by
      refine nextWorse_spec hw.wf (by rw [hw.numBits_eq]; exact hbit) hpair ?_
      intro j
      rw [← hmem']
      exact ⟨fun hj => ⟨hj, hβ j hj⟩, fun hj => hj.1⟩
    have hb : a.bestIdx = some idx := hbest
    simp [vacate, hclear, hb, hnext]
  | cons x α =>
    -- a better level is left, so the cached index stays
    have hb : a.bestIdx = some x := hbest
    have hne : ¬ x = idx := by
      rintro rfl
      exact hnα (by simp)
    simp [vacate, hclear, hb, hne]

/-- The write-back of `match_loop` and `cancel_order`: the level stays if it
    still has orders and is vacated otherwise. -/
theorem WF.putBack_spec (h : WF side a) (hocc : occupied side a.bitmap = α ++ idx :: β)
    (hp : l.price = a.minPrice + idx) (hl : l.Clean) :
    ∃ a', (do
        let a ← a.assign idx l
        if l.empty then a.vacate side idx else pure a) = some a' ∧
      Becomes (WF side) (view side) a a'
        (α.map a.levelAt ++ if l.empty then β.map a.levelAt else l :: β.map a.levelAt) := by
  by_cases hc : l.orderCount = 0
  · obtain ⟨a₁, a', hassign, hvacate, hb⟩ := h.vacate_spec hocc (hl hc)
    have hempty : l.empty = true := by simp [PriceLevel.empty, hc]
    simp only [hassign, hempty, if_true, Option.bind_eq_bind, Option.bind_some]
    exact ⟨a', hvacate, hb⟩
  · obtain ⟨a', hassign, hb⟩ := h.assign_spec hocc hp hc
    have hempty : l.empty = false := by simp [PriceLevel.empty, hc]
    simp only [hassign, hempty, Bool.false_eq_true, if_false, Option.bind_eq_bind,
      Option.bind_some]
    exact ⟨a', rfl, hb⟩

theorem becomesBest_of_before {best : Nat} (h : Before side idx best) :
    becomesBest side idx (some best) = true := by
  cases side <;> simpa [becomesBest, Before] using h

theorem becomesBest_of_after {best : Nat} (h : Before side best idx) :
    becomesBest side idx (some best) = false := by
  cases side <;> simp only [becomesBest, Before, decide_eq_false_iff_not] at * <;> omega

/-- Opening the level at an unoccupied index. -/
theorem WF.occupy_spec (h : WF side a) (hidx : idx < a.levels.length)
    (hocc : occupied side a.bitmap = α ++ β) (hα : ∀ i ∈ α, Before side i idx)
    (hβ : ∀ i ∈ β, Before side idx i) (hp : l.price = a.minPrice + idx) (hc : l.orderCount ≠ 0) :
    ∃ a₁ a', a.occupy side idx (a.minPrice + idx) = some a₁ ∧
      a₁.levels[idx]? = some { price := a.minPrice + idx } ∧ a₁.assign idx l = some a' ∧
      Becomes (WF side) (view side) a a' (α.map a.levelAt ++ l :: β.map a.levelAt) := by
  have hbit : idx < a.bitmap.numBits := by rw [h.numBits]; exact hidx
  obtain ⟨bitmap, hset, hw⟩ := h.bitmap.set_spec hbit
  obtain ⟨hnα, hnβ⟩ := notMem_around hα hβ
  -- `idx` is on neither side of the split, so it is not occupied
  have hfree : a.bitmap.has idx = false := by
    by_contra hc
    have := (mem_occupied side h.bitmap).mpr (by simpa using hc)
    rw [hocc, List.mem_append] at this
    rcases this with hm | hm
    · exact hnα hm
    · exact hnβ hm
  -- an unoccupied level carries nothing over but a price, which `occupy` sets
  have hlevel : a.levelAt idx = { price := (a.levelAt idx).price } := by
    have := h.level idx hidx
    rw [hfree] at this
    exact this
  have hpair : (α ++ idx :: β).Pairwise (Before side) := by
    have := occupied_pairwise side a.bitmap
    rw [hocc] at this
    obtain ⟨h₁, h₂, h₃⟩ := List.pairwise_append.mp this
    refine List.pairwise_append.mpr ⟨h₁, List.pairwise_cons.mpr ⟨hβ, h₂⟩, ?_⟩
    intro i hi j hj
    rcases List.mem_cons.mp hj with rfl | hj
    · exact hα i hi
    · exact h₃ i hi j hj
  have hmem' : ∀ i, i ∈ α ++ idx :: β ↔ bitmap.has i = true := by
    intro i
    rw [hw.has_eq]
    by_cases hi : i = idx
    · simp [hi]
    · rw [if_neg hi, ← mem_occupied side h.bitmap, hocc]
      simp [hi]
  have hchange := h.change hidx hw (l := l) ⟨hc, hp⟩ hpair hmem'
  rw [List.map_append, List.map_cons, if_pos rfl, map_others hnα, map_others hnβ] at hchange
  have hbest := h.best
  rw [hocc] at hbest
  -- the new index becomes the best exactly when no index is before it
  have hnew : (if becomesBest side idx a.bestIdx then some idx else a.bestIdx) =
      (α ++ idx :: β).head? := by
    rw [hbest]
    cases α with
    | nil =>
      cases β with
      | nil => rfl
      | cons y β => simp [becomesBest_of_before (hβ y (by simp))]
    | cons x α => simp [becomesBest_of_after (hα x (by simp))]
  refine ⟨{ a with
      levels := a.levels.set idx { price := a.minPrice + idx }
      bitmap := bitmap
      bestIdx := (α ++ idx :: β).head? }, _, ?_, ?_, ?_, hchange⟩
  · have htest := h.bitmap.test_spec hbit
    rw [hfree] at htest
    have hassign : a.assign idx { a.levelAt idx with price := a.minPrice + idx } =
        some { a with levels := a.levels.set idx { price := a.minPrice + idx } } := by
      rw [assign, if_pos hidx, hlevel]
    simp only [occupy, htest, levels_eq hidx, hassign, hset, Option.bind_eq_bind, Option.bind_some,
      Option.pure_def, Bool.false_eq_true, if_false]
    rw [← hnew]
  · simp [List.getElem?_set_self hidx]
  · simp [assign, hidx]

end writing

/-! ## Section 4: Walking the occupied levels -/

section walking

variable {side : Side} {a : ArrayLevels}

/-- From an occupied index the scan steps to the next one. -/
theorem WF.next_eq (h : WF side a) {α β : List Nat} {idx : Nat}
    (hocc : occupied side a.bitmap = α ++ idx :: β) :
    nextWorse side a.bitmap idx = some β.head? := by
  obtain ⟨hα, hβ⟩ := occupied_around hocc
  have hpair := occupied_pairwise side a.bitmap
  have hmem : ∀ j, j ∈ α ++ idx :: β ↔ a.bitmap.has j = true := by
    intro j
    rw [← hocc, mem_occupied side h.bitmap]
  rw [hocc] at hpair
  have hbit := h.bitmap.lt_of_has ((hmem idx).mp (by simp))
  refine nextWorse_spec h.bitmap hbit
    (List.pairwise_cons.mp (List.pairwise_append.mp hpair).2.1).2 ?_
  intro j
  rw [← hmem]
  constructor
  · intro hj
    exact ⟨by simp [hj], hβ j hj⟩
  · rintro ⟨hj, hb⟩
    rcases List.mem_append.mp hj with hj | hj
    · exact (before_asymm hb (hα j hj)).elim
    · rcases List.mem_cons.mp hj with rfl | hj
      · exact (before_irrefl side _ hb).elim
      · exact hj

/-- `has_liquidity_for` walks the occupied levels in order. -/
theorem WF.liquidityLoop_eq (h : WF side a) (pf : Platform) (type : OrderType)
    (limitPrice needed : Int) :
    ∀ (β α : List Nat) (fuel : Nat) (acc : Int), occupied side a.bitmap = α ++ β →
      β.length < fuel →
      liquidityLoop pf side a type limitPrice needed fuel acc β.head? =
        some (LightningLob.liquidityLoop pf side type limitPrice needed acc
          ((β.map a.levelAt).map fun l => (l.price, l))) := by
  -- induction on the levels ahead, `α` being those already passed
  intro β
  induction β with
  | nil =>
    intro α fuel acc _ hfuel
    obtain ⟨fuel, rfl⟩ : ∃ n, fuel = n + 1 := ⟨fuel - 1, by omega⟩
    rfl
  | cons i β ih =>
    intro α fuel acc hocc hfuel
    obtain ⟨fuel, rfl⟩ : ∃ n, fuel = n + 1 := ⟨fuel - 1, by omega⟩
    have hmem : i ∈ occupied side a.bitmap := by rw [hocc]; simp
    have hidx := h.lt_of_mem hmem
    simp only [List.head?_cons, liquidityLoop, levels_eq hidx, Option.bind_eq_bind,
      Option.bind_some, List.map_cons, LightningLob.liquidityLoop]
    by_cases hlim : type = .limit ∧ better side limitPrice (a.levelAt i).price = true
    · rw [if_pos hlim, if_pos hlim]
      rfl
    rw [if_neg hlim, if_neg hlim]
    by_cases hacc : pf.wrap (acc + (a.levelAt i).totalQuantity) ≥ needed
    · rw [if_pos hacc, if_pos hacc]
      rfl
    rw [if_neg hacc, if_neg hacc, h.next_eq hocc]
    exact ih (α ++ [i]) fuel _ (by rw [hocc]; simp) (by simpa using hfuel)

/-- `bid_depth` and `ask_depth` walk the occupied levels in order. -/
theorem WF.depthLoop_eq (h : WF side a) :
    ∀ (n : Nat) (β α : List Nat), occupied side a.bitmap = α ++ β →
      depthLoop side a n β.head? = some (((β.map a.levelAt).take n).map Ladder.entry) := by
  intro n
  induction n with
  | zero => intro β α _; rfl
  | succ n ih =>
    intro β α hocc
    cases β with
    | nil => rfl
    | cons i β =>
      have hmem : i ∈ occupied side a.bitmap := by rw [hocc]; simp
      have hidx := h.lt_of_mem hmem
      simp only [List.head?_cons, depthLoop, levels_eq hidx, Option.bind_eq_bind,
        Option.bind_some, h.next_eq hocc, ih β (α ++ [i]) (by rw [hocc]; simp)]
      rfl

/-- The `reset` walk: it clears the levels `xs` whose bits are still set, in
    ascending order. -/
theorem clearLoop_spec :
    ∀ (xs : List Nat) (fuel : Nat) (levels : List PriceLevel) (bitmap : Bitset),
      xs.Pairwise (· < ·) → bitmap.WF → bitmap.numBits = levels.length →
      (∀ i, i ∈ xs ↔ bitmap.has i = true) →
      (∀ i < levels.length, bitmap.has i = false →
        levels[i]?.getD {} = { price := (levels[i]?.getD {}).price }) → xs.length < fuel →
      ∃ levels' bitmap', clearLoop fuel levels bitmap xs.head? = some (levels', bitmap') ∧
        levels'.length = levels.length ∧ bitmap'.WF ∧ bitmap'.numBits = bitmap.numBits ∧
        (∀ i, bitmap'.has i = false) ∧
        (∀ i < levels.length, levels'[i]?.getD {} = { price := (levels'[i]?.getD {}).price }) := by
  intro xs
  induction xs with
  | nil =>
    intro fuel levels bitmap _ hwf _ hmem hclean hfuel
    obtain ⟨fuel, rfl⟩ : ∃ n, fuel = n + 1 := ⟨fuel - 1, by omega⟩
    have hnone : ∀ i, bitmap.has i = false := by
      intro i
      by_contra hc
      cases (hmem i).mpr (by simpa using hc)
    exact ⟨levels, bitmap, rfl, rfl, hwf, rfl, hnone, fun i hi => hclean i hi (hnone i)⟩
  | cons x xs ih =>
    intro fuel levels bitmap hpair hwf hnum hmem hclean hfuel
    obtain ⟨fuel, rfl⟩ : ∃ n, fuel = n + 1 := ⟨fuel - 1, by omega⟩
    obtain ⟨hx, hxs⟩ := List.pairwise_cons.mp hpair
    have hbit := hwf.lt_of_has ((hmem x).mp (by simp))
    have hlt : x < levels.length := by rw [← hnum]; exact hbit
    obtain ⟨bitmap₁, hclear, hw⟩ := hwf.clear_spec hbit
    have hmem₁ : ∀ i, i ∈ xs ↔ bitmap₁.has i = true := by
      intro i
      rw [hw.has_eq]
      by_cases hi : i = x
      · subst hi
        simp only [if_true, Bool.false_eq_true, iff_false]
        exact fun hc => Nat.lt_irrefl _ (hx _ hc)
      · rw [if_neg hi, ← hmem]
        simp [hi]
    -- `reset` scans upwards on both sides, as the asks do
    have hnext : nextWorse .sell bitmap₁ x = some xs.head? := by
      refine nextWorse_spec hw.wf (by rw [hw.numBits_eq]; exact hbit) hxs ?_
      intro j
      rw [← hmem₁]
      exact ⟨fun hj => ⟨hj, hx j hj⟩, fun hj => hj.1⟩
    have hnext' : bitmap₁.findNextSet (x + 1) = some xs.head? := hnext
    have hget : levels[x]? = some levels[x] := List.getElem?_eq_getElem hlt
    obtain ⟨levels', bitmap', hrun, hlen', hwf', hnum', hnone', hclean'⟩ := ih fuel
      (levels.set x levels[x].clearOrders) bitmap₁ hxs hw.wf
      (by simp [hw.numBits_eq, hnum]) hmem₁
      (by
        intro i hi hfree
        rw [hw.has_eq] at hfree
        by_cases he : i = x
        · subst he
          simp [List.getElem?_set_self hlt, PriceLevel.clearOrders]
        · rw [List.getElem?_set_ne (Ne.symm he)]
          rw [if_neg he] at hfree
          exact hclean i (by simpa using hi) hfree)
      (by simpa using hfuel)
    refine ⟨levels', bitmap', ?_, by simpa using hlen', hwf', hnum'.trans hw.numBits_eq, hnone',
      fun i hi => hclean' i (by simpa using hi)⟩
    simp only [List.head?_cons, clearLoop, hget, hclear, hnext', Option.bind_eq_bind,
      Option.bind_some]
    exact hrun

/-- The walk of `reset` starts at the lowest occupied index. -/
theorem findNextSet_zero (h : a.bitmap.WF) :
    a.bitmap.findNextSet 0 = some (occupied .sell a.bitmap).head? := by
  obtain ⟨r, hrun, hfirst⟩ := h.findNextSet_spec 0
  rw [hrun]
  have hpair := occupied_pairwise .sell a.bitmap
  cases hocc : occupied .sell a.bitmap with
  | nil =>
    cases r with
    | none => rfl
    | some i =>
      have hi := (mem_occupied .sell h).mpr hfirst.2.1
      rw [hocc] at hi
      cases hi
  | cons x xs =>
    have hx := (mem_occupied .sell h).mp (show x ∈ occupied .sell a.bitmap by rw [hocc]; simp)
    cases r with
    | none =>
      rw [hfirst x (Nat.zero_le x)] at hx
      cases hx
    | some i =>
      obtain ⟨-, hi, hbefore⟩ := hfirst
      have hmem := (mem_occupied .sell h).mpr hi
      rw [hocc] at hmem hpair
      rcases List.mem_cons.mp hmem with rfl | hmem
      · rfl
      · rw [hbefore x (Nat.zero_le x) ((List.pairwise_cons.mp hpair).1 i hmem)] at hx
        cases hx

/-- A cleared side. -/
theorem WF.clear_spec (h : WF side a) : ∃ a', clear a = some a' ∧
    Becomes (WF side) (view side) a a' [] := by
  -- each round clears a bit, so one more round than levels is enough
  have hlen : (occupied .sell a.bitmap).length < a.levels.length + 1 := by
    have := h.occupied_length_le
    rw [occupied_length] at this ⊢
    omega
  obtain ⟨levels', bitmap', hrun, hlen', hwf', hnum', hnone', hclean'⟩ :=
    clearLoop_spec (occupied .sell a.bitmap) (a.levels.length + 1) a.levels a.bitmap
      (occupied_pairwise .sell a.bitmap) h.bitmap h.numBits (fun i => mem_occupied .sell h.bitmap)
      (fun i hi hfree => by
        have := h.level i hi
        rw [hfree] at this
        exact this) hlen
  have hocc : occupied side bitmap' = [] := by
    refine occupied_eq hwf' List.Pairwise.nil ?_
    intro i
    simp [hnone' i]
  refine ⟨{ a with levels := levels', bitmap := bitmap', bestIdx := none }, ?_,
    ⟨h.positive, h.band, hlen'.trans h.length, hwf', ?_, ?_, ?_⟩, ?_, rfl⟩
  · simp [clear, findNextSet_zero h.bitmap, hrun]
  · exact hnum'.trans (h.numBits.trans hlen'.symm)
  · intro i hi
    rw [show bitmap'.has i = false from hnone' i]
    exact hclean' i (by rw [← hlen']; exact hi)
  · rw [hocc]
    rfl
  · rw [view, hocc]
    rfl

/-- A side of a new book. -/
theorem create_spec (side : Side) {minPrice maxPrice : Int} (hpos : 0 < minPrice)
    (hband : minPrice ≤ maxPrice) (hrange : (maxPrice - minPrice).toNat + 1 ≤ kMaxLevels) :
    WF side (create minPrice maxPrice ((maxPrice - minPrice).toNat + 1)) ∧
      view side (create minPrice maxPrice ((maxPrice - minPrice).toNat + 1)) = [] := by
  -- the levels fit in memory, so the bitmap's word count does not wrap
  obtain ⟨hwf, hnone⟩ := Bitset.create_spec (n := (maxPrice - minPrice).toNat + 1) (by
    rw [kMaxLevels] at hrange
    omega)
  have hocc : occupied side (Bitset.create ((maxPrice - minPrice).toNat + 1)) = [] := by
    refine occupied_eq hwf List.Pairwise.nil ?_
    intro i
    simp [hnone i]
  refine ⟨⟨hpos, hband, by simp [create], hwf, by simp [create, Bitset.create], ?_, ?_⟩, ?_⟩
  · intro i hi
    have hi' : i < (maxPrice - minPrice).toNat + 1 := by simpa [create] using hi
    rw [show (create minPrice maxPrice _).bitmap.has i = false from hnone i]
    simp [LevelBit, levelAt, create, hi']
  · exact (congrArg List.head? hocc).symm
  · exact List.map_eq_nil_iff.mpr hocc

end walking

/-! ## Section 5: The container laws -/

instance : LawfulLevelStore ArrayLevels where
  WF := WF
  view := view
  sorted h := h.sorted
  range_view {side a l} h hl := by
    obtain ⟨i, hi, rfl⟩ := List.mem_map.mp hl
    rw [(h.level_of_mem hi).2]
    exact h.inRange_of_lt (h.lt_of_mem hi)
  best_eq {side a} h := by
    show a.bestIdx.map a.priceOf = (List.map _ _).head?.map _
    rw [h.best, List.head?_map]
    cases hocc : occupied side a.bitmap with
    | nil => rfl
    | cons i β =>
      have hmem : i ∈ occupied side a.bitmap := by rw [hocc]; simp
      simp [priceOf, (h.level_of_mem hmem).2]
  front_eq {side a} h := by
    have hbest := h.best
    cases hocc : occupied side a.bitmap with
    | nil =>
      rw [hocc] at hbest
      simp [front, hbest, view, hocc]
    | cons i β =>
      rw [hocc] at hbest
      have hmem : i ∈ occupied side a.bitmap := by rw [hocc]; simp
      simp [front, hbest, view, hocc, levels_eq (h.lt_of_mem hmem)]
  putFront_spec {side a l₀ ls l} h hview hp hclean := by
    obtain ⟨i, β, hocc, rfl, rfl⟩ := List.map_eq_cons_iff.mp hview
    have hmem : i ∈ occupied side a.bitmap := by rw [hocc]; simp
    have hb : a.bestIdx = some i := by rw [h.best, hocc]; rfl
    have hput := WF.putBack_spec h (α := []) hocc (hp.trans (h.level_of_mem hmem).2) hclean
    simp only [putFront, hb]
    exact hput
  putFront_same {side a l ls} h hview hcount := by
    obtain ⟨i, β, hocc, rfl, rfl⟩ := List.map_eq_cons_iff.mp hview
    have hmem : i ∈ occupied side a.bitmap := by rw [hocc]; simp
    have hidx := h.lt_of_mem hmem
    have hb : a.bestIdx = some i := by rw [h.best, hocc]; rfl
    have hempty : (a.levelAt i).empty = false := by simp [PriceLevel.empty, hcount]
    -- writing back the level that is there changes nothing
    have hset : a.levels.set i (a.levelAt i) = a.levels := by
      have hat : a.levelAt i = a.levels[i] := by simp [levelAt, List.getElem?_eq_getElem hidx]
      rw [hat, List.set_getElem_self]
    have hassign : a.assign i (a.levelAt i) = some a := by rw [assign, if_pos hidx, hset]
    simp [putFront, hb, hassign, hempty]
  find_eq {side a l} h hl := by
    obtain ⟨i, hi, rfl⟩ := List.mem_map.mp hl
    simp [find, (h.level_of_mem hi).2, indexOf_price, levels_eq (h.lt_of_mem hi)]
  deref_eq {side a l} h hl := by
    obtain ⟨i, hi, rfl⟩ := List.mem_map.mp hl
    simp [deref, (h.level_of_mem hi).2, indexOf_price, levels_eq (h.lt_of_mem hi)]
  write_spec {side a as l₀ bs l} h hview hp hc := by
    obtain ⟨α, i, β, hocc, rfl, rfl, rfl⟩ := view_split hview
    have hprice := (h.level_of_mem (show i ∈ occupied side a.bitmap by rw [hocc]; simp)).2
    obtain ⟨a', hassign, hb⟩ := h.assign_spec hocc (hp.trans hprice) hc
    exact ⟨a', by simp [write, hprice, indexOf_price, hassign], hb⟩
  put_spec {side a as l₀ bs l} h hview hp hclean := by
    obtain ⟨α, i, β, hocc, rfl, rfl, rfl⟩ := view_split hview
    have hprice := (h.level_of_mem (show i ∈ occupied side a.bitmap by rw [hocc]; simp)).2
    obtain ⟨a', hput, hb⟩ := h.putBack_spec hocc (hp.trans hprice) hclean
    refine ⟨a', ?_, hb⟩
    simp only [put, hprice, indexOf_price, Option.bind_eq_bind, Option.bind_some]
    exact hput
  upsert_old {side a as l₀ bs l pool f} h hview hf hp hc := by
    obtain ⟨α, i, β, hocc, rfl, rfl, rfl⟩ := view_split hview
    have hmem : i ∈ occupied side a.bitmap := by rw [hocc]; simp
    have hidx := h.lt_of_mem hmem
    have hprice := (h.level_of_mem hmem).2
    have htest := h.bitmap.test_spec (h.numBits ▸ hidx)
    rw [(mem_occupied side h.bitmap).mp hmem] at htest
    -- the bit is set: `rest_order` does not touch the caches
    have hold : a.occupy side i (a.minPrice + i) = some a := by simp [occupy, htest]
    obtain ⟨a', hassign, hb⟩ := h.assign_spec hocc (hp.trans hprice) hc
    refine ⟨a', ?_, hb⟩
    simp [upsert, hprice, indexOf_price, hold, levels_eq hidx, hf, hassign]
  upsert_new {side a as bs p l pool f} h hview ha hb hr hf hp hc := by
    -- an accepted price has an index inside the ladder
    obtain ⟨i, hidx, rfl⟩ := h.exists_index hr
    obtain ⟨α, β, hocc, rfl, rfl⟩ := List.map_eq_append_iff.mp hview
    have hmem : ∀ j, j ∈ α ∨ j ∈ β → j ∈ occupied side a.bitmap := by
      intro j hj
      rw [hocc]
      exact List.mem_append.mpr hj
    have hα : ∀ j ∈ α, Before side j i := by
      intro j hj
      have := ha _ (List.mem_map_of_mem hj)
      rw [(h.level_of_mem (hmem j (.inl hj))).2] at this
      exact better_iff_before.mp this
    have hβ : ∀ j ∈ β, Before side i j := by
      intro j hj
      have := hb _ (List.mem_map_of_mem hj)
      rw [(h.level_of_mem (hmem j (.inr hj))).2] at this
      exact better_iff_before.mp this
    obtain ⟨a₁, a', hoccupy, hlevel, hassign, hbec⟩ := h.occupy_spec hidx hocc hα hβ hp hc
    refine ⟨a', ?_, hbec⟩
    simp [upsert, indexOf_price, hoccupy, hlevel, hf, hassign]
  hasLiquidity_eq {pf side a type limitPrice needed} h := by
    have hlen := h.occupied_length_le
    show liquidityLoop pf side a type limitPrice needed (a.levels.length + 1) 0 a.bestIdx = _
    rw [h.best]
    exact h.liquidityLoop_eq pf type limitPrice needed _ [] _ 0 rfl (by omega)
  depth_eq {side a n} h := by
    show depthLoop side a n a.bestIdx = _
    rw [h.best]
    exact h.depthLoop_eq n _ [] rfl
  levelCount_eq {side a} h := by
    show a.bitmap.count = (List.map _ _).length
    rw [h.bitmap.count_eq, List.length_map, occupied_length]
  clear_spec h := h.clear_spec

end ArrayLevels

end LightningLob
