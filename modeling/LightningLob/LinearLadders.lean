import LightningLob.Ladder
import LightningLob.OrderBookMap
import LightningLob.OrderBookVector

/-! # The map and the vector are ladders

    Both keep one entry per level in the order of the side, so their view is
    the sequence itself; what is left to check is that each lookup finds the
    level it is meant to find. -/

namespace LightningLob

open LevelStore

/-! ## Section 1: `std::map` levels -/

namespace MapLevels

/-- The entries of a map holding the given levels. -/
def keyed (ls : List PriceLevel) : List (Int × PriceLevel) := ls.map fun l => (l.price, l)

section keyed

variable {side : Side} {a b : List PriceLevel} {l₀ l : PriceLevel} {p : Int}

/-- Around a level, no other entry has its key. -/
theorem keyed_ne (h : Ladder.Sorted side (a ++ l₀ :: b)) :
    (∀ e ∈ keyed a, e.1 ≠ l₀.price) ∧ (∀ e ∈ keyed b, e.1 ≠ l₀.price) := by
  obtain ⟨ha, hb⟩ := h.split
  constructor
  · intro e he
    obtain ⟨x, hx, rfl⟩ := List.mem_map.mp he
    exact Ladder.ne_of_better (ha x hx)
  · intro e he
    obtain ⟨x, hx, rfl⟩ := List.mem_map.mp he
    exact (Ladder.ne_of_better (hb x hx)).symm

theorem lookup_keyed (h : Ladder.Sorted side (a ++ l₀ :: b)) :
    lookup ⟨keyed (a ++ l₀ :: b)⟩ l₀.price = some l₀ := by
  have ha := (keyed_ne h).1
  have hnone : (keyed a).find? (fun e => e.1 = l₀.price) = none := by
    rw [List.find?_eq_none]
    intro e he
    simpa using ha e he
  simp only [lookup, keyed, List.map_append, List.map_cons] at hnone ⊢
  rw [List.find?_append, hnone]
  simp

theorem lookup_keyed_none {ls : List PriceLevel} (h : ∀ l ∈ ls, l.price ≠ p) :
    lookup ⟨keyed ls⟩ p = none := by
  simp only [lookup, Option.map_eq_none_iff, List.find?_eq_none, keyed]
  intro e he
  obtain ⟨x, hx, rfl⟩ := List.mem_map.mp he
  simpa using h x hx

theorem assign_keyed (h : Ladder.Sorted side (a ++ l₀ :: b)) (hp : l.price = l₀.price) :
    assign ⟨keyed (a ++ l₀ :: b)⟩ l₀.price l = ⟨keyed (a ++ l :: b)⟩ := by
  obtain ⟨ha, hb⟩ := keyed_ne h
  have hkeep : ∀ es : List (Int × PriceLevel), (∀ e ∈ es, e.1 ≠ l₀.price) →
      es.map (fun e => if e.1 = l₀.price then (l₀.price, l) else e) = es := by
    intro es hes
    rw [List.map_congr_left (fun e he => if_neg (hes e he)), List.map_id']
  simp only [assign, keyed, List.map_append, List.map_cons, if_true, hp] at ha hb ⊢
  rw [hkeep _ ha, hkeep _ hb]

theorem erase_keyed (h : Ladder.Sorted side (a ++ l₀ :: b)) :
    erase ⟨keyed (a ++ l₀ :: b)⟩ l₀.price = ⟨keyed (a ++ b)⟩ := by
  obtain ⟨ha, hb⟩ := keyed_ne h
  simp only [erase, keyed, List.map_append, List.map_cons] at ha hb ⊢
  rw [List.filter_append, List.filter_cons_of_neg (by simp),
    List.filter_eq_self.mpr (fun e he => by simpa using ha e he),
    List.filter_eq_self.mpr (fun e he => by simpa using hb e he)]

theorem emplace_keyed (ha : ∀ x ∈ a, better side x.price p = true)
    (hb : ∀ x ∈ b, better side p x.price = true) (hp : l.price = p) :
    emplace side ⟨keyed (a ++ b)⟩ p l = ⟨keyed (a ++ l :: b)⟩ := by
  have hpos : ∀ e ∈ keyed a, (fun e : Int × PriceLevel => better side e.1 p) e = true := by
    intro e he
    obtain ⟨x, hx, rfl⟩ := List.mem_map.mp he
    exact ha x hx
  -- the search for the place stops at the first worse entry
  have hstop : (keyed b).takeWhile (fun e => better side e.1 p) = [] ∧
      (keyed b).dropWhile (fun e => better side e.1 p) = keyed b := by
    cases b with
    | nil => exact ⟨rfl, rfl⟩
    | cons x b =>
      have := better_asymm (hb x (by simp))
      simp [keyed, this]
  have happ : keyed (a ++ b) = keyed a ++ keyed b := List.map_append
  rw [emplace, happ, List.takeWhile_append_of_pos hpos, List.dropWhile_append_of_pos hpos, hstop.1,
    hstop.2]
  simp [keyed, hp]

end keyed

/-- The map's invariant: its entries are its levels under their own prices, in
    the order of the comparator. -/
def WF (side : Side) (m : MapLevels) : Prop :=
  Ladder.Sorted side (m.entries.map Prod.snd) ∧ m.entries = keyed (m.entries.map Prod.snd)

theorem map_snd_keyed (ls : List PriceLevel) : (keyed ls).map Prod.snd = ls := by
  simp [keyed, Function.comp_def]

/-- The map that holds a sorted list of levels. -/
theorem becomes_keyed {side : Side} {m : MapLevels} {ls : List PriceLevel}
    (h : Ladder.Sorted side ls) :
    Becomes (WF side) (fun m => m.entries.map Prod.snd) m ⟨keyed ls⟩ ls :=
  ⟨⟨by rw [map_snd_keyed]; exact h, by rw [map_snd_keyed]⟩, map_snd_keyed ls, rfl⟩

/-- A well-formed map is determined by its levels. -/
theorem WF.eq_keyed {side : Side} {m : MapLevels} {ls : List PriceLevel} (h : WF side m)
    (hview : m.entries.map Prod.snd = ls) : m = ⟨keyed ls⟩ ∧ Ladder.Sorted side ls := by
  obtain ⟨hsort, hent⟩ := h
  rw [hview] at hsort hent
  exact ⟨congrArg MapLevels.mk hent, hsort⟩

/-- Writing a level back and erasing it if it is empty. -/
theorem settle_keyed {side : Side} {a b : List PriceLevel} {l₀ l : PriceLevel}
    (hsort : Ladder.Sorted side (a ++ l₀ :: b)) (hp : l.price = l₀.price) :
    (if l.empty then (assign ⟨keyed (a ++ l₀ :: b)⟩ l₀.price l).erase l₀.price
      else assign ⟨keyed (a ++ l₀ :: b)⟩ l₀.price l) =
      ⟨keyed (a ++ if l.empty then b else l :: b)⟩ ∧
    Ladder.Sorted side (a ++ if l.empty then b else l :: b) := by
  rw [assign_keyed hsort hp]
  by_cases he : l.empty = true
  · rw [if_pos he, if_pos he, ← hp, erase_keyed (hsort.replace hp)]
    exact ⟨rfl, hsort.remove⟩
  · rw [if_neg he, if_neg he]
    exact ⟨rfl, hsort.replace hp⟩

instance : LawfulLevelStore MapLevels where
  WF := WF
  view _ m := m.entries.map Prod.snd
  sorted h := h.1
  range_view _ _ := rfl
  best_eq {side s} h := by
    show s.entries.head?.map Prod.fst = _
    rw [h.2, map_snd_keyed]
    cases s.entries.map Prod.snd <;> rfl
  front_eq {side s} h := by
    show some s.entries.head? = _
    rw [h.2, map_snd_keyed]
    cases s.entries.map Prod.snd <;> rfl
  putFront_spec {side s l₀ ls l} h hview hp _ := by
    obtain ⟨rfl, hsort⟩ := h.eq_keyed hview
    obtain ⟨hset, hsort'⟩ := settle_keyed (a := []) hsort hp
    exact ⟨_, congrArg some hset, becomes_keyed hsort'⟩
  putFront_same {side s l ls} h hview hcount := by
    obtain ⟨rfl, hsort⟩ := h.eq_keyed hview
    -- a level that still has orders is assigned over itself
    obtain ⟨hset, -⟩ := settle_keyed (a := []) hsort (l := l) rfl
    have he : l.empty = false := by simpa [PriceLevel.empty] using hcount
    rw [he] at hset
    show some _ = _
    rw [he]
    exact congrArg some hset
  find_eq {side s l} h hl := by
    obtain ⟨a, b, hview⟩ := List.append_of_mem hl
    obtain ⟨rfl, hsort⟩ := h.eq_keyed hview
    exact congrArg some (lookup_keyed hsort)
  deref_eq {side s l} h hl := by
    obtain ⟨a, b, hview⟩ := List.append_of_mem hl
    obtain ⟨rfl, hsort⟩ := h.eq_keyed hview
    exact lookup_keyed hsort
  write_spec {side s a l₀ b l} h hview hp _ := by
    obtain ⟨rfl, hsort⟩ := h.eq_keyed hview
    exact ⟨_, congrArg some (assign_keyed hsort hp), becomes_keyed (hsort.replace hp)⟩
  put_spec {side s a l₀ b l} h hview hp _ := by
    obtain ⟨rfl, hsort⟩ := h.eq_keyed hview
    obtain ⟨hset, hsort'⟩ := settle_keyed hsort hp
    exact ⟨_, congrArg some hset, becomes_keyed hsort'⟩
  upsert_old {side s a l₀ b l pool f} h hview hf hp _ := by
    obtain ⟨rfl, hsort⟩ := h.eq_keyed hview
    refine ⟨_, ?_, becomes_keyed (hsort.replace hp)⟩
    simp only [upsert, lookup_keyed hsort, hf, assign_keyed hsort hp, Option.bind_eq_bind,
      Option.bind_some, Option.pure_def]
  upsert_new {side s a b p l pool f} h hview ha hb _ hf hp _ := by
    obtain ⟨rfl, hsort⟩ := h.eq_keyed hview
    -- no entry under the price: `try_emplace` inserts
    have hnone : lookup ⟨keyed (a ++ b)⟩ p = none := by
      refine lookup_keyed_none ?_
      intro x hx
      rcases List.mem_append.mp hx with hx | hx
      · exact Ladder.ne_of_better (ha x hx)
      · exact (Ladder.ne_of_better (hb x hx)).symm
    refine ⟨_, ?_, becomes_keyed (hsort.insert (l := l) (hp ▸ ha) (hp ▸ hb))⟩
    simp only [upsert, hnone, hf, emplace_keyed ha hb hp, Option.bind_eq_bind, Option.bind_some,
      Option.pure_def]
  hasLiquidity_eq {pf side s type limitPrice needed} h := by
    obtain ⟨ls, hview⟩ : ∃ ls, s.entries.map Prod.snd = ls := ⟨_, rfl⟩
    obtain ⟨rfl, -⟩ := h.eq_keyed hview
    rw [hview]
    rfl
  depth_eq {side s n} h := by
    obtain ⟨ls, hview⟩ : ∃ ls, s.entries.map Prod.snd = ls := ⟨_, rfl⟩
    obtain ⟨rfl, -⟩ := h.eq_keyed hview
    rw [hview]
    simp [depth, keyed, Ladder.entry, ← List.map_take]
  levelCount_eq {side s} _ := by
    show s.entries.length = _
    simp
  clear_spec {side s} _ := ⟨⟨keyed []⟩, rfl, becomes_keyed List.Pairwise.nil⟩

end MapLevels

/-! ## Section 2: Sorted vector levels -/

namespace VectorLevels

section positions

variable {side : Side} {a b : List PriceLevel} {l₀ l : PriceLevel} {p : Int}

/-- Inserting behind the first levels. -/
theorem insertIdx_length (a b : List PriceLevel) (l : PriceLevel) :
    (a ++ b).insertIdx a.length l = a ++ l :: b := by
  induction a with
  | nil => rfl
  | cons x a ih => simp [ih]

/-- The search stops behind the better levels. -/
theorem findPosition_eq (ha : ∀ x ∈ a, better side x.price p = true)
    (hb : ∀ x ∈ b, better side x.price p = false) :
    findPosition side ⟨a ++ b⟩ p = a.length :=
  BinarySearch.lowerBound_append _ a b ha hb

theorem findPosition_old (h : Ladder.Sorted side (a ++ l₀ :: b)) :
    findPosition side ⟨a ++ l₀ :: b⟩ l₀.price = a.length := by
  obtain ⟨ha, hb⟩ := h.split
  refine findPosition_eq ha ?_
  intro x hx
  rcases List.mem_cons.mp hx with rfl | hx
  · exact better_irrefl side x.price
  · exact better_asymm (hb x hx)

theorem levelAt_old (h : Ladder.Sorted side (a ++ l₀ :: b)) :
    levelAt side ⟨a ++ l₀ :: b⟩ l₀.price = some l₀ := by
  simp [levelAt, findPosition_old h]

theorem findPosition_new (ha : ∀ x ∈ a, better side x.price p = true)
    (hb : ∀ x ∈ b, better side p x.price = true) :
    findPosition side ⟨a ++ b⟩ p = a.length :=
  findPosition_eq ha fun x hx => better_asymm (hb x hx)

theorem levelAt_new (ha : ∀ x ∈ a, better side x.price p = true)
    (hb : ∀ x ∈ b, better side p x.price = true) : levelAt side ⟨a ++ b⟩ p = none := by
  rw [levelAt, findPosition_new ha hb]
  cases b with
  | nil => simp
  | cons x b =>
    have := Ladder.ne_of_better (hb x (by simp))
    simp [this.symm]

end positions

/-- The vector's invariant: sorted, one level per price. -/
def WF (side : Side) (v : VectorLevels) : Prop := Ladder.Sorted side v.items

theorem becomes {side : Side} {v : VectorLevels} {ls : List PriceLevel}
    (h : Ladder.Sorted side ls) : Becomes (WF side) items v ⟨ls⟩ ls :=
  ⟨h, rfl, rfl⟩

instance : LawfulLevelStore VectorLevels where
  WF := WF
  view _ v := v.items
  sorted h := h
  range_view _ _ := rfl
  best_eq _ := rfl
  front_eq _ := rfl
  putFront_spec {side s l₀ ls l} h hview hp _ := by
    obtain ⟨items⟩ := s
    obtain rfl : items = l₀ :: ls := hview
    refine ⟨_, rfl, becomes ?_⟩
    by_cases he : l.empty = true
    · rw [if_pos he]; exact Ladder.Sorted.remove (a := []) h
    · rw [if_neg he]; exact Ladder.Sorted.replace (a := []) h hp
  putFront_same {side s l ls} h hview hcount := by
    obtain ⟨items⟩ := s
    obtain rfl : items = l :: ls := hview
    have he : l.empty = false := by simpa [PriceLevel.empty] using hcount
    simp [putFront, he]
  find_eq {side s l} h hl := by
    obtain ⟨a, b, hview⟩ := List.append_of_mem hl
    obtain ⟨items⟩ := s
    obtain rfl : items = a ++ l :: b := hview
    exact congrArg some (levelAt_old h)
  deref_eq {side s l} h hl := by
    obtain ⟨a, b, hview⟩ := List.append_of_mem hl
    obtain ⟨items⟩ := s
    obtain rfl : items = a ++ l :: b := hview
    simp [deref, findPosition_old h]
  write_spec {side s a l₀ b l} h hview hp _ := by
    obtain ⟨items⟩ := s
    obtain rfl : items = a ++ l₀ :: b := hview
    refine ⟨⟨a ++ l :: b⟩, ?_, becomes (Ladder.Sorted.replace h hp)⟩
    simp [write, findPosition_old h]
  put_spec {side s a l₀ b l} h hview hp _ := by
    obtain ⟨items⟩ := s
    obtain rfl : items = a ++ l₀ :: b := hview
    refine ⟨⟨a ++ if l.empty then b else l :: b⟩, ?_, becomes ?_⟩
    · simp only [put, findPosition_old h, Option.pure_def]
      by_cases he : l.empty = true
      · simp [he, List.eraseIdx_append_of_length_le]
      · simp [he]
    · by_cases he : l.empty = true
      · rw [if_pos he]; exact Ladder.Sorted.remove h
      · rw [if_neg he]; exact Ladder.Sorted.replace h hp
  upsert_old {side s a l₀ b l pool f} h hview hf hp _ := by
    obtain ⟨items⟩ := s
    obtain rfl : items = a ++ l₀ :: b := hview
    refine ⟨⟨a ++ l :: b⟩, ?_, becomes (Ladder.Sorted.replace h hp)⟩
    simp [upsert, levelAt_old h, findPosition_old h, hf]
  upsert_new {side s a b p l pool f} h hview ha hb _ hf hp _ := by
    obtain ⟨items⟩ := s
    obtain rfl : items = a ++ b := hview
    refine ⟨⟨a ++ l :: b⟩, ?_, becomes (Ladder.Sorted.insert h (hp ▸ ha) (hp ▸ hb))⟩
    simp [upsert, levelAt_new ha hb, findPosition_new ha hb, hf, insertIdx_length]
  hasLiquidity_eq _ := rfl
  depth_eq _ := rfl
  levelCount_eq _ := rfl
  clear_spec _ := ⟨_, rfl, becomes List.Pairwise.nil⟩

end VectorLevels

end LightningLob
