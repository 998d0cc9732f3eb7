import LightningLob.LevelQueue
import LightningLob.OrderBook
import Mathlib.Data.List.Pairwise

/-! # Ladders: one side of a book as a sorted list of levels

    Every level container stands for the list of its levels, best price first.
    `LawfulLevelStore` says what each container operation does to that list;
    the three approaches prove it, and everything about books is derived from
    it. -/

namespace LightningLob

/-! ## Section 1: Sorted lists of levels -/

theorem better_trans {side : Side} {p q r : Int} (h₁ : better side p q = true)
    (h₂ : better side q r = true) : better side p r = true := by
  cases side <;> simp only [better, decide_eq_true_eq] at * <;> omega

theorem better_irrefl (side : Side) (p : Int) : better side p p = false := by
  cases side <;> simp [better]

theorem better_asymm {side : Side} {p q : Int} (h : better side p q = true) :
    better side q p = false := by
  cases side <;> simp only [better, decide_eq_true_eq, decide_eq_false_iff_not] at * <;> omega

/-- Different prices are comparable. -/
theorem better_total (side : Side) {p q : Int} (h : p ≠ q) :
    better side p q = true ∨ better side q p = true := by
  cases side <;> simp only [better, decide_eq_true_eq] <;> omega

/-- The level carries nothing over when it is next used: an emptied level is a
    fresh one at the same price. -/
def PriceLevel.Clean (l : PriceLevel) : Prop := l.orderCount = 0 → l = { price := l.price }

namespace Ladder

/-- Best price first, one level per price. -/
def Sorted (side : Side) (ls : List PriceLevel) : Prop :=
  ls.Pairwise fun a b => better side a.price b.price = true

/-- The depth entry of a level. -/
def entry (l : PriceLevel) : PriceLevelView := ⟨l.price, l.totalQuantity, l.orderCount⟩

/-- A ladder split around one of its levels: the other levels have other
    prices, better ones before it and worse ones after. -/
theorem Sorted.split {side : Side} {a b : List PriceLevel} {l : PriceLevel}
    (h : Sorted side (a ++ l :: b)) :
    (∀ x ∈ a, better side x.price l.price = true) ∧
      (∀ x ∈ b, better side l.price x.price = true) := by
  obtain ⟨-, hb, hab⟩ := List.pairwise_append.mp h
  exact ⟨fun x hx => hab x hx l (by simp), (List.pairwise_cons.mp hb).1⟩

theorem ne_of_better {side : Side} {p q : Int} (h : better side p q = true) : p ≠ q := by
  rintro rfl
  rw [better_irrefl] at h
  cases h

/-- Putting another level at the same price keeps the ladder sorted. -/
theorem Sorted.replace {side : Side} {a b : List PriceLevel} {l l' : PriceLevel}
    (h : Sorted side (a ++ l :: b)) (hp : l'.price = l.price) : Sorted side (a ++ l' :: b) := by
  obtain ⟨ha, hb, hab⟩ := List.pairwise_append.mp h
  obtain ⟨hl, hb'⟩ := List.pairwise_cons.mp hb
  refine List.pairwise_append.mpr ⟨ha, List.pairwise_cons.mpr ⟨?_, hb'⟩, ?_⟩
  · intro x hx
    rw [hp]
    exact hl x hx
  · intro x hx y hy
    rcases List.mem_cons.mp hy with rfl | hy
    · rw [hp]; exact hab x hx l (by simp)
    · exact hab x hx y (by simp [hy])

theorem Sorted.remove {side : Side} {a b : List PriceLevel} {l : PriceLevel}
    (h : Sorted side (a ++ l :: b)) : Sorted side (a ++ b) :=
  h.sublist (by simp)

/-- Inserting a level between the better and the worse ones. -/
theorem Sorted.insert {side : Side} {a b : List PriceLevel} {l : PriceLevel}
    (h : Sorted side (a ++ b)) (ha : ∀ x ∈ a, better side x.price l.price = true)
    (hb : ∀ x ∈ b, better side l.price x.price = true) : Sorted side (a ++ l :: b) := by
  obtain ⟨hsa, hsb, hab⟩ := List.pairwise_append.mp h
  refine List.pairwise_append.mpr ⟨hsa, List.pairwise_cons.mpr ⟨hb, hsb⟩, ?_⟩
  intro x hx y hy
  rcases List.mem_cons.mp hy with rfl | hy
  · exact ha x hx
  · exact hab x hx y hy

/-- A price without a level splits a ladder into better and worse levels. -/
theorem Sorted.exists_split {side : Side} {ls : List PriceLevel} (h : Sorted side ls) {p : Int}
    (hp : ∀ l ∈ ls, l.price ≠ p) :
    ∃ a b, ls = a ++ b ∧ (∀ x ∈ a, better side x.price p = true) ∧
      (∀ x ∈ b, better side p x.price = true) := by
  induction ls with
  | nil => exact ⟨[], [], rfl, by simp, by simp⟩
  | cons x xs ih =>
    obtain ⟨hx, hxs⟩ := List.pairwise_cons.mp h
    rcases better_total side (hp x (by simp)) with hbet | hbet
    · obtain ⟨a, b, rfl, ha, hb⟩ := ih hxs fun l hl => hp l (by simp [hl])
      refine ⟨x :: a, b, rfl, ?_, hb⟩
      intro y hy
      rcases List.mem_cons.mp hy with rfl | hy
      · exact hbet
      · exact ha y hy
    · refine ⟨[], x :: xs, rfl, by simp, ?_⟩
      intro y hy
      rcases List.mem_cons.mp hy with rfl | hy
      · exact hbet
      · exact better_trans hbet (hx y hy)

end Ladder

/-! ## Section 2: What a level container must do -/

/-- After an operation the side `s` has become `s'`, with the ladder `ls`. -/
structure Becomes {S : Type} [LevelStore S] (WF : S → Prop) (view : S → List PriceLevel)
    (s s' : S) (ls : List PriceLevel) : Prop where
  wf : WF s'
  view_eq : view s' = ls
  range_eq : LevelStore.inRange s' = LevelStore.inRange s

/-- A level container implements a ladder. -/
class LawfulLevelStore (S : Type) [LevelStore S] where
  /-- The container's own invariant. -/
  WF : Side → S → Prop
  /-- The levels it holds, best first. -/
  view : Side → S → List PriceLevel
  sorted : ∀ {side s}, WF side s → Ladder.Sorted side (view side s)
  range_view : ∀ {side s l}, WF side s → l ∈ view side s → LevelStore.inRange s l.price = true
  best_eq : ∀ {side s}, WF side s →
    LevelStore.best side s = (view side s).head?.map PriceLevel.price
  front_eq : ∀ {side s}, WF side s →
    LevelStore.front side s = some ((view side s).head?.map fun l => (l.price, l))
  putFront_spec : ∀ {side s l₀ ls l}, WF side s → view side s = l₀ :: ls → l.price = l₀.price →
    l.Clean → ∃ s', LevelStore.putFront side s l = some s' ∧
      Becomes (WF side) (view side) s s' (if l.empty then ls else l :: ls)
  putFront_same : ∀ {side s l ls}, WF side s → view side s = l :: ls → l.orderCount ≠ 0 →
    LevelStore.putFront side s l = some s
  find_eq : ∀ {side s l}, WF side s → l ∈ view side s →
    LevelStore.find side s l.price = some (some l)
  deref_eq : ∀ {side s l}, WF side s → l ∈ view side s → LevelStore.deref side s l.price = some l
  write_spec : ∀ {side s a l₀ b l}, WF side s → view side s = a ++ l₀ :: b →
    l.price = l₀.price → l.orderCount ≠ 0 → ∃ s', LevelStore.write side s l₀.price l = some s' ∧
      Becomes (WF side) (view side) s s' (a ++ l :: b)
  put_spec : ∀ {side s a l₀ b l}, WF side s → view side s = a ++ l₀ :: b → l.price = l₀.price →
    l.Clean → ∃ s', LevelStore.put side s l₀.price l = some s' ∧
      Becomes (WF side) (view side) s s' (a ++ if l.empty then b else l :: b)
  upsert_old : ∀ {side s a l₀ b l pool} {f : PriceLevel → Run (PriceLevel × OrderPool)},
    WF side s → view side s = a ++ l₀ :: b → f l₀ = some (l, pool) → l.price = l₀.price →
    l.orderCount ≠ 0 → ∃ s', LevelStore.upsert side s l₀.price f = some (s', pool) ∧
      Becomes (WF side) (view side) s s' (a ++ l :: b)
  upsert_new : ∀ {side s a b p l pool} {f : PriceLevel → Run (PriceLevel × OrderPool)},
    WF side s → view side s = a ++ b → (∀ x ∈ a, better side x.price p = true) →
    (∀ x ∈ b, better side p x.price = true) → LevelStore.inRange s p = true →
    f { price := p } = some (l, pool) → l.price = p → l.orderCount ≠ 0 →
    ∃ s', LevelStore.upsert side s p f = some (s', pool) ∧
      Becomes (WF side) (view side) s s' (a ++ l :: b)
  hasLiquidity_eq : ∀ {pf side s type limitPrice needed}, WF side s →
    LevelStore.hasLiquidity pf side s type limitPrice needed =
      some (liquidityLoop pf side type limitPrice needed 0
        ((view side s).map fun l => (l.price, l)))
  depth_eq : ∀ {side s n}, WF side s →
    LevelStore.depth side s n = some (((view side s).take n).map Ladder.entry)
  levelCount_eq : ∀ {side s}, WF side s → LevelStore.levelCount s = (view side s).length
  clear_spec : ∀ {side s}, WF side s → ∃ s', LevelStore.clear s = some s' ∧
    Becomes (WF side) (view side) s s' []

end LightningLob
