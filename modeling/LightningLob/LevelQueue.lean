import LightningLob.OrderPool
import LightningLob.Lib.IndexLinks
import Mathlib.Data.List.Perm.Basic
import Mathlib.Algebra.BigOperators.Group.List.Basic
import Mathlib.Data.List.Nodup
import Mathlib.Tactic.Ring

/-! # Level queues in the pool

    What the pool operations do, read through three functions of a slot: its
    order and its two links.  `Queue pool level q` says that the level's head
    and tail chains list the slots `q` in opposite orders; each queue
    operation is specified by how it changes `q` and what it leaves alone. -/

namespace LightningLob

open IndexLinks (Links relink)

/-! ## Section 1: The pool as functions of a slot -/

namespace OrderPool

/-- The order in a slot. -/
def orderAt (p : OrderPool) (i : Nat) : Order := (p.nodes[i]?.map OrderNode.order).getD {}

/-- The forward link of a slot. -/
def next (p : OrderPool) (i : Nat) : Option Nat := p.nodes[i]?.bind OrderNode.next

/-- The backward link of a slot. -/
def prev (p : OrderPool) (i : Nat) : Option Nat := p.nodes[i]?.bind OrderNode.prev

theorem get_eq {p : OrderPool} {i : Nat} (hi : i < p.nodes.length) :
    p.get i = some ⟨p.orderAt i, p.prev i, p.next i⟩ := by
  simp [get, orderAt, prev, next, List.getElem?_eq_getElem hi]

/-- What a write to slot `i` changes. -/
theorem update_spec {p : OrderPool} {i : Nat} (hi : i < p.nodes.length)
    (f : OrderNode → OrderNode) :
    ∃ p', p.update i f = some p' ∧ p'.nodes.length = p.nodes.length ∧ p'.freeList = p.freeList ∧
      p'.orderAt = Function.update p.orderAt i (f ⟨p.orderAt i, p.prev i, p.next i⟩).order ∧
      p'.prev = Function.update p.prev i (f ⟨p.orderAt i, p.prev i, p.next i⟩).prev ∧
      p'.next = Function.update p.next i (f ⟨p.orderAt i, p.prev i, p.next i⟩).next := by
  refine ⟨{ p with nodes := p.nodes.set i (f ⟨p.orderAt i, p.prev i, p.next i⟩) },
    by rw [update, get_eq hi]; rfl, by simp, rfl, ?_, ?_, ?_⟩ <;>
  · funext j
    by_cases hj : j = i
    · subst hj
      simp [orderAt, prev, next, List.getElem?_set_self hi]
    · simp [orderAt, prev, next, List.getElem?_set_ne (Ne.symm hj), Function.update_of_ne hj]

theorem setNext_spec {p : OrderPool} (link : Option Nat)
    (h : ∀ i, link = some i → i < p.nodes.length) (v : Option Nat) :
    ∃ p', p.setNext link v = some p' ∧ p'.nodes.length = p.nodes.length ∧
      p'.freeList = p.freeList ∧ p'.orderAt = p.orderAt ∧ p'.prev = p.prev ∧
      p'.next = relink p.next link v := by
  cases link with
  | none => exact ⟨p, rfl, rfl, rfl, rfl, rfl, rfl⟩
  | some i =>
    obtain ⟨p', hrun, hlen, hfree, ho, hp, hn⟩ :=
      update_spec (h i rfl) fun n => { n with next := v }
    exact ⟨p', hrun, hlen, hfree, by simpa using ho, by simpa using hp, hn⟩

theorem setPrev_spec {p : OrderPool} (link : Option Nat)
    (h : ∀ i, link = some i → i < p.nodes.length) (v : Option Nat) :
    ∃ p', p.setPrev link v = some p' ∧ p'.nodes.length = p.nodes.length ∧
      p'.freeList = p.freeList ∧ p'.orderAt = p.orderAt ∧ p'.next = p.next ∧
      p'.prev = relink p.prev link v := by
  cases link with
  | none => exact ⟨p, rfl, rfl, rfl, rfl, rfl, rfl⟩
  | some i =>
    obtain ⟨p', hrun, hlen, hfree, ho, hp, hn⟩ :=
      update_spec (h i rfl) fun n => { n with prev := v }
    exact ⟨p', hrun, hlen, hfree, by simpa using ho, by simpa using hn, hp⟩

/-- When `used` and the free list are the slots of the pool, a slot is used or
    free, never both. -/
theorem used_iff {p : OrderPool} {used : List Nat} {i : Nat}
    (hpart : (used ++ p.freeList).Perm (List.range p.nodes.length)) :
    i ∈ used ↔ i < p.nodes.length ∧ i ∉ p.freeList := by
  have hnd := hpart.nodup_iff.mpr List.nodup_range
  have hmem : i ∈ used ++ p.freeList ↔ i < p.nodes.length := by
    rw [hpart.mem_iff, List.mem_range]
  constructor
  · intro hi
    exact ⟨hmem.mp (List.mem_append_left _ hi),
      fun hfree => (List.nodup_append.mp hnd).2.2 i hi i hfree rfl⟩
  · rintro ⟨hlt, hfree⟩
    exact (List.mem_append.mp (hmem.mpr hlt)).resolve_right hfree

/-- `acquire` takes a slot that is not in use and leaves the others alone.
    `used` are the slots in use. -/
theorem acquire_spec (pf : Platform) {p : OrderPool} {used : List Nat}
    (hpart : (used ++ p.freeList).Perm (List.range p.nodes.length)) (order : Order) :
    ∃ i p', p.acquire pf order = some (i, p') ∧ i < p'.nodes.length ∧
      p.nodes.length ≤ p'.nodes.length ∧ i ∉ used ∧
      (i :: (used ++ p'.freeList)).Perm (List.range p'.nodes.length) ∧
      p'.orderAt i = order ∧ p'.next i = none ∧
      (∀ j ∈ used, p'.orderAt j = p.orderAt j ∧ p'.next j = p.next j ∧ p'.prev j = p.prev j) := by
  cases hfree : p.freeList with
  | cons i rest =>
    have hi : i < p.nodes.length := by
      simpa using hpart.mem_iff.mp (show i ∈ used ++ p.freeList by simp [hfree])
    -- a free slot is in no queue
    have hnot : i ∉ used := fun hu => ((used_iff hpart).mp hu).2 (by simp [hfree])
    obtain ⟨p', hrun, hlen, hfree', ho, hp, hn⟩ :=
      update_spec (p := { p with freeList := rest }) hi fun _ => { order := order }
    refine ⟨i, p', ?_, by rw [hlen]; exact hi, by rw [hlen], hnot, ?_,
      by simp [ho], by simp [hn], ?_⟩
    · simp [acquire, hfree, hrun]
    · rw [hfree', hlen]
      refine List.Perm.trans ?_ (hfree ▸ hpart)
      exact (List.perm_middle).symm
    · intro j hj
      have hji : j ≠ i := fun he => hnot (he ▸ hj)
      rw [ho, hn, hp]
      refine ⟨?_, ?_, ?_⟩ <;> rw [Function.update_of_ne hji] <;> rfl
  | nil =>
    -- no free slot: the pool grows by one
    have hused : ∀ j ∈ used, j < p.nodes.length := fun j hj => ((used_iff hpart).mp hj).1
    refine ⟨p.nodes.length, _, by simp only [acquire, hfree]; rfl, by simp, by simp, ?_, ?_, ?_,
      ?_, ?_⟩
    · intro hu
      exact absurd (hused _ hu) (by omega)
    · simp only [List.append_nil, List.length_append, List.length_singleton,
        List.range_succ]
      have hpart' : used.Perm (List.range p.nodes.length) := by simpa [hfree] using hpart
      exact (hpart'.cons _).trans (List.perm_append_singleton _ _).symm
    · simp [orderAt]
    · simp [next]
    · intro j hj
      have hj' := hused j hj
      simp [orderAt, next, prev, List.getElem?_append_left hj']

theorem release_spec (pf : Platform) {p : OrderPool} {i : Nat} (hi : i < p.nodes.length) :
    ∃ p', p.release pf i = some p' ∧ p'.nodes = p.nodes ∧ p'.freeList = i :: p.freeList :=
  ⟨_, if_pos hi, rfl, rfl⟩

theorem orderAt_congr {p p' : OrderPool} (h : p'.nodes = p.nodes) : p'.orderAt = p.orderAt := by
  funext i; simp [orderAt, h]

theorem next_congr {p p' : OrderPool} (h : p'.nodes = p.nodes) : p'.next = p.next := by
  funext i; simp [next, h]

theorem prev_congr {p p' : OrderPool} (h : p'.nodes = p.nodes) : p'.prev = p.prev := by
  funext i; simp [prev, h]

end OrderPool

/-! ## Section 2: Queues -/

/-- The level's links and count describe the queue of slots `q`. -/
structure Queue (pool : OrderPool) (level : PriceLevel) (q : List Nat) : Prop where
  lt : ∀ i ∈ q, i < pool.nodes.length
  nodup : q.Nodup
  head : level.head = q.head?
  tail : level.tail = q.getLast?
  next : Links pool.next q
  prev : Links pool.prev q.reverse
  count : level.orderCount = q.length

/-- The exact quantity open in a queue. -/
def openQuantity (pool : OrderPool) (q : List Nat) : Int :=
  (q.map fun i => (pool.orderAt i).remainingQuantity).sum

/-- A level stands for the queue `q`: links, count and aggregate. -/
structure LevelRep (pf : Platform) (pool : OrderPool) (level : PriceLevel) (q : List Nat) :
    Prop where
  queue : Queue pool level q
  total : level.totalQuantity = pf.wrap (openQuantity pool q)

/-- Two pools agree on the given slots. -/
structure SameOn (q : List Nat) (p p' : OrderPool) : Prop where
  order : ∀ i ∈ q, p'.orderAt i = p.orderAt i
  next : ∀ i ∈ q, p'.next i = p.next i
  prev : ∀ i ∈ q, p'.prev i = p.prev i

theorem SameOn.refl (q : List Nat) (p : OrderPool) : SameOn q p p :=
  ⟨fun _ _ => rfl, fun _ _ => rfl, fun _ _ => rfl⟩

theorem SameOn.trans {q : List Nat} {p p' p'' : OrderPool} (h₁ : SameOn q p p')
    (h₂ : SameOn q p' p'') : SameOn q p p'' :=
  ⟨fun i hi => (h₂.order i hi).trans (h₁.order i hi),
   fun i hi => (h₂.next i hi).trans (h₁.next i hi),
   fun i hi => (h₂.prev i hi).trans (h₁.prev i hi)⟩

theorem SameOn.mono {q r : List Nat} {p p' : OrderPool} (h : SameOn r p p')
    (hsub : ∀ i ∈ q, i ∈ r) : SameOn q p p' :=
  ⟨fun i hi => h.order i (hsub i hi), fun i hi => h.next i (hsub i hi),
   fun i hi => h.prev i (hsub i hi)⟩

theorem SameOn.left {q r : List Nat} {p p' : OrderPool} (h : SameOn (q ++ r) p p') :
    SameOn q p p' :=
  h.mono fun _ hi => List.mem_append_left _ hi

theorem SameOn.right {q r : List Nat} {p p' : OrderPool} (h : SameOn (q ++ r) p p') :
    SameOn r p p' :=
  h.mono fun _ hi => List.mem_append_right _ hi

theorem SameOn.map_orderAt {q : List Nat} {p p' : OrderPool} (h : SameOn q p p') :
    q.map p'.orderAt = q.map p.orderAt :=
  List.map_congr_left h.order

/-- A queue only depends on its own slots. -/
theorem Queue.congr {pool pool' : OrderPool} {level : PriceLevel} {q : List Nat}
    (h : Queue pool level q) (hsame : SameOn q pool pool')
    (hlen : pool.nodes.length ≤ pool'.nodes.length) : Queue pool' level q where
  lt := fun i hi => Nat.lt_of_lt_of_le (h.lt i hi) hlen
  nodup := h.nodup
  head := h.head
  tail := h.tail
  next := h.next.congr hsame.next
  prev := h.prev.congr fun i hi => hsame.prev i (List.mem_reverse.mp hi)
  count := h.count

/-- The aggregate of a level has no part in its queue. -/
theorem Queue.debited {pool : OrderPool} {level : PriceLevel} {q : List Nat}
    (h : Queue pool level q) (total : Int) : Queue pool { level with totalQuantity := total } q :=
  ⟨h.lt, h.nodup, h.head, h.tail, h.next, h.prev, h.count⟩

theorem openQuantity_congr {pool pool' : OrderPool} {q : List Nat} (hsame : SameOn q pool pool') :
    openQuantity pool' q = openQuantity pool q := by
  unfold openQuantity
  congr 1
  apply List.map_congr_left
  intro i hi
  rw [hsame.order i hi]

theorem LevelRep.congr {pf : Platform} {pool pool' : OrderPool} {level : PriceLevel} {q : List Nat}
    (h : LevelRep pf pool level q) (hsame : SameOn q pool pool')
    (hlen : pool.nodes.length ≤ pool'.nodes.length) : LevelRep pf pool' level q :=
  ⟨h.queue.congr hsame hlen, by rw [openQuantity_congr hsame]; exact h.total⟩

theorem Queue.length_le {pool : OrderPool} {level : PriceLevel} {q : List Nat}
    (h : Queue pool level q) : q.length ≤ pool.nodes.length := by
  have hsub : q ⊆ List.range pool.nodes.length := fun i hi => by simpa using h.lt i hi
  simpa using (List.subperm_of_subset h.nodup hsub).length_le

/-- The chain from the head is the queue. -/
theorem Queue.follow_eq {pool : OrderPool} {level : PriceLevel} {q : List Nat}
    (h : Queue pool level q) :
    IndexLinks.follow pool.next pool.nodes.length level.head = q := by
  rw [h.head]
  exact h.next.follow_eq h.length_le

/-! ## Section 3: The queue operations -/

/-- `level_unlink` takes the slot out of its queue, wherever it sits. -/
theorem levelUnlink_spec {pool : OrderPool} {level : PriceLevel} {a b : List Nat} {i : Nat}
    (h : Queue pool level (a ++ i :: b)) :
    ∃ level' pool', levelUnlink level pool i = some (level', pool') ∧
      Queue pool' level' (a ++ b) ∧ level'.price = level.price ∧
      level'.totalQuantity = level.totalQuantity ∧
      pool'.nodes.length = pool.nodes.length ∧ pool'.freeList = pool.freeList ∧
      pool'.orderAt = pool.orderAt ∧
      (∀ j, j ∉ a ++ i :: b → pool'.next j = pool.next j ∧ pool'.prev j = pool.prev j) := by
  have hi : i < pool.nodes.length := h.lt i (by simp)
  -- the slot's own links name its neighbours in both chains
  have hrev : (a ++ i :: b).reverse = b.reverse ++ i :: a.reverse := by simp
  have hnext : pool.next i = b.head? := h.next.at_middle
  have hprev : pool.prev i = a.getLast? := by
    have := h.prev
    rw [hrev] at this
    rw [this.at_middle, List.head?_reverse]
  -- relink the neighbours around the slot, forwards and then backwards
  obtain ⟨p₁, hp₁, hlen₁, hfree₁, ho₁, hpv₁, hnx₁⟩ := OrderPool.setNext_spec (p := pool)
    a.getLast? (fun j hj => h.lt j (by simp [List.mem_of_getLast? hj])) b.head?
  obtain ⟨p₂, hp₂, hlen₂, hfree₂, ho₂, hnx₂, hpv₂⟩ := OrderPool.setPrev_spec (p := p₁)
    b.head?
    (fun j hj => by rw [hlen₁]; exact h.lt j (by simp [List.mem_of_head? hj])) a.getLast?
  have hnd : (a ++ b).Nodup := h.nodup.sublist (by simp)
  refine ⟨{ level with
      head := if a.getLast? = none then b.head? else level.head
      tail := if b.head? = none then a.getLast? else level.tail
      orderCount := level.orderCount - 1 }, p₂, ?_, ⟨?_, hnd, ?_, ?_, ?_, ?_, ?_⟩, rfl, rfl,
    hlen₂.trans hlen₁, hfree₂.trans hfree₁, ho₂.trans ho₁, ?_⟩
  · simp only [levelUnlink, OrderPool.get_eq hi, hnext, hprev, Option.bind_eq_bind,
      Option.bind_some, hp₁, hp₂, Option.pure_def]
  · intro j hj
    rw [hlen₂, hlen₁]
    exact h.lt j (by simp only [List.mem_append, List.mem_cons] at hj ⊢; tauto)
  · cases a with
    | nil => simp
    | cons y a => simp [h.head]
  · cases hb : b.head? with
    | none =>
      have : b = [] := by simpa using hb
      simp [this]
    | some y =>
      obtain ⟨z, hz⟩ : ∃ z, b.getLast? = some z := by
        cases hl : b.getLast? with
        | none => rw [List.getLast?_eq_none_iff.mp hl] at hb; cases hb
        | some z => exact ⟨z, rfl⟩
      simp [h.tail, List.getLast?_append, List.getLast?_cons, hz]
  · rw [hnx₂, hnx₁]
    exact h.next.remove h.nodup
  · have hr := h.prev
    rw [hrev] at hr
    have hrem := hr.remove (by rw [← hrev]; exact (List.reverse_perm _).nodup_iff.mpr h.nodup)
    rw [List.getLast?_reverse, List.head?_reverse] at hrem
    rw [hpv₂, hpv₁, List.reverse_append]
    exact hrem
  · simp [h.count]
  · intro j hj
    rw [hnx₂, hnx₁, hpv₂, hpv₁]
    constructor
    · apply IndexLinks.relink_of_ne
      intro he
      exact hj (by simp [List.mem_of_getLast? he])
    · apply IndexLinks.relink_of_ne
      intro he
      exact hj (by simp [List.mem_of_head? he])

/-- `level_push_back` appends a slot that no link of the queue points at. -/
theorem levelPushBack_spec (pf : Platform) {pool : OrderPool} {level : PriceLevel} {q : List Nat}
    {i : Nat} (h : LevelRep pf pool level q) (hi : i < pool.nodes.length) (hq : i ∉ q) :
    ∃ level' pool', levelPushBack pf level pool i = some (level', pool') ∧
      LevelRep pf pool' level' (q ++ [i]) ∧ level'.price = level.price ∧
      pool'.nodes.length = pool.nodes.length ∧ pool'.freeList = pool.freeList ∧
      pool'.orderAt = pool.orderAt ∧
      (∀ j, j ∉ q ++ [i] → pool'.next j = pool.next j ∧ pool'.prev j = pool.prev j) := by
  -- link the slot back to the old tail, then the old tail to the slot
  obtain ⟨p₁, hp₁, hlen₁, hfree₁, ho₁, hpv₁, hnx₁⟩ := OrderPool.update_spec hi
    fun n => { n with prev := q.getLast?, next := none }
  obtain ⟨p₂, hp₂, hlen₂, hfree₂, ho₂, hpv₂, hnx₂⟩ := OrderPool.setNext_spec (p := p₁)
    q.getLast?
    (fun j hj => by rw [hlen₁]; exact h.queue.lt j (List.mem_of_getLast? hj)) (some i)
  have ho : p₂.orderAt = pool.orderAt := by
    rw [ho₂, ho₁]
    simp
  refine ⟨{ level with
      head := if q.getLast? = none then some i else level.head
      tail := some i
      orderCount := level.orderCount + 1
      totalQuantity := pf.wrap (level.totalQuantity + (pool.orderAt i).remainingQuantity) }, p₂,
    ?_, ⟨⟨?_, ?_, ?_, ?_, ?_, ?_, ?_⟩, ?_⟩, rfl, hlen₂.trans hlen₁, hfree₂.trans hfree₁, ho, ?_⟩
  · simp only [levelPushBack, OrderPool.get_eq hi, h.queue.tail, Option.bind_eq_bind,
      Option.bind_some, hp₁, hp₂, Option.pure_def]
  · intro j hj
    rw [hlen₂, hlen₁]
    simp only [List.mem_append, List.mem_singleton] at hj
    rcases hj with hj | rfl
    · exact h.queue.lt j hj
    · exact hi
  · rw [List.nodup_append]
    refine ⟨h.queue.nodup, by simp, ?_⟩
    intro x hx y hy
    simp only [List.mem_singleton] at hy
    rintro rfl
    exact hq (hy ▸ hx)
  · cases hl : q.getLast? with
    | none =>
      have : q = [] := List.getLast?_eq_none_iff.mp hl
      simp [this]
    | some z =>
      have hne : q ≠ [] := by rintro rfl; simp at hl
      simp only [reduceCtorEq, if_false, h.queue.head]
      rw [List.head?_append_of_ne_nil _ hne]
  · simp
  · rw [hnx₂, hnx₁]
    apply Links.append _ h.queue.nodup hq (by simp)
    refine h.queue.next.congr ?_
    intro j hj
    have hji : j ≠ i := fun he => hq (he ▸ hj)
    exact Function.update_of_ne hji _ _
  · rw [hpv₂, hpv₁, List.reverse_append]
    refine ⟨by simp, ?_⟩
    refine h.queue.prev.congr ?_
    intro j hj
    have hji : j ≠ i := fun he => hq (he ▸ List.mem_reverse.mp hj)
    exact Function.update_of_ne hji _ _
  · simp [h.queue.count]
  · show pf.wrap (level.totalQuantity + (pool.orderAt i).remainingQuantity) = _
    rw [h.total, pf.wrap_add, openQuantity, openQuantity, ho]
    simp
  · intro j hj
    simp only [List.mem_append, List.mem_singleton, not_or] at hj
    rw [hnx₂, hnx₁, hpv₂, hpv₁, Function.update_of_ne hj.2]
    refine ⟨?_, rfl⟩
    rw [IndexLinks.relink_of_ne, Function.update_of_ne hj.2]
    intro he
    exact hj.1 (List.mem_of_getLast? he)

/-- `level_reduce_quantity` debits one order and its level's aggregate. -/
theorem levelReduceQuantity_spec (pf : Platform) {pool : OrderPool} {level : PriceLevel}
    {a b : List Nat} {i : Nat} (h : LevelRep pf pool level (a ++ i :: b)) (qty : Int) :
    ∃ level' pool', levelReduceQuantity pf level pool i qty = some (level', pool') ∧
      LevelRep pf pool' level' (a ++ i :: b) ∧ level'.price = level.price ∧
      pool'.nodes.length = pool.nodes.length ∧ pool'.freeList = pool.freeList ∧
      pool'.orderAt = Function.update pool.orderAt i
        { pool.orderAt i with remainingQuantity := (pool.orderAt i).remainingQuantity - qty } ∧
      pool'.next = pool.next ∧ pool'.prev = pool.prev := by
  have hi : i < pool.nodes.length := h.queue.lt i (by simp)
  obtain ⟨p₁, hp₁, hlen, hfree, ho, hpv, hnx⟩ := OrderPool.update_spec hi fun n =>
    { n with order := { n.order with remainingQuantity := n.order.remainingQuantity - qty } }
  have hnx' : p₁.next = pool.next := by rw [hnx]; simp
  have hpv' : p₁.prev = pool.prev := by rw [hpv]; simp
  refine ⟨{ level with totalQuantity := pf.wrap (level.totalQuantity - qty) }, p₁, ?_,
    ⟨⟨?_, h.queue.nodup, h.queue.head, h.queue.tail, ?_, ?_, h.queue.count⟩, ?_⟩, rfl, hlen, hfree,
    ho, hnx', hpv'⟩
  · simp only [levelReduceQuantity, hp₁, Option.bind_eq_bind, Option.bind_some, Option.pure_def]
  · rw [hlen]; exact h.queue.lt
  · rw [hnx']; exact h.queue.next
  · rw [hpv']; exact h.queue.prev
  · -- the aggregate follows the one order that changed
    have hnot : ∀ j ∈ a ++ b, j ≠ i := by
      intro j hj he
      have hnd := h.queue.nodup
      rw [List.nodup_middle, List.nodup_cons] at hnd
      exact hnd.1 (he ▸ hj)
    have hsame : ∀ l : List Nat, (∀ j ∈ l, j ≠ i) →
        openQuantity p₁ l = openQuantity pool l := by
      intro l hl
      unfold openQuantity
      congr 1
      apply List.map_congr_left
      intro j hj
      rw [ho, Function.update_of_ne (hl j hj)]
    have hsplit : ∀ p : OrderPool, openQuantity p (a ++ i :: b) =
        openQuantity p a + ((p.orderAt i).remainingQuantity + openQuantity p b) := by
      intro p
      simp [openQuantity]
    show pf.wrap (level.totalQuantity - qty) = _
    rw [h.total, sub_eq_add_neg, pf.wrap_add, hsplit, hsplit,
      hsame a (fun j hj => hnot j (by simp [hj])),
      hsame b (fun j hj => hnot j (by simp [hj])), ho, Function.update_self]
    congr 1
    show _ = _ + ((pool.orderAt i).remainingQuantity - qty + _)
    ring

end LightningLob
