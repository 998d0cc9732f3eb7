import LightningLob.IdIndexMapSpec
import LightningLob.Ladder
import LightningLob.Reference

/-! # What the data structures of a book stand for

    `Store`: the pool, its free list and the id index agree on which slots are
    in use.  `SideRep`: a level container and the pool together stand for a
    list of queues of resting orders, best level first. -/

namespace LightningLob

/-! ## Section 1: The order storage -/

/-- `live` are the slots in use: with the free list they are all the slots of
    the pool, and the id index maps exactly their non-zero ids.  `nz` is the
    assumption that no order was given id zero, under which the index also
    counts the live orders. -/
structure Store (nz : Prop) (pool : OrderPool) (ids : IdIndexMap) (live : List Nat) : Prop where
  part : (live ++ pool.freeList).Perm (List.range pool.nodes.length)
  wf : ids.WF
  lookup : ∀ id i, ids.lookup id = some i ↔
    id ≠ kInvalidOrderId ∧ i ∈ live ∧ (pool.orderAt i).id = id
  counted : nz → (∀ i ∈ live, (pool.orderAt i).id ≠ kInvalidOrderId) ∧
    ids.size = live.length ∧ ids.size = Slots.occupied ids.slots

section store_lemmas

variable {nz : Prop} {pool pool' : OrderPool} {ids : IdIndexMap} {live live' : List Nat} {i : Nat}

theorem Store.nodup (h : Store nz pool ids live) : live.Nodup :=
  (List.nodup_append.mp (h.part.nodup_iff.mpr List.nodup_range)).1

/-- A slot of the pool is in use or free, never both. -/
theorem Store.live_iff (h : Store nz pool ids live) :
    i ∈ live ↔ i < pool.nodes.length ∧ i ∉ pool.freeList :=
  OrderPool.used_iff h.part

theorem Store.lt (h : Store nz pool ids live) (hi : i ∈ live) : i < pool.nodes.length :=
  (h.live_iff.mp hi).1

theorem Store.free_nodup (h : Store nz pool ids live) : pool.freeList.Nodup :=
  (List.nodup_append.mp (h.part.nodup_iff.mpr List.nodup_range)).2.1

theorem Store.free_lt (h : Store nz pool ids live) (hi : i ∈ pool.freeList) :
    i < pool.nodes.length := by
  simpa using h.part.mem_iff.mp (List.mem_append_right _ hi)

/-- The order in which the live slots are listed does not matter. -/
theorem Store.perm (h : Store nz pool ids live) (hp : live'.Perm live) :
    Store nz pool ids live' where
  part := (hp.append_right _).trans h.part
  wf := h.wf
  lookup := fun id i => by rw [h.lookup, hp.mem_iff]
  counted := fun hz => by
    obtain ⟨h₁, h₂, h₃⟩ := h.counted hz
    exact ⟨fun i hi => h₁ i (hp.mem_iff.mp hi), h₂.trans hp.length_eq.symm, h₃⟩

/-- Changing links and quantities does not matter either. -/
theorem Store.congr (h : Store nz pool ids live) (hlen : pool'.nodes.length = pool.nodes.length)
    (hfree : pool'.freeList = pool.freeList)
    (hid : ∀ i ∈ live, (pool'.orderAt i).id = (pool.orderAt i).id) : Store nz pool' ids live where
  part := by rw [hlen, hfree]; exact h.part
  wf := h.wf
  lookup := fun id i => by
    rw [h.lookup]
    constructor
    · rintro ⟨h₁, h₂, h₃⟩; exact ⟨h₁, h₂, (hid i h₂).trans h₃⟩
    · rintro ⟨h₁, h₂, h₃⟩; exact ⟨h₁, h₂, (hid i h₂).symm.trans h₃⟩
  counted := fun hz => by
    obtain ⟨h₁, h₂⟩ := h.counted hz
    exact ⟨fun i hi => by rw [hid i hi]; exact h₁ i hi, h₂⟩

/-- Releasing a slot and erasing its order's id. -/
theorem Store.drop (h : Store nz pool ids (i :: live))
    (hlen : pool'.nodes.length = pool.nodes.length) (hfree : pool'.freeList = i :: pool.freeList)
    (hid : ∀ j ∈ live, (pool'.orderAt j).id = (pool.orderAt j).id) :
    ∃ found ids', ids.erase (pool.orderAt i).id = some (found, ids') ∧
      Store nz pool' ids' live := by
  obtain ⟨ids', hrun, hwf', hlook, hsize, hocc, -⟩ := h.wf.erase_spec (pool.orderAt i).id
  have hi : i ∉ live := (List.nodup_cons.mp h.nodup).1
  refine ⟨_, ids', hrun, ?_, hwf', ?_, ?_⟩
  · rw [hlen, hfree]
    exact List.perm_middle.trans h.part
  · intro id j
    rw [hlook]
    by_cases hk : id = (pool.orderAt i).id
    · -- no other live slot has this id, the index being a function
      rw [if_pos hk]
      simp only [reduceCtorEq, false_iff]
      rintro ⟨hne, hj, hje⟩
      have hj' := (h.lookup id j).mpr ⟨hne, by simp [hj], (hid j hj).symm.trans hje⟩
      have hi' := (h.lookup id i).mpr ⟨hne, by simp, hk.symm⟩
      rw [hi'] at hj'
      exact hi (Option.some.inj hj' ▸ hj)
    · rw [if_neg hk, h.lookup]
      constructor
      · rintro ⟨hne, hj, hje⟩
        rcases List.mem_cons.mp hj with rfl | hj
        · exact (hk hje.symm).elim
        · exact ⟨hne, hj, (hid j hj).trans hje⟩
      · rintro ⟨hne, hj, hje⟩
        exact ⟨hne, by simp [hj], (hid j hj).symm.trans hje⟩
  · intro hz
    -- the slot was counted, so its id was indexed
    obtain ⟨h₁, h₂, h₃⟩ := h.counted hz
    have hsome : ids.lookup (pool.orderAt i).id = some i :=
      (h.lookup _ i).mpr ⟨h₁ i (by simp), by simp, rfl⟩
    simp only [hsome, Option.isSome_some, if_true] at hsize hocc
    simp only [List.length_cons] at h₂
    refine ⟨fun j hj => ?_, by omega, by omega⟩
    rw [hid j hj]
    exact h₁ j (by simp [hj])

/-- Taking a slot into use and indexing its order's id. -/
theorem Store.insert (h : Store nz pool ids live)
    (hpart : (i :: (live ++ pool'.freeList)).Perm (List.range pool'.nodes.length))
    (hi : i ∉ live) (hid : ∀ j ∈ live, (pool'.orderAt j).id = (pool.orderAt j).id)
    (hfresh : ∀ j ∈ live, (pool.orderAt j).id = (pool'.orderAt i).id →
      (pool'.orderAt i).id = kInvalidOrderId)
    (hnz : nz → (pool'.orderAt i).id ≠ kInvalidOrderId) :
    ∃ fresh ids', ids.insert (pool'.orderAt i).id i = some (fresh, ids') ∧
      Store nz pool' ids' (i :: live) := by
  obtain ⟨ids', hrun, hwf', hlook, hexact⟩ := h.wf.insert_spec (pool'.orderAt i).id i
  -- the id is fresh, so the insertion does not refuse it
  have hnone : ids.lookup (pool'.orderAt i).id = none := by
    cases hl : ids.lookup (pool'.orderAt i).id with
    | none => rfl
    | some j =>
      obtain ⟨hne, hj, hje⟩ := (h.lookup _ j).mp hl
      exact (hne (hfresh j hj hje)).elim
  refine ⟨_, ids', hrun, hpart, hwf', ?_, ?_⟩
  · intro id j
    rw [hlook]
    by_cases hk : id = (pool'.orderAt i).id ∧ (pool'.orderAt i).id ≠ kInvalidOrderId ∧
        ids.lookup (pool'.orderAt i).id = none
    · obtain ⟨rfl, hne, -⟩ := hk
      rw [if_pos ⟨rfl, hne, hnone⟩, Option.some.injEq]
      constructor
      · rintro rfl
        exact ⟨hne, by simp, rfl⟩
      · rintro ⟨-, hj, hje⟩
        rcases List.mem_cons.mp hj with rfl | hj
        · rfl
        · exact (hne (hfresh j hj ((hid j hj).symm.trans hje))).elim
    · rw [if_neg hk, h.lookup]
      constructor
      · rintro ⟨hne, hj, hje⟩
        exact ⟨hne, by simp [hj], (hid j hj).trans hje⟩
      · rintro ⟨hne, hj, hje⟩
        rcases List.mem_cons.mp hj with rfl | hj
        · exact (hk ⟨hje.symm, hje ▸ hne, hnone⟩).elim
        · exact ⟨hne, hj, (hid j hj).symm.trans hje⟩
  · intro hz
    obtain ⟨h₁, h₂, h₃⟩ := h.counted hz
    obtain ⟨hsize, hocc⟩ := hexact (hnz hz) h₃
    rw [hnone] at hsize
    refine ⟨?_, by simp [hsize, h₂], hocc⟩
    intro j hj
    rcases List.mem_cons.mp hj with rfl | hj
    · exact hnz hz
    · rw [hid j hj]; exact h₁ j hj

/-- Two live orders with the same non-zero id are one. -/
theorem Store.id_unique (h : Store nz pool ids live) {j : Nat} (hi : i ∈ live) (hj : j ∈ live)
    (hne : (pool.orderAt i).id ≠ kInvalidOrderId)
    (heq : (pool.orderAt j).id = (pool.orderAt i).id) : j = i := by
  have h₁ := (h.lookup (pool.orderAt i).id i).mpr ⟨hne, hi, rfl⟩
  have h₂ := (h.lookup (pool.orderAt i).id j).mpr ⟨hne, hj, heq⟩
  rw [h₁] at h₂
  exact (Option.some.inj h₂).symm

end store_lemmas

/-! ## Section 2: A side of the book -/

/-- An order resting at `price` on `side`. -/
structure Placed (side : Side) (price : Int) (o : Order) : Prop where
  side_eq : o.side = side
  price_eq : o.price = price
  price_pos : 0 < price
  open_pos : 0 < o.remainingQuantity
  rests : o.restsInBook = true

/-- A level of the book stands for its queue of resting orders. -/
structure LevelOk (pf : Platform) (pool : OrderPool) (side : Side) (level : PriceLevel)
    (q : List Nat) : Prop where
  rep : LevelRep pf pool level q
  ne : q ≠ []
  placed : ∀ i ∈ q, Placed side level.price (pool.orderAt i)

/-- A side of the book stands for the queues `qs`, best level first. -/
structure SideRep {S : Type} [LevelStore S] [LawfulLevelStore S] (pf : Platform)
    (pool : OrderPool) (side : Side) (s : S) (qs : List (List Nat)) : Prop where
  wf : LawfulLevelStore.WF side s
  levels : List.Forall₂ (LevelOk pf pool side) (LawfulLevelStore.view side s) qs

section sides

variable {pf : Platform} {pool pool' : OrderPool} {side : Side} {level : PriceLevel} {q : List Nat}
  {ls : List PriceLevel} {qs : List (List Nat)}

theorem LevelOk.congr (h : LevelOk pf pool side level q) (hsame : SameOn q pool pool')
    (hlen : pool.nodes.length ≤ pool'.nodes.length) : LevelOk pf pool' side level q where
  rep := h.rep.congr hsame hlen
  ne := h.ne
  placed := fun i hi => by rw [hsame.order i hi]; exact h.placed i hi

theorem levels_congr (h : List.Forall₂ (LevelOk pf pool side) ls qs)
    (hsame : SameOn qs.flatten pool pool') (hlen : pool.nodes.length ≤ pool'.nodes.length) :
    List.Forall₂ (LevelOk pf pool' side) ls qs := by
  induction h with
  | nil => exact .nil
  | cons hl _ ih =>
    rw [List.flatten_cons] at hsame
    exact .cons (hl.congr hsame.left hlen) (ih hsame.right)

/-- An emptied level carries nothing over. -/
theorem LevelRep.clean (h : LevelRep pf pool level q) : level.Clean := by
  intro hcount
  -- an empty queue has null links and sums to zero
  have hq : q = [] := List.length_eq_zero_iff.mp (h.queue.count ▸ hcount)
  have htot := h.total
  have hhead := h.queue.head
  have htail := h.queue.tail
  rw [hq] at htot hhead htail
  rw [show openQuantity pool [] = 0 from rfl, pf.wrap_zero] at htot
  obtain ⟨p, t, c, hd, tl⟩ := level
  simp only [List.head?_nil, List.getLast?_nil] at htot hhead htail hcount ⊢
  rw [htot, hhead, htail, hcount]

theorem LevelRep.empty_iff (h : LevelRep pf pool level q) : level.empty = true ↔ q = [] := by
  simp [PriceLevel.empty, h.queue.count]

/-- Every queue of the side belongs to one of its levels. -/
theorem levels_of_mem (h : List.Forall₂ (LevelOk pf pool side) ls qs) (hq : q ∈ qs) :
    ∃ l ∈ ls, LevelOk pf pool side l q := by
  induction h with
  | nil => cases hq
  | cons hl _ ih =>
    rcases List.mem_cons.mp hq with rfl | hq
    · exact ⟨_, by simp, hl⟩
    · obtain ⟨l, hl, hok⟩ := ih hq
      exact ⟨l, by simp [hl], hok⟩

/-- Every level of the side has one of its queues. -/
theorem queue_of_level (h : List.Forall₂ (LevelOk pf pool side) ls qs) (hl : level ∈ ls) :
    ∃ q ∈ qs, LevelOk pf pool side level q := by
  induction h with
  | nil => cases hl
  | cons hok _ ih =>
    rcases List.mem_cons.mp hl with rfl | hl
    · exact ⟨_, by simp, hok⟩
    · obtain ⟨q, hq, hok⟩ := ih hl
      exact ⟨q, by simp [hq], hok⟩

/-- Every slot of the side holds an order placed at one of its levels. -/
theorem levels_placed (h : List.Forall₂ (LevelOk pf pool side) ls qs) {i : Nat}
    (hi : i ∈ qs.flatten) : ∃ l ∈ ls, Placed side l.price (pool.orderAt i) := by
  obtain ⟨q, hq, hiq⟩ := List.mem_flatten.mp hi
  obtain ⟨l, hl, hok⟩ := levels_of_mem h hq
  exact ⟨l, hl, hok.placed i hiq⟩

/-- A sorted side lists its orders in priority order. -/
theorem levels_priority (h : List.Forall₂ (LevelOk pf pool side) ls qs)
    (hs : Ladder.Sorted side ls) : Priority side (qs.flatten.map pool.orderAt) := by
  induction h with
  | nil => exact List.Pairwise.nil
  | @cons l q ls qs hl hls ih =>
    obtain ⟨hbet, hs'⟩ := List.pairwise_cons.mp hs
    rw [List.flatten_cons, List.map_append]
    refine List.pairwise_append.mpr ⟨?_, ih hs', ?_⟩
    -- orders of one level have its price
    · refine List.pairwise_of_forall_mem_list ?_
      intro a ha b hb
      obtain ⟨i, hi, rfl⟩ := List.mem_map.mp ha
      obtain ⟨j, hj, rfl⟩ := List.mem_map.mp hb
      rw [(hl.placed i hi).price_eq, (hl.placed j hj).price_eq, better_irrefl]
    · intro a ha b hb
      obtain ⟨i, hi, rfl⟩ := List.mem_map.mp ha
      obtain ⟨j, hj, rfl⟩ := List.mem_map.mp hb
      obtain ⟨l', hl', hp⟩ := levels_placed hls hj
      rw [(hl.placed i hi).price_eq, hp.price_eq]
      exact better_asymm (hbet l' hl')

theorem SideRep.priority {S : Type} [LevelStore S] [LawfulLevelStore S] {s : S}
    (h : SideRep pf pool side s qs) : Priority side (qs.flatten.map pool.orderAt) :=
  levels_priority h.levels (LawfulLevelStore.sorted h.wf)

/-- A side has no more levels than orders. -/
theorem levels_length_le (h : List.Forall₂ (LevelOk pf pool side) ls qs) :
    qs.length ≤ qs.flatten.length := by
  induction h with
  | nil => simp
  | cons hl _ ih =>
    have := List.length_pos_iff.mpr hl.ne
    simp only [List.length_cons, List.flatten_cons, List.length_append]
    omega

end sides

end LightningLob
