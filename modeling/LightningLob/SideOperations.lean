import LightningLob.Representation

/-! # Resting, cancelling and resizing on one side

    What the container and queue operations outside matching do to a side: an
    order joins the queue at its price, leaves the queue it is in, or has its
    quantity reduced in place.  Each is stated on the flat list of the side's
    slots; the other slots keep their orders and links. -/

namespace LightningLob

open LevelStore

section split

variable {pf : Platform} {pool pool' : OrderPool} {side : Side} {ls : List PriceLevel}
  {qs : List (List Nat)}

/-- The queues of a split ladder split with it. -/
theorem levels_split {a b : List PriceLevel}
    (h : List.Forall₂ (LevelOk pf pool side) (a ++ b) qs) :
    ∃ qa qb, qs = qa ++ qb ∧ List.Forall₂ (LevelOk pf pool side) a qa ∧
      List.Forall₂ (LevelOk pf pool side) b qb := by
  induction a generalizing qs with
  | nil => exact ⟨[], qs, rfl, .nil, h⟩
  | cons l a ih =>
    obtain ⟨q, qs, hl, hrest, rfl⟩ := List.forall₂_cons_left_iff.mp h
    obtain ⟨qa, qb, rfl, ha, hb⟩ := ih hrest
    exact ⟨q :: qa, qb, rfl, .cons hl ha, hb⟩

/-- The level and the place in its queue of a slot of the side. -/
theorem levels_at (h : List.Forall₂ (LevelOk pf pool side) ls qs) {i : Nat}
    (hi : i ∈ qs.flatten) :
    ∃ a l b qa q₁ q₂ qb, ls = a ++ l :: b ∧ qs = qa ++ (q₁ ++ i :: q₂) :: qb ∧
      List.Forall₂ (LevelOk pf pool side) a qa ∧ LevelOk pf pool side l (q₁ ++ i :: q₂) ∧
      List.Forall₂ (LevelOk pf pool side) b qb := by
  induction h with
  | nil => cases hi
  | @cons l q ls qs hl hls ih =>
    rw [List.flatten_cons, List.mem_append] at hi
    rcases hi with hi | hi
    · obtain ⟨q₁, q₂, rfl⟩ := List.append_of_mem hi
      exact ⟨[], l, ls, [], q₁, q₂, qs, rfl, rfl, .nil, hl, hls⟩
    · obtain ⟨a, l', b, qa, q₁, q₂, qb, rfl, rfl, ha, hl', hb⟩ := ih hi
      exact ⟨l :: a, l', b, q :: qa, q₁, q₂, qb, rfl, rfl, .cons hl ha, hl', hb⟩

/-- Slots that keep their orders and whose links were not touched. -/
theorem sameOn_of_notMem {q touched : List Nat} (ho : ∀ j ∈ q, pool'.orderAt j = pool.orderAt j)
    (hlinks : ∀ j, j ∉ touched → pool'.next j = pool.next j ∧ pool'.prev j = pool.prev j)
    (hdisj : ∀ j ∈ q, j ∉ touched) : SameOn q pool pool' :=
  ⟨ho, fun j hj => (hlinks j (hdisj j hj)).1, fun j hj => (hlinks j (hdisj j hj)).2⟩

/-- Changing one queue of a side and leaving the others' slots alone. -/
theorem levels_change {a b : List PriceLevel} {l' : PriceLevel} {qa qb : List (List Nat)}
    {q' : List Nat} (ha : List.Forall₂ (LevelOk pf pool side) a qa)
    (hb : List.Forall₂ (LevelOk pf pool side) b qb) (hl' : LevelOk pf pool' side l' q')
    (hlen : pool'.nodes.length = pool.nodes.length) (hsa : SameOn qa.flatten pool pool')
    (hsb : SameOn qb.flatten pool pool') :
    List.Forall₂ (LevelOk pf pool' side) (a ++ l' :: b) (qa ++ q' :: qb) :=
  List.rel_append (levels_congr ha hsa (Nat.le_of_eq hlen.symm))
    (.cons hl' (levels_congr hb hsb (Nat.le_of_eq hlen.symm)))

theorem levels_prices {p : Int} (h : List.Forall₂ (LevelOk pf pool side) ls qs)
    {v : Bool} (hls : ∀ l ∈ ls, better side p l.price = v) :
    ∀ i ∈ qs.flatten, better side p (pool.orderAt i).price = v := by
  intro i hi
  obtain ⟨l, hl, hp⟩ := levels_placed h hi
  rw [hp.price_eq]
  exact hls l hl

end split

section operations

variable {S : Type} [LevelStore S] [LawfulLevelStore S] {pf : Platform} {pool : OrderPool}
  {side : Side} {s : S} {qs : List (List Nat)} {i : Nat}

/-- The slots of the other queues are not in this one. -/
theorem disjoint_queues {qa qb : List (List Nat)} {q : List Nat}
    (hnd : (qa ++ q :: qb).flatten.Nodup) :
    (∀ j ∈ qa.flatten, j ∉ q) ∧ (∀ j ∈ qb.flatten, j ∉ q) := by
  simp only [List.flatten_append, List.flatten_cons] at hnd
  have hdisj := List.nodup_append.mp hnd
  have hdisj' := List.nodup_append.mp hdisj.2.1
  exact ⟨fun j hj hjq => hdisj.2.2 j hj j (by simp [hjq]) rfl,
    fun j hj hjq => hdisj'.2.2 j hjq j hj rfl⟩

/-- What joining the queue at a price gives. -/
structure Joined (pf : Platform) (pool : OrderPool) (side : Side) (s : S) (qs : List (List Nat))
    (i : Nat) (s' : S) (pool' : OrderPool) (qs' : List (List Nat)) (xs ys : List Nat) :
    Prop where
  rep : SideRep pf pool' side s' qs'
  before : qs.flatten = xs ++ ys
  after : qs'.flatten = xs ++ i :: ys
  ahead : ∀ x ∈ xs, better side (pool.orderAt i).price (pool.orderAt x).price = false
  behind : ∀ y ∈ ys, better side (pool.orderAt i).price (pool.orderAt y).price = true
  orders : pool'.orderAt = pool.orderAt
  length : pool'.nodes.length = pool.nodes.length
  free : pool'.freeList = pool.freeList
  links : ∀ j, j ∉ qs'.flatten → pool'.next j = pool.next j ∧ pool'.prev j = pool.prev j
  range_eq : inRange s' = inRange s

/-- An order joins the queue of a level that exists. -/
theorem SideRep.upsert_old (h : SideRep pf pool side s qs) (hnd : qs.flatten.Nodup)
    (hi : i < pool.nodes.length) (hnot : i ∉ qs.flatten)
    (hplaced : Placed side (pool.orderAt i).price (pool.orderAt i)) {l : PriceLevel}
    (hmem : l ∈ LawfulLevelStore.view side s) (hprice : l.price = (pool.orderAt i).price) :
    ∃ s' pool' qs' xs ys, upsert side s (pool.orderAt i).price
        (fun level => levelPushBack pf level pool i) = some (s', pool') ∧
      Joined pf pool side s qs i s' pool' qs' xs ys := by
  obtain ⟨a, b, hview⟩ := List.append_of_mem hmem
  have hlevels := h.levels
  rw [hview] at hlevels
  obtain ⟨qa, qlb, rfl, ha, hlb⟩ := levels_split hlevels
  obtain ⟨q, qb, hl, hb, rfl⟩ := List.forall₂_cons_left_iff.mp hlb
  obtain ⟨hda, hdb⟩ := disjoint_queues hnd
  simp only [List.flatten_append, List.flatten_cons, List.mem_append, not_or] at hnot
  obtain ⟨l', pool', hpush, hrep', hp', hlen, hfree, ho, hlinks⟩ :=
    levelPushBack_spec pf hl.rep hi hnot.2.1
  obtain ⟨hba, hbb⟩ := (hview ▸ LawfulLevelStore.sorted h.wf : Ladder.Sorted side _).split
  obtain ⟨s', hrun, hwf', hview', hrange⟩ := LawfulLevelStore.upsert_old
    (f := fun level => levelPushBack pf level pool i) h.wf hview hpush hp'
    (by rw [hrep'.queue.count]; simp)
  have hl' : LevelOk pf pool' side l' (q ++ [i]) := by
    refine ⟨hrep', by simp, ?_⟩
    intro j hj
    rw [hp', ho]
    rcases List.mem_append.mp hj with hj | hj
    · exact hl.placed j hj
    · rw [List.mem_singleton.mp hj, hprice]
      exact hplaced
  -- only links within the queue and of the new slot were touched
  have hsame : ∀ x : List Nat, (∀ j ∈ x, j ∉ q) → i ∉ x → SameOn x pool pool' := by
    intro x hx hix
    refine sameOn_of_notMem (fun j _ => by rw [ho]) hlinks ?_
    intro j hj hjq
    rcases List.mem_append.mp hjq with hjq | hjq
    · exact hx j hj hjq
    · exact hix (List.mem_singleton.mp hjq ▸ hj)
  refine ⟨s', pool', qa ++ (q ++ [i]) :: qb, qa.flatten ++ q, qb.flatten, hprice ▸ hrun,
    ⟨hwf', ?_⟩, by simp, by simp, ?_, ?_, ho, hlen, hfree, ?_, hrange⟩
  · rw [hview']
    exact levels_change ha hb hl' hlen (hsame _ hda hnot.1) (hsame _ hdb hnot.2.2)
  -- ahead: the better levels, and the same level's queue
  · intro x hx
    rcases List.mem_append.mp hx with hx | hx
    · exact levels_prices ha (fun l₀ hl₀ => better_asymm (hprice ▸ hba l₀ hl₀)) x hx
    · rw [(hl.placed x hx).price_eq, hprice, better_irrefl]
  · exact levels_prices hb fun l₀ hl₀ => hprice ▸ hbb l₀ hl₀
  · intro j hj
    refine hlinks j fun hjq => hj ?_
    simp only [List.flatten_append, List.flatten_cons, List.mem_append]
    exact Or.inr (Or.inl (List.mem_append.mp hjq))

/-- An order opens a level at a new price. -/
theorem SideRep.upsert_new (h : SideRep pf pool side s qs)
    (hi : i < pool.nodes.length) (hnot : i ∉ qs.flatten)
    (hplaced : Placed side (pool.orderAt i).price (pool.orderAt i))
    (hnew : ∀ l ∈ LawfulLevelStore.view side s, l.price ≠ (pool.orderAt i).price)
    (hrange : inRange s (pool.orderAt i).price = true) :
    ∃ s' pool' qs' xs ys, upsert side s (pool.orderAt i).price
        (fun level => levelPushBack pf level pool i) = some (s', pool') ∧
      Joined pf pool side s qs i s' pool' qs' xs ys := by
  obtain ⟨a, b, hview, hba, hbb⟩ := (LawfulLevelStore.sorted h.wf).exists_split hnew
  have hlevels := h.levels
  rw [hview] at hlevels
  obtain ⟨qa, qb, rfl, ha, hb⟩ := levels_split hlevels
  simp only [List.flatten_append, List.mem_append, not_or] at hnot
  -- the level the container opens is empty
  have hfresh : LevelRep pf pool { price := (pool.orderAt i).price } [] := by
    refine ⟨⟨by simp, List.nodup_nil, rfl, rfl, trivial, trivial, rfl⟩, ?_⟩
    exact pf.wrap_zero.symm
  obtain ⟨l', pool', hpush, hrep', hp', hlen, hfree, ho, hlinks⟩ :=
    levelPushBack_spec pf hfresh hi (by simp)
  obtain ⟨s', hrun, hwf', hview', hrange'⟩ := LawfulLevelStore.upsert_new
    (f := fun level => levelPushBack pf level pool i) h.wf hview hba hbb hrange hpush hp'
    (by rw [hrep'.queue.count]; simp)
  have hl' : LevelOk pf pool' side l' [i] := by
    refine ⟨hrep', by simp, ?_⟩
    intro j hj
    rw [hp', ho, List.mem_singleton.mp hj]
    exact hplaced
  have hsame : ∀ q : List Nat, i ∉ q → SameOn q pool pool' := fun q hq =>
    sameOn_of_notMem (fun j _ => by rw [ho]) hlinks fun j hj hji =>
      hq (List.mem_singleton.mp hji ▸ hj)
  refine ⟨s', pool', qa ++ [i] :: qb, qa.flatten, qb.flatten, hrun, ⟨hwf', ?_⟩, by simp, by simp,
    ?_, ?_, ho, hlen, hfree, ?_, hrange'⟩
  · rw [hview']
    exact levels_change ha hb hl' hlen (hsame _ hnot.1) (hsame _ hnot.2)
  · exact levels_prices ha fun l hl => better_asymm (hba l hl)
  · exact levels_prices hb hbb
  · intro j hj
    refine hlinks j fun hjq => hj ?_
    simp [List.mem_singleton.mp hjq]

/-- An order joins the queue at its price, behind the orders of better or equal
    price. -/
theorem SideRep.upsert_spec (h : SideRep pf pool side s qs) (hnd : qs.flatten.Nodup)
    (hi : i < pool.nodes.length) (hnot : i ∉ qs.flatten)
    (hplaced : Placed side (pool.orderAt i).price (pool.orderAt i))
    (hrange : inRange s (pool.orderAt i).price = true) :
    ∃ s' pool' qs' xs ys, upsert side s (pool.orderAt i).price
        (fun level => levelPushBack pf level pool i) = some (s', pool') ∧
      Joined pf pool side s qs i s' pool' qs' xs ys := by
  by_cases hex : ∃ l ∈ LawfulLevelStore.view side s, l.price = (pool.orderAt i).price
  · obtain ⟨l, hmem, hprice⟩ := hex
    exact h.upsert_old hnd hi hnot hplaced hmem hprice
  · exact h.upsert_new hi hnot hplaced (fun l hl hp => hex ⟨l, hl, hp⟩) hrange

/-- What leaving a queue gives. -/
structure Left (pf : Platform) (pool : OrderPool) (side : Side) (s : S) (qs : List (List Nat))
    (i : Nat) (s' : S) (pool' : OrderPool) (qs' : List (List Nat)) (xs ys : List Nat) :
    Prop where
  rep : SideRep pf pool' side s' qs'
  before : qs.flatten = xs ++ i :: ys
  after : qs'.flatten = xs ++ ys
  orders : pool'.orderAt = pool.orderAt
  length : pool'.nodes.length = pool.nodes.length
  free : pool'.freeList = pool.freeList
  links : ∀ j, j ∉ qs.flatten → pool'.next j = pool.next j ∧ pool'.prev j = pool.prev j
  range_eq : inRange s' = inRange s

/-- Cancelling a resting order: its level is found, debited and unlinked, and
    removed if that emptied it. -/
theorem SideRep.cancel_spec (h : SideRep pf pool side s qs) (hnd : qs.flatten.Nodup)
    (hi : i ∈ qs.flatten) :
    ∃ level level' pool' s' qs' xs ys,
      find side s (pool.orderAt i).price = some (some level) ∧
      levelUnlink { level with
          totalQuantity := pf.wrap (level.totalQuantity - (pool.orderAt i).remainingQuantity) }
          pool i = some (level', pool') ∧
      put side s (pool.orderAt i).price level' = some s' ∧
      Left pf pool side s qs i s' pool' qs' xs ys := by
  obtain ⟨a, l, b, qa, q₁, q₂, qb, hview, rfl, ha, hl, hb⟩ := levels_at h.levels hi
  have hprice : (pool.orderAt i).price = l.price := (hl.placed i (by simp)).price_eq
  -- `cancel_order` debits the aggregate before it unlinks the slot
  have hdebit := hl.rep.queue.debited
    (pf.wrap (l.totalQuantity - (pool.orderAt i).remainingQuantity))
  obtain ⟨l', pool', hunlink, hq', hp', htot', hlen, hfree, ho, hlinks⟩ := levelUnlink_spec hdebit
  have hrep' : LevelRep pf pool' l' (q₁ ++ q₂) := by
    refine ⟨hq', ?_⟩
    rw [htot']
    show pf.wrap (l.totalQuantity - _) = _
    -- debiting commutes with the wrap of the aggregate
    rw [hl.rep.total, sub_eq_add_neg, pf.wrap_add, openQuantity, openQuantity, ho]
    congr 1
    simp only [List.map_append, List.map_cons, List.sum_append, List.sum_cons]
    omega
  obtain ⟨s', hput, hwf', hview', hrange⟩ := LawfulLevelStore.put_spec h.wf hview hp' hrep'.clean
  obtain ⟨hda, hdb⟩ := disjoint_queues hnd
  have hsa : SameOn qa.flatten pool pool' := sameOn_of_notMem (fun j _ => by rw [ho]) hlinks hda
  have hsb : SameOn qb.flatten pool pool' := sameOn_of_notMem (fun j _ => by rw [ho]) hlinks hdb
  have hrep : SideRep pf pool' side s'
      (qa ++ if q₁ ++ q₂ = [] then qb else (q₁ ++ q₂) :: qb) := by
    refine ⟨hwf', ?_⟩
    rw [hview']
    -- the level goes with its last order
    by_cases he : q₁ ++ q₂ = []
    · rw [if_pos he, if_pos (hrep'.empty_iff.mpr he)]
      exact List.rel_append (levels_congr ha hsa (Nat.le_of_eq hlen.symm))
        (levels_congr hb hsb (Nat.le_of_eq hlen.symm))
    · rw [if_neg he, if_neg fun hc => he (hrep'.empty_iff.mp hc)]
      refine levels_change ha hb ⟨hrep', he, ?_⟩ hlen hsa hsb
      intro j hj
      rw [hp', ho]
      exact hl.placed j (by simp only [List.mem_append, List.mem_cons] at hj ⊢; tauto)
  refine ⟨l, l', pool', s', _, qa.flatten ++ q₁, q₂ ++ qb.flatten, ?_, hunlink, hprice ▸ hput, hrep,
    by simp, ?_, ho, hlen, hfree, ?_, hrange⟩
  · rw [hprice]
    exact LawfulLevelStore.find_eq h.wf (by rw [hview]; simp)
  · by_cases he : q₁ ++ q₂ = []
    · rw [if_pos he]
      simp [List.append_eq_nil_iff.mp he]
    · rw [if_neg he]
      simp
  · intro j hj
    refine hlinks j fun hjq => hj ?_
    simp only [List.flatten_append, List.flatten_cons, List.mem_append]
    exact Or.inr (Or.inl (by simpa using hjq))

/-- Reducing a resting order in place. -/
theorem SideRep.resize_spec (h : SideRep pf pool side s qs) (hnd : qs.flatten.Nodup)
    (hi : i ∈ qs.flatten) {qty : Int} (hqty : 0 < (pool.orderAt i).remainingQuantity - qty) :
    ∃ level level' pool' s', deref side s (pool.orderAt i).price = some level ∧
      levelReduceQuantity pf level pool i qty = some (level', pool') ∧
      write side s (pool.orderAt i).price level' = some s' ∧ SideRep pf pool' side s' qs ∧
      pool'.orderAt = Function.update pool.orderAt i { pool.orderAt i with
        remainingQuantity := (pool.orderAt i).remainingQuantity - qty } ∧
      pool'.next = pool.next ∧ pool'.prev = pool.prev ∧
      pool'.nodes.length = pool.nodes.length ∧ pool'.freeList = pool.freeList ∧
      inRange s' = inRange s := by
  obtain ⟨a, l, b, qa, q₁, q₂, qb, hview, rfl, ha, hl, hb⟩ := levels_at h.levels hi
  have hprice : (pool.orderAt i).price = l.price := (hl.placed i (by simp)).price_eq
  obtain ⟨l', pool', hred, hrep', hp', hlen, hfree, ho, hnx, hpv⟩ :=
    levelReduceQuantity_spec pf hl.rep qty
  obtain ⟨s', hwrite, hwf', hview', hrange⟩ := LawfulLevelStore.write_spec h.wf hview hp'
    (by rw [hrep'.queue.count]; simp)
  obtain ⟨hda, hdb⟩ := disjoint_queues hnd
  have hsame : ∀ q : List Nat, i ∉ q → SameOn q pool pool' := by
    intro q hq
    refine ⟨fun j hj => ?_, fun j _ => by rw [hnx], fun j _ => by rw [hpv]⟩
    rw [ho, Function.update_of_ne]
    rintro rfl
    exact hq hj
  -- the slot keeps its place in the queue
  have hl' : LevelOk pf pool' side l' (q₁ ++ i :: q₂) := by
    refine ⟨hrep', by simp, ?_⟩
    intro j hj
    have hplaced := hl.placed j hj
    rw [hp', ho]
    by_cases hji : j = i
    · subst hji
      rw [Function.update_self]
      exact ⟨hplaced.side_eq, hplaced.price_eq, hplaced.price_pos, hqty, hplaced.rests⟩
    · rw [Function.update_of_ne hji]
      exact hplaced
  refine ⟨l, l', pool', s', ?_, hred, hprice ▸ hwrite, ⟨hwf', ?_⟩, ho, hnx, hpv, hlen, hfree,
    hrange⟩
  · rw [hprice]
    exact LawfulLevelStore.deref_eq h.wf (by rw [hview]; simp)
  · rw [hview']
    exact levels_change ha hb hl' hlen (hsame _ fun hc => hda i hc (by simp))
      (hsame _ fun hc => hdb i hc (by simp))

end operations

end LightningLob
