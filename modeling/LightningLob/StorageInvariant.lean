import LightningLob.Approach

/-! # The representation invariant of the order storage

    The invariant every book of a run satisfies, stated over what the three
    books store: the pool with its free list and links, every level object of
    the two sides, present or not, and the id index. -/

namespace LightningLob

open LevelStore

/-! ## Section 1: The statement -/

/-- A level object of a side: the price it is filed under, and whether it
    counts as present. -/
structure FiledLevel where
  price : Int
  present : Bool
  level : PriceLevel
  deriving DecidableEq, Repr

/-- The level objects of a side: map entries under their keys, vector elements,
    or every tick of the ladder with its occupancy bit. -/
def Approach.filed : (k : Approach) → k.Levels → List FiledLevel
  | .map, m => m.entries.map fun e => ⟨e.1, true, e.2⟩
  | .vector, v => v.items.map fun l => ⟨l.price, true, l⟩
  | .array, a => (List.range a.levels.length).map fun i : Nat =>
      ⟨a.minPrice + i, a.bitmap.test i = some true, a.levelAt i⟩

/-- The level object stands for the chain of slots `q` of the given side. -/
structure LevelHolds (pool : OrderPool) (side : Side) (f : FiledLevel) (q : List Nat) : Prop where
  /-- Head/next and tail/prev list the chain in opposite orders and end in the
      null link; the count is its length. -/
  queue : Queue pool f.level q
  total : f.level.totalQuantity = openQuantity pool q
  /-- Present exactly when its chain is non-empty. -/
  present : f.present = true ↔ q ≠ []
  orders : ∀ i ∈ q, 0 < (pool.orderAt i).remainingQuantity ∧ (pool.orderAt i).type = .limit ∧
    (pool.orderAt i).timeInForce = .gtc ∧ (pool.orderAt i).side = side ∧
    (pool.orderAt i).price = f.price

/-- The representation invariant, `chains side` being the chains of the level
    objects of a side. -/
structure StorageInvariant {k : Approach} (b : k.Book) (chains : Side → List (List Nat)) :
    Prop where
  free_nodup : b.pool.freeList.Nodup
  free_lt : ∀ i ∈ b.pool.freeList, i < b.pool.nodes.length
  levels : ∀ side, List.Forall₂ (LevelHolds b.pool side) (k.filed (b.levels side)) (chains side)
  /-- Every slot that is not free is in exactly one chain, once. -/
  partition : ((chains .buy).flatten ++ (chains .sell).flatten).Nodup ∧
    ∀ i, i ∈ (chains .buy).flatten ++ (chains .sell).flatten ↔
      i < b.pool.nodes.length ∧ i ∉ b.pool.freeList
  /-- The id index maps exactly the ids of the chained orders. -/
  index : ∀ id i, b.idIndex.find id = some (some i) ↔
    i ∈ (chains .buy).flatten ++ (chains .sell).flatten ∧ (b.pool.orderAt i).id = id

/-! ## Section 2: The level objects of a valid side -/

section sides

variable {pf : Platform} {pool : OrderPool} {side : Side}

/-- The level object stands for the chain `q`, its aggregate as the platform
    holds it. -/
structure FiledRep (pf : Platform) (pool : OrderPool) (side : Side) (f : FiledLevel)
    (q : List Nat) : Prop where
  rep : LevelRep pf pool f.level q
  present : f.present = true ↔ q ≠ []
  placed : ∀ i ∈ q, Placed side f.price (pool.orderAt i)

theorem FiledRep.holds (hexact : ∀ x, pf.wrap x = x) {f : FiledLevel} {q : List Nat}
    (h : FiledRep pf pool side f q) : LevelHolds pool side f q where
  queue := h.rep.queue
  total := h.rep.total.trans (hexact _)
  present := h.present
  orders := fun i hi => by
    have hp := h.placed i hi
    have hr := hp.rests
    rw [Order.restsInBook, decide_eq_true_eq] at hr
    exact ⟨hp.open_pos, hr.1, hr.2, hp.side_eq, hp.price_eq⟩

theorem LevelOk.filed {l : PriceLevel} {q : List Nat} (h : LevelOk pf pool side l q) :
    FiledRep pf pool side ⟨l.price, true, l⟩ q :=
  ⟨h.rep, ⟨fun _ => h.ne, fun _ => rfl⟩, h.placed⟩

/-- The containers that keep a level only while it has orders. -/
theorem levels_filed {ls : List PriceLevel} {qs : List (List Nat)}
    (h : List.Forall₂ (LevelOk pf pool side) ls qs) :
    List.Forall₂ (FiledRep pf pool side) (ls.map fun l => ⟨l.price, true, l⟩) qs :=
  List.forall₂_map_left_iff.mpr (h.imp fun _ _ hl => hl.filed)

/-- The chain of a tick of the ladder, empty if it is unoccupied. -/
theorem ArrayLevels.WF.filed {a : ArrayLevels} (h : ArrayLevels.WF side a) {i : Nat}
    (hi : i < a.levels.length) {q : List Nat}
    (hocc : a.bitmap.has i = true → LevelOk pf pool side (a.levelAt i) q)
    (hfree : a.bitmap.has i = false → q = []) :
    FiledRep pf pool side ⟨a.minPrice + i, a.bitmap.test i = some true, a.levelAt i⟩ q := by
  have hlevel := h.level i hi
  rw [h.bitmap.test_spec (by rw [h.numBits]; exact hi)]
  cases hb : a.bitmap.has i with
  | true =>
    rw [hb] at hlevel
    have hok := (hocc hb).filed
    rw [hlevel.2] at hok
    simpa using hok
  | false =>
    rw [hb] at hlevel
    rw [hfree hb]
    generalize hl : a.levelAt i = l at hlevel
    rw [hlevel]
    have hqueue : Queue pool { price := l.price } [] :=
      ⟨by simp, by simp, rfl, rfl, trivial, trivial, rfl⟩
    exact ⟨⟨hqueue, pf.wrap_zero.symm⟩, by simp, by simp⟩

/-- Listing the ticks instead of the occupied indices adds only empty chains. -/
theorem ArrayLevels.WF.flatten_chains {a : ArrayLevels} (h : ArrayLevels.WF side a)
    (chain : Nat → List Nat) (hfree : ∀ i, a.bitmap.has i = false → chain i = []) :
    ((List.range a.levels.length).map chain).flatten.Perm
      ((ArrayLevels.occupied side a.bitmap).map chain).flatten := by
  have hup : ((List.range a.levels.length).filter a.bitmap.has).flatMap chain =
      (List.range a.levels.length).flatMap chain := by
    generalize List.range a.levels.length = l
    induction l with
    | nil => rfl
    | cons i l ih =>
      cases hi : a.bitmap.has i with
      | true => simp [hi, ih]
      | false => simp [hi, ih, hfree i hi]
  rw [← List.flatMap_def, ← List.flatMap_def, ← hup]
  unfold ArrayLevels.occupied
  rw [h.numBits]
  cases side with
  | buy => exact (List.reverse_perm _).symm.flatMap_right chain
  | sell => exact .refl _

/-- The queues of a side are the chains of its levels. -/
theorem levels_chains {ls : List PriceLevel} {qs : List (List Nat)}
    (h : List.Forall₂ (LevelOk pf pool side) ls qs) :
    qs = ls.map fun l => IndexLinks.follow pool.next pool.nodes.length l.head := by
  induction h with
  | nil => rfl
  | cons hl _ ih => rw [List.map_cons, hl.rep.queue.follow_eq, ← ih]

/-- The level objects of a valid side, whatever the container: their chains are
    the queues of the side, in some order, and empty ones. -/
theorem Approach.filed_rep {k : Approach} {s : k.Levels} {qs : List (List Nat)}
    (h : SideRep pf pool side s qs) :
    ∃ chains, List.Forall₂ (FiledRep pf pool side) (k.filed s) chains ∧
      chains.flatten.Perm qs.flatten ∧ ∀ q ∈ chains, q ≠ [] → q ∈ qs := by
  cases k with
  | map =>
    -- a map entry's key is its level's price
    have hkeys : s.entries = MapLevels.keyed (s.entries.map Prod.snd) := h.wf.2
    have hfiled : Approach.map.filed s =
        (s.entries.map Prod.snd).map fun l => ⟨l.price, true, l⟩ := by
      rw [Approach.filed, hkeys]
      simp [MapLevels.keyed, Function.comp_def]
    rw [hfiled]
    exact ⟨qs, levels_filed h.levels, .refl _, fun q hq _ => hq⟩
  | vector => exact ⟨qs, levels_filed h.levels, .refl _, fun q hq _ => hq⟩
  | array =>
    have hwf : ArrayLevels.WF side s := h.wf
    have hlevels : List.Forall₂ (LevelOk pf pool side)
        ((ArrayLevels.occupied side s.bitmap).map s.levelAt) qs := h.levels
    let chain : Nat → List Nat := fun i =>
      IndexLinks.follow pool.next pool.nodes.length (s.levelAt i).head
    have hfree : ∀ i, s.bitmap.has i = false → chain i = [] := by
      intro i hi
      have hhead : (s.levelAt i).head = none := by
        by_cases hlt : i < s.levels.length
        · have hlevel := hwf.level i hlt
          rw [hi] at hlevel
          exact congrArg PriceLevel.head hlevel
        · simp [ArrayLevels.levelAt, List.getElem?_eq_none (Nat.not_lt.mp hlt)]
      simp only [chain, hhead]
      cases pool.nodes.length <;> rfl
    -- the queues are those of the occupied ticks, in the order of the side
    have hqs : qs = (ArrayLevels.occupied side s.bitmap).map chain := by
      rw [levels_chains hlevels, List.map_map]
      rfl
    rw [hqs, List.forall₂_map_left_iff, List.forall₂_map_right_iff, List.forall₂_same] at hlevels
    refine ⟨(List.range s.levels.length).map chain, ?_, ?_, ?_⟩
    · refine List.forall₂_map_left_iff.mpr (List.forall₂_map_right_iff.mpr
        (List.forall₂_same.mpr fun i hi => ?_))
      exact hwf.filed (List.mem_range.mp hi)
        (fun hb => hlevels i ((ArrayLevels.mem_occupied side hwf.bitmap).mpr hb)) (hfree i)
    · rw [hqs]
      exact hwf.flatten_chains chain hfree
    · intro q hq hne
      obtain ⟨i, -, rfl⟩ := List.mem_map.mp hq
      have hocc : s.bitmap.has i = true := by
        by_contra hc
        exact hne (hfree i (by simpa using hc))
      rw [hqs]
      exact List.mem_map_of_mem ((ArrayLevels.mem_occupied side hwf.bitmap).mpr hocc)

/-- A level object stands for one of the queues of its side, or for none. -/
theorem Approach.filed_of_mem {k : Approach} {s : k.Levels} {qs : List (List Nat)}
    (h : SideRep pf pool side s qs) {f : FiledLevel} (hf : f ∈ k.filed s) :
    ∃ q, FiledRep pf pool side f q ∧ (q ≠ [] → q ∈ qs) := by
  obtain ⟨chains, hfiled, -, hchains⟩ := Approach.filed_rep h
  obtain ⟨i, hi, rfl⟩ := List.getElem_of_mem hf
  have hi' : i < chains.length := hfiled.length_eq ▸ hi
  exact ⟨chains[i], hfiled.get hi hi', hchains _ (List.getElem_mem hi')⟩

end sides

/-! ## Section 3: Every reachable book -/

/-- **The representation invariant** holds in every book reached with real order
    ids, quantities being read as exact integers.  This is said of the source
    while fewer than `2 ^ 32 - 1` orders rest. -/
theorem storage_invariant_of_reachable (pf : Platform) (hexact : ∀ x, pf.wrap x = x) (k : Approach)
    (b : k.Book) (hb : k.Reachable pf Call.NonZero b) :
    ∃ chains, StorageInvariant b chains := by
  obtain ⟨qs, hrep⟩ : b.Valid pf True := hb.valid fun _ hc _ => hc
  have hside := fun side => Approach.filed_rep (hrep.sides side)
  -- the chains of the level objects are the queues, up to empty ones
  choose chains hfiled hperm _ using hside
  have hlevels := fun side => (hfiled side).imp fun _ _ hf => hf.holds hexact
  have hflat : ((chains .buy).flatten ++ (chains .sell).flatten).Perm
      ((qs .buy).flatten ++ (qs .sell).flatten) := (hperm .buy).append (hperm .sell)
  have hstore := hrep.store.perm hflat
  refine ⟨chains, hstore.free_nodup, fun i hi => hstore.free_lt hi, hlevels,
    ⟨hstore.nodup, fun i => hstore.live_iff⟩, ?_⟩
  intro id i
  rw [hstore.wf.find_eq, Option.some.injEq, hstore.lookup]
  constructor
  · exact fun h => h.2
  · rintro ⟨hi, hid⟩
    exact ⟨hid ▸ (hstore.counted trivial).1 i hi, hi, hid⟩

/-- Three orders, of which the last reuses the slot of the cancelled first. -/
theorem storage_invariant_of_reachable_reuse :
    ∃ (b : Approach.array.Book) (chains : Side → List (List Nat)),
      Approach.array.Reachable .exact Call.NonZero b ∧ b.orderCount = 2 ∧
      b.pool.nodes.length = 2 ∧ StorageInvariant b chains := by
  obtain ⟨replies, b, hrun, hcount, hnodes⟩ := Approach.session_ends
    (P := fun b => b.orderCount = 2 ∧ b.pool.nodes.length = 2)
    (show ((Approach.array.session .exact 1 90 110 4 .none
      [(.add ⟨1, 100, 5, 0, 0, 1, 7, .sell, .limit, .gtc⟩, fun _ => 0),
       (.add ⟨2, 100, 5, 0, 0, 1, 7, .sell, .limit, .gtc⟩, fun _ => 0),
       (.cancel 1, fun _ => 0),
       (.add ⟨3, 95, 8, 0, 0, 1, 8, .buy, .limit, .gtc⟩, fun _ => 0)]).any _) = true by
        decide +kernel)
  have hb : Approach.array.Reachable .exact Call.NonZero b :=
    Approach.reachable_of_session (by decide) hrun
  obtain ⟨chains, hinv⟩ := storage_invariant_of_reachable .exact (fun _ => rfl) .array b hb
  exact ⟨b, chains, hb, hcount, hnodes, hinv⟩

end LightningLob
