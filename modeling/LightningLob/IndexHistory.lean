import LightningLob.BackwardShift
import LightningLob.IdIndexMapRefinement
import LightningLob.Lib.ProbingHistory
import Mathlib.Algebra.BigOperators.Fin

/-! # The order-id index forgets its history

    Erasing leaves no tombstone behind: the slots a lookup reads depend on the
    keys now stored and on the size of the table, however many orders came and
    went before.  An absent key costs the same reads in any two tables that
    store the same keys; the stored keys cost the same reads in total, though
    one key may have changed places with another. -/

namespace LightningLob

open LinearProbing (cdist next Holds Probe)

/-! ## Section 1: What a lookup reads -/

namespace Slots

/-- The probe loop, counting the slots it reads. -/
def readsFrom (slots : List Slot) (key : OrderId) : Nat → Nat → Run Nat
  | 0, _ => none
  | fuel + 1, idx => do
      let s ← slots[idx]?
      if s.key = kInvalidOrderId ∨ s.key = key then
        pure 1
      else
        let reads ← readsFrom slots key fuel (advance slots idx)
        pure (reads + 1)

def reads (home : OrderId → Nat) (slots : List Slot) (key : OrderId) : Run Nat :=
  readsFrom slots key slots.length (home key)

section reading

variable {home : OrderId → Nat} {slots : List Slot} {key : OrderId} {k p : Nat}

/-- From a slot on its way, the loop reads on up to the slot where it stops. -/
theorem readsFrom_spec (hlen : slots.length = 2 ^ k) (hhome : home key < slots.length)
    (hp : Probe slots.length home (table slots) key p) :
    ∀ fuel idx, idx < slots.length → cdist slots.length idx p < fuel →
      cdist slots.length (home key) idx + cdist slots.length idx p =
        cdist slots.length (home key) p →
      readsFrom slots key fuel idx = some (cdist slots.length idx p + 1) := by
  intro fuel
  induction fuel with
  | zero => intro idx _ hdist _; omega
  | succ fuel ih =>
    intro idx hidx hdist hway
    obtain ⟨s, hs⟩ := exists_slot hidx
    by_cases hstop : idx = p
    · subst hstop
      have hread : s.key = kInvalidOrderId ∨ s.key = key := by
        rcases hp.stop with hnone | ⟨v, hv⟩
        · rw [table_eq hs] at hnone
          exact .inl (entry_eq_none.mp hnone)
        · rw [table_eq hs] at hv
          exact .inr (entry_eq_some.mp hv).2.1
      simp [readsFrom, hs, hread]
    · -- not there yet: the slot holds another key
      have hcloser := LinearProbing.cdist_next_left hidx hp.lt (Ne.symm hstop)
      obtain ⟨k', v, hcell, hne⟩ := hp.skipped idx hidx (by omega)
      rw [table_eq hs] at hcell
      obtain ⟨hk, hkey, -⟩ := entry_eq_some.mp hcell
      have hpass : ¬ (s.key = kInvalidOrderId ∨ s.key = key) :=
        not_or.mpr ⟨hk, fun heq => hne (hkey.symm.trans heq)⟩
      have hnext := LinearProbing.next_lt hidx
      have hrest := ih (next slots.length idx) hnext (by omega) (by
        rcases LinearProbing.cdist_next hhome hidx with ⟨-, hfull⟩ | ⟨-, hstep⟩
        · have := LinearProbing.cdist_lt hhome hp.lt
          omega
        · omega)
      simp only [readsFrom, hs, Option.bind_eq_bind, Option.bind_some, if_neg hpass,
        advance_eq hlen hidx, hrest, Option.pure_def]
      rw [← hcloser]

/-- A lookup reads the slots from home up to where it stops. -/
theorem reads_spec (hlen : slots.length = 2 ^ k) (hhome : home key < slots.length)
    (hp : Probe slots.length home (table slots) key p) :
    reads home slots key = some (cdist slots.length (home key) p + 1) :=
  readsFrom_spec hlen hhome hp _ _ hhome (LinearProbing.cdist_lt hhome hp.lt)
    (by rw [LinearProbing.cdist_self]; omega)

theorem mem_storedKeys : key ∈ storedKeys slots ↔ ∃ v, Holds (table slots) key v := by
  unfold storedKeys
  rw [List.mem_filter, List.mem_map, decide_eq_true_iff]
  constructor
  · rintro ⟨⟨s, hs, rfl⟩, hk⟩
    obtain ⟨i, hi, rfl⟩ := List.getElem_of_mem hs
    refine ⟨slots[i].value, i, ?_⟩
    rw [table_eq (List.getElem?_eq_getElem hi)]
    exact entry_eq_some.mpr ⟨hk, rfl, rfl⟩
  · rintro ⟨v, i, hi⟩
    obtain ⟨s, hs⟩ := exists_slot (lt_of_table hi)
    rw [table_eq hs] at hi
    obtain ⟨hk, hkey, -⟩ := entry_eq_some.mp hi
    exact ⟨⟨s, List.mem_of_getElem? hs, hkey⟩, hkey ▸ hk⟩

/-- A sum over the stored keys, slot by slot. -/
theorem sum_storedKeys (slots : List Slot) (f : OrderId → Nat) :
    ((storedKeys slots).map f).sum =
      ∑ i ∈ Finset.range slots.length, match table slots i with
        | none => 0
        | some (key, _) => f key := by
  have hlist : ((storedKeys slots).map f).sum = (slots.map fun s =>
      match entry s with
      | none => 0
      | some (key, _) => f key).sum := by
    unfold storedKeys
    induction slots with
    | nil => rfl
    | cons s slots ih =>
      by_cases hk : s.key = kInvalidOrderId
      · simpa [entry, hk] using ih
      · simpa [entry, hk] using ih
  rw [hlist, Finset.sum_range, ← Fin.sum_univ_getElem]
  have hlen : (slots.map fun s => match entry s with
      | none => 0
      | some (key, _) => f key).length = slots.length := List.length_map ..
  refine Fintype.sum_equiv (finCongr hlen) _ _ fun i => ?_
  rw [List.getElem_map, table_eq (List.getElem?_eq_getElem (by omega))]
  rfl

end reading

end Slots

/-! ## Section 2: Two tables with the same keys -/

namespace IdIndexMap

theorem mapM_of_forall {α β : Type} {f : α → Run β} {g : α → β} {as : List α}
    (h : ∀ a ∈ as, f a = some (g a)) : as.mapM f = some (as.map g) := by
  induction as with
  | nil => rfl
  | cons a as ih =>
    rw [List.mapM_cons, h a (by simp), ih fun b hb => h b (by simp [hb])]
    rfl

/-- How many slots `find` reads; `insert` and `erase` begin with the same loop. -/
def lookupReads (m : IdIndexMap) (key : OrderId) : Run Nat :=
  Slots.reads (slotFor m.shift) m.slots key

/-- How many slots are read to find every stored key once. -/
def totalReads (m : IdIndexMap) : Run Nat := do
  let reads ← (Slots.storedKeys m.slots).mapM m.lookupReads
  pure reads.sum

section comparing

variable {m m' : IdIndexMap} {key : OrderId}

theorem WF.lookupReads_eq (h : m.WF) {p : Nat}
    (hp : Probe m.slots.length (slotFor m.shift) (Slots.table m.slots) key p) :
    m.lookupReads key = some (cdist m.slots.length (slotFor m.shift key) p + 1) := by
  obtain ⟨k, -, hlen⟩ := h.length_pow
  exact Slots.reads_spec hlen (h.table.home_lt key) hp

/-- Where the search for an absent key stops. -/
theorem WF.absent_probe (h : m.WF) (habs : key ∉ Slots.storedKeys m.slots) :
    ∃ p, Probe m.slots.length (slotFor m.shift) (Slots.table m.slots) key p ∧
      Slots.table m.slots p = none := by
  obtain ⟨p, -, hp⟩ := h.probe key
  refine ⟨p, hp, hp.stop.resolve_right ?_⟩
  rintro ⟨v, hv⟩
  exact habs (Slots.mem_storedKeys.mpr ⟨v, p, hv⟩)

/-- Where the search for a stored key stops. -/
theorem WF.stored_probe (h : m.WF) {i v : Nat} (hi : Slots.table m.slots i = some (key, v)) :
    Probe m.slots.length (slotFor m.shift) (Slots.table m.slots) key i := by
  obtain ⟨p, -, hp⟩ := h.probe key
  rcases hp.stop with hnone | ⟨w, hw⟩
  · exact (hp.absent h.table hnone v ⟨i, hi⟩).elim
  · rwa [← h.table.unique hw hi]

/-- Every stored key is read once at its own slot, and at each slot it was
    carried past. -/
theorem WF.totalReads_eq (h : m.WF) :
    m.totalReads = some ((Slots.storedKeys m.slots).length +
      LinearProbing.displacement m.slots.length (slotFor m.shift) (Slots.table m.slots)) := by
  have hsome : ∀ key ∈ Slots.storedKeys m.slots,
      m.lookupReads key = some ((m.lookupReads key).getD 0) := by
    intro key hkey
    obtain ⟨v, i, hi⟩ := Slots.mem_storedKeys.mp hkey
    rw [h.lookupReads_eq (h.stored_probe hi)]
    rfl
  have hone := Slots.sum_storedKeys m.slots fun _ => 1
  rw [List.map_const', List.sum_replicate, smul_eq_mul, Nat.mul_one] at hone
  unfold totalReads
  rw [mapM_of_forall hsome, Option.bind_eq_bind, Option.bind_some, Option.pure_def,
    Slots.sum_storedKeys, hone, LinearProbing.displacement, ← Finset.sum_add_distrib]
  -- slot by slot
  refine congrArg some (Finset.sum_congr rfl fun i _ => ?_)
  cases hi : Slots.table m.slots i with
  | none => rfl
  | some e =>
    obtain ⟨key, v⟩ := e
    simp only [h.lookupReads_eq (h.stored_probe hi), Option.getD_some]
    exact Nat.add_comm _ _

/-- Tables of one size with the same keys. -/
structure Alike (m m' : IdIndexMap) : Prop where
  wf : m.WF
  wf' : m'.WF
  length : m.slots.length = m'.slots.length
  keys : ∀ key, key ∈ Slots.storedKeys m.slots ↔ key ∈ Slots.storedKeys m'.slots

theorem Alike.home (h : Alike m m') : slotFor m.shift = slotFor m'.shift := by
  rw [h.wf.shift_eq, h.wf'.shift_eq, h.length]

theorem Alike.sameKeys (h : Alike m m') :
    LinearProbing.SameKeys (Slots.table m.slots) (Slots.table m'.slots) := fun key => by
  rw [← Slots.mem_storedKeys, ← Slots.mem_storedKeys]
  exact h.keys key

/-- The second table, read in the terms of the first. -/
theorem Alike.table (h : Alike m m') :
    LinearProbing.WF m.slots.length (slotFor m.shift) (Slots.table m'.slots) := by
  rw [h.length, h.home]
  exact h.wf'.table

theorem Alike.free (h : Alike m m') :
    ∃ e < m.slots.length, Slots.table m'.slots e = none := by
  rw [h.length]
  exact h.wf'.exists_free

theorem Alike.empty_iff (h : Alike m m') {i : Nat} (hi : i < m.slots.length) :
    Slots.table m.slots i = none ↔ Slots.table m'.slots i = none :=
  LinearProbing.empty_iff h.wf.table h.table h.sameKeys h.wf.exists_free h.free hi

theorem Alike.occupiedAt_iff (h : Alike m m') (i : Nat) :
    Slots.OccupiedAt m.slots i ↔ Slots.OccupiedAt m'.slots i := by
  rw [Slots.occupiedAt_iff, Slots.occupiedAt_iff]
  by_cases hi : i < m.slots.length
  · exact not_congr (h.empty_iff hi)
  · have hnone : ∀ slots : List Slot, slots.length ≤ i → Slots.table slots i = none := by
      intro slots hle
      simp [Slots.table, List.getElem?_eq_none hle]
    rw [hnone m.slots (by omega), hnone m'.slots (by rw [← h.length]; omega)]

/-- An absent key costs the same reads. -/
theorem Alike.absent_reads (h : Alike m m') (habs : key ∉ Slots.storedKeys m.slots) :
    m.lookupReads key = m'.lookupReads key := by
  obtain ⟨p, hp, hnone⟩ := h.wf.absent_probe habs
  obtain ⟨p', hp', hnone'⟩ := h.wf'.absent_probe (mt (h.keys key).mpr habs)
  rw [h.wf.lookupReads_eq hp, h.wf'.lookupReads_eq hp']
  rw [← h.length, ← h.home] at hp' ⊢
  rw [LinearProbing.probe_absent_eq h.wf.table hp hp' hnone hnone' fun c hc => h.empty_iff hc]

/-- The stored keys cost the same reads in total. -/
theorem Alike.totalReads_eq (h : Alike m m')
    (hkeys : (Slots.storedKeys m.slots).Perm (Slots.storedKeys m'.slots)) :
    m.totalReads = m'.totalReads := by
  rw [h.wf.totalReads_eq, h.wf'.totalReads_eq, hkeys.length_eq, ← h.length, ← h.home,
    LinearProbing.displacement_eq_of_sameKeys h.wf.table h.table h.sameKeys h.wf.exists_free h.free]

end comparing

/-! ## Section 3: Whole histories -/

theorem represents_of_run {hint : Nat} {m₀ m : IdIndexMap} {calls : List Call}
    {replies : List Reply} (hm₀ : create hint = some m₀) (hcalls : ∀ c ∈ calls, c.Valid)
    (hrun : Runs.exec call m₀ calls = some (replies, m)) : ∃ f, Represents m f := by
  obtain ⟨m', hrun', hrep⟩ := Runs.exec_refines Represents Call.Valid call_refines
    calls m₀ ∅ (create_represents hm₀) hcalls
  rw [hrun] at hrun'
  cases hrun'
  exact ⟨_, hrep⟩

/-- **The index forgets its history.**  Take any two tables, each constructed
    and then put through any calls, that have come to the same capacity and
    store the same keys: the same slots are occupied in both, looking up an
    absent key reads equally many slots in both, and so does looking up every
    stored key once. -/
theorem lookups_forget_history (hint hint' : Nat) (m₀ m₀' m m' : IdIndexMap)
    (calls calls' : List Call) (replies replies' : List Reply)
    (hm₀ : create hint = some m₀) (hm₀' : create hint' = some m₀')
    (hcalls : ∀ c ∈ calls, c.Valid) (hcalls' : ∀ c ∈ calls', c.Valid)
    (hrun : Runs.exec call m₀ calls = some (replies, m))
    (hrun' : Runs.exec call m₀' calls' = some (replies', m'))
    (hcapacity : m.slots.length = m'.slots.length)
    (hkeys : (Slots.storedKeys m.slots).Perm (Slots.storedKeys m'.slots)) :
    (∀ i, Slots.OccupiedAt m.slots i ↔ Slots.OccupiedAt m'.slots i) ∧
      (∀ key ∉ Slots.storedKeys m.slots, m.lookupReads key = m'.lookupReads key) ∧
      m.totalReads = m'.totalReads := by
  obtain ⟨f, hrep⟩ := represents_of_run hm₀ hcalls hrun
  obtain ⟨f', hrep'⟩ := represents_of_run hm₀' hcalls' hrun'
  have h : Alike m m' := ⟨hrep.wf, hrep'.wf, hcapacity, fun _ => hkeys.mem_iff⟩
  exact ⟨h.occupiedAt_iff, fun _ habs => h.absent_reads habs, h.totalReads_eq hkeys⟩

/-- Three keys with one home slot, the first of them erased again, against the
    other two inserted the other way round: each has the other's slot. -/
theorem lookups_forget_history_colliding :
    ∃ m₀ replies replies' m m', create 1 = some m₀ ∧
      Runs.exec call m₀ [.insert 1 0, .insert 22 1, .insert 43 2, .erase 1] = some (replies, m) ∧
      Runs.exec call m₀ [.insert 43 2, .insert 22 1] = some (replies', m') ∧
      m.slots[9]? = some ⟨22, 1⟩ ∧ m'.slots[9]? = some ⟨43, 2⟩ ∧
      m.lookupReads 56 = some 3 ∧ m'.lookupReads 56 = some 3 ∧ m.totalReads = m'.totalReads := by
  have hm₀ : create 1 = some (allocate 16) := rfl
  obtain ⟨replies, m, hrun⟩ : ∃ replies m, Runs.exec call (allocate 16)
      [.insert 1 0, .insert 22 1, .insert 43 2, .erase 1] = some (replies, m) := ⟨_, _, rfl⟩
  obtain ⟨replies', m', hrun'⟩ : ∃ replies' m', Runs.exec call (allocate 16)
      [.insert 43 2, .insert 22 1] = some (replies', m') := ⟨_, _, rfl⟩
  -- both tables, computed
  have hends : m.slots.length = 16 ∧ Slots.storedKeys m.slots = [22, 43] ∧
      m.slots[9]? = some ⟨22, 1⟩ ∧ m.lookupReads 56 = some 3 :=
    Runs.exec_any (P := fun _ m => m.slots.length = 16 ∧ Slots.storedKeys m.slots = [22, 43] ∧
      m.slots[9]? = some ⟨22, 1⟩ ∧ m.lookupReads 56 = some 3) hrun (by decide +kernel)
  have hends' : m'.slots.length = 16 ∧ Slots.storedKeys m'.slots = [43, 22] ∧
      m'.slots[9]? = some ⟨43, 2⟩ :=
    Runs.exec_any (P := fun _ m => m.slots.length = 16 ∧ Slots.storedKeys m.slots = [43, 22] ∧
      m.slots[9]? = some ⟨43, 2⟩) hrun' (by decide +kernel)
  obtain ⟨hlen, hkeys, hslot, hreads⟩ := hends
  obtain ⟨hlen', hkeys', hslot'⟩ := hends'
  obtain ⟨-, habs, htotal⟩ := lookups_forget_history 1 1 _ _ m m' _ _ _ _ hm₀ hm₀
    (by simp [Call.Valid, kInvalidOrderId]) (by simp [Call.Valid, kInvalidOrderId]) hrun hrun'
    (hlen.trans hlen'.symm) (by rw [hkeys, hkeys']; exact .swap 43 22 [])
  have hsame := habs 56 (by rw [hkeys]; decide)
  exact ⟨_, _, _, m, m', hm₀, hrun, hrun', hslot, hslot', hreads, hsame ▸ hreads, htotal⟩

end IdIndexMap

end LightningLob
