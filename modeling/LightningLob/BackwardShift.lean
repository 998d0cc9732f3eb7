import LightningLob.IdIndexMapSpec

/-! # Backward-shift deletion

    `IdIndexMap::erase` on a table of slots, for any function that gives each
    key a home slot.  The condition is stated on the slots themselves: each
    stored key can be reached from its home slot over occupied slots, going
    round the end of the table where that is the way. -/

namespace LightningLob

open LinearProbing (cdist Holds)

namespace Slots

/-! ## Section 1: Reachable keys -/

/-- The slot at `i` holds an entry. -/
def OccupiedAt (slots : List Slot) (i : Nat) : Prop :=
  slots[i]?.any (fun s => s.key ≠ kInvalidOrderId) = true

instance (slots : List Slot) (i : Nat) : Decidable (OccupiedAt slots i) :=
  inferInstanceAs (Decidable (_ = true))

/-- Going `d` slots on from the home slot of `key`, cyclically, leads to slot
    `i`, over occupied slots only. -/
def ReachableAt (home : OrderId → Nat) (slots : List Slot) (key : OrderId) (i : Nat) : Prop :=
  ∃ d < slots.length, (home key + d) % slots.length = i ∧
    ∀ e ≤ d, OccupiedAt slots ((home key + e) % slots.length)

instance (home : OrderId → Nat) (slots : List Slot) (key : OrderId) (i : Nat) :
    Decidable (ReachableAt home slots key i) :=
  inferInstanceAs (Decidable (∃ d < _, _))

/-- The keys stored in the slots. -/
def storedKeys (slots : List Slot) : List OrderId :=
  (slots.map Slot.key).filter fun key => key ≠ kInvalidOrderId

/-- A table of slots with distinct keys and a free slot, in which every stored
    key is reachable. -/
structure Sound (home : OrderId → Nat) (slots : List Slot) : Prop where
  length_pow : ∃ k, slots.length = 2 ^ k
  home_lt : ∀ key, home key < slots.length
  distinct : (storedKeys slots).Nodup
  free : ∃ s ∈ slots, s.key = kInvalidOrderId
  reachable : ∀ i : Fin slots.length, slots[i].key ≠ kInvalidOrderId →
    ReachableAt home slots slots[i].key i

/-! ## Section 2: The same condition on the table of entries -/

/-- Walking `d` slots on, cyclically. -/
theorem cdist_walk {n a d : Nat} (ha : a < n) (hd : d < n) : cdist n a ((a + d) % n) = d := by
  unfold cdist
  by_cases h : a + d < n
  · rw [Nat.mod_eq_of_lt h, if_pos (Nat.le_add_right a d)]
    omega
  · have hmod : (a + d) % n = a + d - n := by
      rw [Nat.mod_eq_sub_mod (by omega), Nat.mod_eq_of_lt (by omega)]
    rw [hmod]
    split <;> omega

/-- The walk over the cyclic distance ends where it should. -/
theorem walk_cdist {n a b : Nat} (ha : a < n) (hb : b < n) : (a + cdist n a b) % n = b := by
  unfold cdist
  by_cases h : a ≤ b
  · rw [if_pos h, show a + (b - a) = b by omega, Nat.mod_eq_of_lt hb]
  · rw [if_neg h, show a + (n - a + b) = n + b by omega, Nat.add_mod_left, Nat.mod_eq_of_lt hb]

section tables

variable {home : OrderId → Nat} {slots : List Slot}

theorem occupiedAt_iff {i : Nat} : OccupiedAt slots i ↔ table slots i ≠ none := by
  unfold OccupiedAt
  cases hs : slots[i]? with
  | none => simp [table, hs]
  | some s =>
    rw [table_eq hs]
    simp [entry_eq_none]

/-- Distinct keys: two slots never hold the same one. -/
theorem nodup_storedKeys_iff : (storedKeys slots).Nodup ↔
    ∀ (i j : Nat) (hi : i < slots.length) (hj : j < slots.length), i < j →
      slots[i].key ≠ kInvalidOrderId → slots[i].key ≠ slots[j].key := by
  unfold storedKeys List.Nodup
  rw [List.pairwise_filter, List.pairwise_map, List.pairwise_iff_getElem]
  constructor
  · intro h i j hi hj hij hk heq
    exact h i j hi hj hij (by simpa using hk) (by simpa [← heq] using hk) heq
  · intro h i j hi hj hij hk _
    exact h i j hi hj hij (by simpa using hk)

/-- A walk over occupied slots passes every slot on the shortest way. -/
theorem ReachableAt.passes {key : OrderId} {i j : Nat} (h : ReachableAt home slots key i)
    (hhome : home key < slots.length) (hj : j < slots.length)
    (hle : cdist slots.length (home key) j ≤ cdist slots.length (home key) i) :
    OccupiedAt slots j := by
  obtain ⟨d, hlt, rfl, hall⟩ := h
  rw [cdist_walk hhome hlt] at hle
  have := hall (cdist slots.length (home key) j) hle
  rwa [walk_cdist hhome hj] at this

/-- Sound slots are a well-formed table. -/
theorem Sound.table_wf (h : Sound home slots) :
    LinearProbing.WF slots.length home (table slots) where
  home_lt := h.home_lt
  lt := lt_of_table
  unique := by
    intro i j k v w hi hj
    have hilt := lt_of_table hi
    have hjlt := lt_of_table hj
    have hdistinct := nodup_storedKeys_iff.mp h.distinct
    rw [table_eq (List.getElem?_eq_getElem hilt), entry_eq_some] at hi
    rw [table_eq (List.getElem?_eq_getElem hjlt), entry_eq_some] at hj
    have heq := hi.2.1.trans hj.2.1.symm
    rcases Nat.lt_trichotomy i j with hlt | hij | hlt
    · exact (hdistinct i j hilt hjlt hlt hi.1 heq).elim
    · exact hij
    · exact (hdistinct j i hjlt hilt hlt hj.1 heq.symm).elim
  reach := by
    intro i k v hi j hj hlt
    have hilt := lt_of_table hi
    rw [table_eq (List.getElem?_eq_getElem hilt), entry_eq_some] at hi
    obtain ⟨hk, rfl, -⟩ := hi
    rw [← occupiedAt_iff]
    exact (h.reachable ⟨i, hilt⟩ hk).passes (h.home_lt _) hj hlt.le

theorem Sound.exists_free (h : Sound home slots) :
    ∃ e, e < slots.length ∧ table slots e = none := by
  obtain ⟨s, hs, hk⟩ := h.free
  obtain ⟨i, hi, rfl⟩ := List.getElem_of_mem hs
  refine ⟨i, hi, ?_⟩
  rw [table_eq (List.getElem?_eq_getElem hi)]
  exact entry_eq_none.mpr hk

theorem table_of_key {i : Nat} (hi : i < slots.length) (hk : slots[i].key ≠ kInvalidOrderId) :
    table slots i = some (slots[i].key, slots[i].value) := by
  rw [table_eq (List.getElem?_eq_getElem hi), entry_eq_some]
  exact ⟨hk, rfl, rfl⟩

/-- A well-formed table with a free slot comes from sound slots. -/
theorem Sound.of_table_wf (hlen : ∃ k, slots.length = 2 ^ k)
    (hwf : LinearProbing.WF slots.length home (table slots))
    (hfree : ∃ e, e < slots.length ∧ table slots e = none) : Sound home slots where
  length_pow := hlen
  home_lt := hwf.home_lt
  distinct := by
    rw [nodup_storedKeys_iff]
    intro i j hi hj hij hk heq
    have hfirst := table_of_key hi hk
    have hsecond := table_of_key hj (heq ▸ hk)
    rw [← heq] at hsecond
    exact absurd (hwf.unique hfirst hsecond) (by omega)
  free := by
    obtain ⟨e, he, hnone⟩ := hfree
    obtain ⟨s, hs⟩ := exists_slot he
    rw [table_eq hs, entry_eq_none] at hnone
    exact ⟨s, List.mem_of_getElem? hs, hnone⟩
  reachable := by
    rintro ⟨i, hilt⟩ hk
    show ReachableAt home slots slots[i].key i
    have hi := table_of_key hilt hk
    have hhome := hwf.home_lt slots[i].key
    have hpos : 0 < slots.length := by omega
    have hlt := LinearProbing.cdist_lt hhome hilt
    refine ⟨cdist slots.length (home slots[i].key) i, hlt, walk_cdist hhome hilt, ?_⟩
    intro e he
    rw [occupiedAt_iff]
    rcases Nat.lt_or_eq_of_le he with hbefore | hend
    · apply hwf.reach hi _ (Nat.mod_lt _ hpos)
      rw [cdist_walk hhome (by omega)]
      exact hbefore
    · rw [hend, walk_cdist hhome hilt, hi]
      simp

end tables

/-! ## Section 3: Deletion -/

/-- **Backward-shift deletion preserves reachability, for any hash.**  Erasing
    a stored key ends, and leaves a table of the same size with exactly the
    other entries, each key once and each reachable from its home slot again. -/
theorem erase_keeps_keys_reachable (home : OrderId → Nat) (slots : List Slot)
    (h : Sound home slots) (s : Slot) (hs : s ∈ slots) (hkey : s.key ≠ kInvalidOrderId) :
    ∃ slots', erase home slots s.key = some (some slots') ∧
      slots'.length = slots.length ∧ Sound home slots' ∧
      ∀ t, t.key ≠ kInvalidOrderId → (t ∈ slots' ↔ t ∈ slots ∧ t.key ≠ s.key) := by
  obtain ⟨k, hlen⟩ := h.length_pow
  have hstored : Holds (table slots) s.key s.value := holds_iff.mpr ⟨s, hs, hkey, rfl, rfl⟩
  rcases erase_spec hlen h.table_wf h.exists_free s.key with ⟨-, habsent⟩ | hpresent
  · exact (habsent s.value hstored).elim
  · obtain ⟨slots', v, hrun, -, hlen', hocc, hwf', hholds⟩ := hpresent
    have hle : occupied slots ≤ slots.length := List.countP_le_length
    have hfree' : ∃ e, e < slots'.length ∧ table slots' e = none := exists_free (by omega)
    refine ⟨slots', hrun, hlen', ?_, ?_⟩
    · exact .of_table_wf ⟨k, hlen'.trans hlen⟩ (by rw [hlen']; exact hwf') hfree'
    · -- an entry is its key and its value
      have hmem : ∀ (slots : List Slot) (t : Slot), t.key ≠ kInvalidOrderId →
          (t ∈ slots ↔ Holds (table slots) t.key t.value) := by
        intro slots t ht
        rw [holds_iff]
        constructor
        · intro h
          exact ⟨t, h, ht, rfl, rfl⟩
        · rintro ⟨⟨key, value⟩, h, -, rfl, rfl⟩
          exact h
      intro t ht
      rw [hmem slots' t ht, hmem slots t ht, hholds, and_comm]

/-- Keys 3 and 7 share the last slot as their home, so 7 sits at the start of
    the table and 4 behind it; erasing 3 pulls both back round the end. -/
theorem erase_keeps_keys_reachable_wrapped :
    ∃ slots', erase (· % 4) [⟨7, 1⟩, ⟨4, 2⟩, {}, ⟨3, 0⟩] 3 = some (some slots') ∧
      slots' = [⟨4, 2⟩, {}, {}, ⟨7, 1⟩] ∧ Sound (· % 4) slots' := by
  have hsound : Sound (· % 4) [⟨7, 1⟩, ⟨4, 2⟩, {}, ⟨3, 0⟩] :=
    ⟨⟨2, rfl⟩, fun key => Nat.mod_lt _ (by decide), by decide, ⟨{}, by decide, rfl⟩, by decide⟩
  obtain ⟨slots', hrun, -, hsound', -⟩ :=
    erase_keeps_keys_reachable (· % 4) _ hsound ⟨3, 0⟩ (by decide) (by decide)
  have heval : erase (· % 4) [⟨7, 1⟩, ⟨4, 2⟩, {}, ⟨3, 0⟩] 3 =
      some (some [⟨4, 2⟩, {}, {}, ⟨7, 1⟩]) := by decide
  rw [heval] at hrun
  cases hrun
  exact ⟨_, heval, rfl, hsound'⟩

end Slots

end LightningLob
