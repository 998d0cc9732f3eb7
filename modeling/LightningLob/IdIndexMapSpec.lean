import LightningLob.IdIndexMap
import LightningLob.Lib.LinearProbing
import Mathlib.Data.List.Count
import Mathlib.Tactic.Ring

/-! # Correctness of the order-id index

    The slots of `IdIndexMap` are a linear-probing table: `Slots.table` reads
    them as one.  Section 1 settles the loops for any home-slot function,
    Section 2 the map with its hash, its load factor and its growth.

    A key `kInvalidOrderId` is never stored: inserting it only bumps the size
    counter.  The invariant allows for that, so the counter is at least the
    number of stored keys. -/

namespace LightningLob

open LinearProbing (cdist next Holds Probe Shift)

/-! ## Section 1: The slots as a table -/

namespace Slots

/-- What a slot holds. -/
def entry (s : Slot) : Option (OrderId × Nat) :=
  if s.key = kInvalidOrderId then none else some (s.key, s.value)

/-- The slots as a table of entries. -/
def table (slots : List Slot) (i : Nat) : Option (OrderId × Nat) := slots[i]?.bind entry

/-- Number of occupied slots. -/
def occupied (slots : List Slot) : Nat := slots.countP fun s => s.key ≠ kInvalidOrderId

theorem table_eq {slots : List Slot} {i : Nat} {s : Slot} (h : slots[i]? = some s) :
    table slots i = entry s := by
  simp [table, h]

theorem entry_eq_none {s : Slot} : entry s = none ↔ s.key = kInvalidOrderId := by
  simp [entry]

theorem entry_eq_some {s : Slot} {k v : Nat} :
    entry s = some (k, v) ↔ s.key ≠ kInvalidOrderId ∧ s.key = k ∧ s.value = v := by
  simp [entry]

theorem lt_of_table {slots : List Slot} {i : Nat} {e : OrderId × Nat}
    (h : table slots i = some e) : i < slots.length := by
  by_contra hge
  simp [table, List.getElem?_eq_none (Nat.le_of_not_lt hge)] at h

theorem exists_slot {slots : List Slot} {i : Nat} (h : i < slots.length) :
    ∃ s, slots[i]? = some s :=
  ⟨slots[i], List.getElem?_eq_getElem h⟩

theorem table_set {slots : List Slot} {i : Nat} (hi : i < slots.length) (s : Slot) :
    table (slots.set i s) = Function.update (table slots) i (entry s) := by
  funext j
  by_cases hj : j = i
  · subst hj
    simp [table, List.getElem?_set_self hi]
  · simp [table, List.getElem?_set_ne (Ne.symm hj), Function.update_of_ne hj]

/-- `idx & mask` is the cyclic successor when the table size is a power of two. -/
theorem advance_eq {slots : List Slot} {k i : Nat} (hlen : slots.length = 2 ^ k)
    (hi : i < slots.length) : advance slots i = next slots.length i := by
  unfold advance next
  rw [hlen, Nat.and_two_pow_sub_one_eq_mod]
  rw [hlen] at hi
  by_cases h : i + 1 = 2 ^ k
  · rw [if_pos h, h, Nat.mod_self]
  · rw [if_neg h, Nat.mod_eq_of_lt (by omega)]

/-- A slot is free when fewer than all are occupied. -/
theorem exists_free {slots : List Slot} (h : occupied slots < slots.length) :
    ∃ e, e < slots.length ∧ table slots e = none := by
  by_contra hno
  have hall : ∀ s ∈ slots, s.key ≠ kInvalidOrderId := by
    intro s hs hk
    obtain ⟨i, hi, rfl⟩ := List.getElem_of_mem hs
    exact hno ⟨i, hi, by rw [table_eq (List.getElem?_eq_getElem hi)]; exact entry_eq_none.mpr hk⟩
  have hcount : occupied slots = slots.length := by
    rw [occupied, List.countP_eq_length]
    simpa using hall
  omega

theorem occupied_set {slots : List Slot} {i : Nat} {s : Slot} (h : slots[i]? = some s) (x : Slot) :
    occupied (slots.set i x) + (if s.key ≠ kInvalidOrderId then 1 else 0) =
      occupied slots + (if x.key ≠ kInvalidOrderId then 1 else 0) := by
  obtain ⟨hi, hs⟩ := List.getElem?_eq_some_iff.mp h
  have hpos : s.key ≠ kInvalidOrderId → 0 < occupied slots := by
    intro hk
    exact List.countP_pos_iff.mpr ⟨s, hs ▸ List.getElem_mem hi, by simpa using hk⟩
  have hset : occupied (slots.set i x) = occupied slots -
      (if s.key ≠ kInvalidOrderId then 1 else 0) + (if x.key ≠ kInvalidOrderId then 1 else 0) := by
    unfold occupied
    rw [List.countP_set hi, hs]
    simp
  rw [hset]
  by_cases hk : s.key ≠ kInvalidOrderId
  · have := hpos hk
    rw [if_pos hk]
    omega
  · rw [if_neg hk]
    omega

section probing

variable {home : OrderId → Nat} {slots : List Slot} {k : Nat} {key : OrderId}

/-- The probe loop reaches the free slot `e` at the latest. -/
theorem probeFrom_spec (hlen : slots.length = 2 ^ k) (hhome : home key < slots.length)
    {e : Nat} (he : e < slots.length) (hfree : table slots e = none) :
    ∀ fuel idx, idx < slots.length → cdist slots.length idx e < fuel →
      (∀ j, j < slots.length → cdist slots.length (home key) j < cdist slots.length (home key) idx →
        ∃ k' v, table slots j = some (k', v) ∧ k' ≠ key) →
      ∃ p, probeFrom slots key fuel idx = some p ∧ Probe slots.length home (table slots) key p := by
  -- the last premise carries what the walk has passed: only other keys
  intro fuel
  induction fuel with
  | zero => intro idx _ hdist _; omega
  | succ fuel ih =>
    intro idx hidx hdist hskip
    obtain ⟨s, hs⟩ := exists_slot hidx
    by_cases hstop : s.key = kInvalidOrderId ∨ s.key = key
    · refine ⟨idx, by simp [probeFrom, hs, hstop], hidx, ?_, hskip⟩
      rw [table_eq hs]
      by_cases hk : s.key = kInvalidOrderId
      · exact Or.inl (entry_eq_none.mpr hk)
      · exact Or.inr ⟨s.value, entry_eq_some.mpr ⟨hk, hstop.resolve_left hk, rfl⟩⟩
    · -- the slot holds another key: walk on
      obtain ⟨hk, hne⟩ := not_or.mp hstop
      have hcell : table slots idx = some (s.key, s.value) := by
        rw [table_eq hs]; exact entry_eq_some.mpr ⟨hk, rfl, rfl⟩
      have hei : e ≠ idx := by rintro rfl; rw [hfree] at hcell; cases hcell
      have hadv := advance_eq hlen hidx
      have hcloser := LinearProbing.cdist_next_left hidx he hei
      obtain ⟨p, hp, hprobe⟩ := ih (next slots.length idx) (LinearProbing.next_lt hidx)
        (by omega) (by
          intro j hj hlt
          rcases LinearProbing.cdist_next hhome hidx with ⟨heq, -⟩ | ⟨-, heq⟩
          · rw [heq, LinearProbing.cdist_self] at hlt; omega
          · by_cases hji : cdist slots.length (home key) j = cdist slots.length (home key) idx
            · rw [LinearProbing.eq_of_cdist_eq hhome hj hidx hji]
              exact ⟨s.key, s.value, hcell, hne⟩
            · exact hskip j hj (by omega))
      refine ⟨p, ?_, hprobe⟩
      simp only [probeFrom, hs, Option.bind_eq_bind, Option.bind_some, if_neg hstop, hadv]
      exact hp

theorem probe_spec (hlen : slots.length = 2 ^ k) (hhome : home key < slots.length)
    (hfree : ∃ e, e < slots.length ∧ table slots e = none) :
    ∃ p, probe home slots key = some p ∧ Probe slots.length home (table slots) key p := by
  obtain ⟨e, he, hnone⟩ := hfree
  apply probeFrom_spec hlen hhome he hnone _ _ hhome
  · exact LinearProbing.cdist_lt hhome he
  · intro j _ hlt; rw [LinearProbing.cdist_self] at hlt; omega

/-- The source's test for `(i, j]` in terms of cyclic distance. -/
theorem between_iff {n i r j : Nat} (hi : i < n) (hr : r < n) (hj : j < n) :
    between i r j = true ↔ 0 < cdist n i r ∧ cdist n i r ≤ cdist n i j := by
  unfold between cdist
  split <;> simp only [Bool.decide_and, Bool.decide_or, Bool.and_eq_true, Bool.or_eq_true,
    decide_eq_true_eq] <;> split <;> omega

/-- Moving the entry of one slot into another. -/
theorem table_move {i j : Nat} {s : Slot} (hi : i < slots.length) (hj : j < slots.length)
    (hk : s.key ≠ kInvalidOrderId) :
    table ((slots.set i s).set j {}) =
      Function.update (Function.update (table slots) i (some (s.key, s.value))) j none := by
  rw [table_set (by simpa using hj), table_set hi, entry_eq_some.mpr ⟨hk, rfl, rfl⟩,
    entry_eq_none.mpr rfl]

theorem occupied_move {i j : Nat} {s : Slot} (hi : i < slots.length) (hfree : table slots i = none)
    (hs : slots[j]? = some s) (hk : s.key ≠ kInvalidOrderId) (hij : j ≠ i) :
    occupied ((slots.set i s).set j {}) = occupied slots := by
  obtain ⟨x, hx⟩ := exists_slot hi
  have hxk : x.key = kInvalidOrderId := by
    rw [table_eq hx] at hfree
    exact entry_eq_none.mp hfree
  have hs' : (slots.set i s)[j]? = some s := by
    rw [List.getElem?_set_ne (Ne.symm hij)]
    exact hs
  have h₁ := occupied_set hx s
  have h₂ := occupied_set hs' {}
  simp [hk, hxk] at h₁ h₂
  omega

/-- The repair loop ends at the free slot `e` at the latest, with a well-formed
    table that holds what it held before. -/
theorem shiftBack_spec {e : Nat} :
    ∀ fuel (slots : List Slot) (i j : Nat), slots.length = 2 ^ k →
      Shift slots.length home (table slots) i j → e < slots.length → table slots e = none →
      e ≠ i → e ≠ j → cdist slots.length j e ≤ fuel →
      ∃ slots', shiftBack home fuel slots i j = some slots' ∧ slots'.length = slots.length ∧
        occupied slots' = occupied slots ∧
        LinearProbing.WF slots.length home (table slots') ∧
        ∀ k' v, Holds (table slots') k' v ↔ Holds (table slots) k' v := by
  -- induction on the rounds left: each one brings the scan `j` nearer to `e`
  intro fuel
  induction fuel with
  | zero =>
    intro slots i j _ hshift he _ _ hej hdist
    have := LinearProbing.cdist_pos hshift.scan_lt he hej
    omega
  | succ fuel ih =>
    intro slots i j hlen hshift he hfree hei hej hdist
    have hjlt := LinearProbing.next_lt hshift.scan_lt
    have hadv := advance_eq hlen hshift.scan_lt
    have hcloser := LinearProbing.cdist_next_left hshift.scan_lt he hej
    obtain ⟨s, hs⟩ := exists_slot hjlt
    by_cases hk : s.key = kInvalidOrderId
    · -- an empty slot ends the scan
      have hend : table slots (next slots.length j) = none := by
        rw [table_eq hs]; exact entry_eq_none.mpr hk
      refine ⟨slots, ?_, rfl, rfl, hshift.finish hend, fun _ _ => Iff.rfl⟩
      simp [shiftBack, hadv, hs, hk]
    · have hscan : table slots (next slots.length j) = some (s.key, s.value) := by
        rw [table_eq hs]; exact entry_eq_some.mpr ⟨hk, rfl, rfl⟩
      have hne : e ≠ next slots.length j := by rintro rfl; rw [hfree] at hscan; cases hscan
      have hbetween := between_iff hshift.hole_lt (hshift.home_lt s.key) hjlt
      by_cases hb : between i (home s.key) (next slots.length j) = true
      · -- its home lies behind the hole: the entry stays
        obtain ⟨slots', hrun, hspec⟩ := ih slots i _ hlen
          (hshift.skip hscan (hbetween.mp hb)) he hfree hei hne (by omega)
        refine ⟨slots', ?_, hspec⟩
        simp only [shiftBack, hadv, hs, Option.bind_eq_bind, Option.bind_some, if_neg hk, hb,
          if_true]
        exact hrun
      · -- the entry moves into the hole
        have hmove := hshift.move hscan (fun hc => hb (hbetween.mpr hc))
        have hij : next slots.length j ≠ i := by
          intro heq; rw [heq, hshift.hole] at hscan; cases hscan
        have htable := table_move hshift.hole_lt hjlt hk
        have hlen' : ((slots.set i s).set (next slots.length j) {}).length = slots.length := by
          simp
        have hocc := occupied_move hshift.hole_lt hshift.hole hs hk hij
        obtain ⟨slots', hrun, hl', ho', hwf', hholds'⟩ := ih _ (next slots.length j)
          (next slots.length j) (hlen'.trans hlen) (by rw [hlen', htable]; exact hmove)
          (by rw [hlen']; exact he)
          (by rw [htable, Function.update_of_ne hne, Function.update_of_ne hei]; exact hfree)
          hne hne (by rw [hlen']; omega)
        refine ⟨slots', ?_, hl'.trans hlen', ho'.trans hocc, hlen' ▸ hwf', ?_⟩
        · simp only [shiftBack, hadv, hs, Option.bind_eq_bind, Option.bind_some, if_neg hk, hb,
            if_false, Bool.false_eq_true]
          exact hrun
        · intro k' v
          rw [hholds', htable]
          exact hshift.holds_move hscan k' v

/-- `erase` on a well-formed table with a free slot: absent keys are reported,
    a stored key goes and everything else stays. -/
theorem erase_spec (hlen : slots.length = 2 ^ k)
    (hwf : LinearProbing.WF slots.length home (table slots))
    (hfree : ∃ e, e < slots.length ∧ table slots e = none) (key : OrderId) :
    (erase home slots key = some none ∧ ∀ v, ¬ Holds (table slots) key v) ∨
    (∃ slots' v, erase home slots key = some (some slots') ∧ Holds (table slots) key v ∧
      slots'.length = slots.length ∧ occupied slots' + 1 = occupied slots ∧
      LinearProbing.WF slots.length home (table slots') ∧
      ∀ k' w, Holds (table slots') k' w ↔ k' ≠ key ∧ Holds (table slots) k' w) := by
  obtain ⟨p, hp, hprobe⟩ := probe_spec hlen (hwf.home_lt key) hfree
  obtain ⟨s, hs⟩ := exists_slot hprobe.lt
  by_cases hk : s.key = kInvalidOrderId
  · -- the probe ended at a free slot: the key is absent
    left
    have hnone : table slots p = none := by rw [table_eq hs]; exact entry_eq_none.mpr hk
    exact ⟨by simp [erase, hp, hs, hk], fun v => hprobe.absent hwf hnone v⟩
  · -- it ended at the key: clear the slot and repair the cluster behind it
    right
    have hcell : table slots p = some (key, s.value) := by
      rcases hprobe.stop with hnone | ⟨v, hv⟩
      · rw [table_eq hs] at hnone; exact (hk (entry_eq_none.mp hnone)).elim
      · rw [table_eq hs] at hv ⊢
        obtain ⟨-, rfl, rfl⟩ := entry_eq_some.mp hv
        exact hv
    obtain ⟨e, he, hnone⟩ := hfree
    have hep : e ≠ p := by rintro rfl; rw [hnone] at hcell; cases hcell
    have htable : table (slots.set p {}) = Function.update (table slots) p none := by
      rw [table_set hprobe.lt, entry_eq_none.mpr rfl]
    have hlen' : (slots.set p {}).length = slots.length := by simp
    obtain ⟨slots', hrun, hl', ho', hwf', hholds'⟩ := shiftBack_spec (e := e) slots.length
      (slots.set p {}) p p (hlen'.trans hlen) (by rw [hlen', htable]; exact hwf.start hprobe.lt)
      (by rw [hlen']; exact he) (by rw [htable, Function.update_of_ne hep]; exact hnone) hep hep
      (by rw [hlen']; exact (LinearProbing.cdist_lt hprobe.lt he).le)
    refine ⟨slots', s.value, ?_, ⟨p, hcell⟩, hl'.trans hlen', ?_, hlen' ▸ hwf', ?_⟩
    · simp [erase, hp, hs, hk, hrun]
    · have := occupied_set hs {}
      simp [hk] at this
      omega
    · -- an entry other than the key's is in another slot, untouched
      intro k' w
      rw [hholds', htable]
      constructor
      · rintro ⟨q, hq⟩
        by_cases hqp : q = p
        · rw [hqp, Function.update_self] at hq; cases hq
        · rw [Function.update_of_ne hqp] at hq
          refine ⟨?_, q, hq⟩
          rintro rfl
          exact hqp (hwf.unique hq hcell)
      · rintro ⟨hne, q, hq⟩
        have hqp : q ≠ p := by
          rintro rfl
          rw [hcell] at hq
          simp only [Option.some.injEq, Prod.mk.injEq] at hq
          exact hne hq.1.symm
        exact ⟨q, by rw [Function.update_of_ne hqp]; exact hq⟩

end probing

/-- What the table holds, slot by slot. -/
theorem holds_iff {slots : List Slot} {key : OrderId} {v : Nat} :
    Holds (table slots) key v ↔
      ∃ s ∈ slots, s.key ≠ kInvalidOrderId ∧ s.key = key ∧ s.value = v := by
  constructor
  · rintro ⟨i, hi⟩
    have hlt := lt_of_table hi
    rw [table_eq (List.getElem?_eq_getElem hlt), entry_eq_some] at hi
    exact ⟨slots[i], List.getElem_mem hlt, hi⟩
  · rintro ⟨s, hs, h⟩
    obtain ⟨i, hi, rfl⟩ := List.getElem_of_mem hs
    exact ⟨i, by rw [table_eq (List.getElem?_eq_getElem hi), entry_eq_some]; exact h⟩

end Slots

/-! ## Section 2: The map -/

theorem countrZero_two_pow (k : Nat) : countrZero (2 ^ k) = min k 64 := by
  unfold countrZero
  by_cases hk : k < 64
  · have hfind : (List.range 64).find? (fun i => (2 ^ k).testBit i) = some k := by
      rw [List.find?_range_eq_some]
      refine ⟨by simp, by simpa using hk, ?_⟩
      intro j hj
      simp [Nat.testBit_two_pow]
      omega
    rw [hfind]
    simp
    omega
  · -- no bit of a 64-bit word is set, which `countr_zero` reports as 64
    have hfind : (List.range 64).find? (fun i => (2 ^ k).testBit i) = none := by
      rw [List.find?_eq_none]
      intro i hi
      simp [Nat.testBit_two_pow] at hi ⊢
      omega
    rw [hfind]
    simp
    omega

namespace IdIndexMap

/-- The hash stays inside the table. -/
theorem slotFor_lt (k : Nat) (key : OrderId) : slotFor (64 - countrZero (2 ^ k)) key < 2 ^ k := by
  unfold slotFor
  rw [countrZero_two_pow, Nat.shiftRight_eq_div_pow]
  have hlt : key * kFibonacciMul % 2 ^ 64 < 2 ^ 64 := Nat.mod_lt _ (by decide)
  rcases Nat.lt_or_ge k 64 with hk | hk
  · -- the shift keeps the top `k` bits
    apply Nat.div_lt_of_lt_mul
    rw [Nat.min_eq_left hk.le, ← Nat.pow_add, Nat.sub_add_cancel hk.le]
    exact hlt
  · rw [Nat.min_eq_right hk]
    calc key * kFibonacciMul % 2 ^ 64 / 2 ^ (64 - 64)
        ≤ key * kFibonacciMul % 2 ^ 64 := Nat.div_le_self _ _
      _ < 2 ^ 64 := hlt
      _ ≤ 2 ^ k := Nat.pow_le_pow_right (by decide) hk

/-- Representation invariant: a power-of-two table, at most half full, that is
    well formed for the current hash. -/
structure WF (m : IdIndexMap) : Prop where
  length_pow : ∃ k, 4 ≤ k ∧ m.slots.length = 2 ^ k
  shift_eq : m.shift = 64 - countrZero m.slots.length
  table : LinearProbing.WF m.slots.length (slotFor m.shift) (Slots.table m.slots)
  occupied_le : Slots.occupied m.slots ≤ m.size
  load : m.size * 2 ≤ m.slots.length

/-- The value stored under a key. -/
def lookup (m : IdIndexMap) (key : OrderId) : Option Nat := (m.find key).getD none

theorem WF.length_ge {m : IdIndexMap} (h : m.WF) : 16 ≤ m.slots.length := by
  obtain ⟨k, hk, hlen⟩ := h.length_pow
  calc 16 = 2 ^ 4 := by decide
    _ ≤ 2 ^ k := Nat.pow_le_pow_right (by decide) hk
    _ = m.slots.length := hlen.symm

theorem WF.exists_free {m : IdIndexMap} (h : m.WF) :
    ∃ e, e < m.slots.length ∧ Slots.table m.slots e = none := by
  apply Slots.exists_free
  have h₁ := h.length_ge
  have h₂ := h.load
  have h₃ := h.occupied_le
  omega

theorem WF.probe {m : IdIndexMap} (h : m.WF) (key : OrderId) :
    ∃ p, Slots.probe (slotFor m.shift) m.slots key = some p ∧
      Probe m.slots.length (slotFor m.shift) (Slots.table m.slots) key p := by
  obtain ⟨k, -, hlen⟩ := h.length_pow
  exact Slots.probe_spec hlen (h.table.home_lt key) h.exists_free

/-- `find` terminates, and answers exactly what the table holds. -/
theorem WF.find_spec {m : IdIndexMap} (h : m.WF) (key : OrderId) :
    ∃ r, m.find key = some r ∧ ∀ v, r = some v ↔ Holds (Slots.table m.slots) key v := by
  obtain ⟨p, hp, hprobe⟩ := h.probe key
  obtain ⟨s, hs⟩ := Slots.exists_slot hprobe.lt
  refine ⟨if s.key = kInvalidOrderId then none else some s.value, by simp [find, hp, hs], ?_⟩
  intro v
  by_cases hk : s.key = kInvalidOrderId
  · have hnone : Slots.table m.slots p = none := by
      rw [Slots.table_eq hs]; exact Slots.entry_eq_none.mpr hk
    simp only [hk, if_true, reduceCtorEq, false_iff]
    exact hprobe.absent h.table hnone v
  · have hcell : Slots.table m.slots p = some (s.key, s.value) := by
      rw [Slots.table_eq hs]; exact Slots.entry_eq_some.mpr ⟨hk, rfl, rfl⟩
    have hkey : s.key = key := by
      rcases hprobe.stop with hnone | ⟨w, hw⟩
      · rw [hnone] at hcell; cases hcell
      · rw [hcell] at hw
        simp only [Option.some.injEq, Prod.mk.injEq] at hw
        exact hw.1
    have hholds : Holds (Slots.table m.slots) key s.value := ⟨p, hkey ▸ hcell⟩
    rw [if_neg hk, Option.some.injEq]
    constructor
    · rintro rfl; exact hholds
    · intro hv; exact h.table.holds_unique hholds hv

theorem WF.find_eq {m : IdIndexMap} (h : m.WF) (key : OrderId) :
    m.find key = some (m.lookup key) := by
  obtain ⟨r, hr, -⟩ := h.find_spec key
  simp [lookup, hr]

theorem WF.lookup_eq_some {m : IdIndexMap} (h : m.WF) {key : OrderId} {v : Nat} :
    m.lookup key = some v ↔ Holds (Slots.table m.slots) key v := by
  obtain ⟨r, hr, hspec⟩ := h.find_spec key
  simp [lookup, hr, hspec]

theorem WF.contains_eq {m : IdIndexMap} (h : m.WF) (key : OrderId) :
    m.contains key = some (m.lookup key).isSome := by
  simp [contains, h.find_eq]

/-- `kInvalidOrderId` is never stored. -/
@[simp] theorem WF.lookup_invalid {m : IdIndexMap} (h : m.WF) :
    m.lookup kInvalidOrderId = none := by
  cases hl : m.lookup kInvalidOrderId with
  | none => rfl
  | some v =>
    obtain ⟨s, -, hk, hk', -⟩ := Slots.holds_iff.mp (h.lookup_eq_some.mp hl)
    exact (hk hk').elim

theorem WF.lookup_eq {m : IdIndexMap} (h : m.WF) {key : OrderId} {o : Option Nat}
    (hiff : ∀ v, Holds (Slots.table m.slots) key v ↔ o = some v) : m.lookup key = o := by
  apply Option.ext
  intro v
  rw [h.lookup_eq_some, hiff]

/-- `erase` terminates, succeeds iff the key is present, and removes only it. -/
theorem WF.erase_spec {m : IdIndexMap} (h : m.WF) (key : OrderId) :
    ∃ m', m.erase key = some ((m.lookup key).isSome, m') ∧ m'.WF ∧
      (∀ k, m'.lookup k = if k = key then none else m.lookup k) ∧
      m'.size + (if (m.lookup key).isSome then 1 else 0) = m.size ∧
      Slots.occupied m'.slots + (if (m.lookup key).isSome then 1 else 0) =
        Slots.occupied m.slots ∧
      ((m.lookup key).isSome = false → m' = m) := by
  obtain ⟨k, hk, hlen⟩ := h.length_pow
  rcases Slots.erase_spec hlen h.table h.exists_free key with ⟨hrun, habs⟩ | hpres
  · -- absent: nothing changes
    have hnone : m.lookup key = none := by
      cases hl : m.lookup key with
      | none => rfl
      | some v => exact (habs v (h.lookup_eq_some.mp hl)).elim
    refine ⟨m, by simp [erase, hrun, hnone], h, ?_, by simp [hnone], by simp [hnone],
      fun _ => rfl⟩
    intro k'
    by_cases hk' : k' = key
    · rw [if_pos hk', hk', hnone]
    · rw [if_neg hk']
  · obtain ⟨slots', v, hrun, hv, hlen', hocc, hwf', hholds⟩ := hpres
    have hsome : (m.lookup key).isSome = true := by rw [h.lookup_eq_some.mpr hv]; rfl
    have hle := h.occupied_le
    have hload := h.load
    have hm' : WF { m with slots := slots', size := m.size - 1 } := by
      refine ⟨⟨k, hk, hlen'.trans hlen⟩, ?_, ?_, ?_, ?_⟩
      · rw [hlen']; exact h.shift_eq
      · rw [hlen']; exact hwf'
      · show Slots.occupied slots' ≤ m.size - 1
        omega
      · show (m.size - 1) * 2 ≤ slots'.length
        omega
    refine ⟨_, by simp [erase, hrun, hsome], hm', ?_, ?_, ?_, ?_⟩
    · intro k'
      apply hm'.lookup_eq
      intro w
      rw [hholds]
      by_cases hk' : k' = key
      · simp [hk']
      · rw [if_neg hk', h.lookup_eq_some]
        simp [hk']
    · simp only [hsome, if_true]; omega
    · simp only [hsome, if_true]; omega
    · simp [hsome]

/-- `insert` once there is room. -/
theorem WF.insertSlot_spec {m : IdIndexMap} (h : m.WF) (room : (m.size + 1) * 2 ≤ m.slots.length)
    (key : OrderId) (value : Nat) :
    ∃ m', m.insertSlot key value = some ((m.lookup key).isNone, m') ∧ m'.WF ∧
      (∀ k, m'.lookup k =
        if k = key ∧ key ≠ kInvalidOrderId ∧ m.lookup key = none then some value
        else m.lookup k) ∧
      m'.slots.length = m.slots.length ∧
      m'.size = m.size + (if (m.lookup key).isNone then 1 else 0) ∧
      Slots.occupied m'.slots = Slots.occupied m.slots +
        (if (m.lookup key).isNone ∧ key ≠ kInvalidOrderId then 1 else 0) := by
  obtain ⟨p, hp, hprobe⟩ := h.probe key
  obtain ⟨s, hs⟩ := Slots.exists_slot hprobe.lt
  by_cases hk : s.key = kInvalidOrderId
  · -- the key is absent: it goes into the free slot the probe found
    have hnone : Slots.table m.slots p = none := by
      rw [Slots.table_eq hs]; exact Slots.entry_eq_none.mpr hk
    have habs : m.lookup key = none := by
      apply h.lookup_eq
      intro v
      simp [hprobe.absent h.table hnone v]
    have hlen : (m.slots.set p ⟨key, value⟩).length = m.slots.length := by simp
    have htable := Slots.table_set hprobe.lt ⟨key, value⟩
    have hocc := Slots.occupied_set hs ⟨key, value⟩
    simp only [hk, ne_eq, not_true_eq_false, if_false, Nat.add_zero] at hocc
    have hle := h.occupied_le
    have hm' : WF { m with slots := m.slots.set p ⟨key, value⟩, size := m.size + 1 } := by
      refine ⟨by rw [hlen]; exact h.length_pow, by rw [hlen]; exact h.shift_eq, ?_, ?_, ?_⟩
      · rw [hlen, htable]
        by_cases hz : key = kInvalidOrderId
        · rw [Slots.entry_eq_none.mpr hz, ← hnone, Function.update_eq_self]
          exact h.table
        · rw [Slots.entry_eq_some.mpr ⟨hz, rfl, rfl⟩]
          exact h.table.insert hprobe hnone value
      · rw [hocc]
        show _ ≤ m.size + 1
        split <;> omega
      · rw [hlen]; exact room
    refine ⟨_, by simp [insertSlot, hp, hs, hk, habs], hm', ?_, hlen, by simp [habs], ?_⟩
    · -- key 0 writes a free slot over a free slot, so the table is the same
      intro k'
      apply hm'.lookup_eq
      intro v
      show Holds (Slots.table (m.slots.set p ⟨key, value⟩)) k' v ↔ _
      rw [htable]
      by_cases hz : key = kInvalidOrderId
      · rw [Slots.entry_eq_none.mpr hz, ← hnone, Function.update_eq_self]
        simp [hz, h.lookup_eq_some]
      · rw [Slots.entry_eq_some.mpr ⟨hz, rfl, rfl⟩, LinearProbing.holds_insert hnone]
        by_cases hk' : k' = key
        · have hno : ¬ Holds (Slots.table m.slots) key v := hprobe.absent h.table hnone v
          simp [hk', hz, habs, hno, eq_comm]
        · simp [hk', h.lookup_eq_some]
    · show Slots.occupied (m.slots.set p ⟨key, value⟩) = _
      rw [hocc]
      simp [habs]
  · -- the key is present: nothing changes
    have hpres : ∃ v, m.lookup key = some v := by
      rcases hprobe.stop with hnone | ⟨v, hv⟩
      · rw [Slots.table_eq hs] at hnone; exact (hk (Slots.entry_eq_none.mp hnone)).elim
      · exact ⟨v, h.lookup_eq_some.mpr ⟨p, hv⟩⟩
    obtain ⟨v, hv⟩ := hpres
    refine ⟨m, by simp [insertSlot, hp, hs, hk, hv], h, ?_, rfl, by simp [hv], by simp [hv]⟩
    intro k'
    simp [hv]

/-- An empty table of power-of-two size is well formed and holds nothing. -/
theorem wf_replicate {k : Nat} (hk : 4 ≤ k) (m : IdIndexMap)
    (hslots : m.slots = List.replicate (2 ^ k) {}) (hshift : m.shift = 64 - countrZero (2 ^ k))
    (hsize : m.size = 0) :
    m.WF ∧ (∀ key, m.lookup key = none) ∧ Slots.occupied m.slots = 0 := by
  have hlen : m.slots.length = 2 ^ k := by rw [hslots]; simp
  have htable : ∀ i, Slots.table m.slots i = none := by
    intro i
    rw [hslots]
    by_cases hi : i < 2 ^ k
    · rw [Slots.table_eq (s := {}) (by rw [List.getElem?_replicate]; simp [hi])]
      rfl
    · simp [Slots.table, hi]
  have hocc : Slots.occupied m.slots = 0 := by
    rw [hslots, Slots.occupied, List.countP_replicate]
    simp
  have hwf : m.WF := by
    refine ⟨⟨k, hk, hlen⟩, by rw [hlen]; exact hshift, ?_, by omega, by omega⟩
    refine ⟨?_, ?_, ?_, ?_⟩
    · intro key; rw [hlen, hshift]; exact slotFor_lt k key
    · intro i e hi; rw [htable] at hi; cases hi
    · intro i j key v w hi; rw [htable] at hi; cases hi
    · intro i key v hi; rw [htable] at hi; cases hi
  refine ⟨hwf, ?_, hocc⟩
  intro key
  apply hwf.lookup_eq
  intro v
  simp only [reduceCtorEq, iff_false]
  rintro ⟨i, hi⟩
  rw [htable] at hi
  cases hi

theorem insertNested_of_room {m : IdIndexMap} (depth : Nat) (key : OrderId) (value : Nat)
    (room : (m.size + 1) * 2 ≤ m.slots.length) :
    insertNested (depth + 1) m key value = m.insertSlot key value := by
  simp [insertNested, Nat.not_lt.mpr room]

/-- The rehash so far: `acc` holds exactly the entries of the slots `done` of a
    table of `len` slots. -/
structure Rehashed (len : Nat) (done : List Slot) (acc : IdIndexMap) : Prop where
  wf : acc.WF
  length : acc.slots.length = len * 2
  size : acc.size = Slots.occupied done
  occupied : Slots.occupied acc.slots = Slots.occupied done
  lookup : ∀ key v, acc.lookup key = some v ↔
    ∃ s ∈ done, s.key ≠ kInvalidOrderId ∧ s.key = key ∧ s.value = v

/-- An empty slot is passed over. -/
theorem Rehashed.skip {len : Nat} {done : List Slot} {acc : IdIndexMap} {s : Slot}
    (h : Rehashed len done acc) (hk : s.key = kInvalidOrderId) :
    Rehashed len (done ++ [s]) acc := by
  have hdone : Slots.occupied (done ++ [s]) = Slots.occupied done := by
    simp [Slots.occupied, hk]
  refine ⟨h.wf, h.length, h.size.trans hdone.symm, h.occupied.trans hdone.symm, ?_⟩
  intro key v
  rw [h.lookup]
  constructor
  · rintro ⟨x, hx, hspec⟩
    exact ⟨x, by simp [hx], hspec⟩
  · rintro ⟨x, hx, hne, hspec⟩
    simp only [List.mem_append, List.mem_singleton] at hx
    rcases hx with hx | rfl
    · exact ⟨x, hx, hne, hspec⟩
    · exact (hne hk).elim

/-- The entry of an occupied slot is inserted: the new table has room for it,
    so the insertion does not grow it again. -/
theorem Rehashed.insert {len : Nat} {done : List Slot} {acc : IdIndexMap} {s : Slot}
    (h : Rehashed len done acc) (depth : Nat) (hk : s.key ≠ kInvalidOrderId)
    (hnew : ∀ x ∈ done, x.key ≠ kInvalidOrderId → x.key ≠ s.key)
    (hroom : Slots.occupied done < len) :
    ∃ acc', insertNested (depth + 1) acc s.key s.value = some (true, acc') ∧
      Rehashed len (done ++ [s]) acc' := by
  have hdone : Slots.occupied (done ++ [s]) = Slots.occupied done + 1 := by
    simp [Slots.occupied, hk]
  have hsize := h.size
  have hocc := h.occupied
  have hlen := h.length
  have room : (acc.size + 1) * 2 ≤ acc.slots.length := by omega
  have habs : acc.lookup s.key = none := by
    cases hl : acc.lookup s.key with
    | none => rfl
    | some v =>
      obtain ⟨x, hx, hne, hkey, -⟩ := (h.lookup s.key v).mp hl
      exact (hnew x hx hne hkey).elim
  obtain ⟨acc', hins, hwf', hlook', hlen', hsize', hocc'⟩ :=
    h.wf.insertSlot_spec room s.key s.value
  simp only [habs, Option.isNone_none, if_true, ne_eq, hk, not_false_eq_true, and_self]
    at hins hsize' hocc' hlook'
  refine ⟨acc', (insertNested_of_room depth s.key s.value room).trans hins, hwf',
    hlen'.trans hlen, by omega, by omega, ?_⟩
  intro key v
  rw [hlook']
  by_cases hkey : key = s.key
  · rw [hkey]
    simp only [and_self, if_true, Option.some.injEq]
    constructor
    · rintro rfl
      exact ⟨s, by simp, hk, rfl, rfl⟩
    · rintro ⟨x, hx, hne, hxk, hxv⟩
      simp only [List.mem_append, List.mem_singleton] at hx
      rcases hx with hx | rfl
      · exact (hnew x hx hne hxk).elim
      · exact hxv
  · rw [if_neg (fun hc => hkey hc.1), h.lookup]
    constructor
    · rintro ⟨x, hx, hspec⟩
      exact ⟨x, by simp [hx], hspec⟩
    · rintro ⟨x, hx, hne, hxk, hxv⟩
      simp only [List.mem_append, List.mem_singleton] at hx
      rcases hx with hx | rfl
      · exact ⟨x, hx, hne, hxk, hxv⟩
      · exact (hkey hxk.symm).elim

/-- The rehash loop goes through the slots still to do. -/
theorem Rehashed.loop (depth len : Nat) :
    ∀ (todo done : List Slot) (acc : IdIndexMap), Rehashed len done acc →
      Slots.occupied (done ++ todo) ≤ len →
      (done ++ todo).Pairwise (fun x s => x.key ≠ kInvalidOrderId → x.key ≠ s.key) →
      ∃ m', todo.foldlM
          (fun acc s =>
            if s.key ≠ kInvalidOrderId then
              (insertNested (depth + 1) acc s.key s.value).map Prod.snd
            else
              pure acc) acc = some m' ∧
        Rehashed len (done ++ todo) m' := by
  intro todo
  induction todo with
  | nil =>
    intro done acc h _ _
    exact ⟨acc, rfl, by rwa [List.append_nil]⟩
  | cons s todo ih =>
    intro done acc h hle huniq
    have happ : done ++ s :: todo = (done ++ [s]) ++ todo := by simp
    by_cases hk : s.key = kInvalidOrderId
    · obtain ⟨m', hrun, hspec⟩ := ih (done ++ [s]) acc (h.skip hk) (happ ▸ hle) (happ ▸ huniq)
      refine ⟨m', ?_, happ ▸ hspec⟩
      simpa [hk] using hrun
    · have hcount : Slots.occupied (done ++ s :: todo) =
          Slots.occupied done + (Slots.occupied todo + 1) := by
        simp [Slots.occupied, hk]
      obtain ⟨acc', hins, h'⟩ := h.insert depth hk
        (fun x hx => (List.pairwise_append.mp huniq).2.2 x hx s (by simp)) (by omega)
      obtain ⟨m', hrun, hspec⟩ := ih (done ++ [s]) acc' h' (happ ▸ hle) (happ ▸ huniq)
      refine ⟨m', ?_, happ ▸ hspec⟩
      simp only [List.foldlM_cons, ne_eq, hk, not_false_eq_true, if_true, hins, Option.map_some,
        Option.bind_eq_bind, Option.bind_some]
      exact hrun

/-- `grow` keeps every entry, doubles the table and recounts the size. -/
theorem WF.grow_spec {m : IdIndexMap} (h : m.WF) (depth : Nat) :
    ∃ m', m.grow (insertNested (depth + 1)) = some m' ∧ m'.WF ∧
      m'.slots.length = m.slots.length * 2 ∧ m'.size = Slots.occupied m.slots ∧
      Slots.occupied m'.slots = Slots.occupied m.slots ∧ ∀ key, m'.lookup key = m.lookup key := by
  obtain ⟨k, hk, hlen⟩ := h.length_pow
  have hdouble : m.slots.length * 2 = 2 ^ (k + 1) := by rw [hlen, Nat.pow_succ]
  obtain ⟨hwf₀, hnone, hocc₀⟩ := wf_replicate (k := k + 1) (by omega)
    (allocate (m.slots.length * 2)) (by simp [allocate, hdouble]) (by simp [allocate, hdouble]) rfl
  have hstart : Rehashed m.slots.length [] (allocate (m.slots.length * 2)) :=
    ⟨hwf₀, by simp [allocate], rfl, hocc₀, by simp [hnone]⟩
  have huniq : m.slots.Pairwise fun x s => x.key ≠ kInvalidOrderId → x.key ≠ s.key := by
    rw [List.pairwise_iff_getElem]
    intro i j hi hj hij hne heq
    have hx := Slots.table_eq (List.getElem?_eq_getElem hi)
    have hs := Slots.table_eq (List.getElem?_eq_getElem hj)
    rw [Slots.entry_eq_some.mpr ⟨hne, rfl, rfl⟩] at hx
    rw [Slots.entry_eq_some.mpr ⟨heq ▸ hne, heq.symm, rfl⟩] at hs
    exact Nat.ne_of_lt hij (h.table.unique hx hs)
  obtain ⟨m', hrun, hall⟩ := Rehashed.loop depth m.slots.length m.slots [] _ hstart
    (by simpa [Slots.occupied] using List.countP_le_length) huniq
  refine ⟨m', hrun, hall.wf, hall.length, hall.size, hall.occupied, ?_⟩
  intro key
  apply Option.ext
  intro v
  rw [hall.lookup, h.lookup_eq_some, Slots.holds_iff]
  simp

/-- `insert` terminates, with growth or without: it refuses a present key and
    otherwise adds exactly the new entry. -/
theorem WF.insert_spec {m : IdIndexMap} (h : m.WF) (key : OrderId) (value : Nat) :
    ∃ m', m.insert key value = some ((m.lookup key).isNone, m') ∧ m'.WF ∧
      (∀ k, m'.lookup k =
        if k = key ∧ key ≠ kInvalidOrderId ∧ m.lookup key = none then some value
        else m.lookup k) ∧
      (key ≠ kInvalidOrderId → m.size = Slots.occupied m.slots →
        m'.size = m.size + (if (m.lookup key).isNone then 1 else 0) ∧
        m'.size = Slots.occupied m'.slots) := by
  -- the table actually inserted into
  have hroom : ∃ m₁ : IdIndexMap, m.insert key value = m₁.insertSlot key value ∧ m₁.WF ∧
      (m₁.size + 1) * 2 ≤ m₁.slots.length ∧ (∀ k, m₁.lookup k = m.lookup k) ∧
      (m.size = Slots.occupied m.slots → m₁.size = m.size ∧ m₁.size = Slots.occupied m₁.slots) := by
    by_cases hfull : (m.size + 1) * 2 > m.slots.length
    · -- growth recounts the size, which does not exceed the old one
      obtain ⟨m₁, hrun, hwf₁, hlen₁, hsize₁, hocc₁, hlook₁⟩ := h.grow_spec 0
      have h₁ := h.occupied_le
      have h₂ := h.load
      have h₃ := h.length_ge
      refine ⟨m₁, ?_, hwf₁, by omega, hlook₁, fun he => ⟨by omega, by omega⟩⟩
      rw [insert, insertNested, if_pos hfull, hrun]
      rfl
    · exact ⟨m, insertNested_of_room 1 key value (by omega), h, by omega, fun _ => rfl,
        fun he => ⟨rfl, he⟩⟩
  obtain ⟨m₁, hgrow, hwf₁, room, hlook₁, hexact⟩ := hroom
  obtain ⟨m', hins, hwf', hlook', -, hsize', hocc'⟩ := hwf₁.insertSlot_spec room key value
  rw [hlook₁] at hins hsize' hocc'
  refine ⟨m', hgrow.trans hins, hwf', ?_, ?_⟩
  · intro k
    rw [hlook', hlook₁, hlook₁]
  · intro hz he
    obtain ⟨he₁, he₂⟩ := hexact he
    refine ⟨by omega, ?_⟩
    rw [hsize', hocc', he₂]
    simp [hz]

/-- `clear` empties the table and keeps its size. -/
theorem WF.clear_spec {m : IdIndexMap} (h : m.WF) :
    m.clear.WF ∧ (∀ key, m.clear.lookup key = none) ∧ Slots.occupied m.clear.slots = 0 := by
  obtain ⟨k, hk, hlen⟩ := h.length_pow
  exact wf_replicate hk m.clear (by simp [clear, hlen]) (by rw [← hlen]; exact h.shift_eq) rfl

/-- The sizing loop only returns a power of two. -/
theorem capacityFor_pow (target : Nat) :
    ∀ fuel cap c, (cap = 0 ∧ 0 < target ∨ ∃ k, 4 ≤ k ∧ k < 64 ∧ cap = 2 ^ k) →
      capacityFor target fuel cap = some c → ∃ k, 4 ≤ k ∧ c = 2 ^ k := by
  -- a doubled power of two is one, or 0 once it overflows, and 0 stays below
  -- any target
  intro fuel
  induction fuel with
  | zero => intro cap c _ h; cases h
  | succ fuel ih =>
    intro cap c hcap h
    simp only [capacityFor] at h
    by_cases hlt : cap < target
    · rw [if_pos hlt] at h
      refine ih _ c ?_ h
      rcases hcap with ⟨rfl, ht⟩ | ⟨k, hk, hk', rfl⟩
      · exact Or.inl ⟨by simp, ht⟩
      · rw [← Nat.pow_succ]
        rcases Nat.lt_or_ge (k + 1) 64 with hlt' | hge
        · exact Or.inr ⟨k + 1, by omega, hlt',
            Nat.mod_eq_of_lt (Nat.pow_lt_pow_right (by decide) hlt')⟩
        · have : k = 63 := by omega
          subst this
          exact Or.inl ⟨by decide, by omega⟩
    · rw [if_neg hlt] at h
      rcases hcap with ⟨rfl, ht⟩ | ⟨k, hk, -, rfl⟩
      · omega
      · exact ⟨k, hk, (Option.some.inj h).symm⟩

/-- A successful construction gives an empty map. -/
theorem create_spec {hint : Nat} {m : IdIndexMap} (h : create hint = some m) :
    m.WF ∧ (∀ key, m.lookup key = none) ∧ m.size = 0 ∧ Slots.occupied m.slots = 0 := by
  simp only [create, Option.bind_eq_bind, Option.bind_eq_some_iff] at h
  obtain ⟨cap, hcap, hm⟩ := h
  obtain ⟨k, hk, rfl⟩ := capacityFor_pow _ _ _ _ (Or.inr ⟨4, by decide, by decide, rfl⟩) hcap
  have hm' := Option.some.inj hm
  subst hm'
  obtain ⟨hwf, hlook, hocc⟩ := wf_replicate hk (allocate (2 ^ k)) rfl rfl rfl
  exact ⟨hwf, hlook, rfl, hocc⟩

end IdIndexMap

end LightningLob
