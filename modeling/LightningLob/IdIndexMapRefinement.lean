import LightningLob.IdIndexMapSpec
import LightningLob.Lib.Runs
import Mathlib.Data.Finmap

/-! # The order-id index refines a finite map

    Any sequence of calls, growth steps included, answers like a finite map
    from order ids to pool handles, and `size()` counts its keys. -/

namespace LightningLob

namespace IdIndexMap

/-! ## Section 1: Calls and their specification -/

/-- A call on the map. -/
inductive Call where
  | insert (key : OrderId) (value : Nat)
  | erase (key : OrderId)
  | find (key : OrderId)
  | contains (key : OrderId)
  | clear
  deriving DecidableEq, Repr

/-- What a call returns. -/
inductive Reply where
  | flag (b : Bool)
  | value (v : Option Nat)
  | done
  deriving DecidableEq, Repr

/-- One call on the implementation. -/
def call (m : IdIndexMap) : Call → Run (Reply × IdIndexMap)
  | .insert key value => do
      let (b, m) ← m.insert key value
      pure (.flag b, m)
  | .erase key => do
      let (b, m) ← m.erase key
      pure (.flag b, m)
  | .find key => do
      let v ← m.find key
      pure (.value v, m)
  | .contains key => do
      let b ← m.contains key
      pure (.flag b, m)
  | .clear => pure (.done, m.clear)

/-- The finite map the index stands for. -/
abbrev Model : Type := Finmap fun _ : OrderId => Nat

/-- One call on the finite map: `insert` refuses a present key. -/
def callModel (f : Model) : Call → Reply × Model
  | .insert key value =>
      if (f.lookup key).isSome then (.flag false, f) else (.flag true, f.insert key value)
  | .erase key => (.flag (f.lookup key).isSome, f.erase key)
  | .find key => (.value (f.lookup key), f)
  | .contains key => (.flag (f.lookup key).isSome, f)
  | .clear => (.done, ∅)

/-- Insertions use a real order id. -/
def Call.Valid : Call → Prop
  | .insert key _ => key ≠ kInvalidOrderId
  | _ => True

/-! ## Section 2: Simulation -/

/-- The implementation stands for the finite map `f`. -/
structure Represents (m : IdIndexMap) (f : Model) : Prop where
  wf : m.WF
  lookup_eq : ∀ key, m.lookup key = f.lookup key
  size_eq : m.size = f.keys.card
  exact : m.size = Slots.occupied m.slots

theorem card_keys_insert (f : Model) {key : OrderId} (value : Nat) (h : f.lookup key = none) :
    (f.insert key value).keys.card = f.keys.card + 1 := by
  have hkeys : (f.insert key value).keys = Insert.insert key f.keys := by
    ext k
    simp [Finmap.mem_keys, Finmap.mem_insert]
  rw [hkeys, Finset.card_insert_of_notMem]
  rw [Finmap.mem_keys]
  exact Finmap.lookup_eq_none.mp h

theorem card_keys_erase (f : Model) (key : OrderId) :
    (f.erase key).keys.card + (if (f.lookup key).isSome then 1 else 0) = f.keys.card := by
  have hkeys : (f.erase key).keys = f.keys.erase key := by
    ext k
    simp [Finmap.mem_keys]
  rw [hkeys]
  cases h : f.lookup key with
  | none =>
    have hnot : key ∉ f.keys := by rw [Finmap.mem_keys]; exact Finmap.lookup_eq_none.mp h
    rw [Finset.erase_eq_of_notMem hnot]
    simp
  | some v =>
    have hmem : key ∈ f.keys := by
      rw [Finmap.mem_keys, ← Finmap.lookup_isSome, h]; rfl
    rw [Finset.card_erase_of_mem hmem]
    have := Finset.card_pos.mpr ⟨key, hmem⟩
    simp
    omega

/-- Every call answers like the finite map and keeps representing it. -/
theorem call_refines (m : IdIndexMap) (f : Model) (c : Call) (h : Represents m f)
    (hc : c.Valid) :
    ∃ m', m.call c = some ((callModel f c).1, m') ∧ Represents m' (callModel f c).2 := by
  cases c with
  | insert key value =>
    obtain ⟨m', hrun, hwf, hlook, hexact⟩ := h.wf.insert_spec key value
    obtain ⟨hsize, hocc⟩ := hexact hc h.exact
    refine ⟨m', ?_, ?_⟩
    · cases hl : f.lookup key <;> simp [call, callModel, hrun, h.lookup_eq, hl]
    -- a new key adds an entry, a present one changes nothing
    · cases hl : f.lookup key with
      | none =>
        have hc' : key ≠ kInvalidOrderId := hc
        simp only [h.lookup_eq, hl, Option.isNone_none, if_true] at hsize
        have hmodel : (callModel f (.insert key value)).2 = f.insert key value := by
          simp [callModel, hl]
        rw [hmodel]
        refine ⟨hwf, ?_, ?_, hocc⟩
        · intro k
          rw [hlook, h.lookup_eq, h.lookup_eq, hl]
          by_cases hk : k = key
          · subst hk
            rw [if_pos ⟨rfl, hc', rfl⟩, Finmap.lookup_insert]
          · rw [if_neg (fun hh => hk hh.1), Finmap.lookup_insert_of_ne _ hk]
        · rw [card_keys_insert f value hl, ← h.size_eq, hsize]
      | some v =>
        simp only [h.lookup_eq, hl, Option.isNone_some, Bool.false_eq_true, if_false,
          Nat.add_zero] at hsize
        have hmodel : (callModel f (.insert key value)).2 = f := by simp [callModel, hl]
        rw [hmodel]
        refine ⟨hwf, ?_, hsize.trans h.size_eq, hocc⟩
        intro k
        rw [hlook, h.lookup_eq, h.lookup_eq, hl]
        simp
  | erase key =>
    -- size, key count and occupied slots all go down together, or stay
    obtain ⟨m', hrun, hwf, hlook, hsize, hocc, -⟩ := h.wf.erase_spec key
    have hexact := h.exact
    have hcard := card_keys_erase f key
    have hsz := h.size_eq
    rw [h.lookup_eq] at hsize hocc
    refine ⟨m', by simp [call, callModel, hrun, h.lookup_eq], hwf, ?_, ?_, by omega⟩
    · intro k
      rw [hlook, h.lookup_eq]
      by_cases hk : k = key
      · subst hk
        rw [if_pos rfl]
        simp [callModel]
      · rw [if_neg hk]
        simp [callModel, Finmap.lookup_erase_ne hk]
    · simp only [callModel]
      omega
  | find key => exact ⟨m, by simp [call, callModel, h.wf.find_eq, h.lookup_eq], h⟩
  | contains key => exact ⟨m, by simp [call, callModel, h.wf.contains_eq, h.lookup_eq], h⟩
  | clear =>
    obtain ⟨hwf, hnone, hocc⟩ := h.wf.clear_spec
    exact ⟨m.clear, rfl, hwf, by simpa [callModel] using hnone, rfl, hocc.symm⟩

theorem create_represents {hint : Nat} {m : IdIndexMap} (h : create hint = some m) :
    Represents m ∅ := by
  obtain ⟨hwf, hnone, hsize, hocc⟩ := create_spec h
  exact ⟨hwf, by simpa using hnone, hsize, hsize.trans hocc.symm⟩

/-- **The index refines a finite map.**  After any construction and any
    sequence of calls that insert real ids, every call has returned what the
    finite map returns, `size()` is its number of keys, and
    `kInvalidOrderId` is neither found nor erased. -/
theorem idIndexMap_refines_finite_map (hint : Nat) (m : IdIndexMap) (h : create hint = some m)
    (calls : List Call) (hcalls : ∀ c ∈ calls, c.Valid) :
    ∃ m', Runs.exec call m calls = some ((Runs.execSpec callModel ∅ calls).1, m') ∧
      m'.size = (Runs.execSpec callModel ∅ calls).2.keys.card ∧
      m'.find kInvalidOrderId = some none ∧
      m'.erase kInvalidOrderId = some (false, m') := by
  obtain ⟨m', hrun, hrep⟩ := Runs.exec_refines Represents Call.Valid call_refines
    calls m ∅ (create_represents h) hcalls
  -- key 0 is never stored, whatever the history
  have hinv := hrep.wf.lookup_invalid
  refine ⟨m', hrun, hrep.size_eq, by rw [hrep.wf.find_eq, hinv], ?_⟩
  obtain ⟨m'', herase, -, -, -, -, hsame⟩ := hrep.wf.erase_spec kInvalidOrderId
  rw [hinv] at herase hsame
  rw [herase, hsame rfl]
  rfl

/-- Two colliding-capable inserts, a duplicate, an erase and two lookups. -/
theorem idIndexMap_refines_finite_map_run :
    ∃ m m', create 1 = some m ∧
      Runs.exec call m [.insert 5 7, .insert 6 8, .insert 5 9, .erase 5, .find 6, .find 5] =
        some ([.flag true, .flag true, .flag false, .flag true, .value (some 8), .value none],
          m') ∧ m'.size = 1 := by
  obtain ⟨m, hm⟩ : ∃ m, create 1 = some m := ⟨_, rfl⟩
  obtain ⟨m', hrun, hsize, -, -⟩ := idIndexMap_refines_finite_map 1 m hm
    [.insert 5 7, .insert 6 8, .insert 5 9, .erase 5, .find 6, .find 5]
    (by simp [Call.Valid, kInvalidOrderId])
  exact ⟨m, m', hm, hrun, hsize⟩

end IdIndexMap

end LightningLob
