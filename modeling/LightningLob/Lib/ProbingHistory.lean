import LightningLob.Lib.LinearProbing
import Mathlib.Algebra.BigOperators.Group.Finset.Basic
import Mathlib.Algebra.BigOperators.Group.Finset.Piecewise
import Mathlib.Algebra.BigOperators.Group.Finset.Sigma
import Mathlib.Data.Finset.Max

/-! # Linear probing forgets its history

    Two well-formed tables of one size that store the same keys may have been
    reached by different insertions and deletions, and may keep a key in
    different cells.  They occupy the same cells all the same, so a search for
    an absent key stops at the same cell in both, and the keys are equally far
    from home in total.

    Both facts count keys by their homes.  The cells from an empty one up to a
    cell `c` can only hold keys at home among them, and such a key is stored
    either there or past `c`. -/

namespace LinearProbing

variable {K V : Type}

/-! ## Section 1: Arcs -/

/-- The cells after `e` up to `c`, cyclically. -/
def arc (n e c : Nat) : Finset Nat :=
  (Finset.range n).filter fun j => 0 < cdist n e j ∧ cdist n e j ≤ cdist n e c

theorem mem_arc {n e c j : Nat} :
    j ∈ arc n e c ↔ j < n ∧ 0 < cdist n e j ∧ cdist n e j ≤ cdist n e c := by
  simp [arc]

theorem self_mem_arc {n e c : Nat} (he : e < n) (hc : c < n) (h : c ≠ e) : c ∈ arc n e c :=
  mem_arc.mpr ⟨hc, cdist_pos he hc h, Nat.le_refl _⟩

/-- From `h` the way to `i` leads past `c` if `c` comes between them after `e`. -/
theorem cdist_past {n e h i c : Nat} (he : e < n) (hh : h < n) (hi : i < n) (hc : c < n)
    (hle : cdist n e h ≤ cdist n e i) :
    cdist n h c < cdist n h i ↔ cdist n e h ≤ cdist n e c ∧ cdist n e c < cdist n e i := by
  have h₁ := cdist_add he hh hi
  have h₂ := cdist_add he hh hc
  have h₃ := cdist_lt hh hi
  have h₄ := cdist_lt hh hc
  have h₅ := cdist_lt he hi
  have h₆ := cdist_lt he hc
  omega

/-- As many cells are closer than `m` as the distance says. -/
theorem card_closer {n h m : Nat} (hh : h < n) (hm : m ≤ n) :
    ((Finset.range n).filter fun c => cdist n h c < m).card = m := by
  refine (Finset.card_bij (fun c _ => cdist n h c) ?_ ?_ ?_).trans (Finset.card_range m)
  · intro c hc
    exact Finset.mem_range.mpr (Finset.mem_filter.mp hc).2
  · intro a ha b hb hab
    have ha' := Finset.mem_range.mp (Finset.mem_filter.mp ha).1
    have hb' := Finset.mem_range.mp (Finset.mem_filter.mp hb).1
    exact eq_of_cdist_eq hh ha' hb' hab
  · intro d hd
    rw [Finset.mem_range] at hd
    -- the cell `d` steps after `h`
    have hcell : ∃ c, c < n ∧ cdist n h c = d := by
      by_cases hlt : h + d < n
      · refine ⟨h + d, hlt, ?_⟩
        unfold cdist
        split <;> omega
      · refine ⟨h + d - n, by omega, ?_⟩
        unfold cdist
        split <;> omega
    obtain ⟨c, hc, hdist⟩ := hcell
    refine ⟨c, ?_, hdist⟩
    rw [Finset.mem_filter, Finset.mem_range, hdist]
    exact ⟨hc, hd⟩

/-! ## Section 2: Keys by their homes -/

open Classical in
/-- The cells whose keys are at home in `W`. -/
noncomputable def homed (n : Nat) (home : K → Nat) (t : Nat → Option (K × V)) (W : Finset Nat) :
    Finset Nat :=
  (Finset.range n).filter fun i => ∃ k v, t i = some (k, v) ∧ home k ∈ W

open Classical in
/-- The cells whose keys were carried past `c` on the way from home. -/
noncomputable def passing (n : Nat) (home : K → Nat) (t : Nat → Option (K × V)) (c : Nat) :
    Finset Nat :=
  (Finset.range n).filter fun i =>
    ∃ k v, t i = some (k, v) ∧ cdist n (home k) c < cdist n (home k) i

/-- Both tables store the same keys. -/
def SameKeys (t t' : Nat → Option (K × V)) : Prop :=
  ∀ k, (∃ v, Holds t k v) ↔ ∃ v, Holds t' k v

section tables

variable {n : Nat} {home : K → Nat} {t t' : Nat → Option (K × V)} {e c i : Nat} {k : K} {v : V}

theorem SameKeys.symm (h : SameKeys t t') : SameKeys t' t := fun k => (h k).symm

theorem mem_homed {W : Finset Nat} (hwf : WF n home t) :
    i ∈ homed n home t W ↔ ∃ k v, t i = some (k, v) ∧ home k ∈ W := by
  classical
  unfold homed
  rw [Finset.mem_filter, Finset.mem_range]
  constructor
  · exact fun h => h.2
  · rintro ⟨k, v, hi, hk⟩
    exact ⟨hwf.lt hi, k, v, hi, hk⟩

theorem mem_passing (hwf : WF n home t) : i ∈ passing n home t c ↔
    ∃ k v, t i = some (k, v) ∧ cdist n (home k) c < cdist n (home k) i := by
  classical
  unfold passing
  rw [Finset.mem_filter, Finset.mem_range]
  constructor
  · exact fun h => h.2
  · rintro ⟨k, v, hi, hk⟩
    exact ⟨hwf.lt hi, k, v, hi, hk⟩

/-- Nothing is carried past an empty cell. -/
theorem passing_empty (hwf : WF n home t) (hc : c < n) (hnone : t c = none) :
    passing n home t c = ∅ := by
  rw [Finset.eq_empty_iff_forall_notMem]
  intro i hi
  obtain ⟨k, v, hi, hlt⟩ := (mem_passing hwf).mp hi
  exact hwf.reach hi c hc hlt hnone

/-- How many keys are at home in `W` depends on the keys alone. -/
theorem card_homed_le (hwf : WF n home t) (hwf' : WF n home t') (hkeys : SameKeys t t')
    (W : Finset Nat) : (homed n home t W).card ≤ (homed n home t' W).card := by
  -- each cell to the one with the same key
  have hcell : ∀ i ∈ homed n home t W, ∃ j ∈ homed n home t' W,
      ∃ k v v', t i = some (k, v) ∧ t' j = some (k, v') := by
    intro i hi
    obtain ⟨k, v, hi, hk⟩ := (mem_homed hwf).mp hi
    obtain ⟨v', j, hj⟩ := (hkeys k).mp ⟨v, i, hi⟩
    exact ⟨j, (mem_homed hwf').mpr ⟨k, v', hj, hk⟩, k, v, v', hi, hj⟩
  choose! f hmem hsame using hcell
  refine Finset.card_le_card_of_injOn f hmem ?_
  intro a ha b hb hab
  obtain ⟨k, v, v', hka, hka'⟩ := hsame a ha
  obtain ⟨l, w, w', hlb, hlb'⟩ := hsame b hb
  rw [hab, hlb'] at hka'
  obtain ⟨rfl, -⟩ := Prod.mk.inj (Option.some.inj hka')
  exact hwf.unique hka hlb

theorem card_homed_eq (hwf : WF n home t) (hwf' : WF n home t') (hkeys : SameKeys t t')
    (W : Finset Nat) : (homed n home t W).card = (homed n home t' W).card :=
  Nat.le_antisymm (card_homed_le hwf hwf' hkeys W) (card_homed_le hwf' hwf hkeys.symm W)

/-- After an empty cell, a key is at home before its cell. -/
theorem WF.home_between (hwf : WF n home t) (he : e < n) (hnone : t e = none)
    (hi : t i = some (k, v)) :
    0 < cdist n e (home k) ∧ cdist n e (home k) ≤ cdist n e i := by
  have hk := hwf.home_lt k
  have hlt := hwf.lt hi
  have hie : i ≠ e := by
    rintro rfl
    rw [hnone] at hi
    cases hi
  by_contra hnot
  refine hwf.reach hi e he ?_ hnone
  -- from home the way to `i` would lead over `e`
  have h₁ := cdist_add hk he hlt
  have h₂ := cdist_add he hk he
  have h₃ := cdist_lt he hlt
  have h₄ := cdist_lt hk he
  have h₅ := cdist_pos he hlt hie
  rw [cdist_self] at h₂
  omega

/-- The last empty cell before an occupied one. -/
theorem exists_nearest (hfree : ∃ e < n, t e = none) (hc : c < n) :
    ∃ e < n, t e = none ∧ ∀ j ∈ arc n e c, t j ≠ none := by
  classical
  obtain ⟨e₀, he₀, hnone₀⟩ := hfree
  obtain ⟨e, he, hmin⟩ := Finset.exists_min_image ((Finset.range n).filter fun e => t e = none)
    (fun e => cdist n e c) ⟨e₀, by simp [he₀, hnone₀]⟩
  rw [Finset.mem_filter, Finset.mem_range] at he
  refine ⟨e, he.1, he.2, fun j hj hnone => ?_⟩
  obtain ⟨hjn, hpos, hle⟩ := mem_arc.mp hj
  have hmin' := hmin j (by simp [hjn, hnone])
  -- an empty cell in between would be closer
  have h₁ := cdist_add he.1 hjn hc
  have h₂ := cdist_lt hjn hc
  omega

/-- Past an empty cell, the keys at home up to `c` are those stored there and
    those carried past `c`. -/
theorem card_homed_arc (hwf : WF n home t) (he : e < n) (hnone : t e = none) (hc : c < n)
    (hfull : ∀ j ∈ arc n e c, t j ≠ none) :
    (homed n home t (arc n e c)).card = (arc n e c).card + (passing n home t c).card := by
  have hdisj : Disjoint (arc n e c) (passing n home t c) := by
    rw [Finset.disjoint_left]
    intro i hi hpass
    obtain ⟨k, v, hik, hlt⟩ := (mem_passing hwf).mp hpass
    obtain ⟨hin, -, hle⟩ := mem_arc.mp hi
    have hbetween := hwf.home_between he hnone hik
    have hways := cdist_past he (hwf.home_lt k) hin hc hbetween.2
    omega
  rw [← Finset.card_union_of_disjoint hdisj]
  congr 1
  ext i
  rw [Finset.mem_union, mem_homed hwf, mem_passing hwf]
  constructor
  · rintro ⟨k, v, hi, hk⟩
    by_cases hin : i ∈ arc n e c
    · exact .inl hin
    refine .inr ⟨k, v, hi, ?_⟩
    obtain ⟨hkn, -, hle⟩ := mem_arc.mp hk
    have hlt := hwf.lt hi
    have hbetween := hwf.home_between he hnone hi
    have hfar : cdist n e c < cdist n e i := by
      by_contra hge
      exact hin (mem_arc.mpr ⟨hlt, by omega, by omega⟩)
    exact (cdist_past he hkn hlt hc hbetween.2).mpr ⟨hle, hfar⟩
  · rintro (hi | ⟨k, v, hi, hlt⟩)
    · cases htable : t i with
      | none => exact absurd htable (hfull i hi)
      | some entry =>
        obtain ⟨k, v⟩ := entry
        obtain ⟨-, hpos, hle⟩ := mem_arc.mp hi
        have hbetween := hwf.home_between he hnone htable
        exact ⟨k, v, rfl, mem_arc.mpr ⟨hwf.home_lt k, hbetween.1, by omega⟩⟩
    · have hbetween := hwf.home_between he hnone hi
      have hpast := (cdist_past he (hwf.home_lt k) (hwf.lt hi) hc hbetween.2).mp hlt
      exact ⟨k, v, hi, mem_arc.mpr ⟨hwf.home_lt k, hbetween.1, hpast.1⟩⟩

/-! ## Section 3: The same cells are occupied -/

/-- The keys at home between `e` and an empty cell `c` leave `c` out. -/
theorem homed_subset_of_empty (hwf : WF n home t) (he : e < n) (hc : c < n) (hnone : t c = none) :
    homed n home t (arc n e c) ⊆ (arc n e c).erase c := by
  intro i hmem
  obtain ⟨k, v, hi, hk⟩ := (mem_homed hwf).mp hmem
  obtain ⟨hkn, hpos, hle⟩ := mem_arc.mp hk
  have hin := hwf.lt hi
  have hbetween := hwf.home_between hc hnone hi
  have hic : i ≠ c := by
    intro heq
    rw [heq, hnone] at hi
    cases hi
  -- `e`, home, `i` and `c` come in this order
  have h₁ := cdist_add he hc hkn
  have h₂ := cdist_add he hc hin
  have h₃ := cdist_lt hc hin
  have h₄ := cdist_lt he hin
  exact Finset.mem_erase.mpr ⟨hic, mem_arc.mpr ⟨hin, by omega⟩⟩

theorem empty_of_sameKeys (hwf : WF n home t) (hwf' : WF n home t') (hkeys : SameKeys t t')
    (hfree' : ∃ e < n, t' e = none) (hc : c < n) (hnone : t c = none) : t' c = none := by
  obtain ⟨e, he, hnone', hfull⟩ := exists_nearest hfree' hc
  by_contra hocc
  have hce : c ≠ e := by
    rintro rfl
    exact hocc hnone'
  -- more keys are at home in the arc than the first table can store there
  have hle := Finset.card_le_card (homed_subset_of_empty hwf he hc hnone)
  have hlt := Finset.card_erase_lt_of_mem (self_mem_arc he hc hce)
  have hcount := card_homed_arc hwf' he hnone' hc hfull
  have hsame := card_homed_eq hwf hwf' hkeys (arc n e c)
  omega

/-- **The occupied cells forget the history**: they are the same in any two
    tables with the same keys. -/
theorem empty_iff (hwf : WF n home t) (hwf' : WF n home t') (hkeys : SameKeys t t')
    (hfree : ∃ e < n, t e = none) (hfree' : ∃ e < n, t' e = none) (hc : c < n) :
    t c = none ↔ t' c = none :=
  ⟨empty_of_sameKeys hwf hwf' hkeys hfree' hc, empty_of_sameKeys hwf' hwf hkeys.symm hfree hc⟩

/-- Searches for an absent key stop at the same cell. -/
theorem probe_absent_eq {p p' : Nat} (hwf : WF n home t) (hp : Probe n home t k p)
    (hp' : Probe n home t' k p') (hnone : t p = none) (hnone' : t' p' = none)
    (hsame : ∀ c < n, t c = none ↔ t' c = none) : p = p' := by
  have hk := hwf.home_lt k
  rcases Nat.lt_trichotomy (cdist n (home k) p) (cdist n (home k) p') with hlt | heq | hgt
  · obtain ⟨l, v, hl, -⟩ := hp'.skipped p hp.lt hlt
    rw [(hsame p hp.lt).mp hnone] at hl
    cases hl
  · exact eq_of_cdist_eq hk hp.lt hp'.lt heq
  · obtain ⟨l, v, hl, -⟩ := hp.skipped p' hp'.lt hgt
    rw [(hsame p' hp'.lt).mpr hnone'] at hl
    cases hl

/-! ## Section 4: The keys are equally far from home -/

/-- How far the keys are from home, in total. -/
def displacement (n : Nat) (home : K → Nat) (t : Nat → Option (K × V)) : Nat :=
  ∑ i ∈ Finset.range n, match t i with
    | none => 0
    | some (k, _) => cdist n (home k) i

/-- A key counts once at each cell it was carried past. -/
theorem displacement_eq (hwf : WF n home t) :
    displacement n home t = ∑ c ∈ Finset.range n, (passing n home t c).card := by
  classical
  unfold displacement passing
  simp only [Finset.card_filter]
  rw [Finset.sum_comm]
  refine Finset.sum_congr rfl fun i hi => ?_
  cases hentry : t i with
  | none => simp
  | some entry =>
    obtain ⟨k, v⟩ := entry
    have hlt := cdist_lt (hwf.home_lt k) (Finset.mem_range.mp hi)
    have hclose := card_closer (hwf.home_lt k) (Nat.le_of_lt hlt)
    rw [Finset.card_filter] at hclose
    rw [show (match some (k, v) with
      | none => 0
      | some (k, _) => cdist n (home k) i) = cdist n (home k) i from rfl]
    refine hclose.symm.trans (Finset.sum_congr rfl fun c _ => ?_)
    simp

theorem card_passing_eq (hwf : WF n home t) (hwf' : WF n home t') (hkeys : SameKeys t t')
    (hfree : ∃ e < n, t e = none) (hfree' : ∃ e < n, t' e = none) (hc : c < n) :
    (passing n home t c).card = (passing n home t' c).card := by
  have hiff := fun {j : Nat} => empty_iff (c := j) hwf hwf' hkeys hfree hfree'
  by_cases hnone : t c = none
  · rw [passing_empty hwf hc hnone, passing_empty hwf' hc ((hiff hc).mp hnone)]
  · obtain ⟨e, he, hnone, hfull⟩ := exists_nearest hfree hc
    have hfull' : ∀ j ∈ arc n e c, t' j ≠ none := fun j hj hj' =>
      hfull j hj ((hiff (mem_arc.mp hj).1).mpr hj')
    have h := card_homed_arc hwf he hnone hc hfull
    have h' := card_homed_arc hwf' he ((hiff he).mp hnone) hc hfull'
    have hsame := card_homed_eq hwf hwf' hkeys (arc n e c)
    omega

/-- **The total displacement forgets the history.** -/
theorem displacement_eq_of_sameKeys (hwf : WF n home t) (hwf' : WF n home t')
    (hkeys : SameKeys t t') (hfree : ∃ e < n, t e = none) (hfree' : ∃ e < n, t' e = none) :
    displacement n home t = displacement n home t' := by
  rw [displacement_eq hwf, displacement_eq hwf']
  exact Finset.sum_congr rfl fun c hc =>
    card_passing_eq hwf hwf' hkeys hfree hfree' (Finset.mem_range.mp hc)

end tables

end LinearProbing
