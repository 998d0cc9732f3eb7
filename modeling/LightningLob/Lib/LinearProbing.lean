import Mathlib.Logic.Function.Basic

/-! # Linear probing with backward-shift deletion

    Open addressing over `n` cyclically arranged cells, independent of the
    key type and of the hash.  A table is a function from cell numbers to
    entries; `home` gives the cell where the search for a key starts.

    A table is well formed when keys are unique and every stored key is
    reachable: all cells cyclically from its home up to its own are occupied.
    `Probe` describes the cell where a search stops, `Shift` the state of the
    repair loop of a deletion, with its hole and the last cell scanned. -/

namespace LinearProbing

variable {K V : Type}

/-! ## Section 1: Cyclic distance -/

/-- Steps from cell `a` forward to cell `b`, cyclically. -/
def cdist (n a b : Nat) : Nat := if a ≤ b then b - a else n - a + b

/-- The cyclically next cell. -/
def next (n i : Nat) : Nat := if i + 1 = n then 0 else i + 1

theorem next_lt {n i : Nat} (h : i < n) : next n i < n := by
  unfold next; split <;> omega

theorem cdist_lt {n a b : Nat} (ha : a < n) (hb : b < n) : cdist n a b < n := by
  unfold cdist; split <;> omega

@[simp] theorem cdist_self (n a : Nat) : cdist n a a = 0 := by simp [cdist]

/-- Going on from `b` to `c` adds up, unless the walk passes `a` again. -/
theorem cdist_add {n a b c : Nat} (ha : a < n) (hb : b < n) (_hc : c < n) :
    cdist n a b + cdist n b c = cdist n a c ∨ cdist n a b + cdist n b c = cdist n a c + n := by
  unfold cdist; split <;> split <;> split <;> omega

/-- One more step, unless it closes the circle. -/
theorem cdist_next {n a b : Nat} (ha : a < n) (_hb : b < n) :
    (next n b = a ∧ cdist n a b + 1 = n) ∨
      (next n b ≠ a ∧ cdist n a (next n b) = cdist n a b + 1) := by
  unfold cdist next; split <;> split <;> split <;> omega

/-- One step closer, unless already there. -/
theorem cdist_next_left {n a b : Nat} (ha : a < n) (hb : b < n) (h : b ≠ a) :
    cdist n (next n a) b + 1 = cdist n a b := by
  unfold cdist next; split <;> split <;> split <;> omega

theorem cdist_pos {n a b : Nat} (ha : a < n) (_hb : b < n) (h : b ≠ a) : 0 < cdist n a b := by
  unfold cdist; split <;> omega

theorem eq_of_cdist_eq {n a b c : Nat} (ha : a < n) (hb : b < n) (hc : c < n)
    (h : cdist n a b = cdist n a c) : b = c := by
  unfold cdist at h; split at h <;> split at h <;> omega

/-! ## Section 2: Well-formed tables -/

/-- Unique keys, each reachable from its home. -/
structure WF (n : Nat) (home : K → Nat) (t : Nat → Option (K × V)) : Prop where
  home_lt : ∀ k, home k < n
  lt : ∀ {i e}, t i = some e → i < n
  unique : ∀ {i j k v w}, t i = some (k, v) → t j = some (k, w) → i = j
  reach : ∀ {i k v}, t i = some (k, v) → ∀ j, j < n →
    cdist n (home k) j < cdist n (home k) i → t j ≠ none

/-- `k` is stored with value `v`. -/
def Holds (t : Nat → Option (K × V)) (k : K) (v : V) : Prop := ∃ i, t i = some (k, v)

theorem WF.holds_unique {n : Nat} {home : K → Nat} {t : Nat → Option (K × V)}
    (hwf : WF n home t) {k : K} {v w : V} (hv : Holds t k v) (hw : Holds t k w) : v = w := by
  obtain ⟨i, hi⟩ := hv
  obtain ⟨j, hj⟩ := hw
  have hij := hwf.unique hi hj
  subst hij
  rw [hi] at hj
  simpa using hj

/-- The search for `k` stops at cell `p`: it is empty or holds `k`, and every
    cell before it on the way from home holds another key. -/
structure Probe (n : Nat) (home : K → Nat) (t : Nat → Option (K × V)) (k : K) (p : Nat) :
    Prop where
  lt : p < n
  stop : t p = none ∨ ∃ v, t p = some (k, v)
  skipped : ∀ j, j < n → cdist n (home k) j < cdist n (home k) p →
    ∃ k' v, t j = some (k', v) ∧ k' ≠ k

section search

variable {n : Nat} {home : K → Nat} {t : Nat → Option (K × V)} {k : K} {p : Nat}

/-- A search that stops at an empty cell found nothing because there is
    nothing to find. -/
theorem Probe.absent (hwf : WF n home t) (hp : Probe n home t k p) (hnone : t p = none) (v : V) :
    ¬ Holds t k v := by
  rintro ⟨i, hi⟩
  have hilt := hwf.lt hi
  -- where would `k` be: before the stop, at it, or behind an empty cell
  rcases Nat.lt_trichotomy (cdist n (home k) i) (cdist n (home k) p) with hlt | heq | hgt
  · obtain ⟨k', w, hj, hne⟩ := hp.skipped i hilt hlt
    rw [hi] at hj
    simp only [Option.some.injEq, Prod.mk.injEq] at hj
    exact hne hj.1.symm
  · have hip := eq_of_cdist_eq (hwf.home_lt k) hilt hp.lt heq
    rw [hip, hnone] at hi
    cases hi
  · exact hwf.reach hi p hp.lt hgt hnone

/-- Writing a new key where its search stopped keeps the table well formed. -/
theorem WF.insert (hwf : WF n home t) (hp : Probe n home t k p) (hnone : t p = none) (v : V) :
    WF n home (Function.update t p (some (k, v))) where
  home_lt := hwf.home_lt
  lt := by
    intro i e hi
    by_cases hip : i = p
    · rw [hip]; exact hp.lt
    · rw [Function.update_of_ne hip] at hi; exact hwf.lt hi
  unique := by
    -- the search has shown that `k` is nowhere in the table
    have hnew : ∀ i w, t i = some (k, w) → False :=
      fun i w hi => hp.absent hwf hnone w ⟨i, hi⟩
    intro i j k' w w' hi hj
    by_cases hip : i = p <;> by_cases hjp : j = p
    · rw [hip, hjp]
    · rw [hip, Function.update_self] at hi
      rw [Function.update_of_ne hjp] at hj
      simp only [Option.some.injEq, Prod.mk.injEq] at hi
      exact (hnew j w' (hi.1 ▸ hj)).elim
    · rw [hjp, Function.update_self] at hj
      rw [Function.update_of_ne hip] at hi
      simp only [Option.some.injEq, Prod.mk.injEq] at hj
      exact (hnew i w (hj.1 ▸ hi)).elim
    · rw [Function.update_of_ne hip] at hi
      rw [Function.update_of_ne hjp] at hj
      exact hwf.unique hi hj
  reach := by
    intro i k' w hi j hj hlt
    by_cases hjp : j = p
    · rw [hjp, Function.update_self]; simp
    · rw [Function.update_of_ne hjp]
      by_cases hip : i = p
      · rw [hip, Function.update_self] at hi
        simp only [Option.some.injEq, Prod.mk.injEq] at hi
        obtain ⟨rfl, -⟩ := hi
        rw [hip] at hlt
        obtain ⟨k'', w', hk, -⟩ := hp.skipped j hj hlt
        simp [hk]
      · rw [Function.update_of_ne hip] at hi
        exact hwf.reach hi j hj hlt

/-- After the write exactly the new entry is added. -/
theorem holds_insert (hnone : t p = none) (k' : K) (v w : V) :
    Holds (Function.update t p (some (k, v))) k' w ↔ (k' = k ∧ w = v) ∨ Holds t k' w := by
  constructor
  · rintro ⟨i, hi⟩
    by_cases hip : i = p
    · rw [hip, Function.update_self] at hi
      simp only [Option.some.injEq, Prod.mk.injEq] at hi
      exact Or.inl ⟨hi.1.symm, hi.2.symm⟩
    · rw [Function.update_of_ne hip] at hi
      exact Or.inr ⟨i, hi⟩
  · rintro (⟨rfl, rfl⟩ | ⟨i, hi⟩)
    · exact ⟨p, by rw [Function.update_self]⟩
    · have hip : i ≠ p := by rintro rfl; rw [hnone] at hi; cases hi
      exact ⟨i, by rw [Function.update_of_ne hip]; exact hi⟩

end search

/-! ## Section 3: Backward-shift deletion -/

/-- The repair loop's state: `i` is the hole, `j` the last cell scanned.  The
    cells in `(i, j]` are occupied and sit where they can stay; an entry whose
    way from home crosses the hole has not been scanned yet. -/
structure Shift (n : Nat) (home : K → Nat) (t : Nat → Option (K × V)) (i j : Nat) : Prop where
  home_lt : ∀ k, home k < n
  hole_lt : i < n
  scan_lt : j < n
  lt : ∀ {p e}, t p = some e → p < n
  unique : ∀ {p q k v w}, t p = some (k, v) → t q = some (k, w) → p = q
  hole : t i = none
  reach : ∀ {p k v}, t p = some (k, v) → ∀ q, q < n →
    cdist n (home k) q < cdist n (home k) p → t q ≠ none ∨ (q = i ∧ cdist n i j < cdist n i p)

section deletion

variable {n : Nat} {home : K → Nat} {t : Nat → Option (K × V)} {i j : Nat}

/-- Emptying a cell of a well-formed table starts the repair there. -/
theorem WF.start (hwf : WF n home t) (hi : i < n) :
    Shift n home (Function.update t i none) i i where
  home_lt := hwf.home_lt
  hole_lt := hi
  scan_lt := hi
  lt := by
    intro p e hp
    by_cases hpi : p = i
    · rw [hpi]; exact hi
    · rw [Function.update_of_ne hpi] at hp; exact hwf.lt hp
  unique := by
    intro p q k v w hp hq
    by_cases hpi : p = i
    · rw [hpi, Function.update_self] at hp; cases hp
    by_cases hqi : q = i
    · rw [hqi, Function.update_self] at hq; cases hq
    rw [Function.update_of_ne hpi] at hp
    rw [Function.update_of_ne hqi] at hq
    exact hwf.unique hp hq
  hole := Function.update_self ..
  reach := by
    intro p k v hp q hq hlt
    have hpi : p ≠ i := by rintro rfl; rw [Function.update_self] at hp; cases hp
    rw [Function.update_of_ne hpi] at hp
    have hp' := hwf.lt hp
    -- only the emptied cell can be missing on a way from home
    by_cases hqi : q = i
    · refine Or.inr ⟨hqi, ?_⟩
      rw [cdist_self]
      exact cdist_pos hi hp' hpi
    · left
      rw [Function.update_of_ne hqi]
      exact hwf.reach hp q hq hlt

/-- The scan meets an empty cell: no way from home crosses the hole any more. -/
theorem Shift.finish (h : Shift n home t i j) (hend : t (next n j) = none) : WF n home t where
  home_lt := h.home_lt
  lt := h.lt
  unique := h.unique
  reach := by
    intro p k v hp q hq hlt
    rcases h.reach hp q hq hlt with hocc | ⟨rfl, hfar⟩
    · exact hocc
    · -- the way to `p` would also cross the empty cell after `j`
      exfalso
      have hplt := h.lt hp
      have hk := h.home_lt k
      have hnlt := next_lt h.scan_lt
      have hbound := cdist_lt hq hplt
      rcases cdist_next hq h.scan_lt with ⟨-, hfull⟩ | ⟨hnq, hstep⟩
      · omega
      have hpne : cdist n q p ≠ cdist n q (next n j) := by
        intro he
        rw [eq_of_cdist_eq hq hplt hnlt he, hend] at hp
        cases hp
      have hway : cdist n (home k) (next n j) < cdist n (home k) p := by
        have h₁ := cdist_add hk hq hplt
        have h₂ := cdist_add hk hq hnlt
        have h₃ := cdist_lt hk hplt
        omega
      rcases h.reach hp _ hnlt hway with hocc | ⟨heq, -⟩
      · exact hocc hend
      · exact hnq heq

/-- The scan skips an entry whose home lies in `(i, j]`: it can stay. -/
theorem Shift.skip (h : Shift n home t i j) {k : K} {v : V} (hscan : t (next n j) = some (k, v))
    (hhome : 0 < cdist n i (home k) ∧ cdist n i (home k) ≤ cdist n i (next n j)) :
    Shift n home t i (next n j) where
  home_lt := h.home_lt
  hole_lt := h.hole_lt
  scan_lt := next_lt h.scan_lt
  lt := h.lt
  unique := h.unique
  hole := h.hole
  reach := by
    intro p k' w hp q hq hlt
    rcases h.reach hp q hq hlt with hocc | ⟨rfl, hfar⟩
    · exact Or.inl hocc
    · refine Or.inr ⟨rfl, ?_⟩
      have hplt := h.lt hp
      have hk := h.home_lt k
      have hnlt := next_lt h.scan_lt
      have hne : next n j ≠ q := by intro he; rw [he, h.hole] at hscan; cases hscan
      rcases cdist_next hq h.scan_lt with ⟨he, -⟩ | ⟨-, hstep⟩
      · exact (hne he).elim
      by_cases hpj : p = next n j
      · -- the entry just scanned: its way from home starts after the hole
        exfalso
        rw [hpj, hscan] at hp
        simp only [Option.some.injEq, Prod.mk.injEq] at hp
        obtain ⟨rfl, -⟩ := hp
        rw [hpj] at hlt
        have h₁ := cdist_add hq hk hnlt
        have h₂ := cdist_add hq hk hq
        have h₃ := cdist_lt hk hnlt
        have h₄ := cdist_lt hq hnlt
        rw [cdist_self] at h₂
        omega
      · have hne' : cdist n q p ≠ cdist n q (next n j) :=
          fun he => hpj (eq_of_cdist_eq hq hplt hnlt he)
        omega

/-- The scan moves an entry into the hole, leaving a hole where it was. -/
theorem Shift.move (h : Shift n home t i j) {k : K} {v : V} (hscan : t (next n j) = some (k, v))
    (hhome : ¬ (0 < cdist n i (home k) ∧ cdist n i (home k) ≤ cdist n i (next n j))) :
    Shift n home (Function.update (Function.update t i (some (k, v))) (next n j) none)
      (next n j) (next n j) := by
  have hjlt := next_lt h.scan_lt
  have hilt := h.hole_lt
  have hij : next n j ≠ i := by intro he; rw [he, h.hole] at hscan; cases hscan
  -- what is stored after the move was stored before it, at `next n j` if now at `i`
  have hold : ∀ {p k' w}, Function.update (Function.update t i (some (k, v))) (next n j) none p
      = some (k', w) → (p = i ∧ k' = k ∧ w = v) ∨ (p ≠ i ∧ p ≠ next n j ∧ t p = some (k', w)) := by
    intro p k' w hp
    by_cases hpj : p = next n j
    · rw [hpj, Function.update_self] at hp; cases hp
    rw [Function.update_of_ne hpj] at hp
    by_cases hpi : p = i
    · rw [hpi, Function.update_self] at hp
      simp only [Option.some.injEq, Prod.mk.injEq] at hp
      exact Or.inl ⟨hpi, hp.1.symm, hp.2.symm⟩
    · rw [Function.update_of_ne hpi] at hp
      exact Or.inr ⟨hpi, hpj, hp⟩
  refine ⟨h.home_lt, hjlt, hjlt, ?_, ?_, Function.update_self .., ?_⟩
  · rintro p ⟨k', w⟩ hp
    rcases hold hp with ⟨rfl, -⟩ | ⟨-, -, hp⟩
    · exact hilt
    · exact h.lt hp
  · intro p q k' w w' hp hq
    rcases hold hp with ⟨rfl, rfl, rfl⟩ | ⟨-, hpj, hp'⟩ <;>
      rcases hold hq with ⟨rfl, hk, -⟩ | ⟨-, hqj, hq'⟩
    · rfl
    · exact (hqj (h.unique hq' hscan)).elim
    · subst hk
      exact (hpj (h.unique hp' hscan)).elim
    · exact h.unique hp' hq'
  -- `reach`: the old hole is filled, so only the new one can be met
  · intro p k' w hp q hq hlt
    by_cases hqj : q = next n j
    · -- the new hole: everything but the moved entry is still to be scanned
      refine Or.inr ⟨hqj, ?_⟩
      have hpj : p ≠ next n j := by rintro rfl; rw [Function.update_self] at hp; cases hp
      have hplt : p < n := by
        rcases hold hp with ⟨rfl, -⟩ | ⟨-, -, hp⟩
        · exact hilt
        · exact h.lt hp
      rw [cdist_self]
      exact cdist_pos hjlt hplt hpj
    left
    rw [Function.update_of_ne hqj]
    by_cases hqi : q = i
    · rw [hqi, Function.update_self]; simp
    rw [Function.update_of_ne hqi]
    rcases hold hp with ⟨rfl, rfl, rfl⟩ | ⟨-, -, hp⟩
    · -- the moved entry: its way to the hole is part of its old way
      have hk := h.home_lt k'
      have hway : cdist n (home k') q < cdist n (home k') (next n j) := by
        have h₁ := cdist_add hilt hk hjlt
        have h₂ := cdist_add hilt hk hilt
        have h₃ := cdist_lt hk hilt
        rw [cdist_self] at h₂
        omega
      rcases h.reach hscan q hq hway with hocc | ⟨hqi', -⟩
      · exact hocc
      · exact (hqi hqi').elim
    · rcases h.reach hp q hq hlt with hocc | ⟨hqi', -⟩
      · exact hocc
      · exact (hqi hqi').elim

/-- Moving an entry into the hole keeps what the table holds. -/
theorem Shift.holds_move (h : Shift n home t i j) {k : K} {v : V}
    (hscan : t (next n j) = some (k, v)) (k' : K) (w : V) :
    Holds (Function.update (Function.update t i (some (k, v))) (next n j) none) k' w ↔
      Holds t k' w := by
  have hij : i ≠ next n j := by rintro he; rw [← he, h.hole] at hscan; cases hscan
  constructor
  · rintro ⟨p, hp⟩
    by_cases hpj : p = next n j
    · rw [hpj, Function.update_self] at hp; cases hp
    rw [Function.update_of_ne hpj] at hp
    by_cases hpi : p = i
    · rw [hpi, Function.update_self] at hp
      exact ⟨next n j, by rw [hscan, hp]⟩
    · rw [Function.update_of_ne hpi] at hp
      exact ⟨p, hp⟩
  · rintro ⟨p, hp⟩
    by_cases hpj : p = next n j
    · rw [hpj, hscan] at hp
      exact ⟨i, by rw [Function.update_of_ne hij, Function.update_self, hp]⟩
    · have hpi : p ≠ i := by rintro rfl; rw [h.hole] at hp; cases hp
      exact ⟨p, by rw [Function.update_of_ne hpj, Function.update_of_ne hpi, hp]⟩

end deletion

end LinearProbing
