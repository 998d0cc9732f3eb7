import Mathlib.Data.List.Basic
import Mathlib.Data.Nat.ModEq

/-! # Circular buffers

    Cells used in a circle, between a read index and a write index.  `Holds`
    says which queue they stand for; one cell is always left free, so that the
    two indices meet only when the queue is empty.  A value is added in two
    moves, first the cell and then the index, and taken in two, first read and
    then passed; each move has its own lemma. -/

namespace CircularBuffer

variable {T : Type}

/-! ## Section 1: Indices on the circle -/

theorem add_mod_cases {n a b : Nat} (ha : a < n) (hb : b ≤ n) :
    (a + b < n ∧ (a + b) % n = a + b) ∨ (n ≤ a + b ∧ (a + b) % n = a + b - n) := by
  by_cases h : a + b < n
  · exact Or.inl ⟨h, Nat.mod_eq_of_lt h⟩
  · refine Or.inr ⟨by omega, ?_⟩
    rw [Nat.mod_eq_sub_mod (by omega), Nat.mod_eq_of_lt (by omega)]

/-- Less than a turn apart, indices differ. -/
theorem add_mod_injective {n a i j : Nat} (ha : a < n) (hi : i < n) (hj : j < n)
    (h : (a + i) % n = (a + j) % n) : i = j := by
  rcases add_mod_cases ha (Nat.le_of_lt hi) with ⟨_, h₁⟩ | ⟨_, h₁⟩ <;>
    rcases add_mod_cases ha (Nat.le_of_lt hj) with ⟨_, h₂⟩ | ⟨_, h₂⟩ <;> omega

/-! ## Section 2: The queue a buffer holds -/

/-- The cells from `read` up to `write` hold the queue `q`.  Nothing is said
    of the others. -/
structure Holds (cells : List T) (read write : Nat) (q : List T) : Prop where
  read_lt : read < cells.length
  length_lt : q.length < cells.length
  write_eq : write = (read + q.length) % cells.length
  cell : ∀ i v, q[i]? = some v → cells[(read + i) % cells.length]? = some v

section holds

variable {cells : List T} {read write : Nat} {q : List T} {v : T}

theorem holds_nil (h : 0 < cells.length) : Holds cells 0 0 [] :=
  ⟨h, h, by simp, by simp⟩

theorem Holds.write_lt (h : Holds cells read write q) : write < cells.length := by
  rw [h.write_eq]
  exact Nat.mod_lt _ (Nat.lt_of_le_of_lt (Nat.zero_le _) h.read_lt)

/-- The cell at the write index is free. -/
theorem Holds.free (h : Holds cells read write q) {i : Nat} (hi : i < q.length) :
    (read + i) % cells.length ≠ write := by
  rw [h.write_eq]
  intro heq
  have := add_mod_injective h.read_lt (Nat.lt_trans hi h.length_lt) h.length_lt heq
  omega

theorem Holds.empty_iff (h : Holds cells read write q) : read = write ↔ q = [] := by
  have hread := h.read_lt
  have hlen := h.length_lt
  rw [← List.length_eq_zero_iff, h.write_eq]
  rcases add_mod_cases hread (Nat.le_of_lt hlen) with ⟨_, heq⟩ | ⟨_, heq⟩ <;> omega

/-- The write index is next to the read index when all other cells are used. -/
theorem Holds.full_iff (h : Holds cells read write q) :
    (write + 1) % cells.length = read ↔ q.length + 1 = cells.length := by
  have hread := h.read_lt
  have hlen := h.length_lt
  rw [h.write_eq, Nat.mod_add_mod, Nat.add_assoc]
  rcases add_mod_cases hread (show q.length + 1 ≤ _ from hlen) with ⟨_, heq⟩ | ⟨_, heq⟩ <;> omega

theorem Holds.count (h : Holds cells read write q) :
    (q.length : Int) = ((write : Int) - read) % cells.length := by
  have hlen := h.length_lt
  rw [h.write_eq]
  rcases add_mod_cases h.read_lt (Nat.le_of_lt hlen) with ⟨_, heq⟩ | ⟨_, heq⟩ <;> rw [heq]
  · have : ((read + q.length : Nat) : Int) - read = q.length := by omega
    rw [this]
    exact (Int.emod_eq_of_lt (by omega) (by omega)).symm
  · have : ((read + q.length - cells.length : Nat) : Int) - read =
        q.length + (-1) * cells.length := by omega
    rw [this, Int.add_mul_emod_self_right]
    exact (Int.emod_eq_of_lt (by omega) (by omega)).symm

/-! ## Section 3: Adding and taking -/

/-- Filling the free cell changes nothing yet. -/
theorem Holds.fill (h : Holds cells read write q) (v : T) :
    Holds (cells.set write v) read write q where
  read_lt := by simpa using h.read_lt
  length_lt := by simpa using h.length_lt
  write_eq := by simpa using h.write_eq
  cell := fun i w hi => by
    have hlt : i < q.length := (List.getElem?_eq_some_iff.mp hi).1
    rw [List.length_set, List.getElem?_set_ne (h.free hlt).symm]
    exact h.cell i w hi

/-- Once the index moves on, the filled cell is the end of the queue. -/
theorem Holds.publish (h : Holds cells read write q) (hv : cells[write]? = some v)
    (hroom : q.length + 1 < cells.length) :
    Holds cells read ((write + 1) % cells.length) (q ++ [v]) where
  read_lt := h.read_lt
  length_lt := by simpa using hroom
  write_eq := by
    rw [h.write_eq, Nat.mod_add_mod, List.length_append, List.length_singleton, Nat.add_assoc]
  cell := fun i w hi => by
    by_cases hlt : i < q.length
    · rw [List.getElem?_append_left hlt] at hi
      exact h.cell i w hi
    · rw [List.getElem?_append_right (Nat.not_lt.mp hlt), List.getElem?_singleton] at hi
      split at hi
      · have hi' : i = q.length := by omega
        rw [hi', ← h.write_eq, hv, hi]
      · cases hi

/-- What the read index points at is the front of the queue. -/
theorem Holds.front (h : Holds cells read write (v :: q)) : cells[read]? = some v := by
  have := h.cell 0 v rfl
  rwa [Nat.add_zero, Nat.mod_eq_of_lt h.read_lt] at this

/-- Once the read index moves on, the front is gone. -/
theorem Holds.pass (h : Holds cells read write (v :: q)) :
    Holds cells ((read + 1) % cells.length) write q where
  read_lt := Nat.mod_lt _ (Nat.lt_of_le_of_lt (Nat.zero_le _) h.read_lt)
  length_lt := Nat.lt_of_succ_lt h.length_lt
  write_eq := by
    rw [h.write_eq, Nat.mod_add_mod, List.length_cons, Nat.add_assoc, Nat.add_comm 1]
  cell := fun i w hi => by
    rw [Nat.mod_add_mod, Nat.add_assoc, Nat.add_comm 1]
    exact h.cell (i + 1) w hi

end holds

end CircularBuffer
