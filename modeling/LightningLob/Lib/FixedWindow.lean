import Mathlib.Data.List.Basic

/-! # Fixed-window counters

    A limiter that counts the events of the current window and starts a new
    window, of the same width, at the first event past its end.  Two windows
    never overlap, so an interval as wide as a window meets at most two of
    them, and holds at most twice the limit. -/

namespace FixedWindow

/-- How many of the times are in the interval of the given width from `t`. -/
def countFrom (width : Nat) (times : List Nat) (t : Nat) : Nat :=
  times.countP fun u => t ≤ u ∧ u < t + width

section counting

variable {width : Nat} {times us : List Nat} {t : Nat}

theorem countFrom_append :
    countFrom width (times ++ us) t = countFrom width times t + countFrom width us t :=
  List.countP_append

theorem countFrom_le_length : countFrom width times t ≤ times.length := List.countP_le_length

theorem countFrom_eq_zero (h : ∀ u ∈ times, u < t) : countFrom width times t = 0 := by
  refine List.countP_eq_zero.mpr fun u hu => ?_
  have hlt := h u hu
  simp only [decide_eq_true_eq]
  omega

end counting

/-- The admitted times of a limiter whose window starts at `start`: the ones of
    the window are counted, and the earlier ones were admitted in windows that
    ended by then. -/
structure Log (width limit start count : Nat) (earlier current : List Nat) : Prop where
  count_eq : current.length = count
  count_le : count ≤ limit
  earlier_lt : ∀ u ∈ earlier, u < start
  current_in : ∀ u ∈ current, start ≤ u ∧ u < start + width
  twice : ∀ t, countFrom width earlier t ≤ 2 * limit
  /-- An interval that reaches into the window meets one earlier window. -/
  once : ∀ t, start < t + width → countFrom width earlier t ≤ limit

variable {width limit start count : Nat} {earlier current : List Nat}

theorem Log.empty (width limit start : Nat) : Log width limit start 0 [] [] :=
  ⟨rfl, Nat.zero_le _, by simp, by simp, fun _ => Nat.zero_le _, fun _ _ => Nat.zero_le _⟩

/-- At most the limit in the window, at most twice the limit in any interval. -/
theorem Log.bound (h : Log width limit start count earlier current) (t : Nat) :
    countFrom width (earlier ++ current) t ≤ 2 * limit := by
  rw [countFrom_append]
  have hcurrent : countFrom width current t ≤ limit :=
    Nat.le_trans countFrom_le_length (h.count_eq ▸ h.count_le)
  by_cases hreach : start < t + width
  · have honce := h.once t hreach
    omega
  · -- the interval ends before the window starts
    have hnone : countFrom width current t = 0 := by
      refine List.countP_eq_zero.mpr fun u hu => ?_
      have hin := h.current_in u hu
      simp only [decide_eq_true_eq]
      omega
    have htwice := h.twice t
    omega

/-- An event is admitted in the window. -/
theorem Log.admit (h : Log width limit start count earlier current) {u : Nat} (hstart : start ≤ u)
    (hend : u < start + width) (hroom : count < limit) :
    Log width limit start (count + 1) earlier (current ++ [u]) where
  count_eq := by rw [List.length_append, h.count_eq, List.length_singleton]
  count_le := hroom
  earlier_lt := h.earlier_lt
  current_in := by
    intro v hv
    rcases List.mem_append.mp hv with hv | hv
    · exact h.current_in v hv
    · obtain rfl := List.mem_singleton.mp hv
      exact ⟨hstart, hend⟩
  twice := h.twice
  once := h.once

/-- A new window starts past the end of the last. -/
theorem Log.renew (h : Log width limit start count earlier current) {u : Nat}
    (hu : start + width ≤ u) : Log width limit u 0 (earlier ++ current) [] where
  count_eq := rfl
  count_le := Nat.zero_le _
  earlier_lt := by
    intro v hv
    rcases List.mem_append.mp hv with hv | hv
    · have hlt := h.earlier_lt v hv
      omega
    · have hin := h.current_in v hv
      omega
  current_in := by simp
  twice := h.bound
  once := by
    intro t ht
    -- what was earlier before is too old for the interval now
    rw [countFrom_append, countFrom_eq_zero fun v hv => by
      have hlt := h.earlier_lt v hv
      omega, Nat.zero_add]
    exact Nat.le_trans countFrom_le_length (h.count_eq ▸ h.count_le)

end FixedWindow
