import Mathlib.Data.List.Basic

/-! # Binary search

    `std::lower_bound` over a random-access sequence, as the standard library
    runs it: a position and a shrinking count.  On a sequence that is
    partitioned by the predicate it returns the partition point. -/

namespace BinarySearch

section lower_bound

variable {α : Type} (lt : α → Bool)

/-- The search loop on the `count` elements from `first` on.  The first
    argument bounds the rounds; `count` of them are always enough. -/
def lowerBoundLoop (xs : List α) : Nat → Nat → Nat → Nat
  | 0, first, _ => first
  | fuel + 1, first, count =>
      if count = 0 then
        first
      else
        let half := count / 2
        if xs[first + half]?.any lt then
          lowerBoundLoop xs fuel (first + half + 1) (count - (half + 1))
        else
          lowerBoundLoop xs fuel first half

/-- The first position whose element is not `lt`. -/
def lowerBound (xs : List α) : Nat :=
  lowerBoundLoop lt xs xs.length 0 xs.length

/-- The loop narrows a window `[first, first + count]` that keeps the first
    position `p` whose element is not `lt` inside it. -/
theorem lowerBoundLoop_eq (xs : List α) (p : Nat)
    (hbelow : ∀ i x, xs[i]? = some x → i < p → lt x = true)
    (habove : ∀ i x, xs[i]? = some x → p ≤ i → lt x = false) :
    ∀ fuel first count, count ≤ fuel → first ≤ p → p ≤ first + count →
      first + count ≤ xs.length → lowerBoundLoop lt xs fuel first count = p := by
  intro fuel
  induction fuel with
  | zero =>
    intro first count hfuel hlo hhi _
    simp only [lowerBoundLoop]
    omega
  | succ fuel ih =>
    intro first count hfuel hlo hhi hlen
    simp only [lowerBoundLoop]
    by_cases hc : count = 0
    · rw [if_pos hc]; omega
    · rw [if_neg hc]
      have hlt : first + count / 2 < xs.length := by omega
      have hget : xs[first + count / 2]? = some xs[first + count / 2] :=
        List.getElem?_eq_getElem hlt
      by_cases hmid : first + count / 2 < p
      · have hb := hbelow _ _ hget hmid
        rw [if_pos (by rw [hget]; simpa using hb)]
        exact ih _ _ (by omega) (by omega) (by omega) (by omega)
      · have ha := habove _ _ hget (by omega)
        rw [if_neg (by rw [hget]; simp [ha])]
        exact ih _ _ (by omega) (by omega) (by omega) (by omega)

/-- On a partitioned sequence the search returns the partition point. -/
theorem lowerBound_append (ys zs : List α) (hys : ∀ y ∈ ys, lt y = true)
    (hzs : ∀ z ∈ zs, lt z = false) : lowerBound lt (ys ++ zs) = ys.length := by
  apply lowerBoundLoop_eq lt (ys ++ zs) ys.length
  · intro i x hx hi
    rw [List.getElem?_append_left hi] at hx
    exact hys x (List.mem_of_getElem? hx)
  · intro i x hx hi
    rw [List.getElem?_append_right hi] at hx
    exact hzs x (List.mem_of_getElem? hx)
  all_goals simp

end lower_bound

end BinarySearch
