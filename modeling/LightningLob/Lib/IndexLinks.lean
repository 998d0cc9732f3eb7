import Mathlib.Data.List.Basic
import Mathlib.Logic.Function.Basic

/-! # Index-linked lists

    Singly linked lists threaded through a store of cells by an index function
    `f`: `Links f l` says that following `f` from the first cell of `l` visits
    the cells of `l` in order and then stops.  A doubly linked queue is two
    such lists, one of them reversed. -/

namespace IndexLinks

variable {ι : Type}

/-- `f` threads the cells of the list in order. -/
def Links (f : ι → Option ι) : List ι → Prop
  | [] => True
  | x :: xs => f x = xs.head? ∧ Links f xs

/-- Only the links of the listed cells matter. -/
theorem Links.congr {f g : ι → Option ι} {l : List ι} (h : Links f l)
    (hfg : ∀ x ∈ l, g x = f x) : Links g l := by
  induction l with
  | nil => trivial
  | cons x xs ih =>
    refine ⟨(hfg x (by simp)).trans h.1, ih h.2 ?_⟩
    intro y hy
    exact hfg y (by simp [hy])

/-- The link of a cell in the middle leads to the next one. -/
theorem Links.at_middle {f : ι → Option ι} {a b : List ι} {x : ι} (h : Links f (a ++ x :: b)) :
    f x = b.head? := by
  induction a with
  | nil => exact h.1
  | cons y a ih => exact ih h.2

/-- Follow the links for at most `n` cells. -/
def follow (f : ι → Option ι) : Nat → Option ι → List ι
  | 0, _ => []
  | _ + 1, none => []
  | n + 1, some x => x :: follow f n (f x)

/-- Following the links lists the cells. -/
theorem Links.follow_eq {f : ι → Option ι} {l : List ι} (h : Links f l) {n : Nat}
    (hn : l.length ≤ n) : follow f n l.head? = l := by
  induction l generalizing n with
  | nil => cases n <;> rfl
  | cons x xs ih =>
    cases n with
    | zero => simp at hn
    | succ n =>
      simp only [List.head?_cons, follow, h.1]
      rw [ih h.2 (by simpa using hn)]

variable [DecidableEq ι]

/-- Redirect the link of a cell, if there is such a cell. -/
def relink (f : ι → Option ι) (cell v : Option ι) : ι → Option ι :=
  match cell with
  | none => f
  | some x => Function.update f x v

theorem relink_of_ne {f : ι → Option ι} {cell v : Option ι} {y : ι} (h : cell ≠ some y) :
    relink f cell v y = f y := by
  cases cell with
  | none => rfl
  | some x => exact Function.update_of_ne (fun he => h (by rw [he])) _ _

/-- Taking a cell out by redirecting its predecessor past it. -/
theorem Links.remove {f : ι → Option ι} {a b : List ι} {x : ι} (h : Links f (a ++ x :: b))
    (hnd : (a ++ x :: b).Nodup) : Links (relink f a.getLast? b.head?) (a ++ b) := by
  induction a with
  | nil => exact h.2
  | cons y a ih =>
    have hy : y ∉ a ++ x :: b := (List.nodup_cons.mp hnd).1
    have hnd' := (List.nodup_cons.mp hnd).2
    cases a with
    | nil =>
      -- `y` is the predecessor: the cells behind `x` keep their links
      refine ⟨by simp [relink], ?_⟩
      refine Links.congr h.2.2 ?_
      intro z hz
      apply relink_of_ne
      rintro he
      simp only [List.getLast?_singleton, Option.some.injEq] at he
      exact hy (List.mem_cons_of_mem x (he ▸ hz))
    | cons z a =>
      have hlast : (y :: z :: a).getLast? = (z :: a).getLast? := by simp [List.getLast?_cons_cons]
      rw [hlast]
      -- the cell to redirect is further on, so `y` keeps its link
      refine ⟨?_, ih h.2 hnd'⟩
      rw [relink_of_ne, h.1]
      · simp
      · intro he
        exact hy (List.mem_append_left _ (List.mem_of_getLast? he))

/-- Appending a cell by linking it after the last one. -/
theorem Links.append {f : ι → Option ι} {l : List ι} {x : ι} (h : Links f l) (hnd : l.Nodup)
    (hx : x ∉ l) (hend : f x = none) : Links (relink f l.getLast? (some x)) (l ++ [x]) := by
  induction l with
  | nil => exact ⟨hend, trivial⟩
  | cons y l ih =>
    simp only [List.mem_cons, not_or] at hx
    have hy := (List.nodup_cons.mp hnd).1
    have hnd' := (List.nodup_cons.mp hnd).2
    cases l with
    | nil =>
      refine ⟨by simp [relink], ?_, trivial⟩
      rw [relink_of_ne, hend]
      · rfl
      · simpa using Ne.symm hx.1
    | cons z l =>
      have hlast : (y :: z :: l).getLast? = (z :: l).getLast? := by simp [List.getLast?_cons_cons]
      rw [hlast]
      refine ⟨?_, ih h.2 hnd' hx.2⟩
      rw [relink_of_ne, h.1]
      · simp
      · intro he
        exact hy (List.mem_of_getLast? he)

end IndexLinks
