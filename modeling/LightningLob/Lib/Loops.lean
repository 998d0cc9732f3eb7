import Mathlib.Data.List.Basic

/-! # Runs of a loop, iteration by iteration

    A loop is given by when its condition fails (`Done`) and by what one
    iteration of its body can do (`Iter`).  A finite run lists its iterations,
    so that a loop terminates from a state if it has a run from there, and what
    each iteration achieves can be said of the list. -/

namespace Loops

variable {σ ι : Type}

/-- One iteration: the state before, what it did, whether it left the loop, and
    the state after. -/
structure Round (σ ι : Type) where
  before : σ
  info : ι
  left : Bool
  after : σ

/-- The finite runs of a loop from a state, with their iterations. -/
inductive Runs (Done : σ → Prop) (Iter : Round σ ι → Prop) : σ → List (Round σ ι) → σ → Prop where
  | done {s : σ} : Done s → Runs Done Iter s [] s
  | leave {r : Round σ ι} : Iter r → r.left = true → Runs Done Iter r.before [r] r.after
  | next {r : Round σ ι} {rounds : List (Round σ ι)} {s : σ} : Iter r → r.left = false →
      Runs Done Iter r.after rounds s → Runs Done Iter r.before (r :: rounds) s

/-- Every iteration advances the loop or ends it, and every one but the last
    advances it. -/
structure Progress (Advances Ends : Round σ ι → Prop) (rounds : List (Round σ ι)) : Prop where
  each : ∀ r ∈ rounds, Advances r ∨ Ends r
  before_last : ∀ r ∈ rounds.dropLast, Advances r

section rules

variable {Done : σ → Prop} {Iter Advances Ends : Round σ ι → Prop} {r : Round σ ι}
  {rounds : List (Round σ ι)} {s s' : σ}

theorem Progress.nil : Progress Advances Ends ([] : List (Round σ ι)) :=
  ⟨by simp, by simp⟩

theorem Progress.single (h : Advances r ∨ Ends r) : Progress Advances Ends [r] :=
  ⟨by simpa using h, by simp⟩

theorem Progress.cons (hr : Advances r) (h : Progress Advances Ends rounds) :
    Progress Advances Ends (r :: rounds) := by
  constructor
  · intro x hx
    rcases List.mem_cons.mp hx with rfl | hx
    · exact Or.inl hr
    · exact h.each x hx
  · intro x hx
    cases rounds with
    | nil => simp at hx
    | cons y rounds =>
      rw [List.dropLast_cons_cons, List.mem_cons] at hx
      rcases hx with rfl | hx
      · exact hr
      · exact h.before_last x hx

/-- A fuelled function that follows the loop computes the end of its runs, with
    any fuel above the number of iterations after which the loop goes on. -/
theorem Runs.exec_eq {f : Nat → σ → Option σ} (h : Runs Done Iter s rounds s')
    (hdone : ∀ s n, Done s → f (n + 1) s = some s)
    (hiter : ∀ r ∈ rounds, ∀ n, Iter r →
      f (n + 1) r.before = if r.left then some r.after else f n r.after) {fuel : Nat}
    (hfuel : rounds.countP (fun r => !r.left) < fuel) : f fuel s = some s' := by
  -- induction on the run; each iteration that goes on uses up one unit of fuel
  induction h generalizing fuel with
  | done hd =>
    obtain ⟨n, rfl⟩ : ∃ n, fuel = n + 1 := ⟨fuel - 1, by omega⟩
    exact hdone _ n hd
  | leave hr hleft =>
    obtain ⟨n, rfl⟩ : ∃ n, fuel = n + 1 := ⟨fuel - 1, by omega⟩
    rw [hiter _ (by simp) n hr, hleft]
    rfl
  | next hr hleft _ ih =>
    obtain ⟨n, rfl⟩ : ∃ n, fuel = n + 1 := ⟨fuel - 1, by omega⟩
    rw [hiter _ (by simp) n hr, hleft]
    rw [List.countP_cons, hleft] at hfuel
    exact ih (fun x hx => hiter x (by simp [hx])) (by simpa using hfuel)

end rules

end Loops
