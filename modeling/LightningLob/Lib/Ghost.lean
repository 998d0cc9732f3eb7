import Mathlib.Data.Option.Basic

/-! # Programs with a ghost state

    An instrumented program carries a ghost state beside the values of the
    plain one: it may record what happens there, or refuse what the plain
    program would let pass.  `Follows` says that it does not refuse, and that
    the ghost state ends in a given relation to the result; the rules follow
    the structure of the two programs. -/

namespace Ghost

variable {G α β : Type}

/-- Whatever the plain program `y` returns, the instrumented program `x`
    returns as well from the ghost state `g`, leaving one related to it. -/
def Follows (I : G → α → Prop) (g : G) (x : StateT G Option α) (y : Option α) : Prop :=
  ∀ a, y = some a → ∃ g', x g = some (a, g') ∧ I g' a

section rules

variable {I : G → α → Prop} {J : G → β → Prop} {g : G} {x : StateT G Option α} {y y' : Option α}
  {f : α → StateT G Option β} {h : α → Option β} {a : α}

theorem Follows.pure (hI : I g a) : Follows I g (pure a) (pure a) := by
  intro b hb
  cases hb
  exact ⟨g, rfl, hI⟩

/-- A step that does not touch the ghost state, under the same or another name. -/
theorem Follows.lift (heq : y' = y) (hI : ∀ a, y = some a → I g a) :
    Follows I g (liftM y' : StateT G Option α) y := by
  intro a ha
  refine ⟨g, ?_, hI a ha⟩
  rw [heq, ha]
  rfl

theorem Follows.bind (hx : Follows I g x y)
    (hf : ∀ a g', y = some a → I g' a → Follows J g' (f a) (h a)) :
    Follows J g (x >>= f) (y >>= h) := by
  intro b hb
  obtain ⟨a, ha, hb⟩ := Option.bind_eq_some_iff.mp hb
  obtain ⟨g₁, hx₁, hI⟩ := hx a ha
  obtain ⟨g₂, hf₂, hJ⟩ := hf a g₁ ha hI b hb
  refine ⟨g₂, ?_, hJ⟩
  show (x g).bind (fun p => f p.1 p.2) = some (b, g₂)
  rw [hx₁]
  exact hf₂

/-- A step that does not touch the ghost state, and what comes after it. -/
theorem Follows.lift_bind (heq : y' = y) (hf : ∀ a, y = some a → Follows J g (f a) (h a)) :
    Follows J g ((liftM y' : StateT G Option α) >>= f) (y >>= h) :=
  .bind (I := fun g' _ => g' = g) (.lift heq fun _ _ => rfl) fun a _ ha hg => hg ▸ hf a ha

/-- A check that only the instrumented program makes, and that passes. -/
theorem Follows.check {c : Option Unit} {z : StateT G Option β} {w : Option β} (hc : c = some ())
    (hz : Follows J g z w) :
    Follows J g ((liftM c : StateT G Option Unit) >>= fun _ => z) w := by
  intro b hb
  rw [hc]
  exact hz b hb

/-- The plain program never returns. -/
theorem Follows.none : Follows I g x none := fun _ ha => by cases ha

end rules

/-- The instrumented program `x` is the plain program `y`, and leaves the ghost
    state alone. -/
def Same (x : StateT G Option α) (y : Option α) : Prop := ∀ g, x g = y.map fun a => (a, g)

section same_rules

variable {x : StateT G Option α} {y : Option α} {f : α → StateT G Option β} {h : α → Option β}

theorem Same.none : Same (fun _ => none : StateT G Option α) none := fun _ => rfl

theorem Same.pure (a : α) : Same (pure a : StateT G Option α) (some a) := fun _ => rfl

theorem Same.lift (y : Option α) : Same (liftM y : StateT G Option α) y := by
  intro g
  cases y <;> rfl

theorem Same.bind (hx : Same x y) (hf : ∀ a, Same (f a) (h a)) : Same (x >>= f) (y >>= h) := by
  intro g
  show (x g).bind (fun p => f p.1 p.2) = _
  rw [hx g]
  cases y with
  | none => rfl
  | some a => exact hf a g

theorem Same.check {c : Option Unit} {z : StateT G Option β} {w : Option β} (hc : c = some ())
    (hz : Same z w) : Same ((liftM c : StateT G Option Unit) >>= fun _ => z) w := by
  intro g
  rw [hc]
  exact hz g

end same_rules

end Ghost
