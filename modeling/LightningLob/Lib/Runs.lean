import Mathlib.Data.List.Forall2
import Mathlib.Data.Option.Basic

/-! # Runs of a step function

    A component that takes one input at a time: a step function on states that
    answers with an output, or faults (`none`).  Reachable states and whole
    runs, the invariant rule, and refinement of a total specification. -/

namespace Runs

variable {σ τ α β ω ν : Type}

/-! ## Section 1: Reachable states -/

/-- States reachable from an initial one by inputs satisfying `ok`. -/
inductive Reachable (step : σ → α → Option (ω × σ)) (init : σ → Prop) (ok : α → Prop) :
    σ → Prop where
  | init : ∀ {s}, init s → Reachable step init ok s
  | step : ∀ {s s'} (a : α) (w : ω), Reachable step init ok s → ok a →
      step s a = some (w, s') → Reachable step init ok s'

/-- **Invariant rule**: holds initially and kept by every step, so holds in
    every reachable state. -/
theorem Reachable.invariant {step : σ → α → Option (ω × σ)} {init : σ → Prop} {ok : α → Prop}
    {P : σ → Prop} (hinit : ∀ s, init s → P s)
    (hstep : ∀ s a w s', P s → ok a → step s a = some (w, s') → P s')
    {s : σ} (h : Reachable step init ok s) : P s := by
  induction h with
  | init hi => exact hinit _ hi
  | step a w _ hok hs ih => exact hstep _ a w _ ih hok hs

/-! ## Section 2: Whole runs -/

/-- Feed the inputs one after another, collecting the outputs. -/
def exec (step : σ → α → Option (ω × σ)) : σ → List α → Option (List ω × σ)
  | s, [] => some ([], s)
  | s, a :: as => do
      let (w, s) ← step s a
      let (ws, s) ← exec step s as
      pure (w :: ws, s)

/-- A run of one or more inputs is a step and then a run. -/
theorem exec_cons_eq_some {step : σ → α → Option (ω × σ)} {s s' : σ} {a : α} {as : List α}
    {out : List ω} : exec step s (a :: as) = some (out, s') ↔
      ∃ w s₁ ws, step s a = some (w, s₁) ∧ exec step s₁ as = some (ws, s') ∧ out = w :: ws := by
  simp only [exec, Option.bind_eq_bind, Option.bind_eq_some_iff, Prod.exists, Option.pure_def,
    Option.some.injEq, Prod.mk.injEq]
  constructor
  · rintro ⟨w, s₁, h₁, ws, s₂, h₂, rfl, rfl⟩
    exact ⟨w, s₁, ws, h₁, h₂, rfl⟩
  · rintro ⟨w, s₁, ws, h₁, h₂, rfl⟩
    exact ⟨w, s₁, h₁, ws, s', h₂, rfl, rfl⟩

/-- A run goes on from where another ended. -/
theorem exec_append {step : σ → α → Option (ω × σ)} {bs : List α} {vs : List ω} {s' : σ} :
    ∀ {as : List α} {s s₁ : σ} {ws : List ω}, exec step s as = some (ws, s₁) →
      exec step s₁ bs = some (vs, s') → exec step s (as ++ bs) = some (ws ++ vs, s') := by
  intro as
  induction as with
  | nil =>
    intro s s₁ ws h h'
    obtain ⟨rfl, rfl⟩ := Prod.mk.inj (Option.some.inj h)
    exact h'
  | cons a as ih =>
    intro s s₁ ws h h'
    obtain ⟨w, s₂, ws', hstep, hrest, rfl⟩ := exec_cons_eq_some.mp h
    exact exec_cons_eq_some.mpr ⟨w, s₂, ws' ++ vs, hstep, ih hrest h', rfl⟩

/-- A run answers every input. -/
theorem length_of_exec {step : σ → α → Option (ω × σ)} : ∀ {as : List α} {s s' : σ} {ws : List ω},
    exec step s as = some (ws, s') → ws.length = as.length := by
  intro as
  induction as with
  | nil =>
    intro s s' ws h
    obtain ⟨rfl, -⟩ := Prod.mk.inj (Option.some.inj h)
    rfl
  | cons a as ih =>
    intro s s' ws h
    obtain ⟨w, s₁, ws', -, hrest, rfl⟩ := exec_cons_eq_some.mp h
    rw [List.length_cons, List.length_cons, ih hrest]

/-- Inputs may be translated before the run or in it. -/
theorem exec_map {step : σ → β → Option (ω × σ)} (f : α → β) : ∀ (as : List α) (s : σ),
    exec step s (as.map f) = exec (fun s a => step s (f a)) s as := by
  intro as
  induction as with
  | nil => intro s; rfl
  | cons a as ih =>
    intro s
    simp only [List.map_cons, exec, ih]

/-- A check on what a run ends with. -/
theorem exec_any {step : σ → α → Option (ω × σ)} {P : List ω → σ → Prop}
    [∀ ws s, Decidable (P ws s)] {s s' : σ} {as : List α} {ws : List ω}
    (hrun : exec step s as = some (ws, s'))
    (h : ((exec step s as).any fun x => P x.1 x.2) = true) : P ws s' := by
  rw [hrun] at h
  simpa using h

/-- A run that gets through and ends with what is checked. -/
theorem exists_exec_of_any (step : σ → α → Option (ω × σ)) (s : σ) (as : List α)
    (P : List ω → σ → Prop) [∀ ws s, Decidable (P ws s)]
    (h : ((exec step s as).any fun x => P x.1 x.2) = true) :
    ∃ ws s', exec step s as = some (ws, s') ∧ P ws s' := by
  obtain ⟨⟨ws, s'⟩, hrun, hends⟩ := Option.any_eq_true _ _ |>.mp h
  exact ⟨ws, s', hrun, of_decide_eq_true hends⟩

/-- A run from a reachable state ends in one. -/
theorem Reachable.of_exec {step : σ → α → Option (ω × σ)} {init : σ → Prop} {ok : α → Prop} :
    ∀ (as : List α) {s s' : σ} {ws : List ω}, Reachable step init ok s → (∀ a ∈ as, ok a) →
      exec step s as = some (ws, s') → Reachable step init ok s' := by
  intro as
  induction as with
  | nil =>
    intro s s' ws hs _ hrun
    obtain ⟨-, rfl⟩ := Prod.mk.inj (Option.some.inj hrun)
    exact hs
  | cons a as ih =>
    intro s s' ws hs hok hrun
    obtain ⟨w, s₁, ws', hstep, hrest, -⟩ := exec_cons_eq_some.mp hrun
    exact ih (.step a w hs (hok a (by simp)) hstep) (fun b hb => hok b (by simp [hb])) hrest

/-- Every step of the run is taken from a state in which `ok` allows it. -/
def Along (step : σ → α → Option (ω × σ)) (ok : σ → α → Prop) : σ → List α → Prop
  | _, [] => True
  | s, a :: as => ok s a ∧ ∀ w s', step s a = some (w, s') → Along step ok s' as

instance Along.decidable (step : σ → α → Option (ω × σ)) (ok : σ → α → Prop)
    [∀ s a, Decidable (ok s a)] : ∀ s as, Decidable (Along step ok s as)
  | _, [] => isTrue trivial
  | s, a :: as =>
      have : Decidable (∀ w s', step s a = some (w, s') → Along step ok s' as) :=
        match h : step s a with
        | none => isTrue (by simp)
        | some (w, s') =>
            have := Along.decidable step ok s' as
            decidable_of_iff (Along step ok s' as) (by simp)
      inferInstanceAs (Decidable (ok s a ∧ _))

/-- **Guarded history rule**: if every allowed step from a state of the
    invariant answers and keeps it for the history with the step added, every
    run of allowed steps does. -/
theorem exec_along {step : σ → α → Option (ω × σ)} {P : List (α × ω) → σ → Prop}
    {ok : σ → α → Prop}
    (hstep : ∀ h s a, P h s → ok s a → ∃ w s', step s a = some (w, s') ∧ P (h ++ [(a, w)]) s') :
    ∀ (as : List α) (h : List (α × ω)) (s : σ), P h s → Along step ok s as →
      ∃ ws s', exec step s as = some (ws, s') ∧ P (h ++ as.zip ws) s' := by
  intro as
  induction as with
  | nil => intro h s hP _; exact ⟨[], s, rfl, by simpa using hP⟩
  | cons a as ih =>
    intro h s hP hok
    obtain ⟨w, s₁, hs₁, hP₁⟩ := hstep h s a hP hok.1
    obtain ⟨ws, s', hs', hP'⟩ := ih _ s₁ hP₁ (hok.2 w s₁ hs₁)
    exact ⟨w :: ws, s', exec_cons_eq_some.mpr ⟨w, s₁, ws, hs₁, hs', rfl⟩, by simpa using hP'⟩

/-- A condition that the inputs meet in every state holds along every run. -/
theorem along_of_forall {step : σ → α → Option (ω × σ)} {ok : σ → α → Prop} :
    ∀ (as : List α) (s : σ), (∀ a ∈ as, ∀ s, ok s a) → Along step ok s as := by
  intro as
  induction as with
  | nil => intro s _; trivial
  | cons a as ih =>
    intro s hok
    exact ⟨hok a (by simp) s, fun w s' _ => ih s' fun b hb => hok b (by simp [hb])⟩

/-- A condition on the inputs alone can be added to one along the run. -/
theorem Along.and_forall {step : σ → α → Option (ω × σ)} {ok : σ → α → Prop} {ok₁ : α → Prop} :
    ∀ {as : List α} {s : σ}, Along step ok s as → (∀ a ∈ as, ok₁ a) →
      Along step (fun s a => ok₁ a ∧ ok s a) s as := by
  intro as
  induction as with
  | nil => intro s _ _; trivial
  | cons a as ih =>
    intro s h hall
    exact ⟨⟨hall a (by simp), h.1⟩,
      fun w s' hs => ih (h.2 w s' hs) fun b hb => hall b (by simp [hb])⟩

/-- **History rule**: if every step from a state of the invariant answers and
    keeps it for the history with the step added, every run does. -/
theorem exec_history {step : σ → α → Option (ω × σ)} {P : List (α × ω) → σ → Prop}
    {ok : α → Prop}
    (hstep : ∀ h s a, P h s → ok a → ∃ w s', step s a = some (w, s') ∧ P (h ++ [(a, w)]) s')
    (as : List α) (h : List (α × ω)) (s : σ) (hP : P h s) (hok : ∀ a ∈ as, ok a) :
    ∃ ws s', exec step s as = some (ws, s') ∧ P (h ++ as.zip ws) s' :=
  exec_along (fun h s a hP (ha : ok a) => hstep h s a hP ha) as h s hP
    (along_of_forall as s fun a ha _ => hok a ha)

/-- **History rule for steps that may be refused**: an invariant of the inputs
    and outputs so far and the state, kept by every step that is taken, holds
    after every run that gets to its end. -/
theorem exec_traced {step : σ → α → Option (ω × σ)} {P : List α → List ω → σ → Prop}
    (hstep : ∀ as ws s a w s', P as ws s → step s a = some (w, s') → P (as ++ [a]) (ws ++ [w]) s') :
    ∀ (as before : List α) (answered : List ω) (s : σ) {ws : List ω} {s' : σ},
      P before answered s → exec step s as = some (ws, s') →
      P (before ++ as) (answered ++ ws) s' := by
  intro as
  induction as with
  | nil =>
    intro before answered s ws s' hP hrun
    obtain ⟨rfl, rfl⟩ := Prod.mk.inj (Option.some.inj hrun)
    simpa using hP
  | cons a as ih =>
    intro before answered s ws s' hP hrun
    obtain ⟨w, s₁, ws', hs₁, hrest, rfl⟩ := exec_cons_eq_some.mp hrun
    simpa using ih _ _ s₁ (hstep before answered s a w s₁ hP hs₁) hrest

/-- The rule for an invariant of the outputs alone. -/
theorem exec_invariant {step : σ → α → Option (ω × σ)} {P : List ω → σ → Prop}
    (hstep : ∀ ws s a w s', P ws s → step s a = some (w, s') → P (ws ++ [w]) s')
    (as : List α) (before : List ω) (s : σ) {ws : List ω} {s' : σ} (hP : P before s)
    (hrun : exec step s as = some (ws, s')) : P (before ++ ws) s' :=
  exec_traced (P := fun _ ws s => P ws s) (fun _ ws s a w s' => hstep ws s a w s') as [] before s
    hP hrun

/-- **Clock rule**: an invariant that may grow with the time of the last input,
    kept by every step at a time it holds up to, holds after every run whose
    inputs come in the order of their times. -/
theorem exec_timed {step : σ → α → Option (ω × σ)} {time : α → Nat} {P : Nat → σ → Prop}
    (hmono : ∀ t t' s, t ≤ t' → P t s → P t' s)
    (hstep : ∀ s a, P (time a) s → ∃ w s', step s a = some (w, s') ∧ P (time a) s') :
    ∀ (as : List α) (t : Nat) (s : σ), P t s → (∀ a ∈ as, t ≤ time a) →
      (as.Pairwise fun a b => time a ≤ time b) →
      ∃ ws s' t', exec step s as = some (ws, s') ∧ P t' s' := by
  intro as
  induction as with
  | nil => intro t s hP _ _; exact ⟨[], s, t, rfl, hP⟩
  | cons a as ih =>
    intro t s hP hlate hsorted
    obtain ⟨hnext, hsorted'⟩ := List.pairwise_cons.mp hsorted
    obtain ⟨w, s₁, hs₁, hP₁⟩ := hstep s a (hmono t (time a) s (hlate a (by simp)) hP)
    obtain ⟨ws, s', t', hs', hP'⟩ := ih (time a) s₁ hP₁ hnext hsorted'
    exact ⟨w :: ws, s', t', exec_cons_eq_some.mpr ⟨w, s₁, ws, hs₁, hs', rfl⟩, hP'⟩

/-- **Progress rule**: if one input, taken again and again, always leads to the
    goal or closer to it, it leads to the goal. -/
theorem exec_reaches {step : σ → α → Option (ω × σ)} {a : α} {P : Nat → σ → Prop} {Q : σ → Prop}
    (hstep : ∀ n s, P n s → Q s ∨ ∃ w s' m, step s a = some (w, s') ∧ m < n ∧ P m s') :
    ∀ (n : Nat) (s : σ), P n s →
      ∃ k ws s', exec step s (List.replicate k a) = some (ws, s') ∧ Q s' := by
  intro n
  induction n using Nat.strongRecOn with
  | ind n ih =>
    intro s hP
    rcases hstep n s hP with hQ | ⟨w, s₁, m, hs₁, hlt, hP₁⟩
    · exact ⟨0, [], s, rfl, hQ⟩
    · obtain ⟨k, ws, s', hrun, hQ⟩ := ih m hlt s₁ hP₁
      exact ⟨k + 1, w :: ws, s', exec_cons_eq_some.mpr ⟨w, s₁, ws, hs₁, hrun, rfl⟩, hQ⟩

/-- At a point of a run `Q` holds, and `R` of the next step, if there is one. -/
def Point (step : σ → α → Option (ω × σ)) (Q : σ → Prop) (R : σ → α → ω → Prop) (s : σ)
    (done rest : List α) : Prop :=
  ∃ ws s', exec step s done = some (ws, s') ∧ Q s' ∧
    ∀ a ∈ rest.head?, ∃ w s'', step s' a = some (w, s'') ∧ R s' a w

theorem Point.start {step : σ → α → Option (ω × σ)} {Q : σ → Prop} {R : σ → α → ω → Prop}
    {s s₁ : σ} {a : α} {w : ω} (rest : List α) (hQ : Q s) (hs : step s a = some (w, s₁))
    (hR : R s a w) : Point step Q R s [] (a :: rest) := by
  refine ⟨[], s, rfl, hQ, ?_⟩
  intro b hb
  obtain rfl : a = b := by simpa using hb
  exact ⟨w, s₁, hs, hR⟩

theorem Point.cons {step : σ → α → Option (ω × σ)} {Q : σ → Prop} {R : σ → α → ω → Prop}
    {s s₁ : σ} {a : α} {w : ω} {done rest : List α} (hs : step s a = some (w, s₁))
    (h : Point step Q R s₁ done rest) : Point step Q R s (a :: done) rest := by
  obtain ⟨ws, s', hrun, hQ, hnext⟩ := h
  exact ⟨w :: ws, s', exec_cons_eq_some.mpr ⟨w, s₁, ws, hs, hrun, rfl⟩, hQ, hnext⟩

section points

variable {step : σ → α → Option (ω × σ)} {ok : σ → α → Prop} {P N Q : σ → Prop}
  {ok₁ ok₂ : α → Prop} {R : σ → α → ω → Prop}

/-- **Every point of a run**: an invariant kept by allowed steps holds at every
    point, and what it gives of a step is true of the next. -/
theorem exec_points
    (hstep : ∀ s a, P s → ok₁ a → ok s a → ∃ w s', step s a = some (w, s') ∧ P s' ∧ R s a w) :
    ∀ (as : List α) (s : σ), P s → (∀ a ∈ as, ok₁ a) → Along step ok s as →
      ∀ done rest, done ++ rest = as → Point step P R s done rest := by
  intro as
  induction as with
  | nil =>
    intro s hP _ _ done rest heq
    obtain ⟨rfl, rfl⟩ := List.append_eq_nil_iff.mp heq
    exact ⟨[], s, rfl, hP, by simp⟩
  | cons a as ih =>
    intro s hP hok halong done rest heq
    obtain ⟨w, s₁, hs₁, hP₁, hR⟩ := hstep s a hP (hok a (by simp)) halong.1
    cases done with
    | nil =>
      rw [List.nil_append] at heq
      subst heq
      exact .start _ hP hs₁ hR
    | cons d done =>
      obtain ⟨rfl, hrest⟩ := List.cons.inj heq
      exact .cons hs₁ (ih s₁ hP₁ (fun b hb => hok b (by simp [hb])) (halong.2 w s₁ hs₁) done rest
        hrest)

/-- **Phases of a run**: allowed steps keep `P` until the input `m` turns it
    into `N`, which they keep from then on. -/
theorem exec_phases {m : α}
    (hbefore : ∀ s a, P s → ok₁ a → ok s a → ∃ w s', step s a = some (w, s') ∧ P s' ∧ R s a w)
    (hturn : ∀ s, P s → ok s m → ∃ w s', step s m = some (w, s') ∧ N s' ∧ R s m w)
    (hafter : ∀ s a, N s → ok₂ a → ok s a → ∃ w s', step s a = some (w, s') ∧ N s' ∧ R s a w)
    (hQ : ∀ s, P s ∨ N s → Q s) :
    ∀ (as bs : List α) (s : σ), P s → (∀ a ∈ as, ok₁ a) → (∀ b ∈ bs, ok₂ b) →
      Along step ok s (as ++ m :: bs) → ∀ done rest, done ++ rest = as ++ m :: bs →
        Point step Q R s done rest := by
  intro as bs
  induction as with
  | nil =>
    intro s hP _ hbs halong done rest heq
    obtain ⟨w, s₁, hs₁, hP₁, hR⟩ := hturn s hP halong.1
    cases done with
    | nil =>
      rw [List.nil_append] at heq
      subst heq
      exact .start _ (hQ s (.inl hP)) hs₁ hR
    | cons d done =>
      obtain ⟨rfl, hrest⟩ := List.cons.inj heq
      obtain ⟨ws, s', hrun, hN, hnext⟩ :=
        exec_points hafter bs s₁ hP₁ hbs (halong.2 w s₁ hs₁) done rest hrest
      exact .cons hs₁ ⟨ws, s', hrun, hQ s' (.inr hN), hnext⟩
  | cons a as ih =>
    intro s hP has hbs halong done rest heq
    obtain ⟨w, s₁, hs₁, hP₁, hR⟩ := hbefore s a hP (has a (by simp)) halong.1
    cases done with
    | nil =>
      rw [List.nil_append] at heq
      subst heq
      exact .start _ (hQ s (.inl hP)) hs₁ hR
    | cons d done =>
      obtain ⟨rfl, hrest⟩ := List.cons.inj heq
      exact .cons hs₁ (ih s₁ hP₁ (fun b hb => has b (by simp [hb])) hbs (halong.2 w s₁ hs₁) done
        rest hrest)

end points

/-- Conditions that agree in every state of the run hold along it together. -/
theorem along_congr {step : σ → α → Option (ω × σ)} {P : σ → Prop} {ok ok' : σ → α → Prop}
    (hstep : ∀ s a, P s → (∀ w s', step s a = some (w, s') → P s') ∧ (ok s a ↔ ok' s a)) :
    ∀ (as : List α) (s : σ), P s → (Along step ok s as ↔ Along step ok' s as) := by
  intro as
  induction as with
  | nil => intro s _; exact Iff.rfl
  | cons a as ih =>
    intro s hP
    obtain ⟨hkeep, hiff⟩ := hstep s a hP
    unfold Along
    refine and_congr hiff (forall_congr' fun w => forall_congr' fun s' => ?_)
    exact forall_congr' fun hs => ih s' (hkeep w s' hs)

/-- **Answers along a run**: if a condition on a step says exactly what its
    answer satisfies, it holds along a run exactly when all answers of the run
    satisfy that. -/
theorem along_iff_answers {step : σ → α → Option (ω × σ)} {P : σ → Prop} {ok : σ → α → Prop}
    {Q : α → ω → Prop}
    (hstep : ∀ s a, P s → ∃ w s', step s a = some (w, s') ∧ P s' ∧ (ok s a ↔ Q a w)) :
    ∀ (as : List α) (s : σ), P s → ∃ ws s', exec step s as = some (ws, s') ∧
      (Along step ok s as ↔ ∀ x ∈ as.zip ws, Q x.1 x.2) := by
  intro as
  induction as with
  | nil => intro s _; exact ⟨[], s, rfl, by simp [Along]⟩
  | cons a as ih =>
    intro s hP
    obtain ⟨w, s₁, hs₁, hP₁, hiff⟩ := hstep s a hP
    obtain ⟨ws, s', hs', hrest⟩ := ih s₁ hP₁
    refine ⟨w :: ws, s', exec_cons_eq_some.mpr ⟨w, s₁, ws, hs₁, hs', rfl⟩, ?_⟩
    have hnext : (∀ w' s'', step s a = some (w', s'') → Along step ok s'' as) ↔
        Along step ok s₁ as := by
      simp [hs₁]
    simp only [Along, hnext, hiff, hrest, List.zip_cons_cons, List.forall_mem_cons]

/-- **Lockstep**: if steps on related inputs from related states answer with
    related outputs and relate the next states, so do whole runs. -/
theorem exec_lockstep {step : σ → α → Option (ω × σ)} {step' : τ → β → Option (ν × τ)}
    {R : σ → τ → Prop} {I : α → β → Prop} {O : ω → ν → Prop}
    (hstep : ∀ s t a b, R s t → I a b → ∃ w s' v t', step s a = some (w, s') ∧
      step' t b = some (v, t') ∧ O w v ∧ R s' t') {as : List α} {bs : List β}
    (h : List.Forall₂ I as bs) : ∀ (s : σ) (t : τ), R s t →
      ∃ ws s' vs t', exec step s as = some (ws, s') ∧ exec step' t bs = some (vs, t') ∧
        List.Forall₂ O ws vs ∧ R s' t' := by
  induction h with
  | nil => intro s t hR; exact ⟨[], s, [], t, rfl, rfl, .nil, hR⟩
  | cons hI _ ih =>
    intro s t hR
    obtain ⟨w, s₁, v, t₁, hs, ht, hO, hR₁⟩ := hstep s t _ _ hR hI
    obtain ⟨ws, s', vs, t', hs', ht', hOs, hR'⟩ := ih s₁ t₁ hR₁
    exact ⟨w :: ws, s', v :: vs, t', exec_cons_eq_some.mpr ⟨w, s₁, ws, hs, hs', rfl⟩,
      exec_cons_eq_some.mpr ⟨v, t₁, vs, ht, ht', rfl⟩, .cons hO hOs, hR'⟩

/-- Outputs that agree one by one, up to what `f` and `g` keep of them, agree
    as lists. -/
theorem forall₂_eq_iff_map_eq {f : ω → β} {g : ν → β} {ws : List ω} {vs : List ν} :
    List.Forall₂ (fun w v => f w = g v) ws vs ↔ ws.map f = vs.map g := by
  rw [← List.forall₂_eq_eq_eq, List.forall₂_map_left_iff, List.forall₂_map_right_iff]

/-- The specification's run: a step function that always answers. -/
def execSpec (spec : τ → β → ν × τ) : τ → List β → List ν × τ
  | t, [] => ([], t)
  | t, b :: bs =>
      let (w, t) := spec t b
      let (ws, t) := execSpec spec t bs
      (w :: ws, t)

/-- The answers to the first inputs do not depend on those that follow. -/
theorem execSpec_append_fst {spec : τ → β → ν × τ} (bs : List β) : ∀ (as : List β) (t : τ),
    (execSpec spec t (as ++ bs)).1 =
      (execSpec spec t as).1 ++ (execSpec spec (execSpec spec t as).2 bs).1 := by
  intro as
  induction as with
  | nil => intro t; rfl
  | cons a as ih =>
    intro t
    simp only [List.cons_append, execSpec, ih]

/-- What every answer satisfies, all answers of a run do. -/
theorem execSpec_forall {P : ν → Prop} {spec : τ → β → ν × τ} (h : ∀ t b, P (spec t b).1) :
    ∀ (bs : List β) (t : τ), ∀ w ∈ (execSpec spec t bs).1, P w := by
  intro bs
  induction bs with
  | nil => intro t w hw; cases hw
  | cons b bs ih =>
    intro t w hw
    rcases List.mem_cons.mp hw with rfl | hw
    · exact h t b
    · exact ih _ w hw

/-- Keeping less of every answer is answering with less. -/
theorem execSpec_map (g : ν → ω) (spec : τ → β → ν × τ) : ∀ (bs : List β) (t : τ),
    (execSpec spec t bs).1.map g =
      (execSpec (fun t b => Prod.map g id (spec t b)) t bs).1 := by
  intro bs
  induction bs with
  | nil => intro t; rfl
  | cons b bs ih =>
    intro t
    simp only [execSpec, List.map_cons, ih]
    rfl

/-- **Simulation**: if every step from related states answers like the
    specification, up to what `f` and `g` keep of inputs and outputs, and
    relates the next states, so does every run. -/
theorem exec_simulates {step : σ → α → Option (ω × σ)} {spec : τ → β → ν × τ} (f : α → β)
    (g : ω → ν) (R : σ → τ → Prop) (ok : α → Prop)
    (hstep : ∀ s t a, R s t → ok a →
      ∃ w s', step s a = some (w, s') ∧ g w = (spec t (f a)).1 ∧ R s' (spec t (f a)).2) :
    ∀ (as : List α) (s : σ) (t : τ), R s t → (∀ a ∈ as, ok a) →
      ∃ ws s', exec step s as = some (ws, s') ∧ ws.map g = (execSpec spec t (as.map f)).1 ∧
        R s' (execSpec spec t (as.map f)).2 := by
  intro as
  induction as with
  | nil => intro s t hR _; exact ⟨[], s, rfl, rfl, hR⟩
  | cons a as ih =>
    intro s t hR hok
    obtain ⟨w, s₁, hs₁, hw, hR₁⟩ := hstep s t a hR (hok a (by simp))
    obtain ⟨ws, s', hs', hws, hR'⟩ := ih s₁ _ hR₁ (fun b hb => hok b (by simp [hb]))
    refine ⟨w :: ws, s', exec_cons_eq_some.mpr ⟨w, s₁, ws, hs₁, hs', rfl⟩, ?_, hR'⟩
    rw [List.map_cons, hw, hws]
    rfl

/-- **Refinement**: a simulation that keeps inputs and outputs as they are. -/
theorem exec_refines {step : σ → α → Option (ω × σ)} {spec : τ → α → ω × τ} (R : σ → τ → Prop)
    (ok : α → Prop)
    (hstep : ∀ s t a, R s t → ok a → ∃ s', step s a = some ((spec t a).1, s') ∧ R s' (spec t a).2)
    (as : List α) (s : σ) (t : τ) (hR : R s t) (hok : ∀ a ∈ as, ok a) :
    ∃ s', exec step s as = some ((execSpec spec t as).1, s') ∧ R s' (execSpec spec t as).2 := by
  obtain ⟨ws, s', hrun, hws, hR'⟩ := exec_simulates id id R ok
    (fun s t a hR ha => by
      obtain ⟨s', hs, hR'⟩ := hstep s t a hR ha
      exact ⟨_, s', hs, rfl, hR'⟩) as s t hR hok
  rw [List.map_id, List.map_id] at hws
  rw [List.map_id] at hR'
  exact ⟨s', hws ▸ hrun, hR'⟩

/-- **Simulation with a budget**: the relation may also say what the states can
    do with the inputs that are still to come. -/
theorem exec_simulates_rest {step : σ → α → Option (ω × σ)} {spec : τ → β → ν × τ} (f : α → β)
    (g : ω → ν) (R : List α → σ → τ → Prop)
    (hstep : ∀ a as s t, R (a :: as) s t →
      ∃ w s', step s a = some (w, s') ∧ g w = (spec t (f a)).1 ∧ R as s' (spec t (f a)).2) :
    ∀ (as : List α) (s : σ) (t : τ), R as s t →
      ∃ ws s', exec step s as = some (ws, s') ∧ ws.map g = (execSpec spec t (as.map f)).1 ∧
        R [] s' (execSpec spec t (as.map f)).2 := by
  intro as
  induction as with
  | nil => intro s t hR; exact ⟨[], s, rfl, rfl, hR⟩
  | cons a as ih =>
    intro s t hR
    obtain ⟨w, s₁, hs₁, hw, hR₁⟩ := hstep a as s t hR
    obtain ⟨ws, s', hs', hws, hR'⟩ := ih s₁ _ hR₁
    refine ⟨w :: ws, s', exec_cons_eq_some.mpr ⟨w, s₁, ws, hs₁, hs', rfl⟩, ?_, hR'⟩
    rw [List.map_cons, hw, hws]
    rfl

end Runs
