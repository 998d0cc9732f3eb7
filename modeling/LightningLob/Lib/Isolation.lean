import LightningLob.Lib.Runs

/-! # Steps that own a part of the state

    A state seen as a family of parts, one for each address, and steps that
    read and write the part they address only: `Isolated` asks that the part
    of a step decides its output and the part it leaves, and that no other part
    changes.  Then steps with different addresses commute, and what one address
    sees of a run is what it sees of the steps addressed to it. -/

namespace Runs

variable {σ α ω ι ν : Type}

/-- Allowed steps from states of the invariant `P` read and write the part of
    the state at their address. -/
structure Isolated (step : σ → α → Option (ω × σ)) (P : σ → Prop) (ok : α → Prop) (addr : α → ι)
    (part : ι → σ → ν) : Prop where
  answers : ∀ s a, P s → ok a → ∃ w s', step s a = some (w, s') ∧ P s'
  /-- A state with the same part at the address answers the same. -/
  own : ∀ s t a w s', P s → ok a → step s a = some (w, s') →
    part (addr a) t = part (addr a) s →
    ∃ t', step t a = some (w, t') ∧ part (addr a) t' = part (addr a) s'
  frame : ∀ s a w s', P s → ok a → step s a = some (w, s') →
    ∀ i, i ≠ addr a → part i s' = part i s

namespace Isolated

variable {step : σ → α → Option (ω × σ)} {P : σ → Prop} {ok : α → Prop} {addr : α → ι}
  {part : ι → σ → ν}

/-- A step taken after one with another address: it answers as it would have
    before, and leaves what it would have left. -/
theorem after (h : Isolated step P ok addr part) {s s₁ s₂ : σ} {a b : α} {w v : ω} (hs : P s)
    (ha : ok a) (hb : ok b) (hne : addr b ≠ addr a) (hs₁ : step s a = some (w, s₁))
    (hs₂ : step s b = some (v, s₂)) :
    ∃ s', step s₁ b = some (v, s') ∧ part (addr b) s' = part (addr b) s₂ :=
  h.own s s₁ b v s₂ hs hb hs₂ (h.frame s a w s₁ hs ha hs₁ (addr b) hne)

/-- **Commutation**: two steps with different addresses give the same outputs
    in either order, and states with the same parts. -/
theorem commute (h : Isolated step P ok addr part) {s : σ} {a b : α} (hs : P s) (ha : ok a)
    (hb : ok b) (hne : addr a ≠ addr b) :
    ∃ w v s₁ s₂, exec step s [a, b] = some ([w, v], s₁) ∧ exec step s [b, a] = some ([v, w], s₂) ∧
      ∀ i, part i s₁ = part i s₂ := by
  obtain ⟨w, sa, hsa, hPa⟩ := h.answers s a hs ha
  obtain ⟨v, sb, hsb, hPb⟩ := h.answers s b hs hb
  obtain ⟨s₁, hs₁, hown₁⟩ := h.after hs ha hb hne.symm hsa hsb
  obtain ⟨s₂, hs₂, hown₂⟩ := h.after hs hb ha hne hsb hsa
  refine ⟨w, v, s₁, s₂, exec_cons_eq_some.mpr ⟨w, sa, [v], hsa,
    exec_cons_eq_some.mpr ⟨v, s₁, [], hs₁, rfl, rfl⟩, rfl⟩, exec_cons_eq_some.mpr ⟨v, sb, [w], hsb,
    exec_cons_eq_some.mpr ⟨w, s₂, [], hs₂, rfl, rfl⟩, rfl⟩, ?_⟩
  intro i
  have hframe₁ := h.frame sa b v s₁ hPa hb hs₁ i
  have hframe₂ := h.frame sb a w s₂ hPb ha hs₂ i
  by_cases hia : i = addr a
  · subst hia
    rw [hframe₁ hne, hown₂]
  by_cases hib : i = addr b
  · subst hib
    rw [hframe₂ hne.symm, hown₁]
  · rw [hframe₁ hib, hframe₂ hia, h.frame s a w sa hs ha hsa i hia,
      h.frame s b v sb hs hb hsb i hib]

/-- **Sub-runs**: the outputs of the steps of one address, and the part a run
    leaves there, are those of a run of these steps alone. -/
theorem exec_filter [DecidableEq ι] (h : Isolated step P ok addr part) (i : ι) :
    ∀ (as : List α) (s t : σ), P s → (∀ a ∈ as, ok a) → part i t = part i s →
      ∃ ws s' vs t', exec step s as = some (ws, s') ∧
        exec step t (as.filter fun a => addr a = i) = some (vs, t') ∧
        ((as.zip ws).filter fun x => addr x.1 = i).map Prod.snd = vs ∧
        part i t' = part i s' := by
  intro as
  induction as with
  | nil => intro s t _ _ hpart; exact ⟨[], s, [], t, rfl, rfl, rfl, hpart⟩
  | cons a as ih =>
    intro s t hs hok hpart
    have ha := hok a (by simp)
    have hoks : ∀ b ∈ as, ok b := fun b hb => hok b (by simp [hb])
    obtain ⟨w, s₁, hs₁, hP₁⟩ := h.answers s a hs ha
    by_cases hai : addr a = i
    · subst hai
      obtain ⟨t₁, ht₁, hpart₁⟩ := h.own s t a w s₁ hs ha hs₁ hpart
      obtain ⟨ws, s', vs, t', hs', ht', hzip, hpart'⟩ := ih s₁ t₁ hP₁ hoks hpart₁
      refine ⟨w :: ws, s', w :: vs, t', exec_cons_eq_some.mpr ⟨w, s₁, ws, hs₁, hs', rfl⟩, ?_, ?_,
        hpart'⟩
      · rw [List.filter_cons_of_pos (by simp)]
        exact exec_cons_eq_some.mpr ⟨w, t₁, vs, ht₁, ht', rfl⟩
      · rw [List.zip_cons_cons, List.filter_cons_of_pos (by simp), List.map_cons, hzip]
    · -- the step is none of those of `i` and leaves the part as it is
      have hpart₁ : part i t = part i s₁ :=
        hpart.trans (h.frame s a w s₁ hs ha hs₁ i (Ne.symm hai)).symm
      obtain ⟨ws, s', vs, t', hs', ht', hzip, hpart'⟩ := ih s₁ t hP₁ hoks hpart₁
      refine ⟨w :: ws, s', vs, t', exec_cons_eq_some.mpr ⟨w, s₁, ws, hs₁, hs', rfl⟩, ?_, ?_, hpart'⟩
      · rw [List.filter_cons_of_neg (by simpa using hai)]
        exact ht'
      · rw [List.zip_cons_cons, List.filter_cons_of_neg (by simpa using hai), hzip]

end Isolated

end Runs
