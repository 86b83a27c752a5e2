import Mathlib

/-!
# Runs of a total step function

Invariants of runs whose steps all meet a condition, and runs that come to an end because a measure
goes down whenever a step counts.
-/

namespace ServerStack.Run

variable {σ ω : Type*} {step : σ → ω → σ} {cond : σ → ω → Prop}

def Along (step : σ → ω → σ) (cond : σ → ω → Prop) : σ → List ω → Prop
  | _, [] => True
  | s, o :: os => cond s o ∧ Along step cond (step s o) os

instance decidableAlong (step : σ → ω → σ) (cond : σ → ω → Prop) [∀ s o, Decidable (cond s o)] :
    ∀ s os, Decidable (Along step cond s os)
  | _, [] => .isTrue trivial
  | s, o :: os =>
    have := decidableAlong step cond (step s o) os
    inferInstanceAs (Decidable (cond s o ∧ Along step cond (step s o) os))

theorem Along.foldl {inv : σ → Prop} (hstep : ∀ s o, inv s → cond s o → inv (step s o)) :
    ∀ {os : List ω} {s : σ}, Along step cond s os → inv s → inv (os.foldl step s)
  | [], _, _, hs => hs
  | _ :: _, _, hrun, hs => hrun.2.foldl hstep (hstep _ _ hs hrun.1)

/-- A run reaches a state in which it is done if a measure never goes up before and goes down in
every step that counts, and more steps count than the measure allows. -/
theorem Along.foldl_done {inv done : σ → Prop} (measure : σ → ℕ) (counts : ω → Bool)
    (hstep : ∀ s o, inv s → cond s o → inv (step s o))
    (hdone : ∀ s o, inv s → cond s o → done s → done (step s o))
    (hmeasure : ∀ s o, inv s → cond s o → ¬ done s → measure (step s o) ≤ measure s ∧
      (counts o = true → measure (step s o) < measure s)) :
    ∀ {os : List ω} {s : σ}, Along step cond s os → inv s → measure s < os.countP counts →
      done (os.foldl step s)
  | [], _, _, _, hcount => absurd hcount (Nat.not_lt_zero _)
  | o :: os, s, hrun, hs, hcount => by
      by_cases hend : done s
      · have hboth : ∀ s o, inv s ∧ done s → cond s o → inv (step s o) ∧ done (step s o) :=
          fun s o h hcond => ⟨hstep s o h.1 hcond, hdone s o h.1 hcond h.2⟩
        exact (hrun.2.foldl hboth (hboth s o ⟨hs, hend⟩ hrun.1)).2
      · obtain ⟨hle, hlt⟩ := hmeasure s o hs hrun.1 hend
        refine hrun.2.foldl_done measure counts hstep hdone hmeasure (hstep s o hs hrun.1) ?_
        rw [List.countP_cons] at hcount
        split_ifs at hcount with hcounts
        · have := hlt hcounts
          omega
        · omega

end ServerStack.Run
