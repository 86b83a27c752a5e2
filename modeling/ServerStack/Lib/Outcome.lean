import Mathlib

/-!
# Pre- and postconditions of failing computations

A computation in `Except ε` meets a postcondition together with a condition on its failures.  The
rules compose along `bind` and along the fold of a list of steps, so that an invariant of single
steps becomes an invariant of whole runs.
-/

namespace ServerStack.Outcome

variable {ε α β σ ω : Type}

/-- The computation returns a value satisfying `post` or fails with an error satisfying `fail`. -/
def Meets (x : Except ε α) (post : α → Prop) (fail : ε → Prop) : Prop :=
  match x with
  | .ok a => post a
  | .error e => fail e

@[simp] theorem meets_ok (a : α) (post : α → Prop) (fail : ε → Prop) :
    Meets (.ok a) post fail ↔ post a := Iff.rfl

@[simp] theorem meets_pure (a : α) (post : α → Prop) (fail : ε → Prop) :
    Meets (pure a) post fail ↔ post a := Iff.rfl

@[simp] theorem meets_error (e : ε) (post : α → Prop) (fail : ε → Prop) :
    Meets (.error e) post fail ↔ fail e := Iff.rfl

instance (x : Except ε α) (post : α → Prop) (fail : ε → Prop) [DecidablePred post]
    [DecidablePred fail] : Decidable (Meets x post fail) :=
  match x with
  | .ok a => inferInstanceAs (Decidable (post a))
  | .error e => inferInstanceAs (Decidable (fail e))

variable {x : Except ε α} {step : σ → ω → Except ε σ} {s : σ} {cond : σ → ω → Prop} {τ : Type}

theorem Meets.mono {post post' : α → Prop} {fail fail' : ε → Prop} (h : Meets x post fail)
    (hp : ∀ a, post a → post' a) (hf : ∀ e, fail e → fail' e) : Meets x post' fail' := by
  cases x with
  | ok a => exact hp a h
  | error e => exact hf e h

theorem Meets.bind {f : α → Except ε β} {mid : α → Prop} {post : β → Prop} {fail : ε → Prop}
    (h : Meets x mid fail) (hf : ∀ a, mid a → Meets (f a) post fail) :
    Meets (x >>= f) post fail := by
  cases x with
  | ok a => exact hf a h
  | error e => exact h

theorem Meets.map {f : α → β} {post : β → Prop} {fail : ε → Prop}
    (h : Meets x (fun a => post (f a)) fail) : Meets (f <$> x) post fail := by
  cases x with
  | ok a => exact h
  | error e => exact h

theorem Meets.post {post : α → Prop} {fail : ε → Prop} {a : α} (h : Meets x post fail)
    (hx : x = .ok a) : post a := by
  subst hx
  exact h

theorem Meets.fail {post : α → Prop} {fail : ε → Prop} {e : ε} (h : Meets x post fail)
    (hx : x = .error e) : fail e := by
  subst hx
  exact h

theorem Meets.foldlM {inv : σ → Prop} {fail : ε → Prop}
    (hstep : ∀ s o, inv s → Meets (step s o) inv fail) :
    ∀ (os : List ω) (s : σ), inv s → Meets (os.foldlM step s) inv fail
  | [], s, hs => hs
  | o :: os, s, hs => by
      exact (hstep s o hs).bind fun s' hs' => Meets.foldlM hstep os s' hs'

theorem meets_false_iff {post : α → Prop} :
    Meets x post (fun _ => False) ↔ ∃ a, x = .ok a ∧ post a := by
  cases x with
  | ok a => simp
  | error e => simp

theorem mapM_ok {f : α → Except ε β} {g : α → β} {l : List α} (h : ∀ a ∈ l, f a = .ok (g a)) :
    l.mapM f = .ok (l.map g) := by
  induction l with
  | nil => rfl
  | cons a l ih =>
    obtain ⟨ha, hl⟩ := List.forall_mem_cons.1 h
    rw [List.mapM_cons, ha, ih hl]
    rfl

/-! ## Runs under a condition -/

/-- Every step of a run is taken from a state that meets the condition. -/
def AllSteps (step : σ → ω → Except ε σ) (cond : σ → ω → Prop) : σ → List ω → Prop
  | _, [] => True
  | s, o :: os => cond s o ∧
      match step s o with
      | .ok s' => AllSteps step cond s' os
      | .error _ => True

def AllStates (step : σ → ω → Except ε σ) (prop : σ → Prop) : σ → List ω → Prop
  | s, [] => prop s
  | s, o :: os => prop s ∧
      match step s o with
      | .ok s' => AllStates step prop s' os
      | .error _ => True

instance decidableAllSteps (step : σ → ω → Except ε σ) (cond : σ → ω → Prop)
    [∀ s o, Decidable (cond s o)] : ∀ s os, Decidable (AllSteps step cond s os)
  | _, [] => .isTrue trivial
  | s, o :: os =>
    match h : step s o with
    | .ok s' =>
      have := decidableAllSteps step cond s' os
      decidable_of_iff (cond s o ∧ AllSteps step cond s' os) (by simp [AllSteps, h])
    | .error _ => decidable_of_iff (cond s o) (by simp [AllSteps, h])

instance decidableAllStates (step : σ → ω → Except ε σ) (prop : σ → Prop) [DecidablePred prop] :
    ∀ s os, Decidable (AllStates step prop s os)
  | s, [] => inferInstanceAs (Decidable (prop s))
  | s, o :: os =>
    match h : step s o with
    | .ok s' =>
      have := decidableAllStates step prop s' os
      decidable_of_iff (prop s ∧ AllStates step prop s' os) (by simp [AllStates, h])
    | .error _ => decidable_of_iff (prop s) (by simp [AllStates, h])

/-- A simulation of every step, under a condition on the step, is a simulation of whole runs. -/
theorem Meets.simulate {step : σ → ω → Except ε σ} {cond : σ → ω → Prop} {fail : ε → Prop}
    {τ : Type} {astep : τ → ω → τ} (rel : σ → τ → Prop)
    (hstep : ∀ s t o, rel s t → cond s o → Meets (step s o) (fun s' => rel s' (astep t o)) fail) :
    ∀ (os : List ω) (s : σ) (t : τ), rel s t → AllSteps step cond s os →
      Meets (os.foldlM step s) (fun s' => rel s' (os.foldl astep t)) fail
  | [], s, t, hrel, _ => hrel
  | o :: os, s, t, hrel, hcond => by
      rw [List.foldlM_cons]
      have hmeets := hstep s t o hrel hcond.1
      have hrest := hcond.2
      cases hx : step s o with
      | ok s' =>
        rw [hx] at hmeets hrest
        exact Meets.simulate rel hstep os s' (astep t o) hmeets hrest
      | error e =>
        rw [hx] at hmeets
        exact hmeets

theorem Meets.foldlM_of_allSteps {inv : σ → Prop} {fail : ε → Prop}
    (hstep : ∀ s o, inv s → cond s o → Meets (step s o) inv fail) {os : List ω} (hs : inv s)
    (hcond : AllSteps step cond s os) : Meets (os.foldlM step s) inv fail :=
  @Meets.simulate ε σ ω step cond fail Unit (fun _ _ => ()) (fun s _ => inv s)
    (fun s _ o => hstep s o) os s () hs hcond

theorem AllSteps.and {prop : σ → Prop} :
    ∀ {os : List ω} {s : σ}, AllSteps step cond s os → AllStates step prop s os →
      AllSteps step (fun s o => cond s o ∧ prop s) s os
  | [], _, _, _ => trivial
  | o :: os, s, hcond, hprop => by
      refine ⟨⟨hcond.1, hprop.1⟩, ?_⟩
      have hcond' := hcond.2
      have hprop' := hprop.2
      cases hx : step s o with
      | ok s' =>
        rw [hx] at hcond' hprop'
        exact AllSteps.and hcond' hprop'
      | error e => trivial

theorem AllSteps.both {cond' : σ → ω → Prop} :
    ∀ {os : List ω} {s : σ}, AllSteps step cond s os → AllSteps step cond' s os →
      AllSteps step (fun s o => cond s o ∧ cond' s o) s os
  | [], _, _, _ => trivial
  | o :: os, s, h, h' => by
      refine ⟨⟨h.1, h'.1⟩, ?_⟩
      have hrest := h.2
      have hrest' := h'.2
      cases hx : step s o with
      | ok s' =>
        rw [hx] at hrest hrest'
        exact AllSteps.both hrest hrest'
      | error e => trivial

theorem Meets.foldlM_range {step : σ → ℕ → Except ε σ} {fail : ε → Prop} (inv : ℕ → σ → Prop)
    (h0 : inv 0 s) :
    ∀ n, (∀ j < n, ∀ s, inv j s → Meets (step s j) (inv (j + 1)) fail) →
      Meets ((List.range n).foldlM step s) (inv n) fail
  | 0, _ => h0
  | n + 1, hstep => by
      rw [List.range_succ, List.foldlM_append]
      refine (Meets.foldlM_range inv h0 n fun j hj => hstep j (by omega)).bind fun t ht => ?_
      exact (hstep n (by omega) t ht).bind fun _ ht' => ht'

/-! ## Runs in lockstep -/

/-- Both computations fail with the same error, or both return and the values are related. -/
def Agree {τ : Type} (rel : σ → τ → Prop) : Except ε σ → Except ε τ → Prop
  | .ok s, .ok t => rel s t
  | .error e, .error e' => e = e'
  | _, _ => False

variable {rel : σ → τ → Prop} {x : Except ε σ} {y : Except ε τ}

theorem Agree.exists_of_ok (h : Agree rel x y) (hx : x = .ok s) : ∃ t, y = .ok t ∧ rel s t := by
  subst hx
  cases y with
  | error e => exact h.elim
  | ok t => exact ⟨t, rfl, h⟩

theorem Agree.exists_of_ok_right {t : τ}
    (h : Agree rel x y) (hy : y = .ok t) : ∃ s, x = .ok s ∧ rel s t := by
  subst hy
  cases x with
  | error e => exact h.elim
  | ok s => exact ⟨s, rfl, h⟩

theorem Agree.foldlM {astep : τ → ω → Except ε τ}
    (hstep : ∀ s t o, rel s t → Agree rel (step s o) (astep t o)) :
    ∀ (os : List ω) (s : σ) (t : τ), rel s t → Agree rel (os.foldlM step s) (os.foldlM astep t)
  | [], _, _, h => h
  | o :: os, s, t, h => by
      rw [List.foldlM_cons, List.foldlM_cons]
      have hone := hstep s t o h
      cases hs : step s o with
      | error e =>
        cases ht : astep t o with
        | error e' =>
          rw [hs, ht] at hone
          exact hone
        | ok t' =>
          rw [hs, ht] at hone
          exact hone.elim
      | ok s' =>
        cases ht : astep t o with
        | error e' =>
          rw [hs, ht] at hone
          exact hone.elim
        | ok t' =>
          rw [hs, ht] at hone
          exact Agree.foldlM hstep os s' t' hone

theorem Agree.map_eq (h : Agree rel x y)
    {f : σ → α} {g : τ → α} (hfg : ∀ s t, rel s t → f s = g t) : x.map f = y.map g := by
  cases x with
  | error e =>
    cases y with
    | error e' => exact congrArg Except.error h
    | ok t => exact h.elim
  | ok s =>
    cases y with
    | error e' => exact h.elim
    | ok t => exact congrArg Except.ok (hfg s t h)

end ServerStack.Outcome
