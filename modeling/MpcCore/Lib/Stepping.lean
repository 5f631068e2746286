import MpcCore.Lib.Outcome

/-! # Programs as steps

The run of a step function that may fail: `runFor step n s` is what `n` steps from `s` come to.

* `runFor_add`: a run is cut anywhere.
* `runFor_invariant`: what holds at the start and lets every step succeed holds at every point of the
  run, and no point of it fails.  `runFor_stable`: what no step undoes.
* `Leads`: a state is reached from another, after any number of steps. -/

universe u v

variable {ε : Type u} {σ : Type v} {step : σ → Outcome ε σ}

/-- The call succeeds, with a value of which this holds. -/
def Outcome.Yields {α : Type v} (x : Outcome ε α) (P : α → Prop) : Prop := ∃ a, x = .ok a ∧ P a

@[simp] theorem Outcome.yields_ok {α : Type v} {a : α} {P : α → Prop} :
    (Outcome.ok a : Outcome ε α).Yields P ↔ P a := by
  simp [Yields]

/-- What a number of steps come to. -/
def runFor (step : σ → Outcome ε σ) : ℕ → σ → Outcome ε σ
  | 0, s => .ok s
  | n + 1, s => (step s).bind (runFor step n)

theorem runFor_add (m n : ℕ) (s : σ) : runFor step (m + n) s = (runFor step m s).bind (runFor step n) := by
  induction m generalizing s with
  | zero => rw [Nat.zero_add, runFor, Outcome.ok_bind]
  | succ m ih =>
      rw [Nat.succ_add, runFor, runFor]
      cases step s with
      | ok s' => exact ih s'
      | err e => rfl
      | panic => rfl
      | hang => rfl

/-- **The rule of invariants.** -/
theorem runFor_invariant {I : σ → Prop} (h : ∀ s, I s → (step s).Yields I) (n : ℕ) :
    ∀ {s : σ}, I s → (runFor step n s).Yields I := by
  induction n with
  | zero => exact fun hs => Outcome.yields_ok.mpr hs
  | succ n ih =>
      intro s hs
      obtain ⟨s₁, hstep, hs₁⟩ := h s hs
      obtain ⟨s', hrun, hs'⟩ := ih hs₁
      refine ⟨s', ?_, hs'⟩
      rw [runFor, hstep, Outcome.ok_bind, hrun]

/-- What no step undoes holds at every later point. -/
theorem runFor_stable {P : σ → Prop} (h : ∀ s s', step s = .ok s' → P s → P s') (n : ℕ) :
    ∀ {s s' : σ}, runFor step n s = .ok s' → P s → P s' := by
  induction n with
  | zero =>
      intro s s' hrun hs
      obtain rfl := Outcome.ok.inj hrun
      exact hs
  | succ n ih =>
      intro s s' hrun hs
      obtain ⟨s₁, hstep, hrest⟩ := Outcome.bind_eq_ok.mp hrun
      exact ih hrest (h s s₁ hstep hs)

/-- Some number of steps lead from one state to the other. -/
def Leads (step : σ → Outcome ε σ) (s s' : σ) : Prop := ∃ n, runFor step n s = .ok s'

theorem Leads.refl (s : σ) : Leads step s s := ⟨0, rfl⟩

theorem Leads.trans {s₁ s₂ s₃ : σ} (h₁ : Leads step s₁ s₂) (h₂ : Leads step s₂ s₃) : Leads step s₁ s₃ := by
  obtain ⟨m, h₁⟩ := h₁
  obtain ⟨n, h₂⟩ := h₂
  refine ⟨m + n, ?_⟩
  rw [runFor_add, h₁, Outcome.ok_bind, h₂]

theorem Leads.head {s₁ s₂ s₃ : σ} (h₁ : step s₁ = .ok s₂) (h₂ : Leads step s₂ s₃) : Leads step s₁ s₃ := by
  obtain ⟨n, h₂⟩ := h₂
  refine ⟨n + 1, ?_⟩
  rw [runFor, h₁, Outcome.ok_bind, h₂]
