import MpcCore.Lib.Outcome
import Mathlib.Tactic.Common

/-! # One program over two environments

A relation between calls on two kinds of state, for a program that is run once over a concrete and once
over an abstract environment.

* `Act.Tracks`: from related states, whatever the first call returns the second returns too, and it
  leaves a related state.  Only runs that succeed are tracked.
* `Tracks.bind`, `Tracks.each`: so do programs made of such calls. -/

namespace Act

variable {σ τ ε α β : Type}

/-- Where the first call succeeds from a state related to that of the second, the second returns the same
value, and the states they leave are related. -/
def Tracks (R : σ → τ → Prop) (Q : α → σ → τ → Prop) (x : Act σ ε α) (y : Act τ ε α) : Prop :=
  ∀ s t a s', R s t → x s = (.ok a, s') → ∃ t', y t = (.ok a, t') ∧ Q a s' t'

variable {R : σ → τ → Prop} {Q : α → σ → τ → Prop}

theorem Tracks.ret (r : Outcome ε α) : Tracks R (fun _ => R) (Act.ret r : Act σ ε α) (Act.ret r) := by
  intro s t a s' h hx
  obtain ⟨rfl, rfl⟩ := Prod.mk.inj hx
  exact ⟨t, rfl, h⟩

theorem Tracks.read {f : σ → α} {g : τ → α} (h : ∀ s t, R s t → f s = g t) :
    Tracks R (fun _ => R) (Act.read f : Act σ ε α) (Act.read g) := by
  intro s t a s' hst hx
  obtain ⟨ha, rfl⟩ := Prod.mk.inj hx
  obtain rfl := Outcome.ok.inj ha
  refine ⟨t, ?_, hst⟩
  rw [read_apply, h s t hst]

theorem Tracks.modify {f : σ → σ} {g : τ → τ} (h : ∀ s t, R s t → R' (f s) (g t)) :
    Tracks R (fun _ => R') (Act.modify f : Act σ ε Unit) (Act.modify g) := by
  intro s t a s' hst hx
  obtain ⟨-, rfl⟩ := Prod.mk.inj hx
  exact ⟨g t, rfl, h s t hst⟩

theorem Tracks.bind {P : β → σ → τ → Prop} {x : Act σ ε α} {y : Act τ ε α} {f : α → Act σ ε β} {g : α → Act τ ε β}
    (hx : Tracks R Q x y) (hf : ∀ a, Tracks (Q a) P (f a) (g a)) : Tracks R P (Act.bind x f) (Act.bind y g) := by
  intro s t b s' hst hxf
  obtain ⟨a, s₁, h₁, h₂⟩ := bind_eq_ok.mp hxf
  obtain ⟨t₁, hy, hst₁⟩ := hx s t a s₁ hst h₁
  obtain ⟨t', hg, hst'⟩ := hf a s₁ t₁ b s' hst₁ h₂
  exact ⟨t', (bind_of_ok hy).trans hg, hst'⟩

/-- **The loop rule.** -/
theorem Tracks.each {f : β → Act σ ε Unit} {g : β → Act τ ε Unit} (h : ∀ b, Tracks R (fun _ => R) (f b) (g b)) :
    ∀ bs : List β, Tracks R (fun _ => R) (Act.each f bs) (Act.each g bs)
  | [] => Tracks.ret _
  | b :: bs => (h b).bind fun _ => Tracks.each h bs

end Act
