import Mathlib.Logic.Basic
import Mathlib.Tactic.Common
import Mathlib.Order.Defs.Unbundled

/-! # Outcomes of calls

The result of a call in a language with exceptions, panics and non-termination
(`Outcome`), and stateful calls (`Act`): a call reads and writes a state, and the state it
leaves behind is kept whatever the outcome is, so a failed call may have changed it.

* `Act.each` is the loop `for x in xs { f(x)?; }`.
* `Outcome.bind_eq_ok`, `Act.bind_eq_ok` peel a successful run of two calls apart.
* `Act.Keeps` relates the states before and after a call that does not panic, and `Act.Ensures`
  bounds what a call that succeeds and one that panics leave behind; both go through the
  combinators (`Keeps.bind`, `Keeps.each`, `Ensures.bind`, `Ensures.each`).
* `Act.Avoids`: a call does not fail with a given error.  `Act.Stays`: what holds
  however a call ends.
* `Act.Logs`: a call adds to a log, and only entries of one kind when it succeeds. -/

universe u v w

/-- How a call ends: the two sides of a fallible result, a panic, or no end at all. -/
inductive Outcome (ε : Type u) (α : Type v) where
  | ok (a : α)
  | err (e : ε)
  | panic
  | hang
deriving DecidableEq, Repr

namespace Outcome

variable {ε : Type u} {α : Type v} {β : Type w}

/-- Run `f` on the value of a successful call; every other outcome is passed on. -/
def bind (x : Outcome ε α) (f : α → Outcome ε β) : Outcome ε β :=
  match x with
  | ok a => f a
  | err e => err e
  | panic => panic
  | hang => hang

@[simp] theorem ok_bind (a : α) (f : α → Outcome ε β) : (ok a : Outcome ε α).bind f = f a := rfl
@[simp] theorem err_bind (e : ε) (f : α → Outcome ε β) : (err e : Outcome ε α).bind f = err e := rfl
@[simp] theorem panic_bind (f : α → Outcome ε β) : (panic : Outcome ε α).bind f = panic := rfl

theorem bind_eq_ok {x : Outcome ε α} {f : α → Outcome ε β} {b : β} :
    x.bind f = ok b ↔ ∃ a, x = ok a ∧ f a = ok b := by
  cases x <;> simp [bind]

theorem bind_eq_err {x : Outcome ε α} {f : α → Outcome ε β} {e : ε} :
    x.bind f = err e ↔ x = err e ∨ ∃ a, x = ok a ∧ f a = err e := by
  cases x <;> simp [bind]

theorem bind_eq_panic {x : Outcome ε α} {f : α → Outcome ε β} :
    x.bind f = panic ↔ x = panic ∨ ∃ a, x = ok a ∧ f a = panic := by
  cases x <;> simp [bind]

/-- The value of an option, or a panic: `expect` and `unwrap`. -/
def unwrap : Option α → Outcome ε α
  | some a => ok a
  | none => panic

@[simp] theorem unwrap_some (a : α) : (unwrap (some a) : Outcome ε α) = ok a := rfl
@[simp] theorem unwrap_none : (unwrap (none : Option α) : Outcome ε α) = panic := rfl

theorem unwrap_ne_err {o : Option α} {e : ε} : (unwrap o : Outcome ε α) ≠ err e := by
  cases o <;> simp

/-- The call succeeds. -/
def isOk : Outcome ε α → Bool
  | ok _ => true
  | _ => false

theorem isOk_iff {x : Outcome ε α} : x.isOk = true ↔ ∃ a, x = ok a := by
  cases x <;> simp [isOk]

/-- Change the error of a failed call. -/
def mapErr {ε' : Type} (f : ε → ε') : Outcome ε α → Outcome ε' α
  | ok a => ok a
  | err e => err (f e)
  | panic => panic
  | hang => hang

@[simp] theorem mapErr_eq_ok {ε' : Type} {f : ε → ε'} {x : Outcome ε α} {a : α} :
    x.mapErr f = ok a ↔ x = ok a := by
  cases x <;> simp [mapErr]

@[simp] theorem mapErr_eq_panic {ε' : Type} {f : ε → ε'} {x : Outcome ε α} :
    x.mapErr f = panic ↔ x = panic := by
  cases x <;> simp [mapErr]

@[simp] theorem mapErr_eq_hang {ε' : Type} {f : ε → ε'} {x : Outcome ε α} :
    x.mapErr f = hang ↔ x = hang := by
  cases x <;> simp [mapErr]

/-- `assert!`: a panic unless the condition holds. -/
def assert (b : Bool) : Outcome ε Unit := if b then ok () else panic

theorem assert_ne_err (b : Bool) (e : ε) : (assert b : Outcome ε Unit) ≠ err e := by
  cases b <;> simp [assert]

/-- Two calls fail alike. -/
def Fails : Outcome ε α → Outcome ε β → Prop
  | err e, err e' => e = e'
  | panic, panic => True
  | hang, hang => True
  | _, _ => False

theorem Fails.ne_ok {x : Outcome ε α} {y : Outcome ε β} (h : x.Fails y) (b : β) : y ≠ ok b := by
  rintro rfl
  cases x <;> exact h

theorem not_fails_ok {a : α} {y : Outcome ε β} : ¬(ok a : Outcome ε α).Fails y := by
  cases y <;> exact id

theorem Fails.ne_panic {x : Outcome ε α} {y : Outcome ε β} (h : x.Fails y) (hy : y ≠ panic) : x ≠ panic := by
  rintro rfl
  cases y <;> first | exact hy rfl | exact h

theorem Fails.ne_hang {x : Outcome ε α} {y : Outcome ε β} (h : x.Fails y) (hy : y ≠ hang) : x ≠ hang := by
  rintro rfl
  cases y <;> first | exact hy rfl | exact h

theorem Fails.eq_err {x : Outcome ε α} {e : ε} (h : x.Fails (err e : Outcome ε β)) : x = err e := by
  cases x with
  | err e' => exact congrArg err h
  | ok a => exact h.elim
  | panic => exact h.elim
  | hang => exact h.elim

end Outcome

/-- A stateful call: from a state to an outcome and the state left behind. -/
abbrev Act (σ : Type u) (ε : Type v) (α : Type w) := σ → Outcome ε α × σ

namespace Act

variable {σ ε α β : Type}

/-- A call that changes nothing. -/
def ret (x : Outcome ε α) : Act σ ε α := fun s => (x, s)

/-- Read something of the state. -/
def read (f : σ → α) : Act σ ε α := fun s => (.ok (f s), s)

/-- Change the state. -/
def modify (f : σ → σ) : Act σ ε Unit := fun s => (.ok (), f s)

/-- Run `f` after a successful `x`, on the state `x` leaves. -/
def bind (x : Act σ ε α) (f : α → Act σ ε β) : Act σ ε β := fun s =>
  match x s with
  | (.ok a, s') => f a s'
  | (.err e, s') => (.err e, s')
  | (.panic, s') => (.panic, s')
  | (.hang, s') => (.hang, s')

/-- `for x in xs { f(x)?; }` -/
def each (f : β → Act σ ε Unit) : List β → Act σ ε Unit
  | [] => ret (.ok ())
  | b :: bs => bind (f b) fun _ => each f bs

@[simp] theorem ret_apply (x : Outcome ε α) (s : σ) : (ret x : Act σ ε α) s = (x, s) := rfl

@[simp] theorem read_apply (f : σ → α) (s : σ) : (read f : Act σ ε α) s = (.ok (f s), s) := rfl
@[simp] theorem modify_apply (f : σ → σ) (s : σ) : (modify f : Act σ ε Unit) s = (.ok (), f s) := rfl

theorem eq_of_fst {x : Act σ ε α} {s : σ} {r : Outcome ε α} (h : (x s).1 = r) : x s = (r, (x s).2) :=
  Prod.ext h rfl

theorem read_bind (f : σ → α) (g : α → Act σ ε β) (s : σ) : bind (read f) g s = g (f s) s := rfl

theorem ret_ok_bind (a : α) (g : α → Act σ ε β) (s : σ) : bind (ret (.ok a)) g s = g a s := rfl

theorem ret_eq_ok {a b : α} {s s' : σ} :
    (ret (.ok a) : Act σ ε α) s = (.ok b, s') ↔ a = b ∧ s = s' := by
  simp

theorem bind_assoc {γ : Type} (x : Act σ ε α) (f : α → Act σ ε β) (g : β → Act σ ε γ) :
    bind (bind x f) g = bind x fun a => bind (f a) g := by
  funext s
  unfold bind
  obtain ⟨r, s'⟩ := x s
  cases r <;> rfl

theorem bind_of_ok {x : Act σ ε α} {f : α → Act σ ε β} {s s' : σ} {a : α} (h : x s = (.ok a, s')) :
    bind x f s = f a s' := by simp [bind, h]

theorem bind_eq_ok {x : Act σ ε α} {f : α → Act σ ε β} {s s' : σ} {b : β} :
    bind x f s = (.ok b, s') ↔ ∃ a s₁, x s = (.ok a, s₁) ∧ f a s₁ = (.ok b, s') := by
  unfold bind
  obtain ⟨r, s₁⟩ := x s
  cases r <;> simp

/-- A bind runs both calls, or fails as the first one does. -/
theorem bind_cases {x : Act σ ε α} {f : α → Act σ ε β} {s s' : σ} {r : Outcome ε β}
    (h : bind x f s = (r, s')) :
    (∃ a s₁, x s = (.ok a, s₁) ∧ f a s₁ = (r, s')) ∨ ∃ r₁, x s = (r₁, s') ∧ r₁.Fails r := by
  unfold bind at h
  rcases hxs : x s with ⟨r₁, s₁⟩
  rw [hxs] at h
  cases r₁ with
  | ok a => exact .inl ⟨a, s₁, rfl, h⟩
  | err e => obtain ⟨rfl, rfl⟩ := Prod.mk.inj h; exact .inr ⟨_, rfl, rfl⟩
  | panic => obtain ⟨rfl, rfl⟩ := Prod.mk.inj h; exact .inr ⟨_, rfl, trivial⟩
  | hang => obtain ⟨rfl, rfl⟩ := Prod.mk.inj h; exact .inr ⟨_, rfl, trivial⟩

theorem bind_ne_panic {x : Act σ ε α} {f : α → Act σ ε β} {s : σ} (hx : (x s).1 ≠ .panic)
    (hf : ∀ a s', (f a s').1 ≠ .panic) : (bind x f s).1 ≠ .panic := by
  unfold bind
  rcases hxs : x s with ⟨r, s'⟩
  rw [hxs] at hx
  cases r with
  | ok a => exact hf a s'
  | err e => simp
  | panic => exact absurd rfl hx
  | hang => simp

theorem bind_left_congr {x y : Act σ ε α} {s : σ} (h : x s = y s) (f : α → Act σ ε β) :
    bind x f s = bind y f s := by
  unfold bind
  rw [h]

/-- Two continuations that agree on what the first call can leave behind. -/
theorem bind_congr {x : Act σ ε α} {f g : α → Act σ ε β} {s : σ}
    (h : ∀ a s', x s = (.ok a, s') → f a s' = g a s') : bind x f s = bind x g s := by
  unfold bind
  rcases hx : x s with ⟨r, s'⟩
  cases r with
  | ok a => exact h a s' hx
  | err e => rfl
  | panic => rfl
  | hang => rfl

theorem each_append (f : β → Act σ ε Unit) : ∀ bs bs' : List β,
    each f (bs ++ bs') = bind (each f bs) fun _ => each f bs'
  | [], _ => rfl
  | b :: bs, bs' => by
      rw [List.cons_append, each, each_append f bs bs', each, bind_assoc]

/-! ### What a call preserves -/

/-- A call that does not panic leaves a state related to the one it started in. -/
def Keeps (R : σ → σ → Prop) (x : Act σ ε α) : Prop := ∀ s, (x s).1 ≠ .panic → R s (x s).2

variable {R : σ → σ → Prop} [IsPreorder σ R]

theorem Keeps.ret (x : Outcome ε α) : Keeps R (Act.ret x : Act σ ε α) := fun s _ => refl_of R s

theorem Keeps.bind {x : Act σ ε α} {f : α → Act σ ε β} (hx : Keeps R x)
    (hf : ∀ a s s', x s = (.ok a, s') → Keeps R (f a)) : Keeps R (Act.bind x f) := by
  intro s hs
  have h1 := hx s
  unfold Act.bind at hs ⊢
  rcases hxs : x s with ⟨r, s₁⟩
  rw [hxs] at h1 hs
  cases r with
  | ok a => exact trans_of R (h1 (by simp)) (hf a s s₁ hxs s₁ hs)
  | err e => exact h1 (by simp)
  | panic => exact absurd rfl hs
  | hang => exact h1 (by simp)

theorem Keeps.each {f : β → Act σ ε Unit} :
    ∀ (bs : List β), (∀ b ∈ bs, Keeps R (f b)) → Keeps R (Act.each f bs)
  | [], _ => Keeps.ret _
  | b :: bs, h =>
      (h b (by simp)).bind fun _ _ _ _ => Keeps.each bs fun b' hb' => h b' (by simp [hb'])

/-- What every pass of a successful loop establishes, and later passes keep, holds at its end. -/
theorem Keeps.each_ok {f : β → Act σ ε Unit} {P : β → σ → Prop}
    (hP : ∀ b s s', R s s' → P b s → P b s') (hf : ∀ b s s', f b s = (.ok (), s') → P b s') :
    ∀ {bs : List β}, (∀ b ∈ bs, Keeps R (f b)) → ∀ {s s' : σ}, Act.each f bs s = (.ok (), s') →
      ∀ b ∈ bs, P b s'
  | [], _, _, _, _ => by simp
  | b :: bs, hk, s, s', h => by
      obtain ⟨_, s₁, h1, h2⟩ := bind_eq_ok.mp h
      have hrest : ∀ b' ∈ bs, Keeps R (f b') := fun b' hb' => hk b' (by simp [hb'])
      have hkeep := Keeps.each bs hrest s₁ (by rw [h2]; simp)
      rw [h2] at hkeep
      intro b' hb'
      obtain rfl | hb' := List.mem_cons.mp hb'
      · exact hP b' s₁ s' hkeep (hf b' s s₁ h1)
      · exact Keeps.each_ok hP hf hrest h2 b' hb'

omit [IsPreorder σ R] in
/-- What every pass of a successful loop asks for, and no earlier pass could have brought about, held
at its start. -/
theorem Keeps.each_before {f : β → Act σ ε Unit} {P : β → σ → Prop}
    (hP : ∀ b s s', R s s' → P b s' → P b s) (hf : ∀ b s s', f b s = (.ok (), s') → P b s) :
    ∀ {bs : List β}, (∀ b ∈ bs, Keeps R (f b)) → ∀ {s s' : σ}, Act.each f bs s = (.ok (), s') →
      ∀ b ∈ bs, P b s
  | [], _, _, _, _ => by simp
  | b :: bs, hk, s, s', h => by
      obtain ⟨_, s₁, h1, h2⟩ := bind_eq_ok.mp h
      have hkeep := hk b (by simp) s (by rw [h1]; simp)
      rw [h1] at hkeep
      intro b' hb'
      obtain rfl | hb' := List.mem_cons.mp hb'
      · exact hf b' s s₁ h1
      · exact hP b' s s₁ hkeep (Keeps.each_before hP hf (fun b'' hb'' => hk b'' (by simp [hb''])) h2 b' hb')

/-- From a state of `I` the call does not fail with `e`, and stays in `I` whatever it does. -/
def Avoids (I : σ → Prop) (e : ε) (x : Act σ ε α) : Prop := ∀ s, I s → (x s).1 ≠ .err e ∧ I (x s).2

theorem Avoids.ret {I : σ → Prop} {e : ε} {x : Outcome ε α} (hx : x ≠ .err e) :
    Avoids I e (Act.ret x : Act σ ε α) := fun _ hs => ⟨hx, hs⟩

theorem Avoids.read {I : σ → Prop} {e : ε} (f : σ → α) : Avoids I e (Act.read f : Act σ ε α) :=
  fun _ hs => ⟨by simp, hs⟩

theorem Avoids.bind {I : σ → Prop} {e : ε} {x : Act σ ε α} {f : α → Act σ ε β} (hx : Avoids I e x)
    (hf : ∀ a, Avoids I e (f a)) : Avoids I e (Act.bind x f) := by
  intro s hs
  have h1 := hx s hs
  unfold Act.bind
  rcases hxs : x s with ⟨r, s₁⟩
  rw [hxs] at h1
  cases r with
  | ok a => exact hf a s₁ h1.2
  | err e' => exact ⟨fun h => h1.1 (by simpa using h), h1.2⟩
  | panic => exact ⟨by simp, h1.2⟩
  | hang => exact ⟨by simp, h1.2⟩

theorem Avoids.each {I : σ → Prop} {e : ε} {f : β → Act σ ε Unit} (hf : ∀ b, Avoids I e (f b)) :
    ∀ bs : List β, Avoids I e (Act.each f bs)
  | [] => Avoids.ret (by simp)
  | b :: bs => (hf b).bind fun _ => Avoids.each hf bs

/-! ### What holds however a call ends -/

/-- From a state of `I` a call that does not panic stays in `I`, and one that never ends is in `H`. -/
def Stays (I H : σ → Prop) (x : Act σ ε α) : Prop :=
  ∀ s, I s → (x s).1 ≠ .panic → I (x s).2 ∧ ((x s).1 = .hang → H (x s).2)

theorem Stays.ret {I H : σ → Prop} {x : Outcome ε α} (hx : x ≠ .hang) :
    Stays I H (Act.ret x : Act σ ε α) := fun _ hs _ => ⟨hs, fun h => absurd h hx⟩

theorem Stays.bind {I H : σ → Prop} {x : Act σ ε α} {f : α → Act σ ε β} (hx : Stays I H x)
    (hf : ∀ a, Stays I H (f a)) : Stays I H (Act.bind x f) := by
  intro s hs hr
  have h1 := hx s hs
  unfold Act.bind at hr ⊢
  rcases hxs : x s with ⟨r, s₁⟩
  rw [hxs] at h1 hr
  cases r with
  | ok a => exact hf a s₁ (h1 (by simp)).1 hr
  | err e => exact ⟨(h1 (by simp)).1, by simp⟩
  | panic => exact absurd rfl hr
  | hang => exact ⟨(h1 (by simp)).1, fun _ => (h1 (by simp)).2 rfl⟩

theorem Stays.each {I H : σ → Prop} {f : β → Act σ ε Unit} (hf : ∀ b, Stays I H (f b)) :
    ∀ bs : List β, Stays I H (Act.each f bs)
  | [] => Stays.ret (by simp)
  | b :: bs => (hf b).bind fun _ => Stays.each hf bs

theorem Stays.of_eq {I H : σ → Prop} {x : Act σ ε α} (h : Stays I H x) {s s' : σ} {r : Outcome ε α}
    (hx : x s = (r, s')) (hs : I s) (hr : r ≠ .panic) : I s' ∧ (r = .hang → H s') := by
  have := h s hs
  rw [hx] at this
  exact this hr

/-! ### What a call adds to a log -/

section logs

variable {γ : Type} {log : σ → List γ} {good : γ → Prop}

/-- However a call ends, it has added to the log, and only good entries when it succeeds. -/
def Logs (log : σ → List γ) (good : γ → Prop) (x : Act σ ε α) : Prop :=
  ∀ s, ∃ new, log (x s).2 = log s ++ new ∧ ((x s).1.isOk = true → ∀ c ∈ new, good c)

theorem Logs.of_same {x : Act σ ε α} (h : ∀ s, log (x s).2 = log s) : Logs log good x :=
  fun s => ⟨[], by rw [h, List.append_nil], by simp⟩

theorem Logs.ret (x : Outcome ε α) : Logs log good (Act.ret x : Act σ ε α) := .of_same fun _ => rfl

theorem Logs.bind {x : Act σ ε α} {f : α → Act σ ε β} (hx : Logs log good x) (hf : ∀ a, Logs log good (f a)) :
    Logs log good (Act.bind x f) := by
  intro s
  obtain ⟨new, hnew, hgood⟩ := hx s
  unfold Act.bind
  rcases hxs : x s with ⟨r, s₁⟩
  rw [hxs] at hnew hgood
  cases r with
  | ok a =>
      obtain ⟨new', hnew', hgood'⟩ := hf a s₁
      refine ⟨new ++ new', by rw [hnew', hnew, List.append_assoc], fun hok c hc => ?_⟩
      exact (List.mem_append.mp hc).elim (hgood rfl c) (hgood' hok c)
  | err e => exact ⟨new, hnew, fun h => by cases h⟩
  | panic => exact ⟨new, hnew, fun h => by cases h⟩
  | hang => exact ⟨new, hnew, fun h => by cases h⟩

theorem Logs.each {f : β → Act σ ε Unit} (hf : ∀ b, Logs log good (f b)) : ∀ bs : List β, Logs log good (Act.each f bs)
  | [] => Logs.ret _
  | b :: bs => (hf b).bind fun _ => Logs.each hf bs

/-- What the first call has added stays. -/
theorem Logs.mem_bind {x : Act σ ε α} {f : α → Act σ ε β} (hf : ∀ a, Logs log good (f a)) {s : σ} {c : γ}
    (hc : c ∈ log (x s).2) : c ∈ log (Act.bind x f s).2 := by
  unfold Act.bind
  rcases hxs : x s with ⟨r, s₁⟩
  rw [hxs] at hc
  cases r with
  | ok a =>
      obtain ⟨new, hnew, -⟩ := hf a s₁
      change c ∈ log (f a s₁).2
      rw [hnew]
      exact List.mem_append_left _ hc
  | err e => exact hc
  | panic => exact hc
  | hang => exact hc

/-- Entries that are good after a call were good before it. -/
theorem Logs.before {x : Act σ ε α} (h : Logs log good x) {s s' : σ} {r : Outcome ε α} (hx : x s = (r, s'))
    (hgood : ∀ c ∈ log s', good c) : ∀ c ∈ log s, good c := by
  obtain ⟨new, hnew, -⟩ := h s
  rw [hx] at hnew
  exact fun c hc => hgood c (hnew ▸ List.mem_append_left _ hc)

/-- A call that succeeds keeps the log good. -/
theorem Logs.after {x : Act σ ε α} (h : Logs log good x) {s s' : σ} {a : α} (hx : x s = (.ok a, s'))
    (hgood : ∀ c ∈ log s, good c) : ∀ c ∈ log s', good c := by
  obtain ⟨new, hnew, hnewgood⟩ := h s
  rw [hx] at hnew hnewgood
  intro c hc
  rw [hnew] at hc
  exact (List.mem_append.mp hc).elim (hgood c) (hnewgood rfl c)

end logs

/-! ### What a call ensures -/

/-- From `s`, a call that succeeds ends in `Q` and one that panics in `P`. -/
def Ensures (x : Act σ ε α) (s : σ) (Q : α → σ → Prop) (P : σ → Prop) : Prop :=
  match x s with
  | (.ok a, s') => Q a s'
  | (.panic, s') => P s'
  | _ => True

theorem Ensures.mono {x : Act σ ε α} {s : σ} {Q Q' : α → σ → Prop} {P : σ → Prop}
    (h : Ensures x s Q P) (hQ : ∀ a s', Q a s' → Q' a s') : Ensures x s Q' P := by
  unfold Ensures at *
  rcases hxs : x s with ⟨r, s'⟩
  rw [hxs] at h
  cases r with
  | ok a => exact hQ a s' h
  | err e => trivial
  | panic => exact h
  | hang => trivial

theorem Ensures.bind {x : Act σ ε α} {f : α → Act σ ε β} {s : σ} {Q : β → σ → Prop} {P : σ → Prop}
    (h : Ensures x s (fun a s' => Ensures (f a) s' Q P) P) : Ensures (Act.bind x f) s Q P := by
  unfold Ensures Act.bind at *
  rcases hxs : x s with ⟨r, s'⟩
  rw [hxs] at h
  cases r with
  | ok a => exact h
  | err e => trivial
  | panic => exact h
  | hang => trivial

theorem Ensures.read_bind {f : σ → α} {g : α → Act σ ε β} {s : σ} {Q : β → σ → Prop} {P : σ → Prop}
    (h : Ensures (g (f s)) s Q P) : Ensures (Act.bind (Act.read f) g) s Q P := h

/-- **The loop rule**: an invariant indexed by the passes made and those still to make. -/
theorem Ensures.each {I : List β → List β → σ → Prop} {P : σ → Prop} {f : β → Act σ ε Unit}
    (hstep : ∀ done b rest s, I done (b :: rest) s →
      Ensures (f b) s (fun _ s' => I (done ++ [b]) rest s') P) :
    ∀ {bs done : List β} {s : σ}, I done bs s →
      Ensures (Act.each f bs) s (fun _ s' => I (done ++ bs) [] s') P
  | [], done, s, h => by simpa [Ensures, Act.each] using h
  | b :: bs, done, s, h =>
      Ensures.bind ((hstep done b bs s h).mono fun _ s' hs' => by
        simpa using Ensures.each hstep hs')

theorem Ensures.of_ok {x : Act σ ε α} {s s' : σ} {a : α} {Q : α → σ → Prop} {P : σ → Prop}
    (h : Ensures x s Q P) (hx : x s = (.ok a, s')) : Q a s' := by
  simpa [Ensures, hx] using h

theorem Ensures.of_panic {x : Act σ ε α} {s s' : σ} {Q : α → σ → Prop} {P : σ → Prop}
    (h : Ensures x s Q P) (hx : x s = (.panic, s')) : P s' := by
  simpa [Ensures, hx] using h

end Act
