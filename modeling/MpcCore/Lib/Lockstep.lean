import Mathlib.Algebra.BigOperators.Group.Finset.Basic
import Mathlib.Algebra.Group.Action.Defs
import Mathlib.Algebra.Order.BigOperators.Group.Finset
import Mathlib.Data.Fintype.Basic
import Mathlib.Data.Fintype.Lattice
import Mathlib.Tactic.Common

/-! # Round-based processes over FIFO channels

Processes that work in rounds (`RoundProgram`): a round starts with local work, sends at most one
message to each process, then receives one message from each process it awaits, and ends with
local work on what was received.

* **Asynchronous runs.** `step` lets the processes proceed in any order, over one FIFO channel for
  each ordered pair; a fast process may be many rounds ahead of a slow one.
* `Reachable.has`: a property of single processes that the local work keeps holds in every run.
* **The lockstep run.** `lock` executes the rounds of all processes at once and hands every message
  over within its round.
* `Synced.step`, `Reachable.synced`: when a process awaits exactly those that send to it in the
  lockstep run (`Matched`), a process of an asynchronous run that ended `k` rounds has the state of
  round `k` of the lockstep run, and a channel holds the messages of the rounds in between, in order.
* `Synced.unread`: the first unread message is the one of the receiver's round.
* `Reachable.completes`: every run can be continued to the end of the lockstep run. -/

/-- A process that works in rounds: the local work before a round, with `none` when there is no
round any more and a state on the left when the work fails, the messages it sends then, the
processes it awaits a message from, and the local work after. -/
structure RoundProgram (P σ ρ μ : Type) where
  start : P → σ → Option (σ ⊕ ρ)
  sends : P → ρ → P → Option μ
  awaits : P → ρ → P → Bool
  finish : P → ρ → (P → Option μ) → σ

namespace RoundProgram

/-- A process between two rounds, one that failed before its round, or one in a round, with the
messages it has still to send and those it has received. -/
inductive Proc (P σ ρ μ : Type) where
  | idle (s : σ)
  | stopped (s : σ)
  | busy (r : ρ) (outbox inbox : P → Option μ)

/-- The processes and the channels from one to the other. -/
structure Net (P σ ρ μ : Type) where
  proc : P → Proc P σ ρ μ
  channel : P → P → List μ

/-- What can happen next.  The first argument is the process that acts. -/
inductive Event (P : Type) where
  | start (p : P)
  | send (p q : P)
  | recv (p q : P)
  | finish (p : P)

variable {P σ ρ μ : Type} [DecidableEq P]

/-- Replace one process. -/
def Net.setProc (net : Net P σ ρ μ) (p : P) (proc : Proc P σ ρ μ) : Net P σ ρ μ :=
  { net with proc := Function.update net.proc p proc }

/-- Replace the content of one channel. -/
def Net.setChannel (net : Net P σ ρ μ) (p q : P) (ms : List μ) : Net P σ ρ μ :=
  { net with channel := fun a b => if a = p ∧ b = q then ms else net.channel a b }

section Net

variable (net : Net P σ ρ μ) (p q : P) (proc : Proc P σ ρ μ) (ms : List μ)

@[simp] theorem Net.setProc_same : (net.setProc p proc).proc p = proc := by simp [setProc]

@[simp] theorem Net.setProc_ne {a : P} (h : a ≠ p) : (net.setProc p proc).proc a = net.proc a := by
  simp [setProc, h]

@[simp] theorem Net.setProc_channel : (net.setProc p proc).channel = net.channel := rfl

@[simp] theorem Net.setChannel_proc : (net.setChannel p q ms).proc = net.proc := rfl

@[simp] theorem Net.setChannel_same : (net.setChannel p q ms).channel p q = ms := by simp [setChannel]

theorem Net.setChannel_ne {a b : P} (h : ¬(a = p ∧ b = q)) :
    (net.setChannel p q ms).channel a b = net.channel a b := by
  simp [setChannel, h]

end Net

/-! ### Asynchronous runs -/

variable [Fintype P] (prog : RoundProgram P σ ρ μ)

/-- One event, when it can happen.  A process sends all its messages before it receives. -/
def step (net : Net P σ ρ μ) : Event P → Option (Net P σ ρ μ)
  | .start p =>
      match net.proc p with
      | .idle s =>
          (prog.start p s).map fun
            | .inl s' => net.setProc p (.stopped s')
            | .inr r => net.setProc p (.busy r (prog.sends p r) fun _ => none)
      | _ => none
  | .send p q =>
      match net.proc p with
      | .busy r outbox inbox =>
          (outbox q).map fun m =>
            (net.setProc p (.busy r (Function.update outbox q none) inbox)).setChannel p q
              (net.channel p q ++ [m])
      | _ => none
  | .recv p q =>
      match net.proc p, net.channel q p with
      | .busy r outbox inbox, m :: ms =>
          if (∀ a, (outbox a).isNone) ∧ prog.awaits p r q ∧ (inbox q).isNone then
            some ((net.setProc p (.busy r outbox (Function.update inbox q (some m)))).setChannel q p ms)
          else none
      | _, _ => none
  | .finish p =>
      match net.proc p with
      | .busy r outbox inbox =>
          if (∀ a, (outbox a).isNone) ∧ ∀ a, prog.awaits p r a → (inbox a).isSome then
            some (net.setProc p (.idle (prog.finish p r inbox)))
          else none
      | _ => none

/-- What each event does, and when it can happen. -/
inductive StepTo (net : Net P σ ρ μ) : Event P → Net P σ ρ μ → Prop where
  | stop {p : P} {s s' : σ} (hp : net.proc p = .idle s) (hs : prog.start p s = some (.inl s')) :
      StepTo net (.start p) (net.setProc p (.stopped s'))
  | start {p : P} {s : σ} {r : ρ} (hp : net.proc p = .idle s) (hr : prog.start p s = some (.inr r)) :
      StepTo net (.start p) (net.setProc p (.busy r (prog.sends p r) fun _ => none))
  | send {p q : P} {r : ρ} {outbox inbox : P → Option μ} {m : μ} (hp : net.proc p = .busy r outbox inbox)
      (hm : outbox q = some m) :
      StepTo net (.send p q) ((net.setProc p (.busy r (Function.update outbox q none) inbox)).setChannel p q
        (net.channel p q ++ [m]))
  | recv {p q : P} {r : ρ} {outbox inbox : P → Option μ} {m : μ} {ms : List μ}
      (hp : net.proc p = .busy r outbox inbox) (ha : prog.awaits p r q = true) (hin : inbox q = none)
      (hc : net.channel q p = m :: ms) :
      StepTo net (.recv p q)
        ((net.setProc p (.busy r outbox (Function.update inbox q (some m)))).setChannel q p ms)
  | finish {p : P} {r : ρ} {outbox inbox : P → Option μ} (hp : net.proc p = .busy r outbox inbox)
      (hout : ∀ a, outbox a = none) (hin : ∀ a, prog.awaits p r a = true → (inbox a).isSome) :
      StepTo net (.finish p) (net.setProc p (.idle (prog.finish p r inbox)))

variable {prog} in
theorem stepTo_of_step {net net' : Net P σ ρ μ} {ev : Event P} (hs : prog.step net ev = some net') :
    prog.StepTo net ev net' := by
  cases ev with
  | start p =>
      cases hp : net.proc p with
      | stopped s => simp [RoundProgram.step, hp] at hs
      | busy r outbox inbox => simp [RoundProgram.step, hp] at hs
      | idle s =>
          simp only [RoundProgram.step, hp, Option.map_eq_some_iff] at hs
          obtain ⟨next, hnext, rfl⟩ := hs
          cases next with
          | inl s' => exact .stop hp hnext
          | inr r => exact .start hp hnext
  | send p q =>
      cases hp : net.proc p with
      | idle s => simp [RoundProgram.step, hp] at hs
      | stopped s => simp [RoundProgram.step, hp] at hs
      | busy r outbox inbox =>
          obtain ⟨m, hout, rfl⟩ : ∃ m, outbox q = some m ∧ _ = net' := by
            simpa [RoundProgram.step, hp] using hs
          exact .send hp hout
  | recv p q =>
      cases hp : net.proc p with
      | idle s => simp [RoundProgram.step, hp] at hs
      | stopped s => simp [RoundProgram.step, hp] at hs
      | busy r outbox inbox =>
          cases hc : net.channel q p with
          | nil => simp [RoundProgram.step, hp, hc] at hs
          | cons m ms =>
              obtain ⟨⟨-, ha, hin⟩, rfl⟩ : (_ ∧ prog.awaits p r q = true ∧ inbox q = none) ∧ _ = net' := by
                simpa [RoundProgram.step, hp, hc] using hs
              exact .recv hp ha hin hc
  | finish p =>
      cases hp : net.proc p with
      | idle s => simp [RoundProgram.step, hp] at hs
      | stopped s => simp [RoundProgram.step, hp] at hs
      | busy r outbox inbox =>
          obtain ⟨⟨hout, hin⟩, rfl⟩ :
              ((∀ a, outbox a = none) ∧ ∀ a, prog.awaits p r a = true → (inbox a).isSome = true) ∧ _ = net' := by
            simpa [RoundProgram.step, hp] using hs
          exact .finish hp hout hin

/-- All processes before their first round, all channels empty. -/
def initial (init : P → σ) : Net P σ ρ μ := ⟨fun p => .idle (init p), fun _ _ => []⟩

/-- The nets that any order of events leads to from a given one. -/
inductive Reachable (net : Net P σ ρ μ) : Net P σ ρ μ → Prop where
  | refl : Reachable net net
  | step {net₁ net₂ : Net P σ ρ μ} {ev : Event P} (h : Reachable net net₁)
      (hs : prog.step net₁ ev = some net₂) : Reachable net net₂

variable {prog} in
theorem Reachable.trans {net net₁ net₂ : Net P σ ρ μ} (h : prog.Reachable net net₁)
    (h' : prog.Reachable net₁ net₂) : prog.Reachable net net₂ := by
  induction h' with
  | refl => exact h
  | step _ hs ih => exact ih.step hs

/-- The given events one after the other. -/
def run (net : Net P σ ρ μ) : List (Event P) → Option (Net P σ ρ μ)
  | [] => some net
  | ev :: evs => (prog.step net ev).bind fun net' => run net' evs

variable {prog} in
theorem Reachable.run {net net₁ net₂ : Net P σ ρ μ} {evs : List (Event P)} (h : prog.Reachable net net₁)
    (hrun : prog.run net₁ evs = some net₂) : prog.Reachable net net₂ := by
  induction evs generalizing net₁ with
  | nil =>
      obtain rfl := Option.some.inj hrun
      exact h
  | cons ev evs ih =>
      obtain ⟨net', hs, hrest⟩ := Option.bind_eq_some_iff.mp hrun
      exact ih (h.step hs) hrest

/-- A process between two rounds has `I`, and one in a round has `B`. -/
def Proc.Has (I : σ → Prop) (B : ρ → Prop) : Proc P σ ρ μ → Prop
  | .idle s => I s
  | .stopped _ => True
  | .busy r _ _ => B r

/-- **Local invariants**: what the processes have before their first round, and what the local work
keeps whatever is received, they have in every reachable net. -/
theorem Reachable.has {prog : RoundProgram P σ ρ μ} {I : P → σ → Prop} {B : P → ρ → Prop} {init : P → σ}
    (hinit : ∀ p, I p (init p)) (hstart : ∀ p s r, I p s → prog.start p s = some (.inr r) → B p r)
    (hfinish : ∀ p r inbox, B p r → I p (prog.finish p r inbox)) {net : Net P σ ρ μ}
    (h : prog.Reachable (initial init) net) (p : P) : (net.proc p).Has (I p) (B p) := by
  induction h generalizing p with
  | refl => exact hinit p
  | @step net₁ net₂ ev _ hs ih =>
      have hset : ∀ {q : P} {proc : Proc P σ ρ μ}, proc.Has (I q) (B q) →
          ((net₁.setProc q proc).proc p).Has (I p) (B p) := by
        intro q proc hq
        by_cases hpq : p = q
        · subst hpq
          rwa [Net.setProc_same]
        · rw [Net.setProc_ne _ _ _ hpq]
          exact ih p
      cases stepTo_of_step hs with
      | stop _ _ => exact hset trivial
      | @start q s r hp hr =>
          have hq := ih q
          rw [hp] at hq
          exact hset (hstart q s r hq hr)
      | @send q _ r outbox inbox m hp _ =>
          have hq := ih q
          rw [hp] at hq
          exact hset hq
      | @recv q _ r outbox inbox m ms hp _ _ _ =>
          have hq := ih q
          rw [hp] at hq
          exact hset hq
      | @finish q r outbox inbox hp _ _ =>
          have hq := ih q
          rw [hp] at hq
          exact hset (hfinish q r inbox hq)

/-! ### The lockstep run -/

/-- The processes in the round that follows the given states. -/
def staged (l : P → Option σ) (p : P) : Option ρ := ((l p).bind (prog.start p)).bind Sum.getRight?

/-- The message of that round from `p` to `q`. -/
def posted (l : P → Option σ) (p q : P) : Option μ := (prog.staged l p).bind fun r => prog.sends p r q

/-- The states after that round. -/
def advance (l : P → Option σ) (p : P) : Option σ :=
  (prog.staged l p).bind fun r =>
    if ∀ q, prog.awaits p r q → (prog.posted l q p).isSome then
      some (prog.finish p r fun q => if prog.awaits p r q then prog.posted l q p else none)
    else none

/-- The states after `k` rounds of the lockstep run. -/
def lock (init : P → σ) : ℕ → P → Option σ
  | 0 => fun p => some (init p)
  | k + 1 => prog.advance (lock init k)

/-- In the lockstep run a process awaits exactly those that send to it. -/
def Matched (init : P → σ) : Prop :=
  ∀ k p q r r', prog.staged (prog.lock init k) p = some r → prog.staged (prog.lock init k) q = some r' →
    ((prog.sends p r q).isSome ↔ prog.awaits q r' p = true)

/-! ### Segments of a sequence of messages -/

/-- The messages of the rounds from `lo` on and before `hi`, in order. -/
def segment (f : ℕ → Option μ) (lo hi : ℕ) : List μ := (List.range' lo (hi - lo)).filterMap f

omit [DecidableEq P] [Fintype P] in
theorem segment_of_le {f : ℕ → Option μ} {lo hi : ℕ} (h : hi ≤ lo) : segment f lo hi = [] := by
  simp [segment, Nat.sub_eq_zero_of_le h]

omit [DecidableEq P] [Fintype P] in
theorem segment_snoc {f : ℕ → Option μ} {lo hi : ℕ} {m : μ} (h : lo ≤ hi) (hf : f hi = some m) :
    segment f lo (hi + 1) = segment f lo hi ++ [m] := by
  have hlen : hi + 1 - lo = (hi - lo) + 1 := by omega
  have hlast : lo + (hi - lo) = hi := by omega
  simp [segment, hlen, List.range'_concat, hlast, hf]

omit [DecidableEq P] [Fintype P] in
theorem segment_snoc_none {f : ℕ → Option μ} {lo hi : ℕ} (hf : f hi = none) :
    segment f lo (hi + 1) = segment f lo hi := by
  by_cases h : lo ≤ hi
  · have hlen : hi + 1 - lo = (hi - lo) + 1 := by omega
    have hlast : lo + (hi - lo) = hi := by omega
    simp [segment, hlen, List.range'_concat, hlast, hf]
  · rw [segment_of_le (by omega), segment_of_le (by omega)]

omit [DecidableEq P] [Fintype P] in
theorem segment_cons {f : ℕ → Option μ} {lo hi : ℕ} (h : lo < hi) :
    segment f lo hi = (f lo).toList ++ segment f (lo + 1) hi := by
  have hlen : hi - lo = (hi - (lo + 1)) + 1 := by omega
  unfold segment
  rw [hlen, List.range'_succ, List.filterMap_cons]
  cases f lo <;> rfl

omit [DecidableEq P] [Fintype P] in
theorem segment_cons_none {f : ℕ → Option μ} {lo hi : ℕ} (hf : f lo = none) :
    segment f (lo + 1) hi = segment f lo hi := by
  by_cases h : lo < hi
  · rw [segment_cons h, hf]; rfl
  · rw [segment_of_le (by omega), segment_of_le (by omega)]

omit [DecidableEq P] [Fintype P] in
theorem segment_append {f : ℕ → Option μ} {lo mid hi : ℕ} (h : lo ≤ mid) (h' : mid ≤ hi) :
    segment f lo hi = segment f lo mid ++ segment f mid hi := by
  have hlen : hi - lo = (mid - lo) + (hi - mid) := by omega
  have hmid : lo + (mid - lo) = mid := by omega
  rw [segment, segment, segment, hlen, ← List.range'_append_1, hmid, List.filterMap_append]

/-! ### What an asynchronous run keeps -/

variable {prog} {init : P → σ}

omit [DecidableEq P] [Fintype P] in
theorem staged_eq_some {l : P → Option σ} {p : P} {r : ρ} :
    prog.staged l p = some r ↔ ∃ s, l p = some s ∧ prog.start p s = some (.inr r) := by
  simp [staged, Option.bind_eq_some_iff]

omit [DecidableEq P] [Fintype P] in
theorem posted_eq_some {l : P → Option σ} {p q : P} {m : μ} :
    prog.posted l p q = some m ↔ ∃ r, prog.staged l p = some r ∧ prog.sends p r q = some m := by
  simp [posted, Option.bind_eq_some_iff]

omit [DecidableEq P] in
theorem staged_of_lock {k : ℕ} {p : P} {s : σ} (h : prog.lock init (k + 1) p = some s) :
    ∃ r, prog.staged (prog.lock init k) p = some r := by
  unfold lock advance at h
  obtain ⟨r, hr, -⟩ := Option.bind_eq_some_iff.mp h
  exact ⟨r, hr⟩

omit [DecidableEq P] in
theorem staged_of_lt {k k' : ℕ} {p : P} {s : σ} (h : prog.lock init k' p = some s) (hk : k < k') :
    ∃ r, prog.staged (prog.lock init k) p = some r := by
  induction k' generalizing s with
  | zero => omega
  | succ k' ih =>
      obtain ⟨r, hr⟩ := staged_of_lock h
      by_cases hkk : k = k'
      · exact ⟨r, hkk ▸ hr⟩
      · obtain ⟨s', hs', -⟩ := staged_eq_some.mp hr
        exact ih hs' (by omega)

omit [DecidableEq P] in
/-- What a process that has a state after a later round has made of this one. -/
theorem lock_succ_of_lt {k k' : ℕ} {p : P} {s : σ} {r : ρ} (h : prog.lock init k' p = some s) (hk : k < k')
    (hr : prog.staged (prog.lock init k) p = some r) :
    prog.lock init (k + 1) p = some (prog.finish p r fun q =>
      if prog.awaits p r q then prog.posted (prog.lock init k) q p else none) := by
  obtain ⟨s', hs'⟩ : ∃ s', prog.lock init (k + 1) p = some s' := by
    obtain rfl | hlt : k + 1 = k' ∨ k + 1 < k' := by omega
    · exact ⟨s, h⟩
    · obtain ⟨r', hr'⟩ := staged_of_lt h hlt
      obtain ⟨s', hs', -⟩ := staged_eq_some.mp hr'
      exact ⟨s', hs'⟩
  have hadvance := hs'
  unfold lock advance at hadvance
  rw [hr, Option.bind_some] at hadvance
  split at hadvance
  · rw [hs', hadvance]
  · cases hadvance

variable (prog init) in
/-- A process that has ended `k` rounds, as the lockstep run has it. -/
inductive ProcAt (p : P) (k : ℕ) : Proc P σ ρ μ → Prop where
  | idle {s : σ} (h : prog.lock init k p = some s) : ProcAt p k (.idle s)
  | stopped {s s' : σ} (h : prog.lock init k p = some s) (hs : prog.start p s = some (.inl s')) :
      ProcAt p k (.stopped s')
  | busy {r : ρ} {outbox inbox : P → Option μ} (h : prog.staged (prog.lock init k) p = some r)
      (hout : ∀ q m, outbox q = some m → prog.sends p r q = some m)
      (hin : ∀ q m, inbox q = some m →
        prog.awaits p r q = true ∧ prog.posted (prog.lock init k) q p = some m) :
      ProcAt p k (.busy r outbox inbox)

/-- Is the round's message for `q` sent? -/
def Proc.sent : Proc P σ ρ μ → P → ℕ
  | .busy _ outbox _, q => if (outbox q).isNone then 1 else 0
  | _, _ => 0

/-- Is the round's message from `q` received? -/
def Proc.got : Proc P σ ρ μ → P → ℕ
  | .busy _ _ inbox, q => if (inbox q).isSome then 1 else 0
  | _, _ => 0

/-- The rounds whose message from `p` to `q` is sent are those before this one. -/
def Net.written (net : Net P σ ρ μ) (count : P → ℕ) (p q : P) : ℕ := count p + (net.proc p).sent q

/-- The rounds whose message from `p` to `q` is received are those before this one. -/
def Net.taken (net : Net P σ ρ μ) (count : P → ℕ) (p q : P) : ℕ := count q + (net.proc q).got p

variable (prog init) in
/-- Every process is where the lockstep run has it after the rounds it has ended, and every channel
holds the messages of the rounds in between. -/
structure Synced (count : P → ℕ) (net : Net P σ ρ μ) : Prop where
  proc : ∀ p, ProcAt prog init p (count p) (net.proc p)
  ahead : ∀ p q k, k < net.taken count p q → (prog.posted (prog.lock init k) p q).isSome →
    k < net.written count p q
  channel : ∀ p q, net.channel p q =
    segment (fun k => prog.posted (prog.lock init k) p q) (net.taken count p q) (net.written count p q)

/-- The rounds ended after an event. -/
def Event.count (count : P → ℕ) : Event P → P → ℕ
  | .finish p => Function.update count p (count p + 1)
  | _ => count

omit [DecidableEq P] in
theorem synced_initial : Synced prog init (fun _ => 0) (initial init) where
  proc _ := .idle rfl
  ahead _ _ k h := by simp [Net.taken, initial, Proc.got] at h
  channel _ _ := by simp [initial, Net.taken, Net.written, Proc.got, Proc.sent, segment]

section

variable {count : P → ℕ} {net net' : Net P σ ρ μ} {p q : P} {k : ℕ} {r : ρ} {outbox inbox : P → Option μ}

omit [DecidableEq P] in
theorem Synced.staged (h : Synced prog init count net) (hp : net.proc p = .busy r outbox inbox) :
    prog.staged (prog.lock init (count p)) p = some r := by
  have := h.proc p
  rw [hp] at this
  cases this with
  | busy hr _ _ => exact hr

omit [DecidableEq P] in
theorem Synced.outbox_eq (h : Synced prog init count net) (hp : net.proc p = .busy r outbox inbox) {m : μ}
    (hm : outbox q = some m) : prog.sends p r q = some m := by
  have := h.proc p
  rw [hp] at this
  cases this with
  | busy _ hout _ => exact hout q m hm

omit [DecidableEq P] in
theorem Synced.inbox_eq (h : Synced prog init count net) (hp : net.proc p = .busy r outbox inbox) {m : μ}
    (hm : inbox q = some m) :
    prog.awaits p r q = true ∧ prog.posted (prog.lock init (count p)) q p = some m := by
  have := h.proc p
  rw [hp] at this
  cases this with
  | busy _ _ hin => exact hin q m hm

omit [DecidableEq P] in
theorem Synced.locked (h : Synced prog init count net) (p : P) :
    ∃ s, prog.lock init (count p) p = some s := by
  have hat := h.proc p
  cases hp : net.proc p with
  | idle s => rw [hp] at hat; cases hat with | idle hs => exact ⟨s, hs⟩
  | stopped s => rw [hp] at hat; cases hat with | stopped hs _ => exact ⟨_, hs⟩
  | busy r outbox inbox =>
      obtain ⟨s, hs, -⟩ := staged_eq_some.mp (h.staged hp)
      exact ⟨s, hs⟩

omit [DecidableEq P] in
/-- A process has reached every round whose message it has sent. -/
theorem Synced.staged_of_written (h : Synced prog init count net) (hk : k < net.written count p q) :
    ∃ r, prog.staged (prog.lock init k) p = some r := by
  obtain ⟨s, hs⟩ := h.locked p
  unfold Net.written at hk
  cases hp : net.proc p with
  | idle s' => exact staged_of_lt hs (by simpa [hp, Proc.sent] using hk)
  | stopped s' => exact staged_of_lt hs (by simpa [hp, Proc.sent] using hk)
  | busy r outbox inbox =>
      by_cases hkp : k = count p
      · exact ⟨r, hkp ▸ h.staged hp⟩
      · have : (net.proc p).sent q ≤ 1 := by simp only [hp, Proc.sent]; split <;> omega
        exact staged_of_lt hs (by omega)

omit [DecidableEq P] in
/-- In a round that both have reached, one awaits the other exactly when a message is posted. -/
theorem Matched.posted_isSome (hm : prog.Matched init) {r' : ρ}
    (hp : prog.staged (prog.lock init k) p = some r) (hq : prog.staged (prog.lock init k) q = some r') :
    (prog.posted (prog.lock init k) q p).isSome ↔ prog.awaits p r q = true := by
  rw [posted, hq, Option.bind_some]
  exact hm k q p r' r hq hp

omit [DecidableEq P] in
/-- **The first unread message** on the channel to a process that awaits one is the message of the
round that process is in, and the rest are those of later rounds. -/
theorem Synced.unread (hm : prog.Matched init) (h : Synced prog init count net)
    (hp : net.proc p = .busy r outbox inbox) (ha : prog.awaits p r q = true) (hin : inbox q = none) {m : μ}
    {ms : List μ} (hc : net.channel q p = m :: ms) :
    prog.posted (prog.lock init (count p)) q p = some m ∧
      ms = segment (fun k => prog.posted (prog.lock init k) q p) (count p + 1) (net.written count q p) ∧
      count p < net.written count q p := by
  have htaken : net.taken count q p = count p := by simp [Net.taken, hp, Proc.got, hin]
  have hseg := h.channel q p
  rw [hc, htaken] at hseg
  have hlt : count p < net.written count q p := by
    by_contra hle
    rw [segment_of_le (by omega)] at hseg
    exact absurd hseg (by simp)
  obtain ⟨r', hr'⟩ := h.staged_of_written hlt
  obtain ⟨m', hm'⟩ := Option.isSome_iff_exists.mp ((hm.posted_isSome (h.staged hp) hr').mpr ha)
  rw [segment_cons hlt, hm'] at hseg
  obtain ⟨rfl, hms⟩ : m = m' ∧ ms = _ := by simpa using hseg
  exact ⟨hm', hms, hlt⟩

omit [DecidableEq P] in
theorem Synced.lock_idle (h : Synced prog init count net) {s : σ} (hp : net.proc p = .idle s) :
    prog.lock init (count p) p = some s := by
  have := h.proc p
  rw [hp] at this
  cases this with
  | idle hs => exact hs

/-! ### One event -/

omit [Fintype P] in
theorem Net.written_setProc {proc : Proc P σ ρ μ} (h : proc.sent = (net.proc p).sent) :
    (net.setProc p proc).written count = net.written count := by
  funext a b
  by_cases ha : a = p
  · subst ha
    simp [Net.written, h]
  · simp [Net.written, ha]

omit [Fintype P] in
theorem Net.taken_setProc {proc : Proc P σ ρ μ} (h : proc.got = (net.proc p).got) :
    (net.setProc p proc).taken count = net.taken count := by
  funext a b
  by_cases hb : b = p
  · subst hb
    simp [Net.taken, h]
  · simp [Net.taken, hb]

omit [Fintype P] in
@[simp] theorem Net.written_setChannel (ms : List μ) :
    (net.setChannel p q ms).written count = net.written count := rfl

omit [Fintype P] in
@[simp] theorem Net.taken_setChannel (ms : List μ) : (net.setChannel p q ms).taken count = net.taken count := rfl

theorem Synced.setProc (h : Synced prog init count net) {proc : Proc P σ ρ μ}
    (hp : ProcAt prog init p (count p) proc) (a : P) : ProcAt prog init a (count a) ((net.setProc p proc).proc a) := by
  by_cases ha : a = p
  · subst ha
    rwa [Net.setProc_same]
  · rw [Net.setProc_ne _ _ _ ha]
    exact h.proc a

theorem Synced.stop (h : Synced prog init count net) {s s' : σ} (hp : net.proc p = .idle s)
    (hs : prog.start p s = some (.inl s')) : Synced prog init count (net.setProc p (.stopped s')) := by
  have hwritten : (net.setProc p (.stopped s')).written count = net.written count :=
    Net.written_setProc (by rw [hp]; rfl)
  have htaken : (net.setProc p (.stopped s')).taken count = net.taken count :=
    Net.taken_setProc (by rw [hp]; rfl)
  refine ⟨h.setProc (.stopped (h.lock_idle hp) hs), ?_, ?_⟩
  · rw [hwritten, htaken]
    exact h.ahead
  · rw [hwritten, htaken, Net.setProc_channel]
    exact h.channel

theorem Synced.start (h : Synced prog init count net) {s : σ} (hp : net.proc p = .idle s)
    (hr : prog.start p s = some (.inr r)) :
    Synced prog init count (net.setProc p (.busy r (prog.sends p r) fun _ => none)) := by
  have hstaged : prog.staged (prog.lock init (count p)) p = some r :=
    staged_eq_some.mpr ⟨s, h.lock_idle hp, hr⟩
  have htaken : (net.setProc p (.busy r (prog.sends p r) fun _ => none)).taken count = net.taken count :=
    Net.taken_setProc (by rw [hp]; rfl)
  have hwritten : ∀ a b, a ≠ p → (net.setProc p (.busy r (prog.sends p r) fun _ => none)).written count a b =
      net.written count a b := by
    intro a b ha
    simp [Net.written, ha]
  have hold : ∀ b, net.written count p b = count p := by simp [Net.written, hp, Proc.sent]
  have hnew : ∀ b, (net.setProc p (.busy r (prog.sends p r) fun _ => none)).written count p b =
      count p + if (prog.sends p r b).isNone then 1 else 0 := by simp [Net.written, Proc.sent]
  refine ⟨h.setProc (.busy hstaged (fun _ _ => id) (by simp)), fun a b k hk hpost => ?_, fun a b => ?_⟩
  · rw [htaken] at hk
    have hk := h.ahead a b k hk hpost
    by_cases ha : a = p
    · subst ha
      rw [hold] at hk
      rw [hnew]
      omega
    · rwa [hwritten a b ha]
  · rw [htaken, Net.setProc_channel, h.channel]
    by_cases ha : a = p
    · subst ha
      rw [hold, hnew]
      split
      · next hnone =>
          rw [segment_snoc_none]
          simpa [posted, hstaged] using hnone
      · rfl
    · rw [hwritten a b ha]

theorem Synced.send (h : Synced prog init count net) (hp : net.proc p = .busy r outbox inbox) {m : μ}
    (hm : outbox q = some m) :
    Synced prog init count
      ((net.setProc p (.busy r (Function.update outbox q none) inbox)).setChannel p q
        (net.channel p q ++ [m])) := by
  have hpost : prog.posted (prog.lock init (count p)) p q = some m := by
    rw [posted, h.staged hp, Option.bind_some, h.outbox_eq hp hm]
  have htaken : (net.setProc p (.busy r (Function.update outbox q none) inbox)).taken count = net.taken count :=
    Net.taken_setProc (by rw [hp]; rfl)
  have hwritten : ∀ a b, ¬(a = p ∧ b = q) →
      (net.setProc p (.busy r (Function.update outbox q none) inbox)).written count a b =
        net.written count a b := by
    intro a b hab
    by_cases ha : a = p
    · subst ha
      have hb : b ≠ q := fun hb => hab ⟨rfl, hb⟩
      simp [Net.written, hp, Proc.sent, hb]
    · simp [Net.written, ha]
  have hold : net.written count p q = count p := by simp [Net.written, hp, Proc.sent, hm]
  have hnew : (net.setProc p (.busy r (Function.update outbox q none) inbox)).written count p q = count p + 1 := by
    simp [Net.written, Proc.sent]
  -- the receiver has not taken this round's message, which was not there
  have hle : net.taken count p q ≤ count p := by
    by_contra hlt
    have := h.ahead p q (count p) (by omega) (by simp [hpost])
    omega
  refine ⟨fun a => ?_, fun a b k hk hk' => ?_, fun a b => ?_⟩
  · rw [Net.setChannel_proc]
    refine h.setProc (.busy (h.staged hp) (fun b m' hm' => ?_) fun b m' hm' => h.inbox_eq hp hm') a
    by_cases hb : b = q
    · subst hb; simp at hm'
    · exact h.outbox_eq hp (by simpa [hb] using hm')
  · rw [Net.taken_setChannel, htaken] at hk
    rw [Net.written_setChannel]
    have hk := h.ahead a b k hk hk'
    by_cases hab : a = p ∧ b = q
    · obtain ⟨rfl, rfl⟩ := hab
      omega
    · rwa [hwritten a b hab]
  · rw [Net.taken_setChannel, Net.written_setChannel, htaken]
    by_cases hab : a = p ∧ b = q
    · obtain ⟨rfl, rfl⟩ := hab
      rw [Net.setChannel_same, hnew, h.channel, hold, segment_snoc hle hpost]
    · rw [Net.setChannel_ne _ _ _ _ hab, Net.setProc_channel, h.channel, hwritten a b hab]

theorem Synced.recv (hm : prog.Matched init) (h : Synced prog init count net)
    (hp : net.proc p = .busy r outbox inbox) (ha : prog.awaits p r q = true) (hin : inbox q = none) {m : μ}
    {ms : List μ} (hc : net.channel q p = m :: ms) :
    Synced prog init count
      ((net.setProc p (.busy r outbox (Function.update inbox q (some m)))).setChannel q p ms) := by
  obtain ⟨hpost, hms, hlt⟩ := h.unread hm hp ha hin hc
  have hwritten : (net.setProc p (.busy r outbox (Function.update inbox q (some m)))).written count =
      net.written count := Net.written_setProc (by rw [hp]; rfl)
  have htaken : ∀ a b, ¬(a = q ∧ b = p) →
      (net.setProc p (.busy r outbox (Function.update inbox q (some m)))).taken count a b = net.taken count a b := by
    intro a b hab
    by_cases hb : b = p
    · subst hb
      have ha' : a ≠ q := fun ha' => hab ⟨ha', rfl⟩
      simp [Net.taken, hp, Proc.got, ha']
    · simp [Net.taken, hb]
  have hnew : (net.setProc p (.busy r outbox (Function.update inbox q (some m)))).taken count q p =
      count p + 1 := by simp [Net.taken, Proc.got]
  refine ⟨fun a => ?_, fun a b k hk hk' => ?_, fun a b => ?_⟩
  · rw [Net.setChannel_proc]
    refine h.setProc (.busy (h.staged hp) (fun b m' hm' => h.outbox_eq hp hm') fun b m' hm' => ?_) a
    by_cases hb : b = q
    · subst hb
      obtain rfl : m = m' := by simpa using hm'
      exact ⟨ha, hpost⟩
    · exact h.inbox_eq hp (by simpa [hb] using hm')
  · rw [Net.taken_setChannel] at hk
    rw [Net.written_setChannel, hwritten]
    by_cases hab : a = q ∧ b = p
    · obtain ⟨rfl, rfl⟩ := hab
      rw [hnew] at hk
      omega
    · rw [htaken a b hab] at hk
      exact h.ahead a b k hk hk'
  · rw [Net.taken_setChannel, Net.written_setChannel, hwritten]
    by_cases hab : a = q ∧ b = p
    · obtain ⟨rfl, rfl⟩ := hab
      rw [Net.setChannel_same, hnew, hms]
    · rw [Net.setChannel_ne _ _ _ _ hab, Net.setProc_channel, h.channel, htaken a b hab]

omit [DecidableEq P] in
/-- A process with all its messages has those of the lockstep run. -/
theorem Synced.inbox_eq_posted (h : Synced prog init count net) (hp : net.proc p = .busy r outbox inbox)
    (hin : ∀ a, prog.awaits p r a = true → (inbox a).isSome) :
    inbox = fun q => if prog.awaits p r q then prog.posted (prog.lock init (count p)) q p else none := by
  funext q
  cases hq : inbox q with
  | some m =>
      obtain ⟨ha, hpost⟩ := h.inbox_eq hp hq
      simp [ha, hpost]
  | none =>
      have ha : prog.awaits p r q = false := by
        by_contra ha
        simpa [hq] using hin q (by simpa using ha)
      simp [ha]

omit [DecidableEq P] in
/-- What a process with all its messages has not received is not sent in its round either. -/
theorem Synced.posted_eq_none (hm : prog.Matched init) (h : Synced prog init count net)
    (hp : net.proc p = .busy r outbox inbox) (hin : ∀ a, prog.awaits p r a = true → (inbox a).isSome)
    (hnone : inbox q = none) : prog.posted (prog.lock init (count p)) q p = none := by
  by_contra hpost
  obtain ⟨r', hr', -⟩ := posted_eq_some.mp (Option.ne_none_iff_exists'.mp hpost).choose_spec
  have hpost' := (hm.posted_isSome (h.staged hp) hr').mp (Option.isSome_iff_ne_none.mpr hpost)
  simpa [hnone] using hin q hpost'

theorem Synced.finish (hm : prog.Matched init) (h : Synced prog init count net)
    (hp : net.proc p = .busy r outbox inbox) (hout : ∀ a, outbox a = none)
    (hin : ∀ a, prog.awaits p r a = true → (inbox a).isSome) :
    Synced prog init (Function.update count p (count p + 1))
      (net.setProc p (.idle (prog.finish p r inbox))) := by
  have hlock : prog.lock init (count p + 1) p = some (prog.finish p r inbox) := by
    rw [lock, advance, h.staged hp, Option.bind_some, if_pos, ← h.inbox_eq_posted hp hin]
    intro q ha
    obtain ⟨m, hq⟩ := Option.isSome_iff_exists.mp (hin q ha)
    simp [(h.inbox_eq hp hq).2]
  have hwritten : ∀ a b, (net.setProc p (.idle (prog.finish p r inbox))).written
      (Function.update count p (count p + 1)) a b = net.written count a b := by
    intro a b
    by_cases ha : a = p
    · subst ha; simp [Net.written, hp, Proc.sent, hout]
    · simp [Net.written, ha]
  have htaken : ∀ a b, b ≠ p → (net.setProc p (.idle (prog.finish p r inbox))).taken
      (Function.update count p (count p + 1)) a b = net.taken count a b := by
    intro a b hb
    simp [Net.taken, hb]
  have hnew : ∀ a, (net.setProc p (.idle (prog.finish p r inbox))).taken
      (Function.update count p (count p + 1)) a p = count p + 1 := by simp [Net.taken, Proc.got]
  have hold : ∀ a, net.taken count a p = count p + if (inbox a).isSome then 1 else 0 := by
    simp [Net.taken, hp, Proc.got]
  refine ⟨fun a => ?_, fun a b k hk hk' => ?_, fun a b => ?_⟩
  · by_cases ha : a = p
    · subst ha
      rw [Net.setProc_same, Function.update_self]
      exact .idle hlock
    · rw [Net.setProc_ne _ _ _ ha, Function.update_of_ne ha]
      exact h.proc a
  · rw [hwritten]
    by_cases hb : b = p
    · subst hb
      rw [hnew] at hk
      refine h.ahead a b k ?_ hk'
      rw [hold]
      split
      · omega
      · next hnone =>
          have : k ≠ count b := by
            rintro rfl
            rw [h.posted_eq_none hm hp hin (by simpa using hnone)] at hk'
            simp at hk'
          omega
    · rw [htaken a b hb] at hk
      exact h.ahead a b k hk hk'
  · rw [hwritten, Net.setProc_channel, h.channel]
    by_cases hb : b = p
    · subst hb
      rw [hold, hnew]
      split
      · rfl
      · next hnone =>
          have hpost := h.posted_eq_none hm hp hin (q := a) (by simpa using hnone)
          rw [Nat.add_zero, segment_cons_none hpost]
    · rw [htaken a b hb]

/-- **One event** keeps a net in step with the lockstep run. -/
theorem Synced.step (hm : prog.Matched init) (h : Synced prog init count net) {ev : Event P}
    (hs : prog.step net ev = some net') : Synced prog init (ev.count count) net' := by
  cases stepTo_of_step hs with
  | stop hp hstop => exact h.stop hp hstop
  | start hp hr => exact h.start hp hr
  | send hp hout => exact h.send hp hout
  | recv hp ha hin hc => exact h.recv hm hp ha hin hc
  | finish hp hout hin => exact h.finish hm hp hout hin

/-- **The run lemma**: every net of an asynchronous run is in step with the lockstep run. -/
theorem Reachable.synced (hm : prog.Matched init) (h : prog.Reachable (initial init) net) :
    ∃ count, Synced prog init count net := by
  induction h with
  | refl => exact ⟨_, synced_initial⟩
  | step _ hs ih =>
      obtain ⟨count, ih⟩ := ih
      exact ⟨_, ih.step hm hs⟩

/-! ### The end of a run -/

omit [DecidableEq P] in
/-- Once all processes have ended equally many rounds, every channel is empty. -/
theorem Synced.channel_empty (h : Synced prog init count net)
    (hidle : ∀ p, ∃ s, net.proc p = .idle s) (heq : ∀ p q, count p = count q) (p q : P) :
    net.channel p q = [] := by
  obtain ⟨sp, hp⟩ := hidle p
  obtain ⟨sq, hq⟩ := hidle q
  rw [h.channel]
  apply segment_of_le
  simp [Net.written, Net.taken, hp, hq, Proc.sent, Proc.got, heq p q]

/-- What a process has done in its round. -/
def Proc.work (proc : Proc P σ ρ μ) : ℕ :=
  match proc with
  | .idle _ => 0
  | .stopped _ => 1
  | .busy .. => 1 + ∑ q, (proc.sent q + proc.got q)

omit [DecidableEq P] in
theorem Proc.work_lt (proc : Proc P σ ρ μ) : proc.work < 2 * Fintype.card P + 2 := by
  have hle : ∀ q ∈ (Finset.univ : Finset P), proc.sent q + proc.got q ≤ 2 := by
    intro q _
    cases proc with
    | idle s => simp [Proc.sent, Proc.got]
    | stopped s => simp [Proc.sent, Proc.got]
    | busy r outbox inbox =>
        simp only [Proc.sent, Proc.got]
        split <;> split <;> omega
  have := Finset.sum_le_card_nsmul Finset.univ _ 2 hle
  rw [smul_eq_mul, Finset.card_univ] at this
  unfold Proc.work
  split <;> omega

omit [DecidableEq P] in
theorem Proc.work_lt_work {b b' : Proc P σ ρ μ} {r r' : ρ} {outbox' inbox' : P → Option μ}
    (hb : b = .busy r outbox inbox) (hb' : b' = .busy r' outbox' inbox')
    (hle : ∀ a, b.sent a + b.got a ≤ b'.sent a + b'.got a) (hlt : b.sent q + b.got q < b'.sent q + b'.got q) :
    b.work < b'.work := by
  subst hb hb'
  exact Nat.add_lt_add_left (Finset.sum_lt_sum (fun a _ => hle a) ⟨q, Finset.mem_univ q, hlt⟩) 1

/-- What all processes have done. -/
def Net.work (net : Net P σ ρ μ) (count : P → ℕ) : ℕ :=
  ∑ p, (count p * (2 * Fintype.card P + 2) + (net.proc p).work)

theorem Net.work_lt {count' : P → ℕ} {p : P} (hcount : ∀ a, a ≠ p → count' a = count a)
    (hproc : ∀ a, a ≠ p → net'.proc a = net.proc a)
    (hp : count p * (2 * Fintype.card P + 2) + (net.proc p).work <
      count' p * (2 * Fintype.card P + 2) + (net'.proc p).work) :
    net.work count < net'.work count' := by
  apply Finset.sum_lt_sum
  · intro a _
    by_cases ha : a = p
    · exact ha ▸ hp.le
    · rw [hcount a ha, hproc a ha]
  · exact ⟨p, Finset.mem_univ p, hp⟩

theorem work_step (count : P → ℕ) {ev : Event P} (hs : prog.step net ev = some net') :
    net.work count < net'.work (ev.count count) := by
  cases stepTo_of_step hs with
  | stop hp _ =>
      refine Net.work_lt (fun _ _ => rfl) (fun a ha => Net.setProc_ne _ _ _ ha) ?_
      simp [hp, Proc.work, Event.count]
  | start hp _ =>
      refine Net.work_lt (fun _ _ => rfl) (fun a ha => Net.setProc_ne _ _ _ ha) ?_
      simp [hp, Proc.work, Event.count]
  | @send p q r outbox inbox m hp hout =>
      refine Net.work_lt (p := p) (fun _ _ => rfl) (fun a ha => by simp [ha]) ?_
      simp only [Event.count, Net.setChannel_proc, Net.setProc_same, hp]
      refine Nat.add_lt_add_left (Proc.work_lt_work (q := q) rfl rfl (fun a => ?_) ?_) _
      · by_cases ha : a = q <;> simp [Proc.sent, Proc.got, ha, hout]
      · simp [Proc.sent, Proc.got, hout]
  | @recv p q r outbox inbox m ms hp ha hin hc =>
      refine Net.work_lt (p := p) (fun _ _ => rfl) (fun a ha => by simp [ha]) ?_
      simp only [Event.count, Net.setChannel_proc, Net.setProc_same, hp]
      refine Nat.add_lt_add_left (Proc.work_lt_work (q := q) rfl rfl (fun a => ?_) ?_) _
      · by_cases ha : a = q <;> simp [Proc.sent, Proc.got, ha, hin]
      · simp [Proc.sent, Proc.got, hin]
  | @finish p r outbox inbox hp _ _ =>
      refine Net.work_lt (fun a ha => Function.update_of_ne ha _ _) (fun a ha => Net.setProc_ne _ _ _ ha) ?_
      have := (net.proc p).work_lt
      simp only [Event.count, Net.setProc_same, hp, Function.update_self, Proc.work, Nat.add_one_mul] at this ⊢
      omega

variable {R : ℕ}

omit [DecidableEq P] in
theorem Net.work_le (hcount : ∀ p, count p ≤ R) :
    net.work count ≤ Fintype.card P * ((R + 1) * (2 * Fintype.card P + 2)) := by
  have hle : ∀ p ∈ (Finset.univ : Finset P), count p * (2 * Fintype.card P + 2) + (net.proc p).work ≤
      (R + 1) * (2 * Fintype.card P + 2) := by
    intro p _
    have h1 := Nat.mul_le_mul_right (2 * Fintype.card P + 2) (hcount p)
    have h2 := (net.proc p).work_lt
    have h3 := Nat.add_one_mul R (2 * Fintype.card P + 2)
    omega
  have := Finset.sum_le_card_nsmul Finset.univ _ _ hle
  rwa [smul_eq_mul, Finset.card_univ] at this

omit [DecidableEq P] in
theorem Synced.count_le (h : Synced prog init count net)
    (hR : ∀ p, ∃ s, prog.lock init R p = some s ∧ prog.start p s = none) (p : P) : count p ≤ R := by
  by_contra hlt
  obtain ⟨s, hs⟩ := h.locked p
  obtain ⟨r, hr⟩ := staged_of_lt hs (show R < count p by omega)
  obtain ⟨s', hs', hnone⟩ := hR p
  rw [RoundProgram.staged, hs', Option.bind_some, hnone] at hr
  exact absurd hr (by simp)

omit [DecidableEq P] in
/-- A process waits for a message on an empty channel, and its sender has reached the round: then the
sender is in this round, and has the message still to send. -/
theorem Synced.unsent (hm : prog.Matched init) (h : Synced prog init count net)
    (hp : net.proc p = .busy r outbox inbox) (ha : prog.awaits p r q = true) (hin : inbox q = none)
    (hc : net.channel q p = []) {r' : ρ} (hr' : prog.staged (prog.lock init (count p)) q = some r')
    (hle : count p ≤ count q) :
    count q = count p ∧ ∀ r' outbox' inbox', net.proc q = .busy r' outbox' inbox' → (outbox' p).isSome := by
  obtain ⟨m, hpost⟩ := Option.isSome_iff_exists.mp ((hm.posted_isSome (h.staged hp) hr').mpr ha)
  have hwritten : net.written count q p ≤ count p := by
    by_contra hlt
    have hseg := h.channel q p
    have htaken : net.taken count q p = count p := by simp [Net.taken, hp, Proc.got, hin]
    rw [hc, htaken, segment_cons (by omega), hpost] at hseg
    exact absurd hseg (by simp)
  have heq : count q = count p := by
    unfold Net.written at hwritten
    omega
  refine ⟨heq, fun r' outbox' inbox' hq => ?_⟩
  by_contra hsent
  simp only [Net.written, hq, Proc.sent] at hwritten
  rw [if_pos (by simpa using hsent)] at hwritten
  omega

/-- **Progress**: as long as a process has rounds to go, some process can take a step. -/
theorem Synced.progress (hm : prog.Matched init) (h : Synced prog init count net)
    (hR : ∀ p, ∃ s, prog.lock init R p = some s) (hlt : ∃ p, count p < R) :
    ∃ ev net', prog.step net ev = some net' := by
  -- a process that has ended the fewest rounds waits for no one that waits
  obtain ⟨p, hmin⟩ : ∃ p, ∀ q, count p ≤ count q := by
    obtain ⟨p₀, -⟩ := hlt
    obtain ⟨p, -, hp⟩ := Finset.exists_min_image Finset.univ count ⟨p₀, Finset.mem_univ p₀⟩
    exact ⟨p, fun q => hp q (Finset.mem_univ q)⟩
  have hpR : count p < R := by
    obtain ⟨p₀, hp₀⟩ := hlt
    exact lt_of_le_of_lt (hmin p₀) hp₀
  have hstart : ∀ q s, count q < R → net.proc q = .idle s → ∃ net', prog.step net (.start q) = some net' := by
    intro q s hq hproc
    obtain ⟨sR, hsR⟩ := hR q
    obtain ⟨r, hr⟩ := staged_of_lt hsR hq
    obtain ⟨s', hs', hr⟩ := staged_eq_some.mp hr
    obtain rfl : s' = s := by simpa [h.lock_idle hproc] using hs'.symm
    exact ⟨_, by rw [RoundProgram.step, hproc]; simp [hr]; rfl⟩
  have hstopped : ∀ q s, count q < R → net.proc q ≠ .stopped s := by
    intro q s hq hproc
    obtain ⟨sR, hsR⟩ := hR q
    obtain ⟨r, hr⟩ := staged_of_lt hsR hq
    obtain ⟨s', hs', hr⟩ := staged_eq_some.mp hr
    have hat := h.proc q
    rw [hproc] at hat
    cases hat with
    | stopped hs hstop =>
        obtain rfl : _ = s' := by simpa [hs] using hs'
        simp [hstop] at hr
  have hsend : ∀ a b r outbox inbox, net.proc a = .busy r outbox inbox → (outbox b).isSome →
      ∃ net', prog.step net (.send a b) = some net' := by
    intro a b r outbox inbox hproc hb
    obtain ⟨m, hm⟩ := Option.isSome_iff_exists.mp hb
    exact ⟨_, by rw [RoundProgram.step, hproc]; simp [hm]; rfl⟩
  cases hp : net.proc p with
  | idle s => exact ⟨_, hstart p s hpR hp⟩
  | stopped s => exact absurd hp (hstopped p s hpR)
  | busy r outbox inbox =>
      by_cases hout : ∃ q, (outbox q).isSome
      · obtain ⟨q, hq⟩ := hout
        exact ⟨_, hsend p q r outbox inbox hp hq⟩
      have hout : ∀ a, outbox a = none := by simpa using hout
      by_cases hin : ∀ a, prog.awaits p r a = true → (inbox a).isSome
      · exact ⟨.finish p, _, by rw [RoundProgram.step, hp]; exact if_pos ⟨by simp [hout], hin⟩⟩
      obtain ⟨q, ha, hnone⟩ : ∃ q, prog.awaits p r q = true ∧ inbox q = none := by simpa using hin
      cases hc : net.channel q p with
      | cons m ms =>
          exact ⟨.recv p q, _, by rw [RoundProgram.step, hp, hc]; exact if_pos ⟨by simp [hout], ha, by simp [hnone]⟩⟩
      | nil =>
          obtain ⟨sR, hsR⟩ := hR q
          obtain ⟨r', hr'⟩ := staged_of_lt hsR hpR
          obtain ⟨hcount, hunsent⟩ := h.unsent hm hp ha hnone hc hr' (hmin q)
          cases hq : net.proc q with
          | idle s => exact ⟨_, hstart q s (by omega) hq⟩
          | stopped s => exact absurd hq (hstopped q s (by omega))
          | busy r' outbox' inbox' => exact ⟨_, hsend q p r' outbox' inbox' hq (hunsent r' outbox' inbox' hq)⟩

/-- **Completion**: every run can be continued until all processes have ended the lockstep run. -/
theorem Reachable.completes (hm : prog.Matched init)
    (hR : ∀ p, ∃ s, prog.lock init R p = some s ∧ prog.start p s = none)
    (h : prog.Reachable (initial init) net) :
    ∃ net', prog.Reachable net net' ∧ ∀ p, ∃ s, net'.proc p = .idle s ∧ prog.lock init R p = some s := by
  obtain ⟨count, hsync⟩ := h.synced hm
  clear h
  induction hw : Fintype.card P * ((R + 1) * (2 * Fintype.card P + 2)) - net.work count using
    Nat.strong_induction_on generalizing net count with
  | _ w ih =>
      by_cases hlt : ∃ p, count p < R
      · obtain ⟨ev, net₁, hs⟩ := hsync.progress hm (fun p => ⟨_, (hR p).choose_spec.1⟩) hlt
        have hsync₁ := hsync.step hm hs
        have h1 := work_step count hs
        have h2 : net₁.work (ev.count count) ≤ _ := Net.work_le (hsync₁.count_le hR)
        obtain ⟨net', hreach, hend⟩ := ih _ (by omega) (ev.count count) hsync₁ rfl
        exact ⟨net', (Reachable.refl.step hs).trans hreach, hend⟩
      · refine ⟨net, .refl, fun p => ?_⟩
        have hp : count p = R := le_antisymm (hsync.count_le hR p) (by simpa using fun h => hlt ⟨p, h⟩)
        obtain ⟨s, hs, hnone⟩ := hR p
        have hat := hsync.proc p
        rw [hp] at hat
        cases hproc : net.proc p with
        | idle s' =>
            rw [hproc] at hat
            cases hat with
            | idle hs' => exact ⟨s', rfl, hs'⟩
        | stopped s' =>
            rw [hproc] at hat
            cases hat with
            | stopped hs' hstop =>
                obtain rfl : _ = s := by simpa [hs'] using hs
                simp [hstop] at hnone
        | busy r outbox inbox =>
            have := hsync.staged hproc
            rw [hp, RoundProgram.staged, hs, Option.bind_some, hnone] at this
            exact absurd this (by simp)

end

end RoundProgram
