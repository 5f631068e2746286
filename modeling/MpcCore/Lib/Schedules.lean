import MpcCore.Lib.Confluence
import MpcCore.Lib.Lockstep

/-! # Schedules of round-based processes

The events of a `RoundProgram` commute, for any local work.  No hypothesis says that the processes
await what is sent to them, so this is about runs that fail or get stuck as well.

* `step_local`: an event looks at its process and at the front of one channel, and changes no more than
  this process and one end of one channel.
* `commutes`: two different events that can happen can happen in either order.
* `completes`: all runs from one start that cannot be continued end in one net.
* `Ranked`: local work that counts down.  `run_length_le`, `exists_run_final`: then every run ends. -/

namespace RoundProgram

variable {P σ ρ μ : Type} [DecidableEq P]

deriving instance DecidableEq for Event

/-- The process that acts. -/
def Event.actor : Event P → P
  | start p | send p _ | recv p _ | finish p => p

/-- What an event does to the channels: a message goes onto the channel to `q`, or the first one from
`q` is taken. -/
inductive Effect (P μ : Type) where
  | none
  | push (q : P) (m : μ)
  | pop (q : P)

/-- The net after an event of `p`. -/
def Net.apply (net : Net P σ ρ μ) (p : P) (proc : Proc P σ ρ μ) : Effect P μ → Net P σ ρ μ
  | .none => net.setProc p proc
  | .push q m => (net.setProc p proc).setChannel p q (net.channel p q ++ [m])
  | .pop q => (net.setProc p proc).setChannel q p (net.channel q p).tail

/-- A message can be taken only where there is one. -/
def Effect.Possible (net : Net P σ ρ μ) (p : P) : Effect P μ → Prop
  | pop q => net.channel q p ≠ []
  | _ => True

section Net

variable {net : Net P σ ρ μ} {p p' q : P} {proc proc' : Proc P σ ρ μ} {eff eff' : Effect P μ}

theorem Net.apply_proc : (net.apply p proc eff).proc = Function.update net.proc p proc := by
  cases eff <;> rfl

theorem Net.apply_ne (h : p' ≠ p) : (net.apply p proc eff).proc p' = net.proc p' := by
  rw [apply_proc, Function.update_of_ne h]

theorem Net.head?_apply (h : p' ≠ p) {m : μ} (hm : (net.channel q p').head? = some m) :
    ((net.apply p proc eff).channel q p').head? = some m := by
  cases eff with
  | none => exact hm
  | push r m' =>
      by_cases hr : q = p ∧ p' = r
      · obtain ⟨rfl, rfl⟩ := hr
        rw [Net.apply, Net.setChannel_same, List.head?_append, hm]
        rfl
      · rw [Net.apply, Net.setChannel_ne _ _ _ _ hr]
        exact hm
  | pop r =>
      rw [Net.apply, Net.setChannel_ne _ _ _ _ fun hr => h hr.2]
      exact hm

/-- What two processes do to a net does not depend on the order. -/
theorem Net.apply_comm (h : p ≠ p') (hpos : eff.Possible net p) (hpos' : eff'.Possible net p') :
    (net.apply p proc eff).apply p' proc' eff' = (net.apply p' proc' eff').apply p proc eff := by
  have hproc : ((net.apply p proc eff).apply p' proc' eff').proc = ((net.apply p' proc' eff').apply p proc eff).proc := by
    rw [apply_proc, apply_proc, apply_proc, apply_proc, Function.update_comm h]
  have hchannel : ((net.apply p proc eff).apply p' proc' eff').channel =
      ((net.apply p' proc' eff').apply p proc eff).channel := by
    funext x y
    cases eff <;> cases eff' <;>
      simp only [apply, setChannel, setProc, Effect.Possible] at hpos hpos' ⊢ <;> grind
  cases hl : (net.apply p proc eff).apply p' proc' eff'
  cases hr : (net.apply p' proc' eff').apply p proc eff
  rw [hl, hr] at hproc hchannel
  cases hproc
  cases hchannel
  rfl

theorem Net.apply_push_comm {q' : P} {m m' : μ} {proc₁ proc₂ : Proc P σ ρ μ} (h : q ≠ q') :
    (net.apply p proc₁ (.push q m)).apply p proc (.push q' m') =
      (net.apply p proc₂ (.push q' m')).apply p proc (.push q m) := by
  simp only [apply, setProc, setChannel, Function.update_idem, Net.mk.injEq, true_and]
  funext x y
  grind

theorem Net.apply_pop_comm {q' : P} {proc₁ proc₂ : Proc P σ ρ μ} (h : q ≠ q') :
    (net.apply p proc₁ (.pop q)).apply p proc (.pop q') =
      (net.apply p proc₂ (.pop q')).apply p proc (.pop q) := by
  simp only [apply, setProc, setChannel, Function.update_idem, Net.mk.injEq, true_and]
  funext x y
  grind

end Net

/-! ### What each event does -/

/-- A process after the local work before a round. -/
def begun (prog : RoundProgram P σ ρ μ) (p : P) : σ ⊕ ρ → Proc P σ ρ μ
  | .inl s' => .stopped s'
  | .inr r => .busy r (prog.sends p r) fun _ => none

variable [Fintype P] {prog : RoundProgram P σ ρ μ} {net a b : Net P σ ρ μ} {ev ev' : Event P} {p q : P}

theorem step_start_iff : prog.step net (.start p) = some a ↔ ∃ s next, net.proc p = .idle s ∧
    prog.start p s = some next ∧ a = net.apply p (prog.begun p next) .none := by
  cases hp : net.proc p with
  | stopped s => simp [RoundProgram.step, hp]
  | busy r outbox inbox => simp [RoundProgram.step, hp]
  | idle s =>
      simp only [RoundProgram.step, hp, Option.map_eq_some_iff, Proc.idle.injEq]
      constructor
      · rintro ⟨next, hnext, rfl⟩
        refine ⟨s, next, rfl, hnext, ?_⟩
        cases next <;> rfl
      · rintro ⟨_, next, rfl, hnext, rfl⟩
        refine ⟨next, hnext, ?_⟩
        cases next <;> rfl

theorem step_send_iff : prog.step net (.send p q) = some a ↔ ∃ r outbox inbox m,
    net.proc p = .busy r outbox inbox ∧ outbox q = some m ∧
    a = net.apply p (.busy r (Function.update outbox q none) inbox) (.push q m) := by
  cases hp : net.proc p with
  | idle s => simp [RoundProgram.step, hp]
  | stopped s => simp [RoundProgram.step, hp]
  | busy r outbox inbox =>
      simp only [RoundProgram.step, hp, Option.map_eq_some_iff, Proc.busy.injEq]
      constructor
      · rintro ⟨m, hm, rfl⟩
        exact ⟨r, outbox, inbox, m, ⟨rfl, rfl, rfl⟩, hm, rfl⟩
      · rintro ⟨_, _, _, m, ⟨rfl, rfl, rfl⟩, hm, rfl⟩
        exact ⟨m, hm, rfl⟩

theorem step_recv_iff : prog.step net (.recv p q) = some a ↔ ∃ r outbox inbox m,
    net.proc p = .busy r outbox inbox ∧ (∀ x, outbox x = none) ∧ prog.awaits p r q = true ∧ inbox q = none ∧
    (net.channel q p).head? = some m ∧
    a = net.apply p (.busy r outbox (Function.update inbox q (some m))) (.pop q) := by
  cases hp : net.proc p with
  | idle s => simp [RoundProgram.step, hp]
  | stopped s => simp [RoundProgram.step, hp]
  | busy r outbox inbox =>
      cases hc : net.channel q p with
      | nil => simp [RoundProgram.step, hp, hc]
      | cons m ms =>
          simp only [RoundProgram.step, hp, hc, Option.ite_none_right_eq_some, Option.isNone_iff_eq_none,
            Proc.busy.injEq, List.head?_cons, Option.some.injEq, Net.apply, List.tail_cons]
          constructor
          · rintro ⟨⟨hout, ha, hin⟩, rfl⟩
            exact ⟨r, outbox, inbox, m, ⟨rfl, rfl, rfl⟩, hout, ha, hin, rfl, rfl⟩
          · rintro ⟨_, _, _, _, ⟨rfl, rfl, rfl⟩, hout, ha, hin, rfl, rfl⟩
            exact ⟨⟨hout, ha, hin⟩, rfl⟩

theorem step_finish_iff : prog.step net (.finish p) = some a ↔ ∃ r outbox inbox,
    net.proc p = .busy r outbox inbox ∧ (∀ x, outbox x = none) ∧
    (∀ x, prog.awaits p r x = true → (inbox x).isSome = true) ∧
    a = net.apply p (.idle (prog.finish p r inbox)) .none := by
  cases hp : net.proc p with
  | idle s => simp [RoundProgram.step, hp]
  | stopped s => simp [RoundProgram.step, hp]
  | busy r outbox inbox =>
      simp only [RoundProgram.step, hp, Option.ite_none_right_eq_some, Option.isNone_iff_eq_none, Proc.busy.injEq,
        Option.some.injEq]
      constructor
      · rintro ⟨⟨hout, hin⟩, rfl⟩
        exact ⟨r, outbox, inbox, ⟨rfl, rfl, rfl⟩, hout, hin, rfl⟩
      · rintro ⟨_, _, _, ⟨rfl, rfl, rfl⟩, hout, hin, rfl⟩
        exact ⟨⟨hout, hin⟩, rfl⟩

/-- **An event is local**: it can happen, and does the same, wherever its process has the same state and
the fronts of the channels to it are the same. -/
theorem step_local (h : prog.step net ev = some a) :
    ∃ proc eff, a = net.apply ev.actor proc eff ∧ eff.Possible net ev.actor ∧
      ∀ net' : Net P σ ρ μ, net'.proc ev.actor = net.proc ev.actor →
        (∀ q m, (net.channel q ev.actor).head? = some m → (net'.channel q ev.actor).head? = some m) →
        prog.step net' ev = some (net'.apply ev.actor proc eff) := by
  cases ev with
  | start p =>
      obtain ⟨s, next, hp, hnext, rfl⟩ := step_start_iff.mp h
      exact ⟨_, _, rfl, trivial, fun net' hproc _ => step_start_iff.mpr ⟨s, next, hproc.trans hp, hnext, rfl⟩⟩
  | send p q =>
      obtain ⟨r, outbox, inbox, m, hp, hm, rfl⟩ := step_send_iff.mp h
      exact ⟨_, _, rfl, trivial, fun net' hproc _ =>
        step_send_iff.mpr ⟨r, outbox, inbox, m, hproc.trans hp, hm, rfl⟩⟩
  | recv p q =>
      obtain ⟨r, outbox, inbox, m, hp, hout, ha, hin, hm, rfl⟩ := step_recv_iff.mp h
      refine ⟨_, _, rfl, fun hnil => ?_, fun net' hproc hfront =>
        step_recv_iff.mpr ⟨r, outbox, inbox, m, hproc.trans hp, hout, ha, hin, hfront q m hm, rfl⟩⟩
      rw [show net.channel q p = [] from hnil] at hm
      cases hm
  | finish p =>
      obtain ⟨r, outbox, inbox, hp, hout, hin, rfl⟩ := step_finish_iff.mp h
      exact ⟨_, _, rfl, trivial, fun net' hproc _ =>
        step_finish_iff.mpr ⟨r, outbox, inbox, hproc.trans hp, hout, hin, rfl⟩⟩

/-! ### Schedules -/

/-- The events of two processes. -/
theorem step_comm_of_ne (hne : ev.actor ≠ ev'.actor) (ha : prog.step net ev = some a)
    (hb : prog.step net ev' = some b) : ∃ c, prog.step a ev' = some c ∧ prog.step b ev = some c := by
  obtain ⟨proc, eff, rfl, hpos, hstep⟩ := step_local ha
  obtain ⟨proc', eff', rfl, hpos', hstep'⟩ := step_local hb
  refine ⟨_, hstep' _ (Net.apply_ne hne.symm) fun q m => Net.head?_apply hne.symm, ?_⟩
  rw [Net.apply_comm hne hpos hpos']
  exact hstep _ (Net.apply_ne hne) fun q m => Net.head?_apply hne

theorem step_send_comm {q' : P} (hne : q ≠ q') (ha : prog.step net (.send p q) = some a)
    (hb : prog.step net (.send p q') = some b) :
    ∃ c, prog.step a (.send p q') = some c ∧ prog.step b (.send p q) = some c := by
  obtain ⟨r, outbox, inbox, m, hp, hm, rfl⟩ := step_send_iff.mp ha
  obtain ⟨_, _, _, m', hp', hm', rfl⟩ := step_send_iff.mp hb
  cases hp.symm.trans hp'
  refine ⟨_, step_send_iff.mpr ⟨r, Function.update outbox q none, inbox, m', ?_, ?_, rfl⟩,
    step_send_iff.mpr ⟨r, Function.update outbox q' none, inbox, m, ?_, ?_, ?_⟩⟩
  · rw [Net.apply_proc, Function.update_self]
  · rw [Function.update_of_ne hne.symm, hm']
  · rw [Net.apply_proc, Function.update_self]
  · rw [Function.update_of_ne hne, hm]
  · rw [Net.apply_push_comm hne, Function.update_comm hne.symm]

theorem step_recv_comm {q' : P} (hne : q ≠ q') (ha : prog.step net (.recv p q) = some a)
    (hb : prog.step net (.recv p q') = some b) :
    ∃ c, prog.step a (.recv p q') = some c ∧ prog.step b (.recv p q) = some c := by
  obtain ⟨r, outbox, inbox, m, hp, hout, haw, hin, hm, rfl⟩ := step_recv_iff.mp ha
  obtain ⟨_, _, _, m', hp', -, haw', hin', hm', rfl⟩ := step_recv_iff.mp hb
  cases hp.symm.trans hp'
  refine ⟨_, step_recv_iff.mpr ⟨r, outbox, Function.update inbox q (some m), m', ?_, hout, haw', ?_, ?_, rfl⟩,
    step_recv_iff.mpr ⟨r, outbox, Function.update inbox q' (some m'), m, ?_, hout, haw, ?_, ?_, ?_⟩⟩
  · rw [Net.apply_proc, Function.update_self]
  · rw [Function.update_of_ne hne.symm, hin']
  · rw [Net.apply, Net.setChannel_ne _ _ _ _ fun h => hne h.1.symm]
    exact hm'
  · rw [Net.apply_proc, Function.update_self]
  · rw [Function.update_of_ne hne, hin]
  · rw [Net.apply, Net.setChannel_ne _ _ _ _ fun h => hne h.1]
    exact hm
  · rw [Net.apply_pop_comm hne, Function.update_comm hne.symm]

/-- The kinds of events. -/
inductive Kind where
  | start
  | send
  | recv
  | finish

/-- The kind of an event. -/
def Event.kind : Event P → Kind
  | start _ => .start
  | send _ _ => .send
  | recv _ _ => .recv
  | finish _ => .finish

/-- What is next at a process: all messages leave before the first one is received, and the round ends
when none is missing. -/
def next (prog : RoundProgram P σ ρ μ) (p : P) : Proc P σ ρ μ → Kind
  | .idle _ | .stopped _ => .start
  | .busy r outbox inbox =>
      if ∃ q, (outbox q).isSome then .send
      else if ∃ q, prog.awaits p r q ∧ (inbox q).isNone then .recv
      else .finish

theorem kind_eq_next (h : prog.step net ev = some a) : ev.kind = prog.next ev.actor (net.proc ev.actor) := by
  cases ev with
  | start p =>
      obtain ⟨s, _, hp, -, -⟩ := step_start_iff.mp h
      change Kind.start = prog.next p (net.proc p)
      rw [hp, next]
  | send p q =>
      obtain ⟨r, outbox, inbox, m, hp, hm, -⟩ := step_send_iff.mp h
      have hsent : ∃ q, (outbox q).isSome := ⟨q, by rw [hm]; rfl⟩
      change Kind.send = prog.next p (net.proc p)
      rw [hp, next, if_pos hsent]
  | recv p q =>
      obtain ⟨r, outbox, inbox, m, hp, hout, ha, hin, -⟩ := step_recv_iff.mp h
      have hsent : ¬∃ q, (outbox q).isSome := by simp [hout]
      have hmissing : ∃ q, prog.awaits p r q ∧ (inbox q).isNone := ⟨q, ha, by rw [hin]; rfl⟩
      change Kind.recv = prog.next p (net.proc p)
      rw [hp, next, if_neg hsent, if_pos hmissing]
  | finish p =>
      obtain ⟨r, outbox, inbox, hp, hout, hin, -⟩ := step_finish_iff.mp h
      have hsent : ¬∃ q, (outbox q).isSome := by simp [hout]
      have hmissing : ¬∃ q, prog.awaits p r q ∧ (inbox q).isNone := by
        rintro ⟨q, ha, hnone⟩
        have := hin q ha
        rw [Option.isNone_iff_eq_none.mp hnone] at this
        cases this
      change Kind.finish = prog.next p (net.proc p)
      rw [hp, next, if_neg hsent, if_neg hmissing]

theorem step_comm_of_eq (hactor : ev.actor = ev'.actor) (hne : ev ≠ ev') (ha : prog.step net ev = some a)
    (hb : prog.step net ev' = some b) : ∃ c, prog.step a ev' = some c ∧ prog.step b ev = some c := by
  have hkind : ev.kind = ev'.kind := by
    rw [kind_eq_next ha, kind_eq_next hb, hactor]
  cases ev with
  | start p => cases ev' <;> cases hkind; exact absurd (congrArg Event.start hactor) hne
  | send p q =>
      cases ev' <;> cases hkind
      obtain rfl : p = _ := hactor
      exact step_send_comm (fun h => hne (h ▸ rfl)) ha hb
  | recv p q =>
      cases ev' <;> cases hkind
      obtain rfl : p = _ := hactor
      exact step_recv_comm (fun h => hne (h ▸ rfl)) ha hb
  | finish p => cases ev' <;> cases hkind; exact absurd (congrArg Event.finish hactor) hne

/-- **The events commute.** -/
theorem commutes (prog : RoundProgram P σ ρ μ) : Commutes prog.step := by
  intro net a b ev ev' hne ha hb
  by_cases hactor : ev.actor = ev'.actor
  · exact step_comm_of_eq hactor hne ha hb
  · exact step_comm_of_ne hactor ha hb

theorem final_iff : Final prog.step net ↔ ∀ p q, prog.step net (.start p) = none ∧ prog.step net (.send p q) = none ∧
    prog.step net (.recv p q) = none ∧ prog.step net (.finish p) = none := by
  constructor
  · exact fun h p q => ⟨h _, h _, h _, h _⟩
  · intro h ev
    cases ev with
    | start p => exact (h p p).1
    | send p q => exact (h p q).2.1
    | recv p q => exact (h p q).2.2.1
    | finish p => exact (h p p).2.2.2

instance : Decidable (Final prog.step net) :=
  decidable_of_iff (∀ p q, (prog.step net (.start p)).isNone ∧ (prog.step net (.send p q)).isNone ∧
    (prog.step net (.recv p q)).isNone ∧ (prog.step net (.finish p)).isNone) (by
      simp only [Option.isNone_iff_eq_none, final_iff])

theorem runEvents_eq (prog : RoundProgram P σ ρ μ) (evs : List (Event P)) (net : Net P σ ρ μ) :
    runEvents prog.step net evs = prog.run net evs := by
  induction evs generalizing net with
  | nil => rfl
  | cons ev evs ih => simp only [runEvents, RoundProgram.run, ih]

/-- **One end for all schedules**: when a run cannot be continued, every run from its start can be continued to
its end, and has reached it when it cannot be continued, after the same events. -/
theorem completes {final : Net P σ ρ μ} {evs evs' : List (Event P)} (hrun : prog.run net evs = some final)
    (hfinal : Final prog.step final) (hrun' : prog.run net evs' = some a) :
    prog.run a (evs.diff evs') = some final ∧ (evs' ++ evs.diff evs').Perm evs ∧
      (Final prog.step a → a = final) := by
  rw [← runEvents_eq] at hrun hrun' ⊢
  obtain ⟨hrest, hperm⟩ := prog.commutes.completes hrun hfinal hrun'
  exact ⟨hrest, hperm, fun hfinal' => (prog.commutes.unique hrun' hfinal' hrun hfinal).1⟩

/-! ### Local work that counts down -/

/-- Every round leaves a process with fewer rounds to go. -/
structure Ranked (prog : RoundProgram P σ ρ μ) (idleRank : σ → ℕ) (busyRank : ρ → ℕ) : Prop where
  start : ∀ {p s r}, prog.start p s = some (.inr r) → busyRank r < idleRank s
  finish : ∀ p r inbox, idleRank (prog.finish p r inbox) ≤ busyRank r

variable {idleRank : σ → ℕ} {busyRank : ρ → ℕ}

/-- The number of events that a process has still ahead of it, at most. -/
def Proc.left (idleRank : σ → ℕ) (busyRank : ρ → ℕ) : Proc P σ ρ μ → ℕ
  | .idle s => 1 + idleRank s * (2 * Fintype.card P + 2)
  | .stopped _ => 0
  | .busy r outbox inbox =>
      2 + busyRank r * (2 * Fintype.card P + 2) + ∑ q, ((outbox q).toList.length + (1 - (inbox q).toList.length))

omit [DecidableEq P] in
theorem left_busy_le (r : ρ) (outbox inbox : P → Option μ) :
    (Proc.busy r outbox inbox : Proc P σ ρ μ).left idleRank busyRank ≤ (busyRank r + 1) * (2 * Fintype.card P + 2) := by
  have hle : ∀ q ∈ (Finset.univ : Finset P), (outbox q).toList.length + (1 - (inbox q).toList.length) ≤ 2 := by
    intro q _
    cases outbox q <;> cases inbox q <;> simp
  have hsum := Finset.sum_le_card_nsmul Finset.univ _ 2 hle
  rw [smul_eq_mul, Finset.card_univ] at hsum
  have hmul := Nat.add_one_mul (busyRank r) (2 * Fintype.card P + 2)
  rw [Proc.left]
  omega

/-- Every event leaves its process with fewer ahead. -/
theorem left_lt (hrank : prog.Ranked idleRank busyRank) (h : prog.step net ev = some a) :
    (a.proc ev.actor).left idleRank busyRank < (net.proc ev.actor).left idleRank busyRank := by
  cases ev with
  | start p =>
      obtain ⟨s, next, hp, hnext, rfl⟩ := step_start_iff.mp h
      rw [Net.apply_proc, Event.actor, Function.update_self, hp]
      cases next with
      | inl s' => simp [begun, Proc.left]
      | inr r =>
          have hle : (Proc.busy r (prog.sends p r) fun _ => none : Proc P σ ρ μ).left idleRank busyRank ≤
            (busyRank r + 1) * (2 * Fintype.card P + 2) := left_busy_le r _ _
          have hmul : (busyRank r + 1) * (2 * Fintype.card P + 2) ≤ idleRank s * (2 * Fintype.card P + 2) :=
            Nat.mul_le_mul_right _ (hrank.start hnext)
          simp only [begun, Proc.left] at hle ⊢
          omega
  | send p q =>
      obtain ⟨r, outbox, inbox, m, hp, hm, rfl⟩ := step_send_iff.mp h
      rw [Net.apply_proc, Event.actor, Function.update_self, hp]
      refine Nat.add_lt_add_left (Finset.sum_lt_sum (fun x _ => ?_) ⟨q, Finset.mem_univ q, ?_⟩) _
      · by_cases hx : x = q <;> simp [hx]
      · simp [hm]
  | recv p q =>
      obtain ⟨r, outbox, inbox, m, hp, -, -, hin, -, rfl⟩ := step_recv_iff.mp h
      rw [Net.apply_proc, Event.actor, Function.update_self, hp]
      refine Nat.add_lt_add_left (Finset.sum_lt_sum (fun x _ => ?_) ⟨q, Finset.mem_univ q, ?_⟩) _
      · by_cases hx : x = q <;> simp [hx]
      · simp [hin]
  | finish p =>
      obtain ⟨r, outbox, inbox, hp, -, -, rfl⟩ := step_finish_iff.mp h
      have hmul := Nat.mul_le_mul_right (2 * Fintype.card P + 2) (hrank.finish p r inbox)
      rw [Net.apply_proc, Event.actor, Function.update_self, hp]
      simp only [Proc.left]
      omega

/-- The number of events that all processes have still ahead, at most. -/
def Net.left (idleRank : σ → ℕ) (busyRank : ρ → ℕ) (net : Net P σ ρ μ) : ℕ :=
  ∑ p, (net.proc p).left idleRank busyRank

theorem Net.left_lt (hrank : prog.Ranked idleRank busyRank) (h : prog.step net ev = some a) :
    a.left idleRank busyRank < net.left idleRank busyRank := by
  refine Finset.sum_lt_sum (fun p _ => ?_) ⟨ev.actor, Finset.mem_univ _, RoundProgram.left_lt hrank h⟩
  by_cases hp : p = ev.actor
  · exact hp ▸ (RoundProgram.left_lt hrank h).le
  · obtain ⟨_, _, rfl, -, -⟩ := step_local h
    rw [Net.apply_ne hp]

/-- **Every run ends**: it is no longer than what was ahead. -/
theorem run_length_le (hrank : prog.Ranked idleRank busyRank) {evs : List (Event P)}
    (h : prog.run net evs = some a) : evs.length + a.left idleRank busyRank ≤ net.left idleRank busyRank := by
  induction evs generalizing net with
  | nil =>
      obtain rfl := Option.some.inj h
      simp
  | cons ev evs ih =>
      obtain ⟨net', hs, hrest⟩ := Option.bind_eq_some_iff.mp h
      have h1 := Net.left_lt hrank hs
      have h2 := ih hrest
      rw [List.length_cons]
      omega

theorem exists_run_final (hrank : prog.Ranked idleRank busyRank) (net : Net P σ ρ μ) :
    ∃ evs net', prog.run net evs = some net' ∧ Final prog.step net' := by
  induction hleft : net.left idleRank busyRank using Nat.strong_induction_on generalizing net with
  | _ left ih =>
      by_cases hfinal : Final prog.step net
      · exact ⟨[], net, rfl, hfinal⟩
      · obtain ⟨ev, hev⟩ := not_forall.mp hfinal
        obtain ⟨net₁, hs⟩ := Option.ne_none_iff_exists'.mp hev
        obtain ⟨evs, net', hrun, hend⟩ := ih _ (hleft ▸ Net.left_lt hrank hs) net₁ rfl
        exact ⟨ev :: evs, net', Option.bind_eq_some_iff.mpr ⟨net₁, hs, hrun⟩, hend⟩


end RoundProgram
