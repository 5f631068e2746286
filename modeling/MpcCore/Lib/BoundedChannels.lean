import MpcCore.Lib.Lockstep
import Mathlib.Algebra.GroupWithZero.Nat
import Mathlib.Data.Fintype.EquivFin
import Mathlib.Data.Fintype.Prod
import Mathlib.Data.Prod.Lex
import Mathlib.Logic.Relation

/-! # Round-based processes over channels of bounded capacity

The processes of a `RoundProgram` over byte channels that hold at most `B` bytes.

* A message of `size` bytes is pushed byte by byte while there is room, to all receivers at once,
  and is sent once its last byte is in.  Bytes leave a channel only when its receiver is past its
  sends and awaits the sender.  It has the message once it has popped the last byte.
* `ByteReachable.reachable`: forgetting the bytes, a run is one over unbounded channels.
* `ByteReachable.valid`, `ByteReachable.bytes_le`: what the byte counts say of the processes, and that
  no channel holds more than `B` bytes.
* `Synced.byteProgress`: when in no round there is a cycle of processes, each with a message of more
  than `B` bytes for the next (`Oversized`), some byte moves or some process goes on, unless a
  process that has ended the fewest rounds has no next one.
* `ByteReachable.exists_stuck`: every run ends.
* `ByteReachable.behind_of_cycle`: the processes on such a cycle never end the round. -/

namespace RoundProgram

/-- A net whose messages travel byte by byte: of the message that `p` is sending to `q` the channel has
accepted `accepted p q` bytes, and of the first one that `q` has not yet received it has delivered
`delivered p q`. -/
structure ByteNet (P σ ρ μ : Type) where
  net : Net P σ ρ μ
  accepted : P → P → ℕ
  delivered : P → P → ℕ

/-- What can happen next.  The first argument is the process that acts. -/
inductive ByteEvent (P : Type) where
  | start (p : P)
  | push (p q : P)
  | pop (p q : P)
  | finish (p : P)

variable {P σ ρ μ : Type} [DecidableEq P]

/-- Replace one entry. -/
def setEntry (f : P → P → ℕ) (p q : P) (value : ℕ) : P → P → ℕ :=
  fun a b => if a = p ∧ b = q then value else f a b

@[simp] theorem setEntry_same (f : P → P → ℕ) (p q : P) (value : ℕ) : setEntry f p q value p q = value := by
  simp [setEntry]

theorem setEntry_ne (f : P → P → ℕ) {p q a b : P} (value : ℕ) (h : ¬(a = p ∧ b = q)) :
    setEntry f p q value a b = f a b := by
  simp [setEntry, h]

omit [DecidableEq P] in
/-- The undelivered bytes of a channel. -/
def ByteNet.bytes (size : μ → ℕ) (s : ByteNet P σ ρ μ) (p q : P) : ℕ :=
  ((s.net.channel p q).map size).sum + s.accepted p q - s.delivered p q

variable [Fintype P] (prog : RoundProgram P σ ρ μ) (size : μ → ℕ) (B : ℕ)

/-- One event, when it can happen. -/
def byteStep (s : ByteNet P σ ρ μ) : ByteEvent P → Option (ByteNet P σ ρ μ)
  | .start p => (prog.step s.net (.start p)).map fun net => { s with net }
  | .push p q =>
      match s.net.proc p with
      | .busy _ outbox _ =>
          (outbox q).bind fun m =>
            if s.bytes size p q < B then
              if s.accepted p q + 1 < size m then
                some { s with accepted := setEntry s.accepted p q (s.accepted p q + 1) }
              else
                (prog.step s.net (.send p q)).map fun net => { s with net, accepted := setEntry s.accepted p q 0 }
            else none
      | _ => none
  | .pop p q =>
      match s.net.proc p with
      | .busy r outbox inbox =>
          if (∀ a, (outbox a).isNone) ∧ prog.awaits p r q ∧ (inbox q).isNone ∧ 0 < s.bytes size q p then
            if ((s.net.channel q p).head?.all fun m => s.delivered q p + 1 < size m) then
              some { s with delivered := setEntry s.delivered q p (s.delivered q p + 1) }
            else
              (prog.step s.net (.recv p q)).map fun net => { s with net, delivered := setEntry s.delivered q p 0 }
          else none
      | _ => none
  | .finish p => (prog.step s.net (.finish p)).map fun net => { s with net }

/-- What each event does, and when it can happen. -/
inductive ByteStepTo (s : ByteNet P σ ρ μ) : ByteEvent P → ByteNet P σ ρ μ → Prop where
  | start {p : P} {net' : Net P σ ρ μ} (hs : prog.step s.net (.start p) = some net') :
      ByteStepTo s (.start p) { s with net := net' }
  | push {p q : P} {r : ρ} {outbox inbox : P → Option μ} {m : μ} (hp : s.net.proc p = .busy r outbox inbox)
      (hm : outbox q = some m) (hroom : s.bytes size p q < B) (hlt : s.accepted p q + 1 < size m) :
      ByteStepTo s (.push p q) { s with accepted := setEntry s.accepted p q (s.accepted p q + 1) }
  | sent {p q : P} {r : ρ} {outbox inbox : P → Option μ} {m : μ} (hp : s.net.proc p = .busy r outbox inbox)
      (hm : outbox q = some m) (hroom : s.bytes size p q < B) (hlast : size m ≤ s.accepted p q + 1) :
      ByteStepTo s (.push p q)
        ⟨(s.net.setProc p (.busy r (Function.update outbox q none) inbox)).setChannel p q (s.net.channel p q ++ [m]),
          setEntry s.accepted p q 0, s.delivered⟩
  | pop {p q : P} {r : ρ} {outbox inbox : P → Option μ} (hp : s.net.proc p = .busy r outbox inbox)
      (hout : ∀ a, outbox a = none) (ha : prog.awaits p r q = true) (hin : inbox q = none)
      (hbytes : 0 < s.bytes size q p) (hlt : ∀ m ms, s.net.channel q p = m :: ms → s.delivered q p + 1 < size m) :
      ByteStepTo s (.pop p q) { s with delivered := setEntry s.delivered q p (s.delivered q p + 1) }
  | got {p q : P} {r : ρ} {outbox inbox : P → Option μ} {m : μ} {ms : List μ}
      (hp : s.net.proc p = .busy r outbox inbox) (hout : ∀ a, outbox a = none) (ha : prog.awaits p r q = true)
      (hin : inbox q = none) (hc : s.net.channel q p = m :: ms) (hlast : size m ≤ s.delivered q p + 1) :
      ByteStepTo s (.pop p q)
        ⟨(s.net.setProc p (.busy r outbox (Function.update inbox q (some m)))).setChannel q p ms, s.accepted,
          setEntry s.delivered q p 0⟩
  | finish {p : P} {net' : Net P σ ρ μ} (hs : prog.step s.net (.finish p) = some net') :
      ByteStepTo s (.finish p) { s with net := net' }

variable {prog size B}

theorem byteStepTo_of_byteStep {s s' : ByteNet P σ ρ μ} {ev : ByteEvent P}
    (hs : prog.byteStep size B s ev = some s') : prog.ByteStepTo size B s ev s' := by
  cases ev with
  | start p =>
      obtain ⟨net', hnet, rfl⟩ := Option.map_eq_some_iff.mp hs
      exact .start hnet
  | push p q =>
      cases hp : s.net.proc p with
      | idle _ => simp [byteStep, hp] at hs
      | stopped _ => simp [byteStep, hp] at hs
      | busy r outbox inbox =>
          simp only [byteStep, hp] at hs
          obtain ⟨m, hm, hs⟩ := Option.bind_eq_some_iff.mp hs
          by_cases hroom : s.bytes size p q < B
          · rw [if_pos hroom] at hs
            by_cases hlt : s.accepted p q + 1 < size m
            · rw [if_pos hlt] at hs
              obtain rfl := Option.some.inj hs
              exact .push hp hm hroom hlt
            · rw [if_neg hlt, RoundProgram.step, hp] at hs
              obtain rfl : _ = s' := by simpa [hm] using hs
              exact .sent hp hm hroom (by omega)
          · rw [if_neg hroom] at hs
            exact absurd hs (by simp)
  | pop p q =>
      cases hp : s.net.proc p with
      | idle _ => simp [byteStep, hp] at hs
      | stopped _ => simp [byteStep, hp] at hs
      | busy r outbox inbox =>
          simp only [byteStep, hp] at hs
          split at hs
          · next hready =>
              obtain ⟨hout, ha, hin, hbytes⟩ := hready
              have hout : ∀ a, outbox a = none := fun a => Option.isNone_iff_eq_none.mp (hout a)
              have hin : inbox q = none := Option.isNone_iff_eq_none.mp hin
              split at hs
              · next hlt =>
                  obtain rfl := Option.some.inj hs
                  exact .pop hp hout ha hin hbytes fun m ms hc => by simpa [hc] using hlt
              · next hlast =>
                  cases hc : s.net.channel q p with
                  | nil => simp [hc] at hlast
                  | cons m ms =>
                      rw [RoundProgram.step, hp, hc] at hs
                      obtain rfl : _ = s' := by simpa [hout, ha, hin] using hs
                      exact .got hp hout ha hin hc (by simpa [hc] using hlast)
          · exact absurd hs (by simp)
  | finish p =>
      obtain ⟨net', hnet, rfl⟩ := Option.map_eq_some_iff.mp hs
      exact .finish hnet

/-- All processes before their first round, all channels empty. -/
def byteInitial (init : P → σ) : ByteNet P σ ρ μ := ⟨initial init, fun _ _ => 0, fun _ _ => 0⟩

variable (prog size B) in
/-- The nets that any order of events leads to from a given one. -/
inductive ByteReachable (s : ByteNet P σ ρ μ) : ByteNet P σ ρ μ → Prop where
  | refl : ByteReachable s s
  | step {s₁ s₂ : ByteNet P σ ρ μ} {ev : ByteEvent P} (h : ByteReachable s s₁)
      (hs : prog.byteStep size B s₁ ev = some s₂) : ByteReachable s s₂

variable (prog size B) in
/-- The given events one after the other. -/
def byteRun (s : ByteNet P σ ρ μ) : List (ByteEvent P) → Option (ByteNet P σ ρ μ)
  | [] => some s
  | ev :: evs => (prog.byteStep size B s ev).bind fun s' => byteRun s' evs

theorem ByteReachable.run {s s₁ s₂ : ByteNet P σ ρ μ} {evs : List (ByteEvent P)}
    (h : prog.ByteReachable size B s s₁) (hrun : prog.byteRun size B s₁ evs = some s₂) :
    prog.ByteReachable size B s s₂ := by
  induction evs generalizing s₁ with
  | nil =>
      obtain rfl := Option.some.inj hrun
      exact h
  | cons ev evs ih =>
      obtain ⟨s', hs, hrest⟩ := Option.bind_eq_some_iff.mp hrun
      exact ih (h.step hs) hrest

theorem ByteReachable.trans {s s₁ s₂ : ByteNet P σ ρ μ} (h : prog.ByteReachable size B s s₁)
    (h' : prog.ByteReachable size B s₁ s₂) : prog.ByteReachable size B s s₂ := by
  induction h' with
  | refl => exact h
  | step _ hs ih => exact ih.step hs

/-! ### Forgetting the bytes -/

omit [DecidableEq P] in
/-- The bytes that have moved of messages under way. -/
def ByteNet.moved (s : ByteNet P σ ρ μ) : ℕ := ∑ c : P × P, (s.accepted c.1 c.2 + s.delivered c.1 c.2)

theorem sum_lt_sum_setEntry (f : P → P → ℕ) (p q : P) :
    ∑ c : P × P, f c.1 c.2 < ∑ c : P × P, setEntry f p q (f p q + 1) c.1 c.2 := by
  apply Finset.sum_lt_sum
  · intro c _
    by_cases hc : c.1 = p ∧ c.2 = q
    · obtain ⟨rfl, rfl⟩ := hc
      simp
    · rw [setEntry_ne _ _ hc]
  · exact ⟨(p, q), Finset.mem_univ _, by simp⟩

theorem ByteStepTo.simulates {s s' : ByteNet P σ ρ μ} {ev : ByteEvent P} (h : prog.ByteStepTo size B s ev s') :
    s'.net = s.net ∧ s.moved < s'.moved ∨ ∃ ev', prog.step s.net ev' = some s'.net := by
  cases h with
  | start hs => exact .inr ⟨_, hs⟩
  | push hp hm hroom hlt =>
      refine .inl ⟨rfl, ?_⟩
      simp only [ByteNet.moved, Finset.sum_add_distrib]
      exact Nat.add_lt_add_right (sum_lt_sum_setEntry _ _ _) _
  | @sent p q r outbox inbox m hp hm hroom hlast =>
      exact .inr ⟨.send p q, by rw [RoundProgram.step, hp]; simp [hm]⟩
  | pop hp hout ha hin hbytes hlt =>
      refine .inl ⟨rfl, ?_⟩
      simp only [ByteNet.moved, Finset.sum_add_distrib]
      exact Nat.add_lt_add_left (sum_lt_sum_setEntry _ _ _) _
  | @got p q r outbox inbox m ms hp hout ha hin hc hlast =>
      exact .inr ⟨.recv p q, by rw [RoundProgram.step, hp, hc]; exact if_pos ⟨by simp [hout], ha, by simp [hin]⟩⟩
  | finish hs => exact .inr ⟨_, hs⟩

/-- **The simulation**: a run over bounded channels is one over unbounded ones. -/
theorem ByteReachable.reachable {init : P → σ} {s : ByteNet P σ ρ μ}
    (h : prog.ByteReachable size B (byteInitial init) s) : prog.Reachable (initial init) s.net := by
  induction h with
  | refl => exact .refl
  | step _ hs ih =>
      obtain ⟨hsame, -⟩ | ⟨ev', hs'⟩ := (byteStepTo_of_byteStep hs).simulates
      · rwa [hsame]
      · exact ih.step hs'

/-! ### What the byte counts say of the processes -/

omit [DecidableEq P] [Fintype P] in
/-- The process `p` has still to send `m` to `q`. -/
def Net.Sending (net : Net P σ ρ μ) (p q : P) (m : μ) : Prop :=
  ∃ r outbox inbox, net.proc p = .busy r outbox inbox ∧ outbox q = some m

variable (prog) in
/-- The process `q` is past its sends and has still to receive from `p`. -/
def Net.Reading (net : Net P σ ρ μ) (p q : P) : Prop :=
  ∃ r outbox inbox, net.proc q = .busy r outbox inbox ∧ (∀ a, outbox a = none) ∧ prog.awaits q r p = true ∧
    inbox p = none

variable (prog size) in
/-- Bytes are accepted of a message being sent, and delivered to a process that is receiving. -/
structure ByteNet.Valid (s : ByteNet P σ ρ μ) : Prop where
  accepted : ∀ p q, s.accepted p q ≠ 0 → ∃ m, s.net.Sending p q m ∧ s.accepted p q < size m
  delivered : ∀ p q, s.delivered p q ≠ 0 → s.net.Reading prog p q
  head : ∀ p q m ms, s.net.channel p q = m :: ms → s.delivered p q < size m
  low : ∀ p q, s.net.channel p q = [] → s.delivered p q ≤ s.accepted p q

section

variable {s s' : ByteNet P σ ρ μ} {net : Net P σ ρ μ} {proc : Proc P σ ρ μ} {p q a b : P} {m : μ} {ms : List μ}
  {r : ρ} {outbox inbox : P → Option μ}

omit [Fintype P] in
@[simp] theorem Net.sending_setProc (h : a ≠ p) : (net.setProc p proc).Sending a b m ↔ net.Sending a b m := by
  simp [Net.Sending, h]

omit [Fintype P] in
@[simp] theorem Net.reading_setProc (h : b ≠ p) :
    (net.setProc p proc).Reading prog a b ↔ net.Reading prog a b := by
  simp [Net.Reading, h]

omit [Fintype P] in
@[simp] theorem Net.sending_setChannel : (net.setChannel p q ms).Sending a b m ↔ net.Sending a b m := Iff.rfl

omit [Fintype P] in
@[simp] theorem Net.reading_setChannel : (net.setChannel p q ms).Reading prog a b ↔ net.Reading prog a b := Iff.rfl

omit [DecidableEq P] [Fintype P] in
theorem ByteNet.Valid.accepted_eq_zero (h : s.Valid prog size) (hp : s.net.proc p = .busy r outbox inbox)
    (hq : outbox q = none) : s.accepted p q = 0 := by
  by_contra hne
  obtain ⟨m, ⟨r', outbox', inbox', hp', hm⟩, -⟩ := h.accepted p q hne
  rw [hp] at hp'
  obtain ⟨-, rfl, -⟩ := Proc.busy.inj hp'
  simp [hq] at hm

omit [DecidableEq P] [Fintype P] in
theorem ByteNet.Valid.delivered_eq_zero (h : s.Valid prog size) (hp : s.net.proc p = .busy r outbox inbox)
    (hq : (outbox q).isSome) : s.delivered a p = 0 := by
  by_contra hne
  obtain ⟨r', outbox', inbox', hp', hout, -⟩ := h.delivered a p hne
  rw [hp] at hp'
  obtain ⟨-, rfl, -⟩ := Proc.busy.inj hp'
  simp [hout] at hq

omit [DecidableEq P] [Fintype P] in
theorem ByteNet.Valid.accepted_lt (h : s.Valid prog size) (hsize : ∀ m, 0 < size m)
    (hp : s.net.proc p = .busy r outbox inbox) (hm : outbox q = some m) : s.accepted p q < size m := by
  by_cases hne : s.accepted p q = 0
  · rw [hne]
    exact hsize m
  · obtain ⟨m', ⟨r', outbox', inbox', hp', hm'⟩, hlt⟩ := h.accepted p q hne
    rw [hp] at hp'
    obtain ⟨-, rfl, -⟩ := Proc.busy.inj hp'
    obtain rfl : m = m' := by simpa [hm] using hm'
    exact hlt

omit [Fintype P] in
theorem ByteNet.Valid.setProc (h : s.Valid prog size) (hsend : ∀ b m, ¬s.net.Sending p b m)
    (hread : ∀ a, ¬s.net.Reading prog a p) (proc : Proc P σ ρ μ) :
    ByteNet.Valid prog size { s with net := s.net.setProc p proc } where
  accepted a b hne := by
    obtain ⟨m, hm, hlt⟩ := h.accepted a b hne
    have ha : a ≠ p := by
      rintro rfl
      exact hsend b m hm
    exact ⟨m, (Net.sending_setProc ha).mpr hm, hlt⟩
  delivered a b hne := by
    have hread' := h.delivered a b hne
    have hb : b ≠ p := by
      rintro rfl
      exact hread a hread'
    exact (Net.reading_setProc hb).mpr hread'
  head := h.head
  low := h.low

theorem ByteNet.Valid.start (h : s.Valid prog size) {net' : Net P σ ρ μ}
    (hs : prog.step s.net (.start p) = some net') : ByteNet.Valid prog size { s with net := net' } := by
  have hidle : ∀ σ₀, s.net.proc p = .idle σ₀ →
      (∀ b m, ¬s.net.Sending p b m) ∧ ∀ a, ¬s.net.Reading prog a p := by
    intro σ₀ hp
    simp [Net.Sending, Net.Reading, hp]
  cases stepTo_of_step hs with
  | stop hp hstop =>
      obtain ⟨hsend, hread⟩ := hidle _ hp
      exact h.setProc hsend hread _
  | start hp hr =>
      obtain ⟨hsend, hread⟩ := hidle _ hp
      exact h.setProc hsend hread _

theorem ByteNet.Valid.finish (h : s.Valid prog size) {net' : Net P σ ρ μ}
    (hs : prog.step s.net (.finish p) = some net') : ByteNet.Valid prog size { s with net := net' } := by
  cases stepTo_of_step hs with
  | finish hp hout hin =>
      refine h.setProc ?_ ?_ _
      · rintro b m ⟨r', outbox', inbox', hp', hm⟩
        rw [hp] at hp'
        obtain ⟨-, rfl, -⟩ := Proc.busy.inj hp'
        simp [hout] at hm
      · rintro a ⟨r', outbox', inbox', hp', -, ha, hnone⟩
        rw [hp] at hp'
        obtain ⟨rfl, -, rfl⟩ := Proc.busy.inj hp'
        simpa [hnone] using hin a ha

omit [Fintype P] in
theorem ByteNet.Valid.push (h : s.Valid prog size) (hp : s.net.proc p = .busy r outbox inbox)
    (hm : outbox q = some m) (hlt : s.accepted p q + 1 < size m) :
    ByteNet.Valid prog size { s with accepted := setEntry s.accepted p q (s.accepted p q + 1) } where
  accepted a b hne := by
    by_cases hab : a = p ∧ b = q
    · obtain ⟨rfl, rfl⟩ := hab
      exact ⟨m, ⟨r, outbox, inbox, hp, hm⟩, by simpa using hlt⟩
    · simp only [setEntry_ne _ _ hab] at hne ⊢
      exact h.accepted a b hne
  delivered := h.delivered
  head := h.head
  low a b hc := by
    have hlow := h.low a b hc
    by_cases hab : a = p ∧ b = q
    · obtain ⟨rfl, rfl⟩ := hab
      simp only [setEntry_same]
      omega
    · simpa only [setEntry_ne _ _ hab] using hlow

omit [Fintype P] in
theorem ByteNet.Valid.sent (h : s.Valid prog size) (hsize : ∀ m, 0 < size m)
    (hp : s.net.proc p = .busy r outbox inbox) (hm : outbox q = some m) :
    ByteNet.Valid prog size
      ⟨(s.net.setProc p (.busy r (Function.update outbox q none) inbox)).setChannel p q (s.net.channel p q ++ [m]),
        setEntry s.accepted p q 0, s.delivered⟩ where
  accepted a b hne := by
    by_cases hab : a = p ∧ b = q
    · obtain ⟨rfl, rfl⟩ := hab
      simp at hne
    simp only [setEntry_ne _ _ hab] at hne ⊢
    obtain ⟨m', hm', hlt⟩ := h.accepted a b hne
    refine ⟨m', ?_, hlt⟩
    rw [Net.sending_setChannel]
    by_cases ha : a = p
    · subst ha
      obtain ⟨r', outbox', inbox', hp', hout'⟩ := hm'
      rw [hp] at hp'
      obtain ⟨rfl, rfl, rfl⟩ := Proc.busy.inj hp'
      exact ⟨_, _, _, Net.setProc_same _ _ _, by rw [Function.update_of_ne (fun hb => hab ⟨rfl, hb⟩)]; exact hout'⟩
    · exact (Net.sending_setProc ha).mpr hm'
  delivered a b hne := by
    have hb : b ≠ p := by
      rintro rfl
      exact hne (h.delivered_eq_zero hp (q := q) (by simp [hm]))
    exact (Net.reading_setProc hb).mpr (h.delivered a b hne)
  head a b m' ms' hc := by
    by_cases hab : a = p ∧ b = q
    · obtain ⟨rfl, rfl⟩ := hab
      rw [Net.setChannel_same] at hc
      cases hold : s.net.channel a b with
      | nil =>
          obtain ⟨rfl, -⟩ : m = m' ∧ [] = ms' := by simpa [hold] using hc
          exact lt_of_le_of_lt (h.low a b hold) (h.accepted_lt hsize hp hm)
      | cons m₀ ms₀ =>
          obtain ⟨rfl, -⟩ : m₀ = m' ∧ _ = ms' := by simpa [hold] using hc
          exact h.head a b m₀ ms₀ hold
    · rw [Net.setChannel_ne _ _ _ _ hab] at hc
      exact h.head a b m' ms' hc
  low a b hc := by
    by_cases hab : a = p ∧ b = q
    · obtain ⟨rfl, rfl⟩ := hab
      rw [Net.setChannel_same] at hc
      simp at hc
    · rw [Net.setChannel_ne _ _ _ _ hab] at hc
      simp only [setEntry_ne _ _ hab]
      exact h.low a b hc

omit [DecidableEq P] [Fintype P] in
theorem ByteNet.bytes_nil (hc : s.net.channel p q = []) : s.bytes size p q = s.accepted p q - s.delivered p q := by
  simp [ByteNet.bytes, hc]

omit [Fintype P] in
theorem ByteNet.Valid.pop (h : s.Valid prog size) (hp : s.net.proc p = .busy r outbox inbox)
    (hout : ∀ a, outbox a = none) (ha : prog.awaits p r q = true) (hin : inbox q = none)
    (hbytes : 0 < s.bytes size q p)
    (hlt : ∀ m ms, s.net.channel q p = m :: ms → s.delivered q p + 1 < size m) :
    ByteNet.Valid prog size { s with delivered := setEntry s.delivered q p (s.delivered q p + 1) } where
  accepted := h.accepted
  delivered a b hne := by
    by_cases hab : a = q ∧ b = p
    · obtain ⟨rfl, rfl⟩ := hab
      exact ⟨r, outbox, inbox, hp, hout, ha, hin⟩
    · simp only [setEntry_ne _ _ hab] at hne
      exact h.delivered a b hne
  head a b m ms hc := by
    by_cases hab : a = q ∧ b = p
    · obtain ⟨rfl, rfl⟩ := hab
      simpa only [setEntry_same] using hlt m ms hc
    · simpa only [setEntry_ne _ _ hab] using h.head a b m ms hc
  low a b hc := by
    by_cases hab : a = q ∧ b = p
    · obtain ⟨rfl, rfl⟩ := hab
      have hc : s.net.channel a b = [] := hc
      rw [ByteNet.bytes_nil hc] at hbytes
      simp only [setEntry_same]
      omega
    · simpa only [setEntry_ne _ _ hab] using h.low a b hc

omit [Fintype P] in
theorem ByteNet.Valid.got (h : s.Valid prog size) (hsize : ∀ m, 0 < size m)
    (hp : s.net.proc p = .busy r outbox inbox) (hout : ∀ a, outbox a = none) (hc : s.net.channel q p = m :: ms) :
    ByteNet.Valid prog size
      ⟨(s.net.setProc p (.busy r outbox (Function.update inbox q (some m)))).setChannel q p ms, s.accepted,
        setEntry s.delivered q p 0⟩ where
  accepted a b hne := by
    have ha : a ≠ p := by
      rintro rfl
      exact hne (h.accepted_eq_zero hp (hout b))
    obtain ⟨m', hm', hlt⟩ := h.accepted a b hne
    exact ⟨m', (Net.sending_setProc ha).mpr hm', hlt⟩
  delivered a b hne := by
    by_cases hab : a = q ∧ b = p
    · obtain ⟨rfl, rfl⟩ := hab
      simp at hne
    simp only [setEntry_ne _ _ hab] at hne
    have hread := h.delivered a b hne
    rw [Net.reading_setChannel]
    by_cases hb : b = p
    · subst hb
      obtain ⟨r', outbox', inbox', hp', hout', ha', hin'⟩ := hread
      rw [hp] at hp'
      obtain ⟨rfl, rfl, rfl⟩ := Proc.busy.inj hp'
      exact ⟨_, _, _, Net.setProc_same _ _ _, hout', ha', by
        rw [Function.update_of_ne (fun ha => hab ⟨ha, rfl⟩)]; exact hin'⟩
    · exact (Net.reading_setProc hb).mpr hread
  head a b m' ms' hc' := by
    by_cases hab : a = q ∧ b = p
    · obtain ⟨rfl, rfl⟩ := hab
      simpa only [setEntry_same] using hsize m'
    · rw [Net.setChannel_ne _ _ _ _ hab] at hc'
      simpa only [setEntry_ne _ _ hab] using h.head a b m' ms' hc'
  low a b hc' := by
    by_cases hab : a = q ∧ b = p
    · obtain ⟨rfl, rfl⟩ := hab
      simp only [setEntry_same]
      exact Nat.zero_le _
    · rw [Net.setChannel_ne _ _ _ _ hab] at hc'
      simpa only [setEntry_ne _ _ hab] using h.low a b hc'

/-- **One event** keeps the byte counts valid. -/
theorem ByteNet.Valid.step (h : s.Valid prog size) (hsize : ∀ m, 0 < size m) {ev : ByteEvent P}
    (hs : prog.byteStep size B s ev = some s') : s'.Valid prog size := by
  cases byteStepTo_of_byteStep hs with
  | start hnet => exact h.start hnet
  | push hp hm hroom hlt => exact h.push hp hm hlt
  | sent hp hm hroom hlast => exact h.sent hsize hp hm
  | pop hp hout ha hin hbytes hlt => exact h.pop hp hout ha hin hbytes hlt
  | got hp hout ha hin hc hlast => exact h.got hsize hp hout hc
  | finish hnet => exact h.finish hnet

theorem ByteReachable.valid {init : P → σ} (hsize : ∀ m, 0 < size m)
    (h : prog.ByteReachable size B (byteInitial init) s) : s.Valid prog size := by
  induction h with
  | refl => constructor <;> simp [byteInitial, initial]
  | step _ hs ih => exact ih.step hsize hs

omit [DecidableEq P] [Fintype P] in
theorem ByteNet.bytes_congr {accepted delivered : P → P → ℕ} (hc : net.channel a b = s.net.channel a b)
    (ha : accepted a b = s.accepted a b) (hd : delivered a b = s.delivered a b) :
    ByteNet.bytes size ⟨net, accepted, delivered⟩ a b = s.bytes size a b := by
  simp only [ByteNet.bytes, hc, ha, hd]

/-- **The capacity**: no channel holds more than `B` bytes. -/
theorem ByteReachable.bytes_le {init : P → σ} (hsize : ∀ m, 0 < size m)
    (h : prog.ByteReachable size B (byteInitial init) s) (a b : P) : s.bytes size a b ≤ B := by
  induction h with
  | refl => simp [ByteNet.bytes, byteInitial, initial]
  | @step s₁ s₂ ev h₁ hs ih =>
      have hvalid := h₁.valid hsize
      cases byteStepTo_of_byteStep hs with
      | start hnet => cases stepTo_of_step hnet <;> exact ih
      | finish hnet =>
          cases stepTo_of_step hnet
          exact ih
      | @push p q r outbox inbox m hp hm hroom hlt =>
          by_cases hab : a = p ∧ b = q
          · obtain ⟨rfl, rfl⟩ := hab
            simp only [ByteNet.bytes, setEntry_same] at hroom ⊢
            omega
          · exact le_of_eq_of_le (ByteNet.bytes_congr rfl (setEntry_ne _ _ hab) rfl) ih
      | @sent p q r outbox inbox m hp hm hroom hlast =>
          by_cases hab : a = p ∧ b = q
          · obtain ⟨rfl, rfl⟩ := hab
            simp only [ByteNet.bytes, setEntry_same, Net.setChannel_same, List.map_append, List.sum_append,
              List.map_cons, List.map_nil, List.sum_cons, List.sum_nil] at hroom ⊢
            omega
          · exact le_of_eq_of_le (ByteNet.bytes_congr (Net.setChannel_ne _ _ _ _ hab) (setEntry_ne _ _ hab) rfl) ih
      | @pop p q r outbox inbox hp hout ha hin hbytes hlt =>
          by_cases hab : a = q ∧ b = p
          · obtain ⟨rfl, rfl⟩ := hab
            simp only [ByteNet.bytes, setEntry_same] at ih ⊢
            omega
          · exact le_of_eq_of_le (ByteNet.bytes_congr rfl rfl (setEntry_ne _ _ hab)) ih
      | @got p q r outbox inbox m ms hp hout ha hin hc hlast =>
          by_cases hab : a = q ∧ b = p
          · obtain ⟨rfl, rfl⟩ := hab
            have hhead := hvalid.head a b m ms hc
            simp only [ByteNet.bytes, setEntry_same, Net.setChannel_same, hc, List.map_cons, List.sum_cons] at ih ⊢
            omega
          · exact le_of_eq_of_le (ByteNet.bytes_congr (Net.setChannel_ne _ _ _ _ hab) rfl (setEntry_ne _ _ hab)) ih

end

/-! ### Progress -/

omit [DecidableEq P] in
/-- Without cycles some element of a finite set has no successor in it. -/
theorem exists_sink {R : P → P → Prop} (hacyclic : ∀ p, ¬Relation.TransGen R p p) {S : Set P} (hS : S.Nonempty) :
    ∃ p ∈ S, ∀ q ∈ S, ¬R p q := by
  let before : P → P → Prop := fun a b => Relation.TransGen R b a
  have : IsTrans P before := ⟨fun a b c hab hbc => hbc.trans hab⟩
  have : Std.Irrefl before := ⟨hacyclic⟩
  obtain ⟨p, hp, hmin⟩ := (Finite.wellFounded_of_trans_of_irrefl before).has_min S hS
  exact ⟨p, hp, fun q hq hR => hmin q hq (.single hR)⟩

variable (prog size B) in
/-- The message from `p` to `q` of the round after `k` rounds does not fit into a channel. -/
def Oversized (init : P → σ) (k : ℕ) (p q : P) : Prop :=
  ∃ m, prog.posted (prog.lock init k) p q = some m ∧ B < size m

variable (prog) in
/-- The process has failed, or has no next round. -/
def Net.Resting (net : Net P σ ρ μ) (p : P) : Prop :=
  (∃ s, net.proc p = .stopped s) ∨ ∃ s, net.proc p = .idle s ∧ prog.start p s = none

variable (prog size B) in
/-- No event can happen. -/
def Stuck (s : ByteNet P σ ρ μ) : Prop := ∀ ev, prog.byteStep size B s ev = none

section

variable {s : ByteNet P σ ρ μ} {init : P → σ} {count : P → ℕ} {p q : P} {r : ρ} {outbox inbox : P → Option μ} {m : μ}

theorem Stuck.busy (h : prog.Stuck size B s) (hrest : ¬s.net.Resting prog p) :
    ∃ r outbox inbox, s.net.proc p = .busy r outbox inbox := by
  cases hp : s.net.proc p with
  | stopped s' => exact absurd (.inl ⟨s', hp⟩) hrest
  | busy r outbox inbox => exact ⟨r, outbox, inbox, rfl⟩
  | idle s' =>
      have hstart := h (.start p)
      rw [byteStep, Option.map_eq_none_iff, RoundProgram.step, hp] at hstart
      exact absurd (.inr ⟨s', hp, Option.map_eq_none_iff.mp hstart⟩) hrest

/-- A message that is being sent in a stuck net has filled its channel. -/
theorem Stuck.full (h : prog.Stuck size B s) (hp : s.net.proc p = .busy r outbox inbox) (hm : outbox q = some m) :
    B ≤ s.bytes size p q := by
  by_contra hroom
  have hpush := h (.push p q)
  simp only [byteStep, hp, hm, Option.bind_some, if_pos (Nat.lt_of_not_le hroom)] at hpush
  split at hpush
  · exact absurd hpush (by simp)
  · rw [Option.map_eq_none_iff, RoundProgram.step, hp] at hpush
    simp [hm] at hpush

theorem Stuck.drained (h : prog.Stuck size B s) (hp : s.net.proc p = .busy r outbox inbox)
    (hout : ∀ a, outbox a = none) (ha : prog.awaits p r q = true) (hin : inbox q = none) :
    s.bytes size q p = 0 := by
  by_contra hbytes
  have hready : (∀ a, (outbox a).isNone) ∧ prog.awaits p r q ∧ (inbox q).isNone ∧ 0 < s.bytes size q p :=
    ⟨by simp [hout], ha, by simp [hin], Nat.pos_of_ne_zero hbytes⟩
  have hpop := h (.pop p q)
  simp only [byteStep, hp, if_pos hready] at hpop
  split at hpop
  · exact absurd hpop (by simp)
  · next hlast =>
      cases hc : s.net.channel q p with
      | nil => simp [hc] at hlast
      | cons m ms =>
          rw [Option.map_eq_none_iff, RoundProgram.step, hp, hc] at hpop
          simp [hout, ha, hin] at hpop

theorem Stuck.awaits (h : prog.Stuck size B s) (hp : s.net.proc p = .busy r outbox inbox)
    (hout : ∀ a, outbox a = none) : ∃ q, prog.awaits p r q = true ∧ inbox q = none := by
  by_contra hin
  have hin : ∀ a, prog.awaits p r a = true → (inbox a).isSome := by simpa [Option.isSome_iff_ne_none] using hin
  have hfinish := h (.finish p)
  rw [byteStep, Option.map_eq_none_iff, RoundProgram.step, hp] at hfinish
  exact absurd ((if_pos ⟨by simp [hout], hin⟩).symm.trans hfinish) (by simp)

/-- A process of a stuck net that has ended the fewest rounds has a message to send. -/
theorem Stuck.sends (hm : prog.Matched init) (hB : 1 ≤ B) (hvalid : s.Valid prog size)
    (h : Synced prog init count s.net) (hstuck : prog.Stuck size B s)
    (hrest : ∀ p, (∀ q, count p ≤ count q) → ¬s.net.Resting prog p) (hmin : ∀ q, count p ≤ count q) :
    ∃ r outbox inbox q m, s.net.proc p = .busy r outbox inbox ∧ outbox q = some m := by
  obtain ⟨r, outbox, inbox, hp⟩ := hstuck.busy (hrest p hmin)
  by_cases hout : ∃ q m, outbox q = some m
  · obtain ⟨q, m, hq⟩ := hout
    exact ⟨r, outbox, inbox, q, m, hp, hq⟩
  have hout : ∀ a, outbox a = none := by simpa [Option.eq_none_iff_forall_ne_some] using hout
  -- it awaits a message of which no byte has arrived
  obtain ⟨q, ha, hin⟩ := hstuck.awaits hp hout
  have hempty := hstuck.drained hp hout ha hin
  have hchannel : s.net.channel q p = [] := by
    cases hc : s.net.channel q p with
    | nil => rfl
    | cons m ms =>
        have hlt := hvalid.head q p m ms hc
        simp only [ByteNet.bytes, hc, List.map_cons, List.sum_cons] at hempty
        omega
  -- its sender has reached the round
  have hstaged : ∃ r', prog.staged (prog.lock init (count p)) q = some r' := by
    by_cases hlt : count p < count q
    · obtain ⟨s', hs'⟩ := h.locked q
      exact staged_of_lt hs' hlt
    · have heq : count q = count p := le_antisymm (Nat.le_of_not_lt hlt) (hmin q)
      obtain ⟨r', outbox', inbox', hq⟩ := hstuck.busy (hrest q (by rwa [heq]))
      exact ⟨r', heq ▸ h.staged hq⟩
  obtain ⟨r', hr'⟩ := hstaged
  -- so the sender is in the same round and can push a byte
  obtain ⟨heq, hunsent⟩ := h.unsent hm hp ha hin hchannel hr' (hmin q)
  obtain ⟨r'', outbox', inbox', hq⟩ := hstuck.busy (hrest q (by rwa [heq]))
  obtain ⟨m', hm'⟩ := Option.isSome_iff_exists.mp (hunsent r'' outbox' inbox' hq)
  have := hstuck.full hq hm'
  omega

/-- What such a process sends is too large for its channel, and the receiver is in the same round. -/
theorem Stuck.oversized (hsize : ∀ m, 0 < size m) (hvalid : s.Valid prog size) (h : Synced prog init count s.net)
    (hstuck : prog.Stuck size B s) (hmin : ∀ q, count p ≤ count q) (hp : s.net.proc p = .busy r outbox inbox)
    (hm : outbox q = some m)
    (hsends : ∀ q, (∀ a, count q ≤ count a) →
      ∃ r outbox inbox b m, s.net.proc q = .busy r outbox inbox ∧ outbox b = some m) :
    count q = count p ∧ prog.Oversized size B init (count p) p q := by
  have hpost : prog.posted (prog.lock init (count p)) p q = some m :=
    posted_eq_some.mpr ⟨r, h.staged hp, h.outbox_eq hp hm⟩
  have hwritten : s.net.written count p q = count p := by simp [Net.written, hp, Proc.sent, hm]
  have heq : count q = count p := by
    by_contra hne
    have hlt : count p < count q := lt_of_le_of_ne (hmin q) (Ne.symm hne)
    have := h.ahead p q (count p) (lt_of_lt_of_le hlt (Nat.le_add_right _ _)) (by rw [hpost]; rfl)
    omega
  have hchannel : s.net.channel p q = [] := by
    rw [h.channel]
    exact segment_of_le (by rw [hwritten, ← heq]; exact Nat.le_add_right _ _)
  obtain ⟨r', outbox', inbox', b, m', hq, hb⟩ := hsends q (by rwa [heq])
  have hdelivered : s.delivered p q = 0 := hvalid.delivered_eq_zero hq (q := b) (by rw [hb]; rfl)
  have hfull := hstuck.full hp hm
  rw [ByteNet.bytes_nil hchannel, hdelivered, Nat.sub_zero] at hfull
  exact ⟨heq, m, hpost, lt_of_le_of_lt hfull (hvalid.accepted_lt hsize hp hm)⟩

/-- **Progress**: when in no round the oversized messages form a cycle, some event can happen, unless a
process that has ended the fewest rounds is at rest. -/
theorem Synced.byteProgress [Nonempty P] (hm : prog.Matched init) (hsize : ∀ m, 0 < size m) (hB : 1 ≤ B)
    (hvalid : s.Valid prog size) (h : Synced prog init count s.net)
    (hacyclic : ∀ k p, ¬Relation.TransGen (prog.Oversized size B init k) p p) :
    (∃ ev s', prog.byteStep size B s ev = some s') ∨ ∃ p, (∀ q, count p ≤ count q) ∧ s.net.Resting prog p := by
  by_contra hno
  obtain ⟨hstep, hrest⟩ := not_or.mp hno
  have hstuck : prog.Stuck size B s := by
    intro ev
    by_contra hne
    obtain ⟨s', hs'⟩ := Option.ne_none_iff_exists'.mp hne
    exact hstep ⟨ev, s', hs'⟩
  have hrest : ∀ p, (∀ q, count p ≤ count q) → ¬s.net.Resting prog p := fun p hmin hp => hrest ⟨p, hmin, hp⟩
  have hsends : ∀ p, (∀ q, count p ≤ count q) →
      ∃ r outbox inbox q m, s.net.proc p = .busy r outbox inbox ∧ outbox q = some m :=
    fun p hmin => hstuck.sends hm hB hvalid h hrest hmin
  -- among those that have ended the fewest rounds each waits for room at another
  obtain ⟨p₀, -, hp₀⟩ := Finset.exists_min_image Finset.univ count Finset.univ_nonempty
  obtain ⟨p, hp, hsink⟩ := exists_sink (hacyclic (count p₀)) (S := {p | count p = count p₀}) ⟨p₀, rfl⟩
  have hp : count p = count p₀ := hp
  have hmin : ∀ q, count p ≤ count q := fun q => hp ▸ hp₀ q (Finset.mem_univ q)
  obtain ⟨r, outbox, inbox, q, m, hproc, hq⟩ := hsends p hmin
  obtain ⟨heq, hover⟩ := hstuck.oversized hsize hvalid h hmin hproc hq hsends
  exact hsink q (heq.trans hp) (hp ▸ hover)

end

/-! ### The end of a run -/

variable (size) in
omit [DecidableEq P] in
/-- The size of the messages at the two ends of a channel, the one being sent and the first unread one. -/
def Net.ends (net : Net P σ ρ μ) (p q : P) : ℕ :=
  (match net.proc p with
    | .busy _ outbox _ => ((outbox q).map size).getD 0
    | _ => 0) + ((net.channel p q).head?.map size).getD 0

section

variable {s s' : ByteNet P σ ρ μ} {init : P → σ} {p q : P} {R : ℕ}

omit [DecidableEq P] [Fintype P] in
theorem ByteNet.Valid.accepted_le (h : s.Valid prog size) (p q : P) : s.accepted p q ≤ s.net.ends size p q := by
  by_cases hzero : s.accepted p q = 0
  · omega
  · obtain ⟨m, ⟨r, outbox, inbox, hp, hm⟩, hlt⟩ := h.accepted p q hzero
    simp only [Net.ends, hp, hm, Option.map_some, Option.getD_some]
    omega

omit [DecidableEq P] [Fintype P] in
theorem ByteNet.Valid.delivered_le (h : s.Valid prog size) (p q : P) : s.delivered p q ≤ s.net.ends size p q := by
  cases hc : s.net.channel p q with
  | nil => exact (h.low p q hc).trans (h.accepted_le p q)
  | cons m ms =>
      have hlt := h.head p q m ms hc
      simp only [Net.ends, hc, List.head?_cons, Option.map_some, Option.getD_some]
      omega

omit [DecidableEq P] in
theorem ByteNet.Valid.moved_le (h : s.Valid prog size) :
    s.moved ≤ ∑ c : P × P, (s.net.ends size c.1 c.2 + s.net.ends size c.1 c.2) :=
  Finset.sum_le_sum fun c _ => Nat.add_le_add (h.accepted_le c.1 c.2) (h.delivered_le c.1 c.2)

/-- **Every run ends**: where no process ends more than `R` rounds, every run can be continued until it is stuck. -/
theorem ByteReachable.exists_stuck (hm : prog.Matched init) (hsize : ∀ m, 0 < size m)
    (hR : ∀ net count, Synced prog init count net → ∀ p, count p ≤ R)
    (h : prog.ByteReachable size B (byteInitial init) s) :
    ∃ s', prog.ByteReachable size B s s' ∧ prog.Stuck size B s' := by
  obtain ⟨count, hsync⟩ := h.reachable.synced hm
  -- an event over unbounded channels is work done, any other moves a byte
  induction hw : toLex (Fintype.card P * ((R + 1) * (2 * Fintype.card P + 2)) - s.net.work count,
      ∑ c : P × P, (s.net.ends size c.1 c.2 + s.net.ends size c.1 c.2) - s.moved) using WellFoundedLT.induction
    generalizing s count with
  | _ w ih =>
      by_cases hstuck : prog.Stuck size B s
      · exact ⟨s, .refl, hstuck⟩
      · obtain ⟨ev, hev⟩ := not_forall.mp hstuck
        obtain ⟨s₁, hs⟩ := Option.ne_none_iff_exists'.mp hev
        obtain ⟨hsame, hmoved⟩ | ⟨ev', hs'⟩ := (byteStepTo_of_byteStep hs).simulates
        · have hle := ((h.step hs).valid hsize).moved_le
          rw [hsame] at hle
          obtain ⟨s', hreach, hend⟩ := ih _ (by
            rw [← hw, Prod.Lex.toLex_lt_toLex, hsame]
            exact .inr ⟨rfl, by omega⟩) (h.step hs) count (by rwa [hsame]) rfl
          exact ⟨s', (ByteReachable.refl.step hs).trans hreach, hend⟩
        · have hsync₁ := hsync.step hm hs'
          have hwork := work_step count hs'
          have hle : s₁.net.work (ev'.count count) ≤ _ := Net.work_le (hR _ _ hsync₁)
          obtain ⟨s', hreach, hend⟩ := ih _ (by
            rw [← hw, Prod.Lex.toLex_lt_toLex]
            exact .inl (by dsimp only; omega)) (h.step hs) _ hsync₁ rfl
          exact ⟨s', (ByteReachable.refl.step hs).trans hreach, hend⟩

end

/-! ### Cycles -/

omit [DecidableEq P] [Fintype P] in
/-- No process receives before it has sent all its messages. -/
def Net.SendsFirst (net : Net P σ ρ μ) : Prop :=
  ∀ p r outbox inbox, net.proc p = .busy r outbox inbox → ∀ q, (inbox q).isSome → ∀ a, outbox a = none

omit [Fintype P] in
theorem Net.SendsFirst.setProc {net : Net P σ ρ μ} (h : net.SendsFirst) {p : P} {proc : Proc P σ ρ μ}
    (hp : ∀ r outbox inbox, proc = .busy r outbox inbox → ∀ q, (inbox q).isSome → ∀ a, outbox a = none) :
    (net.setProc p proc).SendsFirst := by
  intro a r outbox inbox ha
  by_cases hap : a = p
  · subst hap
    rw [Net.setProc_same] at ha
    exact hp r outbox inbox ha
  · rw [Net.setProc_ne _ _ _ hap] at ha
    exact h a r outbox inbox ha

theorem ByteReachable.sendsFirst {init : P → σ} {s : ByteNet P σ ρ μ}
    (h : prog.ByteReachable size B (byteInitial init) s) : s.net.SendsFirst := by
  induction h with
  | refl =>
      intro p r outbox inbox hp
      cases hp
  | step _ hs ih =>
      cases byteStepTo_of_byteStep hs with
      | start hnet =>
          cases stepTo_of_step hnet with
          | stop hp hstop => exact ih.setProc fun _ _ _ he => by cases he
          | start hp hr =>
              refine ih.setProc fun _ _ _ he q hq => ?_
              obtain ⟨-, -, rfl⟩ := Proc.busy.inj he
              exact absurd hq (by simp)
      | push hp hm hroom hlt => exact ih
      | @sent p q r outbox inbox m hp hm hroom hlast =>
          refine Net.SendsFirst.setProc ih fun _ _ _ he a ha => ?_
          obtain ⟨-, -, rfl⟩ := Proc.busy.inj he
          exact absurd (ih p r outbox _ hp a ha q) (by simp [hm])
      | pop hp hout ha hin hbytes hlt => exact ih
      | @got p q r outbox inbox m ms hp hout ha hin hc hlast =>
          refine Net.SendsFirst.setProc ih fun _ _ _ he a _ => ?_
          obtain ⟨-, rfl, -⟩ := Proc.busy.inj he
          exact hout
      | finish hnet =>
          cases stepTo_of_step hnet with
          | finish hp hout hin => exact ih.setProc fun _ _ _ he => by cases he

variable (prog) in
/-- The process has a message of the round after `k` rounds still to send. -/
def Net.Behind (init : P → σ) (count : P → ℕ) (net : Net P σ ρ μ) (k : ℕ) (p : P) : Prop :=
  ∃ q, (prog.posted (prog.lock init k) p q).isSome ∧ net.written count p q ≤ k

section

variable {s s' : ByteNet P σ ρ μ} {init : P → σ} {count : P → ℕ} {p q : P} {k : ℕ}

omit [DecidableEq P] in
/-- Nothing of the round is received by a process that has still to send in it. -/
theorem Net.Behind.taken_le {net : Net P σ ρ μ} (h : net.Behind prog init count k q) (hfirst : net.SendsFirst) (p : P) :
    net.taken count p q ≤ k := by
  obtain ⟨b, -, hb⟩ := h
  unfold Net.written at hb
  unfold Net.taken
  cases hq : net.proc q with
  | idle s' => simp only [Proc.got]; omega
  | stopped s' => simp only [Proc.got]; omega
  | busy r outbox inbox =>
      simp only [hq, Proc.sent] at hb
      simp only [Proc.got]
      split
      · next hin =>
          simpa [hfirst q r outbox inbox hq p hin b] using hb
      · omega

omit [DecidableEq P] in
/-- What is delivered to such a process is of an earlier round, so the channel holds all bytes of the round. -/
theorem Net.Behind.bytes_ge (hm : prog.Matched init) (hvalid : s.Valid prog size)
    (h : Synced prog init count s.net) (hfirst : s.net.SendsFirst) (hq : s.net.Behind prog init count k q)
    (hk : k ≤ s.net.written count p q) :
    ((segment (fun j => prog.posted (prog.lock init j) p q) k (s.net.written count p q)).map size).sum +
      s.accepted p q ≤ s.bytes size p q := by
  have hchannel := h.channel p q
  rw [segment_append (hq.taken_le hfirst p) hk] at hchannel
  by_cases hzero : s.delivered p q = 0
  · rw [ByteNet.bytes, hzero, hchannel, List.map_append, List.sum_append]
    omega
  · obtain ⟨r, outbox, inbox, hproc, hout, ha, hin⟩ := hvalid.delivered p q hzero
    -- the receiver is in an earlier round
    have hlt : count q < k := by
      obtain ⟨b, -, hb⟩ := hq
      simp only [Net.written, hproc, Proc.sent, hout b, Option.isNone_none, if_true] at hb
      omega
    have htaken : s.net.taken count p q = count q := by simp [Net.taken, hproc, Proc.got, hin]
    obtain ⟨r', hr'⟩ := h.staged_of_written (lt_of_lt_of_le hlt hk)
    obtain ⟨m, hpost⟩ := Option.isSome_iff_exists.mp ((hm.posted_isSome (h.staged hproc) hr').mpr ha)
    rw [htaken, segment_cons hlt, hpost] at hchannel
    have hhead := hvalid.head p q m _ hchannel
    rw [ByteNet.bytes, hchannel]
    simp only [Option.toList_some, List.cons_append, List.nil_append, List.map_cons, List.map_append, List.sum_cons,
      List.sum_append]
    omega

omit [DecidableEq P] in
theorem Net.Behind.written_le (hm : prog.Matched init) (hvalid : s.Valid prog size)
    (h : Synced prog init count s.net) (hfirst : s.net.SendsFirst) (hB : s.bytes size p q ≤ B)
    (hq : s.net.Behind prog init count k q) (hover : prog.Oversized size B init k p q) :
    s.net.written count p q ≤ k := by
  by_contra hlt
  have hlt : k < s.net.written count p q := Nat.lt_of_not_le hlt
  obtain ⟨m, hpost, hsize⟩ := hover
  have hbytes := Net.Behind.bytes_ge hm hvalid h hfirst hq hlt.le
  rw [segment_cons hlt, hpost] at hbytes
  simp only [Option.toList_some, List.cons_append, List.nil_append, List.map_cons, List.sum_cons] at hbytes
  omega

omit [DecidableEq P] in
theorem Synced.written_start {net : Net P σ ρ μ} (h : Synced prog init count net) {r : ρ} {inbox : P → Option μ}
    (hp : net.proc p = .busy r (prog.sends p r) inbox) (hpost : (prog.posted (prog.lock init k) p q).isSome)
    (hle : count p ≤ k) : net.written count p q ≤ k := by
  by_cases hk : count p = k
  · rw [posted, ← hk, h.staged hp, Option.bind_some] at hpost
    obtain ⟨m, hm⟩ := Option.isSome_iff_exists.mp hpost
    simp [Net.written, hp, Proc.sent, hm, hk]
  · have hsent : (net.proc p).sent q ≤ 1 := by
      rw [hp, Proc.sent]
      split <;> omega
    unfold Net.written
    omega

omit [DecidableEq P] in
/-- The last byte of an oversized message is not accepted. -/
theorem Net.Behind.count_lt (hm : prog.Matched init) (hvalid : s.Valid prog size) (h : Synced prog init count s.net)
    (hfirst : s.net.SendsFirst) (hq : s.net.Behind prog init count k q) (hover : prog.Oversized size B init k p q)
    {r : ρ} {outbox inbox : P → Option μ} {m : μ} (hp : s.net.proc p = .busy r outbox inbox) (hout : outbox q = some m)
    (hroom : s.bytes size p q < B) (hlast : size m ≤ s.accepted p q + 1) (hle : count p ≤ k) : count p < k := by
  refine lt_of_le_of_ne hle fun hk => ?_
  obtain ⟨m', hpost, hsize⟩ := hover
  obtain rfl : m' = m := by
    rw [posted, ← hk, h.staged hp, Option.bind_some, h.outbox_eq hp hout] at hpost
    exact (Option.some.inj hpost).symm
  have hwritten : s.net.written count p q = k := by simp [Net.written, hp, Proc.sent, hout, hk]
  have hbytes := Net.Behind.bytes_ge hm hvalid h hfirst hq hwritten.ge
  omega

/-- **One event**: processes each of which has an oversized message for another of them stay behind. -/
theorem Net.Behind.step (hm : prog.Matched init) (hvalid : s.Valid prog size) (h : Synced prog init count s.net)
    (hfirst : s.net.SendsFirst) (hB : ∀ p q, s.bytes size p q ≤ B) {C : Set P}
    (hC : ∀ p ∈ C, ∃ q ∈ C, prog.Oversized size B init k p q) (hbehind : ∀ p ∈ C, s.net.Behind prog init count k p)
    {ev : ByteEvent P} (hs : prog.byteStep size B s ev = some s') :
    ∃ count', Synced prog init count' s'.net ∧ ∀ p ∈ C, s'.net.Behind prog init count' k p := by
  -- what a process of the set has for the next one is not sent before the event
  have hedge : ∀ p ∈ C, ∃ q ∈ C, prog.Oversized size B init k p q ∧
      (prog.posted (prog.lock init k) p q).isSome ∧ s.net.written count p q ≤ k := by
    intro p hp
    obtain ⟨q, hq, hover⟩ := hC p hp
    obtain ⟨m, hpost, -⟩ := id hover
    exact ⟨q, hq, hover, by rw [hpost]; rfl, Net.Behind.written_le hm hvalid h hfirst (hB p q) (hbehind q hq) hover⟩
  cases byteStepTo_of_byteStep hs with
  | push hp hout hroom hlt => exact ⟨count, h, hbehind⟩
  | pop hp hout ha hin hbytes hlt => exact ⟨count, h, hbehind⟩
  | @start p net' hnet =>
      have h' := h.step hm hnet
      refine ⟨count, h', fun a ha => ?_⟩
      obtain ⟨b, -, -, hpost, hle⟩ := hedge a ha
      refine ⟨b, hpost, ?_⟩
      cases stepTo_of_step hnet with
      | stop hp hstop => rwa [Net.written_setProc (by rw [hp]; rfl)]
      | @start _ _ r hp hr =>
          by_cases hap : a = p
          · subst hap
            exact Synced.written_start h' (Net.setProc_same _ _ _) hpost (le_trans (Nat.le_add_right _ _) hle)
          · simpa [Net.written, hap] using hle
  | @sent p q r outbox inbox m hp hout hroom hlast =>
      refine ⟨count, h.send hp hout, fun a ha => ?_⟩
      obtain ⟨b, hb, hover, hpost, hle⟩ := hedge a ha
      refine ⟨b, hpost, ?_⟩
      by_cases hab : a = p ∧ b = q
      · obtain ⟨rfl, rfl⟩ := hab
        have hlt := Net.Behind.count_lt hm hvalid h hfirst (hbehind b hb) hover hp hout hroom hlast
          (le_trans (Nat.le_add_right _ _) hle)
        refine le_of_eq_of_le ?_ (Nat.succ_le_of_lt hlt)
        simp [Net.written, Proc.sent]
      · refine le_of_eq_of_le ?_ hle
        by_cases hap : a = p
        · subst hap
          have hbq : b ≠ q := fun hbq => hab ⟨rfl, hbq⟩
          simp [Net.written, hp, Proc.sent, hbq]
        · simp [Net.written, hap]
  | @got p q r outbox inbox m ms hp hout ha hin hc hlast =>
      refine ⟨count, h.recv hm hp ha hin hc, fun a ha' => ?_⟩
      obtain ⟨b, -, -, hpost, hle⟩ := hedge a ha'
      refine ⟨b, hpost, ?_⟩
      rwa [Net.written_setChannel, Net.written_setProc (by rw [hp]; rfl)]
  | @finish p net' hnet =>
      cases stepTo_of_step hnet with
      | @finish _ r outbox inbox hp hout hin =>
          refine ⟨_, h.finish hm hp hout hin, fun a ha => ?_⟩
          obtain ⟨b, -, -, hpost, hle⟩ := hedge a ha
          refine ⟨b, hpost, le_of_eq_of_le ?_ hle⟩
          by_cases hap : a = p
          · subst hap
            simp [Net.written, hp, Proc.sent, hout]
          · simp [Net.written, hap]

/-- **Cycles block**: in every run the processes on a cycle of oversized messages of a round are behind in it. -/
theorem ByteReachable.behind_of_cycle (hm : prog.Matched init) (hsize : ∀ m, 0 < size m)
    (h : prog.ByteReachable size B (byteInitial init) s) :
    ∃ count, Synced prog init count s.net ∧
      ∀ p, Relation.TransGen (prog.Oversized size B init k) p p → s.net.Behind prog init count k p := by
  have hC : ∀ p ∈ {p | Relation.TransGen (prog.Oversized size B init k) p p},
      ∃ q ∈ {p | Relation.TransGen (prog.Oversized size B init k) p p}, prog.Oversized size B init k p q := by
    intro p hp
    obtain ⟨q, hpq, hqp⟩ := Relation.TransGen.head'_iff.mp hp
    exact ⟨q, Relation.TransGen.tail' hqp hpq, hpq⟩
  induction h with
  | refl =>
      refine ⟨_, synced_initial, fun p hp => ?_⟩
      obtain ⟨q, -, m, hpost, -⟩ := hC p hp
      exact ⟨q, by rw [hpost]; rfl, Nat.zero_le k⟩
  | step hreach hs ih =>
      obtain ⟨count, hsync, hbehind⟩ := ih
      exact Net.Behind.step hm (hreach.valid hsize) hsync hreach.sendsFirst (hreach.bytes_le hsize) hC hbehind hs

end

end RoundProgram
