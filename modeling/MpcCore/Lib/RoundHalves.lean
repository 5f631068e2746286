import MpcCore.Lib.Schedules

/-! # The two halves of a round

A process that does half a round at once, as a run of single events.

* `Reachable.begin`: it starts its round and sends all messages.
* `Reachable.complete`: it takes the messages it awaits, when all of them are there, and ends its round.
* `Synced.progress_half`: between half rounds, some process can do the next half as long as one has rounds to go. -/

namespace RoundProgram

variable {P σ ρ μ : Type} [DecidableEq P] [Fintype P] {prog : RoundProgram P σ ρ μ} {net start : Net P σ ρ μ} {p : P}
  {s : σ} {r : ρ} {outbox inbox : P → Option μ}

/-- Replace a process, and the channels at it. -/
def Net.rewire (net : Net P σ ρ μ) (p : P) (proc : Proc P σ ρ μ) (channel : P → P → List μ) : Net P σ ρ μ :=
  ⟨Function.update net.proc p proc, channel⟩

omit [Fintype P] in
@[simp] theorem Net.rewire_self (proc : Proc P σ ρ μ) (channel : P → P → List μ) :
    (net.rewire p proc channel).proc p = proc := Function.update_self ..

omit [Fintype P] in
theorem Net.rewire_ne (proc : Proc P σ ρ μ) (channel : P → P → List μ) {q : P} (h : q ≠ p) :
    (net.rewire p proc channel).proc q = net.proc q := Function.update_of_ne h ..

theorem Reachable.sendAll (h : prog.Reachable start net) (hp : net.proc p = .busy r outbox inbox) :
    ∀ qs : List P, qs.Nodup → prog.Reachable start
      (net.rewire p (.busy r (fun q => if q ∈ qs then none else outbox q) inbox) fun x y =>
        if x = p ∧ y ∈ qs then net.channel x y ++ (outbox y).toList else net.channel x y)
  | [], _ => by
      have hsame : net.rewire p (.busy r (fun q => if q ∈ [] then none else outbox q) inbox) (fun x y =>
          if x = p ∧ y ∈ [] then net.channel x y ++ (outbox y).toList else net.channel x y) = net := by
        simp [Net.rewire, ← hp]
      rw [hsame]
      exact h
  | q :: qs, hnd => by
      obtain ⟨hq, hnd⟩ := List.nodup_cons.mp hnd
      have ih := Reachable.sendAll h hp qs hnd
      cases hm : outbox q with
      | none =>
          convert ih using 2
          · grind
          · grind
      | some m =>
          refine ih.step ((step_send_iff (p := p) (q := q)).mpr ⟨r, _, inbox, m, Function.update_self .., ?_, ?_⟩)
          · rw [if_neg hq, hm]
          · simp only [Net.rewire, Net.apply, Net.setProc, Net.setChannel, Function.update_idem, Net.mk.injEq]
            constructor
            · congr 2
              grind
            · grind

/-- **The first half of a round.** -/
theorem Reachable.begin (h : prog.Reachable start net) (hp : net.proc p = .idle s)
    (hstart : prog.start p s = some (.inr r)) : prog.Reachable start
      (net.rewire p (.busy r (fun _ => none) fun _ => none) fun x y =>
        if x = p then net.channel x y ++ (prog.sends p r y).toList else net.channel x y) := by
  have hstarted := h.step (step_start_iff.mpr ⟨s, _, hp, hstart, rfl⟩)
  have hsent := hstarted.sendAll (Function.update_self ..) Finset.univ.toList (Finset.nodup_toList _)
  simpa [Net.rewire, Net.apply, Net.setProc] using hsent

theorem Reachable.recvAll (h : prog.Reachable start net) (hp : net.proc p = .busy r (fun _ => none) fun _ => none) :
    ∀ qs : List P, qs.Nodup → (∀ q ∈ qs, prog.awaits p r q = true ∧ net.channel q p ≠ []) →
      prog.Reachable start
        (net.rewire p (.busy r (fun _ => none) fun q => if q ∈ qs then (net.channel q p).head? else none) fun x y =>
          if y = p ∧ x ∈ qs then (net.channel x y).tail else net.channel x y)
  | [], _, _ => by
      have hsame : net.rewire p (.busy r (fun _ => none) fun q => if q ∈ [] then (net.channel q p).head? else none)
          (fun x y => if y = p ∧ x ∈ [] then (net.channel x y).tail else net.channel x y) = net := by
        simp [Net.rewire, ← hp]
      rw [hsame]
      exact h
  | q :: qs, hnd, hall => by
      obtain ⟨hq, hnd⟩ := List.nodup_cons.mp hnd
      obtain ⟨hawaits, hne⟩ := hall q List.mem_cons_self
      have ih := Reachable.recvAll h hp qs hnd fun x hx => hall x (List.mem_cons_of_mem _ hx)
      obtain ⟨m, rest, hm⟩ := List.exists_cons_of_ne_nil hne
      refine ih.step ((step_recv_iff (p := p) (q := q)).mpr ⟨r, _, _, m, Function.update_self .., fun _ => rfl, hawaits,
        if_neg hq, ?_, ?_⟩)
      · simp only [Net.rewire]
        rw [if_neg fun hx => hq hx.2, hm, List.head?_cons]
      · simp only [Net.rewire, Net.apply, Net.setProc, Net.setChannel, Function.update_idem, Net.mk.injEq]
        constructor
        · congr 2
          grind
        · grind

theorem Reachable.complete (h : prog.Reachable start net) (hp : net.proc p = .busy r (fun _ => none) fun _ => none)
    (hmessages : ∀ q, prog.awaits p r q = true → net.channel q p ≠ []) : prog.Reachable start
      (net.rewire p (.idle (prog.finish p r fun q => if prog.awaits p r q = true then (net.channel q p).head? else none))
        fun x y => if y = p ∧ prog.awaits p r x = true then (net.channel x y).tail else net.channel x y) := by
  have hreceived := h.recvAll hp (Finset.univ.filter fun q => prog.awaits p r q = true).toList (Finset.nodup_toList _)
    fun q hq => by
      have hawaits : prog.awaits p r q = true := by simpa using hq
      exact ⟨hawaits, hmessages q hawaits⟩
  have hfinished := hreceived.step (step_finish_iff.mpr ⟨r, _, _, Function.update_self ..,
    fun _ => rfl, fun q hq => ?_, rfl⟩)
  · simpa [Net.rewire, Net.apply, Net.setProc] using hfinished
  · obtain ⟨m, rest, hm⟩ := List.exists_cons_of_ne_nil (hmessages q hq)
    simp [hq, hm]

/-! ### Progress -/

/-- Every process is between two rounds, or has sent its messages and received none. -/
def Net.Halfway (net : Net P σ ρ μ) : Prop :=
  ∀ p, (∃ s, net.proc p = .idle s) ∨ ∃ r, net.proc p = .busy r (fun _ => none) fun _ => none

/-- The next half of a round of a process, when it can do it. -/
inductive Net.CanDo (prog : RoundProgram P σ ρ μ) (net : Net P σ ρ μ) (p : P) : Prop where
  | begin {s : σ} {r : ρ} (hp : net.proc p = .idle s) (hr : prog.start p s = some (.inr r))
  | complete {r : ρ} (hp : net.proc p = .busy r (fun _ => none) fun _ => none)
      (hmessages : ∀ q, prog.awaits p r q = true → net.channel q p ≠ [])

variable {init : P → σ} {count : P → ℕ} {R : ℕ}

omit [DecidableEq P] in
/-- **Progress by halves.** -/
theorem Synced.progress_half (hm : prog.Matched init) (h : Synced prog init count net) (hhalf : net.Halfway)
    (hR : ∀ p, ∃ s, prog.lock init R p = some s) (hlt : ∃ p, count p < R) :
    ∃ p, count p < R ∧ net.CanDo prog p := by
  obtain ⟨p₀, hp₀⟩ := hlt
  obtain ⟨p, -, hmin⟩ := Finset.exists_min_image Finset.univ count ⟨p₀, Finset.mem_univ p₀⟩
  have hmin : ∀ q, count p ≤ count q := fun q => hmin q (Finset.mem_univ q)
  have hpR : count p < R := lt_of_le_of_lt (hmin p₀) hp₀
  have hstaged : ∀ q, count q < R → ∃ r, prog.staged (prog.lock init (count q)) q = some r := by
    intro q hq
    obtain ⟨s, hs⟩ := hR q
    exact staged_of_lt hs hq
  -- one of the slowest processes is between two rounds, or all of them have sent
  by_cases hidle : ∃ q s, count q = count p ∧ net.proc q = .idle s
  · obtain ⟨q, s, hq, hproc⟩ := hidle
    obtain ⟨r, hr⟩ := hstaged q (hq ▸ hpR)
    obtain ⟨s', hs', hr⟩ := staged_eq_some.mp hr
    obtain rfl := Option.some.inj (hs'.symm.trans (h.lock_idle hproc))
    exact ⟨q, hq ▸ hpR, .begin hproc hr⟩
  · have hbusy : ∀ q, count q = count p → ∃ r, net.proc q = .busy r (fun _ => none) fun _ => none := by
      intro q hq
      exact (hhalf q).resolve_left fun ⟨s, hs⟩ => hidle ⟨q, s, hq, hs⟩
    obtain ⟨r, hproc⟩ := hbusy p rfl
    refine ⟨p, hpR, .complete hproc fun q hq hnil => ?_⟩
    obtain ⟨r', hr'⟩ : ∃ r', prog.staged (prog.lock init (count p)) q = some r' := by
      obtain ⟨s, hs⟩ := hR q
      exact staged_of_lt hs hpR
    obtain ⟨hcount, hunsent⟩ := h.unsent hm hproc hq rfl hnil hr' (hmin q)
    obtain ⟨r'', hproc'⟩ := hbusy q hcount
    exact absurd (hunsent _ _ _ hproc') (by simp)

end RoundProgram
