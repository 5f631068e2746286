import MpcCore.CircuitAccept
import MpcCore.Lib.Stepping

/-! # The scheduler, step by step

The two runs of `process_wave` as a machine that makes one step at a time, so that every state between
two steps can be spoken of.

* `Machine.step`: one test of a loop with what follows it, or the visit of one consumer.
* `leads_schedule`: the machine computes what `schedule` does, so it comes to an end on every graph.
* `Machine.Valid` ties each point of the program to the invariant of the waves that holds there;
  `Machine.Valid.step` says that the step from such a point succeeds, and leads to another.
* `Machine.scheduling_wellBehaved`: the machine comes to an end, and at every point of its run no step
  fails, no index is queued twice, and none is queued that was scheduled before. -/

namespace MpcCore

open Operation CircuitScheme EdgeList

/-- The point of the program: the test of the outer loop, the test of the inner loop, the loop over the
consumers with those still to visit, or the end. -/
inductive Control where
  | outer
  | inner
  | release (opLocal : Bool) (consumers : List ℕ)
  | finished
deriving DecidableEq, Repr

/-- The state of the two runs: the offline run has `target`, and its rounds are kept for the end. -/
structure Machine (Op : Type) where
  control : Control
  target : Bool
  st : Waves Op
  rounds : List (Round Op)
  offlineRounds : List (Round Op)

namespace Machine

variable {S Op : Type} [Operation Op] [CircuitScheme S Op]

/-- One step. -/
def step (scheme : S) (adj : List (List ℕ)) (m : Machine Op) : Outcome MpcCircuitError (Machine Op) :=
  match m.control with
  | .outer =>
      match m.st.wave with
      | [] =>
          if m.target then
            .ok ⟨.outer, false, { m.st with wave := m.st.onlineWave, onlineWave := [] }, [], m.rounds⟩
          else .ok { m with control := .finished }
      | _ :: _ => .ok { m with control := .inner, st := m.st.startRound }
  | .inner =>
      match m.st.wave with
      | [] =>
          .ok { m with
            control := .outer
            st := { m.st with wave := m.st.nextWave, nextWave := m.st.wave }
            rounds := m.rounds ++ [⟨m.st.localOperations, m.st.networkOperations⟩] }
      | opIdx :: wave =>
          match m.st.ops[opIdx]? with
          | some (some op) =>
              if m.target && isInput op then
                .ok { m with st := { m.st with wave, onlineWave := m.st.onlineWave ++ [opIdx] } }
              else
                let st := { m.st with wave, ops := m.st.ops.set opIdx none }
                let opLocal := isOperationLocal scheme op
                let st :=
                  if opLocal then { st with localOperations := st.localOperations ++ [op] }
                  else { st with networkOperations := st.networkOperations ++ [op] }
                match adj[opIdx]? with
                | some consumers => .ok { m with control := .release opLocal consumers, st }
                | none => .panic
          | _ => .panic
  | .release _ [] => .ok { m with control := .inner }
  | .release opLocal (c :: cs) =>
      match m.st.inDegree[c]? with
      | some (d + 1) =>
          let st := { m.st with inDegree := m.st.inDegree.set c d }
          .ok { m with
            control := .release opLocal cs
            st :=
              if d = 0 then
                if opLocal then { st with wave := st.wave ++ [c] }
                else { st with nextWave := st.nextWave ++ [c] }
              else st }
      | _ => .panic
  | .finished => .ok m

/-- The state before the offline run. -/
def start (operations : List Op) (g : Graph) : Machine Op :=
  ⟨.outer, true, Waves.initial operations g.inDegree, [], []⟩

/-- The indices in the queues. -/
def queued (m : Machine Op) : List ℕ := m.st.wave ++ m.st.nextWave ++ m.st.onlineWave

/-! ### The machine and the loops -/

section loops

variable {scheme : S} {adj : List (List ℕ)} {target : Bool} {rounds offlineRounds : List (Round Op)} {st st' : Waves Op}

theorem leads_release {opLocal : Bool} : ∀ {cs : List ℕ} {st : Waves Op}, releaseConsumers opLocal cs st = .ok st' →
    Leads (step scheme adj) ⟨.release opLocal cs, target, st, rounds, offlineRounds⟩
      ⟨.inner, target, st', rounds, offlineRounds⟩
  | [], st, h => by
      obtain rfl := Outcome.ok.inj h
      exact .head rfl (.refl _)
  | c :: cs, st, h => by
      simp only [releaseConsumers] at h
      split at h
      · next d hd =>
          refine .head ?_ (leads_release h)
          simp only [step, hd]
      · cases h

theorem leads_dispatch {opIdx : ℕ} {wave : List ℕ} (hwave : st.wave = opIdx :: wave)
    (h : dispatch scheme adj target opIdx { st with wave } = .ok st') :
    Leads (step scheme adj) ⟨.inner, target, st, rounds, offlineRounds⟩
      ⟨.inner, target, st', rounds, offlineRounds⟩ := by
  simp only [dispatch] at h
  split at h
  · next op hop =>
      split at h
      · next hinput =>
          obtain rfl := Outcome.ok.inj h
          refine .head ?_ (.refl _)
          simp only [step, hwave, hop, hinput, if_true]
      · next hinput =>
          split at h
          · next consumers hadj =>
              refine .head ?_ (leads_release h)
              simp only [step, hwave, hop, hinput, hadj]
              rfl
          · cases h
  · cases h

theorem leads_drain : ∀ {fuel : ℕ} {st : Waves Op}, drainWave scheme adj target fuel st = .ok st' →
    Leads (step scheme adj) ⟨.inner, target, st, rounds, offlineRounds⟩
      ⟨.inner, target, st', rounds, offlineRounds⟩ ∧ st'.wave = []
  | 0, st, h => by cases h
  | fuel + 1, st, h => by
      simp only [drainWave] at h
      split at h
      · next hwave =>
          obtain rfl := Outcome.ok.inj h
          exact ⟨.refl _, hwave⟩
      · next opIdx wave hwave =>
          obtain ⟨st₁, hdispatch, hrest⟩ := Outcome.bind_eq_ok.mp h
          obtain ⟨hleads, hnil⟩ := leads_drain hrest
          exact ⟨(leads_dispatch hwave hdispatch).trans hleads, hnil⟩

theorem leads_process : ∀ {fuel : ℕ} {rounds rounds' : List (Round Op)} {st : Waves Op},
    processWave scheme adj target fuel rounds st = .ok (rounds', st') →
    Leads (step scheme adj) ⟨.outer, target, st, rounds, offlineRounds⟩
      ⟨.outer, target, st', rounds', offlineRounds⟩ ∧ st'.wave = []
  | 0, rounds, rounds', st, h => by cases h
  | fuel + 1, rounds, rounds', st, h => by
      simp only [processWave] at h
      split at h
      · next hwave =>
          obtain ⟨rfl, rfl⟩ := Prod.mk.inj (Outcome.ok.inj h)
          exact ⟨.refl _, hwave⟩
      · next opIdx wave hwave =>
          obtain ⟨st₁, hdrain, hrest⟩ := Outcome.bind_eq_ok.mp h
          have hdrain : drainWave scheme adj target (st.ops.length + 1) st.startRound = .ok st₁ := hdrain
          obtain ⟨hround, hnil⟩ := leads_drain hdrain
          obtain ⟨hleads, hend⟩ := leads_process hrest
          have hbegin : step scheme adj ⟨.outer, target, st, rounds, offlineRounds⟩ =
              .ok ⟨.inner, target, st.startRound, rounds, offlineRounds⟩ := by
            simp only [step, hwave]
          have hswap : step scheme adj ⟨.inner, target, st₁, rounds, offlineRounds⟩ =
              .ok ⟨.outer, target, { st₁ with wave := st₁.nextWave, nextWave := st₁.wave },
                rounds ++ [⟨st₁.localOperations, st₁.networkOperations⟩], offlineRounds⟩ := by
            simp only [step, hnil]
          exact ⟨.head hbegin (hround.trans (.head hswap hleads)), hend⟩

end loops

/-- **The machine computes the schedule**, and comes to its end on every graph. -/
theorem leads_schedule {operations : List Op} {E : List (ℕ × ℕ)} {g : Graph} (scheme : S)
    (hg : g.HasEdges operations.length E) (hlt : ∀ p c, (p, c) ∈ E → p < operations.length ∧ c < operations.length)
    (hsorted : E.Pairwise fun e f => e.2 ≤ f.2) :
    ∃ m, Leads (step scheme g.adj) (start operations g) m ∧ m.control = .finished ∧
      schedule scheme operations g =
        if m.st.ops.any Option.isSome then .err .circuitCyclic
        else .ok ⟨scheme, m.offlineRounds, m.rounds⟩ := by
  obtain ⟨D₁, D₂, R₁, R₂, st₁, st₂, -, h1, h2, -⟩ := runs_spec scheme hg hlt hsorted
  obtain ⟨hoffline, hnil₁⟩ := leads_process h1
  obtain ⟨honline, hnil₂⟩ := leads_process h2
  have hswitch : step scheme g.adj
      ⟨.outer, true, st₁, (List.range R₁).map (roundAt scheme operations true D₁), []⟩ =
      .ok ⟨.outer, false, { st₁ with wave := st₁.onlineWave, onlineWave := [] }, [],
        (List.range R₁).map (roundAt scheme operations true D₁)⟩ := by
    simp only [step, hnil₁, if_true]
  have hend : step scheme g.adj
      ⟨.outer, false, st₂, (List.range R₂).map (roundAt scheme operations false D₂),
        (List.range R₁).map (roundAt scheme operations true D₁)⟩ =
      .ok ⟨.finished, false, st₂, (List.range R₂).map (roundAt scheme operations false D₂),
        (List.range R₁).map (roundAt scheme operations true D₁)⟩ := by
    simp only [step, hnil₂]
    rfl
  refine ⟨_, hoffline.trans (.head hswitch (honline.trans (.head hend (.refl _)))), rfl, ?_⟩
  have hno := @offline_no_input S Op _ _ scheme operations D₁ R₁
  simp only [schedule, h1, Outcome.ok_bind, h2, hno, if_true]

/-! ### The invariant at each point -/

section valid

variable (scheme : S) (operations : List Op) (E : List (ℕ × ℕ)) (adj : List (List ℕ))

/-- What holds at each point of the program: `D` are the entries popped so far, `W` and `X` those in the
two queues; in the loop over the consumers, `e₀` is the last one popped. -/
inductive Valid : Machine Op → Prop where
  | outer {T₀ init : List ℕ} {r : ℕ} {D W : List Entry} {target : Bool} {st : Waves Op}
      {rounds offlineRounds : List (Round Op)} (hg : WaveGraph operations E adj T₀) (hnext : st.nextWave = [])
      (h : WaveInv scheme operations target E T₀ init r D W [] [] st.startRound) :
      Valid ⟨.outer, target, st, rounds, offlineRounds⟩
  | inner {T₀ init : List ℕ} {r : ℕ} {D W X : List Entry} {target : Bool} {st : Waves Op}
      {rounds offlineRounds : List (Round Op)} (hg : WaveGraph operations E adj T₀)
      (h : WaveInv scheme operations target E T₀ init r D W X [] st) :
      Valid ⟨.inner, target, st, rounds, offlineRounds⟩
  | release {T₀ init : List ℕ} {r : ℕ} {D₀ W X : List Entry} {e₀ : Entry} {cs : List ℕ} {target : Bool}
      {st : Waves Op} {rounds offlineRounds : List (Round Op)} (hg : WaveGraph operations E adj T₀)
      (hdef : deferred operations target e₀.idx = false) (hround : e₀.round = r) (hsorted : cs.Pairwise (· ≤ ·))
      (hedge : ∀ c ∈ cs, (e₀.idx, c) ∈ E)
      (h : WaveInv scheme operations target E T₀ init r (D₀ ++ [e₀]) W X cs st) :
      Valid ⟨.release (isLocalAt scheme operations e₀.idx) cs, target, st, rounds, offlineRounds⟩
  | finished {T₀ init : List ℕ} {r : ℕ} {D W : List Entry} {target : Bool} {st : Waves Op}
      {rounds offlineRounds : List (Round Op)} (hnext : st.nextWave = [])
      (h : WaveInv scheme operations target E T₀ init r D W [] [] st.startRound) :
      Valid ⟨.finished, target, st, rounds, offlineRounds⟩

end valid

variable {scheme : S} {operations : List Op} {E : List (ℕ × ℕ)} {adj : List (List ℕ)} {T₀ init : List ℕ} {r : ℕ}
  {D W X : List Entry} {target : Bool} {st : Waves Op}

/-- What a run with empty queues leaves is where the next run starts. -/
theorem handOver (hg : WaveGraph operations E adj T₀)
    (h : WaveInv scheme operations target E T₀ init r D [] [] [] st.startRound) :
    WaveGraph operations E adj (taken operations target T₀ D) ∧
    WaveInv scheme operations false E (taken operations target T₀ D)
      ((D.map Entry.idx).filter (deferred operations target)) 0 []
      (startEntries ((D.map Entry.idx).filter (deferred operations target))) [] []
      (Waves.startRound { st with wave := st.onlineWave, onlineWave := [] }) := by
  have hall : D ++ [] ++ [] = D := by simp
  have hready : ∀ e ∈ D, pending E (taken operations target T₀ D) e.idx = 0 := fun e he => by
    simpa using h.ready e (hall.symm ▸ he)
  refine ⟨⟨hg.adj, hg.edge_lt, hg.sorted, fun p c hedge hc => ?_⟩, ?_⟩
  · obtain ⟨e, he, -, rfl⟩ | hT := mem_taken.mp hc
    · exact pending_eq_zero.mp (hready e he) p hedge
    · exact mem_taken.mpr (.inr (hg.closed p c hedge hT))
  · have hrest : AtRest operations E (taken operations target T₀ D)
        { st with wave := st.onlineWave, onlineWave := [] } :=
      ⟨h.ops_length, h.ops, fun c hc => by simpa [Waves.startRound] using h.inDegree c hc⟩
    have hlist : IsReadyList operations E (taken operations target T₀ D)
        ((D.map Entry.idx).filter (deferred operations target)) :=
      isReadyList_of_entries (hall ▸ h.lt) (hall ▸ h.fresh) (hall ▸ h.nodup) hready fun c hc hT hp =>
        hall ▸ h.complete c hc hT (by simpa using hp)
    exact WaveInv.start hrest hlist h.onlineWave rfl

/-- **Every step succeeds**, and leads from a valid point to a valid point. -/
theorem Valid.step {m : Machine Op} (hm : Valid scheme operations E adj m) :
    (Machine.step scheme adj m).Yields (Valid scheme operations E adj) := by
  cases hm with
  | @outer T₀ init r D W target st rounds offlineRounds hg hnext h =>
      cases W with
      | nil =>
          have hwave : st.wave = [] := h.wave
          cases target with
          | true =>
              obtain ⟨hg', h'⟩ := handOver hg h
              simp only [Machine.step, hwave, if_true, Outcome.yields_ok]
              exact .outer hg' hnext h'
          | false =>
              simp only [Machine.step, hwave, Bool.false_eq_true, if_false, Outcome.yields_ok]
              exact .finished hnext h
      | cons e W =>
          have hwave : st.wave = e.idx :: W.map Entry.idx := h.wave
          simp only [Machine.step, hwave, Outcome.yields_ok]
          exact .inner hg h
  | @inner T₀ init r D W X target st rounds offlineRounds hg h =>
      cases W with
      | nil =>
          have hwave : st.wave = [] := h.wave
          have hnext := h.nextRound
          simp only [hwave] at hnext
          simp only [Machine.step, hwave, Outcome.yields_ok]
          exact .outer hg rfl hnext
      | cons e W =>
          have hwave : st.wave = e.idx :: W.map Entry.idx := h.wave
          obtain ⟨op, hop, hst⟩ := h.popped_op
          have hinput : deferred operations target e.idx = (target && isInput op) := by
            simp [deferred, isInputAt_of_getElem? hop]
          cases hdef : deferred operations target e.idx with
          | true =>
              simp only [Machine.step, hwave, hst, ← hinput, hdef, if_true, Outcome.yields_ok]
              exact .inner hg (h.defer hdef)
          | false =>
              have hadj := hg.adj e.idx (h.lt e (by simp))
              simp only [Machine.step, hwave, hst, ← hinput, hdef, hadj, Bool.false_eq_true, if_false,
                Outcome.yields_ok, ← isLocalAt_of_getElem? scheme hop]
              have htake := h.take hop hdef
              rw [← isLocalAt_of_getElem? scheme hop] at htake
              exact .release hg hdef (h.round_wave e (by simp)) (succs_sorted hg.sorted _)
                (fun c hc => mem_succs.mp hc) htake
  | @release T₀ init r D₀ W X e₀ cs target st rounds offlineRounds hg hdef hround hsorted hedge h =>
      cases cs with
      | nil => exact Outcome.yields_ok.mpr (.inner hg h)
      | cons c cs =>
          have hc : c < operations.length := (hg.edge_lt _ _ (hedge c List.mem_cons_self)).2
          have hdeg := h.inDegree_head hc
          have hsorted' := (List.pairwise_cons.mp hsorted).2
          have hedge' : ∀ c ∈ cs, (e₀.idx, c) ∈ E := fun x hx => hedge x (List.mem_cons_of_mem _ hx)
          by_cases hd : pending E (taken operations target T₀ (D₀ ++ [e₀])) c + cs.count c = 0
          · simp only [Machine.step, hdeg, hd, if_true, Outcome.yields_ok]
            refine .release hg hdef hround hsorted' hedge'
              (h.release_push hg hsorted hdef hround (hedge c List.mem_cons_self) hd rfl rfl ?_)
            cases isLocalAt scheme operations e₀.idx <;> simp [hd, h.wave, h.nextWave, releasedEntry]
          · simp only [Machine.step, hdeg, hd, if_false, Outcome.yields_ok]
            exact .release hg hdef hround hsorted' hedge' (h.release_skip hc hd)
  | finished hnext h => exact Outcome.yields_ok.mpr (.finished hnext h)

/-! ### Well-behaved states -/

/-- No index is queued twice; the operation of a queued index is still there, so the `unwrap` at its pop
does not meet `None`; the in-degree of a consumer that is visited is positive. -/
structure WellBehaved (m : Machine Op) : Prop where
  nodup : m.queued.Nodup
  unscheduled : ∀ i ∈ m.queued, ∃ op, m.st.ops[i]? = some (some op)
  positive : ∀ opLocal c cs, m.control = .release opLocal (c :: cs) → ∃ d, m.st.inDegree[c]? = some (d + 1)

section queues

variable {cs : List ℕ} (h : WaveInv scheme operations target E T₀ init r D W X cs st)
include h

theorem nodup_queues : (st.wave ++ st.nextWave ++ st.onlineWave).Nodup := by
  have hperm : (D.map Entry.idx ++ (W.map Entry.idx ++ X.map Entry.idx)).Perm
      (W.map Entry.idx ++ X.map Entry.idx ++ D.map Entry.idx) := List.perm_append_comm
  have hnd := h.nodup
  rw [List.map_append, List.map_append, List.append_assoc, hperm.nodup_iff] at hnd
  rw [h.wave, h.nextWave, h.onlineWave]
  exact hnd.sublist ((List.Sublist.refl _).append List.filter_sublist)

theorem not_taken_of_queued {i : ℕ} (hi : i ∈ st.wave ++ st.nextWave ++ st.onlineWave) :
    i < operations.length ∧ i ∉ taken operations target T₀ D := by
  rw [h.wave, h.nextWave, h.onlineWave] at hi
  obtain hi | hi := List.mem_append.mp hi
  · -- an index that waits has not been popped
    rw [← List.map_append] at hi
    obtain ⟨e, he, rfl⟩ := List.mem_map.mp hi
    have hmem : e ∈ D ++ W ++ X := by
      rw [List.append_assoc]
      exact List.mem_append_right _ he
    exact ⟨h.lt e hmem, h.not_taken he⟩
  · -- an input that was handed over was popped, but not scheduled
    obtain ⟨hi, hdef⟩ := List.mem_filter.mp hi
    obtain ⟨e, he, rfl⟩ := List.mem_map.mp hi
    have hmem : e ∈ D ++ W ++ X := by simp [he]
    refine ⟨h.lt e hmem, ?_⟩
    rw [mem_taken_of_fresh (fun x hx => h.fresh x (by simp [hx])) he, hdef]
    simp

theorem op_of_queued {i : ℕ} (hi : i ∈ st.wave ++ st.nextWave ++ st.onlineWave) :
    ∃ op, st.ops[i]? = some (some op) := by
  obtain ⟨hlt, hnot⟩ := not_taken_of_queued h hi
  refine ⟨operations[i], ?_⟩
  rw [h.ops i hlt, if_neg hnot, List.getElem?_eq_getElem hlt]

end queues

omit [Operation Op] in
theorem queued_between {m : Machine Op} (hnext : m.st.nextWave = []) :
    m.queued = m.st.startRound.wave ++ m.st.startRound.nextWave ++ m.st.startRound.onlineWave := by
  simp only [queued, hnext, Waves.startRound]

theorem Valid.wellBehaved {m : Machine Op} (hm : Valid scheme operations E adj m) : m.WellBehaved := by
  cases hm with
  | @outer T₀ init r D W target st rounds offlineRounds hg hnext h =>
      have hqueued := @queued_between Op ⟨.outer, target, st, rounds, offlineRounds⟩ hnext
      exact ⟨hqueued ▸ nodup_queues h, fun i hi => op_of_queued h (hqueued ▸ hi), fun _ _ _ hc => by cases hc⟩
  | inner hg h => exact ⟨nodup_queues h, fun i hi => op_of_queued h hi, fun _ _ _ hc => by cases hc⟩
  | release hg hdef hround hsorted hedge h =>
      refine ⟨nodup_queues h, fun i hi => op_of_queued h hi, fun opLocal c cs hc => ?_⟩
      obtain ⟨-, rfl⟩ := Control.release.inj hc
      exact ⟨_, h.inDegree_head (hg.edge_lt _ _ (hedge c List.mem_cons_self)).2⟩
  | @finished T₀ init r D W target st rounds offlineRounds hnext h =>
      have hqueued := @queued_between Op ⟨.finished, target, st, rounds, offlineRounds⟩ hnext
      exact ⟨hqueued ▸ nodup_queues h, fun i hi => op_of_queued h (hqueued ▸ hi), fun _ _ _ hc => by cases hc⟩

theorem ops_none_of_step {m m' : Machine Op} {i : ℕ} (h : step scheme adj m = .ok m')
    (hi : m.st.ops[i]? = some none) : m'.st.ops[i]? = some none := by
  obtain ⟨control, target, st, rounds, offlineRounds⟩ := m
  have hset : ∀ k, (st.ops.set k none)[i]? = some none := by
    intro k
    have hlt := (List.getElem?_eq_some_iff.mp hi).1
    rw [List.getElem?_set]
    by_cases hk : k = i
    · simp [hk, hlt]
    · rw [if_neg hk]
      exact hi
  cases control with
  | outer =>
      simp only [step] at h
      split at h
      · split at h <;> (obtain rfl := Outcome.ok.inj h; exact hi)
      · obtain rfl := Outcome.ok.inj h
        exact hi
  | inner =>
      simp only [step] at h
      split at h
      · obtain rfl := Outcome.ok.inj h
        exact hi
      · split at h
        · split at h
          · obtain rfl := Outcome.ok.inj h
            exact hi
          · split at h
            · obtain rfl := Outcome.ok.inj h
              simp only
              split <;> exact hset _
            · cases h
        · cases h
  | release opLocal cs =>
      cases cs with
      | nil =>
          obtain rfl := Outcome.ok.inj h
          exact hi
      | cons c cs =>
          simp only [step] at h
          split at h
          · obtain rfl := Outcome.ok.inj h
            simp only
            split
            · split <;> exact hi
            · exact hi
          · cases h
  | finished =>
      obtain rfl := Outcome.ok.inj h
      exact hi

/-- **The scheduling loop on every graph.** -/
theorem scheduling_wellBehaved (scheme : S) {operations : List Op} {producer : PMap WireId ℕ} {g : Graph}
    (hproducer : wireProducer 0 operations .empty = .ok producer)
    (hlink : linkConsumers producer 0 operations (Graph.edgeless operations.length) = .ok g) :
    (∃ n m, runFor (step scheme g.adj) n (start operations g) = .ok m ∧ m.control = .finished ∧
      schedule scheme operations g =
        if m.st.ops.any Option.isSome then .err .circuitCyclic
        else .ok ⟨scheme, m.offlineRounds, m.rounds⟩) ∧
    ∀ n, ∃ m, runFor (step scheme g.adj) n (start operations g) = .ok m ∧ m.WellBehaved ∧
      ∀ k m', runFor (step scheme g.adj) k m = .ok m' → ∀ i, m.st.ops[i]? = some none → i ∉ m'.queued := by
  obtain ⟨hmap, hg⟩ : IsProducerMap operations producer ∧
      g.HasEdges operations.length (edgesFrom producer 0 operations) := by
    obtain ⟨producer', h1, -, hmap⟩ | ⟨w, h1, -⟩ :=
      wireProducer_spec operations [] .empty isProducerMap_nil (by simp [producedWires])
    · obtain rfl := Outcome.ok.inj (hproducer.symm.trans h1)
      obtain ⟨g', h2, -, hg⟩ | ⟨w, h2, -⟩ :=
        linkConsumers_spec producer operations 0 _ [] (Graph.hasEdges_edgeless operations.length)
      · obtain rfl := Outcome.ok.inj (hlink.symm.trans h2)
        exact ⟨by simpa using hmap, by simpa using hg⟩
      · cases hlink.symm.trans h2
    · cases hproducer.symm.trans h1
  have hlt := edgesFrom_lt hmap
  have hsorted := edgesFrom_sorted producer 0 operations
  have hstart : Valid scheme operations (edgesFrom producer 0 operations) g.adj (start operations g) := by
    have hgraph : WaveGraph operations (edgesFrom producer 0 operations) g.adj [] :=
      ⟨hg.adj, hlt, hsorted, by simp⟩
    exact .outer hgraph rfl (WaveInv.start (atRest_initial hg) isReadyList_sources hg.offlineWave_eq rfl)
  refine ⟨?_, fun n => ?_⟩
  · obtain ⟨m, ⟨n, hrun⟩, hend, hschedule⟩ := leads_schedule scheme hg hlt hsorted
    exact ⟨n, m, hrun, hend, hschedule⟩
  · obtain ⟨m, hrun, hm⟩ := runFor_invariant (fun _ => Valid.step) n hstart
    refine ⟨m, hrun, hm.wellBehaved, fun k m' hrun' i hi hqueued => ?_⟩
    obtain ⟨m₁, hrun₁, hm'⟩ := runFor_invariant (fun _ => Valid.step) k hm
    obtain rfl := Outcome.ok.inj (hrun'.symm.trans hrun₁)
    obtain ⟨op, hop⟩ := hm'.wellBehaved.unscheduled i hqueued
    have hnone := runFor_stable (fun _ _ hstep h => ops_none_of_step hstep h) k hrun' hi
    rw [hop] at hnone
    cases hnone

/-- An input that is handed over, and two operations that wait for each other, one by the same wire twice. -/
theorem scheduling_wellBehaved_cycle :
    ∃ n m, runFor (step (⟨⟩ : AdditiveScheme 100) [[1], [2, 2], [1]]) n
        (start [.input 0 ⟨0⟩, .add ⟨0⟩ ⟨2⟩ ⟨1⟩, .add ⟨1⟩ ⟨1⟩ ⟨2⟩] ⟨[[1], [2, 2], [1]], [0, 2, 2]⟩) = .ok m ∧
      m.control = .finished ∧ m.WellBehaved := by
  obtain ⟨⟨n, m, hrun, hend, -⟩, hall⟩ := @scheduling_wellBehaved (AdditiveScheme 100) AdditiveOperation _ _ ⟨⟩
    [.input 0 ⟨0⟩, .add ⟨0⟩ ⟨2⟩ ⟨1⟩, .add ⟨1⟩ ⟨1⟩ ⟨2⟩] _ ⟨[[1], [2, 2], [1]], [0, 2, 2]⟩ rfl rfl
  obtain ⟨m', hrun', hwell, -⟩ := hall n
  obtain rfl := Outcome.ok.inj (hrun.symm.trans hrun')
  exact ⟨n, m, hrun, hend, hwell⟩

end Machine

end MpcCore
