import MpcCore.CircuitWaves

/-! # The schedule of a circuit

The two runs of `processWave` together.  A run that starts from the ready indices ends with a
`PhaseLog`, the list of the entries it popped; the offline run hands the inputs among them to the
online run (`schedule_spec`).

* `phase_spec`: a run of `processWave` returns, and leaves a `PhaseLog`.
* `ScheduleLog`: the logs of the two runs, the second starting from the inputs that the first has
  deferred. -/

namespace MpcCore

open Operation CircuitScheme EdgeList

variable {S Op : Type} [Operation Op] [CircuitScheme S Op]

/-! ### One run -/

/-- The operations and in-degrees when the indices `T` are scheduled and no pop is under way. -/
structure AtRest (operations : List Op) (E : List (ℕ × ℕ)) (T : List ℕ) (st : Waves Op) : Prop where
  ops_length : st.ops.length = operations.length
  ops : ∀ i < operations.length, st.ops[i]? = some (if i ∈ T then none else operations[i]?)
  inDegree : ∀ c < operations.length, st.inDegree[c]? = some (pending E T c)

/-- The list holds, once each, the unscheduled indices that wait for nothing. -/
structure IsReadyList (operations : List Op) (E : List (ℕ × ℕ)) (T init : List ℕ) : Prop where
  nodup : init.Nodup
  mem_iff : ∀ i, i ∈ init ↔ i < operations.length ∧ i ∉ T ∧ pending E T i = 0

/-- What a run of `processWave` leaves behind: `D` are the entries in the order of the pops. -/
structure PhaseLog (scheme : S) (operations : List Op) (target : Bool) (E : List (ℕ × ℕ))
    (T₀ init : List ℕ) (D : List Entry) (R : ℕ) : Prop where
  lt : ∀ e ∈ D, e.idx < operations.length
  fresh : ∀ e ∈ D, e.idx ∉ T₀
  nodup : (D.map Entry.idx).Nodup
  ready : ∀ e ∈ D, ∀ p, (p, e.idx) ∈ E → p ∈ taken operations target T₀ D
  complete : ∀ c < operations.length, c ∉ taken operations target T₀ D →
    (∀ p, (p, c) ∈ E → p ∈ taken operations target T₀ D) → c ∈ D.map Entry.idx
  sorted : D.Pairwise Entry.Before
  trigger_le : ∀ (j : ℕ) (e : Entry), D[j]? = some e → e.trigger ≤ j
  origin : ∀ e ∈ D, Origin scheme operations target E T₀ init D e
  round_lt : ∀ e ∈ D, e.round < R
  round_ex : ∀ q < R, ∃ e ∈ D, e.round = q

variable {scheme : S} {operations : List Op} {target : Bool} {E : List (ℕ × ℕ)}
  {adj : List (List ℕ)} {T₀ init : List ℕ} {D : List Entry} {R : ℕ}

/-- The entries of the indices a run starts with. -/
def startEntries (init : List ℕ) : List Entry := init.zipIdx.map fun p => ⟨p.1, 0, 0, p.2⟩

theorem startEntries_map_idx (init : List ℕ) : (startEntries init).map Entry.idx = init := by
  simp [startEntries, List.map_map, Function.comp_def]

theorem mem_startEntries {e : Entry} :
    e ∈ startEntries init ↔ e.round = 0 ∧ e.trigger = 0 ∧ init[e.rank]? = some e.idx := by
  obtain ⟨i, q, t, k⟩ := e
  simp only [startEntries, List.mem_map, Prod.exists, List.mem_zipIdx_iff_getElem?, Entry.mk.injEq]
  constructor
  · rintro ⟨a, b, h, rfl, rfl, rfl, rfl⟩
    exact ⟨rfl, rfl, h⟩
  · rintro ⟨rfl, rfl, h⟩
    exact ⟨i, k, h, rfl, rfl, rfl, rfl⟩

theorem startEntries_sorted (init : List ℕ) : (startEntries init).Pairwise Entry.Before := by
  rw [List.pairwise_iff_getElem]
  intro i j hi hj hij
  refine .inr ⟨by simp [startEntries], .inr ⟨by simp [startEntries], ?_⟩⟩
  simpa [startEntries] using hij

theorem WaveInv.start {st : Waves Op} (hst : AtRest operations E T₀ st) (hinit : IsReadyList operations E T₀ init)
    (hwave : st.wave = init) (honline : st.onlineWave = []) :
    WaveInv scheme operations target E T₀ init 0 [] (startEntries init) [] [] st.startRound := by
  have htaken : taken operations target T₀ [] = T₀ := rfl
  have hmem : ∀ e ∈ startEntries init, e.idx < operations.length ∧ e.idx ∉ T₀ ∧ pending E T₀ e.idx = 0 :=
    fun e he => (hinit.mem_iff _).mp (List.mem_of_getElem? (mem_startEntries.mp he).2.2)
  exact
    { wave := by rw [startEntries_map_idx]; exact hwave
      nextWave := rfl
      onlineWave := honline
      localOperations := rfl
      networkOperations := rfl
      ops_length := hst.ops_length
      ops := by rw [htaken]; exact hst.ops
      inDegree := fun c hc => by simpa [htaken, Waves.startRound] using hst.inDegree c hc
      lt := fun e he => (hmem e (by simpa using he)).1
      fresh := fun e he => (hmem e (by simpa using he)).2.1
      nodup := by simpa [startEntries_map_idx] using hinit.nodup
      ready := fun e he => by simpa [htaken] using (hmem e (by simpa using he)).2.2
      complete := by
        intro c hc hT h0
        have : c ∈ init := (hinit.mem_iff c).mpr ⟨hc, hT, by simpa [htaken] using h0⟩
        simpa [startEntries_map_idx] using this
      round_done := by simp
      round_wave := fun e he => (mem_startEntries.mp he).1
      round_next := by simp
      sorted := by simpa using startEntries_sorted init
      trigger_done := by simp
      trigger_wait := fun e he => by simp [(mem_startEntries.mp (by simpa using he)).2.1]
      trigger_last := by simp
      origin := by
        intro e he
        have he' : e ∈ startEntries init := by simpa using he
        obtain ⟨h1, h2, h3⟩ := mem_startEntries.mp he'
        exact .inl ⟨h2, h1, h3, pending_eq_zero.mp (hmem e he').2.2⟩ }

/-- **One run of `process_wave`.** -/
theorem phase_spec (hg : WaveGraph operations E adj T₀) {st : Waves Op}
    (hst : AtRest operations E T₀ st) (hinit : IsReadyList operations E T₀ init)
    (hwave : st.wave = init) (honline : st.onlineWave = []) :
    ∃ R D st', processWave scheme adj target (operations.length + 1) [] st =
        .ok ((List.range R).map (roundAt scheme operations target D), st') ∧
      PhaseLog scheme operations target E T₀ init D R ∧
      AtRest operations E (taken operations target T₀ D) st' ∧
      st'.onlineWave = (D.map Entry.idx).filter (deferred operations target) := by
  have hstart : WaveInv scheme operations target E T₀ init 0 [] (startEntries init) [] [] st.startRound :=
    WaveInv.start hst hinit hwave honline
  obtain ⟨R, D, st', h1, h2, h3, h4⟩ := processWave_spec hg (operations.length + 1) 0 []
    (startEntries init) st hstart (by simp) (by simp) (by simp)
  have hsimp : D ++ [] ++ [] = D := by simp
  have hready := h2.ready
  have hcomplete := h2.complete
  rw [hsimp] at hready hcomplete
  refine ⟨R, D, st', h1, ?_, ?_, h2.onlineWave⟩
  · exact
      { lt := hsimp ▸ h2.lt
        fresh := hsimp ▸ h2.fresh
        nodup := hsimp ▸ h2.nodup
        ready := fun e he => pending_eq_zero.mp (by simpa using hready e he)
        complete := fun c hc hT hp => hcomplete c hc hT (by simpa using pending_eq_zero.mpr hp)
        sorted := hsimp ▸ h2.sorted
        trigger_le := h2.trigger_done
        origin := fun e he => h2.origin e (by simpa using he)
        round_lt := h4
        round_ex := h3 }
  · exact ⟨h2.ops_length, h2.ops, fun c hc => by simpa [Waves.startRound] using h2.inDegree c hc⟩

/-! ### Deferred inputs -/

theorem mem_taken_of_fresh (hfresh : ∀ e ∈ D, e.idx ∉ T₀) {e : Entry} (he : e ∈ D) :
    e.idx ∈ taken operations target T₀ D ↔ deferred operations target e.idx = false := by
  rw [mem_taken]
  constructor
  · rintro (⟨f, hf, hd, hi⟩ | hT)
    · exact hi ▸ hd
    · exact absurd hT (hfresh e he)
  · exact fun hd => .inl ⟨e, he, hd, rfl⟩

theorem isReadyList_of_entries (hlt : ∀ e ∈ D, e.idx < operations.length) (hfresh : ∀ e ∈ D, e.idx ∉ T₀)
    (hnd : (D.map Entry.idx).Nodup) (hready : ∀ e ∈ D, pending E (taken operations target T₀ D) e.idx = 0)
    (hcomplete : ∀ c < operations.length, c ∉ taken operations target T₀ D →
      pending E (taken operations target T₀ D) c = 0 → c ∈ D.map Entry.idx) :
    IsReadyList operations E (taken operations target T₀ D)
      ((D.map Entry.idx).filter (deferred operations target)) where
  nodup := hnd.filter _
  mem_iff i := by
    rw [List.mem_filter, List.mem_map]
    constructor
    · rintro ⟨⟨e, he, rfl⟩, hd⟩
      refine ⟨hlt e he, ?_, hready e he⟩
      rw [mem_taken_of_fresh hfresh he, hd]
      simp
    · rintro ⟨hi, hT, hp⟩
      obtain ⟨e, he, rfl⟩ := List.mem_map.mp (hcomplete i hi hT hp)
      rw [mem_taken_of_fresh hfresh he] at hT
      exact ⟨⟨e, he, rfl⟩, by simpa using hT⟩

/-! ### Consequences of a log -/

namespace PhaseLog

variable (h : PhaseLog scheme operations target E T₀ init D R)
include h

theorem eq_of_idx {e f : Entry} (he : e ∈ D) (hf : f ∈ D) (hi : e.idx = f.idx) : e = f :=
  List.inj_on_of_nodup_map h.nodup he hf hi

theorem mem_taken_iff {e : Entry} (he : e ∈ D) :
    e.idx ∈ taken operations target T₀ D ↔ deferred operations target e.idx = false :=
  mem_taken_of_fresh h.fresh he

/-- The producers of a popped operation that were not scheduled before the run were popped, and
scheduled, earlier in the run. -/
theorem pred_earlier {j : ℕ} {e : Entry} (he : D[j]? = some e) {p : ℕ} (hp : (p, e.idx) ∈ E)
    (hT : p ∉ T₀) : ∃ (i : ℕ) (s : Entry), i < j ∧ D[i]? = some s ∧ s.idx = p ∧
      deferred operations target p = false := by
  obtain ⟨-, -, -, hsrc⟩ | ⟨k, t, hk, -, -, -, -, -, hall⟩ := h.origin e (List.mem_of_getElem? he)
  · exact absurd (hsrc p hp) hT
  · obtain ⟨i, s, hi, hs⟩ := hall p hp hT
    have := h.trigger_le j e he
    exact ⟨i, s, by omega, hs⟩

theorem round_mono {i j : ℕ} {e f : Entry} (he : D[i]? = some e) (hf : D[j]? = some f) (hij : i ≤ j) :
    e.round ≤ f.round := by
  obtain ⟨hi, rfl⟩ := List.getElem?_eq_some_iff.mp he
  obtain ⟨hj, rfl⟩ := List.getElem?_eq_some_iff.mp hf
  obtain hlt | rfl := Nat.lt_or_eq_of_le hij
  · obtain h1 | ⟨h1, -⟩ := (List.pairwise_iff_getElem.mp h.sorted) i j hi hj hlt
    · exact h1.le
    · exact h1.le
  · exact le_rfl

/-- What is scheduled has all its producers scheduled. -/
theorem taken_closed (hT₀ : ∀ p c, (p, c) ∈ E → c ∈ T₀ → p ∈ T₀) {p c : ℕ} (he : (p, c) ∈ E)
    (hc : c ∈ taken operations target T₀ D) : p ∈ taken operations target T₀ D := by
  obtain ⟨e, heD, -, rfl⟩ | hc := mem_taken.mp hc
  · exact h.ready e heD p he
  · exact mem_taken.mpr (.inr (hT₀ p c he hc))

/-- The inputs a run defers are the ready list of the next one. -/
theorem isReadyList_deferred :
    IsReadyList operations E (taken operations target T₀ D)
      ((D.map Entry.idx).filter (deferred operations target)) :=
  isReadyList_of_entries h.lt h.fresh h.nodup (fun e he => pending_eq_zero.mpr (h.ready e he))
    fun c hc hT hp => h.complete c hc hT (pending_eq_zero.mp hp)

end PhaseLog

/-! ### Both runs -/

/-- The indices of the operations without a producer. -/
def sources (operations : List Op) (E : List (ℕ × ℕ)) : List ℕ :=
  (List.range operations.length).filter fun c => pending E [] c == 0

/-- The inputs that the offline run hands over. -/
def handedOver (operations : List Op) (D₁ : List Entry) : List ℕ :=
  (D₁.map Entry.idx).filter (deferred operations true)

/-- The logs of the offline and the online run. -/
structure ScheduleLog (scheme : S) (operations : List Op) (E : List (ℕ × ℕ)) (D₁ D₂ : List Entry)
    (R₁ R₂ : ℕ) : Prop where
  offline : PhaseLog scheme operations true E [] (sources operations E) D₁ R₁
  online : PhaseLog scheme operations false E (taken operations true [] D₁)
    (handedOver operations D₁) D₂ R₂

/-- The plan that two logs describe. -/
def planOf (scheme : S) (operations : List Op) (D₁ D₂ : List Entry) (R₁ R₂ : ℕ) : MpcCircuit S Op :=
  ⟨scheme, (List.range R₁).map (roundAt scheme operations true D₁),
    (List.range R₂).map (roundAt scheme operations false D₂)⟩

/-- The indices scheduled by the two runs. -/
def takenByBoth (operations : List Op) (D₁ D₂ : List Entry) : List ℕ :=
  taken operations false (taken operations true [] D₁) D₂

omit [Operation Op] in
theorem Graph.HasEdges.offlineWave_eq {g : Graph} (hg : g.HasEdges operations.length E) :
    offlineWave g.inDegree = sources operations E := by
  unfold offlineWave sources
  rw [hg.inDegree_length]
  refine List.filter_congr fun c hc => ?_
  rw [hg.inDegree c (List.mem_range.mp hc)]
  simp [pending]

omit [Operation Op] in
theorem isReadyList_sources : IsReadyList operations E [] (sources operations E) where
  nodup := List.nodup_range.filter _
  mem_iff i := by simp [sources]

omit [Operation Op] in
theorem mem_opsAt {op : Op} : op ∈ opsAt operations D ↔ ∃ e ∈ D, operations[e.idx]? = some op := by
  simp [opsAt]

theorem mem_roundEntries {e : Entry} {q : ℕ} {b : Bool} :
    e ∈ roundEntries scheme operations target D q b ↔
      e ∈ D ∧ deferred operations target e.idx = false ∧ e.round = q ∧
        isLocalAt scheme operations e.idx = b := by
  simp [roundEntries, mem_scheduled, and_assoc]

/-- The offline rounds hold no input, so the `debug_assert!` holds. -/
theorem offline_no_input : ((List.range R).map (roundAt scheme operations true D)).all (fun round =>
    round.networkOperations.all (fun op => !isInput op) &&
      round.localOperations.all (fun op => !isInput op)) = true := by
  have hno : ∀ q b, ∀ op ∈ opsAt operations (roundEntries scheme operations true D q b),
      (!isInput op) = true := by
    intro q b op hop
    obtain ⟨e, he, hop⟩ := mem_opsAt.mp hop
    have := (mem_roundEntries.mp he).2.1
    simpa [deferred, isInputAt_of_getElem? hop] using this
  rw [List.all_eq_true]
  intro round hround
  obtain ⟨q, -, rfl⟩ := List.mem_map.mp hround
  rw [Bool.and_eq_true, List.all_eq_true, List.all_eq_true]
  exact ⟨hno q false, hno q true⟩

omit [Operation Op] in
theorem atRest_initial {g : Graph} (hg : g.HasEdges operations.length E) :
    AtRest operations E [] (Waves.initial operations g.inDegree) where
  ops_length := by simp [Waves.initial]
  ops i hi := by simp [Waves.initial, hi]
  inDegree c hc := by simp [Waves.initial, hg.inDegree c hc, pending]

/-- **The two runs return**, on every graph. -/
theorem runs_spec {g : Graph} (scheme : S) (hg : g.HasEdges operations.length E)
    (hlt : ∀ p c, (p, c) ∈ E → p < operations.length ∧ c < operations.length)
    (hsorted : E.Pairwise fun e f => e.2 ≤ f.2) :
    ∃ D₁ D₂ R₁ R₂ st₁ st₂, ScheduleLog scheme operations E D₁ D₂ R₁ R₂ ∧
      processWave scheme g.adj true (operations.length + 1) [] (Waves.initial operations g.inDegree) =
        .ok ((List.range R₁).map (roundAt scheme operations true D₁), st₁) ∧
      processWave scheme g.adj false (operations.length + 1) []
          { st₁ with wave := st₁.onlineWave, onlineWave := [] } =
        .ok ((List.range R₂).map (roundAt scheme operations false D₂), st₂) ∧
      AtRest operations E (takenByBoth operations D₁ D₂) st₂ := by
  obtain ⟨R₁, D₁, st₁, h1, log₁, rest₁, online₁⟩ := @phase_spec S Op _ _ scheme operations true E g.adj []
    (sources operations E) ⟨hg.adj, hlt, hsorted, by simp⟩ _ (atRest_initial hg) isReadyList_sources
    hg.offlineWave_eq rfl
  have hclosed : ∀ p c, (p, c) ∈ E → c ∈ taken operations true [] D₁ → p ∈ taken operations true [] D₁ :=
    fun p c he hc => log₁.taken_closed (by simp) he hc
  obtain ⟨R₂, D₂, st₂, h2, log₂, rest₂, -⟩ := @phase_spec S Op _ _ scheme operations false E g.adj
    (taken operations true [] D₁) (handedOver operations D₁) ⟨hg.adj, hlt, hsorted, hclosed⟩
    { st₁ with wave := st₁.onlineWave, onlineWave := [] } ⟨rest₁.ops_length, rest₁.ops, rest₁.inDegree⟩
    log₁.isReadyList_deferred online₁ rfl
  exact ⟨D₁, D₂, R₁, R₂, st₁, st₂, ⟨log₁, log₂⟩, h1, h2, rest₂⟩

/-- **Both runs**: a plan when every index is scheduled, and otherwise the cycle error. -/
theorem schedule_spec {g : Graph} (scheme : S) (hg : g.HasEdges operations.length E)
    (hlt : ∀ p c, (p, c) ∈ E → p < operations.length ∧ c < operations.length)
    (hsorted : E.Pairwise fun e f => e.2 ≤ f.2) :
    ∃ D₁ D₂ R₁ R₂, ScheduleLog scheme operations E D₁ D₂ R₁ R₂ ∧
      ((schedule scheme operations g = .ok (planOf scheme operations D₁ D₂ R₁ R₂) ∧
          ∀ i < operations.length, i ∈ takenByBoth operations D₁ D₂) ∨
        (schedule scheme operations g = .err .circuitCyclic ∧
          ∃ i < operations.length, i ∉ takenByBoth operations D₁ D₂)) := by
  obtain ⟨D₁, D₂, R₁, R₂, st₁, st₂, log, h1, h2, rest₂⟩ := runs_spec scheme hg hlt hsorted
  refine ⟨D₁, D₂, R₁, R₂, log, ?_⟩
  have hany : st₂.ops.any Option.isSome = true ↔
      ∃ i < operations.length, i ∉ takenByBoth operations D₁ D₂ := by
    rw [List.any_eq_true]
    constructor
    · rintro ⟨x, hx, hsome⟩
      obtain ⟨i, hi⟩ := List.getElem?_of_mem hx
      have hlen := (List.getElem?_eq_some_iff.mp hi).1
      rw [rest₂.ops_length] at hlen
      refine ⟨i, hlen, fun hT => ?_⟩
      have := rest₂.ops i hlen
      rw [hi, if_pos hT] at this
      simp [Option.some.inj this] at hsome
    · rintro ⟨i, hi, hT⟩
      have := rest₂.ops i hi
      rw [if_neg hT] at this
      exact ⟨_, List.mem_of_getElem? this, by simp [hi]⟩
  have hrun : schedule scheme operations g =
      if st₂.ops.any Option.isSome then .err .circuitCyclic
      else .ok (planOf scheme operations D₁ D₂ R₁ R₂) := by
    have hno := @offline_no_input S Op _ _ scheme operations D₁ R₁
    simp only [schedule, h1, Outcome.ok_bind, h2, hno, if_true, planOf]
  by_cases hleft : ∃ i < operations.length, i ∉ takenByBoth operations D₁ D₂
  · right
    exact ⟨by rw [hrun, if_pos (hany.mpr hleft)], hleft⟩
  · left
    refine ⟨by rw [hrun, if_neg (fun h => hleft (hany.mp h))], fun i hi => ?_⟩
    by_contra hT
    exact hleft ⟨i, hi, hT⟩

end MpcCore
