import MpcCore.CircuitSchedule
import MpcCore.Additive

/-! # What the constructor accepts, and where it places an operation

* `MpcCircuit.new_exact`: `new` returns a circuit exactly for the acceptable lists of operations;
  the circuit then holds each operation once, local ones among the local operations; every other
  list gets the error of the first check it fails.
* `MpcCircuit.split_exact`: an operation is placed in an offline round exactly when neither it
  nor any of its transitive producers is an input, and in an online round otherwise. -/

namespace MpcCore

open Operation CircuitScheme EdgeList

variable {S Op : Type} [Operation Op]

/-- Some path of consumers leads from an operation back to itself. -/
def Cyclic (ops : List Op) : Prop := ∃ i, Relation.TransGen (Feeds ops) i i

/-- The operation at this index or one of its transitive producers is an input. -/
def InputDependent (ops : List Op) (i : ℕ) : Prop :=
  ∃ j, Relation.ReflTransGen (Feeds ops) j i ∧ isInputAt ops j = true

variable [CircuitScheme S Op]

/-- The lists of operations that make a circuit. -/
structure Acceptable (scheme : S) (ops : List Op) : Prop where
  nonempty : ops ≠ []
  sound : isCircuitSound scheme ops = some true
  input_network : ∀ op ∈ ops, isInput op = true → isOperationLocal scheme op = false
  produced_once : (producedWires ops).Nodup
  consumed_produced : ∀ w ∈ consumedWires ops, w ∈ producedWires ops
  acyclic : ¬ Cyclic ops

/-- The first check that fails, in the order of the code, and what its error reports. -/
def FirstFailure (scheme : S) (ops : List Op) (e : MpcCircuitError) : Prop :=
  let nonempty := ops ≠ []
  let sound := nonempty ∧ isCircuitSound scheme ops = some true
  let network := sound ∧ ∀ op ∈ ops, isInput op = true → isOperationLocal scheme op = false
  let once := network ∧ (producedWires ops).Nodup
  let linked := once ∧ ∀ w ∈ consumedWires ops, w ∈ producedWires ops
  match e with
  | .emptyCircuit => ops = []
  | .circuitUnsound => nonempty ∧ isCircuitSound scheme ops = some false
  | .localInputOperation => sound ∧ ∃ op ∈ ops, isInput op = true ∧ isOperationLocal scheme op = true
  | .wireProducedManyTimes w => network ∧ 2 ≤ (producedWires ops).count w
  | .wireConsumedButNotProduced w => once ∧ w ∈ consumedWires ops ∧ w ∉ producedWires ops
  | .circuitCyclic => linked ∧ Cyclic ops

variable {scheme : S} {operations : List Op} {target : Bool} {E : List (ℕ × ℕ)}
  {T₀ init : List ℕ} {D D₁ D₂ : List Entry} {R R₁ R₂ : ℕ}

theorem FirstFailure.not_acceptable {e : MpcCircuitError} (h : FirstFailure scheme operations e) :
    ¬ Acceptable scheme operations := by
  intro ha
  cases e with
  | emptyCircuit => exact ha.nonempty h
  | circuitUnsound =>
      have := ha.sound.symm.trans h.2
      simp at this
  | localInputOperation =>
      obtain ⟨-, op, hop, hi, hl⟩ := h
      rw [ha.input_network op hop hi] at hl
      cases hl
  | wireProducedManyTimes w =>
      have := List.nodup_iff_count_le_one.mp ha.produced_once w
      have := h.2
      omega
  | wireConsumedButNotProduced w => exact h.2.2 (ha.consumed_produced w h.2.1)
  | circuitCyclic => exact ha.acyclic h.2

/-! ### Cycles and leftovers -/

/-- A scheduled index has a rank above those of its producers. -/
theorem ScheduleLog.acyclic (log : ScheduleLog scheme operations E D₁ D₂ R₁ R₂)
    (hlt : ∀ p c, (p, c) ∈ E → p < operations.length ∧ c < operations.length)
    (hall : ∀ i < operations.length, i ∈ takenByBoth operations D₁ D₂) : Acyclic E := by
  have hidx : ∀ {D : List Entry}, (D.map Entry.idx).Nodup → ∀ {j : ℕ} {e : Entry}, D[j]? = some e →
      (D.map Entry.idx).idxOf e.idx = j := by
    intro D hnd j e hj
    obtain ⟨hj', rfl⟩ := List.getElem?_eq_some_iff.mp hj
    have := hnd.idxOf_getElem j (by simpa using hj')
    simpa using this
  refine acyclic_of_rank (fun i => if i ∈ taken operations true [] D₁
    then (D₁.map Entry.idx).idxOf i else D₁.length + (D₂.map Entry.idx).idxOf i) ?_
  intro p c he
  have hc := hall c (hlt p c he).2
  have hclosed : ∀ c, c ∈ taken operations true [] D₁ → ∀ p, (p, c) ∈ E →
      p ∈ taken operations true [] D₁ := fun c hc p he => log.offline.taken_closed (by simp) he hc
  by_cases hc₁ : c ∈ taken operations true [] D₁
  · rw [if_pos hc₁, if_pos (hclosed c hc₁ p he)]
    obtain ⟨e, heD, -, rfl⟩ | hnil := mem_taken.mp hc₁
    · obtain ⟨j, hj⟩ := List.getElem?_of_mem heD
      obtain ⟨i, s, hij, hs, rfl, -⟩ := log.offline.pred_earlier hj he (by simp)
      rw [hidx log.offline.nodup hj, hidx log.offline.nodup hs]
      exact hij
    · cases hnil
  · obtain ⟨e, heD, -, rfl⟩ := (mem_taken.mp hc).resolve_right hc₁
    obtain ⟨j, hj⟩ := List.getElem?_of_mem heD
    rw [if_neg hc₁]
    by_cases hp₁ : p ∈ taken operations true [] D₁
    · rw [if_pos hp₁]
      obtain ⟨s, hs, -, rfl⟩ := (mem_taken.mp hp₁).resolve_right (by simp)
      obtain ⟨i, hi⟩ := List.getElem?_of_mem hs
      have := (List.getElem?_eq_some_iff.mp hi).1
      rw [hidx log.offline.nodup hi]
      omega
    · obtain ⟨i, s, hij, hs, rfl, -⟩ := log.online.pred_earlier hj he hp₁
      rw [if_neg hp₁, hidx log.online.nodup hj, hidx log.online.nodup hs]
      omega

/-- In an acyclic graph nothing is left over. -/
theorem ScheduleLog.all_taken (log : ScheduleLog scheme operations E D₁ D₂ R₁ R₂)
    (hlt : ∀ p c, (p, c) ∈ E → p < operations.length ∧ c < operations.length) (hac : Acyclic E) :
    ∀ i < operations.length, i ∈ takenByBoth operations D₁ D₂ := by
  by_contra hleft
  push Not at hleft
  obtain ⟨i, hi, hT⟩ := hleft
  let U := (Finset.range operations.length).filter (· ∉ takenByBoth operations D₁ D₂)
  obtain ⟨v, hv, hmin⟩ := exists_no_pred_of_acyclic hac U ⟨i, by simp [U, hi, hT]⟩
  simp only [U, Finset.mem_filter, Finset.mem_range] at hv hmin
  obtain ⟨e, he, hve⟩ := List.mem_map.mp (log.online.complete v hv.1 hv.2 fun p hp => by
    by_contra hpT
    exact hmin p ⟨(hlt p v hp).1, hpT⟩ hp)
  refine hv.2 (mem_taken.mpr (.inl ⟨e, he, ?_, hve⟩))
  rfl

/-! ### The operations of the rounds -/

theorem flatMap_filter_perm {α : Type} (f : α → ℕ) (l : List α) : ∀ R : ℕ,
    ((List.range R).flatMap fun q => l.filter fun x => f x == q).Perm (l.filter fun x => decide (f x < R))
  | 0 => by simp
  | R + 1 => by
      rw [List.range_succ, List.flatMap_append]
      simp only [List.flatMap_cons, List.flatMap_nil, List.append_nil]
      apply ((flatMap_filter_perm f l R).append_right _).trans
      have h1 : (l.filter fun x => decide (f x < R)) =
          (l.filter fun x => decide (f x < R + 1)).filter fun x => decide (f x < R) := by
        rw [List.filter_filter]
        exact List.filter_congr fun x _ => by simp; omega
      have h2 : (l.filter fun x => f x == R) =
          (l.filter fun x => decide (f x < R + 1)).filter fun x => !decide (f x < R) := by
        rw [List.filter_filter]
        exact List.filter_congr fun x _ => by
          rw [Bool.eq_iff_iff]
          simp
          omega
      rw [h1, h2]
      exact List.filter_append_perm _ _

theorem operations_roundAt_perm (D : List Entry) (q : ℕ) :
    (roundAt scheme operations target D q).operations.Perm
      (opsAt operations ((scheduled operations target D).filter fun e => e.round == q)) := by
  unfold Round.operations roundAt opsAt
  rw [← List.filterMap_append]
  apply List.Perm.filterMap _
  have hsplit := List.filter_append_perm (fun e => isLocalAt scheme operations e.idx)
    ((scheduled operations target D).filter fun e => e.round == q)
  rw [List.filter_filter, List.filter_filter] at hsplit
  have h1 : roundEntries scheme operations target D q true = (scheduled operations target D).filter
      fun e => isLocalAt scheme operations e.idx && e.round == q :=
    List.filter_congr fun e _ => by rw [Bool.and_comm]; simp
  have h2 : roundEntries scheme operations target D q false = (scheduled operations target D).filter
      fun e => !isLocalAt scheme operations e.idx && e.round == q :=
    List.filter_congr fun e _ => by rw [Bool.and_comm]; simp
  rw [h1, h2]
  exact hsplit

theorem PhaseLog.operations_perm (h : PhaseLog scheme operations target E T₀ init D R) :
    (((List.range R).map (roundAt scheme operations target D)).flatMap Round.operations).Perm
      (opsAt operations (scheduled operations target D)) := by
  rw [List.flatMap_map]
  have h1 : ((List.range R).flatMap fun q => (roundAt scheme operations target D q).operations).Perm
      ((List.range R).flatMap fun q =>
        opsAt operations ((scheduled operations target D).filter fun e => e.round == q)) :=
    List.Perm.flatMap (List.Perm.refl _) fun q _ => operations_roundAt_perm D q
  have h2 := flatMap_filter_perm Entry.round (scheduled operations target D) R
  have h3 : ((scheduled operations target D).filter fun e => decide (e.round < R)) =
      scheduled operations target D :=
    List.filter_eq_self.mpr fun e he => by simpa using h.round_lt e (mem_scheduled.mp he).1
  rw [h3] at h2
  apply h1.trans
  have h4 := h2.filterMap fun e => operations[e.idx]?
  rw [List.filterMap_flatMap] at h4
  exact h4

theorem PhaseLog.mem_operations (h : PhaseLog scheme operations target E T₀ init D R) {op : Op} :
    op ∈ ((List.range R).map (roundAt scheme operations target D)).flatMap Round.operations ↔
      ∃ e ∈ scheduled operations target D, operations[e.idx]? = some op := by
  rw [h.operations_perm.mem_iff, mem_opsAt]

omit [Operation Op] in
theorem opsAt_eq (D : List Entry) :
    opsAt operations D = (D.map Entry.idx).filterMap fun i => operations[i]? := by
  rw [opsAt, List.filterMap_map]
  rfl

omit [Operation Op] in
theorem filterMap_range_getElem? (l : List Op) :
    ((List.range l.length).filterMap fun i => l[i]?) = l := by
  induction l with
  | nil => rfl
  | cons a l ih =>
      rw [List.length_cons, List.range_succ_eq_map, List.filterMap_cons, List.filterMap_map]
      simpa [Function.comp_def] using ih

/-- When nothing is left over, the rounds hold every operation once. -/
theorem ScheduleLog.operations_perm (log : ScheduleLog scheme operations E D₁ D₂ R₁ R₂)
    (hall : ∀ i < operations.length, i ∈ takenByBoth operations D₁ D₂) :
    ((planOf scheme operations D₁ D₂ R₁ R₂).offlineOperations ++
      (planOf scheme operations D₁ D₂ R₁ R₂).onlineOperations).Perm operations := by
  apply (log.offline.operations_perm.append log.online.operations_perm).trans
  rw [opsAt_eq, opsAt_eq, ← List.filterMap_append]
  have hidx : ((scheduled operations true D₁).map Entry.idx ++
      (scheduled operations false D₂).map Entry.idx).Perm (List.range operations.length) := by
    refine (List.perm_ext_iff_of_nodup ?_ List.nodup_range).mpr fun i => ?_
    · refine List.Nodup.append (log.offline.nodup.sublist (List.Sublist.map _ List.filter_sublist))
        (log.online.nodup.sublist (List.Sublist.map _ List.filter_sublist)) fun i h1 h2 => ?_
      obtain ⟨e, he, rfl⟩ := List.mem_map.mp h2
      apply log.online.fresh e (mem_scheduled.mp he).1
      exact List.mem_append_left _ h1
    · rw [List.mem_range]
      constructor
      · intro hi
        obtain hi | hi := List.mem_append.mp hi
        · obtain ⟨e, he, rfl⟩ := List.mem_map.mp hi
          exact log.offline.lt e (mem_scheduled.mp he).1
        · obtain ⟨e, he, rfl⟩ := List.mem_map.mp hi
          exact log.online.lt e (mem_scheduled.mp he).1
      · intro hi
        have := hall i hi
        simp only [takenByBoth, taken, List.append_nil] at this
        exact List.mem_append.mpr (List.mem_append.mp this).symm
  have := hidx.filterMap fun i => operations[i]?
  rwa [filterMap_range_getElem?] at this

/-! ### The constructor -/

/-- What an accepted list leaves behind: the map of producers, and the logs of the two runs on
the edges it defines. -/
structure BuildLog (scheme : S) (operations : List Op) (producer : PMap WireId ℕ)
    (D₁ D₂ : List Entry) (R₁ R₂ : ℕ) : Prop where
  isProducerMap : IsProducerMap operations producer
  consumed : ∀ w ∈ consumedWires operations, producer.get w ≠ none
  log : ScheduleLog scheme operations (edgesFrom producer 0 operations) D₁ D₂ R₁ R₂
  all : ∀ i < operations.length, i ∈ takenByBoth operations D₁ D₂

theorem edgesFrom_lt {producer : PMap WireId ℕ} (hm : IsProducerMap operations producer) :
    ∀ p c, (p, c) ∈ edgesFrom producer 0 operations → p < operations.length ∧ c < operations.length := by
  intro p c he
  obtain ⟨op, op', w, hp, hc, -, -⟩ := (mem_edgesFrom_iff_feeds hm).mp he
  exact ⟨(List.getElem?_eq_some_iff.mp hp).1, (List.getElem?_eq_some_iff.mp hc).1⟩

theorem acyclic_edgesFrom {producer : PMap WireId ℕ} (hm : IsProducerMap operations producer) :
    Acyclic (edgesFrom producer 0 operations) ↔ ¬ Cyclic operations := by
  have hrel : Edge (edgesFrom producer 0 operations) = Feeds operations := by
    funext p c
    exact propext (mem_edgesFrom_iff_feeds hm)
  simp only [Acyclic, Cyclic, hrel, not_exists]

/-- **The outcomes of the constructor.** -/
theorem MpcCircuit.new_cases (scheme : S) (operations : List Op) :
    (∃ producer D₁ D₂ R₁ R₂, MpcCircuit.new scheme operations = .ok (planOf scheme operations D₁ D₂ R₁ R₂) ∧
      Acceptable scheme operations ∧ BuildLog scheme operations producer D₁ D₂ R₁ R₂) ∨
    (∃ e, MpcCircuit.new scheme operations = .err e ∧ FirstFailure scheme operations e) ∨
    (MpcCircuit.new scheme operations = .hang ∧ isCircuitSound scheme operations = none) := by
  by_cases hne : operations = []
  · exact .inr (.inl ⟨.emptyCircuit, by simp [MpcCircuit.new, hne], hne⟩)
  have hlen : ¬ operations.length = 0 := by simpa using hne
  match hs : isCircuitSound scheme operations with
  | none => exact .inr (.inr ⟨by simp [MpcCircuit.new, hlen, hs], rfl⟩)
  | some false => exact .inr (.inl ⟨.circuitUnsound, by simp [MpcCircuit.new, hlen, hs], hne, hs⟩)
  | some true =>
      by_cases hloc : (operations.any fun op => isInput op && isOperationLocal scheme op) = true
      · refine .inr (.inl ⟨.localInputOperation, by simp only [MpcCircuit.new, hlen, hs, hloc, if_true, if_false],
          ⟨hne, hs⟩, ?_⟩)
        obtain ⟨op, hop, h⟩ := List.any_eq_true.mp hloc
        exact ⟨op, hop, by simpa using h⟩
      have hnet : ∀ op ∈ operations, isInput op = true → isOperationLocal scheme op = false := by
        intro op hop hi
        by_contra hl
        exact hloc (List.any_eq_true.mpr ⟨op, hop, by simp [hi, hl]⟩)
      have hnew : MpcCircuit.new scheme operations =
          (wireProducer 0 operations .empty).bind fun producer =>
            (linkConsumers producer 0 operations (Graph.edgeless operations.length)).bind
              (schedule scheme operations) := by
        simp only [MpcCircuit.new, hlen, hs, hloc, if_false]
        rfl
      rcases wireProducer_spec operations [] .empty isProducerMap_nil (by simp [producedWires]) with
        ⟨producer, h1, h2, h3⟩ | ⟨w, h1, h2⟩
      · rw [List.length_nil] at h1
        rw [List.nil_append] at h2 h3
        rcases linkConsumers_spec producer operations 0 _ [] (Graph.hasEdges_edgeless operations.length)
          with ⟨g, k1, k2, k3⟩ | ⟨w, k1, k2, k3⟩
        · rw [List.nil_append] at k3
          have hcons : ∀ w ∈ consumedWires operations, w ∈ producedWires operations :=
            fun w hw => h3.mem_producedWires.mp (k2 w hw)
          obtain ⟨D₁, D₂, R₁, R₂, log, hrun⟩ :=
            schedule_spec scheme k3 (edgesFrom_lt h3) (edgesFrom_sorted producer 0 operations)
          obtain ⟨hrun, hall⟩ | ⟨hrun, i, hi, hT⟩ := hrun
          · refine .inl ⟨producer, D₁, D₂, R₁, R₂, by rw [hnew, h1, Outcome.ok_bind, k1]; exact hrun, ?_,
              ⟨h3, k2, log, hall⟩⟩
            exact ⟨hne, hs, hnet, h2, hcons, (acyclic_edgesFrom h3).mp (log.acyclic (edgesFrom_lt h3) hall)⟩
          · refine .inr (.inl ⟨.circuitCyclic, by rw [hnew, h1, Outcome.ok_bind, k1]; exact hrun,
              ⟨⟨⟨⟨hne, hs⟩, hnet⟩, h2⟩, hcons⟩, ?_⟩)
            by_contra hcyc
            exact hT (log.all_taken (edgesFrom_lt h3) ((acyclic_edgesFrom h3).mpr hcyc) i hi)
        · refine .inr (.inl ⟨.wireConsumedButNotProduced w, by rw [hnew, h1, Outcome.ok_bind, k1]; rfl,
            ⟨⟨⟨hne, hs⟩, hnet⟩, h2⟩, k2, fun hw => ?_⟩)
          exact h3.mem_producedWires.mpr hw k3
      · rw [List.length_nil] at h1
        rw [List.nil_append] at h2
        exact .inr (.inl ⟨.wireProducedManyTimes w, by rw [hnew, h1]; rfl, ⟨⟨hne, hs⟩, hnet⟩, h2⟩)

/-- The logs behind an accepted circuit. -/
theorem MpcCircuit.new_ok {circuit : MpcCircuit S Op} (h : MpcCircuit.new scheme operations = .ok circuit) :
    ∃ producer D₁ D₂ R₁ R₂, circuit = planOf scheme operations D₁ D₂ R₁ R₂ ∧
      Acceptable scheme operations ∧ BuildLog scheme operations producer D₁ D₂ R₁ R₂ := by
  rcases MpcCircuit.new_cases scheme operations with
    ⟨producer, D₁, D₂, R₁, R₂, h1, h2, h3⟩ | ⟨e, h1, -⟩ | ⟨h1, -⟩
  · rw [h] at h1
    exact ⟨producer, D₁, D₂, R₁, R₂, by simpa using h1, h2, h3⟩
  · rw [h] at h1
    cases h1
  · rw [h] at h1
    cases h1

theorem mem_roundAt_local {D : List Entry} {q : ℕ} {op : Op} :
    (op ∈ (roundAt scheme operations target D q).localOperations → isOperationLocal scheme op = true) ∧
    (op ∈ (roundAt scheme operations target D q).networkOperations → isOperationLocal scheme op = false) := by
  constructor
  all_goals
    intro hop
    obtain ⟨e, he, hop⟩ := mem_opsAt.mp hop
    have := (mem_roundEntries.mp he).2.2.2
    rwa [isLocalAt_of_getElem? scheme hop] at this

section

variable {circuit : MpcCircuit S Op} (h : MpcCircuit.new scheme operations = .ok circuit)
include h

theorem MpcCircuit.acceptable_of_new : Acceptable scheme operations := by
  obtain ⟨_, _, _, _, _, -, ha, -⟩ := MpcCircuit.new_ok h
  exact ha

theorem MpcCircuit.perm_of_new : circuit.operations.Perm operations := by
  obtain ⟨producer, D₁, D₂, R₁, R₂, rfl, -, hb⟩ := MpcCircuit.new_ok h
  exact hb.log.operations_perm hb.all

theorem MpcCircuit.classified_of_new : ∀ round ∈ circuit.offlineRounds ++ circuit.onlineRounds,
    (∀ op ∈ round.localOperations, isOperationLocal scheme op = true) ∧
    (∀ op ∈ round.networkOperations, isOperationLocal scheme op = false) := by
  obtain ⟨producer, D₁, D₂, R₁, R₂, rfl, -, hb⟩ := MpcCircuit.new_ok h
  intro round hround
  obtain hround | hround := List.mem_append.mp hround
  all_goals
    obtain ⟨q, -, rfl⟩ := List.mem_map.mp hround
    exact ⟨fun op => mem_roundAt_local.1, fun op => mem_roundAt_local.2⟩

theorem MpcCircuit.uniqueProducers_of_new : circuit.UniqueProducers :=
  (producedWires_perm (perm_of_new h)).nodup_iff.mpr (acceptable_of_new h).produced_once

end

/-- **Exact acceptance and completeness of the constructor.** -/
theorem MpcCircuit.new_exact (scheme : S) (operations : List Op) :
    ((∃ circuit, MpcCircuit.new scheme operations = .ok circuit) ↔ Acceptable scheme operations) ∧
    (∀ circuit, MpcCircuit.new scheme operations = .ok circuit →
      (circuit.offlineOperations ++ circuit.onlineOperations).Perm operations ∧
      ∀ round ∈ circuit.offlineRounds ++ circuit.onlineRounds,
        (∀ op ∈ round.localOperations, isOperationLocal scheme op = true) ∧
        (∀ op ∈ round.networkOperations, isOperationLocal scheme op = false)) ∧
    (∀ e, MpcCircuit.new scheme operations = .err e → FirstFailure scheme operations e) ∧
    (¬Acceptable scheme operations → (∃ e, MpcCircuit.new scheme operations = .err e) ∨
      MpcCircuit.new scheme operations = .hang ∧ isCircuitSound scheme operations = none) := by
  refine ⟨⟨fun ⟨_, h⟩ => acceptable_of_new h, fun ha => ?_⟩, fun _ h => ⟨perm_of_new h, classified_of_new h⟩,
    fun e h => ?_, fun hna => ?_⟩
  · obtain ⟨_, _, _, _, _, h1, -⟩ | ⟨e, -, h2⟩ | ⟨-, h2⟩ := MpcCircuit.new_cases scheme operations
    · exact ⟨_, h1⟩
    · exact absurd ha h2.not_acceptable
    · rw [ha.sound] at h2
      cases h2
  · obtain ⟨_, _, _, _, _, h1, -⟩ | ⟨e', h1, h2⟩ | ⟨h1, -⟩ := MpcCircuit.new_cases scheme operations
    · rw [h] at h1
      cases h1
    · rw [h] at h1
      obtain rfl : e = e' := by simpa using h1
      exact h2
    · rw [h] at h1
      cases h1
  · obtain ⟨_, _, _, _, _, -, ha, -⟩ | ⟨e, h1, -⟩ | h1 := MpcCircuit.new_cases scheme operations
    · exact absurd ha hna
    · exact .inl ⟨e, h1⟩
    · exact .inr h1

/-! ### Where an operation is placed -/

theorem Feeds.congr_right {ops : List Op} {p i j : ℕ} (hij : ops[i]? = ops[j]?) (h : Feeds ops p i) :
    Feeds ops p j := by
  obtain ⟨op, op', w, hp, hi, hw, hw'⟩ := h
  exact ⟨op, op', w, hp, hij ▸ hi, hw, hw'⟩

theorem InputDependent.congr {ops : List Op} {i j : ℕ} (hij : ops[i]? = ops[j]?)
    (h : InputDependent ops i) : InputDependent ops j := by
  obtain ⟨a, hpath, ha⟩ := h
  obtain rfl | ⟨b, hab, hb⟩ := Relation.ReflTransGen.cases_tail hpath
  · exact ⟨j, .refl, by simpa [isInputAt, ← hij] using ha⟩
  · exact ⟨a, hab.tail (hb.congr_right hij), ha⟩

theorem InputDependent.feeds {ops : List Op} {p c : ℕ} (h : InputDependent ops p) (he : Feeds ops p c) :
    InputDependent ops c := by
  obtain ⟨j, hpath, hj⟩ := h
  exact ⟨j, hpath.tail he, hj⟩

namespace BuildLog

variable {producer : PMap WireId ℕ} (b : BuildLog scheme operations producer D₁ D₂ R₁ R₂)
include b

/-- What the offline run schedules has no input among its ancestors. -/
theorem not_inputDependent {i : ℕ} (hi : i ∈ taken operations true [] D₁) :
    ¬ InputDependent operations i := by
  rintro ⟨j, hpath, hj⟩
  have hj₁ : j ∈ taken operations true [] D₁ := by
    clear hj
    induction hpath using Relation.ReflTransGen.head_induction_on with
    | refl => exact hi
    | head h1 _ ih =>
        exact b.log.offline.taken_closed (by simp) ((mem_edgesFrom_iff_feeds b.isProducerMap).mpr h1) ih
  obtain ⟨e, -, hd, rfl⟩ := (mem_taken.mp hj₁).resolve_right (by simp)
  simp [deferred, hj] at hd

/-- The offline run schedules everything that has no input among its ancestors. -/
theorem mem_taken_of_not_inputDependent {i : ℕ} (hi : i < operations.length)
    (hdep : ¬ InputDependent operations i) : i ∈ taken operations true [] D₁ := by
  classical
  by_contra hT
  let U := (Finset.range operations.length).filter fun c =>
    c ∉ taken operations true [] D₁ ∧ ¬ InputDependent operations c
  have hac : Acyclic (edgesFrom producer 0 operations) :=
    b.log.acyclic (edgesFrom_lt b.isProducerMap) b.all
  obtain ⟨v, hv, hmin⟩ := exists_no_pred_of_acyclic hac U ⟨i, by simp [U, hi, hT, hdep]⟩
  simp only [U, Finset.mem_filter, Finset.mem_range] at hv hmin
  obtain ⟨hvlt, hvT, hvdep⟩ := hv
  -- All producers of `v` are scheduled offline, so it was popped, and only an input is deferred.
  obtain ⟨e, he, rfl⟩ := List.mem_map.mp (b.log.offline.complete v hvlt hvT fun p hp => by
    by_contra hpT
    refine hmin p ⟨(edgesFrom_lt b.isProducerMap p v hp).1, hpT, fun hpd => hvdep ?_⟩ hp
    exact hpd.feeds ((mem_edgesFrom_iff_feeds b.isProducerMap).mp hp))
  rw [b.log.offline.mem_taken_iff he] at hvT
  exact hvdep ⟨e.idx, .refl, by simpa [deferred] using hvT⟩

theorem mem_offline_iff {i : ℕ} {op : Op} (hop : operations[i]? = some op) :
    op ∈ (planOf scheme operations D₁ D₂ R₁ R₂).offlineOperations ↔ ¬ InputDependent operations i := by
  unfold MpcCircuit.offlineOperations planOf
  rw [b.log.offline.mem_operations]
  constructor
  · rintro ⟨e, he, heop⟩ hdep
    obtain ⟨heD, hd⟩ := mem_scheduled.mp he
    exact b.not_inputDependent (mem_taken.mpr (.inl ⟨e, heD, hd, rfl⟩)) (hdep.congr (hop.trans heop.symm))
  · intro hdep
    obtain ⟨e, heD, hd, rfl⟩ := (mem_taken.mp (b.mem_taken_of_not_inputDependent
      (List.getElem?_eq_some_iff.mp hop).1 hdep)).resolve_right (by simp)
    exact ⟨e, mem_scheduled.mpr ⟨heD, hd⟩, hop⟩

theorem mem_online_iff {i : ℕ} {op : Op} (hop : operations[i]? = some op) :
    op ∈ (planOf scheme operations D₁ D₂ R₁ R₂).onlineOperations ↔ InputDependent operations i := by
  unfold MpcCircuit.onlineOperations planOf
  rw [b.log.online.mem_operations]
  constructor
  · rintro ⟨e, he, heop⟩
    by_contra hdep
    refine b.log.online.fresh e (mem_scheduled.mp he).1 (b.mem_taken_of_not_inputDependent
      (b.log.online.lt e (mem_scheduled.mp he).1) fun h => hdep (h.congr (heop.trans hop.symm)))
  · intro hdep
    have hT := b.all i (List.getElem?_eq_some_iff.mp hop).1
    obtain ⟨e, heD, hd, rfl⟩ := (mem_taken.mp hT).resolve_right fun h => b.not_inputDependent h hdep
    exact ⟨e, mem_scheduled.mpr ⟨heD, hd⟩, hop⟩

end BuildLog

section

variable {circuit : MpcCircuit S Op} (h : MpcCircuit.new scheme operations = .ok circuit) {i : ℕ} {op : Op}
  (hop : operations[i]? = some op)
include h hop

theorem MpcCircuit.mem_offline_iff : op ∈ circuit.offlineOperations ↔ ¬ InputDependent operations i := by
  obtain ⟨producer, D₁, D₂, R₁, R₂, rfl, -, b⟩ := MpcCircuit.new_ok h
  exact b.mem_offline_iff hop

theorem MpcCircuit.mem_online_iff : op ∈ circuit.onlineOperations ↔ InputDependent operations i := by
  obtain ⟨producer, D₁, D₂, R₁, R₂, rfl, -, b⟩ := MpcCircuit.new_ok h
  exact b.mem_online_iff hop

end

/-- **Exact offline/online split.** -/
theorem MpcCircuit.split_exact {circuit : MpcCircuit S Op}
    (h : MpcCircuit.new scheme operations = .ok circuit) {i : ℕ} {op : Op}
    (hop : operations[i]? = some op) :
    (op ∈ circuit.offlineOperations ↔ ¬ InputDependent operations i) ∧
    (op ∈ circuit.onlineOperations ↔ InputDependent operations i) :=
  ⟨mem_offline_iff h hop, mem_online_iff h hop⟩

/-- An input that consumes nothing is a network operation of the first online round. -/
theorem MpcCircuit.input_first {circuit : MpcCircuit S Op} (h : MpcCircuit.new scheme operations = .ok circuit)
    {op : Op} (hop : op ∈ circuit.onlineOperations) (hinput : isInput op = true) (hnone : inputs op = []) :
    ∃ round rest, circuit.onlineRounds = round :: rest ∧ op ∈ round.networkOperations := by
  obtain ⟨producer, D₁, D₂, R₁, R₂, rfl, haccept, b⟩ := MpcCircuit.new_ok h
  obtain ⟨e, he, heop⟩ := b.log.online.mem_operations.mp hop
  obtain ⟨heD, hd⟩ := mem_scheduled.mp he
  have hround : e.round = 0 := by
    obtain ⟨-, h0, -⟩ | ⟨k, t, -, -, -, hedge, -⟩ := b.log.online.origin e heD
    · exact h0
    · obtain ⟨op₁, op₂, w, -, h2, -, hw⟩ := (mem_edgesFrom_iff_feeds b.isProducerMap).mp hedge
      obtain rfl : op = op₂ := by simpa [heop] using h2
      rw [hnone] at hw
      cases hw
  obtain ⟨R, rfl⟩ : ∃ R, R₂ = R + 1 := ⟨R₂ - 1, by have := b.log.online.round_lt e heD; omega⟩
  refine ⟨_, _, by rw [planOf, List.range_succ_eq_map, List.map_cons], mem_opsAt.mpr ⟨e, ?_, heop⟩⟩
  refine mem_roundEntries.mpr ⟨heD, hd, hround, ?_⟩
  rw [isLocalAt_of_getElem? scheme heop]
  exact haccept.input_network op (List.mem_of_getElem? heop) hinput

/-- Two inputs and their sum. -/
def sumOperations : List AdditiveOperation := [.input 0 ⟨0⟩, .input 1 ⟨1⟩, .add ⟨0⟩ ⟨1⟩ ⟨2⟩]

/-- The plan for two inputs and their sum: three rounds, of which the offline one is empty. -/
def sumCircuit : MpcCircuit (AdditiveScheme 100) AdditiveOperation :=
  ⟨⟨⟩, [⟨[], []⟩], [⟨[], [.input 0 ⟨0⟩, .input 1 ⟨1⟩]⟩, ⟨[.add ⟨0⟩ ⟨1⟩ ⟨2⟩], []⟩]⟩

theorem new_sumOperations : MpcCircuit.new (S := AdditiveScheme 100) ⟨⟩ sumOperations = .ok sumCircuit := by
  decide

theorem MpcCircuit.split_exact_sum :
    (.add ⟨0⟩ ⟨1⟩ ⟨2⟩ ∈ sumCircuit.offlineOperations ↔ ¬ InputDependent sumOperations 2) ∧
    (.add ⟨0⟩ ⟨1⟩ ⟨2⟩ ∈ sumCircuit.onlineOperations ↔ InputDependent sumOperations 2) :=
  MpcCircuit.split_exact new_sumOperations rfl

end MpcCore
