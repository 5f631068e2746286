import MpcCore.Scheme

/-! # Execution plans

The rounds of a plan in the order they are executed, offline first, and what makes a plan one
that can be executed.

* `StoresBeforeUse`: an operation consumes only wires that are stored when the executor comes to
  it.  The local operations of a round store their outputs one after the other, its network
  operations all at its end. -/

namespace MpcCore

open Operation

variable {S Op : Type}

/-- All operations of a round. -/
def Round.operations (round : Round Op) : List Op := round.localOperations ++ round.networkOperations

namespace MpcCircuit

variable (circuit : MpcCircuit S Op)

/-- All operations of the offline rounds. -/
def offlineOperations : List Op := circuit.offlineRounds.flatMap Round.operations

/-- All operations of the online rounds. -/
def onlineOperations : List Op := circuit.onlineRounds.flatMap Round.operations

/-- All operations, in the order of the rounds. -/
def operations : List Op := circuit.offlineOperations ++ circuit.onlineOperations

/-- `num_online_rounds`. -/
def numOnlineRounds : ℕ := circuit.onlineRounds.length

end MpcCircuit

variable [Operation Op]

/-- The wires the operations output, with repetition. -/
def producedWires (ops : List Op) : List WireId := ops.flatMap outputs

/-- The wires the operations consume, with repetition. -/
def consumedWires (ops : List Op) : List WireId := ops.flatMap inputs

theorem producedWires_append (ops ops' : List Op) :
    producedWires (ops ++ ops') = producedWires ops ++ producedWires ops' := by
  simp [producedWires]

theorem mem_producedWires {ops : List Op} {w : WireId} :
    w ∈ producedWires ops ↔ ∃ op ∈ ops, w ∈ outputs op := by
  simp [producedWires]

theorem producedWires_perm {ops ops' : List Op} (h : ops.Perm ops') :
    (producedWires ops).Perm (producedWires ops') :=
  h.flatMap_right _

/-- A round consumes only wires of `stored`, of its own earlier local operations, and, in its
network operations, of all its local operations. -/
structure Round.Stored (stored : List WireId) (round : Round Op) : Prop where
  localOps : ∀ done op rest, round.localOperations = done ++ op :: rest →
    ∀ w ∈ inputs op, w ∈ stored ++ producedWires done
  networkOps : ∀ op ∈ round.networkOperations, ∀ w ∈ inputs op,
    w ∈ stored ++ producedWires round.localOperations

/-- Every round consumes only wires stored before, given the wires stored at the start. -/
def StoredFrom (stored : List WireId) (rounds : List (Round Op)) : Prop :=
  ∀ done round rest, rounds = done ++ round :: rest →
    round.Stored (stored ++ producedWires (done.flatMap Round.operations))

theorem StoredFrom.cons_iff {stored : List WireId} {round : Round Op} {rounds : List (Round Op)} :
    StoredFrom stored (round :: rounds) ↔
      round.Stored stored ∧ StoredFrom (stored ++ producedWires round.operations) rounds := by
  constructor
  · intro h
    refine ⟨by simpa [producedWires] using h [] round rounds rfl, fun done r rest he => ?_⟩
    have := h (round :: done) r rest (by rw [he]; rfl)
    simpa [producedWires] using this
  · rintro ⟨h1, h2⟩ done r rest he
    cases done with
    | nil =>
        obtain ⟨rfl, rfl⟩ : round = r ∧ rounds = rest := by simpa using he
        simpa [producedWires] using h1
    | cons d done =>
        obtain ⟨rfl, he'⟩ : round = d ∧ rounds = done ++ r :: rest := by simpa using he
        have := h2 done r rest he'
        simpa [producedWires] using this

theorem StoredFrom.append_iff {rounds rounds' : List (Round Op)} : ∀ {stored : List WireId},
    StoredFrom stored (rounds ++ rounds') ↔
      StoredFrom stored rounds ∧ StoredFrom (stored ++ producedWires (rounds.flatMap Round.operations)) rounds' := by
  induction rounds with
  | nil => intro stored; simp [StoredFrom, producedWires]
  | cons round rounds ih =>
      intro stored
      rw [List.cons_append, cons_iff, ih, cons_iff, and_assoc, List.flatMap_cons, producedWires_append,
        List.append_assoc]

/-! ### Checking a plan -/

/-- Each operation consumes only wires of `stored` and of the operations before it. -/
def localsStored : List WireId → List Op → Bool
  | _, [] => true
  | stored, op :: ops => (inputs op).all (· ∈ stored) && localsStored (stored ++ outputs op) ops

theorem localsStored_iff : ∀ {stored : List WireId} {ops : List Op}, localsStored stored ops = true ↔
    ∀ done op rest, ops = done ++ op :: rest → ∀ w ∈ inputs op, w ∈ stored ++ producedWires done
  | stored, [] => by simp [localsStored]
  | stored, op :: ops => by
      simp only [localsStored, Bool.and_eq_true, List.all_eq_true, decide_eq_true_eq, localsStored_iff]
      constructor
      · rintro ⟨h1, h2⟩ done op' rest he w hw
        cases done with
        | nil =>
            obtain ⟨rfl, -⟩ : op = op' ∧ ops = rest := by simpa using he
            simpa [producedWires] using h1 w hw
        | cons d done =>
            obtain ⟨rfl, he'⟩ : op = d ∧ ops = done ++ op' :: rest := by simpa using he
            simpa [producedWires] using h2 done op' rest he' w hw
      · intro h
        refine ⟨fun w hw => by simpa [producedWires] using h [] op ops rfl w hw, fun done op' rest he w hw => ?_⟩
        simpa [producedWires] using h (op :: done) op' rest (by rw [he]; rfl) w hw

/-- The check of one round. -/
def Round.isStored (stored : List WireId) (round : Round Op) : Bool :=
  localsStored stored round.localOperations &&
    round.networkOperations.all fun op =>
      (inputs op).all (· ∈ stored ++ producedWires round.localOperations)

theorem Round.isStored_iff {stored : List WireId} {round : Round Op} :
    round.isStored stored = true ↔ round.Stored stored := by
  simp only [isStored, Bool.and_eq_true, localsStored_iff, List.all_eq_true, decide_eq_true_eq]
  exact ⟨fun h => ⟨h.1, h.2⟩, fun h => ⟨h.localOps, h.networkOps⟩⟩

/-- The check of all rounds. -/
def isStoredFrom : List WireId → List (Round Op) → Bool
  | _, [] => true
  | stored, round :: rounds =>
      round.isStored stored && isStoredFrom (stored ++ producedWires round.operations) rounds

theorem isStoredFrom_iff : ∀ {stored : List WireId} {rounds : List (Round Op)},
    isStoredFrom stored rounds = true ↔ StoredFrom stored rounds
  | _, [] => by simp [isStoredFrom, StoredFrom]
  | _, round :: rounds => by
      rw [isStoredFrom, Bool.and_eq_true, Round.isStored_iff, isStoredFrom_iff, StoredFrom.cons_iff]

instance (stored : List WireId) (rounds : List (Round Op)) : Decidable (StoredFrom stored rounds) :=
  decidable_of_iff _ isStoredFrom_iff

namespace MpcCircuit

variable (circuit : MpcCircuit S Op)

/-- No wire is an output twice. -/
def UniqueProducers : Prop := (producedWires circuit.operations).Nodup

/-- The plan never consumes a wire before the executor has stored it. -/
def StoresBeforeUse : Prop := StoredFrom [] (circuit.offlineRounds ++ circuit.onlineRounds)

instance : Decidable circuit.UniqueProducers := inferInstanceAs (Decidable (List.Nodup _))

instance : Decidable circuit.StoresBeforeUse := inferInstanceAs (Decidable (StoredFrom _ _))

/-- The plan never consumes a wire before the executor has stored it, and no network operation
consumes an output of a network operation of its own round. -/
structure ValidSchedule : Prop where
  stored : circuit.StoresBeforeUse
  apart : ∀ round ∈ circuit.offlineRounds ++ circuit.onlineRounds, ∀ op ∈ round.networkOperations,
    ∀ w ∈ inputs op, ∀ op' ∈ round.networkOperations, w ∉ outputs op'

variable {circuit}

/-- With unique producers the second part follows from the first. -/
theorem UniqueProducers.valid_iff_stored (hu : circuit.UniqueProducers) :
    circuit.ValidSchedule ↔ circuit.StoresBeforeUse := by
  refine ⟨ValidSchedule.stored, fun h => ⟨h, fun round hround op hop w hw op' hop' hw' => ?_⟩⟩
  obtain ⟨done, rest, he⟩ := List.append_of_mem hround
  have hmem := (h done round rest he).networkOps op hop w hw
  rw [List.nil_append, ← producedWires_append] at hmem
  have hops : circuit.operations =
      (done.flatMap Round.operations ++ round.localOperations) ++
        (round.networkOperations ++ rest.flatMap Round.operations) := by
    have : circuit.operations = (circuit.offlineRounds ++ circuit.onlineRounds).flatMap Round.operations := by
      simp [operations, offlineOperations, onlineOperations]
    rw [this, he]
    simp [Round.operations]
  have hu' := hu
  rw [UniqueProducers, hops, producedWires_append] at hu'
  exact (List.nodup_append.mp hu').2.2 w hmem w (mem_producedWires.mpr ⟨op', by simp [hop'], hw'⟩) rfl

end MpcCircuit

end MpcCore
