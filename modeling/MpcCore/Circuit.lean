import MpcCore.Scheme

/-! # Construction of a circuit

`MpcCircuit.new` as the source computes it: the checks in their order, the adjacency lists and
in-degrees, and the two runs of `processWave` over the queues.

* A `Vec` or `VecDeque` is a list; indices are natural numbers.
* The mutable variables that the closure `process_wave` captures, and those of its loops, are
  the record `Waves`.  `target` says whether an online wave was passed (the offline run).
* A loop takes the number of rounds it may still make as its first argument and ends with
  `Outcome.hang` when it runs out; the numbers passed by `schedule` are never used up
  (`schedule_spec`).
* An index out of range, `unwrap` of `None`, a subtraction below zero and a failed
  `debug_assert!` are `Outcome.panic`. -/

namespace MpcCore

open Operation CircuitScheme

/-- Errors of the construction. -/
inductive MpcCircuitError where
  | circuitUnsound
  | wireProducedManyTimes (wire : WireId)
  | wireConsumedButNotProduced (wire : WireId)
  | circuitCyclic
  | emptyCircuit
  | localInputOperation
deriving DecidableEq, Repr

variable {S Op : Type} [Operation Op]

/-! ### Producers and consumers -/

/-- `for out_wire in op.outputs() { wire_producer.insert(out_wire, idx) ... }` -/
def insertOutputs (idx : ℕ) : List WireId → PMap WireId ℕ → Outcome MpcCircuitError (PMap WireId ℕ)
  | [], producer => .ok producer
  | w :: ws, producer =>
      let prev := producer.get w
      let producer := producer.insert w idx
      if prev.isSome then .err (.wireProducedManyTimes w) else insertOutputs idx ws producer

/-- The first loop: which operation produces each wire. -/
def wireProducer : ℕ → List Op → PMap WireId ℕ → Outcome MpcCircuitError (PMap WireId ℕ)
  | _, [], producer => .ok producer
  | idx, op :: ops, producer =>
      (insertOutputs idx (outputs op) producer).bind fun producer => wireProducer (idx + 1) ops producer

/-- The consumers of each operation, and the number of inputs each has still to wait for. -/
structure Graph where
  adj : List (List ℕ)
  inDegree : List ℕ
deriving DecidableEq, Repr

/-- `vec![vec![]; num_ops]` and `vec![0; num_ops]`. -/
def Graph.edgeless (numOps : ℕ) : Graph := ⟨List.replicate numOps [], List.replicate numOps 0⟩

/-- `adj[producer_idx].push(consumer_idx); in_degree[consumer_idx] += 1;` -/
def Graph.addEdge (g : Graph) (producerIdx consumerIdx : ℕ) : Graph :=
  ⟨g.adj.modify producerIdx (· ++ [consumerIdx]), g.inDegree.modify consumerIdx (· + 1)⟩

/-- `for input_wire in op.inputs() { ... }` -/
def linkInputs (producer : PMap WireId ℕ) (consumerIdx : ℕ) :
    List WireId → Graph → Outcome MpcCircuitError Graph
  | [], g => .ok g
  | w :: ws, g =>
      match producer.get w with
      | some producerIdx => linkInputs producer consumerIdx ws (g.addEdge producerIdx consumerIdx)
      | none => .err (.wireConsumedButNotProduced w)

/-- The second loop: the edges from producers to consumers. -/
def linkConsumers (producer : PMap WireId ℕ) : ℕ → List Op → Graph → Outcome MpcCircuitError Graph
  | _, [], g => .ok g
  | consumerIdx, op :: ops, g =>
      (linkInputs producer consumerIdx (inputs op) g).bind fun g =>
        linkConsumers producer (consumerIdx + 1) ops g

/-! ### Waves -/

/-- The variables of `process_wave`: those it captures, its queues, and the round it collects. -/
structure Waves (Op : Type) where
  ops : List (Option Op)
  inDegree : List ℕ
  wave : List ℕ
  nextWave : List ℕ
  onlineWave : List ℕ
  localOperations : List Op
  networkOperations : List Op
deriving DecidableEq, Repr

/-- `for &consumer_idx in &adj[op_idx] { ... }` -/
def releaseConsumers (opLocal : Bool) : List ℕ → Waves Op → Outcome MpcCircuitError (Waves Op)
  | [], st => .ok st
  | c :: cs, st =>
      match st.inDegree[c]? with
      | some (d + 1) =>
          let st := { st with inDegree := st.inDegree.set c d }
          releaseConsumers opLocal cs <|
            if d = 0 then
              if opLocal then { st with wave := st.wave ++ [c] }
              else { st with nextWave := st.nextWave ++ [c] }
            else st
      | _ => .panic

variable [CircuitScheme S Op] (scheme : S) (adj : List (List ℕ)) (target : Bool)

/-- The body of the inner loop, for the popped `opIdx`. -/
def dispatch (opIdx : ℕ) (st : Waves Op) : Outcome MpcCircuitError (Waves Op) :=
  match st.ops[opIdx]? with
  | some (some op) =>
      if target && isInput op then .ok { st with onlineWave := st.onlineWave ++ [opIdx] }
      else
        let st := { st with ops := st.ops.set opIdx none }
        let opLocal := isOperationLocal scheme op
        let st :=
          if opLocal then { st with localOperations := st.localOperations ++ [op] }
          else { st with networkOperations := st.networkOperations ++ [op] }
        match adj[opIdx]? with
        | some consumers => releaseConsumers opLocal consumers st
        | none => .panic
  | _ => .panic

/-- `while let Some(op_idx) = wave.pop_front() { ... }` -/
def drainWave : ℕ → Waves Op → Outcome MpcCircuitError (Waves Op)
  | 0, _ => .hang
  | fuel + 1, st =>
      match st.wave with
      | [] => .ok st
      | opIdx :: wave => (dispatch scheme adj target opIdx { st with wave }).bind (drainWave fuel)

/-- `while !wave.is_empty() { ... }`: drain the wave, push the round, swap in the next wave. -/
def processWave : ℕ → List (Round Op) → Waves Op →
    Outcome MpcCircuitError (List (Round Op) × Waves Op)
  | 0, _, _ => .hang
  | fuel + 1, rounds, st =>
      match st.wave with
      | [] => .ok (rounds, st)
      | _ :: _ =>
          (drainWave scheme adj target (st.ops.length + 1)
              { st with nextWave := [], localOperations := [], networkOperations := [] }).bind
            fun st =>
              processWave fuel (rounds ++ [⟨st.localOperations, st.networkOperations⟩])
                { st with wave := st.nextWave, nextWave := st.wave }

/-! ### The constructor -/

/-- The indices of the operations that wait for nothing, in order. -/
def offlineWave (inDegree : List ℕ) : List ℕ :=
  (List.range inDegree.length).filter fun idx => inDegree[idx]? == some 0

/-- The variables before the offline run. -/
def Waves.initial (operations : List Op) (inDegree : List ℕ) : Waves Op :=
  ⟨operations.map some, inDegree, offlineWave inDegree, [], [], [], []⟩

/-- The offline run, the online run, the test for leftovers and the `debug_assert!`. -/
def schedule (operations : List Op) (g : Graph) : Outcome MpcCircuitError (MpcCircuit S Op) :=
  (processWave scheme g.adj true (operations.length + 1) []
      (Waves.initial operations g.inDegree)).bind fun (offlineRounds, st) =>
    (processWave scheme g.adj false (operations.length + 1) []
        { st with wave := st.onlineWave, onlineWave := [] }).bind fun (onlineRounds, st) =>
      if st.ops.any Option.isSome then .err .circuitCyclic
      else if offlineRounds.all fun round =>
          round.networkOperations.all (fun op => !isInput op) &&
            round.localOperations.all (fun op => !isInput op)
        then .ok ⟨scheme, offlineRounds, onlineRounds⟩
        else .panic

/-- `MpcCircuit::new`. -/
def MpcCircuit.new (operations : List Op) : Outcome MpcCircuitError (MpcCircuit S Op) :=
  if operations.length = 0 then .err .emptyCircuit
  else
    match isCircuitSound scheme operations with
    | none => .hang
    | some false => .err .circuitUnsound
    | some true =>
        if operations.any fun op => isInput op && isOperationLocal scheme op then
          .err .localInputOperation
        else
          (wireProducer 0 operations .empty).bind fun producer =>
            (linkConsumers producer 0 operations (Graph.edgeless operations.length)).bind
              (schedule scheme operations)

end MpcCore
