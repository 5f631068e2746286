import MpcCore.Plan
import Mathlib.Data.List.Dedup

/-! # The execution of a plan at one party

`ExecutionContext` with its four calls: the handshake, the offline rounds, the preparation of the
inputs and the online rounds.

* A call returns a value, returns an error, panics or never ends.  `Fault.uninit` is the reading of
  `scheme_context` before it is initialised; it is not a value the code can return.
* `MaybeUninit<S::Context>` is an `Option`, `none` as long as nothing was written to it.
* `calls` is a ghost field: the calls of the scheme and the network, with their results, in the
  order they were made.  The code has nothing like it, and nothing in the model reads it.
* The handshake hashes the serialised circuit; `digest` stands for both steps.
* A reference to a wire content is the content, and the lengths that calls return are numbers
  without a bound. -/

namespace MpcCore

open Operation MpcScheme

/-- `ExecutionState`. -/
inductive ExecutionState where
  | newBorn
  | handshaked
  | finishedOffline
  | readyOnline
  | finished
deriving DecidableEq, Repr

/-- `ExecutionContextError`. -/
inductive ExecutionContextError where
  | invalidConfiguration (msg : String)
  | stateError (op : String) (state : ExecutionState)
  | networkError (source : String)
  | planNotAgreed
  | duplicateInput (wire : WireId)
  | invalidInputWire (wire : WireId)
  | notEnoughInputs
  | schemeError (phase msg : String)
deriving DecidableEq, Repr

/-- What a call ends with when it returns no value: an error, or a read of an uninitialised
context. -/
inductive Fault where
  | error (e : ExecutionContextError)
  | uninit
deriving DecidableEq, Repr

/-- The error every failure of the scheme, of the network or of the serialisation becomes. -/
def schemeFault (msg : String) : Fault := .error (.schemeError "scheme phase" msg)

/-- A call of the scheme or of the network, and how it ended. -/
inductive Call (Op Wire Elem Pending : Type) where
  | networkPhase (op : Op) (inputs : List Wire) (result : Outcome String (NetworkPhaseOutput Pending Elem))
  | finalizePhase (op : Op) (pending : Pending) (data : List Elem) (result : Outcome String (List Wire))
  | send (requests : List (SendRequest Elem)) (result : Outcome String ℕ)
  | recv (requests : List ReceiveRequest) (result : Outcome String (List (List Elem) × ℕ))

/-- What the rounds work on: the context of the scheme, the stored wires and the network. -/
structure Exec (Op Wire Elem Ctx Pending N : Type) where
  context : Ctx
  wireContents : PMap WireId Wire
  network : N
  calls : List (Call Op Wire Elem Pending)

/-- `ExecutionContext`. -/
structure ExecutionContext (S Op Wire Elem Ctx Pending N : Type) where
  circuit : MpcCircuit S Op
  executionState : ExecutionState
  network : N
  wireContents : PMap WireId Wire
  schemeContext : Option Ctx
  calls : List (Call Op Wire Elem Pending)

variable {S Op Wire Elem Input Ctx Pending N : Type} [Operation Op]
  [MpcScheme S Op Wire Elem Input Ctx Pending] [Network N Elem]

/-! ### Operations -/

/-- `op.inputs().map(|id| wire_contents.get(&id).expect(..)).collect()` -/
def gatherInputs {ε : Type} (wireContents : PMap WireId Wire) : List WireId → Outcome ε (List Wire)
  | [] => .ok []
  | w :: ws =>
      (Outcome.unwrap (wireContents.get w)).bind fun v =>
        (gatherInputs wireContents ws).bind fun vs => .ok (v :: vs)

/-- `scheme.do_network_phase(context, op, inputs)?` on the contents of the input wires. -/
def networkPhase (scheme : S) (op : Op) :
    Act (Exec Op Wire Elem Ctx Pending N) Fault (NetworkPhaseOutput Pending Elem) := fun s =>
  match gatherInputs (ε := Fault) s.wireContents (inputs op) with
  | .ok ins =>
      let (r, context) := doNetworkPhase scheme op ins s.context
      (r.mapErr schemeFault, { s with context, calls := s.calls ++ [.networkPhase op ins r] })
  | _ => (.panic, s)

omit [Network N Elem] in
/-- The network phase of an operation calls the scheme, or panics for a missing wire. -/
theorem networkPhase_cases (scheme : S) (op : Op) (s : Exec Op Wire Elem Ctx Pending N) :
    (∃ ins r context, doNetworkPhase scheme op ins s.context = (r, context) ∧
      networkPhase scheme op s =
        (r.mapErr schemeFault, { s with context, calls := s.calls ++ [.networkPhase op ins r] })) ∨
    networkPhase scheme op s = (.panic, s) := by
  unfold networkPhase
  split
  · exact .inl ⟨_, _, _, rfl, rfl⟩
  · exact .inr rfl

/-- `scheme.do_finalize_phase(context, pending, data)?` -/
def finalizePhase (scheme : S) (op : Op) (pending : Pending) (data : List Elem) :
    Act (Exec Op Wire Elem Ctx Pending N) Fault (List Wire) := fun s =>
  let (r, context) := doFinalizePhase scheme pending data s.context
  (r.mapErr schemeFault, { s with context, calls := s.calls ++ [.finalizePhase op pending data r] })

/-- `let prev = wire_contents.insert(..); assert!(prev.is_none());` -/
def storeWire (w : WireId) (v : Wire) : Act (Exec Op Wire Elem Ctx Pending N) Fault Unit := fun s =>
  (.assert (s.wireContents.get w).isNone, { s with wireContents := s.wireContents.insert w v })

/-- The loop over `zip_eq(op.outputs(), output)`. -/
def storeWires : List WireId → List Wire → Act (Exec Op Wire Elem Ctx Pending N) Fault Unit
  | [], [] => .ret (.ok ())
  | w :: ws, v :: vs => (storeWire w v).bind fun _ => storeWires ws vs
  | _, _ => .ret .panic

/-! ### Local operations -/

/-- The body of the loop of `do_local_operations`. -/
def doLocalOperation (scheme : S) (op : Op) : Act (Exec Op Wire Elem Ctx Pending N) Fault Unit :=
  (networkPhase scheme op).bind fun out =>
    (Act.ret (.assert out.sendRequest.isEmpty)).bind fun _ =>
      (Act.ret (.assert out.receiveRequest.isEmpty)).bind fun _ =>
        (finalizePhase scheme op out.pending []).bind fun output => storeWires (outputs op) output

/-- `do_local_operations`. -/
def doLocalOperations (scheme : S) (round : Round Op) :
    Act (Exec Op Wire Elem Ctx Pending N) Fault Unit :=
  .each (doLocalOperation scheme) round.localOperations

/-! ### Network operations -/

/-- The vectors that the first loop of `do_network_operations` fills, and the ghost field
`sendRequestCounts`: how many send requests each operation made. -/
structure Batch (Elem Pending : Type) where
  pendingOps : List Pending
  receiveRequestCounts : List ℕ
  sendRequests : List (SendRequest Elem)
  receiveRequests : List ReceiveRequest
  sendRequestCounts : List ℕ

/-- The vectors before the loop. -/
def Batch.empty {Elem Pending : Type} : Batch Elem Pending := ⟨[], [], [], [], []⟩

/-- Add what the network phase of one operation returned.  `append` empties its argument, so the
assertions that follow it hold. -/
def Batch.add {Elem Pending : Type} (batch : Batch Elem Pending) (out : NetworkPhaseOutput Pending Elem) :
    Batch Elem Pending :=
  ⟨batch.pendingOps ++ [out.pending],
    batch.receiveRequestCounts ++ [out.receiveRequest.length],
    batch.sendRequests ++ out.sendRequest,
    batch.receiveRequests ++ out.receiveRequest,
    batch.sendRequestCounts ++ [out.sendRequest.length]⟩

/-- The first loop of `do_network_operations`. -/
def networkPhases (scheme : S) : List Op → Batch Elem Pending →
    Act (Exec Op Wire Elem Ctx Pending N) Fault (Batch Elem Pending)
  | [], batch => .ret (.ok batch)
  | op :: ops, batch => (networkPhase scheme op).bind fun out => networkPhases scheme ops (batch.add out)

/-- `network.send_objects_many(&all_send_requests)?` -/
def sendRequests (requests : List (SendRequest Elem)) :
    Act (Exec Op Wire Elem Ctx Pending N) Fault ℕ := fun s =>
  let (r, network) := Network.sendObjectsMany requests s.network
  (r.mapErr schemeFault, { s with network, calls := s.calls ++ [.send requests r] })

/-- `network.recv_objects_many(&all_receive_requests)?` -/
def recvRequests (requests : List ReceiveRequest) :
    Act (Exec Op Wire Elem Ctx Pending N) Fault (List (List Elem) × ℕ) := fun s =>
  let (r, network) := Network.recvObjectsMany requests s.network
  (r.mapErr schemeFault, { s with network, calls := s.calls ++ [.recv requests r] })

/-- The second loop, over the operations with what the first loop kept for them; `data` is what
`data_iter` has still to yield. -/
def finalizePhases (scheme : S) : List (Op × Pending × ℕ) → List (List Elem) → List (Op × List Wire) →
    Act (Exec Op Wire Elem Ctx Pending N) Fault (List (Op × List Wire))
  | [], _, results => .ret (.ok results)
  | (op, pending, reqCount) :: ops, data, results =>
      (finalizePhase scheme op pending (data.take reqCount).flatten).bind fun output =>
        finalizePhases scheme ops (data.drop reqCount) (results ++ [(op, output)])

/-- What follows the exchange: all finalize phases, then all insertions. -/
def finishNetworkOperations (scheme : S) (ops : List Op) (batch : Batch Elem Pending)
    (flatNetworkData : List (List Elem)) : Act (Exec Op Wire Elem Ctx Pending N) Fault Unit :=
  (finalizePhases scheme (ops.zip (batch.pendingOps.zip batch.receiveRequestCounts)) flatNetworkData []).bind
    fun results => .each (fun r => storeWires (outputs r.1) r.2) results

/-- `do_network_operations`. -/
def doNetworkOperations (scheme : S) (round : Round Op) :
    Act (Exec Op Wire Elem Ctx Pending N) Fault (ℕ × ℕ) :=
  (networkPhases scheme round.networkOperations .empty).bind fun batch =>
    (sendRequests batch.sendRequests).bind fun sendLen =>
      (recvRequests batch.receiveRequests).bind fun (flatNetworkData, recvLen) =>
        (finishNetworkOperations scheme round.networkOperations batch flatNetworkData).bind fun _ =>
          .ret (.ok (sendLen, recvLen))

namespace ExecutionContext

/-! ### The phases -/

/-- `ExecutionContext::new`. -/
def new (circuit : MpcCircuit S Op) (network : N) : ExecutionContext S Op Wire Elem Ctx Pending N :=
  ⟨circuit, .newBorn, network, .empty, none, []⟩

/-- `assert_state!`. -/
def assertState (fnName : String) (state : ExecutionState) :
    Act (ExecutionContext S Op Wire Elem Ctx Pending N) Fault Unit := fun ec =>
  (if ec.executionState = state then .ok () else .err (.error (.stateError fnName ec.executionState)), ec)

/-- `self.execution_state = state`. -/
def setState (state : ExecutionState) : Act (ExecutionContext S Op Wire Elem Ctx Pending N) Fault Unit :=
  .modify fun ec => { ec with executionState := state }

/-- A call that is given `self.scheme_context.assume_init_mut()`, the wires and the network. -/
def withContext {α : Type} (x : Act (Exec Op Wire Elem Ctx Pending N) Fault α) :
    Act (ExecutionContext S Op Wire Elem Ctx Pending N) Fault α := fun ec =>
  match ec.schemeContext with
  | none => (.err .uninit, ec)
  | some context =>
      let (r, s) := x ⟨context, ec.wireContents, ec.network, ec.calls⟩
      (r, { ec with
              schemeContext := some s.context
              wireContents := s.wireContents
              network := s.network
              calls := s.calls })

/-- The loop over the rounds, with the lengths so far. -/
def doRounds (scheme : S) : List (Round Op) → ℕ → ℕ →
    Act (ExecutionContext S Op Wire Elem Ctx Pending N) Fault (ℕ × ℕ)
  | [], totalSendLen, totalRecvLen => .ret (.ok (totalSendLen, totalRecvLen))
  | round :: rounds, totalSendLen, totalRecvLen =>
      (withContext (doLocalOperations scheme round)).bind fun _ =>
        (withContext (doNetworkOperations scheme round)).bind fun (sendLen, recvLen) =>
          doRounds scheme rounds (totalSendLen + sendLen) (totalRecvLen + recvLen)

/-- The body that `do_offline` and `do_online` share. -/
def doPhase (fnName : String) (required : ExecutionState) (rounds : MpcCircuit S Op → List (Round Op))
    (reached : ExecutionState) : Act (ExecutionContext S Op Wire Elem Ctx Pending N) Fault (ℕ × ℕ) :=
  (assertState fnName required).bind fun _ =>
    (Act.read circuit).bind fun circuit =>
      (doRounds circuit.scheme (rounds circuit) 0 0).bind fun lens =>
        (setState reached).bind fun _ => .ret (.ok lens)

/-- `do_offline`. -/
def doOffline : Act (ExecutionContext S Op Wire Elem Ctx Pending N) Fault (ℕ × ℕ) :=
  doPhase "do_offline" .handshaked MpcCircuit.offlineRounds .finishedOffline

/-- `do_online`. -/
def doOnline : Act (ExecutionContext S Op Wire Elem Ctx Pending N) Fault (ℕ × ℕ) :=
  doPhase "do_online" .readyOnline MpcCircuit.onlineRounds .finished

/-- `get_wire`. -/
def getWire (ec : ExecutionContext S Op Wire Elem Ctx Pending N) (id : WireId) : Option Wire := ec.wireContents.get id

end ExecutionContext

/-! ### Inputs -/

/-- The first output of each operation, or the panic of `expect`. -/
def firstOutputs {ε : Type} : List Op → Outcome ε (List WireId)
  | [] => .ok []
  | op :: ops =>
      (Outcome.unwrap (outputs op).head?).bind fun w => (firstOutputs ops).bind fun ws => .ok (w :: ws)

/-- `get_input_operation_wire_ids_of_party`. -/
def MpcCircuit.getInputOperationWireIdsOfParty {ε : Type} (circuit : MpcCircuit S Op) (partyId : ℕ) :
    Outcome ε (List WireId) :=
  firstOutputs <| (circuit.onlineRounds.flatMap Round.networkOperations).filter fun op =>
    getInputPartyId op = some partyId

theorem firstOutputs_eq {ε : Type} : ∀ ops : List Op, (∀ op ∈ ops, (outputs op).length = 1) →
    (firstOutputs ops : Outcome ε _) = .ok (ops.flatMap outputs)
  | [], _ => rfl
  | op :: ops, hone => by
      obtain ⟨w, hw⟩ := List.length_eq_one_iff.mp (hone op List.mem_cons_self)
      have ih : (firstOutputs ops : Outcome ε _) = .ok (ops.flatMap outputs) :=
        firstOutputs_eq ops fun o ho => hone o (List.mem_cons_of_mem op ho)
      rw [firstOutputs, hw, List.head?_cons, Outcome.unwrap_some, Outcome.ok_bind, ih, List.flatMap_cons, hw]
      rfl

/-- Where each input has one output, the wires of the inputs of a party are found. -/
theorem OneOutputPerInput.getInputOperationWireIdsOfParty_eq {ε : Type} (h : OneOutputPerInput Op)
    (circuit : MpcCircuit S Op) (partyId : ℕ) :
    (circuit.getInputOperationWireIdsOfParty partyId : Outcome ε _) =
      .ok (((circuit.onlineRounds.flatMap Round.networkOperations).filter fun op =>
        getInputPartyId op = some partyId).flatMap outputs) := by
  refine firstOutputs_eq _ fun op hop => h op ?_
  have howner := of_decide_eq_true (List.mem_filter.mp hop).2
  rw [isInput, howner, Option.isSome_some]

/-- The loop of `prepare_input`: `inputWires` says of an input wire whether it has its input. -/
def takeInputs : List (WireId × Input) → PMap WireId Bool → List (WireId × Input) →
    Outcome Fault (List (WireId × Input))
  | [], _, inputs => .ok inputs
  | (wireId, input) :: userInputs, inputWires, inputs =>
      match inputWires.get wireId with
      | some false => takeInputs userInputs (inputWires.insert wireId true) (inputs ++ [(wireId, input)])
      | some true => .err (.error (.duplicateInput wireId))
      | none => .err (.error (.invalidInputWire wireId))

namespace ExecutionContext

/-- `scheme.prepare_user_input(self.scheme_context.assume_init_mut(), inputs)`. -/
def prepareUserInput (inputs : List (WireId × Input)) :
    Act (ExecutionContext S Op Wire Elem Ctx Pending N) Fault Unit := fun ec =>
  match ec.schemeContext with
  | none => (.err .uninit, ec)
  | some context =>
      (.ok (), { ec with schemeContext := some (MpcScheme.prepareUserInput ec.circuit.scheme inputs context) })

/-- `prepare_input`. -/
def prepareInput (userInputs : List (WireId × Input)) :
    Act (ExecutionContext S Op Wire Elem Ctx Pending N) Fault Unit :=
  (assertState "prepare_input" .finishedOffline).bind fun _ =>
    (Act.read fun ec => ec.circuit.getInputOperationWireIdsOfParty (@Network.myId N Elem _ ec.network)).bind
      fun wireIds => (Act.ret wireIds).bind fun wireIds =>
        let inputWires := wireIds.foldl (fun m w => m.insert w false) .empty
        (Act.ret (takeInputs userInputs inputWires [])).bind fun inputs =>
          if inputs.length < wireIds.dedup.length then .ret (.err (.error .notEnoughInputs))
          else (prepareUserInput inputs).bind fun _ => setState .readyOnline

/-! ### The handshake -/

/-- A call of the network. -/
def onNetwork {α : Type} (x : Act N String α) :
    Act (ExecutionContext S Op Wire Elem Ctx Pending N) Fault α := fun ec =>
  let (r, network) := x ec.network
  (r.mapErr schemeFault, { ec with network })

/-- `hashes.into_iter().any(|x| x.into_iter().next().unwrap() != hash)` -/
def disagree (hash : List UInt8) : List (List (List UInt8)) → Outcome Fault Bool
  | [] => .ok false
  | x :: hashes => (Outcome.unwrap x.head?).bind fun h => if h ≠ hash then .ok true else disagree hash hashes

/-- The exchange of the digests: the lengths, or the error when a party has another plan. -/
def agreeOnPlan (digest : MpcCircuit S Op → Outcome String (List UInt8)) :
    Act (ExecutionContext S Op Wire Elem Ctx Pending N) Fault (ℕ × ℕ) :=
  (Act.read fun ec => digest ec.circuit).bind fun hash =>
    (Act.ret (hash.mapErr schemeFault)).bind fun hash =>
      (onNetwork (@Network.broadcastObject N Elem _ hash)).bind fun sendLen =>
        (Act.read fun ec =>
            (((List.range (@Network.nPlayers N Elem _ ec.network)).filter fun i =>
              i ≠ @Network.myId N Elem _ ec.network).map fun i => ReceiveRequest.new i 1)).bind fun request =>
          (onNetwork (@Network.recvHashesMany N Elem _ request)).bind fun (hashes, recvLen) =>
            (Act.ret (disagree hash hashes)).bind fun disagrees =>
              .ret (if disagrees then .err (.error .planNotAgreed) else .ok (sendLen, recvLen))

/-- `handshake`, with the draws that the context of the scheme is given. -/
def handshake (digest : MpcCircuit S Op → Outcome String (List UInt8)) (rng : Draws) :
    Act (ExecutionContext S Op Wire Elem Ctx Pending N) Fault (ℕ × ℕ) :=
  (assertState "handshake" .newBorn).bind fun _ =>
    (agreeOnPlan digest).bind fun lens =>
      (Act.read circuit).bind fun circuit =>
        (onNetwork (establishContext circuit.scheme circuit rng)).bind fun context =>
          (Act.modify fun ec => { ec with schemeContext := some context }).bind fun _ =>
            (setState .handshaked).bind fun _ => .ret (.ok lens)

/-! ### The end of life -/

/-- `drop`: drops the context in every state but the first. -/
def drop (ec : ExecutionContext S Op Wire Elem Ctx Pending N) : Outcome Fault Unit :=
  if ec.executionState = .newBorn then .ok ()
  else if ec.schemeContext.isSome then .ok ()
  else .err .uninit

end ExecutionContext

/-! ### Which errors a round returns -/

section avoids

variable {I : Exec Op Wire Elem Ctx Pending N → Prop} {e : Fault} {scheme : S}

omit [Operation Op] [MpcScheme S Op Wire Elem Input Ctx Pending] [Network N Elem] in
/-- An insertion that goes wrong is a panic. -/
theorem storeWires_avoids (hI : ∀ s m, I s → I { s with wireContents := m }) :
    ∀ (ws : List WireId) (vs : List Wire), Act.Avoids I e (storeWires ws vs)
  | [], [] => Act.Avoids.ret (by simp)
  | w :: ws, v :: vs =>
      Act.Avoids.bind (fun _ hs => ⟨Outcome.assert_ne_err _ _, hI _ _ hs⟩) fun _ => storeWires_avoids hI ws vs
  | [], _ :: _ => Act.Avoids.ret (by simp)
  | _ :: _, [] => Act.Avoids.ret (by simp)

/-! A loop returns no error that the phases in it do not return. -/

omit [Network N Elem] in
theorem doLocalOperations_avoids (hI : ∀ s m, I s → I { s with wireContents := m })
    (hnetwork : ∀ op, Act.Avoids I e (networkPhase scheme op))
    (hfinalize : ∀ op pending data, Act.Avoids I e (finalizePhase scheme op pending data)) (round : Round Op) :
    Act.Avoids I e (doLocalOperations scheme round) := by
  refine Act.Avoids.each (fun op => ?_) _
  refine (hnetwork op).bind fun out => ?_
  refine (Act.Avoids.ret (Outcome.assert_ne_err _ _)).bind fun _ => ?_
  refine (Act.Avoids.ret (Outcome.assert_ne_err _ _)).bind fun _ => ?_
  exact (hfinalize op _ _).bind fun output => storeWires_avoids hI _ _

omit [Network N Elem] in
theorem networkPhases_avoids (hnetwork : ∀ op, Act.Avoids I e (networkPhase scheme op)) :
    ∀ (ops : List Op) (batch : Batch Elem Pending), Act.Avoids I e (networkPhases scheme ops batch)
  | [], _ => Act.Avoids.ret (by simp)
  | op :: ops, _ => (hnetwork op).bind fun _ => networkPhases_avoids hnetwork ops _

omit [Operation Op] [Network N Elem] in
theorem finalizePhases_avoids
    (hfinalize : ∀ op pending data, Act.Avoids I e (finalizePhase scheme op pending data)) :
    ∀ (ops : List (Op × Pending × ℕ)) (data : List (List Elem)) (results : List (Op × List Wire)),
      Act.Avoids I e (finalizePhases scheme ops data results)
  | [], _, _ => Act.Avoids.ret (by simp)
  | (op, pending, _) :: ops, _, _ =>
      (hfinalize op pending _).bind fun _ => finalizePhases_avoids hfinalize ops _ _

omit [Network N Elem] in
theorem finishNetworkOperations_avoids (hI : ∀ s m, I s → I { s with wireContents := m })
    (hfinalize : ∀ op pending data, Act.Avoids I e (finalizePhase scheme op pending data))
    (ops : List Op) (batch : Batch Elem Pending) (data : List (List Elem)) :
    Act.Avoids I e (finishNetworkOperations scheme ops batch data) :=
  (finalizePhases_avoids hfinalize _ _ _).bind fun _ => Act.Avoids.each (fun _ => storeWires_avoids hI _ _) _

end avoids

end MpcCore
