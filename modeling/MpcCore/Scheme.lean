import MpcCore.Lib.Outcome
import MpcCore.Lib.PMap
import Mathlib.Algebra.GroupWithZero.Nat
import Mathlib.Data.PNat.Defs

/-! # Wires, requests, networks and schemes

The traits of the crate and the types their signatures mention.

* A trait is a class over the type that implements it; its associated types are output
  parameters.  The result of a method that takes `&mut self` or `&mut Context` is an `Act`: the
  state is kept on an error.
* An error type that is only ever printed is its text, a `String`.
* `Network` lists the trait's generic bulk methods at the two element types the crate uses them
  with: the digests of the handshake (`Vec<u8>`) and the elements of the scheme.
* `thread_rng` is read by schemes only.  `Draws` is the sequence of values it will return, and it
  is handed to a scheme when the scheme makes its context. -/

namespace MpcCore

/-- An identifier of a wire. -/
structure WireId where
  id : ℕ
deriving DecidableEq, Repr

/-! ### Requests -/

/-- A directive to receive objects: the sender, and the count unless it is zero. -/
structure ReceiveRequest where
  fromId : ℕ
  count : Option ℕ+
deriving DecidableEq, Repr

/-- `NonZero::new(count)` maps zero to `None`. -/
def ReceiveRequest.new (fromId count : ℕ) : ReceiveRequest :=
  ⟨fromId, if h : 0 < count then some ⟨count, h⟩ else none⟩

/-- A directive to transmit one object. -/
structure SendRequest (Elem : Type) where
  toId : ℕ
  data : Elem
deriving DecidableEq, Repr

/-! ### Traits -/

/-- The `Operation` trait. -/
class Operation (Op : Type) where
  getInputPartyId : Op → Option ℕ
  inputs : Op → List WireId
  outputs : Op → List WireId

/-- Does the operation collect an input? -/
def isInput {Op : Type} [Operation Op] (op : Op) : Bool := (Operation.getInputPartyId op).isSome

/-- The invariant the `Operation` trait asks of its implementations. -/
def OneOutputPerInput (Op : Type) [Operation Op] : Prop :=
  ∀ op : Op, isInput op = true → (Operation.outputs op).length = 1

/-- A synchronisation step: operations that need no network, and operations that do. -/
structure Round (Op : Type) where
  localOperations : List Op
  networkOperations : List Op
deriving DecidableEq, Repr

/-- An execution plan: the scheme and the rounds of both phases. -/
structure MpcCircuit (S Op : Type) where
  scheme : S
  offlineRounds : List (Round Op)
  onlineRounds : List (Round Op)
deriving DecidableEq, Repr

/-- The `Network` trait, as the execution uses it. -/
class Network (N Elem : Type) where
  nPlayers : N → ℕ
  myId : N → ℕ
  broadcastObject : List UInt8 → Act N String ℕ
  recvHashesMany : List ReceiveRequest → Act N String (List (List (List UInt8)) × ℕ)
  sendObjectsMany : List (SendRequest Elem) → Act N String ℕ
  recvObjectsMany : List ReceiveRequest → Act N String (List (List Elem) × ℕ)

/-- What `do_network_phase` returns. -/
structure NetworkPhaseOutput (Pending Elem : Type) where
  pending : Pending
  sendRequest : List (SendRequest Elem)
  receiveRequest : List ReceiveRequest
deriving DecidableEq, Repr

/-- The values the thread's random generator has still to return. -/
abbrev Draws := ℕ → ℕ

/-- The methods of `MpcScheme` that the construction of a circuit calls.  `isCircuitSound` is
`none` where the call does not return. -/
class CircuitScheme (S : Type) (Op : outParam Type) where
  isCircuitSound : S → List Op → Option Bool
  isOperationLocal : S → Op → Bool

/-- The `MpcScheme` trait. -/
class MpcScheme (S : Type) (Op Wire Elem Input Ctx Pending : outParam Type) extends
    CircuitScheme S Op where
  establishContext {N : Type} [Network N Elem] : S → MpcCircuit S Op → Draws → Act N String Ctx
  prepareUserInput : S → List (WireId × Input) → Ctx → Ctx
  doNetworkPhase : S → Op → List Wire → Act Ctx String (NetworkPhaseOutput Pending Elem)
  doFinalizePhase : S → Pending → List Elem → Act Ctx String (List Wire)

end MpcCore
