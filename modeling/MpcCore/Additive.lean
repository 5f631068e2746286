import MpcCore.Scheme

/-! # The additive scheme

Additive secret sharing modulo `M`, as the example scheme computes it.

* A `u64` is a natural number.  An addition or subtraction that leaves the range of `u64` is a
  panic, as in a build with overflow checks; a build without them wraps, and agrees wherever no
  panic occurs.  `M` is a `u64` constant; the scheme accepts no circuit for `M = 0`.
* `thread_rng` is the field `rng` of the context: `gen_range(0..M)` returns its first value.
* The fixpoint loop of `is_circuit_sound` runs on the passes it may still make.  Its map has at
  most three values at each of at most `ops.length` output wires, so a loop that still changes
  something after `3 ^ ops.length + 1` passes has come back to a map it had before, and never
  ends. -/

namespace MpcCore

/-- `AdditiveOperation`. -/
inductive AdditiveOperation where
  | input (partyId : ℕ) (output : WireId)
  | genRandom (output : WireId)
  | add (left right output : WireId)
  | reveal (input output : WireId)
deriving DecidableEq, Repr

namespace AdditiveOperation

/-- The output wire. -/
def output : AdditiveOperation → WireId
  | input _ out => out
  | genRandom out => out
  | add _ _ out => out
  | reveal _ out => out

end AdditiveOperation

instance : Operation AdditiveOperation where
  getInputPartyId
    | .input partyId _ => some partyId
    | _ => none
  inputs
    | .input .. => []
    | .genRandom _ => []
    | .add left right _ => [left, right]
    | .reveal input _ => [input]
  outputs op := [op.output]

theorem AdditiveOperation.oneOutputPerInput : OneOutputPerInput AdditiveOperation := fun _ _ => rfl

/-- `AdditiveScheme<M>`, a type without fields. -/
structure AdditiveScheme (M : ℕ) where
deriving DecidableEq, Repr

/-- `AdditiveContext`, with the draws the thread's generator has still to make. -/
structure AdditiveContext where
  myId : ℕ
  nPlayers : ℕ
  userInputs : PMap WireId ℕ
  rng : Draws

/-- `AdditivePending`. -/
inductive AdditivePending where
  | input (isInputter : Bool) (myShare : Option ℕ)
  | genRandom (myShare : ℕ)
  | add (myShare : ℕ)
  | reveal (myShare : ℕ)
deriving DecidableEq, Repr

/-! ### Soundness of a circuit -/

/-- What `is_circuit_sound` knows of a wire. -/
inductive WireType where
  | shared
  | opened
deriving DecidableEq, Repr

/-- The type that an operation gives to its outputs. -/
def newType (wireTypes : PMap WireId WireType) : AdditiveOperation → Option WireType
  | .input .. => some .shared
  | .genRandom _ => some .shared
  | .add left right _ =>
      match wireTypes.get left, wireTypes.get right with
      | some .opened, some .opened => some .opened
      | some _, some _ => some .shared
      | _, _ => none
  | .reveal .. => some .opened

/-- One pass over the operations: the map, and whether an entry changed. -/
def soundPass : List AdditiveOperation → PMap WireId WireType × Bool → PMap WireId WireType × Bool
  | [], st => st
  | op :: ops, (wireTypes, changed) =>
      match newType wireTypes op with
      | some ty =>
          soundPass ops
            (wireTypes.insert op.output ty, changed || wireTypes.get op.output != some ty)
      | none => soundPass ops (wireTypes, changed)

/-- `while changed { ... }`, for at most the given number of passes. -/
def soundLoop (ops : List AdditiveOperation) : ℕ → PMap WireId WireType → Option Bool
  | 0, _ => none
  | passes + 1, wireTypes =>
      match soundPass ops (wireTypes, false) with
      | (wireTypes, true) => soundLoop ops passes wireTypes
      | (_, false) => some true

/-- `is_circuit_sound`. -/
def additiveSound (M : ℕ) (ops : List AdditiveOperation) : Option Bool :=
  if M = 0 then some false else soundLoop ops (3 ^ ops.length + 1) .empty

/-- `is_operation_local`. -/
def additiveLocal : AdditiveOperation → Bool
  | .add .. => true
  | .genRandom _ => true
  | _ => false

instance (M : ℕ) : CircuitScheme (AdditiveScheme M) AdditiveOperation where
  isCircuitSound _ ops := additiveSound M ops
  isOperationLocal _ op := additiveLocal op

/-! ### Arithmetic and draws -/

/-- Addition of two `u64`. -/
def u64Add (a b : ℕ) : Outcome String ℕ := if a + b < 2 ^ 64 then .ok (a + b) else .panic

/-- Subtraction of two `u64`. -/
def u64Sub (a b : ℕ) : Outcome String ℕ := if b ≤ a then .ok (a - b) else .panic

/-- `rng.gen_range(0..M)`. -/
def genRange : Act AdditiveContext String ℕ := fun context =>
  (.ok (context.rng 0), { context with rng := fun k => context.rng (k + 1) })

/-- `user_inputs.remove(output).unwrap_or(0)`. -/
def removeInput (output : WireId) : Act AdditiveContext String ℕ := fun context =>
  (.ok ((context.userInputs.get output).getD 0),
    { context with userInputs := context.userInputs.erase output })

/-! ### The network phase -/

/-- The loop of an input's owner over the parties: the sum of the shares, and the requests. -/
def dealShares (M myId : ℕ) : List ℕ → ℕ → List (SendRequest ℕ) →
    Act AdditiveContext String (ℕ × List (SendRequest ℕ))
  | [], sum, sendRequest => .ret (.ok (sum, sendRequest))
  | i :: is, sum, sendRequest =>
      if i = myId then dealShares M myId is sum sendRequest
      else
        genRange.bind fun share =>
          (Act.ret (u64Add sum share)).bind fun s =>
            dealShares M myId is (s % M) (sendRequest ++ [⟨i, share⟩])

/-- The other parties, in order. -/
def otherParties (context : AdditiveContext) : List ℕ :=
  (List.range context.nPlayers).filter fun i => i ≠ context.myId

/-- The branch of `do_network_phase` for an input this party owns. -/
def dealInput (M : ℕ) (output : WireId) :
    Act AdditiveContext String (NetworkPhaseOutput AdditivePending ℕ) :=
  (removeInput output).bind fun input =>
    (Act.read AdditiveContext.myId).bind fun myId =>
      (Act.read AdditiveContext.nPlayers).bind fun nPlayers =>
        (dealShares M myId (List.range nPlayers) 0 []).bind fun (sum, sendRequest) =>
          Act.ret <| (u64Add (input % M) M).bind fun a => (u64Sub a sum).bind fun b =>
            .ok ⟨.input true (some (b % M)), sendRequest, []⟩

/-- `do_network_phase`. -/
def additiveNetworkPhase (M : ℕ) (op : AdditiveOperation) (inputs : List ℕ) :
    Act AdditiveContext String (NetworkPhaseOutput AdditivePending ℕ) :=
  match op with
  | .input partyId output =>
      (Act.read AdditiveContext.myId).bind fun myId =>
        if myId = partyId then dealInput M output
        else .ret (.ok ⟨.input false none, [], [ReceiveRequest.new partyId 1]⟩)
  | .genRandom _ => genRange.bind fun myShare => .ret (.ok ⟨.genRandom myShare, [], []⟩)
  | .add .. =>
      match inputs with
      | left :: right :: _ =>
          .ret ((u64Add left right).bind fun s => .ok ⟨.add (s % M), [], []⟩)
      | _ => .ret .panic
  | .reveal .. =>
      match inputs with
      | myShare :: _ =>
          (Act.read otherParties).bind fun others =>
            .ret (.ok ⟨.reveal myShare, others.map fun i => ⟨i, myShare⟩,
              others.map fun i => ReceiveRequest.new i 1⟩)
      | [] => .ret .panic

/-! ### The finalize phase -/

/-- `for received in network_data { total = (total + received) % M; }` -/
def sumShares (M : ℕ) : ℕ → List ℕ → Outcome String ℕ
  | total, [] => .ok total
  | total, received :: data => (u64Add total received).bind fun s => sumShares M (s % M) data

/-- `do_finalize_phase`. -/
def additiveFinalizePhase (M : ℕ) (pending : AdditivePending) (networkData : List ℕ) :
    Outcome String (List ℕ) :=
  match pending with
  | .input true myShare => (Outcome.unwrap myShare).bind fun share => .ok [share]
  | .input false _ => (Outcome.unwrap networkData.head?).bind fun share => .ok [share % M]
  | .genRandom myShare => .ok [myShare]
  | .add myShare => .ok [myShare]
  | .reveal myShare => (sumShares M myShare networkData).bind fun total => .ok [total]

/-! ### The scheme -/

/-- `prepare_user_input`. -/
def additivePrepare (M : ℕ) : List (WireId × ℕ) → AdditiveContext → AdditiveContext
  | [], context => context
  | (wireId, val) :: inputs, context =>
      additivePrepare M inputs { context with userInputs := context.userInputs.insert wireId (val % M) }

instance (M : ℕ) : MpcScheme (AdditiveScheme M) AdditiveOperation ℕ ℕ ℕ AdditiveContext
    AdditivePending where
  establishContext {N} [Network N ℕ] _ _ draws := fun network =>
    (.ok ⟨Network.myId ℕ network, Network.nPlayers ℕ network, .empty, draws⟩, network)
  prepareUserInput _ := additivePrepare M
  doNetworkPhase _ := additiveNetworkPhase M
  doFinalizePhase _ pending networkData := .ret (additiveFinalizePhase M pending networkData)

end MpcCore
