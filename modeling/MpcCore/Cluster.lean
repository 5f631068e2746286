import MpcCore.Execution
import MpcCore.Lib.Lockstep
import MpcCore.Mesh

/-! # A cluster of parties

The parties of a computation, each past its handshake and at work on its own
`ExecutionContext`, over one FIFO channel for each ordered pair.

* A party calls `do_offline`, `prepare_input` and `do_online`.  `MpcCircuit.tasks` is what these
  calls do one after the other, cut at the places where a party waits for others; `runTasks_eq` says
  that the tasks, run to the end, are the three calls.
* `Task.begin` is a task up to the end of `send_objects_many`, `Task.complete` the rest of it.
  Between the two the messages leave one at a time and those of the peers come in, in any order:
  `Cluster.program` makes a `RoundProgram` of a party.
* Ghost data: `Party.round`, `Party.received`, and in a packet the round and the origins.  The origin
  of an element is the position of its operation among the network operations of the round. -/

namespace MpcCore

open Operation MpcScheme ExecutionContext

variable {S Op Wire Elem Input Ctx Pending : Type} {n : ℕ}

/-! ### The tasks of a party -/

/-- A piece of the work of a party. -/
inductive Task (Op : Type) where
  | enter (fnName : String) (required : ExecutionState)
  | round (round : Round Op)
  | leave (reached : ExecutionState)
  | prepare
deriving DecidableEq, Repr

/-- What `do_offline`, `prepare_input` and `do_online` do one after the other. -/
def MpcCircuit.tasks (circuit : MpcCircuit S Op) : List (Task Op) :=
  (.enter "do_offline" .handshaked :: circuit.offlineRounds.map .round ++ [.leave .finishedOffline, .prepare]) ++
    (.enter "do_online" .readyOnline :: circuit.onlineRounds.map .round ++ [.leave .finished])

section

variable {N : Type} [Operation Op] [MpcScheme S Op Wire Elem Input Ctx Pending] [Network N Elem]

/-- A task until its messages are sent. -/
def Task.begin (scheme : S) (inputs : List (WireId × Input)) :
    Task Op → Act (ExecutionContext S Op Wire Elem Ctx Pending N) Fault (Batch Elem Pending)
  | enter fnName required => (assertState fnName required).bind fun _ => .ret (.ok .empty)
  | round r =>
      (withContext (doLocalOperations scheme r)).bind fun _ =>
        (withContext (networkPhases scheme r.networkOperations .empty)).bind fun batch =>
          (withContext (sendRequests batch.sendRequests)).bind fun _ => .ret (.ok batch)
  | leave reached => (setState reached).bind fun _ => .ret (.ok .empty)
  | prepare => (prepareInput inputs).bind fun _ => .ret (.ok .empty)

/-- A task from there to its end. -/
def Task.complete (scheme : S) :
    Task Op → Batch Elem Pending → Act (ExecutionContext S Op Wire Elem Ctx Pending N) Fault Unit
  | round r, batch =>
      (withContext (recvRequests batch.receiveRequests)).bind fun (data, _) =>
        withContext (finishNetworkOperations scheme r.networkOperations batch data)
  | _, _ => .ret (.ok ())

/-- The tasks one after the other, as a party alone would run them. -/
def runTasks (scheme : S) (inputs : List (WireId × Input)) :
    List (Task Op) → Act (ExecutionContext S Op Wire Elem Ctx Pending N) Fault Unit :=
  .each fun task => (task.begin scheme inputs).bind (task.complete scheme)

omit [Operation Op] [MpcScheme S Op Wire Elem Input Ctx Pending] [Network N Elem] in
theorem withContext_bind {α β : Type} (x : Act (Exec Op Wire Elem Ctx Pending N) Fault α)
    (f : α → Act (Exec Op Wire Elem Ctx Pending N) Fault β) :
    (withContext (x.bind f) : Act (ExecutionContext S Op Wire Elem Ctx Pending N) Fault β) =
      (withContext x).bind fun a => withContext (f a) := by
  funext ec
  simp only [withContext, Act.bind]
  cases hctx : ec.schemeContext with
  | none => simp
  | some context =>
      rcases hx : x ⟨context, ec.wireContents, ec.network, ec.calls⟩ with ⟨r, s⟩
      cases r <;> simp [hx]

omit [Operation Op] [MpcScheme S Op Wire Elem Input Ctx Pending] [Network N Elem] in
theorem withContext_bind_ret {α β : Type} (x : Act (Exec Op Wire Elem Ctx Pending N) Fault α) (g : α → β) :
    (withContext (x.bind fun a => .ret (.ok (g a))) :
        Act (ExecutionContext S Op Wire Elem Ctx Pending N) Fault β) =
      (withContext x).bind fun a => .ret (.ok (g a)) := by
  funext ec
  simp only [withContext, Act.bind]
  cases hctx : ec.schemeContext with
  | none => simp
  | some context =>
      rcases hx : x ⟨context, ec.wireContents, ec.network, ec.calls⟩ with ⟨r, s⟩
      cases r <;> simp [hx]

/-- The first half of a round is one run on the context. -/
theorem begin_round (scheme : S) (inputs : List (WireId × Input)) (round : Round Op) :
    ((Task.round round).begin scheme inputs :
        Act (ExecutionContext S Op Wire Elem Ctx Pending N) Fault (Batch Elem Pending)) =
      withContext ((doLocalOperations scheme round).bind fun _ =>
        (networkPhases scheme round.networkOperations .empty).bind fun batch =>
          (sendRequests batch.sendRequests).bind fun _ => .ret (.ok batch)) := by
  rw [withContext_bind, Task.begin]
  congr 1
  funext _
  rw [withContext_bind]
  congr 1
  funext batch
  exact (withContext_bind_ret _ _).symm

theorem complete_round (scheme : S) (round : Round Op) (batch : Batch Elem Pending) :
    ((Task.round round).complete scheme batch :
        Act (ExecutionContext S Op Wire Elem Ctx Pending N) Fault Unit) =
      withContext ((recvRequests batch.receiveRequests).bind fun received =>
        finishNetworkOperations scheme round.networkOperations batch received.1) := by
  rw [withContext_bind]
  rfl

/-- The exchange of a round, cut where its messages are sent. -/
theorem withContext_doNetworkOperations (scheme : S) (round : Round Op) :
    (withContext (doNetworkOperations scheme round) :
        Act (ExecutionContext S Op Wire Elem Ctx Pending N) Fault (ℕ × ℕ)) =
      (withContext (networkPhases scheme round.networkOperations .empty)).bind fun batch =>
        (withContext (sendRequests batch.sendRequests)).bind fun sendLen =>
          (withContext (recvRequests batch.receiveRequests)).bind fun received =>
            (withContext (finishNetworkOperations scheme round.networkOperations batch received.1)).bind
              fun _ => .ret (.ok (sendLen, received.2)) := by
  unfold doNetworkOperations
  rw [withContext_bind]
  congr 1
  funext batch
  rw [withContext_bind]
  congr 1
  funext sendLen
  rw [withContext_bind]
  congr 1
  funext received
  exact withContext_bind_ret _ _

theorem runTasks_rounds (scheme : S) (inputs : List (WireId × Input)) :
    ∀ (rounds : List (Round Op)) (a b : ℕ),
      runTasks (N := N) scheme inputs (rounds.map .round) =
        (doRounds scheme rounds a b).bind fun _ => .ret (.ok ())
  | [], _, _ => rfl
  | r :: rounds, a, b => by
      have ih : ∀ a b, Act.each (fun task => (task.begin scheme inputs).bind (task.complete scheme))
          (rounds.map Task.round) =
            ((doRounds scheme rounds a b).bind fun _ => .ret (.ok ()) :
              Act (ExecutionContext S Op Wire Elem Ctx Pending N) Fault Unit) :=
        fun a b => runTasks_rounds scheme inputs rounds a b
      unfold runTasks
      rw [List.map_cons, Act.each, doRounds, withContext_doNetworkOperations]
      simp only [Task.begin, Task.complete, Act.bind_assoc]
      congr 1
      funext _
      congr 1
      funext batch
      congr 1
      funext sendLen
      rw [show ∀ f : Batch Elem Pending → Act (ExecutionContext S Op Wire Elem Ctx Pending N) Fault Unit,
        (Act.ret (.ok batch)).bind f = f batch from fun _ => rfl]
      congr 1
      funext received
      congr 1
      funext _
      exact ih _ _

/-- The circuit of a context stays. -/
def SameCircuit (ec ec' : ExecutionContext S Op Wire Elem Ctx Pending N) : Prop := ec'.circuit = ec.circuit

omit [Operation Op] [MpcScheme S Op Wire Elem Input Ctx Pending] [Network N Elem] in
instance : IsPreorder (ExecutionContext S Op Wire Elem Ctx Pending N) SameCircuit where
  refl _ := rfl
  trans _ _ _ h h' := Eq.trans h' h

omit [Operation Op] [MpcScheme S Op Wire Elem Input Ctx Pending] [Network N Elem] in
theorem withContext_sameCircuit {α : Type} (x : Act (Exec Op Wire Elem Ctx Pending N) Fault α) :
    Act.Keeps SameCircuit (withContext x : Act (ExecutionContext S Op Wire Elem Ctx Pending N) Fault α) := by
  intro ec _
  unfold withContext
  split <;> rfl

theorem doRounds_sameCircuit (scheme : S) : ∀ (rounds : List (Round Op)) (a b : ℕ),
    Act.Keeps SameCircuit
      (doRounds scheme rounds a b : Act (ExecutionContext S Op Wire Elem Ctx Pending N) Fault (ℕ × ℕ))
  | [], _, _ => Act.Keeps.ret _
  | _ :: rounds, _, _ =>
      (withContext_sameCircuit _).bind fun _ _ _ _ =>
        (withContext_sameCircuit _).bind fun _ _ _ _ => doRounds_sameCircuit scheme rounds _ _

theorem doPhase_sameCircuit (fnName : String) (required reached : ExecutionState)
    (rounds : MpcCircuit S Op → List (Round Op)) :
    Act.Keeps SameCircuit
      (doPhase fnName required rounds reached : Act (ExecutionContext S Op Wire Elem Ctx Pending N) Fault _) :=
  Act.Keeps.bind (fun _ _ => rfl) fun _ _ _ _ =>
    Act.Keeps.bind (fun _ _ => rfl) fun _ _ _ _ =>
      (doRounds_sameCircuit _ _ _ _).bind fun _ _ _ _ =>
        Act.Keeps.bind (fun _ _ => rfl) fun _ _ _ _ => Act.Keeps.ret _

theorem prepareInput_sameCircuit (inputs : List (WireId × Input)) :
    Act.Keeps SameCircuit
      (prepareInput inputs : Act (ExecutionContext S Op Wire Elem Ctx Pending N) Fault Unit) := by
  refine Act.Keeps.bind (fun _ _ => rfl) fun _ _ _ _ => ?_
  refine Act.Keeps.bind (fun _ _ => rfl) fun _ _ _ _ => ?_
  refine (Act.Keeps.ret _).bind fun _ _ _ _ => ?_
  refine (Act.Keeps.ret _).bind fun taken _ _ _ => ?_
  split
  · exact Act.Keeps.ret _
  · refine Act.Keeps.bind (fun ec _ => ?_) fun _ _ _ _ => fun _ _ => rfl
    unfold ExecutionContext.prepareUserInput
    split <;> rfl

theorem runTasks_phase (inputs : List (WireId × Input)) (fnName : String) (required reached : ExecutionState)
    (rounds : MpcCircuit S Op → List (Round Op)) (ec : ExecutionContext S Op Wire Elem Ctx Pending N) :
    runTasks ec.circuit.scheme inputs
        (.enter fnName required :: (rounds ec.circuit).map .round ++ [.leave reached]) ec =
      (doPhase fnName required rounds reached).bind (fun _ => .ret (.ok ())) ec := by
  have hrounds := runTasks_rounds (N := N) ec.circuit.scheme inputs (rounds ec.circuit) 0 0
  unfold runTasks at hrounds ⊢
  rw [List.cons_append, Act.each, Act.each_append, hrounds]
  unfold doPhase
  simp only [Task.begin, Act.bind_assoc]
  by_cases hstate : ec.executionState = required
  · have hok : assertState (N := N) fnName required ec = (.ok (), ec) := by simp [assertState, hstate]
    rw [Act.bind_of_ok hok, Act.bind_of_ok hok]
    rfl
  · have herr : assertState (N := N) fnName required ec =
        (.err (.error (.stateError fnName ec.executionState)), ec) := by simp [assertState, hstate]
    simp [Act.bind, herr]

/-- **The tasks of a party are its three calls**: one after the other on any network they do what
`do_offline`, `prepare_input` and `do_online` do. -/
theorem runTasks_eq (inputs : List (WireId × Input)) (ec : ExecutionContext S Op Wire Elem Ctx Pending N) :
    runTasks ec.circuit.scheme inputs ec.circuit.tasks ec =
      (doOffline.bind fun _ => (prepareInput inputs).bind fun _ => doOnline.bind fun _ => .ret (.ok ())) ec := by
  have hoff := runTasks_phase inputs "do_offline" .handshaked .finishedOffline MpcCircuit.offlineRounds ec
  have hprep : (Task.prepare.begin ec.circuit.scheme inputs).bind (Task.complete ec.circuit.scheme .prepare) =
      (prepareInput inputs : Act (ExecutionContext S Op Wire Elem Ctx Pending N) Fault Unit) := by
    funext ec'
    simp only [Task.begin, Act.bind]
    obtain ⟨r, ec''⟩ := prepareInput inputs ec'
    cases r <;> rfl
  have htasks : ec.circuit.tasks =
      (.enter "do_offline" .handshaked :: ec.circuit.offlineRounds.map .round ++ [.leave .finishedOffline]) ++
        .prepare ::
          (.enter "do_online" .readyOnline :: ec.circuit.onlineRounds.map .round ++ [.leave .finished]) := by
    simp [MpcCircuit.tasks]
  unfold runTasks at hoff ⊢
  rw [htasks, Act.each_append, Act.each, hprep]
  rw [Act.bind_left_congr hoff, Act.bind_assoc]
  refine Act.bind_congr fun lens ec₁ h1 => ?_
  have hc1 : ec₁.circuit = ec.circuit := by
    have := doPhase_sameCircuit (N := N) "do_offline" .handshaked .finishedOffline MpcCircuit.offlineRounds ec
      (by rw [show doPhase _ _ _ _ ec = _ from h1]; simp)
    rwa [show doPhase _ _ _ _ ec = _ from h1] at this
  rw [Act.ret_ok_bind]
  refine Act.bind_congr fun _ ec₂ h2 => ?_
  have hc2 : ec₂.circuit = ec.circuit := by
    have := prepareInput_sameCircuit inputs ec₁ (by rw [h2]; simp)
    rw [h2] at this
    exact Eq.trans this hc1
  have hon := runTasks_phase inputs "do_online" .readyOnline .finished MpcCircuit.onlineRounds ec₂
  rw [hc2] at hon
  exact hon

end

/-! ### Parties -/

/-- A party between two tasks: its context, the tasks to come, and how the last call ended. -/
structure Party (S Op Wire Elem Ctx Pending : Type) (n : ℕ) where
  context : ExecutionContext S Op Wire Elem Ctx Pending (Link n Elem)
  todo : List (Task Op)
  outcome : Outcome Fault Unit
  round : ℕ
  received : List (Fin n → Option (Message Elem))

/-- A party in a task, once its messages are handed to the network. -/
structure Stage (S Op Wire Elem Ctx Pending : Type) (n : ℕ) where
  context : ExecutionContext S Op Wire Elem Ctx Pending (Link n Elem)
  task : Task Op
  todo : List (Task Op)
  batch : Batch Elem Pending
  round : ℕ
  received : List (Fin n → Option (Message Elem))

/-- A message on a channel, with the round it was sent in and the origins of its elements. -/
structure Packet (Elem : Type) where
  round : ℕ
  origins : List ℕ
  message : Message Elem

/-- The position of the operation behind each request, from the number of requests of each. -/
def origins (counts : List ℕ) : List ℕ := counts.zipIdx.flatMap fun (count, index) => List.replicate count index

/-- The origins of the elements sent to a peer. -/
def Batch.originsTo (batch : Batch Elem Pending) (peer : ℕ) : List ℕ :=
  ((batch.sendRequests.zip (origins batch.sendRequestCounts)).filter fun req => req.1.toId = peer).map Prod.snd

/-- The origins of the requests for elements of a peer, once for each element asked for. -/
def Batch.originsFrom (batch : Batch Elem Pending) (peer : ℕ) : List ℕ :=
  ((batch.receiveRequests.zip (origins batch.receiveRequestCounts)).filter fun req =>
    req.1.fromId = peer).flatMap fun req => List.replicate (expectedCount req.1.count) req.2

/-- The number of elements asked of a peer. -/
def Batch.requested (batch : Batch Elem Pending) (peer : ℕ) : ℕ :=
  ((requestsFrom batch.receiveRequests peer).map fun req => expectedCount req.2).sum

/-- The network of a party when the messages it waits for are in: those handed over are gone. -/
def Link.exchange (link : Link n Elem) (inbox : Fin n → Option (Packet Elem)) : Link n Elem :=
  { link with arrived := fun p => ((inbox p).map Packet.message).toList, leaving := fun _ => [] }

namespace Cluster

variable [Operation Op] [MpcScheme S Op Wire Elem Input Ctx Pending]

/-- The rounds of the parties.  A party whose last call did not succeed takes no further task.  This is about
runs in which no receive fails: one that does may fail before all messages have come in. -/
def program (inputs : Fin n → List (WireId × Input)) :
    RoundProgram (Fin n) (Party S Op Wire Elem Ctx Pending n) (Stage S Op Wire Elem Ctx Pending n)
      (Packet Elem) where
  start p party :=
    match party.outcome, party.todo with
    | .ok (), task :: todo =>
        match task.begin party.context.circuit.scheme (inputs p) party.context with
        | (.ok batch, context) => some (.inr ⟨context, task, todo, batch, party.round, party.received⟩)
        | (outcome, context) => some (.inl { party with context, outcome := outcome.bind fun _ => .ok () })
    | _, _ => none
  sends _ stage q :=
    (stage.context.network.leaving q).head?.map fun message =>
      ⟨stage.round, stage.batch.originsTo q, message⟩
  awaits _ stage q :=
    (stage.context.network.unavailable (stage.batch.receiveRequests.map ReceiveRequest.fromId)).isNone &&
      decide (q ∈ namedPeers n stage.batch.receiveRequests)
  finish _ stage inbox :=
    let (outcome, context) := stage.task.complete stage.context.circuit.scheme stage.batch
      { stage.context with network := stage.context.network.exchange inbox }
    ⟨context, stage.todo, outcome, stage.round + 1,
      stage.received ++ [fun q => (inbox q).map Packet.message]⟩

variable {inputs : Fin n → List (WireId × Input)} {p : Fin n} {party : Party S Op Wire Elem Ctx Pending n}

/-- A party starts a task only when no call has failed, and the start succeeded. -/
theorem start_eq_inr {stage : Stage S Op Wire Elem Ctx Pending n}
    (h : (program inputs).start p party = some (.inr stage)) :
    ∃ task todo batch context, party.outcome = .ok () ∧ party.todo = task :: todo ∧
      task.begin party.context.circuit.scheme (inputs p) party.context = (.ok batch, context) ∧
      stage = ⟨context, task, todo, batch, party.round, party.received⟩ := by
  simp only [program] at h
  split at h
  · next task todo hok htodo =>
      split at h
      · next batch context hb => exact ⟨task, todo, batch, context, hok, htodo, hb, by simpa using h.symm⟩
      · simp at h
  · exact absurd h (by simp)

/-- A party whose calls have all succeeded is at the end only when no task is left. -/
theorem start_eq_none (hok : party.outcome = .ok ()) (h : (program inputs).start p party = none) : party.todo = [] := by
  simp only [program, hok] at h
  split at h
  · split at h <;> cases h
  · next hne =>
      cases htodo : party.todo with
      | nil => rfl
      | cons task todo => exact absurd htodo (hne task todo rfl)

theorem start_eq_inl {party' : Party S Op Wire Elem Ctx Pending n}
    (h : (program inputs).start p party = some (.inl party')) :
    ∃ task todo outcome context, party.outcome = .ok () ∧ party.todo = task :: todo ∧
      task.begin party.context.circuit.scheme (inputs p) party.context = (outcome, context) ∧
      (∀ batch, outcome ≠ .ok batch) ∧
      party' = { party with context, outcome := outcome.bind fun _ => .ok () } := by
  simp only [program] at h
  split at h
  · next task todo hok htodo =>
      split at h
      · simp at h
      · next outcome context hne hb =>
          exact ⟨task, todo, outcome, context, hok, htodo, hb, fun batch he => hne batch (he ▸ rfl),
            by simpa using h.symm⟩
  · exact absurd h (by simp)

/-- A party after its handshake. -/
def handshaked (circuit : MpcCircuit S Op) (size : Message Elem → ℕ) (context : Ctx) (p : Fin n) :
    Party S Op Wire Elem Ctx Pending n :=
  ⟨⟨circuit, .handshaked, ⟨p, size, fun _ => [], fun _ => []⟩, .empty, some context, []⟩, circuit.tasks,
    .ok (), 0, []⟩

end Cluster

end MpcCore
