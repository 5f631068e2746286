import MpcCore.AdditiveExchange
import MpcCore.CircuitAccept
import MpcCore.ExecutionLifecycle

/-! # The additive cluster in lock step

Parties that run the same additive plan, in any interleaving.

* `PartyAt`, `StageAt`: what the lockstep run fixes of a party after `k` tasks, and of one in its
  next task, whatever the plan does.  A task may panic at some parties; the others are not affected
  in what they send and await.
* `Cluster.partyAt`: the lockstep run keeps `PartyAt`, so `Cluster.matched`: a party awaits exactly
  the parties that send to it.
* `Cluster.lockstep`: in every reachable net the first unread message answers the requests of its
  receiver, no network call fails, and the channels are empty at the end. -/

namespace MpcCore

open Operation MpcScheme

/-! ### The order of the tasks -/

section

variable {S Op : Type}

/-- The network operations of a task. -/
def Task.networkOperations : Task Op → List Op
  | round r => r.networkOperations
  | _ => []

/-- The state a task leads to. -/
def Task.reached : Task Op → ExecutionState → ExecutionState
  | leave reached, _ => reached
  | prepare, _ => .readyOnline
  | _, state => state

/-- The state a task needs. -/
def Task.Allowed : Task Op → ExecutionState → Prop
  | enter _ required, state => state = required
  | prepare, state => state = .finishedOffline
  | _, _ => True

/-- The state after the given tasks. -/
def stateAfter (tasks : List (Task Op)) : ExecutionState :=
  tasks.foldl (fun state task => task.reached state) .handshaked

/-- Every task finds the state it needs, and none is left in the last state. -/
def Legal : ExecutionState → List (Task Op) → Prop
  | _, [] => True
  | state, task :: tasks => state ≠ .finished ∧ task.Allowed state ∧ Legal (task.reached state) tasks

theorem legal_rounds {state : ExecutionState} (hs : state ≠ .finished) {rest : List (Task Op)} :
    ∀ rounds : List (Round Op), Legal state (rounds.map .round ++ rest) ↔ Legal state rest
  | [] => Iff.rfl
  | r :: rounds => by
      simp [Legal, Task.Allowed, Task.reached, hs, legal_rounds hs rounds]

theorem legal_tasks (circuit : MpcCircuit S Op) : Legal .handshaked circuit.tasks := by
  simp only [MpcCircuit.tasks, List.cons_append, List.append_assoc, Legal, Task.Allowed, Task.reached]
  rw [legal_rounds (by simp)]
  simp only [List.nil_append, Legal, Task.Allowed, Task.reached]
  rw [legal_rounds (by simp)]
  simp [Legal, Task.Allowed]

theorem Legal.of_append {rest : List (Task Op)} : ∀ {tasks : List (Task Op)} {state : ExecutionState},
    Legal state (tasks ++ rest) → Legal (tasks.foldl (fun state task => task.reached state) state) rest
  | [], _, h => h
  | _ :: tasks, _, h => @Legal.of_append rest tasks _ h.2.2

variable {circuit : MpcCircuit S Op} {k : ℕ}

theorem legal_drop (circuit : MpcCircuit S Op) (k : ℕ) :
    Legal (stateAfter (circuit.tasks.take k)) (circuit.tasks.drop k) :=
  Legal.of_append (by rw [List.take_append_drop]; exact legal_tasks circuit)

theorem stateAfter_succ {task : Task Op} (h : circuit.tasks[k]? = some task) :
    stateAfter (circuit.tasks.take (k + 1)) = task.reached (stateAfter (circuit.tasks.take k)) := by
  rw [List.take_add_one, h]
  simp [stateAfter]

theorem length_le_of_finished (h : stateAfter (circuit.tasks.take k) = .finished) :
    circuit.tasks.length ≤ k := by
  have hlegal := legal_drop circuit k
  cases hdrop : circuit.tasks.drop k with
  | nil => exact List.drop_eq_nil_iff.mp hdrop
  | cons task rest =>
      rw [hdrop, h] at hlegal
      exact absurd rfl hlegal.1

end

/-! ### Parties and stages of the additive scheme -/

variable {M n : ℕ}

abbrev AdditiveParty (M n : ℕ) := Party (AdditiveScheme M) AdditiveOperation ℕ ℕ AdditiveContext AdditivePending n

abbrev AdditiveStage (M n : ℕ) := Stage (AdditiveScheme M) AdditiveOperation ℕ ℕ AdditiveContext AdditivePending n

abbrev AdditiveNet (M n : ℕ) := RoundProgram.Net (Fin n) (AdditiveParty M n) (AdditiveStage M n) (Packet ℕ)

abbrev AdditiveCircuit (M : ℕ) := MpcCircuit (AdditiveScheme M) AdditiveOperation

abbrev AdditiveExecution (M n : ℕ) :=
  ExecutionContext (AdditiveScheme M) AdditiveOperation ℕ ℕ AdditiveContext AdditivePending (Link n ℕ)

/-- The context of the scheme is there, for party `p` of `n`. -/
def Seated (p : Fin n) (ec : AdditiveExecution M n) : Prop :=
  ec.network.id = p ∧ ∃ context, ec.schemeContext = some context ∧ context.myId = p ∧ context.nPlayers = n

/-- A party after `k` tasks of the plan. -/
structure PartyAt (circuit : AdditiveCircuit M) (p : Fin n) (k : ℕ) (party : AdditiveParty M n) : Prop where
  round : party.round = k
  todo : party.todo = circuit.tasks.drop k
  plan : party.context.circuit = circuit
  state : party.context.executionState = stateAfter (circuit.tasks.take k)
  seated : party.outcome = .ok () → Seated p party.context ∧ party.context.network.leaving = fun _ => []
  safe : ∀ f, party.outcome ≠ .err f

/-- A party in the task after `k` tasks of the plan. -/
structure StageAt (circuit : AdditiveCircuit M) (p : Fin n) (k : ℕ) (stage : AdditiveStage M n) : Prop where
  round : stage.round = k
  task : circuit.tasks[k]? = some stage.task
  todo : stage.todo = circuit.tasks.drop (k + 1)
  plan : stage.context.circuit = circuit
  state : stage.context.executionState = stateAfter (circuit.tasks.take (k + 1))
  seated : Seated p stage.context
  leaving : stage.context.network.leaving = fun q => (messageTo stage.batch.sendRequests q).toList
  shape : stage.batch.Shape n p stage.task.networkOperations

theorem withContext_eq {α : Type}
    {x : Act (Exec AdditiveOperation ℕ ℕ AdditiveContext AdditivePending (Link n ℕ)) Fault α}
    {ec ec' : AdditiveExecution M n} {r : Outcome Fault α} {context : AdditiveContext}
    (hctx : ec.schemeContext = some context) (h : ExecutionContext.withContext x ec = (r, ec')) :
    ∃ s, x ⟨context, ec.wireContents, ec.network, ec.calls⟩ = (r, s) ∧
      ec' = { ec with schemeContext := some s.context, wireContents := s.wireContents, network := s.network,
                      calls := s.calls } := by
  unfold ExecutionContext.withContext at h
  rw [hctx] at h
  obtain ⟨h1, rfl⟩ := Prod.mk.inj h
  exact ⟨_, Prod.ext h1 rfl, rfl⟩

theorem Seated.withContext {α : Type}
    {x : Act (Exec AdditiveOperation ℕ ℕ AdditiveContext AdditivePending (Link n ℕ)) Fault α} {p : Fin n}
    {ec ec' : AdditiveExecution M n} {a : α} (hx : Act.Keeps Exec.SameSeat x) (h : Seated p ec)
    (he : ExecutionContext.withContext x ec = (.ok a, ec')) :
    Seated p ec' ∧ ec'.circuit = ec.circuit ∧ ec'.executionState = ec.executionState ∧
      ec'.network = ec.network := by
  obtain ⟨hid, context, hctx, hmy, hn⟩ := h
  obtain ⟨s, hs, rfl⟩ := withContext_eq hctx he
  have hseat := hx ⟨context, ec.wireContents, ec.network, ec.calls⟩ (by rw [hs]; simp)
  rw [hs] at hseat
  obtain ⟨hnet, hmy', hn'⟩ := hseat
  exact ⟨⟨by rw [← hid]; exact congrArg Link.id hnet, s.context, rfl, hmy'.trans hmy, hn'.trans hn⟩, rfl, rfl, hnet⟩

/-! ### The first half of a task -/

theorem prepareInput_seated {inputs : List (WireId × ℕ)} {p : Fin n} {ec ec' : AdditiveExecution M n}
    (h : Seated p ec) (he : ExecutionContext.prepareInput inputs ec = (.ok (), ec')) :
    Seated p ec' ∧ ec'.circuit = ec.circuit ∧ ec'.executionState = .readyOnline ∧ ec'.network = ec.network := by
  obtain ⟨hid, context, hctx, hmy, hn⟩ := h
  obtain ⟨_, ec₁, h1, he⟩ := Act.bind_eq_ok.mp he
  obtain ⟨-, rfl⟩ := Prod.mk.inj h1
  rw [Act.read_bind] at he
  obtain ⟨wireIds, ec₂, h2, he⟩ := Act.bind_eq_ok.mp he
  obtain ⟨-, rfl⟩ := Prod.mk.inj h2
  obtain ⟨taken, ec₃, h3, he⟩ := Act.bind_eq_ok.mp he
  obtain ⟨-, rfl⟩ := Prod.mk.inj h3
  split at he
  · exact absurd (Prod.mk.inj he).1 (by simp)
  · obtain ⟨_, ec₄, h4, he⟩ := Act.bind_eq_ok.mp he
    obtain ⟨-, rfl⟩ := Prod.mk.inj he
    simp only [ExecutionContext.prepareUserInput, hctx] at h4
    obtain ⟨-, rfl⟩ := Prod.mk.inj h4
    obtain ⟨hmy', hn'⟩ := additivePrepare_sameSeat (M := M) taken context
    exact ⟨⟨hid, _, rfl, hmy'.trans hmy, hn'.trans hn⟩, rfl, rfl, rfl⟩

theorem sendRequests_eq {requests : List (SendRequest ℕ)} {len : ℕ}
    {s s' : Exec AdditiveOperation ℕ ℕ AdditiveContext AdditivePending (Link n ℕ)}
    (h : sendRequests requests s = (.ok len, s')) :
    s'.context = s.context ∧ s'.network = s.network.write (messageTo requests) := by
  obtain ⟨hr, rfl⟩ := Prod.mk.inj h
  refine ⟨rfl, ?_⟩
  have hr : ((Link.sendObjectsMany requests s.network).1).mapErr schemeFault = .ok len := hr
  change (Link.sendObjectsMany requests s.network).2 = _
  rw [Outcome.mapErr_eq_ok] at hr
  unfold Link.sendObjectsMany at hr ⊢
  split at hr
  · exact absurd hr (by simp)
  · rfl

/-- **The first half of a task** leaves a stage that fits the plan. -/
theorem PartyAt.begin {circuit : AdditiveCircuit M} {p : Fin n} {k : ℕ} {party : AdditiveParty M n}
    (h : PartyAt circuit p k party) (hok : party.outcome = .ok ()) {inputs : List (WireId × ℕ)}
    {task : Task AdditiveOperation} {todo : List (Task AdditiveOperation)} (htodo : party.todo = task :: todo)
    {batch : Batch ℕ AdditivePending} {ec : AdditiveExecution M n}
    (hb : task.begin party.context.circuit.scheme inputs party.context = (.ok batch, ec)) :
    StageAt circuit p k ⟨ec, task, todo, batch, party.round, party.received⟩ := by
  have hdrop : circuit.tasks.drop k = task :: todo := h.todo ▸ htodo
  have htask : circuit.tasks[k]? = some task := by
    rw [← List.head?_drop, hdrop]; rfl
  have hrest : todo = circuit.tasks.drop (k + 1) := by
    rw [← List.tail_drop, hdrop]; rfl
  obtain ⟨hseat, hleaving⟩ := h.seated hok
  have hsucc := stateAfter_succ htask
  rw [← h.state] at hsucc
  have hsilent : Seated p ec → ec.circuit = party.context.circuit →
      ec.executionState = task.reached party.context.executionState → ec.network = party.context.network →
      batch = .empty → task.networkOperations = [] →
      StageAt circuit p k ⟨ec, task, todo, batch, party.round, party.received⟩ := by
    rintro hs hc hst hnet rfl hops
    refine ⟨h.round, htask, hrest, hc.trans h.plan, hst.trans hsucc.symm, hs, ?_, ?_⟩
    · simpa [hnet, messageTo, dataTo, Batch.empty] using hleaving
    · simpa [hops] using Batch.Shape.empty (n := n) (p : ℕ)
  unfold Task.begin at hb
  cases task with
  | enter fnName required =>
      obtain ⟨_, ec₁, h1, hb⟩ := Act.bind_eq_ok.mp hb
      obtain ⟨-, rfl⟩ := Prod.mk.inj h1
      obtain ⟨rfl, rfl⟩ := Act.ret_eq_ok.mp hb
      exact hsilent hseat rfl rfl rfl rfl rfl
  | leave reached =>
      obtain ⟨_, ec₁, h1, hb⟩ := Act.bind_eq_ok.mp hb
      obtain ⟨-, rfl⟩ := Prod.mk.inj h1
      obtain ⟨rfl, rfl⟩ := Act.ret_eq_ok.mp hb
      exact hsilent hseat rfl rfl rfl rfl rfl
  | prepare =>
      obtain ⟨_, ec₁, h1, hb⟩ := Act.bind_eq_ok.mp hb
      obtain ⟨rfl, rfl⟩ := Act.ret_eq_ok.mp hb
      obtain ⟨hs, hc, hst, hnet⟩ := prepareInput_seated hseat h1
      exact hsilent hs hc hst hnet rfl rfl
  | round r =>
      obtain ⟨_, ec₁, h1, hb⟩ := Act.bind_eq_ok.mp hb
      obtain ⟨batch', ec₂, h2, hb⟩ := Act.bind_eq_ok.mp hb
      obtain ⟨len, ec₃, h3, hb⟩ := Act.bind_eq_ok.mp hb
      obtain ⟨rfl, rfl⟩ := Act.ret_eq_ok.mp hb
      obtain ⟨hs1, hc1, hst1, hnet1⟩ := hseat.withContext (doLocalOperations_sameSeat _ r) h1
      obtain ⟨hid1, context, hctx, hmy, hn⟩ := hs1
      obtain ⟨s₂, hs₂, rfl⟩ := withContext_eq hctx h2
      obtain ⟨⟨hnet2, hmy2, hn2⟩, hshape⟩ := networkPhases_shape _ [] hs₂ (Batch.Shape.empty _)
      obtain ⟨s₃, hs₃, rfl⟩ := withContext_eq rfl h3
      obtain ⟨hctx3, hnet3⟩ := sendRequests_eq hs₃
      refine ⟨h.round, htask, hrest, ?_, ?_, ⟨?_, s₃.context, rfl, ?_, ?_⟩, ?_, ?_⟩
      · exact hc1.trans h.plan
      · exact hst1.trans hsucc.symm
      · rw [hnet3]; exact (congrArg Link.id hnet2).trans hid1
      · rw [hctx3]; exact hmy2.trans hmy
      · rw [hctx3]; exact hn2.trans hn
      · rw [hnet3]
        funext q
        have : s₂.network.leaving = fun _ => [] := by
          rw [← hleaving, ← hnet1]; exact congrArg Link.leaving hnet2
        simp [Link.write, this]
      · rw [List.nil_append, hmy, hn] at hshape
        exact hshape

/-! ### What a stage sends and awaits -/

namespace StageAt

variable {circuit : AdditiveCircuit M} {p q : Fin n} {k : ℕ} {stage stage' : AdditiveStage M n}
  {inputs : Fin n → List (WireId × ℕ)}

theorem sends_eq (h : StageAt circuit p k stage) (q : Fin n) :
    (Cluster.program inputs).sends p stage q =
      (messageTo stage.batch.sendRequests q).map fun message => ⟨k, stage.batch.originsTo q, message⟩ := by
  simp only [Cluster.program, h.leaving, h.round]
  cases messageTo stage.batch.sendRequests q <;> rfl

/-- The requests of a stage name parties with a channel. -/
theorem available (hown : ∀ task ∈ circuit.tasks, ∀ op ∈ task.networkOperations, op.Owned n)
    (h : StageAt circuit p k stage) {link : Link n ℕ} (hid : link.id = p) :
    link.unavailable (stage.batch.receiveRequests.map ReceiveRequest.fromId) = none := by
  apply Link.unavailable_eq_none
  intro i hi
  obtain ⟨req, hreq, rfl⟩ := List.mem_map.mp hi
  rw [h.shape.receives] at hreq
  obtain ⟨op, hop, hreq⟩ := List.mem_flatMap.mp hreq
  obtain ⟨i, hfrom, rfl⟩ := List.mem_map.mp hreq
  rw [hid]
  exact AdditiveOperation.peersFrom_valid (hown _ (List.mem_of_getElem? h.task) op hop) hfrom

theorem awaits_iff (hown : ∀ task ∈ circuit.tasks, ∀ op ∈ task.networkOperations, op.Owned n)
    (h : StageAt circuit p k stage) (q : Fin n) :
    (Cluster.program inputs).awaits p stage q = true ↔
      positions (AdditiveOperation.peersFrom n p) stage.task.networkOperations q ≠ [] := by
  rw [← h.shape.mem_namedPeers_iff]
  simp [Cluster.program, h.available hown h.seated.1]

theorem sends_isSome_iff (h : StageAt circuit p k stage) (q : Fin n) :
    ((Cluster.program inputs).sends p stage q).isSome ↔
      positions (AdditiveOperation.peersTo n p) stage.task.networkOperations q ≠ [] := by
  rw [h.sends_eq, Option.isSome_map, h.shape.messageTo_isSome]

theorem task_eq (h : StageAt circuit p k stage) (h' : StageAt circuit q k stage') : stage.task = stage'.task :=
  Option.some.inj (h.task.symm.trans h'.task)

/-- A message answers the requests of the stage that awaits it. -/
theorem answers (h : StageAt circuit p k stage) (h' : StageAt circuit q k stage') {packet : Packet ℕ}
    (hs : (Cluster.program inputs).sends p stage q = some packet) :
    packet.round = stage'.round ∧
      (∃ objects, packet.message = .objects objects ∧ objects.length = stage'.batch.requested p ∧
        packet.origins.length = objects.length) ∧
      packet.origins = stage'.batch.originsFrom p := by
  have hpos := positions_eq p.2 q.2 stage.task.networkOperations
  rw [h.sends_eq] at hs
  obtain ⟨message, hm, rfl⟩ := Option.map_eq_some_iff.mp hs
  refine ⟨h'.round.symm, ?_, ?_⟩
  · unfold messageTo at hm
    split at hm
    · exact absurd hm (by simp)
    · refine ⟨_, (Option.some.inj hm).symm, ?_, ?_⟩
      · rw [h.shape.length_dataTo, h'.shape.requested_eq, ← h.task_eq h', hpos]
      · rw [h.shape.originsTo_eq, h.shape.length_dataTo]
  · rw [h.shape.originsTo_eq, h'.shape.originsFrom_eq, ← h.task_eq h', hpos]

/-- The count that a stage requests from a peer, request by request. -/
theorem sum_requested (stage : AdditiveStage M n) (i : ℕ) :
    (((stage.batch.receiveRequests).filter fun req => req.fromId = i).map fun req => expectedCount req.count).sum =
      stage.batch.requested i := by
  have := congrArg (List.map expectedCount) (requestsFrom_eq stage.batch.receiveRequests i)
  rw [List.map_map, List.map_map] at this
  exact congrArg List.sum this.symm

/-- What the messages of the peers hold, where those that the stage awaits are in. -/
theorem exists_objects (hown : ∀ task ∈ circuit.tasks, ∀ op ∈ task.networkOperations, op.Owned n)
    (h : StageAt circuit p k stage) {inbox : Fin n → Option (Packet ℕ)}
    (hin : ∀ q, (Cluster.program inputs).awaits p stage q = true → ∃ packet objects, inbox q = some packet ∧
      packet.message = .objects objects ∧ objects.length = stage.batch.requested q) :
    ∃ objects : ℕ → List ℕ, (∀ i, (objects i).length = stage.batch.requested i) ∧
      ∀ q ∈ namedPeers n stage.batch.receiveRequests, ∃ packet, inbox q = some packet ∧
        packet.message = .objects (objects q) := by
  have hex : ∀ i : ℕ, ∃ objects : List ℕ, objects.length = stage.batch.requested i ∧
      ∀ q ∈ namedPeers n stage.batch.receiveRequests, (q : ℕ) = i → ∃ packet, inbox q = some packet ∧
        packet.message = .objects objects := by
    intro i
    by_cases hi : ∃ q ∈ namedPeers n stage.batch.receiveRequests, (q : ℕ) = i
    · obtain ⟨q, hq, rfl⟩ := hi
      obtain ⟨packet, objects, hp, hm, hlen⟩ := hin q
        ((h.awaits_iff hown q).mpr ((h.shape.mem_namedPeers_iff q).mp hq))
      refine ⟨objects, hlen, fun q' _ hqq => ?_⟩
      obtain rfl : q' = q := Fin.ext hqq
      exact ⟨packet, hp, hm⟩
    · have hnone : ∀ req ∈ stage.batch.receiveRequests, req.fromId ≠ i := by
        intro req hreq hri
        -- a request for `i` would name `i` among the peers
        have havail := List.find?_eq_none.mp (h.available hown h.seated.1) i
          (List.mem_map.mpr ⟨req, hreq, hri⟩)
        have hlt : i < n := by
          by_contra hge
          exact havail (by simp [Link.channel, hge])
        exact hi ⟨⟨i, hlt⟩, mem_namedPeers.mpr ⟨req, hreq, hri⟩, rfl⟩
      refine ⟨[], ?_, fun q hq hqi => absurd ⟨q, hq, hqi⟩ hi⟩
      rw [← sum_requested, List.filter_eq_nil_iff.mpr (by simpa using hnone)]
      rfl
  choose objects h1 h2 using hex
  exact ⟨objects, h1, fun q hq => h2 q q hq rfl⟩

theorem recvRequests_ok (hown : ∀ task ∈ circuit.tasks, ∀ op ∈ task.networkOperations, op.Owned n)
    (h : StageAt circuit p k stage) {inbox : Fin n → Option (Packet ℕ)}
    (hin : ∀ q, (Cluster.program inputs).awaits p stage q = true → ∃ packet objects, inbox q = some packet ∧
      packet.message = .objects objects ∧ objects.length = stage.batch.requested q)
    (s : Exec AdditiveOperation ℕ ℕ AdditiveContext AdditivePending (Link n ℕ))
    (hs : s.network = stage.context.network.exchange inbox) :
    ∃ data len s', recvRequests stage.batch.receiveRequests s = (.ok (data, len), s') ∧
      s'.context = s.context ∧ s'.network.id = s.network.id ∧ s'.network.leaving = s.network.leaving := by
  obtain ⟨objects, hlen, hpacket⟩ := h.exists_objects hown hin
  obtain ⟨items, hfst, hcount, hitems⟩ := exists_items stage.batch.receiveRequests objects
    fun i => (hlen i).trans (sum_requested stage i).symm
  obtain ⟨len, hrecv⟩ := Link.recvMany_eq s.network Message.toObjects hcount
    (by rw [hfst, hs]; exact h.available hown h.seated.1)
    (fun q hq => by
      rw [hfst] at hq
      obtain ⟨packet, hp, hm⟩ := hpacket q hq
      exact ⟨packet.message, by simp [hs, Link.exchange, hp], by rw [hm, hitems]; rfl⟩)
  rw [hfst] at hrecv
  refine ⟨items.map Prod.snd, len, (recvRequests stage.batch.receiveRequests s).2, ?_, rfl, ?_, ?_⟩
  · exact Prod.ext (Outcome.mapErr_eq_ok.mpr (congrArg Prod.fst hrecv)) rfl
  · exact congrArg (fun x => x.2.id) hrecv
  · exact congrArg (fun x => x.2.leaving) hrecv

/-- The party after a task without a second half. -/
theorem silent (h : StageAt circuit p k stage) (inbox : Fin n → Option (Packet ℕ)) :
    PartyAt circuit p (k + 1) ⟨{ stage.context with network := stage.context.network.exchange inbox }, stage.todo,
      .ok (), stage.round + 1, stage.received ++ [fun q => (inbox q).map Packet.message]⟩ := by
  obtain ⟨hid, context, hctx, hmy, hn⟩ := h.seated
  exact ⟨congrArg (· + 1) h.round, h.todo, h.plan, h.state, fun _ => ⟨⟨hid, context, hctx, hmy, hn⟩, rfl⟩,
    fun f => by simp⟩

theorem seated_round (h : StageAt circuit p k stage) {inbox : Fin n → Option (Packet ℕ)} {context : AdditiveContext}
    (hctx : stage.context.schemeContext = some context)
    {s s' : Exec AdditiveOperation ℕ ℕ AdditiveContext AdditivePending (Link n ℕ)} (hcontext : s.context = context)
    (hid : s.network.id = (stage.context.network.exchange inbox).id)
    (hleaving : s.network.leaving = (stage.context.network.exchange inbox).leaving)
    {ops : List AdditiveOperation} {data : List (List ℕ)}
    (hs : finishNetworkOperations stage.context.circuit.scheme ops stage.batch data s = (.ok (), s')) :
    Seated p { stage.context with
      schemeContext := some s'.context, wireContents := s'.wireContents, network := s'.network, calls := s'.calls } ∧
      s'.network.leaving = fun _ => [] := by
  obtain ⟨hid', _, hctx', hmy, hn⟩ := h.seated
  obtain rfl : context = _ := Option.some.inj (hctx.symm.trans hctx')
  have hseat := finishNetworkOperations_sameSeat stage.context.circuit.scheme ops stage.batch data s
    (by rw [hs]; simp)
  rw [hs] at hseat
  obtain ⟨hnet, hmy', hn'⟩ := hseat
  have hnet : s'.network = s.network := hnet
  refine ⟨⟨?_, s'.context, rfl, hmy'.trans (by rw [hcontext]; exact hmy), hn'.trans (by rw [hcontext]; exact hn)⟩, ?_⟩
  · change s'.network.id = p
    rw [hnet, hid]
    exact hid'
  · rw [hnet, hleaving]
    rfl

/-- **The second half of a task**, with the awaited messages in. -/
theorem finish (hown : ∀ task ∈ circuit.tasks, ∀ op ∈ task.networkOperations, op.Owned n)
    (h : StageAt circuit p k stage) {inbox : Fin n → Option (Packet ℕ)}
    (hin : ∀ q, (Cluster.program inputs).awaits p stage q = true → ∃ packet objects, inbox q = some packet ∧
      packet.message = .objects objects ∧ objects.length = stage.batch.requested q) :
    PartyAt circuit p (k + 1) ((Cluster.program inputs).finish p stage inbox) := by
  obtain ⟨-, context, hctx, -, -⟩ := h.seated
  simp only [Cluster.program]
  rcases hc : stage.task.complete stage.context.circuit.scheme stage.batch
    { stage.context with network := stage.context.network.exchange inbox } with ⟨r, ec⟩
  simp only
  have hsilent : (.ok (), { stage.context with network := stage.context.network.exchange inbox }) = (r, ec) →
      PartyAt circuit p (k + 1) ⟨ec, stage.todo, r, stage.round + 1,
        stage.received ++ [fun q => (inbox q).map Packet.message]⟩ := by
    intro hc
    obtain ⟨rfl, rfl⟩ := Prod.mk.inj hc
    exact h.silent inbox
  cases htask : stage.task with
  | enter fnName required => rw [htask] at hc; exact hsilent hc
  | leave reached => rw [htask] at hc; exact hsilent hc
  | prepare => rw [htask] at hc; exact hsilent hc
  | round rd =>
      rw [htask] at hc
      obtain ⟨data, len, s₁, hrecv, hctx1, hid1, hleaving1⟩ := h.recvRequests_ok hown hin
        ⟨context, stage.context.wireContents, stage.context.network.exchange inbox, stage.context.calls⟩ rfl
      have hfirst : ExecutionContext.withContext (recvRequests stage.batch.receiveRequests)
          { stage.context with network := stage.context.network.exchange inbox } =
            (.ok (data, len), { stage.context with
              schemeContext := some s₁.context, wireContents := s₁.wireContents, network := s₁.network,
              calls := s₁.calls }) := by
        simp only [ExecutionContext.withContext, hctx, hrecv]
      rw [Task.complete, Act.bind_of_ok hfirst] at hc
      obtain ⟨s₂, hs₂, rfl⟩ := withContext_eq rfl hc
      refine ⟨congrArg (· + 1) h.round, h.todo, h.plan, h.state, ?_, ?_⟩
      · rintro rfl
        exact h.seated_round hctx hctx1 hid1 hleaving1 hs₂
      · intro f hf
        refine (finishNetworkOperations_ne_err stage.context.circuit.scheme f rd.networkOperations
          stage.batch data ⟨s₁.context, s₁.wireContents, s₁.network, s₁.calls⟩ trivial).1 ?_
        rw [hs₂]
        exact hf

end StageAt

/-! ### The lockstep run of a plan -/

namespace Cluster

variable {circuit : AdditiveCircuit M} {size : Message ℕ → ℕ} {draws : Fin n → Draws}
  {inputs : Fin n → List (WireId × ℕ)} {p q : Fin n} {k : ℕ}

/-- The parties of an additive computation after their handshakes. -/
def additiveParties (circuit : AdditiveCircuit M) (size : Message ℕ → ℕ) (draws : Fin n → Draws) (p : Fin n) :
    AdditiveParty M n :=
  handshaked circuit size ⟨p, n, .empty, draws p⟩ p

theorem partyAt_zero (circuit : AdditiveCircuit M) (size : Message ℕ → ℕ) (draws : Fin n → Draws) (p : Fin n) :
    PartyAt circuit p 0 (additiveParties circuit size draws p) :=
  ⟨rfl, rfl, rfl, rfl, fun _ => ⟨⟨rfl, _, rfl, rfl, rfl⟩, rfl⟩, fun _ => by simp [additiveParties, handshaked]⟩

theorem stageAt_of_staged
    (ih : ∀ p party, (program inputs).lock (additiveParties circuit size draws) k p = some party →
      PartyAt circuit p k party) {stage : AdditiveStage M n}
    (h : (program inputs).staged ((program inputs).lock (additiveParties circuit size draws) k) p = some stage) :
    StageAt circuit p k stage := by
  obtain ⟨party, hparty, hstart⟩ := RoundProgram.staged_eq_some.mp h
  obtain ⟨task, todo, batch, context, hok, htodo, hb, rfl⟩ := start_eq_inr hstart
  exact (ih p party hparty).begin hok htodo hb

/-- **The lockstep run**: after `k` tasks every party is where the plan says. -/
theorem partyAt (hown : ∀ task ∈ circuit.tasks, ∀ op ∈ task.networkOperations, op.Owned n) :
    ∀ (k : ℕ) (p : Fin n) (party : AdditiveParty M n),
      (program inputs).lock (additiveParties circuit size draws) k p = some party → PartyAt circuit p k party
  | 0, p, party, h => by
      obtain rfl := Option.some.inj h
      exact partyAt_zero circuit size draws p
  | k + 1, p, party, h => by
      have ih := partyAt hown k
      obtain ⟨stage, hstage, h⟩ := Option.bind_eq_some_iff.mp h
      have hat := stageAt_of_staged ih hstage
      split at h
      · next hposted =>
          obtain rfl := Option.some.inj h
          refine hat.finish hown fun q ha => ?_
          obtain ⟨packet, hpacket⟩ := Option.isSome_iff_exists.mp (hposted q ha)
          obtain ⟨stage', hstage', hsends⟩ := RoundProgram.posted_eq_some.mp hpacket
          obtain ⟨-, ⟨objects, hm, hlen, -⟩, -⟩ := (stageAt_of_staged ih hstage').answers hat hsends
          exact ⟨packet, objects, by rw [if_pos ha, hpacket], hm, hlen⟩
      · exact absurd h (by simp)

theorem stageAt (hown : ∀ task ∈ circuit.tasks, ∀ op ∈ task.networkOperations, op.Owned n)
    {stage : AdditiveStage M n}
    (h : (program inputs).staged ((program inputs).lock (additiveParties circuit size draws) k) p = some stage) :
    StageAt circuit p k stage :=
  stageAt_of_staged (partyAt hown k) h

/-- A party awaits exactly the parties that send to it. -/
theorem matched (hown : ∀ task ∈ circuit.tasks, ∀ op ∈ task.networkOperations, op.Owned n) :
    (program inputs).Matched (additiveParties circuit size draws) := by
  intro k p q stage stage' hp hq
  have hp := stageAt hown hp
  have hq := stageAt hown hq
  rw [hp.sends_isSome_iff, hq.awaits_iff hown, hp.task_eq hq, positions_eq p.2 q.2]

/-! ### No call of the network fails -/

theorem takeInputs_ne_schemeFault (msg : String) : ∀ (userInputs : List (WireId × ℕ)) (inputWires : PMap WireId Bool)
    (ins : List (WireId × ℕ)), takeInputs userInputs inputWires ins ≠ .err (schemeFault msg)
  | [], _, _ => by simp [takeInputs]
  | (wireId, input) :: userInputs, inputWires, ins => by
      unfold takeInputs
      split
      · exact takeInputs_ne_schemeFault msg _ _ _
      · simp [schemeFault]
      · simp [schemeFault]

theorem prepareInput_ne_schemeFault (msg : String) (ins : List (WireId × ℕ)) :
    Act.Avoids (fun _ => True) (schemeFault msg)
      (ExecutionContext.prepareInput ins : Act (AdditiveExecution M n) Fault Unit) := by
  refine Act.Avoids.bind (fun ec _ => ⟨?_, trivial⟩) fun _ => ?_
  · simp only [ExecutionContext.assertState]
    split <;> simp [schemeFault]
  intro ec _
  rw [Act.read_bind]
  refine Act.Avoids.bind (I := fun _ => True) (Act.Avoids.ret (ExecutionContext.firstOutputs_ne _ _))
    (fun wireIds => ?_) ec trivial
  refine (Act.Avoids.ret (takeInputs_ne_schemeFault msg _ _ _)).bind fun taken => ?_
  split
  · exact Act.Avoids.ret (by simp [schemeFault])
  · refine Act.Avoids.bind (fun ec _ => ⟨?_, trivial⟩) fun _ => fun _ _ => ⟨by simp [ExecutionContext.setState], trivial⟩
    simp only [ExecutionContext.prepareUserInput]
    split <;> simp [schemeFault]

theorem withContext_ne {α : Type}
    {x : Act (Exec AdditiveOperation ℕ ℕ AdditiveContext AdditivePending (Link n ℕ)) Fault α} {f : Fault}
    (hx : Act.Avoids (fun _ => True) f x) {ec ec' : AdditiveExecution M n} (hseat : Seated p ec)
    (h : ExecutionContext.withContext x ec = (.err f, ec')) : False := by
  obtain ⟨-, context, hctx, -⟩ := hseat
  obtain ⟨s, hs, -⟩ := withContext_eq hctx h
  exact (hx _ trivial).1 (by rw [hs])

/-- The start of a task does not fail with an error of the scheme or the network. -/
theorem begin_ne_schemeFault {party : AdditiveParty M n} (h : PartyAt circuit p k party)
    (hok : party.outcome = .ok ()) {ins : List (WireId × ℕ)} {task : Task AdditiveOperation} {msg : String}
    {ec : AdditiveExecution M n}
    (hb : task.begin party.context.circuit.scheme ins party.context = (.err (schemeFault msg), ec)) : False := by
  obtain ⟨hseat, -⟩ := h.seated hok
  unfold Task.begin at hb
  cases task with
  | enter fnName required =>
      obtain ⟨_, ec₁, -, hb⟩ | ⟨r, h1, hf⟩ := Act.bind_cases hb
      · exact absurd (Prod.mk.inj hb).1 (by simp)
      · rw [hf.eq_err] at h1
        have h1 := (Prod.mk.inj h1).1
        split at h1 <;> simp [schemeFault] at h1
  | leave reached => exact absurd (Prod.mk.inj hb).1 (by simp)
  | prepare =>
      obtain ⟨_, ec₁, -, hb⟩ | ⟨r, h1, hf⟩ := Act.bind_cases hb
      · exact absurd (Prod.mk.inj hb).1 (by simp)
      · rw [hf.eq_err] at h1
        exact (prepareInput_ne_schemeFault msg ins party.context trivial).1 (by rw [h1])
  | round rd =>
      obtain ⟨_, ec₁, h1, hb⟩ | ⟨r, h1, hf⟩ := Act.bind_cases hb
      · obtain ⟨hs1, -, -, -⟩ := hseat.withContext (doLocalOperations_sameSeat _ rd) h1
        obtain ⟨batch, ec₂, h2, hb⟩ | ⟨r, h2, hf⟩ := Act.bind_cases hb
        · obtain ⟨hid, context, hctx, hmy, hn⟩ := hs1
          obtain ⟨s₂, hs₂, rfl⟩ := withContext_eq hctx h2
          obtain ⟨⟨hnet, hmy2, hn2⟩, hshape⟩ := networkPhases_shape _ [] hs₂ (Batch.Shape.empty _)
          have hnet : s₂.network = ec₁.network := hnet
          have hopen : s₂.network.unavailable (batch.sendRequests.map SendRequest.toId) = none := by
            apply Link.unavailable_eq_none
            intro i hi
            rw [hshape.sends] at hi
            obtain ⟨op, -, hi⟩ := List.mem_flatMap.mp hi
            obtain ⟨hlt, hne⟩ := AdditiveOperation.peersTo_valid hi
            simp only [hmy, hn] at hlt hne
            exact ⟨hlt, by rw [hnet, hid]; exact hne⟩
          obtain ⟨len, ec₃, -, hb⟩ | ⟨r, h3, hf⟩ := Act.bind_cases hb
          · exact absurd (Prod.mk.inj hb).1 (by simp)
          · rw [hf.eq_err] at h3
            obtain ⟨s₃, hs₃, -⟩ := withContext_eq rfl h3
            have hsend := (Prod.mk.inj hs₃).1
            have hsend : (Link.sendObjectsMany batch.sendRequests s₂.network).1.mapErr schemeFault =
              .err (schemeFault msg) := hsend
            rw [Link.sendObjectsMany, hopen] at hsend
            exact absurd hsend (by simp [Outcome.mapErr])
        · rw [hf.eq_err] at h2
          exact withContext_ne (networkPhases_ne_err _ _ _ _) hs1 h2
      · rw [hf.eq_err] at h1
        exact withContext_ne (doLocalOperations_ne_err _ _ _) hseat h1

/-! ### Every reachable net -/

/-- The party is at rest, and its execution is finished. -/
def Finished (net : AdditiveNet M n) (p : Fin n) : Prop :=
  match net.proc p with
  | .idle party => party.context.executionState = .finished
  | _ => False

instance (net : AdditiveNet M n) (p : Fin n) : Decidable (Finished net p) := by
  unfold Finished
  split <;> infer_instance

theorem Finished.idle {net : AdditiveNet M n} (h : Finished net p) :
    ∃ party, net.proc p = .idle party ∧ party.context.executionState = .finished := by
  unfold Finished at h
  split at h
  · next party hp => exact ⟨party, hp, h⟩
  · exact h.elim

theorem owned_tasks (hown : ∀ op ∈ circuit.operations, op.Owned n) :
    ∀ task ∈ circuit.tasks, ∀ op ∈ task.networkOperations, op.Owned n := by
  intro task htask op hop
  cases task with
  | round r =>
      have hr : r ∈ circuit.offlineRounds ∨ r ∈ circuit.onlineRounds := by
        simpa [MpcCircuit.tasks] using htask
      have hop : op ∈ r.operations := List.mem_append_right _ hop
      refine hown op (List.mem_append.mpr ?_)
      exact hr.imp (fun hr => List.mem_flatMap.mpr ⟨r, hr, hop⟩) fun hr => List.mem_flatMap.mpr ⟨r, hr, hop⟩
  | enter fnName required => exact absurd hop (by simp [Task.networkOperations])
  | leave reached => exact absurd hop (by simp [Task.networkOperations])
  | prepare => exact absurd hop (by simp [Task.networkOperations])

theorem count_le_length {count : Fin n → ℕ} {net : AdditiveNet M n}
    (hown : ∀ task ∈ circuit.tasks, ∀ op ∈ task.networkOperations, op.Owned n)
    (h : (program inputs).Synced (additiveParties circuit size draws) count net) (p : Fin n) :
    count p ≤ circuit.tasks.length := by
  by_contra hlt
  obtain ⟨party, hparty⟩ := h.locked p
  obtain ⟨stage, hstage⟩ := RoundProgram.staged_of_lt hparty (Nat.lt_of_not_le hlt)
  have htask := (stageAt hown hstage).task
  rw [List.getElem?_eq_none le_rfl] at htask
  exact absurd htask (by simp)

/-- A finished party has ended all tasks. -/
theorem count_of_finished {count : Fin n → ℕ} {net : AdditiveNet M n}
    (hown : ∀ task ∈ circuit.tasks, ∀ op ∈ task.networkOperations, op.Owned n)
    (h : (program inputs).Synced (additiveParties circuit size draws) count net) (hf : Finished net p) :
    count p = circuit.tasks.length := by
  obtain ⟨party, hp, hstate⟩ := hf.idle
  have hat := partyAt hown _ _ _ (h.lock_idle hp)
  exact le_antisymm (count_le_length hown h p) (length_le_of_finished (hat.state.symm.trans hstate))

/-- **Lock-step message matching.**  In every reachable net the first unread message on the channel
to a party that awaits one is of that party's round, holds as many elements as are requested, each
from the operation of its request; no party's call fails with an error of the network; and once all
parties are finished every channel is empty. -/
theorem lockstep (circuit : AdditiveCircuit M) (hown : ∀ op ∈ circuit.operations, op.Owned n)
    (size : Message ℕ → ℕ) (draws : Fin n → Draws) (inputs : Fin n → List (WireId × ℕ)) (net : AdditiveNet M n)
    (hreach : (program inputs).Reachable (RoundProgram.initial (additiveParties circuit size draws)) net) :
    (∀ i j stage outbox inbox packet rest, net.proc j = .busy stage outbox inbox →
      (program inputs).awaits j stage i = true → inbox i = none → net.channel i j = packet :: rest →
        packet.round = stage.round ∧
        (∃ objects, packet.message = .objects objects ∧ objects.length = stage.batch.requested i ∧
          packet.origins.length = objects.length) ∧
        packet.origins = stage.batch.originsFrom i) ∧
    (∀ p party msg, net.proc p = .idle party ∨ net.proc p = .stopped party →
      party.outcome ≠ .err (schemeFault msg)) ∧
    ((∀ p, Finished net p) → ∀ i j, net.channel i j = []) := by
  have hown := owned_tasks hown
  obtain ⟨count, hsync⟩ := hreach.synced (matched hown)
  refine ⟨fun i j stage outbox inbox packet rest hj ha hin hc => ?_, fun p party msg hp => ?_, fun hf i j => ?_⟩
  · obtain ⟨hposted, -, -⟩ := hsync.unread (matched hown) hj ha hin hc
    obtain ⟨stage', hstage', hsends⟩ := RoundProgram.posted_eq_some.mp hposted
    exact (stageAt hown hstage').answers (stageAt hown (hsync.staged hj)) hsends
  · have hat := hsync.proc p
    obtain hp | hp := hp
    · exact (partyAt hown _ _ _ (hsync.lock_idle hp)).safe _
    · rw [hp] at hat
      cases hat with
      | stopped hlock hstop =>
          obtain ⟨task, todo, outcome, context, hok, -, hb, hne, rfl⟩ := start_eq_inl hstop
          intro hmsg
          obtain rfl | ⟨batch, rfl, -⟩ := Outcome.bind_eq_err.mp hmsg
          · exact begin_ne_schemeFault (partyAt hown _ _ _ hlock) hok hb
          · exact hne batch rfl
  · refine hsync.channel_empty (fun p => ?_) (fun p q => ?_) i j
    · obtain ⟨party, hp, -⟩ := (hf p).idle
      exact ⟨party, hp⟩
    · rw [count_of_finished hown hsync (hf p), count_of_finished hown hsync (hf q)]

/-- Two inputs and their sum, opened. -/
def openedSum : AdditiveCircuit 100 :=
  ⟨⟨⟩, [⟨[], []⟩], [⟨[], [.input 0 ⟨0⟩, .input 1 ⟨1⟩]⟩, ⟨[.add ⟨0⟩ ⟨1⟩ ⟨2⟩], [.reveal ⟨2⟩ ⟨3⟩]⟩]⟩

/-- Party 0 gives 30, party 1 gives 35. -/
def openedSumInputs (p : Fin 2) : List (WireId × ℕ) := [(⟨p⟩, 30 + 5 * p)]

/-- Some draws below the modulus. -/
def openedSumDraws (p : Fin 2) : Draws := fun k => (11 * p + 3 * k + 2) % 100

/-- Both parties before their rounds. -/
def openedSumStart : AdditiveNet 100 2 :=
  RoundProgram.initial (additiveParties openedSum (fun _ => 1) openedSumDraws)

/-- Party 0 runs ahead as far as it can, then the parties open the sum. -/
def openedSumEvents : List (RoundProgram.Event (Fin 2)) :=
  let task (p : Fin 2) : List (RoundProgram.Event (Fin 2)) := [.start p, .finish p]
  let exchange : List (RoundProgram.Event (Fin 2)) :=
    [.start 0, .send 0 1, .start 1, .send 1 0, .recv 1 0, .finish 1, .recv 0 1, .finish 0]
  (List.replicate 5 (task 0)).flatten ++ (List.replicate 5 (task 1)).flatten ++ exchange ++ exchange ++ task 0 ++ task 1

theorem lockstep_openedSum : ∃ net, (program openedSumInputs).run openedSumStart openedSumEvents = some net ∧
    (∀ p, Finished net p) ∧ ∀ i j, net.channel i j = [] := by
  have hsome : ((program openedSumInputs).run openedSumStart openedSumEvents).isSome = true := by decide +kernel
  have hfin : ∀ net ∈ (program openedSumInputs).run openedSumStart openedSumEvents, ∀ p, Finished net p := by
    decide +kernel
  obtain ⟨net, hnet⟩ := Option.isSome_iff_exists.mp hsome
  have hlock := lockstep openedSum (by decide) (fun _ => 1) openedSumDraws openedSumInputs net
    (RoundProgram.Reachable.refl.run hnet)
  exact ⟨net, hnet, hfin net hnet, hlock.2.2 (hfin net hnet)⟩

end Cluster

end MpcCore
