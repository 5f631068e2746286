import MpcCore.ClusterCorrectness
import MpcCore.Lib.Schedules

/-! # All schedules of a cluster

What the order in which the parties and the network proceed decides: nothing, as long as no send and no
receive fails.

* `Act.Logs` of the pieces of a task: a piece that succeeds has made no call of the network that failed.
* `Cluster.Clean`: no call of the network has failed, and the messages taken so far can be read and split.  A net
  from which a clean one can be reached is clean (`Clean.of_run`), so in its runs the order in which the receives
  of a party are done does not matter.
* `Cluster.oneOutcome`: for any scheme, any circuits and any inputs, when one run ends cleanly, all runs come to
  its end, with the same events in another order.
* `Cluster.everySchedule`: with an accepted plan and accepted inputs, every run is clean and can be continued, and
  one that cannot go on has all parties finished, nothing unread, and the right values on the wires. -/

namespace MpcCore

open Operation MpcScheme ExecutionContext

/-! ### The calls that a task makes -/

/-- A call of the network that succeeded, or one of the scheme. -/
def Call.networkOk {Op Wire Elem Pending : Type} : Call Op Wire Elem Pending → Bool
  | send _ r => r.isOk
  | recv _ r => r.isOk
  | networkPhase .. | finalizePhase .. => true

section logs

variable {S Op Wire Elem Input Ctx Pending N : Type} [Operation Op] [MpcScheme S Op Wire Elem Input Ctx Pending]
  [Network N Elem] (scheme : S)

omit [Network N Elem] in
theorem networkPhase_logs (op : Op) :
    Act.Logs Exec.calls (Call.networkOk · = true)
      (networkPhase scheme op : Act (Exec Op Wire Elem Ctx Pending N) Fault _) := by
  intro s
  obtain ⟨ins, r, context, -, hrun⟩ | hrun := networkPhase_cases scheme op s
  · rw [hrun]
    exact ⟨_, rfl, by simp [Call.networkOk]⟩
  · rw [hrun]
    exact ⟨[], by simp, by simp⟩

omit [Operation Op] [Network N Elem] in
theorem finalizePhase_logs (op : Op) (pending : Pending) (data : List Elem) :
    Act.Logs Exec.calls (Call.networkOk · = true)
      (finalizePhase scheme op pending data : Act (Exec Op Wire Elem Ctx Pending N) Fault _) :=
  fun _ => ⟨_, rfl, by simp [Call.networkOk]⟩

omit [Operation Op] [MpcScheme S Op Wire Elem Input Ctx Pending] [Network N Elem] in
theorem storeWires_logs : ∀ (ws : List WireId) (vs : List Wire),
    Act.Logs Exec.calls (Call.networkOk · = true)
      (storeWires ws vs : Act (Exec Op Wire Elem Ctx Pending N) Fault Unit)
  | [], [] | [], _ :: _ | _ :: _, [] => .ret _
  | _ :: ws, _ :: vs => .bind (.of_same fun _ => rfl) fun _ => storeWires_logs ws vs

omit [Network N Elem] in
theorem doLocalOperations_logs (round : Round Op) :
    Act.Logs Exec.calls (Call.networkOk · = true)
      (doLocalOperations scheme round : Act (Exec Op Wire Elem Ctx Pending N) Fault Unit) :=
  .each (fun op => (networkPhase_logs scheme op).bind fun _ => (Act.Logs.ret _).bind fun _ =>
    (Act.Logs.ret _).bind fun _ => (finalizePhase_logs scheme op _ _).bind fun _ => storeWires_logs _ _) _

omit [Network N Elem] in
theorem networkPhases_logs : ∀ (ops : List Op) (batch : Batch Elem Pending),
    Act.Logs Exec.calls (Call.networkOk · = true)
      (networkPhases scheme ops batch : Act (Exec Op Wire Elem Ctx Pending N) Fault _)
  | [], _ => .ret _
  | op :: ops, _ => (networkPhase_logs scheme op).bind fun _ => networkPhases_logs ops _

omit [Operation Op] [Network N Elem] in
theorem finalizePhases_logs : ∀ (ops : List (Op × Pending × ℕ)) (data : List (List Elem)) (results : List (Op × List Wire)),
    Act.Logs Exec.calls (Call.networkOk · = true)
      (finalizePhases scheme ops data results : Act (Exec Op Wire Elem Ctx Pending N) Fault _)
  | [], _, _ => .ret _
  | (op, pending, _) :: ops, _, _ => (finalizePhase_logs scheme op pending _).bind fun _ => finalizePhases_logs ops _ _

omit [Network N Elem] in
theorem finishNetworkOperations_logs (ops : List Op) (batch : Batch Elem Pending) (data : List (List Elem)) :
    Act.Logs Exec.calls (Call.networkOk · = true)
      (finishNetworkOperations scheme ops batch data : Act (Exec Op Wire Elem Ctx Pending N) Fault Unit) :=
  (finalizePhases_logs scheme _ _ _).bind fun _ => .each (fun _ => storeWires_logs _ _) _

theorem isOk_of_mapErr {α : Type} {x : Outcome String α} (h : (x.mapErr schemeFault).isOk = true) : x.isOk = true := by
  cases x <;> first | rfl | cases h

omit [Operation Op] [MpcScheme S Op Wire Elem Input Ctx Pending] in
theorem sendRequests_logs (requests : List (SendRequest Elem)) :
    Act.Logs Exec.calls (Call.networkOk · = true)
      (sendRequests requests : Act (Exec Op Wire Elem Ctx Pending N) Fault ℕ) :=
  fun _ => ⟨_, rfl, fun h _ hc => List.mem_singleton.mp hc ▸ isOk_of_mapErr h⟩

omit [Operation Op] [MpcScheme S Op Wire Elem Input Ctx Pending] in
theorem recvRequests_logs (requests : List ReceiveRequest) :
    Act.Logs Exec.calls (Call.networkOk · = true)
      (recvRequests requests : Act (Exec Op Wire Elem Ctx Pending N) Fault _) :=
  fun _ => ⟨_, rfl, fun h _ hc => List.mem_singleton.mp hc ▸ isOk_of_mapErr h⟩

omit [Operation Op] [MpcScheme S Op Wire Elem Input Ctx Pending] [Network N Elem] in
theorem withContext_logs {α : Type} {x : Act (Exec Op Wire Elem Ctx Pending N) Fault α}
    (hx : Act.Logs Exec.calls (Call.networkOk · = true) x) :
    Act.Logs calls (Call.networkOk · = true)
      (withContext x : Act (ExecutionContext S Op Wire Elem Ctx Pending N) Fault α) := by
  intro ec
  unfold withContext
  cases hctx : ec.schemeContext with
  | none => exact ⟨[], by simp, by simp⟩
  | some context => exact hx ⟨context, ec.wireContents, ec.network, ec.calls⟩

theorem prepareInput_logs (inputs : List (WireId × Input)) :
    Act.Logs calls (Call.networkOk · = true)
      (prepareInput inputs : Act (ExecutionContext S Op Wire Elem Ctx Pending N) Fault Unit) := by
  refine .bind (.of_same fun _ => rfl) fun _ => .bind (.of_same fun _ => rfl) fun _ => (Act.Logs.ret _).bind fun _ =>
    (Act.Logs.ret _).bind fun taken => ?_
  split
  · exact .ret _
  · refine .bind (.of_same fun ec => ?_) fun _ => .of_same fun _ => rfl
    unfold ExecutionContext.prepareUserInput
    split <;> rfl

theorem begin_logs (inputs : List (WireId × Input)) (task : Task Op) :
    Act.Logs calls (Call.networkOk · = true)
      (task.begin scheme inputs : Act (ExecutionContext S Op Wire Elem Ctx Pending N) Fault _) := by
  cases task with
  | enter fnName required => exact .bind (.of_same fun _ => rfl) fun _ => .ret _
  | round r =>
      exact (withContext_logs (doLocalOperations_logs scheme r)).bind fun _ =>
        (withContext_logs (networkPhases_logs scheme _ _)).bind fun _ =>
          (withContext_logs (sendRequests_logs _)).bind fun _ => .ret _
  | leave reached => exact .bind (.of_same fun _ => rfl) fun _ => .ret _
  | prepare => exact (prepareInput_logs inputs).bind fun _ => .ret _

theorem complete_logs (task : Task Op) (batch : Batch Elem Pending) :
    Act.Logs calls (Call.networkOk · = true)
      (task.complete scheme batch : Act (ExecutionContext S Op Wire Elem Ctx Pending N) Fault Unit) := by
  cases task with
  | round r =>
      exact (withContext_logs (recvRequests_logs _)).bind fun _ =>
        withContext_logs (finishNetworkOperations_logs scheme _ _ _)
  | enter fnName required => exact .ret _
  | leave reached => exact .ret _
  | prepare => exact .ret _

end logs

namespace Cluster

section

variable {S Op Wire Elem Input Ctx Pending : Type} {n : ℕ} [Operation Op]
  [MpcScheme S Op Wire Elem Input Ctx Pending]

/-- A party has one task less to go after each round. -/
theorem program_ranked (inputs : Fin n → List (WireId × Input)) :
    RoundProgram.Ranked
      (program inputs : RoundProgram (Fin n) (Party S Op Wire Elem Ctx Pending n) _ (Packet Elem))
      (fun party => party.todo.length) (fun stage => stage.todo.length) where
  start h := by
    obtain ⟨task, todo, _, _, -, htodo, -, rfl⟩ := start_eq_inr h
    rw [htodo]
    exact Nat.lt_succ_self _
  finish _ _ _ := le_rfl

/-- The number of events of a party that has some tasks to go, at most: each takes a start, a message to
every party, one from every party, and an end, and a start may fail. -/
def eventsOf (n tasks : ℕ) : ℕ := 1 + tasks * (2 * n + 2)

theorem length_le_of_run {inputs : Fin n → List (WireId × Input)} {parties : Fin n → Party S Op Wire Elem Ctx Pending n}
    {events : List (RoundProgram.Event (Fin n))}
    {net : RoundProgram.Net (Fin n) (Party S Op Wire Elem Ctx Pending n) (Stage S Op Wire Elem Ctx Pending n)
      (Packet Elem)}
    (hrun : (program inputs).run (RoundProgram.initial parties) events = some net) :
    events.length ≤ ∑ p, eventsOf n (parties p).todo.length := by
  calc events.length ≤ _ := Nat.le_of_add_right_le (RoundProgram.run_length_le (program_ranked inputs) hrun)
    _ = ∑ p, eventsOf n (parties p).todo.length := by
      simp only [RoundProgram.Net.left, RoundProgram.initial, RoundProgram.Proc.left, Fintype.card_fin, eventsOf]

/-! ### Runs without a failing call of the network -/

/-- All calls of the network that a context has made have succeeded. -/
def Unfailing (context : ExecutionContext S Op Wire Elem Ctx Pending (Link n Elem)) : Prop :=
  ∀ c ∈ context.calls, c.networkOk = true

/-- The receive with which a task ends can read the message of a peer, and split it. -/
def canTake (stage : Stage S Op Wire Elem Ctx Pending n) (q : Fin n) (packet : Packet Elem) : Bool :=
  (packet.message.toObjects.bind (splitObjects (requestsFrom stage.batch.receiveRequests q))).isOk

/-- At a party no call of the network has failed, and none fails on the messages that it has taken in its task. -/
def CleanAt : RoundProgram.Proc (Fin n) (Party S Op Wire Elem Ctx Pending n) (Stage S Op Wire Elem Ctx Pending n)
    (Packet Elem) → Prop
  | .idle party | .stopped party => Unfailing party.context
  | .busy stage _ inbox => Unfailing stage.context ∧
      ∀ q ∈ namedPeers n stage.batch.receiveRequests, ∀ packet ∈ inbox q, canTake stage q packet = true

/-- No call of the network has failed, and none fails on the messages that the parties have taken. -/
def Clean (net : RoundProgram.Net (Fin n) (Party S Op Wire Elem Ctx Pending n) (Stage S Op Wire Elem Ctx Pending n)
    (Packet Elem)) : Prop :=
  ∀ p, CleanAt (net.proc p)

instance (proc : RoundProgram.Proc (Fin n) (Party S Op Wire Elem Ctx Pending n) (Stage S Op Wire Elem Ctx Pending n)
    (Packet Elem)) : Decidable (CleanAt proc) := by
  unfold CleanAt Unfailing
  split <;> infer_instance

instance (net : RoundProgram.Net (Fin n) (Party S Op Wire Elem Ctx Pending n) (Stage S Op Wire Elem Ctx Pending n)
    (Packet Elem)) : Decidable (Clean net) :=
  inferInstanceAs (Decidable (∀ p, CleanAt (net.proc p)))

variable {inputs : Fin n → List (WireId × Input)} {parties : Fin n → Party S Op Wire Elem Ctx Pending n}
  {net net' : RoundProgram.Net (Fin n) (Party S Op Wire Elem Ctx Pending n) (Stage S Op Wire Elem Ctx Pending n)
    (Packet Elem)}

/-- What a start leaves: the second half of a round has a context, and that of another task receives nothing. -/
def Begun (stage : Stage S Op Wire Elem Ctx Pending n) : Prop :=
  match stage.task with
  | .round _ => stage.context.schemeContext.isSome = true
  | _ => stage.batch.receiveRequests = []

omit [Operation Op] [MpcScheme S Op Wire Elem Input Ctx Pending] in
theorem isSome_of_withContext {N α : Type} {x : Act (Exec Op Wire Elem Ctx Pending N) Fault α} {a : α}
    {ec ec' : ExecutionContext S Op Wire Elem Ctx Pending N} (h : withContext x ec = (.ok a, ec')) :
    ec'.schemeContext.isSome = true := by
  unfold withContext at h
  split at h
  · cases (Prod.mk.inj h).1
  · obtain ⟨-, rfl⟩ := Prod.mk.inj h
    rfl

theorem begun_of_start {p : Fin n} {party : Party S Op Wire Elem Ctx Pending n}
    {stage : Stage S Op Wire Elem Ctx Pending n} (h : (program inputs).start p party = some (.inr stage)) :
    Begun stage := by
  obtain ⟨task, todo, batch, context, -, -, hb, rfl⟩ := start_eq_inr h
  unfold Task.begin at hb
  cases task with
  | round r =>
      obtain ⟨_, _, -, hb⟩ := Act.bind_eq_ok.mp hb
      obtain ⟨_, _, -, hb⟩ := Act.bind_eq_ok.mp hb
      obtain ⟨_, _, hsend, hret⟩ := Act.bind_eq_ok.mp hb
      obtain ⟨-, rfl⟩ := Prod.mk.inj hret
      exact isSome_of_withContext hsend
  | enter _ _ | leave _ | prepare =>
      obtain ⟨_, _, -, hret⟩ := Act.bind_eq_ok.mp hb
      obtain rfl := Outcome.ok.inj (Prod.mk.inj hret).1
      rfl

/-- The receive of a round is among its calls, however the round ends. -/
theorem recv_mem_calls {scheme : S} {r : Round Op} {batch : Batch Elem Pending}
    {ec : ExecutionContext S Op Wire Elem Ctx Pending (Link n Elem)} (hctx : ec.schemeContext.isSome = true) :
    .recv batch.receiveRequests (Link.recvMany Message.toObjects batch.receiveRequests ec.network).1 ∈
      ((Task.round r).complete scheme batch ec).2.calls := by
  obtain ⟨context, hctx⟩ := Option.isSome_iff_exists.mp hctx
  refine Act.Logs.mem_bind (fun _ => withContext_logs (finishNetworkOperations_logs scheme _ _ _)) ?_
  simp only [withContext, hctx]
  exact List.mem_append_right _ (List.mem_singleton_self _)

/-- A task that ends without a failing receive has taken messages that could be read and split. -/
theorem canTake_of_complete {stage : Stage S Op Wire Elem Ctx Pending n} (hbegun : Begun stage)
    {inbox : Fin n → Option (Packet Elem)}
    (h : Unfailing (stage.task.complete stage.context.circuit.scheme stage.batch
      { stage.context with network := stage.context.network.exchange inbox }).2) :
    ∀ q ∈ namedPeers n stage.batch.receiveRequests, ∀ packet ∈ inbox q, canTake stage q packet = true := by
  intro q hq packet hpacket
  unfold Begun at hbegun
  split at hbegun
  · next r htask =>
      rw [htask] at h
      obtain ⟨received, hrecv⟩ := Outcome.isOk_iff.mp (h _ (recv_mem_calls hbegun))
      obtain ⟨m, objects, chunks, hhead, hread, hsplit⟩ := Link.split_of_recvMany (Prod.ext hrecv rfl) q hq
      obtain rfl : packet.message = m := by simpa [Link.exchange, Option.mem_def.mp hpacket] using hhead
      rw [canTake, hread, Outcome.ok_bind, hsplit]
      rfl
  · rw [hbegun] at hq
    simp [namedPeers] at hq

omit [Operation Op] in
theorem Clean.of_setProc {p : Fin n} {proc : RoundProgram.Proc (Fin n) (Party S Op Wire Elem Ctx Pending n)
      (Stage S Op Wire Elem Ctx Pending n) (Packet Elem)}
    (h : Clean (net.setProc p proc)) (hp : CleanAt proc → CleanAt (net.proc p)) : Clean net := by
  intro x
  have hx := h x
  by_cases hxp : x = p
  · subst hxp
    rw [RoundProgram.Net.setProc_same] at hx
    exact hp hx
  · rwa [RoundProgram.Net.setProc_ne _ _ _ hxp] at hx

/-- **A step into a clean net** is one from a clean net. -/
theorem Clean.of_step (hreach : (program inputs).Reachable (RoundProgram.initial parties) net)
    {ev : RoundProgram.Event (Fin n)} (hs : (program inputs).step net ev = some net') (h : Clean net') : Clean net := by
  cases RoundProgram.stepTo_of_step hs with
  | @stop p party party' hp hstop =>
      obtain ⟨task, _, outcome, context, -, -, hb, -, rfl⟩ := start_eq_inl hstop
      refine h.of_setProc fun hclean => ?_
      rw [hp]
      exact (begin_logs _ (inputs p) task).before hb hclean
  | @start p party stage hp hstart =>
      obtain ⟨task, _, batch, context, -, -, hb, rfl⟩ := start_eq_inr hstart
      refine h.of_setProc fun hclean => ?_
      rw [hp]
      exact (begin_logs _ (inputs p) task).before hb hclean.1
  | @send p q stage outbox inbox m hp _ =>
      refine Clean.of_setProc h fun hclean => ?_
      rw [hp]
      exact hclean
  | @recv p q stage outbox inbox m ms hp _ hin _ =>
      refine Clean.of_setProc h fun hclean => ?_
      rw [hp]
      refine ⟨hclean.1, fun x hx packet hpacket => hclean.2 x hx packet ?_⟩
      have hne : x ≠ q := by
        rintro rfl
        rw [hin] at hpacket
        cases hpacket
      rwa [Function.update_of_ne hne]
  | @finish p stage outbox inbox hp _ _ =>
      have hbegun : (net.proc p).Has (fun _ => True) Begun :=
        hreach.has (I := fun _ _ => True) (B := fun _ => Begun) (fun _ => trivial)
          (fun _ _ _ _ => begun_of_start) (fun _ _ _ _ => trivial) p
      rw [hp] at hbegun
      refine h.of_setProc fun hclean => ?_
      rw [hp]
      exact ⟨(complete_logs _ stage.task stage.batch).before
        (s := { stage.context with network := stage.context.network.exchange inbox }) rfl hclean,
        canTake_of_complete hbegun hclean⟩

/-- **A run into a clean net** is clean at every point. -/
theorem Clean.of_run {events : List (RoundProgram.Event (Fin n))}
    (hreach : (program inputs).Reachable (RoundProgram.initial parties) net)
    (hrun : (program inputs).run net events = some net') (h : Clean net') : Clean net := by
  induction events generalizing net with
  | nil =>
      obtain rfl := Option.some.inj hrun
      exact h
  | cons ev events ih =>
      obtain ⟨net₁, hs, hrest⟩ := Option.bind_eq_some_iff.mp hrun
      exact .of_step hreach hs (ih (hreach.step hs) hrest)

/-- Parties whose calls have all succeeded have made no call of the network that failed. -/
theorem clean_of_ok (hstart : ∀ p, (parties p).context.calls = [])
    (hreach : (program inputs).Reachable (RoundProgram.initial parties) net)
    (hidle : ∀ p, ∃ party, net.proc p = .idle party ∧ party.outcome = .ok ()) : Clean net := by
  intro p
  obtain ⟨party, hp, hok⟩ := hidle p
  have hhas := hreach.has (I := fun _ party => party.outcome = .ok () → Unfailing party.context)
    (B := fun _ stage => Unfailing stage.context) (fun p _ c hc => by rw [hstart] at hc; cases hc)
    (fun p party stage hparty hs => ?_) (fun p stage inbox hstage hok => ?_) p
  · rw [hp] at hhas ⊢
    exact hhas hok
  · obtain ⟨task, _, batch, context, hok, -, hb, rfl⟩ := start_eq_inr hs
    exact (begin_logs _ (inputs p) task).after hb (hparty hok)
  · exact (complete_logs _ stage.task stage.batch).after (Prod.ext hok rfl) hstage

/-- **One outcome.**  When one run ends with no call of the network having failed, no run is longer, in none a call
of the network fails, and every run can be continued to this end, with the same events in another order; a run that
cannot be continued has reached it. -/
theorem oneOutcome (inputs : Fin n → List (WireId × Input)) (parties : Fin n → Party S Op Wire Elem Ctx Pending n)
    (events : List (RoundProgram.Event (Fin n)))
    (final : RoundProgram.Net (Fin n) (Party S Op Wire Elem Ctx Pending n) (Stage S Op Wire Elem Ctx Pending n)
      (Packet Elem))
    (hrun : (program inputs).run (RoundProgram.initial parties) events = some final)
    (hfinal : Final (program inputs).step final) (hclean : Clean final) :
    events.length ≤ ∑ p, eventsOf n (parties p).todo.length ∧
    ∀ events' net, (program inputs).run (RoundProgram.initial parties) events' = some net →
      Clean net ∧ events'.length ≤ events.length ∧
      (program inputs).run net (events.diff events') = some final ∧ (events' ++ events.diff events').Perm events ∧
      (Final (program inputs).step net → net = final) := by
  refine ⟨length_le_of_run hrun, fun events' net hrun' => ?_⟩
  obtain ⟨hrest, hperm, hend⟩ := RoundProgram.completes hrun hfinal hrun'
  refine ⟨hclean.of_run (RoundProgram.Reachable.refl.run hrun') hrest, ?_, hrest, hperm, hend⟩
  rw [← hperm.length_eq, List.length_append]
  exact Nat.le_add_right _ _

end

section

variable (silent other : Fin 2)

/-- One party gives no input. -/
def starvedInputs (p : Fin 2) : List (WireId × ℕ) := if p = silent then [] else openedSumInputs p

/-- That party goes as far as it can, then the other one. -/
def starvedEvents : List (RoundProgram.Event (Fin 2)) :=
  let task (p : Fin 2) : List (RoundProgram.Event (Fin 2)) := [.start p, .finish p]
  (List.replicate 3 (task silent)).flatten ++ [.start silent] ++ (List.replicate 5 (task other)).flatten ++
    [.start other, .send other silent]

/-- The inputs of the one party are refused, and the other waits for a share of it. -/
def Starved (net : AdditiveNet 100 2) : Prop :=
  match net.proc other, net.proc silent with
  | .busy _ _ inbox, .stopped party => inbox silent = none ∧ party.outcome = .err (.error .notEnoughInputs)
  | _, _ => False

instance (net : AdditiveNet 100 2) : Decidable (Starved silent other net) := by
  unfold Starved
  split
  · next inbox party _ _ =>
      exact decidable_of_iff ((inbox silent).isNone ∧ party.outcome = .err (.error .notEnoughInputs)) (by
        rw [Option.isNone_iff_eq_none])
  · infer_instance

end

theorem oneOutcome_starved :
    ∃ final, (program (starvedInputs 1)).run openedSumStart (starvedEvents 1 0) = some final ∧ Starved 1 0 final ∧
      ∀ events net, (program (starvedInputs 1)).run openedSumStart events = some net →
        Clean net ∧ (Final (program (starvedInputs 1)).step net → net = final) := by
  have hsome : ((program (starvedInputs 1)).run openedSumStart (starvedEvents 1 0)).isSome = true := by decide +kernel
  have hend : ∀ net ∈ (program (starvedInputs 1)).run openedSumStart (starvedEvents 1 0),
      Final (program (starvedInputs 1)).step net ∧ Clean net ∧ Starved 1 0 net := by decide +kernel
  obtain ⟨final, hrun⟩ := Option.isSome_iff_exists.mp hsome
  obtain ⟨hfinal, hclean, hstarved⟩ := hend final hrun
  obtain ⟨-, hall⟩ := oneOutcome (starvedInputs 1) _ (starvedEvents 1 0) final hrun hfinal hclean
  exact ⟨final, hrun, hstarved, fun events net h => ⟨(hall events net h).1, (hall events net h).2.2.2.2⟩⟩

variable {M n : ℕ} {circuit : AdditiveCircuit M} {operations : List AdditiveOperation}

/-- A run that cannot go on has ended. -/
theorem finished_of_final (hx : Executable n circuit) {draws : Fin n → Draws} (hr : Regular M draws circuit.operations)
    {inputs : Fin n → List (WireId × ℕ)} (haccept : ∀ p, Accepts circuit p (inputs p)) {size : Message ℕ → ℕ}
    {net : AdditiveNet M n}
    (hreach : (program inputs).Reachable (RoundProgram.initial (additiveParties circuit size draws)) net)
    (hfinal : Final (program inputs).step net) (p : Fin n) : Finished net p := by
  obtain ⟨net', hreach', hfin⟩ := exists_finished hx hr haccept size hreach
  obtain rfl : net' = net := by
    clear hfin
    induction hreach' with
    | refl => rfl
    | step _ hs ih =>
        rw [ih, hfinal] at hs
        cases hs
  exact hfin p

theorem clean_of_finished (hx : Executable n circuit) {draws : Fin n → Draws} (hr : Regular M draws circuit.operations)
    {inputs : Fin n → List (WireId × ℕ)} {size : Message ℕ → ℕ} {net : AdditiveNet M n}
    (hreach : (program inputs).Reachable (RoundProgram.initial (additiveParties circuit size draws)) net)
    (hfin : ∀ p, Finished net p) : Clean net := by
  refine clean_of_ok (fun _ => rfl) hreach fun p => ?_
  obtain ⟨party, hp, -⟩ := (hfin p).idle
  obtain ⟨count, hsync⟩ := hreach.synced (matched (owned_tasks hx.owned))
  exact ⟨party, hp, (valuesAt hx hr _ p party (hsync.lock_idle hp)).ok⟩

/-- **Every schedule.**  Let the parties of an accepted plan supply accepted inputs.  However they and the network
proceed, no call of the network fails, the number of events is bounded, and the run can be continued until nothing can
happen any more.  Then all parties are finished, every message has been read, the values of a wire without a `Reveal`
above it sum to its plaintext, and a `Reveal` of such a wire yields its plaintext at every party. -/
theorem everySchedule (hpos : 1 ≤ M) (hle : M ≤ 2 ^ 63) (hnew : MpcCircuit.new ⟨⟩ operations = .ok circuit)
    (hstored : circuit.StoresBeforeUse) (hown : ∀ op ∈ operations, op.Owned n) (size : Message ℕ → ℕ)
    (inputs : Fin n → List (WireId × ℕ)) (haccept : ∀ p, Accepts circuit p (inputs p)) (draws : Fin n → Draws)
    (hdraws : ∀ p k, draws p k < M) (events : List (RoundProgram.Event (Fin n))) (net : AdditiveNet M n)
    (hrun : (program inputs).run (RoundProgram.initial (additiveParties circuit size draws)) events = some net) :
    Clean net ∧ events.length ≤ n * eventsOf n circuit.tasks.length ∧
    (∃ more final, (program inputs).run net more = some final ∧ Final (program inputs).step final) ∧
    (Final (program inputs).step net → (∀ p, Finished net p) ∧ (∀ p q, net.channel p q = []) ∧
      (∀ w ∈ producedWires circuit.operations, ¬RevealAbove circuit.operations w → ∃ share : Fin n → ℕ,
        (∀ p, wireAt net p w = some (share p)) ∧ ∑ p, share p ≡ plaintexts circuit inputs draws w [MOD M]) ∧
      ∀ inp output, .reveal inp output ∈ circuit.operations → ¬RevealAbove circuit.operations inp →
        ∀ p, wireAt net p output = some (plaintexts circuit inputs draws inp)) := by
  have hx := executable_of_new hnew hstored hown
  have hr := hx.regular hpos hle hdraws
  have hreach := RoundProgram.Reachable.refl.run hrun
  obtain ⟨more, final, hmore, hend⟩ := RoundProgram.exists_run_final (program_ranked inputs) net
  have hfinal := finished_of_final hx hr haccept (hreach.run hmore) hend
  refine ⟨(clean_of_finished hx hr (hreach.run hmore) hfinal).of_run hreach hmore, ?_, ⟨more, final, hmore, hend⟩,
    fun hend => ?_⟩
  · have hlength := length_le_of_run hrun
    simpa [additiveParties, handshaked] using hlength
  have hfin := finished_of_final hx hr haccept hreach hend
  have howned := owned_tasks hx.owned
  obtain ⟨count, hsync⟩ := hreach.synced (matched howned)
  refine ⟨hfin, fun p q => ?_, fun w hw hno => ?_, fun inp output hop hno p => ?_⟩
  · refine hsync.channel_empty (fun p => ?_) (fun p q => ?_) p q
    · obtain ⟨party, hp, -⟩ := (hfin p).idle
      exact ⟨party, hp⟩
    · rw [count_of_finished howned hsync (hfin p), count_of_finished howned hsync (hfin q)]
  · rw [producedWires_eq] at hw
    exact ⟨shares circuit inputs draws w, fun p => wireAt_finished hx hr hreach (hfin p) hw,
      sum_shares_modEq hx hpos hw hno⟩
  · exact reveal_plaintext hx hr hpos hreach (hfin p) hop hno

theorem everySchedule_openedSum : ∃ events net, (program openedSumInputs).run openedSumStart events = some net ∧
    events.length ≤ 98 ∧ (∀ p, Finished net p) ∧ ∀ p q, net.channel p q = [] := by
  obtain ⟨events, net, hrun, hfinal⟩ :=
    RoundProgram.exists_run_final (program_ranked openedSumInputs) openedSumStart
  have haccept : ∀ p, Accepts openedSum p (openedSumInputs p) := by
    intro p
    apply accepts_of_perm <;> revert p <;> decide
  obtain ⟨-, hlength, -, hend⟩ := everySchedule (by decide) (by decide) new_openedSum (by decide) (by decide)
    (fun _ => 1) openedSumInputs haccept openedSumDraws (fun p k => Nat.mod_lt _ (by decide)) events net hrun
  exact ⟨events, net, hrun, hlength.trans (by decide), (hend hfinal).1, (hend hfinal).2.1⟩

end Cluster

end MpcCore
