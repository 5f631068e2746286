import MpcCore.ClusterCorrectness
import MpcCore.SharePrivacy

/-! # What a coalition learns

* `viewOf`: what a party sees of a finished run.
* `Cluster.privacy`: for two assignments of the inputs that agree on a coalition and open the same
  values, every view of the coalition comes from equally many tapes. -/

namespace MpcCore

open Operation

variable {M n : ℕ}

/-! ### Plans with an input of no party -/

/-- The inputs in the first `k` tasks belong to parties. -/
def OwnedUpTo (n : ℕ) (circuit : AdditiveCircuit M) (k : ℕ) : Prop :=
  ∀ task ∈ circuit.tasks.take k, ∀ op ∈ task.networkOperations, op.Owned n

theorem OwnedUpTo.succ {circuit : AdditiveCircuit M} {k : ℕ} {task : Task AdditiveOperation}
    (h : OwnedUpTo n circuit k) (htask : circuit.tasks[k]? = some task)
    (hops : ∀ op ∈ task.networkOperations, op.Owned n) : OwnedUpTo n circuit (k + 1) := by
  intro task' hmem
  rw [List.take_add_one, htask, List.mem_append] at hmem
  obtain hmem | hmem := hmem
  · exact h task' hmem
  · rw [List.mem_singleton.mp hmem]
    exact hops

/-- A party that has not failed has met inputs of parties only, and one that has failed does not
finish. -/
def PartyMet (circuit : AdditiveCircuit M) (p : Fin n) (party : AdditiveParty M n) : Prop :=
  (party.outcome = .ok () → ∃ k, PartyAt circuit p k party ∧ OwnedUpTo n circuit k) ∧
    (party.outcome ≠ .ok () → party.context.executionState ≠ .finished)

/-- A party in a task has met inputs of parties only. -/
def StageMet (circuit : AdditiveCircuit M) (p : Fin n) (stage : AdditiveStage M n) : Prop :=
  ∃ k, StageAt circuit p k stage ∧ OwnedUpTo n circuit k

section

variable {circuit : AdditiveCircuit M} {inputs : Fin n → List (WireId × ℕ)} {p : Fin n} {k : ℕ}
  {stage : AdditiveStage M n}

theorem withContext_state {α : Type}
    (x : Act (Exec AdditiveOperation ℕ ℕ AdditiveContext AdditivePending (Link n ℕ)) Fault α)
    (ec : AdditiveExecution M n) :
    (ExecutionContext.withContext x ec).2.executionState = ec.executionState := by
  unfold ExecutionContext.withContext
  split <;> rfl

theorem recvRequests_seat (requests : List ReceiveRequest)
    (s : Exec AdditiveOperation ℕ ℕ AdditiveContext AdditivePending (Link n ℕ)) :
    (recvRequests requests s).2.context = s.context ∧ (recvRequests requests s).2.network.id = s.network.id ∧
      (recvRequests requests s).2.network.leaving = s.network.leaving := by
  have hnet : (recvRequests requests s).2.network = (Link.recvMany Message.toObjects requests s.network).2 := rfl
  refine ⟨rfl, ?_, ?_⟩
  all_goals
    rw [hnet, Link.recvMany]
    split <;> rfl

theorem recvRequests_available {requests : List ReceiveRequest}
    {s s' : Exec AdditiveOperation ℕ ℕ AdditiveContext AdditivePending (Link n ℕ)} {data : List (List ℕ) × ℕ}
    (h : recvRequests requests s = (.ok data, s')) :
    ∀ req ∈ requests, req.fromId < n := by
  have hrecv : ((Link.recvMany Message.toObjects requests s.network).1).mapErr schemeFault = .ok data :=
    congrArg Prod.fst h
  rw [Outcome.mapErr_eq_ok, Link.recvMany] at hrecv
  split at hrecv
  · exact absurd hrecv (by simp)
  · next hnone =>
      intro req hreq
      have hchannel := List.find?_eq_none.mp hnone req.fromId (List.mem_map_of_mem hreq)
      by_contra hge
      exact hchannel (by simp [Link.channel, hge])

theorem complete_round_state {S : AdditiveScheme M} {rd : Round AdditiveOperation}
    {batch : Batch ℕ AdditivePending} {ec ec' : AdditiveExecution M n} {r : Outcome Fault Unit}
    (h : (Task.round rd).complete S batch ec = (r, ec')) : ec'.executionState = ec.executionState := by
  obtain ⟨⟨data, len⟩, ec₁, h1, h2⟩ | ⟨r₁, h1, -⟩ := Act.bind_cases h
  · have hs1 := withContext_state (recvRequests batch.receiveRequests) ec
    have hs2 := withContext_state (finishNetworkOperations S rd.networkOperations batch data) ec₁
    have h2 : ExecutionContext.withContext (finishNetworkOperations S rd.networkOperations batch data) ec₁ =
      (r, ec') := h2
    rw [h1] at hs1
    rw [h2] at hs2
    exact hs2.trans hs1
  · have hs1 := withContext_state (recvRequests batch.receiveRequests) ec
    rwa [h1] at hs1

/-- A party that has received for a task has a channel to the owner of each input in it. -/
theorem StageAt.owned (h : StageAt circuit p k stage)
    {s s' : Exec AdditiveOperation ℕ ℕ AdditiveContext AdditivePending (Link n ℕ)} {data : List (List ℕ) × ℕ}
    (hrecv : recvRequests stage.batch.receiveRequests s = (.ok data, s')) :
    ∀ op ∈ stage.task.networkOperations, op.Owned n := by
  intro op hop o ho
  by_cases hpo : (p : ℕ) = o
  · exact hpo ▸ p.2
  · apply recvRequests_available hrecv (ReceiveRequest.new o 1)
    rw [h.shape.receives]
    refine List.mem_flatMap.mpr ⟨op, hop, List.mem_map.mpr ⟨o, ?_, rfl⟩⟩
    cases op with
    | input partyId output =>
        obtain rfl : partyId = o := Option.some.inj ho
        simp [AdditiveOperation.peersFrom, hpo]
    | genRandom output => exact absurd ho (by simp [getInputPartyId])
    | add left right output => exact absurd ho (by simp [getInputPartyId])
    | reveal inp output => exact absurd ho (by simp [getInputPartyId])

theorem StageAt.met (h : StageAt circuit p k stage) (hk : OwnedUpTo n circuit k)
    (inbox : Fin n → Option (Packet ℕ)) : PartyMet circuit p ((Cluster.program inputs).finish p stage inbox) := by
  obtain ⟨-, context, hctx, -, -⟩ := h.seated
  simp only [Cluster.program]
  rcases hc : stage.task.complete stage.context.circuit.scheme stage.batch
    { stage.context with network := stage.context.network.exchange inbox } with ⟨r, ec⟩
  simp only [PartyMet]
  have hsilent : (∀ op ∈ stage.task.networkOperations, op.Owned n) →
      (.ok (), { stage.context with network := stage.context.network.exchange inbox }) = (r, ec) →
      PartyMet circuit p ⟨ec, stage.todo, r, stage.round + 1,
        stage.received ++ [fun q => (inbox q).map Packet.message]⟩ := by
    intro hops hc
    obtain ⟨rfl, rfl⟩ := Prod.mk.inj hc
    exact ⟨fun _ => ⟨k + 1, h.silent inbox, hk.succ h.task hops⟩, fun hne => absurd rfl hne⟩
  cases htask : stage.task with
  | enter fnName required =>
      rw [htask] at hc hsilent
      exact hsilent (by simp [Task.networkOperations]) hc
  | leave reached =>
      rw [htask] at hc hsilent
      exact hsilent (by simp [Task.networkOperations]) hc
  | prepare =>
      rw [htask] at hc hsilent
      exact hsilent (by simp [Task.networkOperations]) hc
  | round rd =>
      have htaskk : circuit.tasks[k]? = some (.round rd) := by rw [h.task, htask]
      rw [htask] at hc
      have hstate : ec.executionState = stage.context.executionState := (complete_round_state hc).trans rfl
      refine ⟨fun hr => ?_, fun _ => ?_⟩
      · subst hr
        obtain ⟨⟨data, len⟩, ec₁, h1, h2⟩ := Act.bind_eq_ok.mp hc
        have hctx' : ({ stage.context with network := stage.context.network.exchange inbox } :
          AdditiveExecution M n).schemeContext = some context := hctx
        obtain ⟨s₁, hs₁, rfl⟩ := withContext_eq hctx' h1
        obtain ⟨s₂, hs₂, rfl⟩ := withContext_eq rfl h2
        have hseat1 := recvRequests_seat stage.batch.receiveRequests
          ⟨context, stage.context.wireContents, stage.context.network.exchange inbox, stage.context.calls⟩
        rw [hs₁] at hseat1
        obtain ⟨hctx1, hid1, hleaving1⟩ := hseat1
        have howned := htask ▸ h.owned hs₁
        exact ⟨k + 1, ⟨congrArg (· + 1) h.round, h.todo, h.plan, h.state,
          fun _ => h.seated_round hctx hctx1 hid1 hleaving1 hs₂, fun f => by simp⟩, hk.succ htaskk howned⟩
      · have hlegal := legal_drop circuit k
        have hdrop : circuit.tasks.drop k = .round rd :: circuit.tasks.drop (k + 1) := by
          obtain ⟨hlt, hget⟩ := List.getElem?_eq_some_iff.mp htaskk
          rw [← hget, List.getElem_cons_drop]
        rw [hdrop] at hlegal
        rw [hstate, h.state, stateAfter_succ htaskk]
        exact hlegal.1

theorem met_of_reachable {size : Message ℕ → ℕ} {draws : Fin n → Draws} {net : AdditiveNet M n}
    (hreach : (Cluster.program inputs).Reachable
      (RoundProgram.initial (Cluster.additiveParties circuit size draws)) net) (p : Fin n) :
    (net.proc p).Has (PartyMet circuit p) (StageMet circuit p) := by
  refine hreach.has (I := PartyMet circuit) (B := StageMet circuit) (fun p => ?_) (fun p party stage hmet hs => ?_)
    (fun p stage inbox hmet => ?_) p
  · exact ⟨fun _ => ⟨0, Cluster.partyAt_zero circuit size draws p, by simp [OwnedUpTo]⟩, fun hne => absurd rfl hne⟩
  · obtain ⟨task, todo, batch, ec, hok, htodo, hb, rfl⟩ := Cluster.start_eq_inr hs
    obtain ⟨k, hat, hk⟩ := hmet.1 hok
    exact ⟨k, hat.begin hok htodo hb, hk⟩
  · obtain ⟨k, hat, hk⟩ := hmet
    exact hat.met hk inbox

theorem owned_of_finished {size : Message ℕ → ℕ} {draws : Fin n → Draws} {net : AdditiveNet M n}
    (hreach : (Cluster.program inputs).Reachable
      (RoundProgram.initial (Cluster.additiveParties circuit size draws)) net) (hf : Cluster.Finished net p) :
    ∀ task ∈ circuit.tasks, ∀ op ∈ task.networkOperations, op.Owned n := by
  have hmet := met_of_reachable hreach p
  obtain ⟨party, hp, hstate⟩ := hf.idle
  rw [hp] at hmet
  have hok : party.outcome = .ok () := by
    by_contra hne
    exact hmet.2 hne hstate
  obtain ⟨k, hat, hk⟩ := hmet.1 hok
  have hle := length_le_of_finished (hat.state.symm.trans hstate)
  intro task htask
  exact hk task (by rwa [List.take_of_length_le hle])

end

/-! ### Views -/

/-- What a party sees: its inputs, its draws, its wires, and the messages it received in each task. -/
structure PartyView (n : ℕ) where
  inputs : List (WireId × ℕ)
  draws : List ℕ
  wires : PMap WireId ℕ
  received : List (Fin n → Option (Message ℕ))

namespace Cluster

variable {circuit : AdditiveCircuit M} {operations : List AdditiveOperation}
  {inputs inputs' : Fin n → List (WireId × ℕ)}
  {size : Message ℕ → ℕ}

/-- The view of a party at rest. -/
def viewOf (inputs : Fin n → List (WireId × ℕ)) {ops : List AdditiveOperation} (tape : Tape n M ops)
    (net : AdditiveNet M n) (p : Fin n) : Option (PartyView n) :=
  match net.proc p with
  | .idle party =>
      some ⟨inputs p, List.ofFn fun k => (tape p k : ℕ), party.context.wireContents, party.received⟩
  | _ => none

/-- The tapes on which a finished run gives the parties of a coalition the given views. -/
def tapesWithView (circuit : AdditiveCircuit M) (size : Message ℕ → ℕ) (inputs : Fin n → List (WireId × ℕ))
    (T : Finset (Fin n)) (view : T → PartyView n) : Set (Tape n M circuit.operations) :=
  { tape | ∃ net : AdditiveNet M n,
      (program inputs).Reachable (RoundProgram.initial (additiveParties circuit size tape.draws)) net ∧
      (∀ p, Finished net p) ∧ ∀ p : T, viewOf inputs tape net p = some (view p) }

/-- The view that the tape fixes. -/
def viewAt (circuit : AdditiveCircuit M) (inputs : Fin n → List (WireId × ℕ)) (tape : Tape n M circuit.operations)
    (p : Fin n) : PartyView n :=
  ⟨inputs p, List.ofFn fun k => (tape p k : ℕ),
    fun w => if w ∈ circuit.operations.map AdditiveOperation.output then some (shares circuit inputs tape.draws w p)
      else none,
    (List.range circuit.tasks.length).map fun k q => messageAt circuit inputs tape.draws k q p⟩

theorem viewOf_finished (hx : Executable n circuit) (hpos : 0 < M) (hle : M ≤ 2 ^ 63)
    (tape : Tape n M circuit.operations) {net : AdditiveNet M n}
    (hreach : (program inputs).Reachable (RoundProgram.initial (additiveParties circuit size tape.draws)) net)
    {p : Fin n} (hf : Finished net p) : viewOf inputs tape net p = some (viewAt circuit inputs tape p) := by
  obtain ⟨party, hp, hvalues⟩ := finished_values hx (hx.regular hpos hle (tape.draws_lt hpos)) hreach hf
  obtain ⟨context, -, hfollows⟩ := hvalues.follows
  have hwires : party.context.wireContents = (viewAt circuit inputs tape p).wires := by
    apply PMap.ext
    intro w
    rw [hfollows.wires, doneAt_length]
    rfl
  simp only [viewOf, hp, hwires, hvalues.received]
  rfl

theorem mem_tapesWithView_iff (hx : Executable n circuit) (hpos : 0 < M) (hle : M ≤ 2 ^ 63)
    (haccept : ∀ p, Accepts circuit p (inputs p)) {T : Finset (Fin n)} {view : T → PartyView n}
    {tape : Tape n M circuit.operations} :
    tape ∈ tapesWithView circuit size inputs T view ↔ ∀ p : T, viewAt circuit inputs tape p = view p := by
  constructor
  · rintro ⟨net, hreach, hf, hview⟩ p
    have := hview p
    rw [viewOf_finished hx hpos hle tape hreach (hf p)] at this
    exact Option.some.inj this
  · intro hview
    obtain ⟨net, hreach, hf⟩ := exists_finished hx (hx.regular hpos hle (tape.draws_lt hpos)) haccept size .refl
    exact ⟨net, hreach, hf, fun p => by rw [viewOf_finished hx hpos hle tape hreach (hf p), hview p]⟩

/-! ### The same view on the shifted tape -/

section

variable [NeZero M] {honest p : Fin n} {tape : Tape n M circuit.operations}

/-- What the parties supply. -/
abbrev supplied (inputs : Fin n → List (WireId × ℕ)) (p : Fin n) : WireId → ℕ := suppliedValue (inputs p)

/-- The shift of a tape from one assignment of the inputs to another. -/
abbrev inputShift (circuit : AdditiveCircuit M) (inputs inputs' : Fin n → List (WireId × ℕ)) (honest : Fin n) :
    Tape n M circuit.operations :=
  shift (supplied inputs) (supplied inputs') honest circuit.operations

/-- What a party other than `honest` receives for an operation. -/
theorem itemsOf_shift (hx : Executable n circuit)
    (hopen : SameOpenings (supplied inputs) (supplied inputs') circuit.operations tape) (hp : p ≠ honest)
    {done rest : List AdditiveOperation} {op : AdditiveOperation} (he : circuit.operations = done ++ op :: rest) :
    itemsOf (Tape.draws (tape + inputShift circuit inputs inputs' honest))
        (shares circuit inputs' (Tape.draws (tape + inputShift circuit inputs inputs' honest))) p done op =
      itemsOf tape.draws (shares circuit inputs tape.draws) p done op := by
  have hmem : op ∈ circuit.operations := by simp [he]
  cases op with
  | input partyId output =>
      obtain ⟨owner, rfl⟩ : ∃ owner : Fin n, (owner : ℕ) = partyId := ⟨⟨partyId, hx.owned _ hmem partyId rfl⟩, rfl⟩
      by_cases hpo : p = owner
      · simp [itemsOf, hpo]
      · have hne : ¬(p : ℕ) = owner := fun h => hpo (Fin.ext h)
        have hlt : dealt tape.draws done owner p < M :=
          dealt_lt (tape.draws_lt (Nat.pos_of_neZero M)) (Nat.pos_of_neZero M) done owner p
        simp only [itemsOf, if_neg hne, dealt_shift tape he hpo, if_neg hp, add_zero, Nat.mod_eq_of_lt hlt]
  | genRandom output => rfl
  | add left right output => rfl
  | reveal inp output =>
      have hopened : shares circuit inputs' (Tape.draws (tape + inputShift circuit inputs inputs' honest)) inp =
          shares circuit inputs tape.draws inp :=
        funext fun q => opened_shift tape hx.ordered hx.owned hopen hmem q
      simp only [itemsOf, hopened]

/-- The messages a party other than `honest` receives. -/
theorem messageAt_shift (hx : Executable n circuit)
    (hopen : SameOpenings (supplied inputs) (supplied inputs') circuit.operations tape) (hp : p ≠ honest) {k : ℕ}
    (hk : k < circuit.tasks.length) (q : Fin n) :
    messageAt circuit inputs' (Tape.draws (tape + inputShift circuit inputs inputs' honest)) k q p =
      messageAt circuit inputs tape.draws k q p := by
  obtain ⟨rest, hops⟩ := operations_split (List.getElem?_eq_getElem hk)
  rw [doneAt_succ (List.getElem?_eq_getElem hk)] at hops
  have heach : ∀ (ops done rest : List AdditiveOperation), circuit.operations = done ++ ops ++ rest →
      eachFrom (itemsOf (Tape.draws (tape + inputShift circuit inputs inputs' honest))
        (shares circuit inputs' (Tape.draws (tape + inputShift circuit inputs inputs' honest))) p) done ops =
      eachFrom (itemsOf tape.draws (shares circuit inputs tape.draws) p) done ops := by
    intro ops
    induction ops with
    | nil => intro done rest _; rfl
    | cons op ops ih =>
        intro done rest he
        have he' : circuit.operations = done ++ op :: (ops ++ rest) := by simpa using he
        rw [eachFrom, eachFrom, itemsOf_shift hx hopen hp he', ih (done ++ [op]) rest (by simpa using he)]
  simp only [messageAt, messageTo, objectsFrom_roundItems, roundItems, heach _ _ _ hops]

/-- **The view of a party other than `honest`, with the same inputs, stays.** -/
theorem viewAt_shift (hx : Executable n circuit)
    (hopen : SameOpenings (supplied inputs) (supplied inputs') circuit.operations tape) (hp : p ≠ honest)
    (hinputs : inputs p = inputs' p) :
    viewAt circuit inputs' (tape + inputShift circuit inputs inputs' honest) p = viewAt circuit inputs tape p := by
  have hdraws : (tape + inputShift circuit inputs inputs' honest) p = tape p := by
    have hzero : inputShift circuit inputs inputs' honest p = 0 := shift_eq_zero (by rw [supplied, hinputs])
    rw [Pi.add_apply, hzero, add_zero]
  have hwires : ∀ w ∈ circuit.operations.map AdditiveOperation.output,
      shares circuit inputs' (Tape.draws (tape + inputShift circuit inputs inputs' honest)) w p =
        shares circuit inputs tape.draws w p := fun w hw =>
    shareTable_shift tape hx.ordered hx.owned hopen w hw p hp
  have hreceived : ((List.range circuit.tasks.length).map fun k q =>
      messageAt circuit inputs' (Tape.draws (tape + inputShift circuit inputs inputs' honest)) k q p) =
        (List.range circuit.tasks.length).map fun k q => messageAt circuit inputs tape.draws k q p :=
    List.map_congr_left fun k hk => funext fun q => messageAt_shift hx hopen hp (List.mem_range.mp hk) q
  rw [viewAt, viewAt, hreceived, hdraws, hinputs]
  congr 1
  funext w
  split
  · next hw => rw [hwires w hw]
  · rfl

end

/-- Reveal outputs that agree in all finished nets are openings that agree. -/
theorem sameOpenings_of_reveal (hx : Executable n circuit) (hpos : 0 < M) (hle : M ≤ 2 ^ 63)
    (haccept : ∀ p, Accepts circuit p (inputs p)) (haccept' : ∀ p, Accepts circuit p (inputs' p))
    {tape : Tape n M circuit.operations} (p : Fin n)
    (hreveal : ∀ net net' : AdditiveNet M n,
      (program inputs).Reachable (RoundProgram.initial (additiveParties circuit size tape.draws)) net →
      (∀ p, Finished net p) →
      (program inputs').Reachable (RoundProgram.initial (additiveParties circuit size tape.draws)) net' →
      (∀ p, Finished net' p) → ∀ inp output, .reveal inp output ∈ circuit.operations →
        wireAt net p output = wireAt net' p output) :
    SameOpenings (supplied inputs) (supplied inputs') circuit.operations tape := by
  intro inp output hop
  have hr := hx.regular hpos hle (tape.draws_lt hpos)
  obtain ⟨net, hreach, hf⟩ := exists_finished hx hr haccept size .refl
  obtain ⟨net', hreach', hf'⟩ := exists_finished hx hr haccept' size .refl
  have heq := hreveal net net' hreach hf hreach' hf' inp output hop
  rw [(reveal_finished hx hr hreach (hf p) hop).1, (reveal_finished hx hr hreach' (hf' p) hop).1] at heq
  exact Option.some.inj heq

/-- **Perfect privacy.**  Take two assignments of the inputs that agree on a proper subset `T` of the
parties and for which all `Reveal` outputs are the same, on every tape.  Then every view of `T` comes
from equally many tapes. -/
theorem privacy (hpos : 1 ≤ M) (hle : M ≤ 2 ^ 63) (hnew : MpcCircuit.new ⟨⟩ operations = .ok circuit)
    (hstored : circuit.StoresBeforeUse) (size : Message ℕ → ℕ) (inputs inputs' : Fin n → List (WireId × ℕ))
    (haccept : ∀ p, Accepts circuit p (inputs p)) (haccept' : ∀ p, Accepts circuit p (inputs' p))
    (T : Finset (Fin n)) (hT : T ≠ Finset.univ) (hagree : ∀ p ∈ T, inputs p = inputs' p)
    (hreveal : ∀ (tape : Tape n M circuit.operations) (net net' : AdditiveNet M n),
      (program inputs).Reachable (RoundProgram.initial (additiveParties circuit size tape.draws)) net →
      (∀ p, Finished net p) →
      (program inputs').Reachable (RoundProgram.initial (additiveParties circuit size tape.draws)) net' →
      (∀ p, Finished net' p) → ∀ inp output, .reveal inp output ∈ operations →
        ∀ p, wireAt net p output = wireAt net' p output)
    (view : T → PartyView n) :
    Nat.card (tapesWithView circuit size inputs T view) = Nat.card (tapesWithView circuit size inputs' T view) := by
  obtain ⟨honest, hhonest⟩ : ∃ honest, honest ∉ T := by
    by_contra hall
    exact hT (Finset.eq_univ_iff_forall.mpr fun p => not_not.mp fun hp => hall ⟨p, hp⟩)
  have hperm := MpcCircuit.perm_of_new hnew
  have hlocal := MpcCircuit.classified_of_new hnew
  by_cases hown : ∀ op ∈ operations, op.Owned n
  · have hx := executable_of_new hnew hstored hown
    have : NeZero M := ⟨by omega⟩
    have hopen : ∀ tape, SameOpenings (supplied inputs) (supplied inputs') circuit.operations tape := fun tape =>
      sameOpenings_of_reveal hx hpos hle haccept haccept' honest fun net net' h1 h2 h3 h4 inp output hop =>
        hreveal tape net net' h1 h2 h3 h4 inp output (hperm.mem_iff.mp hop) honest
    -- a tape and its shift give the same view
    refine Nat.card_congr ((Equiv.addRight (inputShift circuit inputs inputs' honest)).subtypeEquiv fun tape => ?_)
    rw [mem_tapesWithView_iff hx hpos hle haccept, Equiv.coe_addRight, mem_tapesWithView_iff hx hpos hle haccept']
    refine forall_congr' fun p => ?_
    have hp : (p : Fin n) ≠ honest := fun h => hhonest (h ▸ p.2)
    rw [viewAt_shift hx (hopen tape) hp (hagree p p.2)]
  · have hnone : ∀ ins : Fin n → List (WireId × ℕ), tapesWithView circuit size ins T view = ∅ := by
      intro ins
      refine Set.eq_empty_iff_forall_notMem.mpr fun tape htape => hown fun op hop => ?_
      obtain ⟨net, hreach, hf, -⟩ := htape
      have hnetwork := owned_of_finished hreach (hf honest)
      obtain ⟨round, hround, hop⟩ : ∃ round ∈ circuit.offlineRounds ++ circuit.onlineRounds, op ∈ round.operations := by
        have hmem := hperm.mem_iff.mpr hop
        rw [Executable.operations_eq] at hmem
        exact List.mem_flatMap.mp hmem
      obtain hop | hop := List.mem_append.mp hop
      · have hloc := (hlocal round hround).1 op hop
        intro o ho
        cases op with
        | input partyId output => exact absurd hloc (by simp [CircuitScheme.isOperationLocal, additiveLocal])
        | genRandom output => exact absurd ho (by simp [getInputPartyId])
        | add left right output => exact absurd ho (by simp [getInputPartyId])
        | reveal inp output => exact absurd ho (by simp [getInputPartyId])
      · refine hnetwork (.round round) ?_ op hop
        have hmem := hround
        rw [← flatMap_rounds] at hmem
        obtain ⟨task, htask, hr⟩ := List.mem_flatMap.mp hmem
        rwa [← Task.eq_of_mem_rounds hr]
    rw [hnone inputs, hnone inputs']

/-- Three inputs are added and their sum is opened. -/
def openedTotalOperations : List AdditiveOperation :=
  [.input 0 ⟨0⟩, .input 1 ⟨1⟩, .input 2 ⟨2⟩, .add ⟨0⟩ ⟨1⟩ ⟨3⟩, .add ⟨3⟩ ⟨2⟩ ⟨4⟩, .reveal ⟨4⟩ ⟨5⟩]

/-- Its plan. -/
def openedTotal : AdditiveCircuit 100 :=
  ⟨⟨⟩, [⟨[], []⟩], [⟨[], [.input 0 ⟨0⟩, .input 1 ⟨1⟩, .input 2 ⟨2⟩]⟩,
    ⟨[.add ⟨0⟩ ⟨1⟩ ⟨3⟩, .add ⟨3⟩ ⟨2⟩ ⟨4⟩], [.reveal ⟨4⟩ ⟨5⟩]⟩]⟩

theorem new_openedTotal : MpcCircuit.new ⟨⟩ openedTotalOperations = .ok openedTotal := by decide

/-- One input of each of three parties. -/
def oneEach (x : Fin 3 → ℕ) (p : Fin 3) : List (WireId × ℕ) := [(⟨p⟩, x p)]

theorem accepts_oneEach (x : Fin 3 → ℕ) (p : Fin 3) : Accepts openedTotal p (oneEach x p) := by
  have h : ∀ p : Fin 3, inputWires openedTotal p = [⟨p⟩] := by decide
  apply accepts_of_perm (by rw [h]; simp)
  rw [h]
  exact .refl _

theorem reveal_openedTotal {inp output : WireId} (h : .reveal inp output ∈ openedTotalOperations) :
    inp = ⟨4⟩ ∧ output = ⟨5⟩ := by
  simpa [openedTotalOperations] using h

theorem not_revealAbove_openedTotal : ¬RevealAbove openedTotalOperations ⟨4⟩ := by
  have hreads : ∀ op ∈ openedTotalOperations, ⟨5⟩ ∉ Operation.inputs op := by decide
  have hlast : ∀ w, RevealAbove openedTotalOperations w → w = ⟨5⟩ := by
    intro w h
    induction h with
    | reveal h => exact (reveal_openedTotal h).2
    | through h hw _ ih => exact absurd (ih ▸ hw) (hreads _ h)
  intro h
  exact absurd (hlast _ h) (by decide)

theorem plaintexts_openedTotal (x : Fin 3 → ℕ) (draws : Fin 3 → Draws) :
    plaintexts openedTotal (oneEach x) draws ⟨4⟩ = ((x 0 % 100 + x 1 % 100) % 100 + x 2 % 100) % 100 := by
  rfl

/-- All parties draw 7 only. -/
def sevens : Tape 3 100 openedTotal.operations := fun _ _ => 7

/-- What party 0 sees when the inputs are 1, 2 and 3 and all draw sevens. -/
def sevensView (p : ({0} : Finset (Fin 3))) : PartyView 3 := viewAt openedTotal (oneEach ![1, 2, 3]) sevens p

/-- By this view party 0 cannot tell the inputs 1, 2 and 3 from 1, 3 and 2. -/
theorem privacy_openedTotal :
    sevens ∈ tapesWithView openedTotal (fun _ => 1) (oneEach ![1, 2, 3]) {0} sevensView ∧
      Nat.card (tapesWithView openedTotal (fun _ => 1) (oneEach ![1, 2, 3]) {0} sevensView) =
        Nat.card (tapesWithView openedTotal (fun _ => 1) (oneEach ![1, 3, 2]) {0} sevensView) := by
  have hstored : openedTotal.StoresBeforeUse := by decide
  have hx : Executable 3 openedTotal := executable_of_new new_openedTotal hstored (by decide)
  refine ⟨(mem_tapesWithView_iff hx (by decide) (by decide) (accepts_oneEach _)).mpr fun _ => rfl, ?_⟩
  refine privacy (by decide) (by decide) new_openedTotal hstored (fun _ => 1) (oneEach ![1, 2, 3])
    (oneEach ![1, 3, 2]) (accepts_oneEach _) (accepts_oneEach _) {0} (by decide) (by decide) ?_ sevensView
  intro tape net net' hreach hf hreach' hf' inp output hop p
  obtain ⟨rfl, rfl⟩ := reveal_openedTotal hop
  have hr := hx.regular (by decide) (by decide) (tape.draws_lt (by decide))
  rw [reveal_plaintext hx hr (by decide) hreach (hf p) hop not_revealAbove_openedTotal,
    reveal_plaintext hx hr (by decide) hreach' (hf' p) hop not_revealAbove_openedTotal,
    plaintexts_openedTotal, plaintexts_openedTotal]
  rfl

end Cluster

end MpcCore
