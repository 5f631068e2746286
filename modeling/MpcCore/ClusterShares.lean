import MpcCore.AdditiveValues
import MpcCore.ClusterLockstep
import MpcCore.ExecutionInputs

/-! # The values of an additive computation

What the parties of a cluster hold when they run an executable plan, in any interleaving.

* `Executable`: the plans that the parties can run to their end.
* `ValuesAt`: the wires, the context and the messages received of a party after `k` tasks.
* `Cluster.valuesAt`: the lockstep run keeps `ValuesAt`; `Cluster.finished_values`: the parties of a
  finished net hold the table of the shares.
* `Cluster.exists_finished`: with accepted inputs every run can be continued to a finished net. -/

namespace MpcCore

open Operation MpcScheme

variable {M n : ℕ}

/-! ### Executable plans -/

/-- A plan whose local operations are local, whose inputs are online, and whose every wire is produced
once and stored before its use. -/
structure Executable (n : ℕ) (circuit : AdditiveCircuit M) : Prop where
  locals : ∀ round ∈ circuit.offlineRounds ++ circuit.onlineRounds, ∀ op ∈ round.localOperations,
    additiveLocal op = true
  offline : ∀ op ∈ circuit.offlineOperations, isInput op = false
  unique : circuit.UniqueProducers
  stored : circuit.StoresBeforeUse
  owned : ∀ op ∈ circuit.operations, op.Owned n

theorem producedWires_eq (ops : List AdditiveOperation) : producedWires ops = ops.map AdditiveOperation.output := by
  simp only [producedWires, outputs]
  rw [← List.map_eq_flatMap]

theorem executable_of_new {operations : List AdditiveOperation} {circuit : AdditiveCircuit M}
    (h : MpcCircuit.new ⟨⟩ operations = .ok circuit) (hstored : circuit.StoresBeforeUse)
    (hown : ∀ op ∈ operations, op.Owned n) : Executable n circuit := by
  have hperm := MpcCircuit.perm_of_new h
  have hlocal := MpcCircuit.classified_of_new h
  refine ⟨fun round hround => (hlocal round hround).1, fun op hop => ?_, MpcCircuit.uniqueProducers_of_new h, hstored,
    fun op hop => hown op (hperm.mem_iff.mp hop)⟩
  have hmem : op ∈ operations := hperm.mem_iff.mp (List.mem_append_left _ hop)
  obtain ⟨i, hi⟩ := List.getElem?_of_mem hmem
  by_contra hinput
  refine ((MpcCircuit.mem_offline_iff h hi).mp hop) ⟨i, .refl, ?_⟩
  rw [isInputAt_of_getElem? hi]
  simpa using hinput

/-- The operations before their use, over all rounds. -/
theorem StoredFrom.ordered {rounds : List (Round AdditiveOperation)} : ∀ {stored : List WireId},
    StoredFrom stored rounds → ∀ done op rest, rounds.flatMap Round.operations = done ++ op :: rest →
      ∀ w ∈ inputs op, w ∈ stored ++ producedWires done := by
  induction rounds with
  | nil => intro stored _ done op rest he; exact absurd he (by simp)
  | cons round rounds ih =>
      intro stored h done op rest he w hw
      obtain ⟨hround, hrest⟩ := StoredFrom.cons_iff.mp h
      rw [List.flatMap_cons, List.append_eq_append_iff] at he
      obtain ⟨done', rfl, he⟩ | ⟨mid, hmid, he⟩ := he
      · have := ih hrest done' op rest he w hw
        rwa [producedWires_append, ← List.append_assoc]
      · cases mid with
        | nil =>
            have := ih hrest [] op rest (by simpa using he.symm) w hw
            rw [List.append_nil] at hmid
            simpa [producedWires, hmid] using this
        | cons o mid =>
            obtain ⟨rfl, rfl⟩ : op = o ∧ rest = mid ++ rounds.flatMap Round.operations := by simpa using he
            rw [Round.operations, List.append_eq_append_iff] at hmid
            -- the operation is local, or among the network operations of the round
            obtain ⟨done', rfl, hmid⟩ | ⟨mid', hmid', hmid⟩ := hmid
            · have hmem := hround.networkOps op (by simp [hmid]) w hw
              rw [producedWires_append, ← List.append_assoc]
              exact List.mem_append_left _ hmem
            · cases mid' with
              | nil =>
                  have hmem := hround.networkOps op (by simp at hmid; simp [← hmid]) w hw
                  rw [List.append_nil] at hmid'
                  rwa [← hmid']
              | cons o' mid' =>
                  obtain ⟨rfl, -⟩ : op = o' ∧ _ := by simpa using hmid
                  exact hround.localOps done op mid' hmid' w hw

namespace Executable

variable {circuit : AdditiveCircuit M}

theorem operations_eq (circuit : AdditiveCircuit M) :
    circuit.operations = (circuit.offlineRounds ++ circuit.onlineRounds).flatMap Round.operations := by
  simp [MpcCircuit.operations, MpcCircuit.offlineOperations, MpcCircuit.onlineOperations]

/-- The operations of an executable plan, in the order of the rounds, are a straight-line program. -/
theorem ordered (h : Executable n circuit) : OrderedOperations circuit.operations where
  nodup := by
    rw [← producedWires_eq]
    exact h.unique
  ordered done op rest he w hw := by
    rw [operations_eq] at he
    have := StoredFrom.ordered h.stored done op rest he w hw
    rwa [List.nil_append, producedWires_eq] at this

theorem regular (h : Executable n circuit) (hpos : 0 < M) (hle : M ≤ 2 ^ 63) {draws : Fin n → Draws}
    (hdraws : ∀ p k, draws p k < M) : Regular M draws circuit.operations :=
  ⟨hpos, hle, hdraws, h.ordered⟩

end Executable

/-! ### The operations of a task -/

section

variable {S Op : Type}

/-- The local operations of a task. -/
def Task.localOperations : Task Op → List Op
  | round r => r.localOperations
  | _ => []

/-- The round of a task. -/
def Task.rounds : Task Op → List (Round Op)
  | round r => [r]
  | _ => []

theorem Task.eq_of_mem_rounds {task : Task Op} {r : Round Op} (h : r ∈ task.rounds) : task = .round r := by
  cases task with
  | round r' => rw [List.mem_singleton.mp h]
  | enter fnName required => exact absurd h List.not_mem_nil
  | leave reached => exact absurd h List.not_mem_nil
  | prepare => exact absurd h List.not_mem_nil

/-- The operations of the first `k` tasks. -/
def MpcCircuit.doneAt (circuit : MpcCircuit S Op) (k : ℕ) : List Op :=
  ((circuit.tasks.take k).flatMap Task.rounds).flatMap Round.operations

/-- The operations whose outputs are stored when the exchange of the next task begins. -/
def MpcCircuit.localsAt (circuit : MpcCircuit S Op) (k : ℕ) : List Op :=
  circuit.doneAt k ++ (circuit.tasks[k]?).elim [] Task.localOperations

/-- The network operations of the task after `k` tasks. -/
def MpcCircuit.networkAt (circuit : MpcCircuit S Op) (k : ℕ) : List Op :=
  (circuit.tasks[k]?).elim [] Task.networkOperations

variable {circuit : MpcCircuit S Op} {k : ℕ} {task : Task Op}

theorem flatMap_rounds (circuit : MpcCircuit S Op) :
    circuit.tasks.flatMap Task.rounds = circuit.offlineRounds ++ circuit.onlineRounds := by
  have hmap : ∀ rounds : List (Round Op), (rounds.map Task.round).flatMap Task.rounds = rounds := fun rounds => by
    rw [List.flatMap_map]
    exact List.flatMap_singleton' rounds
  simp only [MpcCircuit.tasks, List.flatMap_append, List.flatMap_cons, List.flatMap_nil, Task.rounds, hmap,
    List.nil_append, List.append_nil]

theorem tasks_split (h : circuit.tasks[k]? = some task) :
    circuit.tasks = circuit.tasks.take k ++ task :: circuit.tasks.drop (k + 1) := by
  obtain ⟨hlt, rfl⟩ := List.getElem?_eq_some_iff.mp h
  rw [List.getElem_cons_drop, List.take_append_drop]

theorem rounds_split (h : circuit.tasks[k]? = some task) :
    circuit.offlineRounds ++ circuit.onlineRounds =
      (circuit.tasks.take k).flatMap Task.rounds ++ task.rounds ++ (circuit.tasks.drop (k + 1)).flatMap Task.rounds := by
  rw [← flatMap_rounds]
  conv_lhs => rw [tasks_split h]
  simp

theorem doneAt_succ (h : circuit.tasks[k]? = some task) :
    circuit.doneAt (k + 1) = circuit.localsAt k ++ circuit.networkAt k := by
  rw [MpcCircuit.doneAt, MpcCircuit.localsAt, MpcCircuit.networkAt, MpcCircuit.doneAt, List.take_add_one, h]
  cases task <;> simp [Task.rounds, Task.localOperations, Task.networkOperations, Round.operations]

theorem operations_split (h : circuit.tasks[k]? = some task) :
    ∃ rest, circuit.operations = circuit.doneAt (k + 1) ++ rest := by
  refine ⟨((circuit.tasks.drop (k + 1)).flatMap Task.rounds).flatMap Round.operations, ?_⟩
  have hops : circuit.operations = (circuit.offlineRounds ++ circuit.onlineRounds).flatMap Round.operations := by
    simp [MpcCircuit.operations, MpcCircuit.offlineOperations, MpcCircuit.onlineOperations]
  rw [hops, rounds_split h, MpcCircuit.doneAt, List.take_add_one, h]
  simp

theorem doneAt_length (circuit : MpcCircuit S Op) : circuit.doneAt circuit.tasks.length = circuit.operations := by
  rw [MpcCircuit.doneAt, List.take_length, flatMap_rounds]
  simp [MpcCircuit.operations, MpcCircuit.offlineOperations, MpcCircuit.onlineOperations]

theorem mem_offlineRounds_of_unprepared {round : Round Op} (h : circuit.tasks[k]? = some (.round round))
    (hp : .prepare ∉ circuit.tasks.take k) : round ∈ circuit.offlineRounds := by
  set before : List (Task Op) :=
    .enter "do_offline" .handshaked :: circuit.offlineRounds.map .round ++ [.leave .finishedOffline] with hbefore
  have htasks : circuit.tasks = before ++ .prepare ::
      (.enter "do_online" .readyOnline :: circuit.onlineRounds.map .round ++ [.leave .finished]) := by
    simp [MpcCircuit.tasks, hbefore]
  have hlt : k < before.length := by
    by_contra hge
    obtain hlt | hle := Nat.lt_or_ge before.length k
    · apply hp
      rw [htasks, List.take_append, List.take_of_length_le (by omega), List.mem_append]
      right
      obtain ⟨d, hd⟩ : ∃ d, k - before.length = d + 1 := ⟨k - before.length - 1, by omega⟩
      rw [hd, List.take_succ_cons]
      exact List.mem_cons_self
    · have hk : k = before.length := by omega
      rw [htasks, hk, List.getElem?_append_right le_rfl, Nat.sub_self] at h
      exact absurd h (by simp)
  rw [htasks, List.getElem?_append_left hlt] at h
  have hmem := List.mem_of_getElem? h
  simpa [hbefore] using hmem

end

/-! ### The inputs of a party -/

/-- The value a party supplies for a wire, and zero when it supplies none. -/
def suppliedValue (userInputs : List (WireId × ℕ)) (w : WireId) : ℕ :=
  ((userInputs.find? fun input => input.1 = w).map Prod.snd).getD 0

/-- The wires of the inputs that a party owns. -/
def inputWires (circuit : AdditiveCircuit M) (p : ℕ) : List WireId :=
  ((circuit.onlineRounds.flatMap Round.networkOperations).filter fun op => getInputPartyId op = some p).map
    AdditiveOperation.output

/-- The entry of each wire after the preparation: its value, or the entry it had. -/
theorem additivePrepare_get : ∀ (userInputs : List (WireId × ℕ)) (c : AdditiveContext),
    (userInputs.map Prod.fst).Nodup → ∀ w, (additivePrepare M userInputs c).userInputs.get w =
      (((userInputs.find? fun input => input.1 = w).map fun input => some (input.2 % M)).getD (c.userInputs.get w))
  | [], _, _, _ => rfl
  | (w, v) :: userInputs, c, hnd, w' => by
      obtain ⟨hw, hnd⟩ := List.nodup_cons.mp hnd
      rw [additivePrepare, additivePrepare_get userInputs _ hnd w']
      by_cases hww : w = w'
      · subst hww
        have hnone : (userInputs.find? fun input => input.1 = w) = none :=
          List.find?_eq_none.mpr fun input hinput hi => hw (List.mem_map.mpr ⟨input, hinput, by simpa using hi⟩)
        simp [hnone]
      · have hne : w' ≠ w := fun h => hww h.symm
        rw [List.find?_cons_of_neg (by simpa using hww), PMap.get_insert_ne _ _ hne]

theorem additivePrepare_rng : ∀ (userInputs : List (WireId × ℕ)) (c : AdditiveContext),
    (additivePrepare M userInputs c).rng = c.rng
  | [], _ => rfl
  | (_, _) :: userInputs, _ => additivePrepare_rng userInputs _

theorem additivePrepare_eq (userInputs : List (WireId × ℕ)) (c : AdditiveContext)
    (hnd : (userInputs.map Prod.fst).Nodup) (hzero : ∀ w, (c.userInputs.get w).getD 0 = 0) :
    (additivePrepare M userInputs c).rng = c.rng ∧
      ∀ w, ((additivePrepare M userInputs c).userInputs.get w).getD 0 = suppliedValue userInputs w % M := by
  refine ⟨additivePrepare_rng userInputs c, fun w => ?_⟩
  rw [additivePrepare_get userInputs c hnd w, suppliedValue]
  cases userInputs.find? fun input => input.1 = w with
  | none => simpa using hzero w
  | some input => simp

theorem additivePrepare_mem {userInputs : List (WireId × ℕ)} (hnd : (userInputs.map Prod.fst).Nodup)
    (c : AdditiveContext) {w : WireId} {v : ℕ} (h : (w, v) ∈ userInputs) :
    (additivePrepare M userInputs c).userInputs.get w = some (v % M) := by
  rw [additivePrepare_get userInputs c hnd w]
  have hfind : (userInputs.find? fun input => input.1 = w) = some (w, v) := by
    obtain ⟨input, hfind⟩ : ∃ input, (userInputs.find? fun input => input.1 = w) = some input :=
      Option.isSome_iff_exists.mp (List.find?_isSome.mpr ⟨(w, v), h, by simp⟩)
    have hw : input.1 = w := by simpa using List.find?_some hfind
    rw [hfind, List.inj_on_of_nodup_map hnd (List.mem_of_find?_eq_some hfind) h hw]
  simp [hfind]

section

variable {circuit : AdditiveCircuit M} {p : Fin n}

/-- `prepare_input` accepts these inputs of a party. -/
def Accepts (circuit : AdditiveCircuit M) (p : Fin n) (userInputs : List (WireId × ℕ)) : Prop :=
  ∀ ec : AdditiveExecution M n, ec.circuit = circuit → ec.network.id = p →
    ec.executionState = .finishedOffline → ec.schemeContext.isSome = true →
      (ExecutionContext.prepareInput userInputs ec).1 = .ok ()

theorem getInputOperationWireIdsOfParty_eq {ε : Type} (circuit : AdditiveCircuit M) (p : ℕ) :
    (circuit.getInputOperationWireIdsOfParty p : Outcome ε _) = .ok (inputWires circuit p) := by
  rw [AdditiveOperation.oneOutputPerInput.getInputOperationWireIdsOfParty_eq, inputWires, List.map_eq_flatMap]
  rfl

/-- What the preparation checks of the inputs it accepts, and does with them. -/
theorem prepareInput_eq_ok {N : Type} [Network N ℕ] {userInputs : List (WireId × ℕ)}
    {ec ec' : ExecutionContext (AdditiveScheme M) AdditiveOperation ℕ ℕ AdditiveContext AdditivePending N}
    {context : AdditiveContext} (hctx : ec.schemeContext = some context)
    (h : ExecutionContext.prepareInput userInputs ec = (.ok (), ec')) :
    (userInputs.map Prod.fst).Nodup ∧
      (∀ w, w ∈ inputWires ec.circuit (Network.myId ℕ ec.network) ↔ w ∈ userInputs.map Prod.fst) ∧
      ec' = { ec with
        schemeContext := some (additivePrepare M userInputs context), executionState := .readyOnline } := by
  obtain ⟨_, ec₁, h1, -⟩ := Act.bind_eq_ok.mp h
  obtain ⟨-, ⟨-, hstate⟩ | ⟨hne, -⟩⟩ := ExecutionContext.assertState_eq h1
  · obtain ⟨hs, hrun⟩ | ⟨e, -, hrun⟩ := ExecutionContext.prepareInput_of_wireIds hstate hctx
      (getInputOperationWireIdsOfParty_eq ec.circuit (Network.myId ℕ ec.network)) userInputs
    · rw [hrun] at h
      exact ⟨hs.nodup, fun w => (hs.mem_iff w).symm, (Prod.mk.inj h).2.symm⟩
    · rw [hrun] at h
      cases (Prod.mk.inj h).1
  · exact absurd rfl hne

theorem accepts_of_perm (hnd : (inputWires circuit p).Nodup) {userInputs : List (WireId × ℕ)}
    (h : (userInputs.map Prod.fst).Perm (inputWires circuit p)) : Accepts circuit p userInputs := by
  intro ec hc hid hstate hctx
  obtain ⟨context, hctx⟩ := Option.isSome_iff_exists.mp hctx
  have hwires : ec.circuit.getInputOperationWireIdsOfParty (@Network.myId (Link n ℕ) ℕ _ ec.network) =
      (.ok (inputWires circuit p) : Outcome Fault _) := by
    rw [hc, ← hid]
    exact getInputOperationWireIdsOfParty_eq circuit ec.network.id
  obtain ⟨-, hrun⟩ | ⟨e, hf, -⟩ := ExecutionContext.prepareInput_of_wireIds hstate hctx hwires userInputs
  · rw [hrun]
  · exact absurd ⟨h.nodup_iff.mpr hnd, fun w => h.mem_iff⟩ hf.not_supplies

end

/-! ### Parties and stages, value by value -/

/-- The shares of all wires, for the inputs the parties supply. -/
abbrev shares (circuit : AdditiveCircuit M) (inputs : Fin n → List (WireId × ℕ)) (draws : Fin n → Draws) :
    WireId → Fin n → ℕ :=
  shareTable M (fun p => suppliedValue (inputs p)) draws circuit.operations

/-- What the context of a party holds for its inputs after `k` tasks. -/
def suppliedAt (circuit : AdditiveCircuit M) (userInputs : List (WireId × ℕ)) (k : ℕ) (w : WireId) : ℕ :=
  if .prepare ∈ circuit.tasks.take k then suppliedValue userInputs w % M else 0

/-- The message from party `q` to party `p` in the task after `k` tasks. -/
def messageAt (circuit : AdditiveCircuit M) (inputs : Fin n → List (WireId × ℕ)) (draws : Fin n → Draws) (k : ℕ)
    (q p : Fin n) : Option (Message ℕ) :=
  messageTo (batchOf draws (shares circuit inputs draws) q (circuit.localsAt k) (circuit.networkAt k)).sendRequests p

/-- The values of a party after `k` tasks. -/
structure ValuesAt (circuit : AdditiveCircuit M) (inputs : Fin n → List (WireId × ℕ)) (draws : Fin n → Draws)
    (p : Fin n) (k : ℕ) (party : AdditiveParty M n) : Prop where
  ok : party.outcome = .ok ()
  follows : ∃ context, party.context.schemeContext = some context ∧
    Follows (suppliedAt circuit (inputs p) k) draws (shares circuit inputs draws) p (circuit.doneAt k)
      (circuit.doneAt k) context party.context.wireContents
  received : party.received = (List.range k).map fun j q => messageAt circuit inputs draws j q p

/-- The values of a party in the task after `k` tasks. -/
structure StageValues (circuit : AdditiveCircuit M) (inputs : Fin n → List (WireId × ℕ)) (draws : Fin n → Draws)
    (p : Fin n) (k : ℕ) (stage : AdditiveStage M n) : Prop where
  batch : stage.batch = batchOf draws (shares circuit inputs draws) p (circuit.localsAt k) (circuit.networkAt k)
  follows : ∃ context, stage.context.schemeContext = some context ∧
    Follows (suppliedAt circuit (inputs p) (k + 1)) draws (shares circuit inputs draws) p (circuit.localsAt k)
      (circuit.doneAt (k + 1)) context stage.context.wireContents
  received : stage.received = (List.range k).map fun j q => messageAt circuit inputs draws j q p

section

variable {circuit : AdditiveCircuit M} {inputs : Fin n → List (WireId × ℕ)} {draws : Fin n → Draws} {p : Fin n}
  {k : ℕ} {party : AdditiveParty M n} {stage : AdditiveStage M n} {task : Task AdditiveOperation}
  {todo : List (Task AdditiveOperation)}

theorem suppliedAt_succ (h : circuit.tasks[k]? = some task) (hne : task ≠ .prepare)
    (userInputs : List (WireId × ℕ)) : suppliedAt circuit userInputs (k + 1) = suppliedAt circuit userInputs k := by
  have hiff : .prepare ∈ circuit.tasks.take (k + 1) ↔ .prepare ∈ circuit.tasks.take k := by
    rw [List.take_add_one, h, List.mem_append]
    exact or_iff_left fun hmem => hne (List.mem_singleton.mp hmem).symm
  funext w
  simp only [suppliedAt, hiff]

/-- The task that a party takes next. -/
theorem PartyAt.next (hat : PartyAt circuit p k party) (htodo : party.todo = task :: todo) :
    circuit.tasks[k]? = some task ∧ task.Allowed party.context.executionState := by
  have hdrop : circuit.tasks.drop k = task :: todo := hat.todo ▸ htodo
  have hlegal := legal_drop circuit k
  rw [hdrop, ← hat.state] at hlegal
  refine ⟨?_, hlegal.2.1⟩
  rw [← List.head?_drop, hdrop]
  rfl

theorem withContext_of {α : Type}
    {x : Act (Exec AdditiveOperation ℕ ℕ AdditiveContext AdditivePending (Link n ℕ)) Fault α}
    (ec : AdditiveExecution M n) {context : AdditiveContext} (hctx : ec.schemeContext = some context)
    {r : Outcome Fault α} {s : Exec AdditiveOperation ℕ ℕ AdditiveContext AdditivePending (Link n ℕ)}
    (h : x ⟨context, ec.wireContents, ec.network, ec.calls⟩ = (r, s)) :
    ExecutionContext.withContext x ec = (r, { ec with
      schemeContext := some s.context, wireContents := s.wireContents, network := s.network, calls := s.calls }) := by
  simp only [ExecutionContext.withContext, hctx, h]

theorem sendRequests_ok {batch : Batch ℕ AdditivePending} {nops : List AdditiveOperation}
    (hshape : batch.Shape n p nops) {s : Exec AdditiveOperation ℕ ℕ AdditiveContext AdditivePending (Link n ℕ)}
    (hid : s.network.id = p) : ∃ len s', sendRequests batch.sendRequests s = (.ok len, s') := by
  have hopen : s.network.unavailable (batch.sendRequests.map SendRequest.toId) = none := by
    apply Link.unavailable_eq_none
    intro i hi
    rw [hshape.sends] at hi
    obtain ⟨op, -, hi⟩ := List.mem_flatMap.mp hi
    rw [hid]
    exact AdditiveOperation.peersTo_valid hi
  have hsend : Network.sendObjectsMany batch.sendRequests s.network =
      Link.sendObjectsMany batch.sendRequests s.network := rfl
  refine ⟨s.network.bytes (messageTo batch.sendRequests), _, Prod.ext ?_ rfl⟩
  simp only [sendRequests, hsend, Link.sendObjectsMany, hopen, Outcome.mapErr]

/-- What the operations of a round read is stored before it. -/
theorem Executable.stored_round (hx : Executable n circuit) {round : Round AdditiveOperation}
    (htask : circuit.tasks[k]? = some (.round round)) : round.Stored (producedWires (circuit.doneAt k)) := by
  have := hx.stored ((circuit.tasks.take k).flatMap Task.rounds) round
    ((circuit.tasks.drop (k + 1)).flatMap Task.rounds) ((rounds_split htask).trans (by simp [Task.rounds]))
  rwa [List.nil_append] at this

theorem Executable.prepared (hx : Executable n circuit) {round : Round AdditiveOperation}
    (htask : circuit.tasks[k]? = some (.round round)) {partyId : ℕ} {w : WireId}
    (hop : .input partyId w ∈ round.networkOperations) : .prepare ∈ circuit.tasks.take (k + 1) := by
  by_contra hno
  have hno : .prepare ∉ circuit.tasks.take k := fun hmem => hno (by
    rw [List.take_add_one]
    exact List.mem_append_left _ hmem)
  have hoffline := hx.offline _ (List.mem_flatMap.mpr ⟨round, mem_offlineRounds_of_unprepared htask hno,
    List.mem_append_right _ hop⟩)
  exact absurd hoffline (by simp [isInput, getInputPartyId])

theorem ValuesAt.beginRound (hx : Executable n circuit) (hr : Regular M draws circuit.operations)
    (hat : PartyAt circuit p k party) (h : ValuesAt circuit inputs draws p k party) {round : Round AdditiveOperation}
    (htask : circuit.tasks[k]? = some (.round round)) :
    ∃ batch ec, (Task.round round).begin party.context.circuit.scheme (inputs p) party.context = (.ok batch, ec) ∧
      batch = batchOf draws (shares circuit inputs draws) p (circuit.localsAt k) (circuit.networkAt k) ∧
      ∃ context, ec.schemeContext = some context ∧
        Follows (suppliedAt circuit (inputs p) (k + 1)) draws (shares circuit inputs draws) p (circuit.localsAt k)
          (circuit.doneAt (k + 1)) context ec.wireContents := by
  set table := shares circuit inputs draws with htable
  set scheme := party.context.circuit.scheme with hscheme
  obtain ⟨context, hctx, hf⟩ := h.follows
  obtain ⟨⟨hid, _, hctx', hmy, hn⟩, -⟩ := hat.seated h.ok
  obtain rfl : context = _ := Option.some.inj (hctx.symm.trans hctx')
  have hlocals : circuit.localsAt k = circuit.doneAt k ++ round.localOperations := by
    rw [MpcCircuit.localsAt, htask]; rfl
  have hnetwork : circuit.networkAt k = round.networkOperations := by rw [MpcCircuit.networkAt, htask]; rfl
  obtain ⟨rest, hops⟩ := operations_split htask
  have hdone := doneAt_succ htask
  rw [hdone, hlocals] at hops
  rw [← suppliedAt_succ htask (by simp)] at hf
  have hround : round ∈ circuit.offlineRounds ++ circuit.onlineRounds := by simp [rounds_split htask, Task.rounds]
  obtain ⟨s₁, h1, hf1⟩ := doLocalOperations_values scheme hr round.localOperations
    (s := ⟨context, party.context.wireContents, party.context.network, party.context.calls⟩)
    ⟨round.networkOperations ++ rest, by rw [hops, hnetwork, List.append_assoc]⟩
    (hx.locals round hround) hf
  rw [← hlocals] at hf1
  have h1 : doLocalOperations scheme round
      ⟨context, party.context.wireContents, party.context.network, party.context.calls⟩ = (.ok (), s₁) := h1
  obtain ⟨s₂, h2, hf2⟩ := networkPhases_values scheme hr (fun o ho => by
      rw [hops, ← hlocals]; exact List.mem_append_left _ (List.mem_append_left _ ho)) round.networkOperations .empty
    ⟨rest, by rw [hlocals, ← hnetwork, hops]⟩
    (fun op hop w hw => by
      have := (hx.stored_round htask).networkOps op hop w hw
      rwa [← producedWires_append, ← hlocals, producedWires_eq] at this)
    (fun op hop output ho => by
      subst ho
      simp only [suppliedAt, if_pos (hx.prepared htask hop)])
    hf1
  have hseat1 := doLocalOperations_sameSeat scheme round
    ⟨context, party.context.wireContents, party.context.network, party.context.calls⟩
    (by rw [h1]; simp)
  rw [h1] at hseat1
  obtain ⟨hnet1, hmy1, hn1⟩ := hseat1
  obtain ⟨⟨hnet2, -, -⟩, hshape⟩ := networkPhases_shape scheme [] h2 (Batch.Shape.empty _)
  rw [hmy1, hn1, hmy, hn, List.nil_append] at hshape
  obtain ⟨len, s₃, h3⟩ := sendRequests_ok (p := p) hshape (s := s₂) (by rw [hnet2, hnet1]; exact hid)
  obtain ⟨hctx3, -⟩ := sendRequests_eq h3
  have hw3 : s₃.wireContents = s₂.wireContents := by
    obtain ⟨-, rfl⟩ := Prod.mk.inj h3
    rfl
  have hrun : ((doLocalOperations scheme round).bind fun _ =>
      (networkPhases scheme round.networkOperations .empty).bind fun batch =>
        (sendRequests batch.sendRequests).bind fun _ => .ret (.ok batch))
      ⟨context, party.context.wireContents, party.context.network, party.context.calls⟩ =
      (.ok (batchOf draws table p (circuit.localsAt k) round.networkOperations), s₃) := by
    rw [Act.bind_of_ok h1, Act.bind_of_ok h2, Act.bind_of_ok h3]
    rfl
  have hbegin := withContext_of party.context hctx hrun
  rw [← begin_round scheme (inputs p)] at hbegin
  refine ⟨_, _, hbegin, ?_, s₃.context, rfl, ?_⟩
  · rw [hnetwork]
  · change Follows _ _ _ _ _ _ s₃.context s₃.wireContents
    rw [hctx3, hw3, hdone, hnetwork]
    exact hf2

theorem prepare_notMem (htask : circuit.tasks[k]? = some .prepare) : .prepare ∉ circuit.tasks.take k := by
  intro hmem
  have hcount : circuit.tasks.count .prepare = 1 := by
    have hrounds : ∀ rounds : List (Round AdditiveOperation), (rounds.map Task.round).count .prepare = 0 :=
      fun rounds => List.count_eq_zero.mpr (by simp)
    simp [MpcCircuit.tasks, hrounds]
  rw [tasks_split htask, List.count_append, List.count_cons_self] at hcount
  have := List.count_pos_iff.mpr hmem
  omega

theorem Executable.input_notMem (hx : Executable n circuit) (hk : .prepare ∉ circuit.tasks.take k) (partyId : ℕ)
    (w : WireId) : .input partyId w ∉ circuit.doneAt k := by
  intro hmem
  obtain ⟨round, hround, hop⟩ := List.mem_flatMap.mp hmem
  obtain ⟨task, htask, hr⟩ := List.mem_flatMap.mp hround
  obtain ⟨j, hj⟩ := List.getElem?_of_mem htask
  have hjk : j < k := by
    have := (List.getElem?_eq_some_iff.mp hj).1
    rw [List.length_take] at this
    omega
  rw [List.getElem?_take_of_lt hjk, Task.eq_of_mem_rounds hr] at hj
  have hoffline := mem_offlineRounds_of_unprepared hj fun hm =>
    hk ((List.take_sublist_take_left (le_of_lt hjk)).subset hm)
  have := hx.offline _ (List.mem_flatMap.mpr ⟨round, hoffline, hop⟩)
  exact absurd this (by simp [isInput, getInputPartyId])

/-- The preparation of the inputs hands the supplied values to the context. -/
theorem Follows.prepare {table : WireId → Fin n → ℕ} {context : AdditiveContext} {wires : PMap WireId ℕ}
    {userInputs : List (WireId × ℕ)} {stored : List AdditiveOperation} (hx : Executable n circuit)
    (htask : circuit.tasks[k]? = some .prepare) (hnd : (userInputs.map Prod.fst).Nodup)
    (h : Follows (suppliedAt circuit userInputs k) draws table p stored (circuit.doneAt k) context wires) :
    Follows (suppliedAt circuit userInputs (k + 1)) draws table p stored (circuit.doneAt k)
      (additivePrepare M userInputs context) wires := by
  have hbefore := prepare_notMem htask
  have hafter : .prepare ∈ circuit.tasks.take (k + 1) := by
    rw [List.take_add_one, htask]
    simp
  obtain ⟨hrng, hsupplied⟩ := additivePrepare_eq (M := M) userInputs context hnd fun w => by
    rw [h.userInputs w (hx.input_notMem hbefore p w), suppliedAt, if_neg hbefore]
  obtain ⟨hmy, hn⟩ := additivePrepare_sameSeat (M := M) userInputs context
  exact ⟨hmy.trans h.myId, hn.trans h.nPlayers, fun i => by rw [hrng]; exact h.rng i,
    fun w _ => by rw [hsupplied, suppliedAt, if_pos hafter], h.wires⟩

/-- **The first half of a task**, value by value: it succeeds, unless the inputs are not accepted. -/
theorem ValuesAt.begin (hx : Executable n circuit) (hr : Regular M draws circuit.operations)
    (hat : PartyAt circuit p k party) (h : ValuesAt circuit inputs draws p k party) (htodo : party.todo = task :: todo)
    (haccept : task = .prepare → (ExecutionContext.prepareInput (inputs p) party.context).1 = .ok ()) :
    ∃ batch ec, task.begin party.context.circuit.scheme (inputs p) party.context = (.ok batch, ec) ∧
      StageValues circuit inputs draws p k ⟨ec, task, todo, batch, party.round, party.received⟩ := by
  obtain ⟨htask, hallowed⟩ := hat.next htodo
  obtain ⟨context, hctx, hf⟩ := h.follows
  have hsilent : task.localOperations = [] → task.networkOperations = [] →
      circuit.localsAt k = circuit.doneAt k ∧ circuit.doneAt (k + 1) = circuit.doneAt k ∧
        batchOf draws (shares circuit inputs draws) p (circuit.localsAt k) (circuit.networkAt k) = .empty := by
    intro hl hn
    have hlocals : circuit.localsAt k = circuit.doneAt k := by
      rw [MpcCircuit.localsAt, htask]
      simp [hl]
    have hnetwork : circuit.networkAt k = [] := by
      rw [MpcCircuit.networkAt, htask]
      exact hn
    refine ⟨hlocals, ?_, ?_⟩
    · rw [doneAt_succ htask, hlocals, hnetwork, List.append_nil]
    · rw [hnetwork]
      rfl
  cases task with
  | enter fnName required =>
      obtain ⟨hlocals, hdone, hbatch⟩ := hsilent rfl rfl
      have hstate : ExecutionContext.assertState fnName required party.context = (.ok (), party.context) := by
        have hallowed : party.context.executionState = required := hallowed
        rw [ExecutionContext.assertState, if_pos hallowed]
      refine ⟨.empty, party.context, Act.bind_of_ok hstate, hbatch.symm, ⟨context, hctx, ?_⟩, h.received⟩
      rwa [hlocals, hdone, suppliedAt_succ htask (by simp)]
  | leave reached =>
      obtain ⟨hlocals, hdone, hbatch⟩ := hsilent rfl rfl
      refine ⟨.empty, { party.context with executionState := reached }, rfl, hbatch.symm, ⟨context, hctx, ?_⟩,
        h.received⟩
      rwa [hlocals, hdone, suppliedAt_succ htask (by simp)]
  | prepare =>
      obtain ⟨hlocals, hdone, hbatch⟩ := hsilent rfl rfl
      have hprep := Act.eq_of_fst (haccept rfl)
      obtain ⟨hnd, -, hec⟩ := prepareInput_eq_ok hctx hprep
      rw [hec] at hprep
      refine ⟨.empty, _, Act.bind_of_ok hprep, hbatch.symm, ⟨additivePrepare M (inputs p) context, rfl, ?_⟩,
        h.received⟩
      rw [hlocals, hdone]
      exact hf.prepare hx htask hnd
  | round round =>
      obtain ⟨batch, ec, h1, h2, h3⟩ := h.beginRound hx hr hat htask
      exact ⟨batch, ec, h1, h2, h3, h.received⟩

/-! ### The second half of a task -/

/-- The messages that a stage has received are those of its round. -/
def InboxAt (circuit : AdditiveCircuit M) (inputs : Fin n → List (WireId × ℕ)) (draws : Fin n → Draws) (p : Fin n)
    (k : ℕ) (inbox : Fin n → Option (Packet ℕ)) : Prop :=
  ∀ q, (inbox q).map Packet.message = messageAt circuit inputs draws k q p

theorem StageAt.messageAt_eq (hat : StageAt circuit p k stage) (h : StageValues circuit inputs draws p k stage)
    {q : Fin n} (hq : q ∈ namedPeers n stage.batch.receiveRequests) :
    messageAt circuit inputs draws k q p = some (.objects
      (objectsFrom (roundItems draws (shares circuit inputs draws) p (circuit.localsAt k) (circuit.networkAt k)) q)) := by
  have hdata := objectsFrom_roundItems draws (shares circuit inputs draws) p q (circuit.networkAt k) (circuit.localsAt k)
  rw [messageAt, messageTo, hdata, if_neg]
  intro hempty
  rw [List.isEmpty_iff] at hempty
  obtain ⟨req, hreq, hreqq⟩ := mem_namedPeers.mp hq
  obtain ⟨op, -, hop⟩ := List.mem_flatMap.mp (hat.shape.receives ▸ hreq)
  obtain ⟨i, -, rfl⟩ := List.mem_map.mp hop
  rw [h.batch, ← roundItems_fst] at hreq
  obtain ⟨item, hitem, hfst⟩ := List.mem_map.mp hreq
  have hlen := roundItems_length draws (shares circuit inputs draws) p _ _ item hitem
  have hnil : item.2 = [] :=
    List.flatMap_eq_nil_iff.mp hempty item (List.mem_filter.mpr ⟨hitem, by rw [hfst]; simpa using hreqq⟩)
  rw [hnil, hfst] at hlen
  exact absurd hlen (by simp [expectedCount, ReceiveRequest.new])

/-- A peer without a request sends nothing. -/
theorem StageValues.messageAt_eq_none (h : StageValues circuit inputs draws p k stage) {q : Fin n}
    (hq : q ∉ namedPeers n stage.batch.receiveRequests) : messageAt circuit inputs draws k q p = none := by
  have hdata := objectsFrom_roundItems draws (shares circuit inputs draws) p q (circuit.networkAt k) (circuit.localsAt k)
  have hnone : objectsFrom (roundItems draws (shares circuit inputs draws) p (circuit.localsAt k)
      (circuit.networkAt k)) q = [] := by
    refine List.flatMap_eq_nil_iff.mpr fun item hitem => absurd ?_ hq
    obtain ⟨hitem, hfrom⟩ := List.mem_filter.mp hitem
    refine mem_namedPeers.mpr ⟨item.1, ?_, by simpa using hfrom⟩
    rw [h.batch, ← roundItems_fst]
    exact List.mem_map_of_mem hitem
  rw [messageAt, messageTo, hdata, hnone]
  rfl

/-- The exchange gives every request of a stage the element that answers it. -/
theorem StageValues.recvRequests_eq (hown : ∀ task ∈ circuit.tasks, ∀ op ∈ task.networkOperations, op.Owned n)
    (hat : StageAt circuit p k stage) (h : StageValues circuit inputs draws p k stage)
    {inbox : Fin n → Option (Packet ℕ)} (hin : InboxAt circuit inputs draws p k inbox) (context : AdditiveContext) :
    ∃ len s, recvRequests stage.batch.receiveRequests
        ⟨context, stage.context.wireContents, stage.context.network.exchange inbox, stage.context.calls⟩ =
          (.ok ((roundItems draws (shares circuit inputs draws) p (circuit.localsAt k) (circuit.networkAt k)).map
            Prod.snd, len), s) ∧
      s.context = context ∧ s.wireContents = stage.context.wireContents := by
  set items := roundItems draws (shares circuit inputs draws) p (circuit.localsAt k) (circuit.networkAt k) with hitems
  have hfst : items.map Prod.fst = stage.batch.receiveRequests := by rw [h.batch, hitems, roundItems_fst]
  obtain ⟨len, hrecv⟩ := Link.recvMany_eq (stage.context.network.exchange inbox) Message.toObjects
    (roundItems_length draws (shares circuit inputs draws) p (circuit.localsAt k) (circuit.networkAt k))
    (by rw [← hitems, hfst]; exact hat.available hown hat.seated.1)
    (fun q hq => by
      rw [← hitems, hfst] at hq
      have hmsg := hin q
      rw [hat.messageAt_eq h hq] at hmsg
      exact ⟨.objects (objectsFrom items q), by simp [Link.exchange, hmsg, hitems], rfl⟩)
  rw [← hitems, hfst] at hrecv
  refine ⟨len, _, Prod.ext ?_ rfl, rfl, rfl⟩
  exact Outcome.mapErr_eq_ok.mpr (congrArg Prod.fst hrecv)

/-- **The second half of a task**, value by value. -/
theorem StageValues.finish (hr : Regular M draws circuit.operations)
    (hown : ∀ task ∈ circuit.tasks, ∀ op ∈ task.networkOperations, op.Owned n)
    (hat : StageAt circuit p k stage) (h : StageValues circuit inputs draws p k stage)
    {inbox : Fin n → Option (Packet ℕ)} (hin : InboxAt circuit inputs draws p k inbox) :
    ValuesAt circuit inputs draws p (k + 1) ((Cluster.program inputs).finish p stage inbox) := by
  set table := shares circuit inputs draws with htable
  obtain ⟨context, hctx, hf⟩ := h.follows
  have hdone := doneAt_succ hat.task
  have hreceived : stage.received ++ [fun q => (inbox q).map Packet.message] =
      (List.range (k + 1)).map fun j q => messageAt circuit inputs draws j q p := by
    rw [h.received, List.range_succ, List.map_append, List.map_singleton]
    congr 2
    exact funext hin
  have hsilent : stage.task.networkOperations = [] →
      stage.task.complete stage.context.circuit.scheme stage.batch
          { stage.context with network := stage.context.network.exchange inbox } =
        (.ok (), { stage.context with network := stage.context.network.exchange inbox }) →
      ValuesAt circuit inputs draws p (k + 1) ((Cluster.program inputs).finish p stage inbox) := by
    intro hnone hc
    simp only [Cluster.program, hc]
    refine ⟨rfl, ⟨context, hctx, ?_⟩, hreceived⟩
    have hnetwork : circuit.networkAt k = [] := by
      rw [MpcCircuit.networkAt, hat.task]
      exact hnone
    rw [hnetwork, List.append_nil] at hdone
    rwa [← hdone] at hf
  cases htask : stage.task with
  | enter fnName required => exact hsilent (by rw [htask]; rfl) (by rw [htask]; rfl)
  | leave reached => exact hsilent (by rw [htask]; rfl) (by rw [htask]; rfl)
  | prepare => exact hsilent (by rw [htask]; rfl) (by rw [htask]; rfl)
  | round round =>
      have htaskk : circuit.tasks[k]? = some (.round round) := by rw [hat.task, htask]
      have hnetwork : circuit.networkAt k = round.networkOperations := by rw [MpcCircuit.networkAt, htaskk]; rfl
      set scheme := stage.context.circuit.scheme with hscheme
      obtain ⟨len, s₁, h1, hc1, hw1⟩ := h.recvRequests_eq hown hat hin context
      set items := roundItems draws table p (circuit.localsAt k) (circuit.networkAt k) with hitems
      obtain ⟨rest, hops⟩ := operations_split htaskk
      rw [hdone] at hops
      obtain ⟨s₂, h2, hf2⟩ := finishNetworkOperations_values scheme hr ⟨rest, hops⟩ (s := s₁)
        (by rw [hc1, hw1]; exact hf)
      have h2 : finishNetworkOperations scheme round.networkOperations stage.batch (items.map Prod.snd) s₁ =
          (.ok (), s₂) := by
        rw [h.batch, ← hnetwork]
        exact h2
      have hrun : ((recvRequests stage.batch.receiveRequests).bind fun received =>
          finishNetworkOperations scheme round.networkOperations stage.batch received.1) ⟨context,
            stage.context.wireContents, stage.context.network.exchange inbox, stage.context.calls⟩ = (.ok (), s₂) := by
        rw [Act.bind_of_ok h1]
        exact h2
      have hcomplete := withContext_of { stage.context with network := stage.context.network.exchange inbox } hctx hrun
      rw [← complete_round] at hcomplete
      simp only [Cluster.program, htask, ← hscheme, hcomplete]
      refine ⟨rfl, ⟨s₂.context, rfl, ?_⟩, hreceived⟩
      rw [← hdone] at hf2
      exact hf2

end

/-! ### Every reachable net -/

namespace Cluster

variable {circuit : AdditiveCircuit M} {size : Message ℕ → ℕ} {draws : Fin n → Draws}
  {inputs : Fin n → List (WireId × ℕ)} {p q : Fin n} {k : ℕ}

theorem valuesAt_zero (circuit : AdditiveCircuit M) (size : Message ℕ → ℕ) (inputs : Fin n → List (WireId × ℕ))
    (draws : Fin n → Draws) (p : Fin n) :
    ValuesAt circuit inputs draws p 0 (additiveParties circuit size draws p) := by
  refine ⟨rfl, ⟨⟨p, n, .empty, draws p⟩, rfl, rfl, rfl, fun i => ?_, fun w _ => rfl, fun w => rfl⟩, rfl⟩
  simp [MpcCircuit.doneAt, drawn]

theorem stageValues_of_staged (hx : Executable n circuit) (hr : Regular M draws circuit.operations)
    (ih : ∀ p party, (program inputs).lock (additiveParties circuit size draws) k p = some party →
      ValuesAt circuit inputs draws p k party) {stage : AdditiveStage M n}
    (h : (program inputs).staged ((program inputs).lock (additiveParties circuit size draws) k) p = some stage) :
    StageValues circuit inputs draws p k stage := by
  obtain ⟨party, hparty, hstart⟩ := RoundProgram.staged_eq_some.mp h
  obtain ⟨task, todo, batch, ec, hok, htodo, hb, rfl⟩ := start_eq_inr hstart
  have hat := partyAt (owned_tasks hx.owned) k p party hparty
  obtain ⟨batch', ec', hb', hvalues⟩ := (ih p party hparty).begin hx hr hat htodo fun hprep => by
    subst hprep
    obtain ⟨_, ec₁, h1, -⟩ := Act.bind_eq_ok.mp hb
    rw [h1]
  rw [hb] at hb'
  obtain ⟨he, rfl⟩ := Prod.mk.inj hb'
  obtain rfl := Outcome.ok.inj he
  exact hvalues

/-- **The lockstep run**, value by value. -/
theorem valuesAt (hx : Executable n circuit) (hr : Regular M draws circuit.operations) :
    ∀ (k : ℕ) (p : Fin n) (party : AdditiveParty M n),
      (program inputs).lock (additiveParties circuit size draws) k p = some party →
        ValuesAt circuit inputs draws p k party
  | 0, p, party, h => by
      obtain rfl := Option.some.inj h
      exact valuesAt_zero circuit size inputs draws p
  | k + 1, p, party, h => by
      have ih := valuesAt hx hr k
      have hown := owned_tasks hx.owned
      obtain ⟨stage, hstage, h⟩ := Option.bind_eq_some_iff.mp h
      have hat := stageAt hown hstage
      have hvalues := stageValues_of_staged hx hr ih hstage
      split at h
      · next hposted =>
          obtain rfl := Option.some.inj h
          refine hvalues.finish hr hown hat fun q => ?_
          have hawaits : (program inputs).awaits p stage q = true ↔ q ∈ namedPeers n stage.batch.receiveRequests := by
            simp [program, hat.available hown hat.seated.1]
          by_cases ha : (program inputs).awaits p stage q = true
          · obtain ⟨packet, hpacket⟩ := Option.isSome_iff_exists.mp (hposted q ha)
            obtain ⟨stage', hstage', hsends⟩ := RoundProgram.posted_eq_some.mp hpacket
            have hbatch := (stageValues_of_staged hx hr ih hstage').batch
            rw [(stageAt hown hstage').sends_eq] at hsends
            obtain ⟨message, hmessage, rfl⟩ := Option.map_eq_some_iff.mp hsends
            rw [if_pos ha, hpacket, messageAt, ← hbatch, hmessage]
            rfl
          · rw [if_neg ha, hvalues.messageAt_eq_none fun hmem => ha (hawaits.mpr hmem)]
            rfl
      · exact absurd h (by simp)

theorem stateAfter_tasks (circuit : AdditiveCircuit M) : stateAfter circuit.tasks = .finished := by
  rw [stateAfter, MpcCircuit.tasks, ← List.append_assoc, List.foldl_append]
  rfl

/-- A party of a finished net holds the shares of all wires, and has received the messages of all
tasks. -/
theorem finished_values (hx : Executable n circuit) (hr : Regular M draws circuit.operations) {net : AdditiveNet M n}
    (hreach : (program inputs).Reachable (RoundProgram.initial (additiveParties circuit size draws)) net)
    (hf : Finished net p) :
    ∃ party, net.proc p = .idle party ∧ ValuesAt circuit inputs draws p circuit.tasks.length party := by
  have hown := owned_tasks hx.owned
  obtain ⟨count, hsync⟩ := hreach.synced (matched hown)
  obtain ⟨party, hp, -⟩ := hf.idle
  have hlock := hsync.lock_idle hp
  rw [count_of_finished hown hsync hf] at hlock
  exact ⟨party, hp, valuesAt hx hr _ p party hlock⟩

/-! ### Completion -/

/-- With accepted inputs no task of the lockstep run fails. -/
theorem exists_lock (hx : Executable n circuit) (hr : Regular M draws circuit.operations)
    (haccept : ∀ p, Accepts circuit p (inputs p)) :
    ∀ k ≤ circuit.tasks.length, ∀ p, ∃ party,
      (program inputs).lock (additiveParties circuit size draws) k p = some party
  | 0, _, p => ⟨_, rfl⟩
  | k + 1, hk, p => by
      have hown := owned_tasks hx.owned
      have hstaged : ∀ p, ∃ stage,
          (program inputs).staged ((program inputs).lock (additiveParties circuit size draws) k) p = some stage := by
        intro p
        obtain ⟨party, hparty⟩ := exists_lock hx hr haccept k (by omega) p
        have hat := partyAt hown k p party hparty
        have hvalues := valuesAt hx hr k p party hparty
        obtain ⟨task, todo, htodo⟩ : ∃ task todo, party.todo = task :: todo := by
          rw [hat.todo]
          cases hdrop : circuit.tasks.drop k with
          | nil => rw [List.drop_eq_nil_iff] at hdrop; omega
          | cons task todo => exact ⟨task, todo, rfl⟩
        obtain ⟨batch, ec, hb, -⟩ := hvalues.begin hx hr hat htodo fun hprep => by
          subst hprep
          obtain ⟨⟨hid, context, hctx, -⟩, -⟩ := hat.seated hvalues.ok
          exact haccept p party.context hat.plan hid (hat.next htodo).2 (by rw [hctx]; rfl)
        refine ⟨⟨ec, task, todo, batch, party.round, party.received⟩,
          RoundProgram.staged_eq_some.mpr ⟨party, hparty, ?_⟩⟩
        simp only [program, hvalues.ok, htodo, hb]
      obtain ⟨stage, hstage⟩ := hstaged p
      have hposted : ∀ q, (program inputs).awaits p stage q = true →
          ((program inputs).posted ((program inputs).lock (additiveParties circuit size draws) k) q p).isSome := by
        intro q ha
        obtain ⟨stage', hstage'⟩ := hstaged q
        obtain ⟨packet, hpacket⟩ := Option.isSome_iff_exists.mp ((matched hown k q p stage' stage hstage' hstage).mpr ha)
        exact Option.isSome_iff_exists.mpr ⟨packet, RoundProgram.posted_eq_some.mpr ⟨stage', hstage', hpacket⟩⟩
      apply Option.isSome_iff_exists.mp
      rw [RoundProgram.lock, RoundProgram.advance, hstage, Option.bind_some, if_pos hposted, Option.isSome_some]

/-- **Completion**: with accepted inputs every run can be continued until all parties are finished. -/
theorem exists_finished (hx : Executable n circuit) (hr : Regular M draws circuit.operations)
    (haccept : ∀ p, Accepts circuit p (inputs p)) (size : Message ℕ → ℕ) {net : AdditiveNet M n}
    (hreach : (program inputs).Reachable (RoundProgram.initial (additiveParties circuit size draws)) net) :
    ∃ net', (program inputs).Reachable net net' ∧ ∀ p, Finished net' p := by
  have hown := owned_tasks hx.owned
  have hend : ∀ p, ∃ party, (program inputs).lock (additiveParties circuit size draws) circuit.tasks.length p =
      some party ∧ (program inputs).start p party = none := by
    intro p
    obtain ⟨party, hparty⟩ := exists_lock hx hr haccept _ le_rfl p
    have hat := partyAt hown _ p party hparty
    have htodo : party.todo = [] := by rw [hat.todo, List.drop_length]
    refine ⟨party, hparty, ?_⟩
    simp only [program, htodo, (valuesAt hx hr _ p party hparty).ok]
  obtain ⟨net', hreach', hidle⟩ := hreach.completes (matched hown) hend
  refine ⟨net', hreach', fun p => ?_⟩
  obtain ⟨party, hp, hlock⟩ := hidle p
  have hat := partyAt hown _ p party hlock
  simp only [Finished, hp]
  rw [hat.state, List.take_length, stateAfter_tasks]

end Cluster

end MpcCore
