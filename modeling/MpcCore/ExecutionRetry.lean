import MpcCore.ExecutionFlow

/-! # Calling a phase again

`do_offline` and `do_online` leave the state as it is when they fail, so the same call can be made
again.  It runs all rounds of its phase from the first, and stores their wires again.

* `Phase`: the two calls, with their rounds and what is stored before them.
* `Phase.Clear`: no wire of the phase is stored.  A call made there panics only inside the scheme or
  the network, and a success stores every wire (`SafeCall`); a call made anywhere else does not
  succeed, whatever the scheme and the network return.
* `Phase.retry_safe` says so for every call of every run.
* `CallInvariant`: what the calls into the scheme and the network keep, a whole call of a phase keeps
  (`doPhase_stays`).
* `Phase.call_ok_calls`: a success has called the scheme once for each network operation, in order. -/

namespace MpcCore

open Operation MpcScheme

variable {S Op Wire Elem Input Ctx Pending N : Type}

/-! ### The calls of one phase -/

/-- The call itself did not end. -/
def Call.Hung : Call Op Wire Elem Pending → Prop
  | networkPhase _ _ r => r = .hang
  | finalizePhase _ _ _ r => r = .hang
  | send _ r => r = .hang
  | recv _ r => r = .hang

instance [DecidableEq Wire] [DecidableEq Elem] [DecidableEq Pending] :
    DecidablePred (Call.Panicked : Call Op Wire Elem Pending → Prop)
  | .networkPhase _ _ r => inferInstanceAs (Decidable (r = .panic))
  | .finalizePhase _ _ _ r => inferInstanceAs (Decidable (r = .panic))
  | .send _ r => inferInstanceAs (Decidable (r = .panic))
  | .recv _ r => inferInstanceAs (Decidable (r = .panic))

theorem mem_networkOps {op : Op} {calls : List (Call Op Wire Elem Pending)} :
    op ∈ calls.filterMap Call.networkOp ↔ ∃ ins r, .networkPhase op ins r ∈ calls := by
  rw [List.mem_filterMap]
  constructor
  · rintro ⟨c, hmem, hop⟩
    cases c with
    | networkPhase op' ins r =>
        obtain rfl : op' = op := by simpa [Call.networkOp] using hop
        exact ⟨ins, r, hmem⟩
    | finalizePhase => cases hop
    | send => cases hop
    | recv => cases hop
  · rintro ⟨ins, r, hmem⟩
    exact ⟨_, hmem, rfl⟩

/-- One of the calls made after those of `log`. -/
def MadeAfter (log : List (Call Op Wire Elem Pending)) (p : Call Op Wire Elem Pending → Prop)
    (calls : List (Call Op Wire Elem Pending)) : Prop :=
  ∃ new, calls = log ++ new ∧ ∃ c ∈ new, p c

theorem MadeAfter.snoc {log calls : List (Call Op Wire Elem Pending)} {p : Call Op Wire Elem Pending → Prop}
    {c : Call Op Wire Elem Pending} (h : log <+: calls) (hc : p c) : MadeAfter log p (calls ++ [c]) := by
  obtain ⟨new, rfl⟩ := h
  exact ⟨new ++ [c], List.append_assoc .., c, by simp, hc⟩

variable [Operation Op]

/-- The stored wires are the outputs of `stored`, and the calls began with those of `log`. -/
structure Filled (log : List (Call Op Wire Elem Pending)) (stored : List Op)
    (s : Exec Op Wire Elem Ctx Pending N) : Prop where
  log : log <+: s.calls
  stored : ∀ w, s.wireContents.get w ≠ none ↔ w ∈ producedWires stored

theorem filled_roundInvariant (log : List (Call Op Wire Elem Pending)) :
    RoundInvariant (fun _ _ stored (s : Exec Op Wire Elem Ctx Pending N) => Filled log stored s)
      (MadeAfter log Call.Panicked) where
  stored h := h.stored
  network h _ hw hc := ⟨hc ▸ h.log.trans (List.prefix_append ..), hw ▸ h.stored⟩
  finalize h _ hw hc := ⟨hc ▸ h.log.trans (List.prefix_append ..), hw ▸ h.stored⟩
  exchange h _ _ hw hc := ⟨hc ▸ h.log.trans (List.prefix_append ..), hw ▸ h.stored⟩
  store h _ hm _ := by
    refine ⟨h.log, fun w => ?_⟩
    rw [hm w, producedWires_append, List.mem_append, h.stored w]
    simp [producedWires]
  panicked h hc := MadeAfter.snoc h.log hc

/-! ### A round that succeeds -/

/-- No output of the operation is stored. -/
def Exec.Lacks (op : Op) (s : Exec Op Wire Elem Ctx Pending N) : Prop :=
  ∀ w ∈ outputs op, s.wireContents.get w = none

theorem WiresGrow.none_of_none {W : List WireId} {m m' : PMap WireId Wire} (h : WiresGrow W m m') {w : WireId}
    (hw : m'.get w = none) : m.get w = none := by
  by_contra hne
  exact h.kept hne hw

omit [Operation Op] in
/-- The insertion asserts that none of its wires is stored. -/
theorem storeWires_lacks : ∀ {ws : List WireId} {vs : List Wire} {s s' : Exec Op Wire Elem Ctx Pending N},
    storeWires ws vs s = (.ok (), s') → ∀ w ∈ ws, s.wireContents.get w = none
  | [], _, _, _, _ => by simp
  | w :: ws, v :: vs, s, s', h => by
      obtain ⟨_, s₁, h1, h2⟩ := Act.bind_eq_ok.mp h
      obtain ⟨hassert, rfl⟩ := Prod.mk.inj h1
      have hw : s.wireContents.get w = none := by
        by_contra hne
        simp [Outcome.assert, hne] at hassert
      intro w' hw'
      obtain rfl | hw' := List.mem_cons.mp hw'
      · exact hw
      · by_cases hww : w' = w
        · rw [hww]
          exact hw
        · have := storeWires_lacks h2 w' hw'
          rwa [PMap.get_insert_ne _ _ hww] at this
  | _ :: _, [], _, _, h => by simp [storeWires] at h

variable [MpcScheme S Op Wire Elem Input Ctx Pending]

theorem doLocalOperations_lacks {scheme : S} {round : Round Op} {s s' : Exec Op Wire Elem Ctx Pending N}
    (h : doLocalOperations scheme round s = (.ok (), s')) : ∀ op ∈ round.localOperations, s.Lacks op := by
  refine Act.Keeps.each_before (R := Exec.Grows (producedWires round.localOperations))
    (P := fun op s => s.Lacks op) (fun op s s' hs hop w hw => WiresGrow.none_of_none hs (hop w hw))
    (fun op s s' h w hw => ?_) (doLocalOperation_keeps scheme round) h
  obtain ⟨out, s₁, h1, h⟩ := Act.bind_eq_ok.mp h
  obtain ⟨_, s₂, h2, h⟩ := Act.bind_eq_ok.mp h
  obtain ⟨_, s₃, h3, h⟩ := Act.bind_eq_ok.mp h
  obtain ⟨output, s₄, h4, hstore⟩ := Act.bind_eq_ok.mp h
  obtain ⟨-, rfl⟩ := Prod.mk.inj h2
  obtain ⟨-, rfl⟩ := Prod.mk.inj h3
  have hnet := networkPhase_keeps (N := N) [] scheme op s (by rw [h1]; simp)
  have hfin := finalizePhase_keeps (N := N) [] scheme op out.pending [] s₁ (by rw [h4]; simp)
  rw [h1] at hnet
  rw [h4] at hfin
  exact WiresGrow.none_of_none hnet (WiresGrow.none_of_none hfin (storeWires_lacks hstore w hw))

variable [Network N Elem]

theorem doNetworkOperations_lacks {scheme : S} {round : Round Op} {s s' : Exec Op Wire Elem Ctx Pending N}
    {lens : ℕ × ℕ} (h : doNetworkOperations scheme round s = (.ok lens, s')) :
    ∀ op ∈ round.networkOperations, s.Lacks op := by
  obtain ⟨batch, s₁, h1, h⟩ := Act.bind_eq_ok.mp h
  obtain ⟨sendLen, s₂, h2, h⟩ := Act.bind_eq_ok.mp h
  obtain ⟨⟨data, recvLen⟩, s₃, h3, h⟩ := Act.bind_eq_ok.mp h
  obtain ⟨_, s₄, h4, -⟩ := Act.bind_eq_ok.mp h
  obtain ⟨results, s₅, h5, h6⟩ := Act.bind_eq_ok.mp h4
  have hnet := networkPhases_keeps (N := N) [] scheme round.networkOperations .empty s (by rw [h1]; simp)
  have hfin := finalizePhases_keeps (N := N) [] scheme
    (round.networkOperations.zip (batch.pendingOps.zip batch.receiveRequestCounts)) data [] s₃ (by rw [h5]; simp)
  rw [h1] at hnet
  rw [h5] at hfin
  obtain ⟨-, rfl⟩ := Prod.mk.inj h2
  obtain ⟨-, rfl⟩ := Prod.mk.inj h3
  have hlacks : ∀ r ∈ results, s₅.Lacks r.1 :=
    Act.Keeps.each_before (R := Exec.Grows (producedWires (results.map Prod.fst)))
      (f := fun r : Op × List Wire => storeWires (outputs r.1) r.2) (P := fun r s => s.Lacks r.1)
      (fun r s s' hs hr w hw => WiresGrow.none_of_none hs (hr w hw))
      (fun r s s' hs => storeWires_lacks hs)
      (fun r hr => storeWires_keeps _ _ fun w hw => mem_producedWires.mpr ⟨r.1, List.mem_map_of_mem hr, hw⟩) h6
  intro op hop w hw
  obtain ⟨r, hr, rfl⟩ := List.mem_map.mp (results_operations h1 h5 ▸ hop)
  exact WiresGrow.none_of_none hnet (WiresGrow.none_of_none hfin (hlacks r hr w hw))

/-! ### What every call keeps -/

/-- A statement that every call of the scheme and of the network keeps, and every insertion, unless it
panics.  `H` is what holds once one of them has not ended. -/
structure CallInvariant (scheme : S) (I H : Exec Op Wire Elem Ctx Pending N → Prop) : Prop where
  networkPhase : ∀ op, Act.Stays I H (networkPhase scheme op)
  finalizePhase : ∀ op pending data, Act.Stays I H (finalizePhase scheme op pending data)
  storeWire : ∀ w v, Act.Stays I H (storeWire w v)
  send : ∀ requests, Act.Stays I H (sendRequests requests)
  recv : ∀ requests, Act.Stays I H (recvRequests requests)

theorem assert_ne_hang {ε : Type} (b : Bool) : (Outcome.assert b : Outcome ε Unit) ≠ .hang := by
  cases b <;> simp [Outcome.assert]

namespace CallInvariant

variable {scheme : S} {I H : Exec Op Wire Elem Ctx Pending N → Prop} (hI : CallInvariant scheme I H)
include hI

theorem storeWires : ∀ (ws : List WireId) (vs : List Wire), Act.Stays I H (storeWires ws vs)
  | [], [] => Act.Stays.ret (by simp)
  | _ :: ws, _ :: vs => (hI.storeWire _ _).bind fun _ => storeWires ws vs
  | [], _ :: _ => Act.Stays.ret (by simp)
  | _ :: _, [] => Act.Stays.ret (by simp)

theorem doLocalOperations (round : Round Op) : Act.Stays I H (doLocalOperations scheme round) := by
  refine Act.Stays.each (fun op => ?_) _
  refine (hI.networkPhase op).bind fun out => ?_
  refine (Act.Stays.ret (assert_ne_hang _)).bind fun _ => ?_
  refine (Act.Stays.ret (assert_ne_hang _)).bind fun _ => ?_
  exact (hI.finalizePhase op _ _).bind fun output => hI.storeWires _ _

theorem networkPhases : ∀ (ops : List Op) (batch : Batch Elem Pending),
    Act.Stays I H (networkPhases scheme ops batch)
  | [], _ => Act.Stays.ret (by simp)
  | op :: ops, _ => (hI.networkPhase op).bind fun _ => networkPhases ops _

theorem finalizePhases : ∀ (ops : List (Op × Pending × ℕ)) (data : List (List Elem))
    (results : List (Op × List Wire)), Act.Stays I H (finalizePhases scheme ops data results)
  | [], _, _ => Act.Stays.ret (by simp)
  | (op, pending, _) :: ops, _, _ => (hI.finalizePhase op pending _).bind fun _ => finalizePhases ops _ _

/-- What follows the network phases of a round. -/
theorem exchange (ops : List Op) (batch : Batch Elem Pending) :
    Act.Stays I H ((sendRequests batch.sendRequests).bind fun sendLen =>
      (recvRequests batch.receiveRequests).bind fun (flatNetworkData, recvLen) =>
        (finishNetworkOperations scheme ops batch flatNetworkData).bind fun _ =>
          .ret (.ok (sendLen, recvLen))) := by
  refine (hI.send _).bind fun sendLen => (hI.recv _).bind fun received => ?_
  refine Act.Stays.bind ?_ fun _ => Act.Stays.ret (by simp)
  exact (hI.finalizePhases _ _ _).bind fun results => Act.Stays.each (fun r => hI.storeWires _ _) _

theorem doNetworkOperations (round : Round Op) : Act.Stays I H (doNetworkOperations scheme round) :=
  (hI.networkPhases _ _).bind fun batch => hI.exchange _ batch

end CallInvariant

omit [Network N Elem] in
/-- The network phases of a round that return are among the calls. -/
theorem networkPhases_called {scheme : S} : ∀ {ops : List Op} {batch batch' : Batch Elem Pending}
    {s s' : Exec Op Wire Elem Ctx Pending N}, networkPhases scheme ops batch s = (.ok batch', s') →
      ∃ new, s'.calls = s.calls ++ new ∧ ∀ op ∈ ops, ∃ ins r, .networkPhase op ins r ∈ new
  | [], batch, batch', s, s', h => by
      obtain ⟨-, rfl⟩ := Prod.mk.inj h
      exact ⟨[], by simp, by simp⟩
  | op :: ops, batch, batch', s, s', h => by
      obtain ⟨out, s₁, h1, h2⟩ := Act.bind_eq_ok.mp h
      obtain ⟨new, hnew, hcalled⟩ := networkPhases_called h2
      obtain ⟨ins, r, context, -, hrun⟩ | hrun := networkPhase_cases scheme op s
      · obtain ⟨-, rfl⟩ := Prod.mk.inj (hrun.symm.trans h1)
        refine ⟨.networkPhase op ins r :: new, by rw [hnew]; simp, fun op' hop' => ?_⟩
        obtain rfl | hop' := List.mem_cons.mp hop'
        · exact ⟨ins, r, by simp⟩
        · obtain ⟨ins', r', hmem⟩ := hcalled op' hop'
          exact ⟨ins', r', List.mem_cons_of_mem _ hmem⟩
      · rw [hrun] at h1
        cases (Prod.mk.inj h1).1

/-- The calls of a party only grow, and where one of its own calls has not ended, it waits in a call of
the scheme or of the network. -/
theorem log_callInvariant (scheme : S) (log : List (Call Op Wire Elem Pending)) :
    CallInvariant scheme (fun s : Exec Op Wire Elem Ctx Pending N => log <+: s.calls)
      (fun s => MadeAfter log Call.Hung s.calls) where
  networkPhase op s hs _ := by
    obtain ⟨ins, r, context, -, hrun⟩ | hrun := networkPhase_cases scheme op s
    · rw [hrun]
      exact ⟨hs.trans (List.prefix_append ..), fun h => MadeAfter.snoc hs (Outcome.mapErr_eq_hang.mp h)⟩
    · rw [hrun]
      exact ⟨hs, by simp⟩
  finalizePhase _ _ _ _ hs _ :=
    ⟨hs.trans (List.prefix_append ..), fun h => MadeAfter.snoc hs (Outcome.mapErr_eq_hang.mp h)⟩
  storeWire _ _ _ hs _ := ⟨hs, fun h => absurd h (assert_ne_hang _)⟩
  send _ _ hs _ := ⟨hs.trans (List.prefix_append ..), fun h => MadeAfter.snoc hs (Outcome.mapErr_eq_hang.mp h)⟩
  recv _ _ hs _ := ⟨hs.trans (List.prefix_append ..), fun h => MadeAfter.snoc hs (Outcome.mapErr_eq_hang.mp h)⟩

namespace ExecutionContext

omit [Operation Op] [MpcScheme S Op Wire Elem Input Ctx Pending] [Network N Elem] in
theorem withContext_stays {α : Type} {I H : Exec Op Wire Elem Ctx Pending N → Prop}
    {x : Act (Exec Op Wire Elem Ctx Pending N) Fault α} (hx : Act.Stays I H x) :
    Act.Stays (Holds I) (Holds H)
      (withContext x : Act (ExecutionContext S Op Wire Elem Ctx Pending N) Fault α) := by
  rintro ec ⟨context, hctx, hs⟩ hr
  simp only [withContext, hctx] at hr ⊢
  obtain ⟨h1, h2⟩ := hx _ hs hr
  exact ⟨⟨_, rfl, h1⟩, fun h => ⟨_, rfl, h2 h⟩⟩

theorem doRounds_stays {scheme : S} {I H : Exec Op Wire Elem Ctx Pending N → Prop}
    (hI : CallInvariant scheme I H) : ∀ (rounds : List (Round Op)) (a b : ℕ),
      Act.Stays (Holds I) (Holds H)
        (doRounds scheme rounds a b : Act (ExecutionContext S Op Wire Elem Ctx Pending N) Fault _)
  | [], _, _ => Act.Stays.ret (by simp)
  | round :: rounds, _, _ =>
      (withContext_stays (hI.doLocalOperations round)).bind fun _ =>
        (withContext_stays (hI.doNetworkOperations round)).bind fun _ => doRounds_stays hI rounds _ _

theorem doPhase_stays {I H : Exec Op Wire Elem Ctx Pending N → Prop} (hI : ∀ scheme : S, CallInvariant scheme I H)
    (fnName : String) (required reached : ExecutionState) (rounds : MpcCircuit S Op → List (Round Op)) :
    Act.Stays (Holds I) (Holds H)
      (doPhase fnName required rounds reached :
        Act (ExecutionContext S Op Wire Elem Ctx Pending N) Fault (ℕ × ℕ)) := by
  refine Act.Stays.bind (fun ec hec _ => ⟨hec, ?_⟩) fun _ => ?_
  · unfold assertState
    split <;> simp
  refine Act.Stays.bind (fun _ hec _ => ⟨hec, by simp⟩) fun circuit => ?_
  refine (doRounds_stays (hI _) _ _ _).bind fun lens => ?_
  exact Act.Stays.bind (fun _ hec _ => ⟨hec, by simp [setState]⟩) fun _ => Act.Stays.ret (by simp)

/-- The rounds succeed only where none of their wires is stored. -/
theorem doRounds_lacks {scheme : S} : ∀ {rounds : List (Round Op)} {a b : ℕ} {lens : ℕ × ℕ}
    {ec ec' : ExecutionContext S Op Wire Elem Ctx Pending N}, doRounds scheme rounds a b ec = (.ok lens, ec') →
    ∀ w ∈ producedWires (rounds.flatMap Round.operations), ec.wireContents.get w = none
  | [], _, _, _, _, _, _ => by simp [producedWires]
  | round :: rounds, a, b, lens, ec, ec', h => by
      obtain ⟨_, ec₁, h1, h⟩ := Act.bind_eq_ok.mp h
      obtain ⟨⟨sendLen, recvLen⟩, ec₂, h2, h3⟩ := Act.bind_eq_ok.mp h
      have hloc := withContext_keeps (S := S) (doLocalOperations_keeps scheme round) ec (by rw [h1]; simp)
      have hnet := withContext_keeps (S := S) (doNetworkOperations_keeps scheme round) ec₁ (by rw [h2]; simp)
      rw [h1] at hloc
      rw [h2] at hnet
      intro w hw
      rw [List.flatMap_cons, producedWires_append, Round.operations, producedWires_append, List.append_assoc] at hw
      obtain hw | hw := List.mem_append.mp hw
      · obtain ⟨op, hop, hw⟩ := mem_producedWires.mp hw
        obtain ⟨s, s', hs, hwires, -⟩ := withContext_ok h1
        exact hwires ▸ doLocalOperations_lacks hs op hop w hw
      obtain hw | hw := List.mem_append.mp hw
      · obtain ⟨op, hop, hw⟩ := mem_producedWires.mp hw
        obtain ⟨s, s', hs, hwires, -⟩ := withContext_ok h2
        exact hloc.wires.none_of_none (hwires ▸ doNetworkOperations_lacks hs op hop w hw)
      · exact hloc.wires.none_of_none (hnet.wires.none_of_none (doRounds_lacks h3 w hw))

/-! ### The two phases -/

/-- The phases that run rounds. -/
inductive Phase where
  | offline
  | online
deriving DecidableEq, Repr

namespace Phase

/-- The rounds of a phase. -/
def rounds : Phase → MpcCircuit S Op → List (Round Op)
  | offline => MpcCircuit.offlineRounds
  | online => MpcCircuit.onlineRounds

/-- The state its function asks for. -/
def required : Phase → ExecutionState
  | offline => .handshaked
  | online => .readyOnline

/-- The state its function leads to. -/
def reached : Phase → ExecutionState
  | offline => .finishedOffline
  | online => .finished

/-- The name of its function. -/
def fnName : Phase → String
  | offline => "do_offline"
  | online => "do_online"

/-- The operations executed before the phase. -/
def before (circuit : MpcCircuit S Op) : Phase → List Op
  | offline => []
  | online => circuit.offlineOperations

/-- The operations executed when the phase is over. -/
def after (circuit : MpcCircuit S Op) (phase : Phase) : List Op :=
  phase.before circuit ++ (phase.rounds circuit).flatMap Round.operations

/-- The function of a phase. -/
def call : Phase → Act (ExecutionContext S Op Wire Elem Ctx Pending N) Fault (ℕ × ℕ)
  | offline => doOffline
  | online => doOnline

theorem call_eq (phase : Phase) :
    (phase.call : Act (ExecutionContext S Op Wire Elem Ctx Pending N) Fault (ℕ × ℕ)) =
      doPhase phase.fnName phase.required phase.rounds phase.reached := by
  cases phase <;> rfl

/-- No wire of the phase is stored. -/
def Clear (phase : Phase) (ec : ExecutionContext S Op Wire Elem Ctx Pending N) : Prop :=
  ∀ w ∈ producedWires ((phase.rounds ec.circuit).flatMap Round.operations), ec.wireContents.get w = none

/-- What a caller is promised: the function panics, or never ends, only where a call of the scheme
or the network that it made did; an error is one of its errors; and a success stores every wire. -/
structure SafeCall (phase : Phase) (r : Outcome Fault (ℕ × ℕ))
    (ec ec' : ExecutionContext S Op Wire Elem Ctx Pending N) : Prop where
  panic : r = .panic → MadeAfter ec.calls Call.Panicked ec'.calls
  hang : r = .hang → MadeAfter ec.calls Call.Hung ec'.calls
  init : r ≠ .err .uninit
  ok : ∀ lens, r = .ok lens → ec'.executionState = phase.reached ∧
    ∀ w, ec'.wireContents.get w ≠ none ↔ w ∈ producedWires (phase.after ec.circuit)

omit [MpcScheme S Op Wire Elem Input Ctx Pending] [Network N Elem] in
/-- Where no wire of a phase is stored, the stored wires are those of the phases before it. -/
theorem Clear.stored {circuit : MpcCircuit S Op} {ec : ExecutionContext S Op Wire Elem Ctx Pending N}
    (hl : Lifecycle circuit ec) {phase : Phase} (hstate : ec.executionState = phase.required)
    (hclear : phase.Clear ec) : ∀ w, ec.wireContents.get w ≠ none ↔ w ∈ producedWires (phase.before circuit) := by
  obtain ⟨rfl, -, hstored⟩ := hl
  rw [hstate] at hstored
  intro w
  cases phase with
  | offline => exact ⟨fun hw => absurd (hclear w (hstored w hw)) hw, by simp [before, producedWires]⟩
  | online =>
      refine ⟨fun hw => ?_, hstored.1 w⟩
      have hmem := hstored.2 w hw
      rw [MpcCircuit.operations, producedWires_append] at hmem
      obtain hmem | hmem := List.mem_append.mp hmem
      · exact hmem
      · exact absurd (hclear w hmem) hw

omit [MpcScheme S Op Wire Elem Input Ctx Pending] [Network N Elem] in
theorem storedFrom {circuit : MpcCircuit S Op} (hst : circuit.StoresBeforeUse) (phase : Phase) :
    StoredFrom (producedWires (phase.before circuit)) (phase.rounds circuit) := by
  have hst' := StoredFrom.append_iff.mp hst
  rw [List.nil_append] at hst'
  cases phase
  · exact hst'.1
  · exact hst'.2

omit [MpcScheme S Op Wire Elem Input Ctx Pending] [Network N Elem] in
theorem nodup_after {circuit : MpcCircuit S Op} (hu : circuit.UniqueProducers) (phase : Phase) :
    (producedWires (phase.after circuit)).Nodup := by
  rw [MpcCircuit.UniqueProducers, MpcCircuit.operations] at hu
  cases phase
  · rw [producedWires_append] at hu
    exact (List.nodup_append.mp hu).1
  · exact hu

/-- A call made where no wire of the phase is stored. -/
theorem Clear.safe {circuit : MpcCircuit S Op} (hc : Contract circuit.scheme circuit)
    (hu : circuit.UniqueProducers) (hst : circuit.StoresBeforeUse)
    {ec ec' : ExecutionContext S Op Wire Elem Ctx Pending N} (hl : Lifecycle circuit ec) {phase : Phase}
    (hstate : ec.executionState = phase.required) (hclear : phase.Clear ec) {r : Outcome Fault (ℕ × ℕ)}
    (h : phase.call ec = (r, ec')) : phase.SafeCall r ec ec' := by
  have hinit : ec.Init := hl.initialised.mpr (by rw [hstate]; cases phase <;> simp [required])
  obtain ⟨context, hctx⟩ := Option.isSome_iff_exists.mp hinit
  rw [call_eq] at h
  have hrun : Act.Ensures (doPhase phase.fnName phase.required phase.rounds phase.reached) ec _ _ :=
    doPhase_ensures (filled_roundInvariant ec.calls) hc hl.circuit_eq
    ⟨context, hctx, List.prefix_refl _, hclear.stored hl hstate⟩ (by cases phase <;> simp +contextual [rounds])
    (phase.storedFrom hst) (phase.nodup_after hu)
  refine ⟨?_, ?_, ?_, ?_⟩
  · rintro rfl
    exact hrun.of_panic h
  · rintro rfl
    obtain ⟨_, -, hmade⟩ := ((doPhase_stays (fun scheme => log_callInvariant scheme ec.calls) phase.fnName
      phase.required phase.reached phase.rounds).of_eq h ⟨context, hctx, List.prefix_refl _⟩ (by simp)).2 rfl
    exact hmade
  · rintro rfl
    exact (doPhase_wires h (by simp) fun _ => hinit).1 rfl
  · rintro lens rfl
    obtain ⟨-, hreached, _, -, -, hstored⟩ := hrun.of_ok h
    exact ⟨hreached, hl.circuit_eq ▸ hstored⟩

/-- A call made where a wire of the phase is stored does not succeed. -/
theorem Clear.of_ok {ec ec' : ExecutionContext S Op Wire Elem Ctx Pending N} {phase : Phase} {lens : ℕ × ℕ}
    (h : phase.call ec = (.ok lens, ec')) : phase.Clear ec := by
  rw [call_eq] at h
  obtain ⟨-, hne, -⟩ | ⟨-, ⟨r₁, -, hf⟩ | ⟨lens, ec₁, hrounds, -⟩⟩ := doPhase_cases h
  · exact absurd rfl (hne lens)
  · exact absurd rfl (hf.ne_ok lens)
  · exact doRounds_lacks hrounds

/-- **Calling a phase again.**  In every run, a call of a phase is safe where no wire of the phase is
stored, and it does not succeed where one is. -/
theorem retry_safe {circuit : MpcCircuit S Op} (hc : Contract circuit.scheme circuit)
    (hu : circuit.UniqueProducers) (hst : circuit.StoresBeforeUse)
    {digest : MpcCircuit S Op → Outcome String (List UInt8)}
    {ec : ExecutionContext S Op Wire Elem Ctx Pending N} (hreach : Reachable digest circuit ec) {phase : Phase}
    (hstate : ec.executionState = phase.required) {r : Outcome Fault (ℕ × ℕ)}
    {ec' : ExecutionContext S Op Wire Elem Ctx Pending N} (h : phase.call ec = (r, ec')) :
    (phase.Clear ec → phase.SafeCall r ec ec') ∧ (¬ phase.Clear ec → ∀ lens, r ≠ .ok lens) := by
  refine ⟨fun hclear => hclear.safe hc hu hst (lifecycle_of_reachable hreach) hstate h, ?_⟩
  rintro hclear lens rfl
  exact hclear (Clear.of_ok h)

end Phase

/-! ### The calls of a phase that succeeds -/

/-- The network phases since `log` are those of the operations after `before`, in order, and all have
returned. -/
structure Ordered (log : List (Call Op Wire Elem Pending)) (before called stored : List Op)
    (s : Exec Op Wire Elem Ctx Pending N) : Prop where
  filled : Filled log stored s
  calls : ∃ new, s.calls = log ++ new ∧ before ++ new.filterMap Call.networkOp = called ∧
    ∀ op ins r, .networkPhase op ins r ∈ new → ∃ out, r = .ok out

omit [MpcScheme S Op Wire Elem Input Ctx Pending] [Network N Elem] in
/-- A call that is no network phase. -/
theorem Ordered.snoc_other {log : List (Call Op Wire Elem Pending)} {before called stored : List Op}
    {s s' : Exec Op Wire Elem Ctx Pending N} {c : Call Op Wire Elem Pending} (h : Ordered log before called stored s)
    (hn : c.networkOp = none) (hw : s'.wireContents = s.wireContents) (hc : s'.calls = s.calls ++ [c]) :
    Ordered log before called stored s' := by
  obtain ⟨hfilled, new, hlog, hcalled, hok⟩ := h
  refine ⟨⟨hc ▸ hfilled.log.trans (List.prefix_append ..), hw ▸ hfilled.stored⟩, new ++ [c],
    by rw [hc, hlog, List.append_assoc], by rw [List.filterMap_append, ← hcalled]; simp [hn], fun op ins r hmem => ?_⟩
  obtain hmem | hmem := List.mem_append.mp hmem
  · exact hok op ins r hmem
  · obtain rfl := List.mem_singleton.mp hmem
    cases hn

omit [MpcScheme S Op Wire Elem Input Ctx Pending] [Network N Elem] in
theorem ordered_roundInvariant (log : List (Call Op Wire Elem Pending)) (before : List Op) :
    RoundInvariant (fun called _ stored (s : Exec Op Wire Elem Ctx Pending N) => Ordered log before called stored s)
      fun _ => True where
  stored h := h.filled.stored
  network h _ hw hc := by
    obtain ⟨hfilled, new, hlog, hcalled, hok⟩ := h
    refine ⟨⟨hc ▸ hfilled.log.trans (List.prefix_append ..), hw ▸ hfilled.stored⟩, _,
      by rw [hc, hlog, List.append_assoc], ?_, fun op' ins' r' hmem => ?_⟩
    · rw [List.filterMap_append, ← hcalled, List.append_assoc]
      rfl
    · obtain hmem | hmem := List.mem_append.mp hmem
      · exact hok op' ins' r' hmem
      · obtain ⟨-, -, rfl⟩ := by simpa using hmem
        exact ⟨_, rfl⟩
  finalize h _ hw hc := h.snoc_other rfl hw hc
  exchange h hn _ hw hc := h.snoc_other hn hw hc
  store h hmem hm hret :=
    ⟨@(filled_roundInvariant log).store [] [] _ _ _ _ _ _ _ h.filled hmem hm hret, h.calls⟩
  panicked _ _ := trivial

/-- A phase that succeeds has called every network phase once, in the order of the plan. -/
theorem Phase.call_ok_calls {circuit : MpcCircuit S Op} (hc : Contract circuit.scheme circuit)
    (hu : circuit.UniqueProducers) (hst : circuit.StoresBeforeUse)
    {ec ec' : ExecutionContext S Op Wire Elem Ctx Pending N} (hl : Lifecycle circuit ec) {phase : Phase}
    (hstate : ec.executionState = phase.required) {lens : ℕ × ℕ} (h : phase.call ec = (.ok lens, ec')) :
    ∃ new, ec'.calls = ec.calls ++ new ∧
      new.filterMap Call.networkOp = (phase.rounds circuit).flatMap Round.operations ∧
      ∀ op ins r, .networkPhase op ins r ∈ new → ∃ out, r = .ok out := by
  have hclear := Phase.Clear.of_ok h
  have hinit : ec.Init := hl.initialised.mpr (by rw [hstate]; cases phase <;> simp [required])
  obtain ⟨context, hctx⟩ := Option.isSome_iff_exists.mp hinit
  rw [call_eq] at h
  have hrun : Act.Ensures (doPhase phase.fnName phase.required phase.rounds phase.reached) ec _ _ :=
    doPhase_ensures (ordered_roundInvariant ec.calls (phase.before circuit)) hc hl.circuit_eq
    ⟨context, hctx, ⟨List.prefix_refl _, hclear.stored hl hstate⟩, [], by simp, by simp, by simp⟩
    (by cases phase <;> simp +contextual [rounds]) (phase.storedFrom hst) (phase.nodup_after hu)
  obtain ⟨-, -, _, -, -, new, hlog, hcalled, hok⟩ := hrun.of_ok h
  exact ⟨new, hlog, List.append_cancel_left hcalled, hok⟩

/-! ### A phase that cannot be called again -/

/-- A network of two parties whose next `failures` sends fail, unless they are empty. -/
structure Flaky where
  failures : ℕ

instance : Network Flaky ℕ where
  nPlayers _ := 2
  myId _ := 0
  broadcastObject _ := .ret (.ok 0)
  recvHashesMany _ := .ret (.ok ([[[]]], 0))
  sendObjectsMany requests := fun network =>
    match requests, network.failures with
    | _ :: _, failures + 1 => (.err "broken pipe", ⟨failures⟩)
    | _, _ => (.ok 0, network)
  recvObjectsMany requests := .ret (.ok (requests.map fun _ => [0], 0))

/-- A random value, opened in the same round. -/
def openedCircuit : MpcCircuit (AdditiveScheme 100) AdditiveOperation :=
  ⟨⟨⟩, [⟨[.genRandom ⟨0⟩], [.reveal ⟨0⟩ ⟨1⟩]⟩], []⟩

/-- The state of a party on a flaky network. -/
abbrev FlakyContext : Type :=
  ExecutionContext (AdditiveScheme 100) AdditiveOperation ℕ ℕ AdditiveContext AdditivePending Flaky

/-- The party after its handshake, after an offline phase whose send fails, and after it calls the
phase once more. -/
def flakyHandshaked : FlakyContext :=
  (handshake (fun _ => .ok []) (fun k => 7 * k + 3) (new openedCircuit ⟨1⟩)).2

@[inherit_doc flakyHandshaked]
def flakyFailed : FlakyContext := (doOffline flakyHandshaked).2

@[inherit_doc flakyHandshaked]
def flakyRetried : FlakyContext := (doOffline flakyFailed).2

theorem handshake_flaky : handshake (fun _ => .ok []) (fun k => 7 * k + 3)
    (new openedCircuit ⟨1⟩ : FlakyContext) = (.ok (0, 0), flakyHandshaked) := by
  unfold flakyHandshaked
  exact Act.eq_of_fst (by decide +kernel)

theorem doOffline_flaky : doOffline flakyHandshaked = (.err (schemeFault "broken pipe"), flakyFailed) := by
  unfold flakyFailed
  exact Act.eq_of_fst (by decide +kernel)

theorem doOffline_flakyFailed : doOffline flakyFailed = (.panic, flakyRetried) := by
  unfold flakyRetried
  exact Act.eq_of_fst (by decide +kernel)

theorem reachable_flaky : Reachable (fun _ => .ok []) openedCircuit flakyHandshaked :=
  (Reachable.new ⟨1⟩).handshake handshake_flaky

/-- One input, of party 0. -/
def inputCircuit : MpcCircuit (AdditiveScheme 100) AdditiveOperation := ⟨⟨⟩, [⟨[], []⟩], [⟨[], [.input 0 ⟨0⟩]⟩]⟩

/-- Party 0 on a network whose first send fails: after its handshake, its offline phase, the preparation
of the value 5, an online phase that fails, and one that succeeds. -/
def inputHandshaked : FlakyContext :=
  (handshake (fun _ => .ok []) (fun k => 7 * k + 3) (new inputCircuit ⟨1⟩)).2

@[inherit_doc inputHandshaked]
def inputOffline : FlakyContext := (doOffline inputHandshaked).2

@[inherit_doc inputHandshaked]
def inputReady : FlakyContext := (prepareInput [(⟨0⟩, 5)] inputOffline).2

@[inherit_doc inputHandshaked]
def inputFailed : FlakyContext := (doOnline inputReady).2

@[inherit_doc inputHandshaked]
def inputFinished : FlakyContext := (doOnline inputFailed).2

theorem reachable_inputOffline : Reachable (fun _ => .ok []) inputCircuit inputOffline := by
  have h1 : handshake (fun _ => .ok []) (fun k => 7 * k + 3) (new inputCircuit ⟨1⟩ : FlakyContext) =
      (.ok (0, 0), inputHandshaked) := by
    unfold inputHandshaked
    exact Act.eq_of_fst (by decide +kernel)
  have h2 : doOffline inputHandshaked = (.ok (0, 0), inputOffline) := by
    unfold inputOffline
    exact Act.eq_of_fst (by decide +kernel)
  exact ((Reachable.new ⟨1⟩).handshake h1).doOffline h2

theorem prepareInput_flaky : prepareInput [(⟨0⟩, 5)] inputOffline = (.ok (), inputReady) := by
  unfold inputReady
  exact Act.eq_of_fst (by decide +kernel)

theorem doOnline_inputReady : doOnline inputReady = (.err (schemeFault "broken pipe"), inputFailed) := by
  unfold inputFailed
  exact Act.eq_of_fst (by decide +kernel)

theorem doOnline_inputFailed : doOnline inputFailed = (.ok (0, 0), inputFinished) := by
  unfold inputFinished
  exact Act.eq_of_fst (by decide +kernel)

/-- A first call, and one that is made again after a call that failed before it had stored a wire. -/
theorem retry_safe_flaky :
    Phase.offline.SafeCall (.err (schemeFault "broken pipe")) flakyHandshaked flakyFailed ∧
    doOnline inputReady = (.err (schemeFault "broken pipe"), inputFailed) ∧ Phase.online.Clear inputFailed ∧
    Phase.online.SafeCall (.ok (0, 0)) inputFailed inputFinished := by
  have hreach : Reachable (fun _ => .ok []) inputCircuit inputFailed :=
    .err .doOnline (.ok (.prepareInput [(⟨0⟩, 5)]) reachable_inputOffline prepareInput_flaky)
      (by rw [perform, Act.bind, doOnline_inputReady]; rfl)
  have hclear : Phase.online.Clear inputFailed := by
    unfold Phase.Clear
    decide +kernel
  have hstate : inputFailed.executionState = .readyOnline := by decide +kernel
  refine ⟨(Phase.retry_safe (additive_contract (by decide) _) (by decide) (by decide) reachable_flaky
    (show _ = Phase.offline.required from rfl)
    (show Phase.offline.call flakyHandshaked = _ from doOffline_flaky)).1 (by unfold Phase.Clear; decide +kernel),
    doOnline_inputReady, hclear, ?_⟩
  exact (Phase.retry_safe (additive_contract (by decide) _) (by decide) (by decide) hreach
    (show _ = Phase.online.required from hstate)
    (show Phase.online.call inputFailed = _ from doOnline_inputFailed)).1 hclear

/-- The call that follows panics, and no call of the scheme or of the network does. -/
theorem retry_panics : Contract openedCircuit.scheme openedCircuit ∧ openedCircuit.UniqueProducers ∧
    openedCircuit.StoresBeforeUse ∧ Reachable (fun _ => .ok []) openedCircuit flakyHandshaked ∧
    flakyHandshaked.executionState = .handshaked ∧
    doOffline flakyHandshaked = (.err (schemeFault "broken pipe"), flakyFailed) ∧
    flakyFailed.executionState = .handshaked ∧
    doOffline flakyFailed = (.panic, flakyRetried) ∧ ∀ c ∈ flakyRetried.calls, ¬ c.Panicked := by
  refine ⟨additive_contract (by decide) _, by decide, by decide, reachable_flaky, rfl, doOffline_flaky,
    ?_, doOffline_flakyFailed, ?_⟩
  · decide +kernel
  · decide +kernel

end ExecutionContext

end MpcCore
