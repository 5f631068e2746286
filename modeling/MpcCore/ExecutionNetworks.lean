import MpcCore.Cluster
import MpcCore.Lib.Tracking

/-! # The execution over two networks

The execution of a plan calls its network at two places of a round, and otherwise only asks for the
party's id.  So two contexts that differ in their networks stay alike as long as the networks do.

* `Exec.Over`, `ExecutionContext.Over`: everything but the network is the same.
* `Task.begin_over`, `Task.complete_tracks`: the two halves of a task succeed over one network as over
  the other, when the bulk send and the bulk receive do. -/

namespace MpcCore

open Operation MpcScheme

variable {S Op Wire Elem Input Ctx Pending N N' : Type} {R : N → N' → Prop}

/-- The same work on two networks. -/
structure Exec.Over (R : N → N' → Prop) (s : Exec Op Wire Elem Ctx Pending N) (t : Exec Op Wire Elem Ctx Pending N') :
    Prop where
  context : t.context = s.context
  wireContents : t.wireContents = s.wireContents
  calls : t.calls = s.calls
  network : R s.network t.network

/-- The same execution over two networks. -/
structure ExecutionContext.Over (R : N → N' → Prop) (ec : ExecutionContext S Op Wire Elem Ctx Pending N)
    (ec' : ExecutionContext S Op Wire Elem Ctx Pending N') : Prop where
  circuit : ec'.circuit = ec.circuit
  executionState : ec'.executionState = ec.executionState
  wireContents : ec'.wireContents = ec.wireContents
  schemeContext : ec'.schemeContext = ec.schemeContext
  calls : ec'.calls = ec.calls
  network : R ec.network ec'.network

theorem ExecutionContext.Over.symm {ec : ExecutionContext S Op Wire Elem Ctx Pending N}
    {ec' : ExecutionContext S Op Wire Elem Ctx Pending N'} (h : ExecutionContext.Over R ec ec') :
    ExecutionContext.Over (fun t s => R s t) ec' ec :=
  ⟨h.circuit.symm, h.executionState.symm, h.wireContents.symm, h.schemeContext.symm, h.calls.symm, h.network⟩

variable [Operation Op] [MpcScheme S Op Wire Elem Input Ctx Pending]

/-! ### Rounds -/

section rounds

variable (scheme : S)

theorem networkPhase_tracks (op : Op) :
    Act.Tracks (Exec.Over R) (fun _ => Exec.Over R)
      (networkPhase scheme op : Act (Exec Op Wire Elem Ctx Pending N) Fault _)
      (networkPhase scheme op : Act (Exec Op Wire Elem Ctx Pending N') Fault _) := by
  intro s t out s' h hx
  unfold networkPhase at hx ⊢
  rw [h.wireContents, h.context, h.calls]
  split at hx
  · obtain ⟨hr, rfl⟩ := Prod.mk.inj hx
    exact ⟨_, Prod.ext hr rfl, rfl, rfl, rfl, h.network⟩
  · cases (Prod.mk.inj hx).1

omit [Operation Op] in
theorem finalizePhase_tracks (op : Op) (pending : Pending) (data : List Elem) :
    Act.Tracks (Exec.Over R) (fun _ => Exec.Over R)
      (finalizePhase scheme op pending data : Act (Exec Op Wire Elem Ctx Pending N) Fault _)
      (finalizePhase scheme op pending data : Act (Exec Op Wire Elem Ctx Pending N') Fault _) := by
  intro s t output s' h hx
  unfold finalizePhase at hx ⊢
  rw [h.context, h.calls]
  obtain ⟨hr, rfl⟩ := Prod.mk.inj hx
  exact ⟨_, Prod.ext hr rfl, rfl, h.wireContents, rfl, h.network⟩

omit [Operation Op] [MpcScheme S Op Wire Elem Input Ctx Pending] in
theorem storeWires_tracks : ∀ (ws : List WireId) (vs : List Wire),
    Act.Tracks (Exec.Over R) (fun _ => Exec.Over R)
      (storeWires ws vs : Act (Exec Op Wire Elem Ctx Pending N) Fault _)
      (storeWires ws vs : Act (Exec Op Wire Elem Ctx Pending N') Fault _)
  | [], [] => Act.Tracks.ret _
  | w :: ws, v :: vs => by
      refine Act.Tracks.bind (Q := fun _ => Exec.Over R) (fun s t a s' h hx => ?_) fun _ => storeWires_tracks ws vs
      obtain ⟨hr, rfl⟩ := Prod.mk.inj hx
      refine ⟨_, Prod.ext ?_ rfl, h.context, congrArg (fun m => m.insert w v) h.wireContents, h.calls, h.network⟩
      rw [storeWire, h.wireContents, hr]
  | [], _ :: _ => Act.Tracks.ret _
  | _ :: _, [] => Act.Tracks.ret _

theorem doLocalOperations_tracks (round : Round Op) :
    Act.Tracks (Exec.Over R) (fun _ => Exec.Over R)
      (doLocalOperations scheme round : Act (Exec Op Wire Elem Ctx Pending N) Fault _)
      (doLocalOperations scheme round : Act (Exec Op Wire Elem Ctx Pending N') Fault _) := by
  refine Act.Tracks.each (fun op => ?_) _
  refine (networkPhase_tracks scheme op).bind fun out => ?_
  refine (Act.Tracks.ret _).bind fun _ => (Act.Tracks.ret _).bind fun _ => ?_
  exact (finalizePhase_tracks scheme op _ _).bind fun output => storeWires_tracks _ _

theorem networkPhases_tracks : ∀ (ops : List Op) (batch : Batch Elem Pending),
    Act.Tracks (Exec.Over R) (fun _ => Exec.Over R)
      (networkPhases scheme ops batch : Act (Exec Op Wire Elem Ctx Pending N) Fault _)
      (networkPhases scheme ops batch : Act (Exec Op Wire Elem Ctx Pending N') Fault _)
  | [], _ => Act.Tracks.ret _
  | op :: ops, _ => (networkPhase_tracks scheme op).bind fun _ => networkPhases_tracks ops _

omit [Operation Op] in
theorem finalizePhases_tracks : ∀ (ops : List (Op × Pending × ℕ)) (data : List (List Elem))
    (results : List (Op × List Wire)), Act.Tracks (Exec.Over R) (fun _ => Exec.Over R)
      (finalizePhases scheme ops data results : Act (Exec Op Wire Elem Ctx Pending N) Fault _)
      (finalizePhases scheme ops data results : Act (Exec Op Wire Elem Ctx Pending N') Fault _)
  | [], _, _ => Act.Tracks.ret _
  | (op, pending, _) :: ops, _, _ =>
      (finalizePhase_tracks scheme op pending _).bind fun _ => finalizePhases_tracks ops _ _

theorem finishNetworkOperations_tracks (ops : List Op) (batch : Batch Elem Pending) (data : List (List Elem)) :
    Act.Tracks (Exec.Over R) (fun _ => Exec.Over R)
      (finishNetworkOperations scheme ops batch data : Act (Exec Op Wire Elem Ctx Pending N) Fault _)
      (finishNetworkOperations scheme ops batch data : Act (Exec Op Wire Elem Ctx Pending N') Fault _) :=
  (finalizePhases_tracks scheme _ _ _).bind fun _ => Act.Tracks.each (fun _ => storeWires_tracks _ _) _

end rounds

/-! ### The calls of the network -/

section calls

variable [Network N Elem] [Network N' Elem] {Q : N → N' → Prop}

omit [Operation Op] [MpcScheme S Op Wire Elem Input Ctx Pending] in
theorem sendRequests_tracks {requests : List (SendRequest Elem)}
    (h : Act.Tracks R (fun _ => Q) (@Network.sendObjectsMany N Elem _ requests)
      (@Network.sendObjectsMany N' Elem _ requests)) :
    Act.Tracks (Exec.Over R) (fun _ => Exec.Over Q)
      (sendRequests requests : Act (Exec Op Wire Elem Ctx Pending N) Fault _)
      (sendRequests requests : Act (Exec Op Wire Elem Ctx Pending N') Fault _) := by
  intro s t len s' hst hx
  obtain ⟨hr, rfl⟩ := Prod.mk.inj hx
  have hok := Outcome.mapErr_eq_ok.mp hr
  obtain ⟨network, hcall, hnetwork⟩ := h s.network t.network len _ hst.network (Prod.ext hok rfl)
  refine ⟨{ t with network, calls := t.calls ++ [.send requests (.ok len)] }, ?_, hst.context, hst.wireContents, ?_,
    hnetwork⟩
  · simp only [sendRequests, hcall, Outcome.mapErr]
  · rw [hst.calls]
    exact congrArg (fun r => s.calls ++ [.send requests r]) hok.symm

omit [Operation Op] [MpcScheme S Op Wire Elem Input Ctx Pending] in
theorem recvRequests_tracks {requests : List ReceiveRequest}
    (h : Act.Tracks R (fun _ => Q) (@Network.recvObjectsMany N Elem _ requests)
      (@Network.recvObjectsMany N' Elem _ requests)) :
    Act.Tracks (Exec.Over R) (fun _ => Exec.Over Q)
      (recvRequests requests : Act (Exec Op Wire Elem Ctx Pending N) Fault _)
      (recvRequests requests : Act (Exec Op Wire Elem Ctx Pending N') Fault _) := by
  intro s t received s' hst hx
  obtain ⟨hr, rfl⟩ := Prod.mk.inj hx
  have hok := Outcome.mapErr_eq_ok.mp hr
  obtain ⟨network, hcall, hnetwork⟩ := h s.network t.network received _ hst.network (Prod.ext hok rfl)
  refine ⟨{ t with network, calls := t.calls ++ [.recv requests (.ok received)] }, ?_, hst.context, hst.wireContents,
    ?_, hnetwork⟩
  · simp only [recvRequests, hcall, Outcome.mapErr]
  · rw [hst.calls]
    exact congrArg (fun r => s.calls ++ [.recv requests r]) hok.symm

end calls

/-! ### Tasks -/

namespace ExecutionContext

omit [Operation Op] [MpcScheme S Op Wire Elem Input Ctx Pending] in
theorem withContext_tracks {α : Type} {Q : α → N → N' → Prop} {x : Act (Exec Op Wire Elem Ctx Pending N) Fault α}
    {y : Act (Exec Op Wire Elem Ctx Pending N') Fault α}
    (h : Act.Tracks (Exec.Over R) (fun a => Exec.Over (Q a)) x y) :
    Act.Tracks (Over R) (fun a => Over (Q a))
      (withContext x : Act (ExecutionContext S Op Wire Elem Ctx Pending N) Fault α) (withContext y) := by
  intro ec ec' a ec₁ hec hx
  unfold withContext at hx ⊢
  rw [hec.schemeContext, hec.wireContents, hec.calls]
  split at hx
  · cases (Prod.mk.inj hx).1
  · next context _ =>
      obtain ⟨hr, rfl⟩ := Prod.mk.inj hx
      obtain ⟨t', hy, ht'⟩ := h ⟨context, ec.wireContents, ec.network, ec.calls⟩
        ⟨context, ec.wireContents, ec'.network, ec.calls⟩ a _ ⟨rfl, rfl, rfl, hec.network⟩ (Prod.ext hr rfl)
      simp only [hy]
      exact ⟨_, rfl, hec.circuit, hec.executionState, ht'.wireContents, congrArg some ht'.context, ht'.calls, ht'.network⟩

omit [Operation Op] [MpcScheme S Op Wire Elem Input Ctx Pending] in
theorem assertState_tracks (fnName : String) (state : ExecutionState) :
    Act.Tracks (Over R) (fun _ => Over R)
      (assertState fnName state : Act (ExecutionContext S Op Wire Elem Ctx Pending N) Fault _)
      (assertState fnName state : Act (ExecutionContext S Op Wire Elem Ctx Pending N') Fault _) := by
  intro ec ec' a ec₁ hec hx
  obtain ⟨hr, rfl⟩ := Prod.mk.inj hx
  refine ⟨ec', Prod.ext ?_ rfl, hec⟩
  rw [assertState, hec.executionState]
  exact hr

omit [Operation Op] [MpcScheme S Op Wire Elem Input Ctx Pending] in
theorem setState_tracks (state : ExecutionState) :
    Act.Tracks (Over R) (fun _ => Over R)
      (setState state : Act (ExecutionContext S Op Wire Elem Ctx Pending N) Fault _)
      (setState state : Act (ExecutionContext S Op Wire Elem Ctx Pending N') Fault _) :=
  Act.Tracks.modify fun _ _ h => ⟨h.circuit, rfl, h.wireContents, h.schemeContext, h.calls, h.network⟩

variable [Network N Elem] [Network N' Elem]

theorem prepareInput_tracks (hmyId : ∀ s t, R s t → @Network.myId N' Elem _ t = @Network.myId N Elem _ s)
    (inputs : List (WireId × Input)) :
    Act.Tracks (Over R) (fun _ => Over R)
      (prepareInput inputs : Act (ExecutionContext S Op Wire Elem Ctx Pending N) Fault _)
      (prepareInput inputs : Act (ExecutionContext S Op Wire Elem Ctx Pending N') Fault _) := by
  refine (assertState_tracks _ _).bind fun _ => ?_
  refine (Act.Tracks.read fun ec ec' h => ?_).bind fun wireIds => ?_
  · rw [h.circuit, hmyId _ _ h.network]
  refine (Act.Tracks.ret _).bind fun wireIds => (Act.Tracks.ret _).bind fun taken => ?_
  split
  · exact Act.Tracks.ret _
  · refine Act.Tracks.bind (Q := fun _ => Over R) (fun ec ec' a ec₁ h hx => ?_) fun _ => setState_tracks _
    unfold ExecutionContext.prepareUserInput at hx ⊢
    rw [h.schemeContext, h.circuit]
    split at hx
    · cases (Prod.mk.inj hx).1
    · obtain ⟨-, rfl⟩ := Prod.mk.inj hx
      exact ⟨_, rfl, rfl, h.executionState, h.wireContents, rfl, h.calls, h.network⟩

end ExecutionContext

section tasks

open ExecutionContext

variable [Network N Elem] [Network N' Elem]

/-- **The first half of a task**, when what it sends can be sent over the second network too. -/
theorem Task.begin_over {Q : N → N' → Prop} {scheme : S} {inputs : List (WireId × Input)} {task : Task Op}
    {batch : Batch Elem Pending} {ec ec₁ : ExecutionContext S Op Wire Elem Ctx Pending N}
    {ec' : ExecutionContext S Op Wire Elem Ctx Pending N'} (h : ExecutionContext.Over R ec ec')
    (hcall : task.begin scheme inputs ec = (.ok batch, ec₁))
    (hmyId : ∀ s t, R s t → @Network.myId N' Elem _ t = @Network.myId N Elem _ s)
    (hsend : Act.Tracks R (fun _ => Q) (@Network.sendObjectsMany N Elem _ batch.sendRequests)
      (@Network.sendObjectsMany N' Elem _ batch.sendRequests))
    (hnone : batch.sendRequests = [] → ∀ s t, R s t → Q s t) :
    ∃ ec₁', task.begin scheme inputs ec' = (.ok batch, ec₁') ∧ ExecutionContext.Over Q ec₁ ec₁' := by
  have hquiet : ∀ {x : Act (ExecutionContext S Op Wire Elem Ctx Pending N) Fault Unit}
      {y : Act (ExecutionContext S Op Wire Elem Ctx Pending N') Fault Unit},
      Act.Tracks (ExecutionContext.Over R) (fun _ => ExecutionContext.Over R) x y →
      (x.bind fun _ => .ret (.ok .empty)) ec = (.ok batch, ec₁) →
      ∃ ec₁', (y.bind fun _ => .ret (.ok .empty)) ec' = (.ok batch, ec₁') ∧ ExecutionContext.Over Q ec₁ ec₁' := by
    intro x y htracks hcall
    obtain ⟨_, ec₂, hx, hret⟩ := Act.bind_eq_ok.mp hcall
    obtain ⟨rfl, rfl⟩ := Act.ret_eq_ok.mp hret
    obtain ⟨ec₁', hy, hover⟩ := htracks _ _ _ _ h hx
    exact ⟨ec₁', by rw [Act.bind_of_ok hy]; rfl, hover.circuit, hover.executionState, hover.wireContents,
      hover.schemeContext, hover.calls, hnone rfl _ _ hover.network⟩
  cases task with
  | enter fnName required => exact hquiet (assertState_tracks _ _) hcall
  | leave reached => exact hquiet (setState_tracks _) hcall
  | prepare => exact hquiet (prepareInput_tracks hmyId inputs) hcall
  | round r =>
      obtain ⟨_, ec₂, hlocal, hcall⟩ := Act.bind_eq_ok.mp hcall
      obtain ⟨batch', ec₃, hphases, hcall⟩ := Act.bind_eq_ok.mp hcall
      obtain ⟨len, ec₄, hsent, hret⟩ := Act.bind_eq_ok.mp hcall
      obtain ⟨rfl, rfl⟩ := Act.ret_eq_ok.mp hret
      obtain ⟨ec₂', hlocal', h₂⟩ :=
        withContext_tracks (Q := fun _ => R) (doLocalOperations_tracks scheme r) _ _ _ _ h hlocal
      obtain ⟨ec₃', hphases', h₃⟩ :=
        withContext_tracks (Q := fun _ => R) (networkPhases_tracks scheme _ _) _ _ _ _ h₂ hphases
      obtain ⟨ec₄', hsent', h₄⟩ := withContext_tracks (Q := fun _ => Q) (sendRequests_tracks hsend) _ _ _ _ h₃ hsent
      refine ⟨ec₄', ?_, h₄⟩
      rw [Task.begin, Act.bind_of_ok hlocal', Act.bind_of_ok hphases', Act.bind_of_ok hsent']
      rfl

/-- **The second half of a round.** -/
theorem Task.complete_tracks {Q : N → N' → Prop} {batch : Batch Elem Pending}
    (hrecv : Act.Tracks R (fun _ => Q) (@Network.recvObjectsMany N Elem _ batch.receiveRequests)
      (@Network.recvObjectsMany N' Elem _ batch.receiveRequests)) (scheme : S) (round : Round Op) :
    Act.Tracks (ExecutionContext.Over R) (fun _ => ExecutionContext.Over Q)
      ((Task.round round).complete scheme batch : Act (ExecutionContext S Op Wire Elem Ctx Pending N) Fault _)
      ((Task.round round).complete scheme batch : Act (ExecutionContext S Op Wire Elem Ctx Pending N') Fault _) :=
  (withContext_tracks (Q := fun _ => Q) (recvRequests_tracks hrecv)).bind fun _ =>
    withContext_tracks (Q := fun _ => Q) (finishNetworkOperations_tracks scheme _ _ _)

end tasks

end MpcCore
