import MpcCore.Execution
import MpcCore.Additive

/-! # The life of an execution context

The four calls of an `ExecutionContext` in any order, with any results of the scheme and the
network, as long as none panics.

* `Exec.Grows`: what the rounds do to the wire map.  A stored wire keeps its value, and only
  outputs of the rounds are stored.
* `ExecutionContext.Lifecycle`: the context of the scheme is there exactly after the handshake, and
  the stored wires are those that belong to the state.
* `ExecutionContext.lifecycle`: the invariant holds in every reachable state, and every call made
  there reads only an initialised context, changes the state by one step or not at all, and keeps
  the stored wires. -/

namespace MpcCore

open Operation

variable {S Op Wire Elem Input Ctx Pending N : Type}

/-! ### The wire map in the rounds -/

/-- Stored wires keep their values, and new ones are among `W`. -/
def WiresGrow (W : List WireId) (m m' : PMap WireId Wire) : Prop :=
  (∀ w v, m.get w = some v → m'.get w = some v) ∧ ∀ w, m'.get w ≠ none → m.get w ≠ none ∨ w ∈ W

theorem WiresGrow.refl (W : List WireId) (m : PMap WireId Wire) : WiresGrow W m m :=
  ⟨fun _ _ h => h, fun _ h => .inl h⟩

theorem WiresGrow.trans {W : List WireId} {m₁ m₂ m₃ : PMap WireId Wire} (h : WiresGrow W m₁ m₂)
    (h' : WiresGrow W m₂ m₃) : WiresGrow W m₁ m₃ := by
  refine ⟨fun w v hw => h'.1 w v (h.1 w v hw), fun w hw => ?_⟩
  obtain hw | hw := h'.2 w hw
  · exact h.2 w hw
  · exact .inr hw

theorem WiresGrow.mono {W W' : List WireId} (hW : ∀ w ∈ W, w ∈ W') {m m' : PMap WireId Wire}
    (h : WiresGrow W m m') : WiresGrow W' m m' :=
  ⟨h.1, fun w hw => (h.2 w hw).imp_right (hW w)⟩

theorem WiresGrow.kept {W : List WireId} {m m' : PMap WireId Wire} (h : WiresGrow W m m') {w : WireId}
    (hw : m.get w ≠ none) : m'.get w ≠ none := by
  obtain ⟨v, hv⟩ := Option.ne_none_iff_exists'.mp hw
  rw [h.1 w v hv]
  simp

/-- The wire map grows by wires of `W`. -/
def Exec.Grows (W : List WireId) (s s' : Exec Op Wire Elem Ctx Pending N) : Prop :=
  WiresGrow W s.wireContents s'.wireContents

instance (W : List WireId) : IsPreorder (Exec Op Wire Elem Ctx Pending N) (Exec.Grows W) where
  refl _ := WiresGrow.refl W _
  trans _ _ _ := WiresGrow.trans

theorem storeWire_keeps {W : List WireId} {w : WireId} (hw : w ∈ W) (v : Wire) :
    Act.Keeps (Exec.Grows W) (storeWire w v : Act (Exec Op Wire Elem Ctx Pending N) Fault Unit) := by
  intro s hs
  have hnone : s.wireContents.get w = none := by
    by_contra h
    exact hs (by simp [storeWire, Outcome.assert, h])
  constructor
  · intro w' v' h
    rw [storeWire, PMap.get_insert_ne _ _ (by rintro rfl; simp [hnone] at h)]
    exact h
  · intro w' h
    by_cases hww : w' = w
    · exact .inr (hww ▸ hw)
    · exact .inl (by rwa [storeWire, PMap.get_insert_ne _ _ hww] at h)

theorem storeWires_keeps {W : List WireId} : ∀ (ws : List WireId) (vs : List Wire), (∀ w ∈ ws, w ∈ W) →
    Act.Keeps (Exec.Grows W) (storeWires ws vs : Act (Exec Op Wire Elem Ctx Pending N) Fault Unit)
  | [], [], _ => Act.Keeps.ret _
  | w :: ws, v :: vs, h =>
      (storeWire_keeps (h w (by simp)) v).bind fun _ _ _ _ =>
        storeWires_keeps ws vs fun w' hw' => h w' (by simp [hw'])
  | [], _ :: _, _ => Act.Keeps.ret _
  | _ :: _, [], _ => Act.Keeps.ret _

/-- Whoever stores a list of wires without a panic has stored every one. -/
theorem storeWires_ok : ∀ {ws : List WireId} {vs : List Wire} {s s' : Exec Op Wire Elem Ctx Pending N},
    storeWires ws vs s = (.ok (), s') → ∀ w ∈ ws, s'.wireContents.get w ≠ none
  | [], _, _, _, _ => by simp
  | w :: ws, v :: vs, s, s', h => by
      obtain ⟨_, s₁, h1, h2⟩ := Act.bind_eq_ok.mp h
      have hkeep := storeWires_keeps (W := ws) ws vs (fun _ h => h) s₁ (by rw [h2]; simp)
      rw [h2] at hkeep
      intro w' hw'
      obtain rfl | hw' := List.mem_cons.mp hw'
      · apply WiresGrow.kept hkeep
        have : s₁ = { s with wireContents := s.wireContents.insert w' v } := (Prod.mk.inj h1).2.symm
        simp [this]
      · exact storeWires_ok h2 w' hw'
  | _ :: _, [], _, _, h => by simp [storeWires] at h

variable [Operation Op] [MpcScheme S Op Wire Elem Input Ctx Pending]

theorem networkPhase_keeps (W : List WireId) (scheme : S) (op : Op) :
    Act.Keeps (Exec.Grows W) (networkPhase scheme op : Act (Exec Op Wire Elem Ctx Pending N) Fault _) := by
  intro s _
  obtain ⟨ins, r, context, -, hrun⟩ | hrun := networkPhase_cases scheme op s
  all_goals
    rw [hrun]
    exact WiresGrow.refl W _

omit [Operation Op] in
theorem finalizePhase_keeps (W : List WireId) (scheme : S) (op : Op) (pending : Pending) (data : List Elem) :
    Act.Keeps (Exec.Grows W)
      (finalizePhase scheme op pending data : Act (Exec Op Wire Elem Ctx Pending N) Fault _) :=
  fun _ _ => WiresGrow.refl W _

theorem doLocalOperation_keeps (scheme : S) (round : Round Op) : ∀ op ∈ round.localOperations,
    Act.Keeps (Exec.Grows (producedWires round.localOperations))
      (doLocalOperation scheme op : Act (Exec Op Wire Elem Ctx Pending N) Fault _) := by
  intro op hop
  refine (networkPhase_keeps _ scheme op).bind fun out _ _ _ => ?_
  refine (Act.Keeps.ret _).bind fun _ _ _ _ => ?_
  refine (Act.Keeps.ret _).bind fun _ _ _ _ => ?_
  refine (finalizePhase_keeps _ scheme op _ _).bind fun output _ _ _ => ?_
  exact storeWires_keeps _ _ fun w hw => mem_producedWires.mpr ⟨op, hop, hw⟩

theorem doLocalOperations_keeps (scheme : S) (round : Round Op) :
    Act.Keeps (Exec.Grows (producedWires round.localOperations))
      (doLocalOperations scheme round : Act (Exec Op Wire Elem Ctx Pending N) Fault _) :=
  Act.Keeps.each _ (doLocalOperation_keeps scheme round)

theorem networkPhases_keeps (W : List WireId) (scheme : S) : ∀ (ops : List Op) (batch : Batch Elem Pending),
    Act.Keeps (Exec.Grows W)
      (networkPhases scheme ops batch : Act (Exec Op Wire Elem Ctx Pending N) Fault _)
  | [], _ => Act.Keeps.ret _
  | op :: ops, _ =>
      (networkPhase_keeps W scheme op).bind fun _ _ _ _ => networkPhases_keeps W scheme ops _

omit [Operation Op] in
theorem finalizePhases_keeps (W : List WireId) (scheme : S) :
    ∀ (ops : List (Op × Pending × ℕ)) (data : List (List Elem)) (results : List (Op × List Wire)),
      Act.Keeps (Exec.Grows W)
        (finalizePhases scheme ops data results : Act (Exec Op Wire Elem Ctx Pending N) Fault _)
  | [], _, _ => Act.Keeps.ret _
  | (op, pending, _) :: ops, _, _ =>
      (finalizePhase_keeps W scheme op pending _).bind fun _ _ _ _ =>
        finalizePhases_keeps W scheme ops _ _

omit [Operation Op] in
/-- The finalize phases return one result for each operation, in order. -/
theorem finalizePhases_ok (scheme : S) : ∀ {ops : List (Op × Pending × ℕ)} {data : List (List Elem)}
    {results results' : List (Op × List Wire)} {s s' : Exec Op Wire Elem Ctx Pending N},
    finalizePhases scheme ops data results s = (.ok results', s') →
      results'.map Prod.fst = results.map Prod.fst ++ ops.map Prod.fst
  | [], _, results, results', s, s', h => by
      obtain rfl : results = results' := by simpa [finalizePhases] using (Prod.mk.inj h).1
      simp
  | (op, pending, _) :: ops, _, results, results', s, s', h => by
      obtain ⟨output, s₁, -, h2⟩ := Act.bind_eq_ok.mp h
      rw [finalizePhases_ok scheme h2]
      simp

theorem networkPhases_ok (scheme : S) : ∀ {ops : List Op} {batch batch' : Batch Elem Pending}
    {s s' : Exec Op Wire Elem Ctx Pending N}, networkPhases scheme ops batch s = (.ok batch', s') →
      batch'.pendingOps.length = batch.pendingOps.length + ops.length ∧
      batch'.receiveRequestCounts.length = batch.receiveRequestCounts.length + ops.length
  | [], batch, batch', s, s', h => by
      obtain rfl : batch = batch' := by simpa [networkPhases] using (Prod.mk.inj h).1
      simp
  | op :: ops, batch, batch', s, s', h => by
      obtain ⟨out, s₁, -, h2⟩ := Act.bind_eq_ok.mp h
      obtain ⟨h3, h4⟩ := networkPhases_ok scheme h2
      simp only [Batch.add, List.length_append, List.length_cons, List.length_nil] at h3 h4 ⊢
      omega

/-- Every network operation of a round has a result, since the first loop has kept something for each. -/
theorem results_operations {scheme : S} {ops : List Op} {batch : Batch Elem Pending} {data : List (List Elem)}
    {results : List (Op × List Wire)} {s s₁ s₂ s₃ : Exec Op Wire Elem Ctx Pending N}
    (h : networkPhases scheme ops .empty s = (.ok batch, s₁))
    (h' : finalizePhases scheme (ops.zip (batch.pendingOps.zip batch.receiveRequestCounts)) data [] s₂ =
      (.ok results, s₃)) : results.map Prod.fst = ops := by
  have hlen := networkPhases_ok scheme h
  simp only [Batch.empty, List.length_nil, Nat.zero_add] at hlen
  rw [finalizePhases_ok scheme h', List.map_nil, List.nil_append]
  exact List.map_fst_zip (by simp [hlen])

variable [Network N Elem]

theorem doNetworkOperations_keeps (scheme : S) (round : Round Op) :
    Act.Keeps (Exec.Grows (producedWires round.networkOperations))
      (doNetworkOperations scheme round : Act (Exec Op Wire Elem Ctx Pending N) Fault _) := by
  refine (networkPhases_keeps _ scheme _ _).bind fun batch _ _ _ => ?_
  refine Act.Keeps.bind (fun _ _ => WiresGrow.refl _ _) fun sendLen _ _ _ => ?_
  refine Act.Keeps.bind (fun _ _ => WiresGrow.refl _ _) fun received _ _ _ => ?_
  refine Act.Keeps.bind ?_ fun _ _ _ _ => Act.Keeps.ret _
  refine (finalizePhases_keeps _ scheme _ _ _).bind fun results s s' h => ?_
  refine Act.Keeps.each _ fun r hr => ?_
  refine storeWires_keeps _ _ fun w hw => mem_producedWires.mpr ⟨r.1, ?_, hw⟩
  have hmem : r.1 ∈ results.map Prod.fst := List.mem_map_of_mem hr
  rw [finalizePhases_ok scheme h] at hmem
  obtain ⟨pending, count, hmem⟩ : ∃ a b, (r.1, a, b) ∈ round.networkOperations.zip
      (batch.pendingOps.zip batch.receiveRequestCounts) := by simpa using hmem
  exact (List.of_mem_zip hmem).1

/-! ### What a successful round stores -/

/-- All outputs of an operation are stored. -/
def Exec.Has (op : Op) (s : Exec Op Wire Elem Ctx Pending N) : Prop :=
  ∀ w ∈ outputs op, s.wireContents.get w ≠ none

omit [MpcScheme S Op Wire Elem Input Ctx Pending] [Network N Elem] in
theorem Exec.Grows.has {W : List WireId} {s s' : Exec Op Wire Elem Ctx Pending N} (h : s.Grows W s') {op : Op}
    (hop : s.Has op) : s'.Has op := fun w hw => WiresGrow.kept h (hop w hw)

omit [Network N Elem] in
theorem doLocalOperations_ok {scheme : S} {round : Round Op} {s s' : Exec Op Wire Elem Ctx Pending N}
    (h : doLocalOperations scheme round s = (.ok (), s')) : ∀ op ∈ round.localOperations, s'.Has op := by
  refine Act.Keeps.each_ok (R := Exec.Grows (producedWires round.localOperations))
    (P := fun op s => s.Has op) (fun op s s' hs => hs.has) (fun op s s' hop => ?_) (doLocalOperation_keeps scheme round) h
  obtain ⟨out, s₁, -, hop⟩ := Act.bind_eq_ok.mp hop
  obtain ⟨_, s₂, -, hop⟩ := Act.bind_eq_ok.mp hop
  obtain ⟨_, s₃, -, hop⟩ := Act.bind_eq_ok.mp hop
  obtain ⟨output, s₄, -, hop⟩ := Act.bind_eq_ok.mp hop
  exact storeWires_ok hop

theorem doNetworkOperations_ok {scheme : S} {round : Round Op} {s s' : Exec Op Wire Elem Ctx Pending N}
    {lens : ℕ × ℕ} (h : doNetworkOperations scheme round s = (.ok lens, s')) :
    ∀ op ∈ round.networkOperations, s'.Has op := by
  obtain ⟨batch, s₁, h1, h⟩ := Act.bind_eq_ok.mp h
  obtain ⟨sendLen, s₂, -, h⟩ := Act.bind_eq_ok.mp h
  obtain ⟨⟨data, recvLen⟩, s₃, -, h⟩ := Act.bind_eq_ok.mp h
  obtain ⟨_, s₄, h4, h⟩ := Act.bind_eq_ok.mp h
  obtain ⟨-, rfl⟩ := Prod.mk.inj h
  obtain ⟨results, s₅, h5, h6⟩ := Act.bind_eq_ok.mp h4
  intro op hop
  obtain ⟨r, hr, rfl⟩ := List.mem_map.mp (results_operations h1 h5 ▸ hop)
  exact Act.Keeps.each_ok (R := Exec.Grows (producedWires (results.map Prod.fst)))
    (P := fun r s => s.Has r.1) (fun r s s' hs => hs.has) (fun r s s' hs => storeWires_ok hs)
    (fun r hr => storeWires_keeps _ _ fun w hw => mem_producedWires.mpr ⟨r.1, List.mem_map_of_mem hr, hw⟩)
    h6 r hr

/-! ### No round reads an uninitialised context -/

theorem mapErr_schemeFault_ne {α : Type} (r : Outcome String α) : r.mapErr schemeFault ≠ .err .uninit := by
  cases r <;> simp [Outcome.mapErr, schemeFault]

/-- A call within a round never fails for an uninitialised context. -/
def Exec.Safe {α : Type} (x : Act (Exec Op Wire Elem Ctx Pending N) Fault α) : Prop :=
  Act.Avoids (fun _ => True) Fault.uninit x

omit [Network N Elem] in
theorem networkPhase_safe (scheme : S) (op : Op) :
    Exec.Safe (networkPhase scheme op : Act (Exec Op Wire Elem Ctx Pending N) Fault _) := by
  intro s _
  obtain ⟨ins, r, context, -, hrun⟩ | hrun := networkPhase_cases scheme op s
  · rw [hrun]
    exact ⟨mapErr_schemeFault_ne _, trivial⟩
  · rw [hrun]
    exact ⟨by simp, trivial⟩

omit [Operation Op] [Network N Elem] in
theorem finalizePhase_safe (scheme : S) (op : Op) (pending : Pending) (data : List Elem) :
    Exec.Safe (finalizePhase scheme op pending data : Act (Exec Op Wire Elem Ctx Pending N) Fault _) :=
  fun _ _ => ⟨mapErr_schemeFault_ne _, trivial⟩

omit [Network N Elem] in
theorem doLocalOperations_safe (scheme : S) (round : Round Op) :
    Exec.Safe (doLocalOperations scheme round : Act (Exec Op Wire Elem Ctx Pending N) Fault _) :=
  doLocalOperations_avoids (fun _ _ => id) (networkPhase_safe scheme) (finalizePhase_safe scheme) round

theorem doNetworkOperations_safe (scheme : S) (round : Round Op) :
    Exec.Safe (doNetworkOperations scheme round : Act (Exec Op Wire Elem Ctx Pending N) Fault _) := by
  refine (networkPhases_avoids (networkPhase_safe scheme) _ _).bind fun batch => ?_
  refine Act.Avoids.bind (fun _ _ => ⟨mapErr_schemeFault_ne _, trivial⟩) fun sendLen => ?_
  refine Act.Avoids.bind (fun _ _ => ⟨mapErr_schemeFault_ne _, trivial⟩) fun received => ?_
  refine Act.Avoids.bind ?_ fun _ => Act.Avoids.ret (by simp)
  exact finishNetworkOperations_avoids (fun _ _ => id) (finalizePhase_safe scheme) _ _ _

namespace ExecutionContext

/-! ### The loop over the rounds -/

/-- The wire map grows by wires of `W`, and the rest of the context keeps its shape. -/
structure Grows (W : List WireId) (ec ec' : ExecutionContext S Op Wire Elem Ctx Pending N) : Prop where
  circuit : ec'.circuit = ec.circuit
  executionState : ec'.executionState = ec.executionState
  schemeContext : ec'.schemeContext.isSome = ec.schemeContext.isSome
  wires : WiresGrow W ec.wireContents ec'.wireContents

instance (W : List WireId) : IsPreorder (ExecutionContext S Op Wire Elem Ctx Pending N) (Grows W) where
  refl _ := ⟨rfl, rfl, rfl, WiresGrow.refl W _⟩
  trans _ _ _ h h' := ⟨h'.circuit.trans h.circuit, h'.executionState.trans h.executionState,
    h'.schemeContext.trans h.schemeContext, h.wires.trans h'.wires⟩

/-- All outputs of an operation are stored. -/
def Has (op : Op) (ec : ExecutionContext S Op Wire Elem Ctx Pending N) : Prop :=
  ∀ w ∈ outputs op, ec.wireContents.get w ≠ none

/-- The context of the scheme is initialised. -/
def Init (ec : ExecutionContext S Op Wire Elem Ctx Pending N) : Prop := ec.schemeContext.isSome = true

omit [Operation Op] [MpcScheme S Op Wire Elem Input Ctx Pending] [Network N Elem] in
theorem withContext_keeps {α : Type} {W : List WireId} {x : Act (Exec Op Wire Elem Ctx Pending N) Fault α}
    (hx : Act.Keeps (Exec.Grows W) x) :
    Act.Keeps (Grows W) (withContext x : Act (ExecutionContext S Op Wire Elem Ctx Pending N) Fault α) := by
  intro ec hec
  unfold withContext at hec ⊢
  split at hec <;> rename_i hctx
  · exact refl_of (Grows W) ec
  · exact ⟨rfl, rfl, by simp [hctx], hx _ hec⟩

omit [Operation Op] [MpcScheme S Op Wire Elem Input Ctx Pending] [Network N Elem] in
theorem withContext_avoids {α : Type} {x : Act (Exec Op Wire Elem Ctx Pending N) Fault α}
    (hx : Exec.Safe x) : Act.Avoids Init Fault.uninit
      (withContext x : Act (ExecutionContext S Op Wire Elem Ctx Pending N) Fault α) := by
  intro ec hec
  obtain ⟨context, hctx⟩ := Option.isSome_iff_exists.mp hec
  simp only [withContext, hctx]
  exact ⟨(hx _ trivial).1, rfl⟩

omit [Operation Op] [MpcScheme S Op Wire Elem Input Ctx Pending] [Network N Elem] in
theorem withContext_ok {α : Type} {x : Act (Exec Op Wire Elem Ctx Pending N) Fault α} {a : α}
    {ec ec' : ExecutionContext S Op Wire Elem Ctx Pending N} (h : withContext x ec = (.ok a, ec')) :
    ∃ s s', x s = (.ok a, s') ∧ s.wireContents = ec.wireContents ∧ ec'.wireContents = s'.wireContents := by
  unfold withContext at h
  split at h
  · simp at h
  · rename_i context _
    obtain ⟨h1, rfl⟩ := Prod.mk.inj h
    exact ⟨⟨context, ec.wireContents, ec.network, ec.calls⟩, _, Prod.ext h1 rfl, rfl, rfl⟩

theorem doRounds_keeps (scheme : S) {W : List WireId} : ∀ (rounds : List (Round Op)) (a b : ℕ),
    (∀ round ∈ rounds, ∀ w ∈ producedWires round.operations, w ∈ W) →
    Act.Keeps (Grows W)
      (doRounds scheme rounds a b : Act (ExecutionContext S Op Wire Elem Ctx Pending N) Fault _)
  | [], _, _, _ => Act.Keeps.ret _
  | round :: rounds, a, b, h => by
      have hround : ∀ w ∈ producedWires round.localOperations ++ producedWires round.networkOperations, w ∈ W := by
        rw [← producedWires_append]
        exact h round (by simp)
      refine (withContext_keeps fun s hs => ?_).bind fun _ _ _ _ => ?_
      · exact (doLocalOperations_keeps scheme round s hs).mono fun w hw => hround w (by simp [hw])
      refine (withContext_keeps fun s hs => ?_).bind fun _ _ _ _ => ?_
      · exact (doNetworkOperations_keeps scheme round s hs).mono fun w hw => hround w (by simp [hw])
      exact doRounds_keeps scheme rounds _ _ fun r hr => h r (by simp [hr])

theorem doRounds_avoids (scheme : S) : ∀ (rounds : List (Round Op)) (a b : ℕ),
    Act.Avoids Init Fault.uninit
      (doRounds scheme rounds a b : Act (ExecutionContext S Op Wire Elem Ctx Pending N) Fault _)
  | [], _, _ => Act.Avoids.ret (by simp)
  | round :: rounds, _, _ =>
      (withContext_avoids (doLocalOperations_safe scheme round)).bind fun _ =>
        (withContext_avoids (doNetworkOperations_safe scheme round)).bind fun _ =>
          doRounds_avoids scheme rounds _ _

theorem doRounds_ok {scheme : S} : ∀ {rounds : List (Round Op)} {a b : ℕ} {lens : ℕ × ℕ}
    {ec ec' : ExecutionContext S Op Wire Elem Ctx Pending N},
    doRounds scheme rounds a b ec = (.ok lens, ec') → ∀ round ∈ rounds, ∀ op ∈ round.operations, ec'.Has op
  | [], _, _, _, _, _, _ => by simp
  | round :: rounds, a, b, lens, ec, ec', h => by
      obtain ⟨_, ec₁, h1, h⟩ := Act.bind_eq_ok.mp h
      obtain ⟨⟨sendLen, recvLen⟩, ec₂, h2, h⟩ := Act.bind_eq_ok.mp h
      change doRounds scheme rounds (a + sendLen) (b + recvLen) ec₂ = (.ok lens, ec') at h
      have hW : ∀ r ∈ round :: rounds, ∀ w ∈ producedWires r.operations,
          w ∈ producedWires ((round :: rounds).flatMap Round.operations) := by
        intro r hr w hw
        obtain ⟨op, hop, hw⟩ := mem_producedWires.mp hw
        exact mem_producedWires.mpr ⟨op, List.mem_flatMap.mpr ⟨r, hr, hop⟩, hw⟩
      have hkeep := doRounds_keeps scheme rounds (a + sendLen) (b + recvLen)
        (fun r hr => hW r (by simp [hr])) ec₂ (by rw [h]; simp)
      have hkeep' := withContext_keeps (S := S) (doNetworkOperations_keeps scheme round) ec₁ (by rw [h2]; simp)
      rw [h] at hkeep
      rw [h2] at hkeep'
      intro r hr op hop
      obtain rfl | hr := List.mem_cons.mp hr
      · intro w hw
        apply hkeep.wires.kept
        obtain hop | hop := List.mem_append.mp hop
        · obtain ⟨s, s', hs, -, hs'⟩ := withContext_ok h1
          exact hkeep'.wires.kept (hs' ▸ doLocalOperations_ok hs op hop w hw)
        · obtain ⟨s, s', hs, -, hs'⟩ := withContext_ok h2
          exact hs' ▸ doNetworkOperations_ok hs op hop w hw
      · exact doRounds_ok h r hr op hop

/-! ### The four calls -/

/-- One of the calls a user makes. -/
inductive Invocation (Input : Type) where
  | handshake (rng : Draws)
  | doOffline
  | prepareInput (userInputs : List (WireId × Input))
  | doOnline

namespace Invocation

/-- The state a call asks for. -/
def required : Invocation Input → ExecutionState
  | handshake _ => .newBorn
  | doOffline => .handshaked
  | prepareInput _ => .finishedOffline
  | doOnline => .readyOnline

/-- The state a successful call leads to, the next one. -/
def reached : Invocation Input → ExecutionState
  | handshake _ => .handshaked
  | doOffline => .finishedOffline
  | prepareInput _ => .readyOnline
  | doOnline => .finished

end Invocation

/-- Make a call, and forget the lengths it returns. -/
def perform (digest : MpcCircuit S Op → Outcome String (List UInt8)) :
    Invocation Input → Act (ExecutionContext S Op Wire Elem Ctx Pending N) Fault Unit
  | .handshake rng => (handshake digest rng).bind fun _ => .ret (.ok ())
  | .doOffline => doOffline.bind fun _ => .ret (.ok ())
  | .prepareInput userInputs => prepareInput userInputs
  | .doOnline => doOnline.bind fun _ => .ret (.ok ())

/-- The contexts that calls which return, with a value or an error, lead to. -/
inductive Reachable (digest : MpcCircuit S Op → Outcome String (List UInt8)) (circuit : MpcCircuit S Op) :
    ExecutionContext S Op Wire Elem Ctx Pending N → Prop where
  | new (network : N) : Reachable digest circuit (new circuit network)
  | ok {ec ec' : ExecutionContext S Op Wire Elem Ctx Pending N} (i : Invocation Input) :
      Reachable digest circuit ec → perform digest i ec = (.ok (), ec') → Reachable digest circuit ec'
  | err {ec ec' : ExecutionContext S Op Wire Elem Ctx Pending N} (i : Invocation Input) {e : ExecutionContextError} :
      Reachable digest circuit ec → perform digest i ec = (.err (.error e), ec') → Reachable digest circuit ec'

/-- The stored wires that belong to each state. -/
def StoredIn (circuit : MpcCircuit S Op) (m : PMap WireId Wire) : ExecutionState → Prop
  | .newBorn => ∀ w, m.get w = none
  | .handshaked => ∀ w, m.get w ≠ none → w ∈ producedWires circuit.offlineOperations
  | .finishedOffline => ∀ w, m.get w ≠ none ↔ w ∈ producedWires circuit.offlineOperations
  | .readyOnline => (∀ w ∈ producedWires circuit.offlineOperations, m.get w ≠ none) ∧
      ∀ w, m.get w ≠ none → w ∈ producedWires circuit.operations
  | .finished => ∀ w, m.get w ≠ none ↔ w ∈ producedWires circuit.operations

/-- The context of the scheme is initialised exactly after the handshake, and the stored wires are
those that belong to the state. -/
structure Lifecycle (circuit : MpcCircuit S Op) (ec : ExecutionContext S Op Wire Elem Ctx Pending N) : Prop where
  circuit_eq : ec.circuit = circuit
  initialised : ec.schemeContext.isSome = true ↔ ec.executionState ≠ .newBorn
  stored : StoredIn circuit ec.wireContents ec.executionState

/-- What a call that does not panic does: it reads only an initialised context, a success is one
step from the required state to the next, a failure leaves the state, and stored wires keep their
values. -/
structure Legal (i : Invocation Input) (r : Outcome Fault Unit)
    (ec ec' : ExecutionContext S Op Wire Elem Ctx Pending N) : Prop where
  init : r ≠ .err .uninit
  ok : r = .ok () → ec.executionState = i.required ∧ ec'.executionState = i.reached
  fails : r ≠ .ok () → ec'.executionState = ec.executionState
  kept : ∀ w v, ec.wireContents.get w = some v → ec'.wireContents.get w = some v

/-! ### What each call does -/

omit [MpcScheme S Op Wire Elem Input Ctx Pending] [Network N Elem] [Operation Op] in
theorem assertState_eq {fnName : String} {state : ExecutionState}
    {ec ec' : ExecutionContext S Op Wire Elem Ctx Pending N} {r : Outcome Fault Unit}
    (h : assertState fnName state ec = (r, ec')) :
    ec' = ec ∧ (r = .ok () ∧ ec.executionState = state ∨
      r ≠ .ok () ∧ r ≠ .err .uninit ∧ ec.executionState ≠ state) := by
  obtain ⟨hr, rfl⟩ := Prod.mk.inj h
  refine ⟨rfl, ?_⟩
  split at hr
  · exact .inl ⟨hr.symm, ‹_›⟩
  · exact .inr ⟨by rw [← hr]; simp, by rw [← hr]; simp, ‹_›⟩

/-- A phase fails at its first check, fails in its rounds, or runs them all. -/
theorem doPhase_cases {fnName : String} {required reached : ExecutionState}
    {rounds : MpcCircuit S Op → List (Round Op)}
    {ec ec' : ExecutionContext S Op Wire Elem Ctx Pending N} {r : Outcome Fault (ℕ × ℕ)}
    (h : doPhase fnName required rounds reached ec = (r, ec')) :
    (ec' = ec ∧ (∀ lens, r ≠ .ok lens) ∧ r ≠ .err .uninit ∧ ec.executionState ≠ required) ∨
    ec.executionState = required ∧
      ((∃ r₁ : Outcome Fault (ℕ × ℕ), doRounds ec.circuit.scheme (rounds ec.circuit) 0 0 ec = (r₁, ec') ∧
          r₁.Fails r) ∨
        ∃ lens ec₁, doRounds ec.circuit.scheme (rounds ec.circuit) 0 0 ec = (.ok lens, ec₁) ∧
          r = .ok lens ∧ ec' = { ec₁ with executionState := reached }) := by
  obtain ⟨_, ec₁, h1, hrest⟩ | ⟨r₁, h1, hf⟩ := Act.bind_cases h
  · obtain ⟨rfl, ⟨-, hstate⟩ | ⟨hne, -⟩⟩ := assertState_eq h1
    · refine .inr ⟨hstate, ?_⟩
      rw [Act.read_bind] at hrest
      obtain ⟨lens, ec₂, h2, hend⟩ | ⟨r₂, h2, hf⟩ := Act.bind_cases hrest
      · obtain ⟨rfl, rfl⟩ := Prod.mk.inj hend
        exact .inr ⟨lens, ec₂, h2, rfl, rfl⟩
      · exact .inl ⟨r₂, h2, hf⟩
    · exact absurd rfl hne
  · obtain ⟨rfl, ⟨rfl, -⟩ | ⟨-, hne, hstate⟩⟩ := assertState_eq h1
    · exact absurd hf Outcome.not_fails_ok
    · refine .inl ⟨rfl, hf.ne_ok, ?_, hstate⟩
      rintro rfl
      exact hne hf.eq_err

/-- Only the network is changed. -/
def NetworkOnly (ec ec' : ExecutionContext S Op Wire Elem Ctx Pending N) : Prop :=
  ec' = { ec with network := ec'.network }

instance : IsPreorder (ExecutionContext S Op Wire Elem Ctx Pending N) NetworkOnly where
  refl _ := rfl
  trans _ _ _ h h' := by
    rw [NetworkOnly] at *
    rw [h', h]

omit [Operation Op] [MpcScheme S Op Wire Elem Input Ctx Pending] [Network N Elem] in
theorem onNetwork_eq {α : Type} {x : Act N String α} {ec ec' : ExecutionContext S Op Wire Elem Ctx Pending N}
    {r : Outcome Fault α} (h : onNetwork x ec = (r, ec')) : NetworkOnly ec ec' := by
  obtain ⟨-, rfl⟩ := Prod.mk.inj h
  rfl

omit [Operation Op] [MpcScheme S Op Wire Elem Input Ctx Pending] [Network N Elem] in
theorem onNetwork_keeps {α : Type} (x : Act N String α) :
    Act.Keeps NetworkOnly (onNetwork x : Act (ExecutionContext S Op Wire Elem Ctx Pending N) Fault α) :=
  fun _ _ => rfl

omit [Operation Op] [MpcScheme S Op Wire Elem Input Ctx Pending] [Network N Elem] in
theorem onNetwork_avoids {α : Type} (x : Act N String α) : Act.Avoids (fun _ => True) Fault.uninit
    (onNetwork x : Act (ExecutionContext S Op Wire Elem Ctx Pending N) Fault α) :=
  fun _ _ => ⟨mapErr_schemeFault_ne _, trivial⟩

theorem disagree_ne (hash : List UInt8) : ∀ hashes, disagree hash hashes ≠ .err .uninit
  | [] => by simp [disagree]
  | x :: hashes => by
      cases hx : x.head? with
      | none => simp [disagree, hx]
      | some h =>
          simp only [disagree, hx, Outcome.unwrap_some, Outcome.ok_bind]
          split
          · simp
          · exact disagree_ne hash hashes

omit [Operation Op] [MpcScheme S Op Wire Elem Input Ctx Pending] in
theorem agreeOnPlan_keeps (digest : MpcCircuit S Op → Outcome String (List UInt8)) : Act.Keeps NetworkOnly
    (agreeOnPlan digest : Act (ExecutionContext S Op Wire Elem Ctx Pending N) Fault _) := by
  refine Act.Keeps.bind (fun _ _ => rfl) fun hash _ _ _ => ?_
  refine (Act.Keeps.ret _).bind fun hash _ _ _ => ?_
  refine (onNetwork_keeps _).bind fun sendLen _ _ _ => ?_
  refine Act.Keeps.bind (fun _ _ => rfl) fun request _ _ _ => ?_
  refine (onNetwork_keeps _).bind fun received _ _ _ => ?_
  exact (Act.Keeps.ret _).bind fun _ _ _ _ => Act.Keeps.ret _

omit [Operation Op] [MpcScheme S Op Wire Elem Input Ctx Pending] in
theorem agreeOnPlan_avoids (digest : MpcCircuit S Op → Outcome String (List UInt8)) :
    Act.Avoids (fun _ => True) Fault.uninit
      (agreeOnPlan digest : Act (ExecutionContext S Op Wire Elem Ctx Pending N) Fault _) := by
  refine (Act.Avoids.read _).bind fun hash => ?_
  refine (Act.Avoids.ret (mapErr_schemeFault_ne _)).bind fun hash => ?_
  refine (onNetwork_avoids _).bind fun sendLen => ?_
  refine (Act.Avoids.read _).bind fun request => ?_
  refine (onNetwork_avoids _).bind fun received => ?_
  refine (Act.Avoids.ret (disagree_ne _ _)).bind fun disagrees => Act.Avoids.ret ?_
  cases disagrees <;> simp

omit [Operation Op] in
/-- The handshake changes only the network, or it succeeds. -/
theorem handshake_cases {digest : MpcCircuit S Op → Outcome String (List UInt8)} {rng : Draws}
    {ec ec' : ExecutionContext S Op Wire Elem Ctx Pending N} {r : Outcome Fault (ℕ × ℕ)}
    (h : handshake digest rng ec = (r, ec')) (hr : r ≠ .panic) :
    (NetworkOnly ec ec' ∧ (∀ lens, r ≠ .ok lens) ∧ r ≠ .err .uninit) ∨
    ∃ lens context, ec.executionState = .newBorn ∧ r = .ok lens ∧
      ec' = { ec with network := ec'.network, schemeContext := some context, executionState := .handshaked } := by
  -- A part of the handshake that fails, fails as the handshake does.
  have hfail : ∀ {α : Type} {x : Act (ExecutionContext S Op Wire Elem Ctx Pending N) Fault α}
      {ec₁ : ExecutionContext S Op Wire Elem Ctx Pending N} {r₁ : Outcome Fault α},
      Act.Keeps NetworkOnly x → Act.Avoids (fun _ => True) Fault.uninit x → NetworkOnly ec ec₁ →
      x ec₁ = (r₁, ec') → r₁.Fails r → NetworkOnly ec ec' ∧ (∀ lens, r ≠ .ok lens) ∧ r ≠ .err .uninit := by
    intro α x ec₁ r₁ hkeep havoid hec hx hf
    have h1 := hkeep ec₁
    have h2 := (havoid ec₁ trivial).1
    rw [hx] at h1 h2
    refine ⟨trans_of NetworkOnly hec (h1 (hf.ne_panic hr)), hf.ne_ok, ?_⟩
    rintro rfl
    exact h2 hf.eq_err
  obtain ⟨_, ec₁, h1, hrest⟩ | ⟨r₁, h1, hf⟩ := Act.bind_cases h
  · obtain ⟨rfl, ⟨-, hstate⟩ | ⟨hne, -⟩⟩ := assertState_eq h1
    · obtain ⟨lens, ec₂, h2, hrest₂⟩ | ⟨r₂, h2, hf⟩ := Act.bind_cases hrest
      · have hec₂ : NetworkOnly ec₁ ec₂ := by
          have := agreeOnPlan_keeps digest ec₁ (by rw [h2]; simp)
          rwa [h2] at this
        rw [Act.read_bind] at hrest₂
        obtain ⟨context, ec₃, h3, hend⟩ | ⟨r₃, h3, hf⟩ := Act.bind_cases hrest₂
        · have hec₃ : NetworkOnly ec₁ ec₃ := trans_of NetworkOnly hec₂ (onNetwork_eq h3)
          obtain ⟨rfl, rfl⟩ := Prod.mk.inj hend
          refine .inr ⟨lens, context, hstate, rfl, ?_⟩
          rw [hec₃]
        · exact .inl (hfail (onNetwork_keeps _) (onNetwork_avoids _) hec₂ h3 hf)
      · exact .inl (hfail (agreeOnPlan_keeps digest) (agreeOnPlan_avoids digest) (refl_of NetworkOnly _) h2 hf)
    · exact absurd rfl hne
  · obtain ⟨rfl, ⟨rfl, -⟩ | ⟨-, hne, hstate⟩⟩ := assertState_eq h1
    · exact absurd hf Outcome.not_fails_ok
    · refine .inl ⟨rfl, hf.ne_ok, ?_⟩
      rintro rfl
      exact hne hf.eq_err

omit [MpcScheme S Op Wire Elem Input Ctx Pending] [Network N Elem] in
theorem firstOutputs_ne {ε : Type} (e : ε) : ∀ ops : List Op, (firstOutputs ops : Outcome ε _) ≠ .err e
  | [] => by simp [firstOutputs]
  | op :: ops => by
      intro h
      obtain h | ⟨w, -, h⟩ := Outcome.bind_eq_err.mp h
      · exact Outcome.unwrap_ne_err h
      · obtain h | ⟨ws, -, h⟩ := Outcome.bind_eq_err.mp h
        · exact firstOutputs_ne e ops h
        · cases h

theorem takeInputs_ne : ∀ (userInputs : List (WireId × Input)) (inputWires : PMap WireId Bool)
    (ins : List (WireId × Input)), takeInputs userInputs inputWires ins ≠ .err .uninit
  | [], _, _ => by simp [takeInputs]
  | (wireId, input) :: userInputs, inputWires, ins => by
      unfold takeInputs
      split
      · exact takeInputs_ne _ _ _
      · simp
      · simp

/-- The preparation of the inputs fails and changes nothing, or it succeeds. -/
theorem prepareInput_cases {userInputs : List (WireId × Input)}
    {ec ec' : ExecutionContext S Op Wire Elem Ctx Pending N} {r : Outcome Fault Unit}
    (h : prepareInput userInputs ec = (r, ec')) (hinit : ec.executionState = .finishedOffline → ec.Init) :
    (ec' = ec ∧ r ≠ .ok () ∧ r ≠ .err .uninit) ∨
    ∃ context, ec.executionState = .finishedOffline ∧ r = .ok () ∧
      ec' = { ec with schemeContext := some context, executionState := .readyOnline } := by
  have hfail : ∀ {α : Type} {r₁ : Outcome Fault α}, r₁ ≠ .err .uninit → r₁.Fails r →
      r ≠ .ok () ∧ r ≠ .err .uninit := by
    intro α r₁ hne hf
    refine ⟨hf.ne_ok (), ?_⟩
    rintro rfl
    exact hne hf.eq_err
  obtain ⟨_, ec₁, h1, hrest⟩ | ⟨r₁, h1, hf⟩ := Act.bind_cases h
  · obtain ⟨rfl, ⟨-, hstate⟩ | ⟨hne, -⟩⟩ := assertState_eq h1
    · rw [Act.read_bind] at hrest
      obtain ⟨wireIds, ec₂, h2, hrest₂⟩ | ⟨r₂, h2, hf⟩ := Act.bind_cases hrest
      · obtain ⟨-, rfl⟩ := Prod.mk.inj h2
        obtain ⟨ins, ec₃, h3, hrest₃⟩ | ⟨r₃, h3, hf⟩ := Act.bind_cases hrest₂
        · obtain ⟨-, rfl⟩ := Prod.mk.inj h3
          split at hrest₃
          · obtain ⟨rfl, rfl⟩ := Prod.mk.inj hrest₃
            exact .inl ⟨rfl, by simp, by simp⟩
          · obtain ⟨context, hctx⟩ := Option.isSome_iff_exists.mp (hinit hstate)
            have hprep : ∃ context', prepareUserInput ins ec₁ =
                (.ok (), { ec₁ with schemeContext := some context' }) := by
              simp only [prepareUserInput, hctx]
              exact ⟨_, rfl⟩
            obtain ⟨context', hprep⟩ := hprep
            rw [Act.bind_of_ok hprep] at hrest₃
            obtain ⟨rfl, rfl⟩ := Prod.mk.inj hrest₃
            exact .inr ⟨context', hstate, rfl, rfl⟩
        · obtain ⟨rfl, rfl⟩ := Prod.mk.inj h3
          exact .inl ⟨rfl, hfail (takeInputs_ne _ _ _) hf⟩
      · obtain ⟨rfl, rfl⟩ := Prod.mk.inj h2
        exact .inl ⟨rfl, hfail (firstOutputs_ne _ _) hf⟩
    · exact absurd rfl hne
  · obtain ⟨rfl, ⟨rfl, -⟩ | ⟨-, hne, hstate⟩⟩ := assertState_eq h1
    · exact absurd hf Outcome.not_fails_ok
    · exact .inl ⟨rfl, hfail hne hf⟩

/-! ### The invariant -/

/-- What a phase does to the wire map, when it does not panic. -/
theorem doPhase_wires {fnName : String} {required reached : ExecutionState}
    {rounds : MpcCircuit S Op → List (Round Op)}
    {ec ec' : ExecutionContext S Op Wire Elem Ctx Pending N} {r : Outcome Fault (ℕ × ℕ)}
    (h : doPhase fnName required rounds reached ec = (r, ec')) (hr : r ≠ .panic)
    (hinit : ec.executionState = required → ec.Init) :
    r ≠ .err .uninit ∧ ec'.circuit = ec.circuit ∧ ec'.schemeContext.isSome = ec.schemeContext.isSome ∧
    WiresGrow (producedWires ((rounds ec.circuit).flatMap Round.operations)) ec.wireContents ec'.wireContents ∧
    ((∀ lens, r ≠ .ok lens) ∧ ec'.executionState = ec.executionState ∧
        (ec' = ec ∨ ec.executionState = required) ∨
      (∃ lens, r = .ok lens) ∧ ec.executionState = required ∧ ec'.executionState = reached ∧
        ∀ w ∈ producedWires ((rounds ec.circuit).flatMap Round.operations), ec'.wireContents.get w ≠ none) := by
  obtain ⟨rfl, hok, hne, -⟩ | ⟨hstate, hrounds⟩ := doPhase_cases h
  · exact ⟨hne, rfl, rfl, WiresGrow.refl _ _, .inl ⟨hok, rfl, .inl rfl⟩⟩
  have hkeep := doRounds_keeps ec.circuit.scheme
    (W := producedWires ((rounds ec.circuit).flatMap Round.operations)) (rounds ec.circuit) 0 0
    (fun round hround w hw => by
      obtain ⟨op, hop, hw⟩ := mem_producedWires.mp hw
      exact mem_producedWires.mpr ⟨op, List.mem_flatMap.mpr ⟨round, hround, hop⟩, hw⟩) ec
  have havoid := (doRounds_avoids ec.circuit.scheme (rounds ec.circuit) 0 0 ec (hinit hstate)).1
  obtain ⟨r₁, h1, hf⟩ | ⟨lens, ec₁, h1, rfl, rfl⟩ := hrounds
  · rw [h1] at hkeep havoid
    have hg := hkeep (hf.ne_panic hr)
    refine ⟨?_, hg.circuit, hg.schemeContext, hg.wires, .inl ⟨hf.ne_ok, hg.executionState, .inr hstate⟩⟩
    rintro rfl
    exact havoid hf.eq_err
  · rw [h1] at hkeep
    have hg := hkeep (by simp)
    refine ⟨by simp, hg.circuit, hg.schemeContext, hg.wires, .inr ⟨⟨lens, rfl⟩, hstate, rfl, fun w hw => ?_⟩⟩
    obtain ⟨op, hop, hw⟩ := mem_producedWires.mp hw
    obtain ⟨round, hround, hop⟩ := List.mem_flatMap.mp hop
    exact doRounds_ok h1 round hround op hop w hw

omit [MpcScheme S Op Wire Elem Input Ctx Pending] [Network N Elem] [Operation Op] in
/-- Forgetting the value a call returns. -/
theorem forget_cases {α : Type} {x : Act (ExecutionContext S Op Wire Elem Ctx Pending N) Fault α}
    {ec ec' : ExecutionContext S Op Wire Elem Ctx Pending N} {r : Outcome Fault Unit}
    (h : x.bind (fun _ => .ret (.ok ())) ec = (r, ec')) :
    ∃ r₁, x ec = (r₁, ec') ∧ (r = .ok () ↔ ∃ a, r₁ = .ok a) ∧ (r = .err .uninit ↔ r₁ = .err .uninit) ∧
      (r₁ = .panic ↔ r = .panic) := by
  obtain ⟨a, ec₁, h1, h2⟩ | ⟨r₁, h1, hf⟩ := Act.bind_cases h
  · obtain ⟨rfl, rfl⟩ := Prod.mk.inj h2
    exact ⟨_, h1, by simp, by simp, by simp⟩
  · refine ⟨r₁, h1, ?_⟩
    cases r₁ <;> cases r <;> simp_all [Outcome.Fails]

omit [MpcScheme S Op Wire Elem Input Ctx Pending] [Network N Elem] in
theorem operations_of_offline {circuit : MpcCircuit S Op} {w : WireId}
    (hw : w ∈ producedWires circuit.offlineOperations) : w ∈ producedWires circuit.operations := by
  rw [MpcCircuit.operations, producedWires_append]
  exact List.mem_append_left _ hw

omit [MpcScheme S Op Wire Elem Input Ctx Pending] [Network N Elem] in
theorem operations_of_online {circuit : MpcCircuit S Op} {w : WireId}
    (hw : w ∈ producedWires circuit.onlineOperations) : w ∈ producedWires circuit.operations := by
  rw [MpcCircuit.operations, producedWires_append]
  exact List.mem_append_right _ hw

section

variable {circuit : MpcCircuit S Op} {m m' : PMap WireId Wire}

omit [MpcScheme S Op Wire Elem Input Ctx Pending] [Network N Elem] in
/-- Offline rounds store offline wires. -/
theorem StoredIn.offline (h : StoredIn circuit m .handshaked)
    (hg : WiresGrow (producedWires circuit.offlineOperations) m m') : StoredIn circuit m' .handshaked := by
  intro w hw
  obtain hw | hw := hg.2 w hw
  · exact h w hw
  · exact hw

omit [MpcScheme S Op Wire Elem Input Ctx Pending] [Network N Elem] in
/-- Online rounds store online wires, and keep those of the offline rounds. -/
theorem StoredIn.online (h : StoredIn circuit m .readyOnline)
    (hg : WiresGrow (producedWires circuit.onlineOperations) m m') : StoredIn circuit m' .readyOnline := by
  refine ⟨fun w hw => hg.kept (h.1 w hw), fun w hw => ?_⟩
  obtain hw | hw := hg.2 w hw
  · exact h.2 w hw
  · exact operations_of_online hw

omit [MpcScheme S Op Wire Elem Input Ctx Pending] [Network N Elem] in
/-- With all online wires stored, all wires are. -/
theorem StoredIn.finished (h : StoredIn circuit m .readyOnline)
    (hall : ∀ w ∈ producedWires circuit.onlineOperations, m.get w ≠ none) : StoredIn circuit m .finished := by
  refine fun w => ⟨h.2 w, fun hw => ?_⟩
  rw [MpcCircuit.operations, producedWires_append] at hw
  obtain hw | hw := List.mem_append.mp hw
  · exact h.1 w hw
  · exact hall w hw

end

/-- A call of a phase whose rounds keep what belongs to the state before it, and store what belongs to the next. -/
theorem Lifecycle.phase {circuit : MpcCircuit S Op} {ec ec' : ExecutionContext S Op Wire Elem Ctx Pending N}
    (hl : Lifecycle circuit ec) {i : Invocation Input} {fnName : String} {rounds : MpcCircuit S Op → List (Round Op)}
    {r : Outcome Fault Unit} (hreq : i.required ≠ .newBorn) (hreached : i.reached ≠ .newBorn)
    (hgrow : ∀ m m' : PMap WireId Wire, StoredIn circuit m i.required →
      WiresGrow (producedWires ((rounds circuit).flatMap Round.operations)) m m' → StoredIn circuit m' i.required)
    (hall : ∀ m : PMap WireId Wire, StoredIn circuit m i.required →
      (∀ w ∈ producedWires ((rounds circuit).flatMap Round.operations), m.get w ≠ none) →
        StoredIn circuit m i.reached)
    (h : (doPhase fnName i.required rounds i.reached).bind (fun _ => .ret (.ok ())) ec = (r, ec'))
    (hr : r ≠ .panic) : Legal i r ec ec' ∧ Lifecycle circuit ec' := by
  obtain ⟨rfl, hinit, hstored⟩ := hl
  obtain ⟨r₁, h1, hok, hun, hpanic⟩ := forget_cases h
  obtain ⟨hune, hc, hs, hw, hcases⟩ := doPhase_wires h1 (fun hp => hr (hpanic.mp hp))
    fun hstate => hinit.mpr (by rw [hstate]; exact hreq)
  obtain ⟨hne, hstate', hor⟩ | ⟨hlens, hstate, hstate', hwires⟩ := hcases
  · refine ⟨⟨fun h => hune (hun.mp h), fun h => ?_, fun _ => hstate', hw.1⟩, ⟨hc, by rw [hs, hstate']; exact hinit, ?_⟩⟩
    · obtain ⟨lens, hlens⟩ := hok.mp h
      exact absurd hlens (hne lens)
    · obtain rfl | hstate := hor
      · exact hstored
      · rw [hstate', hstate]
        rw [hstate] at hstored
        exact hgrow _ _ hstored hw
  · rw [hstate] at hstored
    refine ⟨⟨fun h => hune (hun.mp h), fun _ => ⟨hstate, hstate'⟩, fun h => absurd (hok.mpr hlens) h, hw.1⟩, ⟨hc, ?_, ?_⟩⟩
    · rw [hs, hstate', hinit, hstate]
      simp [hreq, hreached]
    · rw [hstate']
      exact hall _ (hgrow _ _ hstored hw) hwires

/-- One call keeps the invariant, and does only what it may do. -/
theorem Lifecycle.step {digest : MpcCircuit S Op → Outcome String (List UInt8)} {circuit : MpcCircuit S Op}
    {ec ec' : ExecutionContext S Op Wire Elem Ctx Pending N} (hl : Lifecycle circuit ec)
    {i : Invocation Input} {r : Outcome Fault Unit} (h : perform digest i ec = (r, ec')) (hr : r ≠ .panic) :
    Legal i r ec ec' ∧ Lifecycle circuit ec' := by
  cases i with
  | handshake rng =>
      obtain ⟨rfl, hinit, hstored⟩ := hl
      obtain ⟨r₁, h1, hok, hun, hpanic⟩ := forget_cases h
      rcases handshake_cases h1 (fun hp => hr (hpanic.mp hp)) with
        ⟨hec, hne, hune⟩ | ⟨lens, context, hstate, rfl, hec⟩
      · have hrok : r ≠ .ok () := fun h => by
          obtain ⟨lens, h⟩ := hok.mp h
          exact hne lens h
        rw [hec]
        exact ⟨⟨fun h => hune (hun.mp h), fun h => absurd h hrok, fun _ => rfl, fun _ _ h => h⟩,
          ⟨rfl, hinit, hstored⟩⟩
      · rw [hec]
        refine ⟨⟨fun h => ?_, fun _ => ⟨hstate, rfl⟩, fun h => ?_, fun _ _ h => h⟩, ⟨rfl, by simp, ?_⟩⟩
        · cases hun.mp h
        · exact absurd (hok.mpr ⟨lens, rfl⟩) h
        · intro w hw
          rw [hstate] at hstored
          exact absurd (hstored w) hw
  | doOffline =>
      exact hl.phase (by simp [Invocation.required]) (by simp [Invocation.reached])
        (fun m m' hst hg => hst.offline hg) (fun m hst hall w => ⟨hst w, hall w⟩) h hr
  | prepareInput userInputs =>
      obtain ⟨rfl, hinit, hstored⟩ := hl
      rcases prepareInput_cases h fun hstate => hinit.mpr (by rw [hstate]; simp) with
        ⟨rfl, hne, hune⟩ | ⟨context, hstate, rfl, rfl⟩
      · exact ⟨⟨hune, fun h => absurd h hne, fun _ => rfl, fun _ _ h => h⟩, ⟨rfl, hinit, hstored⟩⟩
      · refine ⟨⟨by simp, fun _ => ⟨hstate, rfl⟩, fun h => absurd rfl h, fun _ _ h => h⟩, ⟨rfl, by simp, ?_⟩⟩
        rw [hstate] at hstored
        exact ⟨fun w => (hstored w).mpr, fun w hw => operations_of_offline ((hstored w).mp hw)⟩
  | doOnline =>
      exact hl.phase (by simp [Invocation.required]) (by simp [Invocation.reached])
        (fun m m' hst hg => hst.online hg) (fun m hst hall => hst.finished hall) h hr

omit [Network N Elem] in
theorem lifecycle_new (circuit : MpcCircuit S Op) (network : N) :
    Lifecycle circuit (new circuit network : ExecutionContext S Op Wire Elem Ctx Pending N) :=
  ⟨rfl, by simp [new], fun _ => rfl⟩

theorem lifecycle_of_reachable {digest : MpcCircuit S Op → Outcome String (List UInt8)}
    {circuit : MpcCircuit S Op} {ec : ExecutionContext S Op Wire Elem Ctx Pending N}
    (h : Reachable digest circuit ec) : Lifecycle circuit ec := by
  induction h with
  | new network => exact lifecycle_new circuit network
  | ok i _ h ih => exact (ih.step h (by simp)).2
  | err i _ h ih => exact (ih.step h (by simp)).2

theorem Reachable.handshake {digest : MpcCircuit S Op → Outcome String (List UInt8)}
    {circuit : MpcCircuit S Op} {ec ec' : ExecutionContext S Op Wire Elem Ctx Pending N}
    (h : Reachable digest circuit ec) {rng : Draws} {lens : ℕ × ℕ}
    (hr : ExecutionContext.handshake digest rng ec = (.ok lens, ec')) : Reachable digest circuit ec' :=
  .ok (.handshake rng) h (Act.bind_of_ok hr)

theorem Reachable.doOffline {digest : MpcCircuit S Op → Outcome String (List UInt8)}
    {circuit : MpcCircuit S Op} {ec ec' : ExecutionContext S Op Wire Elem Ctx Pending N}
    (h : Reachable digest circuit ec) {lens : ℕ × ℕ}
    (hr : ExecutionContext.doOffline ec = (.ok lens, ec')) : Reachable digest circuit ec' :=
  .ok .doOffline h (Act.bind_of_ok hr)

/-- The network of a single party. -/
structure Solo where

instance : Network Solo ℕ where
  nPlayers _ := 1
  myId _ := 0
  broadcastObject _ := .ret (.ok 0)
  recvHashesMany _ := .ret (.ok ([], 0))
  sendObjectsMany _ := .ret (.ok 0)
  recvObjectsMany _ := .ret (.ok ([], 0))

/-- A random value, opened before the inputs are there. -/
def soloCircuit : MpcCircuit (AdditiveScheme 100) AdditiveOperation :=
  ⟨⟨⟩, [⟨[.genRandom ⟨0⟩], [.reveal ⟨0⟩ ⟨1⟩]⟩], [⟨[], [.input 0 ⟨2⟩]⟩]⟩

/-- The state of a party alone. -/
abbrev SoloContext : Type :=
  ExecutionContext (AdditiveScheme 100) AdditiveOperation ℕ ℕ AdditiveContext AdditivePending Solo

/-- A party alone after its handshake, and after its offline rounds. -/
def soloHandshaked : SoloContext :=
  (handshake (fun _ => .ok []) (fun k => 7 * k + 3) (new soloCircuit ⟨⟩)).2

@[inherit_doc soloHandshaked]
def soloOffline : SoloContext := (doOffline soloHandshaked).2

theorem handshake_solo : handshake (fun _ => .ok []) (fun k => 7 * k + 3)
    (new soloCircuit ⟨⟩ : SoloContext) = (.ok (0, 0), soloHandshaked) := by
  unfold soloHandshaked
  exact Act.eq_of_fst (by decide +kernel)

theorem doOffline_solo : doOffline soloHandshaked = (.ok (0, 0), soloOffline) := by
  unfold soloOffline
  exact Act.eq_of_fst (by decide +kernel)

end ExecutionContext

end MpcCore
