import MpcCore.Execution
import MpcCore.ExecutionLifecycle

/-! # The flow of data through the rounds

The executor runs the rounds of a plan in batches: all network phases of a round, one exchange, all
finalize phases, and only then the insertions.  On a plan that stores every wire before it is used
this is the evaluation of the operations one after the other.

* `Flow`: what holds between the calls of the scheme so far and the stored wires.
* `RoundInvariant`: the statements that every piece of a round keeps, `Flow` among them, and its
  rules for each piece up to a whole phase (`doPhase_ensures`).  A piece panics only inside a call
  of the scheme or the network.
* `ExecutionContext.dataFlow`: in a run without errors every panic is one of the scheme or of the
  network; when it finishes, both phases were called once for every operation, on the values
  that the producers of its inputs returned, and every output is stored. -/

namespace MpcCore

open Operation MpcScheme

variable {S Op Wire Elem Input Ctx Pending N : Type}

namespace Call

/-- The operation whose network phase is called. -/
def networkOp : Call Op Wire Elem Pending → Option Op
  | networkPhase op _ _ => some op
  | _ => none

/-- The operation whose finalize phase is called. -/
def finalizeOp : Call Op Wire Elem Pending → Option Op
  | finalizePhase op _ _ _ => some op
  | _ => none

/-- The call itself panicked. -/
def Panicked : Call Op Wire Elem Pending → Prop
  | networkPhase _ _ r => r = .panic
  | finalizePhase _ _ _ r => r = .panic
  | send _ r => r = .panic
  | recv _ r => r = .panic

end Call

variable [Operation Op]

/-- A finalize phase has returned this value for this wire, at the position of the wire among the
outputs of its operation. -/
def Returned (calls : List (Call Op Wire Elem Pending)) (w : WireId) (v : Wire) : Prop :=
  ∃ (op : Op) (pending : Pending) (data : List Elem) (ws : List Wire),
    Call.finalizePhase op pending data (.ok ws) ∈ calls ∧ ∃ j : ℕ, (outputs op)[j]? = some w ∧ ws[j]? = some v

theorem Returned.mono {calls calls' : List (Call Op Wire Elem Pending)} (hsub : ∀ c ∈ calls, c ∈ calls')
    {w : WireId} {v : Wire} (h : Returned calls w v) : Returned calls' w v := by
  obtain ⟨op, pending, data, ws, hc, hj⟩ := h
  exact ⟨op, pending, data, ws, hsub _ hc, hj⟩

/-- The network phases of `called`, the finalize phases of `finalized` and the insertions of `stored`
have been made: each call was given what the finalize phases before it returned, and the wire map
holds what was returned for the outputs of `stored`. -/
structure Flow (called finalized stored : List Op) (s : Exec Op Wire Elem Ctx Pending N) : Prop where
  networkOps : s.calls.filterMap Call.networkOp = called
  finalizeOps : s.calls.filterMap Call.finalizeOp = finalized
  finalizeOk : ∀ op pending data r, .finalizePhase op pending data r ∈ s.calls →
    ∃ ws, r = .ok ws ∧ ws.length = (outputs op).length
  given : ∀ before op ins r after, s.calls = before ++ .networkPhase op ins r :: after →
    List.Forall₂ (Returned before) (inputs op) ins
  stored : ∀ w, s.wireContents.get w ≠ none ↔ w ∈ producedWires stored
  returned : ∀ w v, s.wireContents.get w = some v → Returned s.calls w v

/-- Some call of the scheme or of the network panicked. -/
def Exec.CalleePanicked (s : Exec Op Wire Elem Ctx Pending N) : Prop := ∃ c ∈ s.calls, c.Panicked

variable {called finalized stored : List Op} {s : Exec Op Wire Elem Ctx Pending N}

/-! ### One more call -/

theorem eq_append_snoc_cases {α : Type} {l before after : List α} {c x : α}
    (h : l ++ [c] = before ++ x :: after) :
    (before = l ∧ x = c ∧ after = []) ∨ ∃ after', after = after' ++ [c] ∧ l = before ++ x :: after' := by
  obtain rfl | ⟨after', y, rfl⟩ := List.eq_nil_or_concat after
  · obtain ⟨rfl, h2⟩ := List.append_inj' h rfl
    exact .inl ⟨rfl, by simpa using h2.symm, rfl⟩
  · have h' : l ++ [c] = (before ++ x :: after') ++ [y] := by simpa using h
    obtain ⟨rfl, h2⟩ := List.append_inj' h' rfl
    exact .inr ⟨after', by simpa using h2.symm, rfl⟩

namespace Flow

variable (h : Flow called finalized stored s)
include h

/-- A call of the network is no call of the scheme. -/
theorem snoc_other {c : Call Op Wire Elem Pending} (hn : c.networkOp = none) (hf : c.finalizeOp = none)
    {s' : Exec Op Wire Elem Ctx Pending N} (hw : s'.wireContents = s.wireContents)
    (hc : s'.calls = s.calls ++ [c]) : Flow called finalized stored s' where
  networkOps := by rw [hc, List.filterMap_append, h.networkOps]; simp [hn]
  finalizeOps := by rw [hc, List.filterMap_append, h.finalizeOps]; simp [hf]
  finalizeOk op pending data r hmem := by
    rw [hc] at hmem
    obtain hmem | hmem := List.mem_append.mp hmem
    · exact h.finalizeOk _ _ _ _ hmem
    · obtain rfl := List.mem_singleton.mp hmem
      cases hf
  given before op ins r after he := by
    rw [hc] at he
    obtain ⟨-, rfl, -⟩ | ⟨after', -, he'⟩ := eq_append_snoc_cases he
    · cases hn
    · exact h.given _ _ _ _ _ he'
  stored w := by rw [hw]; exact h.stored w
  returned w v hget := by
    rw [hw] at hget
    exact (h.returned w v hget).mono fun c' hc' => by rw [hc]; simp [hc']

theorem snoc_network {op : Op} {ins : List Wire} {r : Outcome String (NetworkPhaseOutput Pending Elem)}
    (hins : List.Forall₂ (fun w v => s.wireContents.get w = some v) (inputs op) ins)
    {s' : Exec Op Wire Elem Ctx Pending N} (hw : s'.wireContents = s.wireContents)
    (hc : s'.calls = s.calls ++ [.networkPhase op ins r]) : Flow (called ++ [op]) finalized stored s' where
  networkOps := by rw [hc, List.filterMap_append, h.networkOps]; rfl
  finalizeOps := by
    rw [hc, List.filterMap_append, h.finalizeOps]
    exact List.append_nil _
  finalizeOk op pending data r hmem := by
    rw [hc] at hmem
    exact h.finalizeOk _ _ _ _ (by simpa using hmem)
  given before op' ins' r' after he := by
    rw [hc] at he
    obtain ⟨rfl, heq, -⟩ | ⟨after', -, he'⟩ := eq_append_snoc_cases he
    · obtain ⟨rfl, rfl, rfl⟩ : op' = op ∧ ins' = ins ∧ r' = r := by simpa using heq
      exact hins.imp fun w v hget => h.returned w v hget
    · exact h.given _ _ _ _ _ he'
  stored w := by rw [hw]; exact h.stored w
  returned w v hget := by
    rw [hw] at hget
    exact (h.returned w v hget).mono fun c' hc' => by rw [hc]; simp [hc']

theorem snoc_finalize {op : Op} {pending : Pending} {data : List Elem} {ws : List Wire}
    (hlen : ws.length = (outputs op).length)
    {s' : Exec Op Wire Elem Ctx Pending N} (hw : s'.wireContents = s.wireContents)
    (hc : s'.calls = s.calls ++ [.finalizePhase op pending data (.ok ws)]) :
    Flow called (finalized ++ [op]) stored s' where
  networkOps := by
    rw [hc, List.filterMap_append, h.networkOps]
    exact List.append_nil _
  finalizeOps := by rw [hc, List.filterMap_append, h.finalizeOps]; rfl
  finalizeOk op' pending' data' r hmem := by
    rw [hc] at hmem
    obtain hmem | hmem := List.mem_append.mp hmem
    · exact h.finalizeOk _ _ _ _ hmem
    · obtain ⟨rfl, -, -, rfl⟩ : op' = op ∧ pending' = pending ∧ data' = data ∧ r = .ok ws := by
        simpa using hmem
      exact ⟨ws, rfl, hlen⟩
  given before op' ins' r' after he := by
    rw [hc] at he
    obtain ⟨-, heq, -⟩ | ⟨after', -, he'⟩ := eq_append_snoc_cases he
    · cases heq
    · exact h.given _ _ _ _ _ he'
  stored w := by rw [hw]; exact h.stored w
  returned w v hget := by
    rw [hw] at hget
    exact (h.returned w v hget).mono fun c' hc' => by rw [hc]; simp [hc']

end Flow

/-! ### Insertions -/

omit [Operation Op] in
/-- The insertion of the outputs of an operation, when none of them is stored. -/
theorem storeWires_eq : ∀ (ws : List WireId) (vs : List Wire) (s : Exec Op Wire Elem Ctx Pending N),
    vs.length = ws.length → ws.Nodup → (∀ w ∈ ws, s.wireContents.get w = none) →
    ∃ m, storeWires ws vs s = (.ok (), { s with wireContents := m }) ∧
      (∀ w, m.get w ≠ none ↔ s.wireContents.get w ≠ none ∨ w ∈ ws) ∧
      ∀ w v, m.get w = some v → s.wireContents.get w = some v ∨ ∃ j : ℕ, ws[j]? = some w ∧ vs[j]? = some v
  | [], [], s, _, _, _ => ⟨s.wireContents, rfl, by simp, fun _ _ h => .inl h⟩
  | [], _ :: _, _, hlen, _, _ => by simp at hlen
  | _ :: _, [], _, hlen, _, _ => by simp at hlen
  | w :: ws, v :: vs, s, hlen, hnd, hnone => by
      obtain ⟨hw, hnd'⟩ := List.nodup_cons.mp hnd
      have hstore : storeWire w v s = (.ok (), { s with wireContents := s.wireContents.insert w v }) := by
        simp [storeWire, hnone w (by simp), Outcome.assert]
      obtain ⟨m, h1, h2, h3⟩ := storeWires_eq ws vs { s with wireContents := s.wireContents.insert w v }
        (by simpa using hlen) hnd' fun w' hw' => by
          rw [PMap.get_insert_ne _ _ (by rintro rfl; exact hw hw')]
          exact hnone w' (by simp [hw'])
      refine ⟨m, by rw [storeWires, Act.bind_of_ok hstore, h1], fun w' => ?_, fun w' v' hget => ?_⟩
      · rw [h2 w', PMap.get_insert]
        by_cases hww : w' = w <;> simp [hww]
      · obtain hget | ⟨j, hj, hj'⟩ := h3 w' v' hget
        · by_cases hww : w' = w
          · subst hww
            right
            exact ⟨0, rfl, by simpa using hget⟩
          · left
            rwa [PMap.get_insert_ne _ _ hww] at hget
        · exact .inr ⟨j + 1, by simpa using hj, by simpa using hj'⟩

/-! ### Invariants of a round -/

/-- A statement about the operations called, finalized and stored so far that every piece of a round
keeps.  `P` is what holds of the calls once one of them has panicked. -/
structure RoundInvariant (I : List Op → List Op → List Op → Exec Op Wire Elem Ctx Pending N → Prop)
    (P : List (Call Op Wire Elem Pending) → Prop) : Prop where
  stored : ∀ {called finalized stored s}, I called finalized stored s →
    ∀ w, s.wireContents.get w ≠ none ↔ w ∈ producedWires stored
  network : ∀ {called finalized stored s s' op ins out}, I called finalized stored s →
    List.Forall₂ (fun w v => s.wireContents.get w = some v) (inputs op) ins →
    s'.wireContents = s.wireContents → s'.calls = s.calls ++ [.networkPhase op ins (.ok out)] →
    I (called ++ [op]) finalized stored s'
  finalize : ∀ {called finalized stored s s' op pending data ws}, I called finalized stored s →
    ws.length = (outputs op).length →
    s'.wireContents = s.wireContents → s'.calls = s.calls ++ [.finalizePhase op pending data (.ok ws)] →
    I called (finalized ++ [op]) stored s'
  exchange : ∀ {called finalized stored s s' c}, I called finalized stored s →
    c.networkOp = none → c.finalizeOp = none →
    s'.wireContents = s.wireContents → s'.calls = s.calls ++ [c] → I called finalized stored s'
  store : ∀ {called finalized stored s m op pending data ws}, I called finalized stored s →
    .finalizePhase op pending data (.ok ws) ∈ s.calls →
    (∀ w, m.get w ≠ none ↔ s.wireContents.get w ≠ none ∨ w ∈ outputs op) →
    (∀ w v, m.get w = some v →
      s.wireContents.get w = some v ∨ ∃ j : ℕ, (outputs op)[j]? = some w ∧ ws[j]? = some v) →
    I called finalized (stored ++ [op]) { s with wireContents := m }
  panicked : ∀ {called finalized stored s c}, I called finalized stored s → c.Panicked → P (s.calls ++ [c])

theorem flow_roundInvariant :
    RoundInvariant (Flow : List Op → List Op → List Op → Exec Op Wire Elem Ctx Pending N → Prop)
      fun calls => ∃ c ∈ calls, c.Panicked where
  stored h := h.stored
  network h hin hw hc := h.snoc_network hin hw hc
  finalize h hlen hw hc := h.snoc_finalize hlen hw hc
  exchange h hn hf hw hc := h.snoc_other hn hf hw hc
  store h hc h2 h3 := by
    refine ⟨h.networkOps, h.finalizeOps, h.finalizeOk, h.given, fun w => ?_, fun w v hget => ?_⟩
    · rw [h2 w, producedWires_append, List.mem_append, h.stored w]
      simp [producedWires]
    · obtain hget | ⟨j, hj, hj'⟩ := h3 w v hget
      · exact h.returned w v hget
      · exact ⟨_, _, _, _, hc, j, hj, hj'⟩
  panicked _ hc := ⟨_, by simp, hc⟩

variable {I : List Op → List Op → List Op → Exec Op Wire Elem Ctx Pending N → Prop}
  {P : List (Call Op Wire Elem Pending) → Prop}

/-- Inserting what a finalize phase returned. -/
theorem RoundInvariant.storeWires_ensures (hI : RoundInvariant I P) (h : I called finalized stored s) {op : Op}
    {pending : Pending} {data : List Elem} {ws : List Wire}
    (hc : .finalizePhase op pending data (.ok ws) ∈ s.calls) (hlen : ws.length = (outputs op).length)
    (hnd : (producedWires (stored ++ [op])).Nodup) :
    Act.Ensures (storeWires (outputs op) ws) s
      (fun _ s' => I called finalized (stored ++ [op]) s' ∧ s'.calls = s.calls) (fun s' => P s'.calls) := by
  have hsplit : producedWires (stored ++ [op]) = producedWires stored ++ outputs op := by
    simp [producedWires]
  rw [hsplit] at hnd
  obtain ⟨m, h1, h2, h3⟩ := storeWires_eq (outputs op) ws s hlen (List.nodup_append.mp hnd).2.1 fun w hw => by
    by_contra hget
    exact (List.nodup_append.mp hnd).2.2 w ((hI.stored h w).mp hget) w hw rfl
  simp only [Act.Ensures, h1]
  exact ⟨hI.store h hc h2 h3, trivial⟩

/-! ### The two phases of an operation -/

/-- The input wires of an operation are there. -/
theorem gatherInputs_eq {ε : Type} {m : PMap WireId Wire} : ∀ {ws : List WireId},
    (∀ w ∈ ws, m.get w ≠ none) → ∃ ins, gatherInputs (ε := ε) m ws = .ok ins ∧
      List.Forall₂ (fun w v => m.get w = some v) ws ins
  | [], _ => ⟨[], rfl, .nil⟩
  | w :: ws, h => by
      obtain ⟨v, hv⟩ := Option.ne_none_iff_exists'.mp (h w (by simp))
      obtain ⟨ins, h1, h2⟩ := gatherInputs_eq (ε := ε) fun w' hw' => h w' (List.mem_cons_of_mem w hw')
      exact ⟨v :: ins, by simp [gatherInputs, hv, h1], .cons hv h2⟩

variable [MpcScheme S Op Wire Elem Input Ctx Pending] (scheme : S)

/-- The value is what the network phase of the operation has returned, somewhere. -/
def FromNetworkPhase (op : Op) (out : NetworkPhaseOutput Pending Elem) : Prop :=
  ∃ (ins : List Wire) (context context' : Ctx), doNetworkPhase scheme op ins context = (.ok out, context')

/-- The contract of the `MpcScheme` trait for the operations of a circuit: a finalize phase returns
as many wires as the operation outputs, and local operations issue no request. -/
structure Contract (circuit : MpcCircuit S Op) : Prop where
  finalize_length : ∀ op out, FromNetworkPhase scheme op out →
    ∀ (data : List Elem) (context context' : Ctx) ws,
      doFinalizePhase scheme out.pending data context = (.ok ws, context') → ws.length = (outputs op).length
  local_silent : ∀ round ∈ circuit.offlineRounds ++ circuit.onlineRounds, ∀ op ∈ round.localOperations,
    ∀ out, FromNetworkPhase scheme op out → out.sendRequest = [] ∧ out.receiveRequest = []

variable {scheme}

theorem RoundInvariant.networkPhase_ensures (hI : RoundInvariant I P) (h : I called finalized stored s) {op : Op}
    (hin : ∀ w ∈ inputs op, w ∈ producedWires stored) :
    Act.Ensures (networkPhase scheme op) s
      (fun out s' => I (called ++ [op]) finalized stored s' ∧ FromNetworkPhase scheme op out)
      (fun s' => P s'.calls) := by
  obtain ⟨ins, h1, h2⟩ := gatherInputs_eq (ε := Fault) fun w hw => (hI.stored h w).mpr (hin w hw)
  rcases hd : doNetworkPhase scheme op ins s.context with ⟨r, context⟩
  simp only [Act.Ensures, networkPhase, h1, hd]
  cases r with
  | ok out => exact ⟨hI.network h h2 rfl rfl, ins, s.context, context, hd⟩
  | err e => trivial
  | panic => exact hI.panicked (c := .networkPhase op ins .panic) h rfl
  | hang => trivial

theorem RoundInvariant.finalizePhase_ensures (hI : RoundInvariant I P) (h : I called finalized stored s) {op : Op}
    {out : NetworkPhaseOutput Pending Elem} {data : List Elem}
    (hlen : ∀ (context context' : Ctx) ws,
      doFinalizePhase scheme out.pending data context = (.ok ws, context') → ws.length = (outputs op).length) :
    Act.Ensures (finalizePhase scheme op out.pending data) s
      (fun ws s' => I called (finalized ++ [op]) stored s' ∧
        s'.calls = s.calls ++ [.finalizePhase op out.pending data (.ok ws)] ∧ ws.length = (outputs op).length)
      (fun s' => P s'.calls) := by
  rcases hd : doFinalizePhase scheme out.pending data s.context with ⟨r, context⟩
  simp only [Act.Ensures, finalizePhase, hd]
  cases r with
  | ok ws =>
      have hws := hlen s.context context ws hd
      exact ⟨hI.finalize h hws rfl rfl, rfl, hws⟩
  | err e => trivial
  | panic => exact hI.panicked (c := .finalizePhase op out.pending data .panic) h rfl
  | hang => trivial

/-! ### A round -/

variable {done : List Op} {circuit : MpcCircuit S Op} {round : Round Op}

/-- Everything called so far is stored: the state between two operations, or two rounds. -/
abbrev Settled (done : List Op) (s : Exec Op Wire Elem Ctx Pending N) : Prop := Flow done done done s

theorem RoundInvariant.doLocalOperations_ensures (hI : RoundInvariant I P) (hc : Contract scheme circuit)
    (hround : round ∈ circuit.offlineRounds ++ circuit.onlineRounds)
    (hst : round.Stored (producedWires done)) (hnd : (producedWires (done ++ round.localOperations)).Nodup)
    (h : I done done done s) :
    Act.Ensures (doLocalOperations scheme round) s
      (fun _ s' => I (done ++ round.localOperations) (done ++ round.localOperations)
        (done ++ round.localOperations) s') (fun s' => P s'.calls) := by
  have hstart : round.localOperations = [] ++ round.localOperations ∧ I (done ++ []) (done ++ []) (done ++ []) s :=
    ⟨rfl, by simpa using h⟩
  refine (Act.Ensures.each (I := fun pre rest s => round.localOperations = pre ++ rest ∧
    I (done ++ pre) (done ++ pre) (done ++ pre) s) ?_ hstart).mono fun _ s' hs' => by simpa using hs'.2
  rintro pre op rest s ⟨hsplit, hs⟩
  have hop : op ∈ round.localOperations := by simp [hsplit]
  have hin : ∀ w ∈ inputs op, w ∈ producedWires (done ++ pre) := by
    rw [producedWires_append]
    exact hst.localOps pre op rest hsplit
  have hnd' : (producedWires ((done ++ pre) ++ [op])).Nodup := by
    have : done ++ round.localOperations = ((done ++ pre) ++ [op]) ++ rest := by simp [hsplit]
    rw [this, producedWires_append] at hnd
    exact (List.nodup_append.mp hnd).1
  refine Act.Ensures.bind ((hI.networkPhase_ensures hs hin).mono fun out s₁ hs₁ => ?_)
  obtain ⟨h1, h2⟩ := hc.local_silent round hround op hop out hs₁.2
  refine Act.Ensures.bind (?_ : Act.Ensures (Act.ret _) _ _ _)
  simp only [Act.Ensures, Act.ret, h1, List.isEmpty_nil, Outcome.assert, if_true]
  refine Act.Ensures.bind (?_ : Act.Ensures (Act.ret _) _ _ _)
  simp only [Act.Ensures, Act.ret, h2, List.isEmpty_nil, if_true]
  refine Act.Ensures.bind ((hI.finalizePhase_ensures hs₁.1 (hc.finalize_length op out hs₁.2 [])).mono
    fun output s₂ hs₂ => ?_)
  have hcall : Call.finalizePhase op out.pending [] (.ok output) ∈ s₂.calls := by simp [hs₂.2.1]
  refine (hI.storeWires_ensures hs₂.1 hcall hs₂.2.2 hnd').mono fun _ s₃ hs₃ => ?_
  exact ⟨by simp [hsplit], by simpa using hs₃.1⟩

/-- The network phases of a round: what is kept for each operation came from its own phase. -/
theorem RoundInvariant.networkPhases_ensures (hI : RoundInvariant I P) (scheme : S) :
    ∀ (ops pre : List Op) (batch : Batch Elem Pending)
    {s : Exec Op Wire Elem Ctx Pending N}, (∀ op ∈ ops, ∀ w ∈ inputs op, w ∈ producedWires done) →
    I (done ++ pre) done done s →
    List.Forall₂ (fun op pending => ∃ out, FromNetworkPhase scheme op out ∧ out.pending = pending) pre
      batch.pendingOps →
    batch.receiveRequestCounts.length = pre.length →
    Act.Ensures (networkPhases scheme ops batch) s
      (fun batch' s' => I (done ++ (pre ++ ops)) done done s' ∧
        List.Forall₂ (fun op pending => ∃ out, FromNetworkPhase scheme op out ∧ out.pending = pending)
          (pre ++ ops) batch'.pendingOps ∧
        batch'.receiveRequestCounts.length = (pre ++ ops).length)
      (fun s' => P s'.calls)
  | [], pre, batch, s, _, h, hp, hl => by
      simp only [networkPhases, Act.Ensures, Act.ret, List.append_nil]
      exact ⟨h, hp, hl⟩
  | op :: ops, pre, batch, s, hin, h, hp, hl => by
      refine Act.Ensures.bind ((hI.networkPhase_ensures h (hin op (by simp))).mono fun out s₁ hs₁ => ?_)
      have hrest := hI.networkPhases_ensures scheme ops (pre ++ [op]) (batch.add out)
        (fun op' hop' => hin op' (by simp [hop'])) (by simpa using hs₁.1)
        (List.rel_append hp (.cons ⟨out, hs₁.2, rfl⟩ .nil)) (by simp [Batch.add, hl])
      simpa using hrest

/-- What the finalize phases of a round have returned so far. -/
def Results (results : List (Op × List Wire)) (s : Exec Op Wire Elem Ctx Pending N) : Prop :=
  ∀ r ∈ results, ∃ pending data, Call.finalizePhase r.1 pending data (.ok r.2) ∈ s.calls

theorem RoundInvariant.finalizePhases_ensures (hI : RoundInvariant I P) (hc : Contract scheme circuit) :
    ∀ (ops : List (Op × Pending × ℕ)) (data : List (List Elem)) {results : List (Op × List Wire)}
      {finalized : List Op} {s : Exec Op Wire Elem Ctx Pending N},
    (∀ p ∈ ops, ∃ out, FromNetworkPhase scheme p.1 out ∧ out.pending = p.2.1) →
    I called finalized stored s → Results results s → (∀ r ∈ results, r.2.length = (outputs r.1).length) →
    Act.Ensures (finalizePhases scheme ops data results) s
      (fun results' s' => I called (finalized ++ ops.map Prod.fst) stored s' ∧ Results results' s' ∧
        (∀ r ∈ results', r.2.length = (outputs r.1).length) ∧
        results'.map Prod.fst = results.map Prod.fst ++ ops.map Prod.fst)
      (fun s' => P s'.calls)
  | [], data, results, finalized, s, _, h, hr, hl => by
      simp only [finalizePhases, Act.Ensures, Act.ret, List.map_nil, List.append_nil]
      exact ⟨h, hr, hl, trivial⟩
  | (op, pending, reqCount) :: ops, data, results, finalized, s, hp, h, hr, hl => by
      obtain ⟨out, hout, rfl⟩ := hp (op, pending, reqCount) (by simp)
      refine Act.Ensures.bind ((hI.finalizePhase_ensures h (hc.finalize_length op out hout _)).mono
        fun output s₁ hs₁ => ?_)
      obtain ⟨h₁, hcalls, hlen⟩ := hs₁
      have hr' : Results (results ++ [(op, output)]) s₁ := by
        intro r hmem
        rw [hcalls]
        obtain hmem | hmem := List.mem_append.mp hmem
        · obtain ⟨pending, data, hcall⟩ := hr r hmem
          exact ⟨pending, data, by simp [hcall]⟩
        · obtain rfl := List.mem_singleton.mp hmem
          exact ⟨out.pending, (data.take reqCount).flatten, by simp⟩
      have hl' : ∀ r ∈ results ++ [(op, output)], r.2.length = (outputs r.1).length := by
        intro r hmem
        obtain hmem | hmem := List.mem_append.mp hmem
        · exact hl r hmem
        · obtain rfl := List.mem_singleton.mp hmem
          exact hlen
      have hrest := hI.finalizePhases_ensures hc ops (data.drop reqCount)
        (fun p hmem => hp p (by simp [hmem])) h₁ hr' hl'
      simpa using hrest

theorem RoundInvariant.finishNetworkOperations_ensures (hI : RoundInvariant I P) (hc : Contract scheme circuit)
    {ops : List Op} {batch : Batch Elem Pending} {data : List (List Elem)}
    (hp : List.Forall₂ (fun op pending => ∃ out, FromNetworkPhase scheme op out ∧ out.pending = pending)
      ops batch.pendingOps) (hl : batch.receiveRequestCounts.length = ops.length)
    (hnd : (producedWires (done ++ ops)).Nodup) (h : I (done ++ ops) done done s) :
    Act.Ensures (finishNetworkOperations scheme ops batch data) s
      (fun _ s' => I (done ++ ops) (done ++ ops) (done ++ ops) s') (fun s' => P s'.calls) := by
  have hplen := hp.length_eq
  have hfst : (ops.zip (batch.pendingOps.zip batch.receiveRequestCounts)).map Prod.fst = ops :=
    List.map_fst_zip (by simp [hl, ← hplen])
  have hzip : ∀ p ∈ ops.zip (batch.pendingOps.zip batch.receiveRequestCounts),
      ∃ out, FromNetworkPhase scheme p.1 out ∧ out.pending = p.2.1 := by
    intro p hmem
    obtain ⟨i, hi⟩ := List.getElem?_of_mem hmem
    rw [List.getElem?_zip_eq_some, List.getElem?_zip_eq_some] at hi
    obtain ⟨hi1, h1⟩ := List.getElem?_eq_some_iff.mp hi.1
    obtain ⟨hi2, h2⟩ := List.getElem?_eq_some_iff.mp hi.2.1
    rw [← h1, ← h2]
    exact List.Forall₂.get hp hi1 hi2
  refine Act.Ensures.bind ((hI.finalizePhases_ensures hc _ data hzip h (by simp [Results]) (by simp)).mono
    fun results s₁ hs₁ => ?_)
  rw [hfst] at hs₁
  obtain ⟨h1, h2, hlen, h3⟩ := hs₁
  rw [List.map_nil, List.nil_append] at h3
  have hstart : results = [] ++ results ∧ s₁.calls = s₁.calls ∧
      I (done ++ ops) (done ++ ops) (done ++ ([] : List (Op × List Wire)).map Prod.fst) s₁ :=
    ⟨rfl, rfl, by simpa using h1⟩
  refine (Act.Ensures.each (I := fun pre rest s' => results = pre ++ rest ∧ s'.calls = s₁.calls ∧
    I (done ++ ops) (done ++ ops) (done ++ pre.map Prod.fst) s') ?_ hstart).mono
      fun _ s' hs' => by simpa [h3] using hs'.2.2
  rintro pre r rest s' ⟨hsplit, hcalls, hs'⟩
  have hr : r ∈ results := by simp [hsplit]
  obtain ⟨pending, data, hcall⟩ := h2 r hr
  have hnd' : (producedWires ((done ++ pre.map Prod.fst) ++ [r.1])).Nodup := by
    have : done ++ ops = ((done ++ pre.map Prod.fst) ++ [r.1]) ++ rest.map Prod.fst := by
      simp [← h3, hsplit]
    rw [this, producedWires_append] at hnd
    exact (List.nodup_append.mp hnd).1
  refine (hI.storeWires_ensures hs' (hcalls ▸ hcall) (hlen r hr) hnd').mono fun _ s'' hs'' => ?_
  exact ⟨by simp [hsplit], hs''.2.trans hcalls, by simpa using hs''.1⟩

variable [Network N Elem]

theorem RoundInvariant.doNetworkOperations_ensures (hI : RoundInvariant I P) (hc : Contract scheme circuit)
    (hin : ∀ op ∈ round.networkOperations, ∀ w ∈ inputs op, w ∈ producedWires done)
    (hnd : (producedWires (done ++ round.networkOperations)).Nodup) (h : I done done done s) :
    Act.Ensures (doNetworkOperations scheme round) s
      (fun _ s' => I (done ++ round.networkOperations) (done ++ round.networkOperations)
        (done ++ round.networkOperations) s') (fun s' => P s'.calls) := by
  refine Act.Ensures.bind ((hI.networkPhases_ensures scheme round.networkOperations [] .empty hin
    (by simpa using h) .nil rfl).mono fun batch s₁ hs₁ => ?_)
  simp only [List.nil_append] at hs₁
  obtain ⟨h1, hp, hl⟩ := hs₁
  apply Act.Ensures.bind
  rcases hsend : Network.sendObjectsMany batch.sendRequests s₁.network with ⟨r, network⟩
  simp only [Act.Ensures, sendRequests, hsend]
  cases r with
  | err e => trivial
  | hang => trivial
  | panic => exact hI.panicked (c := .send batch.sendRequests .panic) h1 rfl
  | ok sendLen =>
      have h2 : I (done ++ round.networkOperations) done done
          { s₁ with network, calls := s₁.calls ++ [.send batch.sendRequests (.ok sendLen)] } :=
        hI.exchange (c := .send batch.sendRequests (.ok sendLen)) h1 rfl rfl rfl rfl
      apply Act.Ensures.bind
      rcases hrecv : @Network.recvObjectsMany N Elem _ batch.receiveRequests network with ⟨r, network'⟩
      simp only [Act.Ensures, recvRequests, Outcome.mapErr, hrecv]
      cases r with
      | err e => trivial
      | hang => trivial
      | panic => exact hI.panicked (c := .recv batch.receiveRequests .panic) h2 rfl
      | ok received =>
          have h3 : I (done ++ round.networkOperations) done done
              { s₁ with
                network := network'
                calls := s₁.calls ++ [.send batch.sendRequests (.ok sendLen)] ++
                  [.recv batch.receiveRequests (.ok received)] } :=
            hI.exchange (c := .recv batch.receiveRequests (.ok received)) h2 rfl rfl rfl rfl
          exact Act.Ensures.bind ((hI.finishNetworkOperations_ensures hc hp hl hnd h3).mono fun _ s' hs' => hs')

namespace ExecutionContext

/-! ### The phases -/

/-- Some call of the scheme or of the network panicked. -/
def CalleePanicked (ec : ExecutionContext S Op Wire Elem Ctx Pending N) : Prop := ∃ c ∈ ec.calls, c.Panicked

/-- The operations `done` are executed, and the calls, wires and context are those of that point. -/
def SettledIn (done : List Op) (ec : ExecutionContext S Op Wire Elem Ctx Pending N) : Prop :=
  ∃ context, ec.schemeContext = some context ∧
    Settled done (⟨context, ec.wireContents, ec.network, ec.calls⟩ : Exec Op Wire Elem Ctx Pending N)

/-- The context of the scheme is initialised, and this holds of what the rounds work on. -/
def Holds (I : Exec Op Wire Elem Ctx Pending N → Prop) (ec : ExecutionContext S Op Wire Elem Ctx Pending N) : Prop :=
  ∃ context, ec.schemeContext = some context ∧ I ⟨context, ec.wireContents, ec.network, ec.calls⟩

omit [MpcScheme S Op Wire Elem Input Ctx Pending] [Network N Elem] [Operation Op] in
theorem withContext_ensures {I I' : Exec Op Wire Elem Ctx Pending N → Prop} {α : Type}
    {x : Act (Exec Op Wire Elem Ctx Pending N) Fault α}
    {ec : ExecutionContext S Op Wire Elem Ctx Pending N} (h : ec.Holds I)
    (hx : ∀ s, I s → Act.Ensures x s (fun _ s' => I' s') (fun s' => P s'.calls)) :
    Act.Ensures (withContext x) ec (fun _ ec' => ec'.circuit = ec.circuit ∧ ec'.Holds I')
      (fun ec' => P ec'.calls) := by
  obtain ⟨context, hctx, hs⟩ := h
  have h1 := hx _ hs
  unfold Act.Ensures at *
  rcases hxs : x ⟨context, ec.wireContents, ec.network, ec.calls⟩ with ⟨r, s'⟩
  rw [hxs] at h1
  simp only [withContext, hctx, hxs]
  cases r with
  | ok a => exact ⟨rfl, s'.context, rfl, h1⟩
  | err e => trivial
  | panic => exact h1
  | hang => trivial

theorem doRounds_ensures (hI : RoundInvariant I P) {circuit : MpcCircuit S Op} (hc : Contract circuit.scheme circuit) :
    ∀ (rounds : List (Round Op)) (done : List Op) (a b : ℕ)
      {ec : ExecutionContext S Op Wire Elem Ctx Pending N}, ec.Holds (I done done done) →
    (∀ round ∈ rounds, round ∈ circuit.offlineRounds ++ circuit.onlineRounds) →
    StoredFrom (producedWires done) rounds →
    (producedWires (done ++ rounds.flatMap Round.operations)).Nodup →
    Act.Ensures (doRounds circuit.scheme rounds a b) ec
      (fun _ ec' => ec'.circuit = ec.circuit ∧ ec'.Holds (I (done ++ rounds.flatMap Round.operations)
        (done ++ rounds.flatMap Round.operations) (done ++ rounds.flatMap Round.operations)))
      (fun ec' => P ec'.calls)
  | [], done, a, b, ec, h, _, _, _ => by
      simp only [doRounds, Act.Ensures, Act.ret, List.flatMap_nil, List.append_nil]
      exact ⟨trivial, h⟩
  | round :: rounds, done, a, b, ec, h, hmem, hst, hnd => by
      obtain ⟨h1, h2⟩ := StoredFrom.cons_iff.mp hst
      have hsplit : done ++ (round :: rounds).flatMap Round.operations =
          (done ++ round.localOperations) ++ round.networkOperations ++ rounds.flatMap Round.operations := by
        simp [Round.operations]
      have hnd₂ : (producedWires ((done ++ round.localOperations) ++ round.networkOperations)).Nodup := by
        rw [hsplit, producedWires_append] at hnd
        exact (List.nodup_append.mp hnd).1
      have hnd₁ : (producedWires (done ++ round.localOperations)).Nodup := by
        rw [producedWires_append] at hnd₂
        exact (List.nodup_append.mp hnd₂).1
      refine Act.Ensures.bind ((withContext_ensures h fun s hs =>
        hI.doLocalOperations_ensures hc (hmem round (by simp)) h1 hnd₁ hs).mono fun _ ec₁ hec₁ => ?_)
      refine Act.Ensures.bind ((withContext_ensures hec₁.2 fun s hs =>
        hI.doNetworkOperations_ensures hc (fun op hop w hw => ?_) hnd₂ hs).mono fun lens ec₂ hec₂ => ?_)
      · rw [producedWires_append]
        exact h1.networkOps op hop w hw
      · have hdone : done ++ round.localOperations ++ round.networkOperations = done ++ round.operations := by
          simp [Round.operations]
        have hrest := doRounds_ensures hI hc rounds (done ++ round.operations) (a + lens.1) (b + lens.2)
          (hdone ▸ hec₂.2) (fun r hr => hmem r (by simp [hr])) (by rwa [producedWires_append])
          (by rwa [hsplit, hdone] at hnd)
        refine hrest.mono fun _ ec₃ hec₃ => ⟨hec₃.1.trans (hec₂.1.trans hec₁.1), ?_⟩
        simpa using hec₃.2

/-- A phase executes the operations of its rounds after those of `done`. -/
theorem doPhase_ensures (hI : RoundInvariant I P) {circuit : MpcCircuit S Op}
    (hc : Contract circuit.scheme circuit) {fnName : String}
    {required reached : ExecutionState} {rounds : MpcCircuit S Op → List (Round Op)} {done : List Op}
    {ec : ExecutionContext S Op Wire Elem Ctx Pending N} (hec : ec.circuit = circuit) (h : ec.Holds (I done done done))
    (hmem : ∀ round ∈ rounds circuit, round ∈ circuit.offlineRounds ++ circuit.onlineRounds)
    (hst : StoredFrom (producedWires done) (rounds circuit))
    (hnd : (producedWires (done ++ (rounds circuit).flatMap Round.operations)).Nodup) :
    Act.Ensures (doPhase fnName required rounds reached) ec
      (fun _ ec' => ec'.circuit = circuit ∧ ec'.executionState = reached ∧
        ec'.Holds (I (done ++ (rounds circuit).flatMap Round.operations)
          (done ++ (rounds circuit).flatMap Round.operations)
          (done ++ (rounds circuit).flatMap Round.operations))) (fun ec' => P ec'.calls) := by
  subst hec
  apply Act.Ensures.bind
  by_cases hstate : ec.executionState = required
  · simp only [Act.Ensures, assertState, hstate, if_true]
    refine Act.Ensures.read_bind (Act.Ensures.bind ?_)
    exact (doRounds_ensures hI hc (rounds ec.circuit) done 0 0 h hmem hst hnd).mono
      fun lens ec' hec' => ⟨hec'.1, rfl, hec'.2⟩
  · simp only [Act.Ensures, assertState, hstate, if_false]

/-! ### The whole run -/

/-- What a finished run has done: both phases were called once for every operation, in the order of
the plan; a network phase was given, for each input wire, what the finalize phase of its producer
had returned for it; and every output wire holds what its producer returned at its position. -/
structure DataFlow (circuit : MpcCircuit S Op) (ec : ExecutionContext S Op Wire Elem Ctx Pending N) : Prop where
  networkOps : ec.calls.filterMap Call.networkOp = circuit.operations
  finalizeOps : ec.calls.filterMap Call.finalizeOp = circuit.operations
  given : ∀ before op ins r after, ec.calls = before ++ .networkPhase op ins r :: after →
    List.Forall₂ (Returned before) (inputs op) ins
  contents : ∀ op ∈ circuit.operations, ∃ pending data ws, .finalizePhase op pending data (.ok ws) ∈ ec.calls ∧
    ws.length = (outputs op).length ∧
    ∀ (j : ℕ) w v, (outputs op)[j]? = some w → ws[j]? = some v → ec.wireContents.get w = some v

omit [MpcScheme S Op Wire Elem Input Ctx Pending] [Network N Elem] in
/-- No two finalize phases output the same wire. -/
theorem finalize_unique {w : WireId} {op op' : Op} : ∀ {calls : List (Call Op Wire Elem Pending)},
    (producedWires (calls.filterMap Call.finalizeOp)).Nodup → ∀ {c c' : Call Op Wire Elem Pending},
    c ∈ calls → c' ∈ calls → c.finalizeOp = some op → c'.finalizeOp = some op' →
    w ∈ outputs op → w ∈ outputs op' → c = c'
  | [], _, _, _, hc, _, _, _, _, _ => by cases hc
  | d :: calls, hnd, c, c', hc, hc', hop, hop', hw, hw' => by
      have hrest : ∀ {c₁ c₂ : Call Op Wire Elem Pending} {op₁ op₂ : Op}, c₁ = d → c₁.finalizeOp = some op₁ →
          c₂ ∈ calls → c₂.finalizeOp = some op₂ → w ∈ outputs op₁ → w ∉ outputs op₂ := by
        intro c₁ c₂ op₁ op₂ h1 h1op h2 h2op hw₁ hw₂
        subst h1
        rw [List.filterMap_cons_some h1op, producedWires, List.flatMap_cons] at hnd
        refine (List.nodup_append.mp hnd).2.2 w hw₁ w (mem_producedWires.mpr ⟨op₂, ?_, hw₂⟩) rfl
        exact List.mem_filterMap.mpr ⟨c₂, h2, h2op⟩
      have htail : (producedWires (calls.filterMap Call.finalizeOp)).Nodup := by
        refine hnd.sublist ?_
        rw [List.filterMap_cons]
        split
        · exact List.Sublist.refl _
        · rw [producedWires, producedWires, List.flatMap_cons]
          exact List.sublist_append_right _ _
      obtain h1 | h1 := List.mem_cons.mp hc <;> obtain h2 | h2 := List.mem_cons.mp hc'
      · rw [h1, h2]
      · exact absurd hw' (hrest h1 hop h2 hop' hw)
      · exact absurd hw (hrest h2 hop' h1 hop hw')
      · exact finalize_unique htail h1 h2 hop hop' hw hw'

omit [MpcScheme S Op Wire Elem Input Ctx Pending] [Network N Elem] in
theorem SettledIn.flow_of_finished {circuit : MpcCircuit S Op} (hu : circuit.UniqueProducers)
    {ec : ExecutionContext S Op Wire Elem Ctx Pending N} (h : ec.SettledIn circuit.operations) :
    DataFlow circuit ec := by
  obtain ⟨context, -, hflow⟩ := h
  refine ⟨hflow.networkOps, hflow.finalizeOps, hflow.given, fun op hop => ?_⟩
  have hfin : ec.calls.filterMap Call.finalizeOp = circuit.operations := hflow.finalizeOps
  obtain ⟨c, hc, hcop⟩ := List.mem_filterMap.mp (hfin ▸ hop)
  cases c with
  | networkPhase => cases hcop
  | send => cases hcop
  | recv => cases hcop
  | finalizePhase op' pending data r =>
      obtain rfl : op' = op := by simpa [Call.finalizeOp] using hcop
      obtain ⟨ws, rfl, hlen⟩ := hflow.finalizeOk _ _ _ _ hc
      refine ⟨pending, data, ws, hc, hlen, fun j w v hj hv => ?_⟩
      have hw : w ∈ outputs op' := List.mem_of_getElem? hj
      obtain ⟨v', hget⟩ := Option.ne_none_iff_exists'.mp
        ((hflow.stored w).mpr (mem_producedWires.mpr ⟨op', hop, hw⟩))
      obtain ⟨op₂, pending₂, data₂, ws₂, hc₂, j₂, hj₂, hv₂⟩ := hflow.returned w v' hget
      -- The call that stored the wire is the call of its producer, and the position is the same.
      have hsame := finalize_unique (by rw [hfin]; exact hu) hc hc₂ rfl rfl hw (List.mem_of_getElem? hj₂)
      obtain ⟨rfl, -, -, rfl⟩ : op₂ = op' ∧ pending₂ = pending ∧ data₂ = data ∧ ws₂ = ws := by
        simpa [eq_comm] using hsame
      have hnd : (outputs op₂).Nodup := by
        obtain ⟨l₁, l₂, hsplit⟩ := List.append_of_mem hop
        have hu' := hu
        rw [MpcCircuit.UniqueProducers, hsplit, producedWires_append, producedWires, producedWires,
          List.flatMap_cons] at hu'
        exact (List.nodup_append.mp (List.nodup_append.mp hu').2.1).1
      obtain rfl : j = j₂ := by
        obtain ⟨h1, h2⟩ := List.getElem?_eq_some_iff.mp hj
        obtain ⟨h3, h4⟩ := List.getElem?_eq_some_iff.mp hj₂
        exact (List.Nodup.getElem_inj_iff hnd).mp (h2.trans h4.symm)
      rw [hget, ← hv₂, hv]

/-- **Data flow of an execution.** -/
theorem dataFlow {circuit : MpcCircuit S Op} (hc : Contract circuit.scheme circuit)
    (hu : circuit.UniqueProducers) (hst : circuit.StoresBeforeUse)
    {digest : MpcCircuit S Op → Outcome String (List UInt8)} {rng : Draws} {network : N} {lens₁ : ℕ × ℕ}
    {ec₁ : ExecutionContext S Op Wire Elem Ctx Pending N}
    (h₁ : handshake digest rng (new circuit network) = (.ok lens₁, ec₁)) :
    (∀ ec₂, doOffline ec₁ = (.panic, ec₂) → ec₂.CalleePanicked) ∧
    ∀ lens₂ ec₂, doOffline ec₁ = (.ok lens₂, ec₂) →
    ∀ userInputs ec₃, prepareInput userInputs ec₂ = (.ok (), ec₃) →
      (∀ ec₄, doOnline ec₃ = (.panic, ec₄) → ec₄.CalleePanicked) ∧
      ∀ lens₄ ec₄, doOnline ec₃ = (.ok lens₄, ec₄) → ec₄.executionState = .finished ∧ DataFlow circuit ec₄ := by
  have hst' := StoredFrom.append_iff.mp hst
  rw [List.nil_append] at hst'
  have hu' : (producedWires circuit.offlineOperations).Nodup := by
    rw [MpcCircuit.UniqueProducers, MpcCircuit.operations, producedWires_append] at hu
    exact (List.nodup_append.mp hu).1
  obtain ⟨-, hne, -⟩ | ⟨lens, context, -, -, hec₁⟩ := handshake_cases h₁ (by simp)
  · exact absurd rfl (hne lens₁)
  have hs₁ : ec₁.SettledIn [] := by
    rw [hec₁]
    refine ⟨context, rfl, rfl, rfl, by simp [new], ?_, by simp [new, producedWires], by simp [new]⟩
    intro before op ins r after he
    exact absurd he (by simp [new])
  have hoff : Act.Ensures doOffline ec₁ (fun _ ec' => ec'.circuit = circuit ∧
      ec'.executionState = .finishedOffline ∧ ec'.SettledIn ([] ++ circuit.offlineOperations))
      CalleePanicked :=
    doPhase_ensures flow_roundInvariant hc (by rw [hec₁]; rfl) hs₁ (by simp +contextual) hst'.1 hu'
  refine ⟨fun ec₂ h₂ => hoff.of_panic h₂, fun lens₂ ec₂ h₂ userInputs ec₃ h₃ => ?_⟩
  obtain ⟨hcirc, -, context₂, hctx₂, hs₂⟩ := hoff.of_ok h₂
  obtain ⟨-, hne, -⟩ | ⟨context₃, -, -, hec₃⟩ :=
    prepareInput_cases h₃ fun _ => by rw [Init, hctx₂]; rfl
  · exact absurd rfl hne
  have hs₃ : ec₃.SettledIn circuit.offlineOperations := by
    rw [hec₃]
    exact ⟨context₃, rfl, hs₂.networkOps, hs₂.finalizeOps, hs₂.finalizeOk, hs₂.given, hs₂.stored, hs₂.returned⟩
  have hon : Act.Ensures doOnline ec₃ (fun _ ec' => ec'.circuit = circuit ∧
      ec'.executionState = .finished ∧ ec'.SettledIn circuit.operations) CalleePanicked :=
    doPhase_ensures flow_roundInvariant hc (by rw [hec₃]; exact hcirc) hs₃ (by simp +contextual) hst'.2 hu
  refine ⟨fun ec₄ h₄ => hon.of_panic h₄, fun lens₄ ec₄ h₄ => ?_⟩
  obtain ⟨-, hstate, hs₄⟩ := hon.of_ok h₄
  exact ⟨hstate, hs₄.flow_of_finished hu⟩

/-! ### The additive scheme -/

/-- The additive scheme keeps the contract: what is kept for an operation yields one wire, and
only operations that use the network issue requests. -/
theorem additive_contract {M : ℕ} {circuit : MpcCircuit (AdditiveScheme M) AdditiveOperation}
    (hlocal : ∀ round ∈ circuit.offlineRounds ++ circuit.onlineRounds, ∀ op ∈ round.localOperations,
      additiveLocal op = true) (scheme : AdditiveScheme M) : Contract scheme circuit where
  finalize_length op out _ data context context' ws h := by
    obtain ⟨h, -⟩ := Prod.mk.inj h
    have hout : (outputs op).length = 1 := rfl
    rw [hout]
    unfold additiveFinalizePhase at h
    split at h
    · obtain ⟨share, -, h⟩ := Outcome.bind_eq_ok.mp h
      obtain rfl : [share] = ws := by simpa using h
      rfl
    · obtain ⟨share, -, h⟩ := Outcome.bind_eq_ok.mp h
      obtain rfl : [share % M] = ws := by simpa using h
      rfl
    · obtain rfl : [_] = ws := by simpa using h
      rfl
    · obtain rfl : [_] = ws := by simpa using h
      rfl
    · obtain ⟨total, -, h⟩ := Outcome.bind_eq_ok.mp h
      obtain rfl : [total] = ws := by simpa using h
      rfl
  local_silent round hround op hop out hout := by
    obtain ⟨ins, context, context', h⟩ := hout
    have hl := hlocal round hround op hop
    change additiveNetworkPhase M op ins context = (.ok out, context') at h
    cases op with
    | input => cases hl
    | reveal => cases hl
    | genRandom output =>
        obtain ⟨h, -⟩ := Prod.mk.inj h
        obtain rfl := Outcome.ok.inj h
        exact ⟨rfl, rfl⟩
    | add left right output =>
        obtain ⟨h, -⟩ := Prod.mk.inj h
        obtain _ | ⟨a, _ | ⟨b, ins⟩⟩ := ins
        · cases h
        · cases h
        · obtain ⟨total, -, h⟩ := Outcome.bind_eq_ok.mp h
          obtain rfl := Outcome.ok.inj h
          exact ⟨rfl, rfl⟩

/-- A party alone with its inputs prepared, and at its end. -/
def soloReady : SoloContext := (prepareInput [(⟨2⟩, 5)] soloOffline).2

@[inherit_doc soloReady]
def soloFinished : SoloContext := (doOnline soloReady).2

theorem prepareInput_solo : prepareInput [(⟨2⟩, 5)] soloOffline = (.ok (), soloReady) := by
  unfold soloReady
  exact Act.eq_of_fst (by decide +kernel)

theorem doOnline_solo : doOnline soloReady = (.ok (0, 0), soloFinished) := by
  unfold soloFinished
  exact Act.eq_of_fst (by decide +kernel)

theorem dataFlow_solo : soloFinished.executionState = .finished ∧ DataFlow soloCircuit soloFinished :=
  ((dataFlow (additive_contract (by decide) _) (by decide) (by decide) handshake_solo).2 _ _
    doOffline_solo _ _ prepareInput_solo).2 _ _ doOnline_solo

end ExecutionContext

end MpcCore
