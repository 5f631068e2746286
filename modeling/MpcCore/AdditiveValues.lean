import MpcCore.ExecutionFlow
import MpcCore.Shares

/-! # What a party of the additive scheme computes

The phases of one party, value by value, when it runs a list of operations in order: every call
succeeds, and returns what the table of the shares says.

* `Follows`: the context and the wires of a party after some operations.
* `outOf`, `itemsOf`: what the network phase of an operation returns, and the requests of the
  operation with the elements that answer them.
* `doLocalOperations_values`, `networkPhases_values`, `finishNetworkOperations_values`: the parts of
  a round. -/

namespace MpcCore

open Operation MpcScheme

variable {M n : ℕ}

/-- A list of additive operations whose every wire is produced once and before its use, with draws
below a modulus that keeps all sums in range. -/
structure Regular (M : ℕ) (draws : Fin n → Draws) (ops : List AdditiveOperation) : Prop where
  pos : 0 < M
  le : M ≤ 2 ^ 63
  draws_lt : ∀ p k, draws p k < M
  ordered : OrderedOperations ops

/-- The operations after `done`, each with those before it. -/
def eachFrom {α : Type} (f : List AdditiveOperation → AdditiveOperation → α) :
    List AdditiveOperation → List AdditiveOperation → List α
  | _, [] => []
  | done, op :: ops => f done op :: eachFrom f (done ++ [op]) ops

theorem eachFrom_append {α : Type} (f : List AdditiveOperation → AdditiveOperation → α) :
    ∀ (ops ops' done : List AdditiveOperation),
      eachFrom f done (ops ++ ops') = eachFrom f done ops ++ eachFrom f (done ++ ops) ops'
  | [], _, _ => by simp [eachFrom]
  | op :: ops, ops', done => by simp [eachFrom, eachFrom_append f ops ops' (done ++ [op])]

theorem map_eachFrom {α β : Type} (f : List AdditiveOperation → AdditiveOperation → α) (g : α → β) :
    ∀ (ops done : List AdditiveOperation), (eachFrom f done ops).map g = eachFrom (fun d o => g (f d o)) done ops
  | [], _ => rfl
  | op :: ops, done => by rw [eachFrom, List.map_cons, map_eachFrom f g ops]; rfl

theorem mem_eachFrom {α : Type} {f : List AdditiveOperation → AdditiveOperation → α} {a : α} :
    ∀ {ops done : List AdditiveOperation}, a ∈ eachFrom f done ops → ∃ d op, op ∈ ops ∧ a = f d op
  | [], _, h => absurd h (by simp [eachFrom])
  | op :: ops, done, h => by
      rw [eachFrom, List.mem_cons] at h
      obtain rfl | h := h
      · exact ⟨done, op, by simp, rfl⟩
      · obtain ⟨d, o, ho, rfl⟩ := mem_eachFrom h
        exact ⟨d, o, List.mem_cons_of_mem op ho, rfl⟩

section

variable (x : Fin n → WireId → ℕ) (draws : Fin n → Draws) (table : WireId → Fin n → ℕ) (p : Fin n)

/-- What the network phase of an operation returns. -/
def outOf (done : List AdditiveOperation) : AdditiveOperation → NetworkPhaseOutput AdditivePending ℕ
  | .input partyId output =>
      if (p : ℕ) = partyId then
        ⟨.input true (some (table output p)), (others n p).map fun i => ⟨i, dealt draws done p i⟩, []⟩
      else ⟨.input false none, [], [ReceiveRequest.new partyId 1]⟩
  | .genRandom output => ⟨.genRandom (table output p), [], []⟩
  | .add _ _ output => ⟨.add (table output p), [], []⟩
  | .reveal inp _ =>
      ⟨.reveal (table inp p), (others n p).map fun i => ⟨i, table inp p⟩,
        (others n p).map fun i => ReceiveRequest.new i 1⟩

/-- The requests of an operation, each with the element that answers it. -/
def itemsOf (done : List AdditiveOperation) : AdditiveOperation → List (ReceiveRequest × List ℕ)
  | .input partyId _ =>
      if (p : ℕ) = partyId then [] else [(ReceiveRequest.new partyId 1, [dealt draws done partyId p])]
  | .reveal inp _ => (others n p).map fun i => (ReceiveRequest.new i 1, [valueAt (table inp) i])
  | _ => []

/-- The batch of the network operations that follow `done`. -/
def batchOf (done ops : List AdditiveOperation) : Batch ℕ AdditivePending :=
  (eachFrom (outOf draws table p) done ops).foldl Batch.add .empty

end

/-! ### The batch of a round -/

section

variable (draws : Fin n → Draws) (table : WireId → Fin n → ℕ) (p q : Fin n)

theorem foldl_add (outs : List (NetworkPhaseOutput AdditivePending ℕ)) : ∀ batch : Batch ℕ AdditivePending,
    let batch' := outs.foldl Batch.add batch
    batch'.pendingOps = batch.pendingOps ++ outs.map NetworkPhaseOutput.pending ∧
      batch'.receiveRequestCounts = batch.receiveRequestCounts ++ outs.map (fun out => out.receiveRequest.length) ∧
      batch'.sendRequests = batch.sendRequests ++ outs.flatMap NetworkPhaseOutput.sendRequest ∧
      batch'.receiveRequests = batch.receiveRequests ++ outs.flatMap NetworkPhaseOutput.receiveRequest := by
  induction outs with
  | nil => intro batch; simp
  | cons out outs ih =>
      intro batch
      obtain ⟨h1, h2, h3, h4⟩ := ih (batch.add out)
      simp only [List.foldl_cons, h1, h2, h3, h4]
      simp [Batch.add]

theorem itemsOf_fst (done : List AdditiveOperation) (op : AdditiveOperation) :
    (itemsOf draws table p done op).map Prod.fst = (outOf draws table p done op).receiveRequest := by
  cases op with
  | input partyId output => simp only [itemsOf, outOf]; split <;> rfl
  | genRandom output => rfl
  | add left right output => rfl
  | reveal inp output => simp [itemsOf, outOf]

theorem itemsOf_length (done : List AdditiveOperation) (op : AdditiveOperation) :
    ∀ item ∈ itemsOf draws table p done op, item.2.length = expectedCount item.1.count := by
  intro item hitem
  cases op with
  | input partyId output =>
      simp only [itemsOf] at hitem
      split at hitem
      · exact absurd hitem (by simp)
      · obtain rfl := List.mem_singleton.mp hitem
        rfl
  | genRandom output => exact absurd hitem (by simp [itemsOf])
  | add left right output => exact absurd hitem (by simp [itemsOf])
  | reveal inp output =>
      obtain ⟨i, -, rfl⟩ := List.mem_map.mp hitem
      rfl

/-- What a party sends to another in an operation is what the other asks for. -/
theorem objectsFrom_itemsOf (done : List AdditiveOperation) (op : AdditiveOperation) :
    dataTo (outOf draws table q done op).sendRequest p = objectsFrom (itemsOf draws table p done op) q := by
  have hpick : ∀ {a b : Fin n} (f : ℕ → ℕ), ((others n a).filter fun i : ℕ => i = b).map f =
      if a = b then [] else [f b] := by
    intro a b f
    rw [filter_eq_replicate (nodup_others a)]
    by_cases hab : a = b
    · simp [hab, mem_others]
    · have : (b : ℕ) ∈ others n a := mem_others.mpr ⟨b.2, fun h => hab (Fin.ext h.symm)⟩
      simp [hab, this]
  have hto : ∀ f : ℕ → ℕ, dataTo ((others n q).map fun i => ⟨i, f i⟩) p = if q = p then [] else [f p] := fun f => by
    rw [dataTo, List.filter_map, List.map_map]
    exact hpick f
  cases op with
  | input partyId output =>
      by_cases hq : (q : ℕ) = partyId
      · subst hq
        simp only [outOf, itemsOf, if_true, hto, Fin.ext_iff, eq_comm (a := (p : ℕ))]
        split <;> simp [objectsFrom, ReceiveRequest.new]
      · have hne : partyId ≠ q := fun h => hq h.symm
        simp only [outOf, itemsOf, if_neg hq]
        split <;> simp [dataTo, objectsFrom, ReceiveRequest.new, hne]
  | genRandom output => rfl
  | add left right output => rfl
  | reveal inp output =>
      have hitems : objectsFrom (itemsOf draws table p done (.reveal inp output)) q =
          ((others n p).filter fun i : ℕ => i = q).map (valueAt (table inp)) := by
        rw [objectsFrom, itemsOf, List.filter_map, List.flatMap_map]
        simp only [Function.comp_def, ReceiveRequest.new]
        rw [← List.map_eq_flatMap]
      rw [hitems, hpick, valueAt_fin]
      simp only [outOf, hto fun _ => table inp q, eq_comm (a := p)]

/-- The requests of the network operations of a round, each with the element that answers it. -/
def roundItems (done ops : List AdditiveOperation) : List (ReceiveRequest × List ℕ) :=
  (eachFrom (itemsOf draws table p) done ops).flatten

theorem roundItems_fst (done ops : List AdditiveOperation) :
    (roundItems draws table p done ops).map Prod.fst = (batchOf draws table p done ops).receiveRequests := by
  obtain ⟨-, -, -, hreq⟩ := foldl_add (eachFrom (outOf draws table p) done ops) .empty
  rw [batchOf, hreq, roundItems, List.map_flatten, map_eachFrom, List.flatMap_def, map_eachFrom]
  simp only [itemsOf_fst]
  rfl

theorem roundItems_length (done ops : List AdditiveOperation) :
    ∀ item ∈ roundItems draws table p done ops, item.2.length = expectedCount item.1.count := by
  intro item hitem
  obtain ⟨items, hitems, hitem⟩ := List.mem_flatten.mp hitem
  obtain ⟨d, op, -, rfl⟩ := mem_eachFrom hitems
  exact itemsOf_length draws table p d op item hitem

/-- **What a party sends to another in a round is what the other asks for.** -/
theorem objectsFrom_roundItems : ∀ (ops done : List AdditiveOperation),
    dataTo (batchOf draws table q done ops).sendRequests p = objectsFrom (roundItems draws table p done ops) q := by
  have hsend : ∀ ops done, (batchOf draws table q done ops).sendRequests =
      (eachFrom (outOf draws table q) done ops).flatMap NetworkPhaseOutput.sendRequest := fun ops done =>
    (foldl_add (eachFrom (outOf draws table q) done ops) .empty).2.2.1
  intro ops
  induction ops with
  | nil => intro done; rw [hsend]; rfl
  | cons op ops ih =>
      intro done
      have hhead := objectsFrom_itemsOf draws table p q done op
      have htail := ih (done ++ [op])
      rw [hsend] at htail ⊢
      simp only [roundItems, eachFrom, List.flatMap_cons, List.flatten_cons, dataTo, objectsFrom,
        List.filter_append, List.map_append, List.flatMap_append] at hhead htail ⊢
      rw [hhead, htail]

end

/-- A party after its network phases of `ran`, with the outputs of `stored` in its map: `supplied` is
what its context holds for the inputs to come. -/
structure Follows (supplied : WireId → ℕ) (draws : Fin n → Draws) (table : WireId → Fin n → ℕ) (p : Fin n)
    (stored ran : List AdditiveOperation) (context : AdditiveContext) (wires : PMap WireId ℕ) : Prop where
  myId : context.myId = p
  nPlayers : context.nPlayers = n
  rng : ∀ k, context.rng k = draws p (drawn n p ran + k)
  userInputs : ∀ w, .input p w ∉ ran → (context.userInputs.get w).getD 0 = supplied w
  wires : ∀ w, wires.get w = if w ∈ stored.map AdditiveOperation.output then some (table w p) else none

/-! ### The network phase -/

/-- The shares that the owner of an input draws. -/
theorem dealShares_eq (hpos : 0 < M) (hle : M ≤ 2 ^ 63) (me : ℕ) (share : ℕ → ℕ) (hshare : ∀ i, share i < M) :
    ∀ (is : List ℕ) (sum : ℕ) (sendRequest : List (SendRequest ℕ)) (c : AdditiveContext), sum < M →
      (∀ j i, (is.filter fun i => i ≠ me)[j]? = some i → c.rng j = share i) →
      dealShares M me is sum sendRequest c =
        (.ok ((sum + ((is.filter fun i => i ≠ me).map share).sum) % M,
            sendRequest ++ (is.filter fun i => i ≠ me).map fun i => ⟨i, share i⟩),
          { c with rng := fun k => c.rng (k + (is.filter fun i => i ≠ me).length) })
  | [], sum, sendRequest, c, hsum, _ => by simp [dealShares, Nat.mod_eq_of_lt hsum]
  | i :: is, sum, sendRequest, c, hsum, h => by
      by_cases hi : i = me
      · subst hi
        have ih := dealShares_eq hpos hle i share hshare is sum sendRequest c hsum (by simpa using h)
        simpa [dealShares] using ih
      · have hfilter : ((i :: is).filter fun i => i ≠ me) = i :: is.filter fun i => i ≠ me := by simp [hi]
        rw [hfilter] at h ⊢
        have h0 : c.rng 0 = share i := h 0 i rfl
        have hlt := hshare i
        have ih := dealShares_eq hpos hle me share hshare is ((sum + share i) % M) (sendRequest ++ [⟨i, share i⟩])
          { c with rng := fun k => c.rng (k + 1) } (Nat.mod_lt _ hpos) fun j i' hj =>
            h (j + 1) i' (by simpa using hj)
        have hadd : u64Add sum (share i) = .ok (sum + share i) := by
          rw [u64Add, if_pos (by omega)]
        rw [dealShares, if_neg hi]
        simp only [Act.bind, genRange, h0, Act.ret_apply, hadd, ih, List.map_cons, List.sum_cons, List.length_cons,
          Nat.mod_add_mod, add_assoc, List.append_assoc, List.singleton_append]

section

variable {x : Fin n → WireId → ℕ} {supplied : WireId → ℕ} {draws : Fin n → Draws} {p : Fin n}
  {ops stored ran rest : List AdditiveOperation} {op : AdditiveOperation} {context : AdditiveContext}
  {wires : PMap WireId ℕ}

theorem dealt_self (p : Fin n) (done : List AdditiveOperation) (i : ℕ) :
    dealt draws done p i = draws p (drawn n p done + (others n p).idxOf i) := by
  simp [dealt]

theorem Follows.dealInput (hr : Regular M draws ops) {output : WireId}
    (he : ops = ran ++ .input p output :: rest) (hsup : supplied output = x p output % M)
    (h : Follows supplied draws (shareTable M x draws ops) p stored ran context wires) :
    ∃ context', dealInput M output context =
        (.ok (outOf draws (shareTable M x draws ops) p ran (.input p output)), context') ∧
      Follows supplied draws (shareTable M x draws ops) p stored (ran ++ [.input p output]) context' wires := by
  have hnew : AdditiveOperation.input p output ∉ ran := by
    have hnd := hr.ordered.nodup
    rw [he, List.map_append] at hnd
    intro hmem
    exact (List.nodup_append.mp hnd).2.2 output (List.mem_map.mpr ⟨_, hmem, rfl⟩) output
      (by simp [AdditiveOperation.output]) rfl
  have hinput : (context.userInputs.get output).getD 0 = x p output % M := (h.userInputs output hnew).trans hsup
  have htable : shareTable M x draws ops output p =
      (x p output % M + M - ((others n p).map (dealt draws ran p)).sum % M) % M := by
    have hval : shareTable M x draws ops output p =
        shareOf M x draws ran (.input p output) (shareTable M x draws ops) p :=
      congrFun (shareTable_eq hr.ordered he) p
    simpa [shareOf] using hval
  have hlt := Nat.mod_lt (x p output) hr.pos
  have hle := hr.le
  have hsum := Nat.mod_lt ((others n p).map (dealt draws ran p)).sum hr.pos
  have hdeal := dealShares_eq hr.pos hr.le context.myId (dealt draws ran p)
    (fun i => dealt_lt hr.draws_lt hr.pos ran p i) (List.range context.nPlayers) 0 []
    { context with userInputs := context.userInputs.erase output } hr.pos (by
      intro j i hj
      have hj : (others n p)[j]? = some i := by simpa [others, h.myId, h.nPlayers] using hj
      obtain ⟨hlen, rfl⟩ := List.getElem?_eq_some_iff.mp hj
      rw [dealt_self, (nodup_others (p : ℕ)).idxOf_getElem]
      exact h.rng j)
  have hothers : ((List.range context.nPlayers).filter fun i => i ≠ context.myId) = others n p := by
    rw [others, h.myId, h.nPlayers]
  rw [hothers, zero_add, List.nil_append] at hdeal
  have hfirst : u64Add (x p output % M % M) M = .ok (x p output % M % M + M) := by
    rw [u64Add, if_pos (by rw [Nat.mod_mod]; omega)]
  have hsecond : u64Sub (x p output % M % M + M) (((others n p).map (dealt draws ran p)).sum % M) =
      .ok (x p output % M % M + M - ((others n p).map (dealt draws ran p)).sum % M) := by
    rw [u64Sub, if_pos (by omega)]
  refine ⟨{ context with
    userInputs := context.userInputs.erase output, rng := fun k => context.rng (k + (others n p).length) }, ?_, ?_⟩
  · simp only [MpcCore.dealInput, removeInput, Act.bind, Act.read_apply, hdeal, Act.ret_apply, hinput, hfirst,
      Outcome.ok_bind, hsecond]
    simp only [Nat.mod_mod, outOf, if_true, htable]
  · refine ⟨h.myId, h.nPlayers, fun k => ?_, fun w hw => ?_, h.wires⟩
    · simp only [h.rng, drawn_snoc, AdditiveOperation.drawCount, if_true]
      congr 1
      omega
    · have hne : w ≠ output := by
        rintro rfl
        exact hw (by simp)
      rw [PMap.get_erase_ne _ hne]
      exact h.userInputs w fun hmem => hw (List.mem_append_left _ hmem)

theorem Follows.gather (h : Follows supplied draws table p stored ran context wires) : ∀ {ws : List WireId},
    (∀ w ∈ ws, w ∈ stored.map AdditiveOperation.output) →
      gatherInputs wires ws = (.ok (ws.map fun w => table w p) : Outcome Fault _)
  | [], _ => rfl
  | w :: ws, hws => by
      have hw : wires.get w = some (table w p) := by rw [h.wires, if_pos (hws w (by simp))]
      have ih := h.gather fun w' hw' => hws w' (List.mem_cons_of_mem w hw')
      rw [gatherInputs, hw, ih]
      rfl

/-- **The network phase** of the next operation. -/
theorem Follows.networkPhase {N : Type} (scheme : AdditiveScheme M) (hr : Regular M draws ops)
    (he : ops = ran ++ op :: rest) (hreads : ∀ w ∈ inputs op, w ∈ stored.map AdditiveOperation.output)
    (hsub : ∀ o ∈ stored, o ∈ ops) (hsup : ∀ output, op = .input p output → supplied output = x p output % M)
    {s : Exec AdditiveOperation ℕ ℕ AdditiveContext AdditivePending N}
    (h : Follows supplied draws (shareTable M x draws ops) p stored ran s.context s.wireContents) :
    ∃ s', MpcCore.networkPhase scheme op s = (.ok (outOf draws (shareTable M x draws ops) p ran op), s') ∧
      Follows supplied draws (shareTable M x draws ops) p stored (ran ++ [op]) s'.context s'.wireContents := by
  set table := shareTable M x draws ops with htable
  have hval : table op.output p = shareOf M x draws ran op table p := congrFun (shareTable_eq hr.ordered he) p
  have hlt : ∀ w ∈ inputs op, table w p < M := fun w hw => by
    obtain ⟨o, ho, rfl⟩ := List.mem_map.mp (hreads w hw)
    exact shareTable_lt hr.ordered hr.draws_lt hr.pos (List.mem_map_of_mem (hsub o ho)) p
  have hgather := h.gather hreads
  -- it is enough to run the phase of the scheme
  suffices hphase : ∃ context', additiveNetworkPhase M op ((inputs op).map fun w => table w p) s.context =
      (.ok (outOf draws table p ran op), context') ∧
        Follows supplied draws table p stored (ran ++ [op]) context' s.wireContents by
    obtain ⟨context', hphase, hfollows⟩ := hphase
    have hphase : doNetworkPhase scheme op ((inputs op).map fun w => table w p) s.context =
      (.ok (outOf draws table p ran op), context') := hphase
    refine ⟨{ s with
      context := context'
      calls := s.calls ++ [.networkPhase op ((inputs op).map fun w => table w p) (.ok (outOf draws table p ran op))] },
      ?_, hfollows⟩
    simp only [MpcCore.networkPhase, hgather, hphase, Outcome.mapErr]
  have hsilent : op.drawCount n p = 0 →
      Follows supplied draws table p stored (ran ++ [op]) s.context s.wireContents := fun h0 =>
    ⟨h.myId, h.nPlayers, fun k => by rw [h.rng, drawn_snoc, h0, add_zero],
      fun w hw => h.userInputs w fun hmem => hw (List.mem_append_left _ hmem), h.wires⟩
  cases op with
  | input partyId output =>
      by_cases hp : (p : ℕ) = partyId
      · subst hp
        obtain ⟨context', h1, h2⟩ := h.dealInput hr he (hsup output rfl)
        refine ⟨context', ?_, h2⟩
        rw [additiveNetworkPhase, Act.read_bind, h.myId, if_pos rfl]
        exact h1
      · refine ⟨s.context, ?_, hsilent (by simp [AdditiveOperation.drawCount, hp])⟩
        rw [additiveNetworkPhase, Act.read_bind, h.myId, if_neg hp]
        simp [outOf, hp]
  | genRandom output =>
      refine ⟨{ s.context with rng := fun k => s.context.rng (k + 1) }, ?_, h.myId, h.nPlayers, fun k => ?_,
        fun w hw => h.userInputs w fun hmem => hw (List.mem_append_left _ hmem), h.wires⟩
      · have h0 : s.context.rng 0 = table output p := (h.rng 0).trans hval.symm
        simp only [additiveNetworkPhase, Act.bind, genRange, Act.ret_apply, h0, outOf]
      · simp only [h.rng, drawn_snoc, AdditiveOperation.drawCount]
        congr 1
        omega
  | add left right output =>
      refine ⟨s.context, ?_, hsilent rfl⟩
      have hl := hlt left (by simp [inputs])
      have hr' := hlt right (by simp [inputs])
      have hle := hr.le
      have hval : table output p = (table left p + table right p) % M := hval
      have hadd : u64Add (table left p) (table right p) = .ok (table left p + table right p) := by
        rw [u64Add, if_pos (by omega)]
      simp [additiveNetworkPhase, inputs, hadd, outOf, hval]
  | reveal inp output =>
      refine ⟨s.context, ?_, hsilent rfl⟩
      have hothers : otherParties s.context = others n p := by rw [otherParties, others, h.myId, h.nPlayers]
      simp [additiveNetworkPhase, inputs, Act.read_bind, hothers, outOf]

/-! ### The finalize phase -/

theorem sumShares_eq (hpos : 0 < M) (hle : M ≤ 2 ^ 63) : ∀ (data : List ℕ) (total : ℕ), total < M →
    (∀ a ∈ data, a < M) → sumShares M total data = .ok ((total + data.sum) % M)
  | [], total, h, _ => by simp [sumShares, Nat.mod_eq_of_lt h]
  | a :: data, total, h, hdata => by
      have ha := hdata a (by simp)
      have hadd : u64Add total a = .ok (total + a) := by
        rw [u64Add, if_pos (by omega)]
      rw [sumShares, hadd, Outcome.ok_bind, sumShares_eq hpos hle data _ (Nat.mod_lt _ hpos) fun b hb =>
        hdata b (List.mem_cons_of_mem a hb), Nat.mod_add_mod, List.sum_cons, add_assoc]

/-- **The finalize phase** of an operation, on the elements that answer its requests. -/
theorem additiveFinalizePhase_eq (x : Fin n → WireId → ℕ) (p : Fin n) (hr : Regular M draws ops)
    (he : ops = ran ++ op :: rest) :
    additiveFinalizePhase M (outOf draws (shareTable M x draws ops) p ran op).pending
        ((itemsOf draws (shareTable M x draws ops) p ran op).map Prod.snd).flatten =
      .ok [shareTable M x draws ops op.output p] := by
  set table := shareTable M x draws ops with htable
  have hval : table op.output p = shareOf M x draws ran op table p := congrFun (shareTable_eq hr.ordered he) p
  cases op with
  | input partyId output =>
      by_cases hp : (p : ℕ) = partyId
      · simp [outOf, hp, additiveFinalizePhase, AdditiveOperation.output]
      · have hval : table output p = dealt draws ran partyId p := by
          simpa [shareOf, hp, AdditiveOperation.output] using hval
        have hlt := dealt_lt hr.draws_lt hr.pos ran partyId p
        simp [outOf, itemsOf, hp, additiveFinalizePhase, AdditiveOperation.output, hval, Nat.mod_eq_of_lt hlt]
  | genRandom output => rfl
  | add left right output => rfl
  | reveal inp output =>
      have hdata : ((itemsOf draws table p ran (.reveal inp output)).map Prod.snd).flatten =
          (others n p).map (valueAt (table inp)) := by
        simp only [itemsOf, List.map_map, Function.comp_def]
        rw [← List.flatMap_def, ← List.map_eq_flatMap]
      have hlt : ∀ q, table inp q < M := fun q => by
        refine shareTable_lt hr.ordered hr.draws_lt hr.pos ?_ q
        have := hr.ordered.ordered ran _ rest he inp (by simp [inputs])
        rw [he, List.map_append]
        exact List.mem_append_left _ this
      have hval : table (AdditiveOperation.reveal inp output).output p = (∑ q, table inp q) % M := hval
      rw [hdata, hval, ← sum_others (table inp) p, add_comm]
      have hsum := sumShares_eq hr.pos hr.le ((others n p).map (valueAt (table inp))) (table inp p) (hlt p) (by
        intro a ha
        obtain ⟨i, hi, rfl⟩ := List.mem_map.mp ha
        simpa [valueAt, (mem_others.mp hi).1] using hlt _)
      simp [outOf, additiveFinalizePhase, hsum]

/-! ### The operations of a round -/

theorem Follows.store {N : Type} (h : Follows supplied draws table p stored ran context wires)
    (op : AdditiveOperation) (hnew : op.output ∉ stored.map AdditiveOperation.output)
    {s : Exec AdditiveOperation ℕ ℕ AdditiveContext AdditivePending N} (hc : s.context = context)
    (hw : s.wireContents = wires) :
    ∃ s', storeWires (outputs op) [table op.output p] s = (.ok (), s') ∧
      Follows supplied draws table p (stored ++ [op]) ran s'.context s'.wireContents := by
  subst hc hw
  have hnone : s.wireContents.get op.output = none := by rw [h.wires, if_neg hnew]
  refine ⟨{ s with wireContents := s.wireContents.insert op.output (table op.output p) }, ?_, h.myId, h.nPlayers,
    h.rng, h.userInputs, fun w => ?_⟩
  · simp [outputs, storeWires, Act.bind, storeWire, hnone, Outcome.assert]
  · rw [PMap.get_insert, h.wires]
    by_cases hw : w = op.output
    · simp [hw]
    · simp [hw]

theorem Regular.new (hr : Regular M draws ops) (he : ops = ran ++ op :: rest) :
    op.output ∉ ran.map AdditiveOperation.output := by
  have hnd := hr.ordered.nodup
  rw [he, List.map_append, List.map_cons] at hnd
  exact fun hmem => (List.nodup_append.mp hnd).2.2 _ hmem _ List.mem_cons_self rfl

theorem Follows.localOperation {N : Type} (scheme : AdditiveScheme M) (hr : Regular M draws ops)
    (he : ops = ran ++ op :: rest) (hlocal : additiveLocal op = true)
    {s : Exec AdditiveOperation ℕ ℕ AdditiveContext AdditivePending N}
    (h : Follows supplied draws (shareTable M x draws ops) p ran ran s.context s.wireContents) :
    ∃ s', doLocalOperation scheme op s = (.ok (), s') ∧
      Follows supplied draws (shareTable M x draws ops) p (ran ++ [op]) (ran ++ [op]) s'.context s'.wireContents := by
  set table := shareTable M x draws ops with htable
  have hinput : ∀ output, op ≠ .input p output := by rintro output rfl; exact absurd hlocal (by simp [additiveLocal])
  obtain ⟨s₁, h1, hf1⟩ := h.networkPhase scheme hr he (hr.ordered.ordered ran op rest he)
    (fun o ho => by simp [he, ho])
    (fun output ho => absurd ho (hinput output))
  have hfinal := additiveFinalizePhase_eq x p hr he
  have hempty : (outOf draws table p ran op).sendRequest = [] ∧ (outOf draws table p ran op).receiveRequest = [] ∧
      itemsOf draws table p ran op = [] := by
    cases op with
    | input partyId output => exact absurd hlocal (by simp [additiveLocal])
    | genRandom output => exact ⟨rfl, rfl, rfl⟩
    | add left right output => exact ⟨rfl, rfl, rfl⟩
    | reveal inp output => exact absurd hlocal (by simp [additiveLocal])
  obtain ⟨hs, hreq, hitems⟩ := hempty
  rw [← htable, hitems] at hfinal
  obtain ⟨s₂, h2, hc2, hw2⟩ : ∃ s₂, MpcCore.finalizePhase scheme op (outOf draws table p ran op).pending [] s₁ =
      (.ok [table op.output p], s₂) ∧ s₂.context = s₁.context ∧ s₂.wireContents = s₁.wireContents := by
    refine ⟨_, Prod.ext ?_ rfl, rfl, rfl⟩
    exact Outcome.mapErr_eq_ok.mpr hfinal
  obtain ⟨s₃, h3, hf3⟩ := hf1.store op (hr.new he) hc2 hw2
  refine ⟨s₃, ?_, hf3⟩
  rw [doLocalOperation, Act.bind_of_ok h1, hs, hreq]
  simp only [List.isEmpty_nil, Outcome.assert, if_true]
  rw [Act.ret_ok_bind, Act.ret_ok_bind, Act.bind_of_ok h2, h3]

/-- **The local operations** of a round. -/
theorem doLocalOperations_values {N : Type} (scheme : AdditiveScheme M) (hr : Regular M draws ops) :
    ∀ (locals : List AdditiveOperation) {ran : List AdditiveOperation}
      {s : Exec AdditiveOperation ℕ ℕ AdditiveContext AdditivePending N}, (∃ rest, ops = ran ++ locals ++ rest) →
      (∀ op ∈ locals, additiveLocal op = true) →
      Follows supplied draws (shareTable M x draws ops) p ran ran s.context s.wireContents →
      ∃ s', Act.each (doLocalOperation scheme) locals s = (.ok (), s') ∧
        Follows supplied draws (shareTable M x draws ops) p (ran ++ locals) (ran ++ locals) s'.context s'.wireContents
  | [], ran, s, _, _, h => ⟨s, rfl, by simpa using h⟩
  | op :: locals, ran, s, ⟨rest, he⟩, hlocal, h => by
      have hop : ops = ran ++ op :: (locals ++ rest) := by simpa using he
      obtain ⟨s₁, h1, hf1⟩ := h.localOperation scheme hr hop (hlocal op (by simp))
      obtain ⟨s₂, h2, hf2⟩ := doLocalOperations_values scheme hr locals ⟨rest, by simpa using he⟩
        (fun o ho => hlocal o (List.mem_cons_of_mem op ho)) hf1
      exact ⟨s₂, by rw [Act.each, Act.bind_of_ok h1, h2], by simpa using hf2⟩

/-- **The network phases** of the network operations of a round. -/
theorem networkPhases_values {N : Type} (scheme : AdditiveScheme M) (hr : Regular M draws ops)
    (hsub : ∀ o ∈ stored, o ∈ ops) :
    ∀ (nops : List AdditiveOperation) {ran : List AdditiveOperation} (batch : Batch ℕ AdditivePending)
      {s : Exec AdditiveOperation ℕ ℕ AdditiveContext AdditivePending N}, (∃ rest, ops = ran ++ nops ++ rest) →
      (∀ op ∈ nops, ∀ w ∈ inputs op, w ∈ stored.map AdditiveOperation.output) →
      (∀ op ∈ nops, ∀ output, op = .input p output → supplied output = x p output % M) →
      Follows supplied draws (shareTable M x draws ops) p stored ran s.context s.wireContents →
      ∃ s', networkPhases scheme nops batch s =
          (.ok ((eachFrom (outOf draws (shareTable M x draws ops) p) ran nops).foldl Batch.add batch), s') ∧
        Follows supplied draws (shareTable M x draws ops) p stored (ran ++ nops) s'.context s'.wireContents
  | [], ran, batch, s, _, _, _, h => ⟨s, rfl, by simpa using h⟩
  | op :: nops, ran, batch, s, ⟨rest, he⟩, hreads, hsup, h => by
      have hop : ops = ran ++ op :: (nops ++ rest) := by simpa using he
      obtain ⟨s₁, h1, hf1⟩ := h.networkPhase scheme hr hop (hreads op (by simp)) hsub (hsup op (by simp))
      obtain ⟨s₂, h2, hf2⟩ := networkPhases_values scheme hr hsub nops
        (batch.add (outOf draws (shareTable M x draws ops) p ran op)) ⟨rest, by simpa using he⟩
        (fun o ho => hreads o (List.mem_cons_of_mem op ho)) (fun o ho => hsup o (List.mem_cons_of_mem op ho)) hf1
      exact ⟨s₂, by rw [networkPhases, Act.bind_of_ok h1, h2]; rfl, by simpa using hf2⟩

theorem finalizePhases_values {N : Type} (x : Fin n → WireId → ℕ) (p : Fin n) (scheme : AdditiveScheme M)
    (hr : Regular M draws ops) :
    ∀ (nops : List AdditiveOperation) {ran : List AdditiveOperation} (results : List (AdditiveOperation × List ℕ))
      (s : Exec AdditiveOperation ℕ ℕ AdditiveContext AdditivePending N), (∃ rest, ops = ran ++ nops ++ rest) →
      ∃ s', finalizePhases scheme
          (nops.zip (((eachFrom (outOf draws (shareTable M x draws ops) p) ran nops).map
              NetworkPhaseOutput.pending).zip
            ((eachFrom (outOf draws (shareTable M x draws ops) p) ran nops).map
              fun out => out.receiveRequest.length)))
          ((roundItems draws (shareTable M x draws ops) p ran nops).map Prod.snd) results s =
        (.ok (results ++ nops.map fun op => (op, [shareTable M x draws ops op.output p])), s') ∧
        s'.context = s.context ∧ s'.wireContents = s.wireContents
  | [], ran, results, s, _ => ⟨s, by simp [finalizePhases], rfl, rfl⟩
  | op :: nops, ran, results, s, ⟨rest, he⟩ => by
      set table := shareTable M x draws ops with htable
      have hop : ops = ran ++ op :: (nops ++ rest) := by simpa using he
      have hfinal := additiveFinalizePhase_eq x p hr hop
      rw [← htable] at hfinal
      obtain ⟨s₁, h1, hc1, hw1⟩ : ∃ s₁, MpcCore.finalizePhase scheme op (outOf draws table p ran op).pending
          ((itemsOf draws table p ran op).map Prod.snd).flatten s =
          (.ok [table op.output p], s₁) ∧ s₁.context = s.context ∧ s₁.wireContents = s.wireContents := by
        refine ⟨_, Prod.ext ?_ rfl, rfl, rfl⟩
        exact Outcome.mapErr_eq_ok.mpr hfinal
      have hrest : ops = ran ++ [op] ++ nops ++ rest := by simpa using he
      obtain ⟨s₂, h2, hc2, hw2⟩ := finalizePhases_values x p scheme hr nops (results ++ [(op, [table op.output p])]) s₁
        ⟨rest, hrest⟩
      have hcount : (outOf draws table p ran op).receiveRequest.length = ((itemsOf draws table p ran op).map
          Prod.snd).length := by rw [← itemsOf_fst, List.length_map, List.length_map]
      refine ⟨s₂, ?_, hc2.trans hc1, hw2.trans hw1⟩
      simp only [eachFrom, List.map_cons, List.zip_cons_cons, roundItems, List.flatten_cons, List.map_append,
        finalizePhases, hcount, List.take_left, List.drop_left]
      rw [Act.bind_of_ok h1]
      simpa [roundItems] using h2

theorem storeAll_values {N : Type} (hr : Regular M draws ops) :
    ∀ (nops : List AdditiveOperation) {stored : List AdditiveOperation}
      {s : Exec AdditiveOperation ℕ ℕ AdditiveContext AdditivePending N}, (∃ rest, ops = stored ++ nops ++ rest) →
      Follows supplied draws table p stored ran s.context s.wireContents →
      ∃ s', Act.each (fun r : AdditiveOperation × List ℕ => storeWires (outputs r.1) r.2)
          (nops.map fun op => (op, [table op.output p])) s = (.ok (), s') ∧
        Follows supplied draws table p (stored ++ nops) ran s'.context s'.wireContents
  | [], stored, s, _, h => ⟨s, rfl, by simpa using h⟩
  | op :: nops, stored, s, ⟨rest, he⟩, h => by
      have hop : ops = stored ++ op :: (nops ++ rest) := by simpa using he
      obtain ⟨s₁, h1, hf1⟩ := h.store op (hr.new hop) rfl rfl
      obtain ⟨s₂, h2, hf2⟩ := storeAll_values hr nops ⟨rest, by simpa using he⟩ hf1
      exact ⟨s₂, by rw [List.map_cons, Act.each, Act.bind_of_ok h1, h2], by simpa using hf2⟩

/-- **What follows the exchange** of a round, on the elements that answer its requests. -/
theorem finishNetworkOperations_values {N : Type} (scheme : AdditiveScheme M) (hr : Regular M draws ops)
    {nops : List AdditiveOperation} (he : ∃ rest, ops = stored ++ nops ++ rest)
    {s : Exec AdditiveOperation ℕ ℕ AdditiveContext AdditivePending N}
    (h : Follows supplied draws (shareTable M x draws ops) p stored ran s.context s.wireContents) :
    ∃ s', finishNetworkOperations scheme nops (batchOf draws (shareTable M x draws ops) p stored nops)
        ((roundItems draws (shareTable M x draws ops) p stored nops).map Prod.snd) s = (.ok (), s') ∧
      Follows supplied draws (shareTable M x draws ops) p (stored ++ nops) ran s'.context s'.wireContents := by
  obtain ⟨s₁, h1, hc1, hw1⟩ := finalizePhases_values x p scheme hr nops [] s he
  obtain ⟨hpend, hcount, -, -⟩ := foldl_add (eachFrom (outOf draws (shareTable M x draws ops) p) stored nops) .empty
  obtain ⟨s₂, h2, hf2⟩ := storeAll_values hr nops (s := s₁) he (by rw [hc1, hw1]; exact h)
  refine ⟨s₂, ?_, hf2⟩
  rw [finishNetworkOperations, batchOf, hpend, hcount]
  rw [show (Batch.empty : Batch ℕ AdditivePending).pendingOps = [] from rfl,
    show (Batch.empty : Batch ℕ AdditivePending).receiveRequestCounts = [] from rfl, List.nil_append, List.nil_append,
    Act.bind_of_ok h1]
  exact h2

end

end MpcCore
