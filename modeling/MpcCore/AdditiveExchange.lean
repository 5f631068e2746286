import MpcCore.Additive
import MpcCore.Cluster

/-! # Who exchanges elements with whom in the additive scheme

The requests of the additive network phases, whatever the values are.

* `AdditiveOperation.peersTo`, `peersFrom`: the parties one party sends an element to in an
  operation, and those it requests one from.  `mem_peersTo_iff`: the two sides agree.
* `Batch.Shape`: the requests of a round are those of its operations, one after the other, so the
  origins of what is sent and of what is requested are the positions of the operations that involve
  the peer (`Batch.Shape.originsTo_eq`, `originsFrom_eq`). -/

namespace MpcCore

open Operation

variable {M n : ℕ}

/-- The parties other than `me`, in order. -/
def others (n me : ℕ) : List ℕ := (List.range n).filter fun i => i ≠ me

theorem mem_others {me i : ℕ} : i ∈ others n me ↔ i < n ∧ i ≠ me := by
  simp [others]

theorem nodup_others (me : ℕ) : (others n me).Nodup := List.nodup_range.filter _

namespace AdditiveOperation

/-- The parties that `me` sends an element to. -/
def peersTo (n me : ℕ) : AdditiveOperation → List ℕ
  | input partyId _ => if me = partyId then others n me else []
  | reveal .. => others n me
  | _ => []

/-- The parties that `me` requests an element from. -/
def peersFrom (n me : ℕ) : AdditiveOperation → List ℕ
  | input partyId _ => if me = partyId then [] else [partyId]
  | reveal .. => others n me
  | _ => []

theorem nodup_peersTo (me : ℕ) (op : AdditiveOperation) : (op.peersTo n me).Nodup := by
  cases op with
  | input partyId out =>
      simp only [peersTo]
      split
      · exact nodup_others me
      · exact List.nodup_nil
  | genRandom out => exact List.nodup_nil
  | add left right out => exact List.nodup_nil
  | reveal inp out => exact nodup_others me

theorem nodup_peersFrom (me : ℕ) (op : AdditiveOperation) : (op.peersFrom n me).Nodup := by
  cases op with
  | input partyId out => simp only [peersFrom]; split <;> simp
  | genRandom out => exact List.nodup_nil
  | add left right out => exact List.nodup_nil
  | reveal inp out => exact nodup_others me

/-- A party sends to exactly those that request from it. -/
theorem mem_peersTo_iff {i j : ℕ} (hi : i < n) (hj : j < n) (op : AdditiveOperation) :
    j ∈ op.peersTo n i ↔ i ∈ op.peersFrom n j := by
  cases op with
  | input partyId out =>
      simp only [peersTo, peersFrom]
      by_cases h1 : i = partyId <;> by_cases h2 : j = partyId <;> simp [h1, h2, mem_others]; omega
  | genRandom out => simp [peersTo, peersFrom]
  | add left right out => simp [peersTo, peersFrom]
  | reveal inp out => simp only [peersTo, peersFrom, mem_others]; omega

theorem peersTo_valid {me i : ℕ} {op : AdditiveOperation} (h : i ∈ op.peersTo n me) : i < n ∧ i ≠ me := by
  cases op with
  | input partyId out =>
      simp only [peersTo] at h
      split at h
      · exact mem_others.mp h
      · exact absurd h (by simp)
  | genRandom out => exact absurd h (by simp [peersTo])
  | add left right out => exact absurd h (by simp [peersTo])
  | reveal inp out => exact mem_others.mp h

/-- The party an input belongs to is one of the `n` parties. -/
def Owned (n : ℕ) (op : AdditiveOperation) : Prop := ∀ o ∈ getInputPartyId op, o < n

instance : DecidablePred (Owned n) := fun op => inferInstanceAs (Decidable (∀ o ∈ getInputPartyId op, o < n))

theorem peersFrom_valid {me i : ℕ} {op : AdditiveOperation} (hop : op.Owned n) (h : i ∈ op.peersFrom n me) :
    i < n ∧ i ≠ me := by
  cases op with
  | input partyId out =>
      simp only [peersFrom] at h
      split at h
      · exact absurd h (by simp)
      · next hne =>
          obtain rfl : i = partyId := by simpa using h
          exact ⟨hop i rfl, fun he => hne he.symm⟩
  | genRandom out => exact absurd h (by simp [peersFrom])
  | add left right out => exact absurd h (by simp [peersFrom])
  | reveal inp out => exact mem_others.mp h

end AdditiveOperation

/-! ### The seat of a party -/

/-- The party's own identifier and the number of parties stay. -/
def AdditiveContext.SameSeat (c c' : AdditiveContext) : Prop := c'.myId = c.myId ∧ c'.nPlayers = c.nPlayers

instance : IsPreorder AdditiveContext AdditiveContext.SameSeat where
  refl _ := ⟨rfl, rfl⟩
  trans _ _ _ h h' := ⟨h'.1.trans h.1, h'.2.trans h.2⟩

theorem dealShares_sameSeat (myId : ℕ) : ∀ (is : List ℕ) (sum : ℕ) (sendRequest : List (SendRequest ℕ)),
    Act.Keeps AdditiveContext.SameSeat (dealShares M myId is sum sendRequest)
  | [], _, _ => Act.Keeps.ret _
  | i :: is, sum, sendRequest => by
      unfold dealShares
      split
      · exact dealShares_sameSeat myId is _ _
      · exact Act.Keeps.bind (fun _ _ => ⟨rfl, rfl⟩) fun _ _ _ _ =>
          (Act.Keeps.ret _).bind fun _ _ _ _ => dealShares_sameSeat myId is _ _

theorem dealInput_sameSeat (output : WireId) : Act.Keeps AdditiveContext.SameSeat (dealInput M output) :=
  Act.Keeps.bind (fun _ _ => ⟨rfl, rfl⟩) fun _ _ _ _ =>
    Act.Keeps.bind (fun _ _ => ⟨rfl, rfl⟩) fun _ _ _ _ =>
      Act.Keeps.bind (fun _ _ => ⟨rfl, rfl⟩) fun _ _ _ _ =>
        (dealShares_sameSeat _ _ _ _).bind fun _ _ _ _ => Act.Keeps.ret _

theorem additiveNetworkPhase_sameSeat (op : AdditiveOperation) (ins : List ℕ) :
    Act.Keeps AdditiveContext.SameSeat (additiveNetworkPhase M op ins) := by
  cases op with
  | input partyId output =>
      refine Act.Keeps.bind (fun _ _ => ⟨rfl, rfl⟩) fun _ _ _ _ => ?_
      split
      · exact dealInput_sameSeat output
      · exact Act.Keeps.ret _
  | genRandom output =>
      simp only [additiveNetworkPhase]
      exact Act.Keeps.bind (fun _ _ => ⟨rfl, rfl⟩) fun _ _ _ _ => Act.Keeps.ret _
  | add left right output => simp only [additiveNetworkPhase]; split <;> exact Act.Keeps.ret _
  | reveal inp output =>
      simp only [additiveNetworkPhase]
      split
      · exact Act.Keeps.bind (fun _ _ => ⟨rfl, rfl⟩) fun _ _ _ _ => Act.Keeps.ret _
      · exact Act.Keeps.ret _

theorem additivePrepare_sameSeat : ∀ (inputs : List (WireId × ℕ)) (c : AdditiveContext),
    c.SameSeat (additivePrepare M inputs c)
  | [], c => refl_of AdditiveContext.SameSeat c
  | (_, _) :: inputs, c => additivePrepare_sameSeat inputs { c with userInputs := _ }

/-! ### The requests of one operation -/

theorem dealShares_requests {myId : ℕ} : ∀ {is : List ℕ} {sum sum' : ℕ}
    {sendRequest sendRequest' : List (SendRequest ℕ)} {c c' : AdditiveContext},
    dealShares M myId is sum sendRequest c = (.ok (sum', sendRequest'), c') →
      sendRequest'.map SendRequest.toId = sendRequest.map SendRequest.toId ++ is.filter fun i => i ≠ myId
  | [], sum, sum', sendRequest, sendRequest', c, c', h => by
      obtain ⟨-, rfl⟩ : sum = sum' ∧ sendRequest = sendRequest' := by
        simpa [dealShares] using (Prod.mk.inj h).1
      simp
  | i :: is, sum, sum', sendRequest, sendRequest', c, c', h => by
      unfold dealShares at h
      split at h
      · next hi => rw [dealShares_requests h]; simp [hi]
      · next hi =>
          obtain ⟨share, c₁, -, h⟩ := Act.bind_eq_ok.mp h
          obtain ⟨s, c₂, -, h⟩ := Act.bind_eq_ok.mp h
          rw [dealShares_requests h]
          simp [hi]

/-- The requests of a network phase that returns. -/
theorem additiveNetworkPhase_requests {op : AdditiveOperation} {ins : List ℕ} {c c' : AdditiveContext}
    {out : NetworkPhaseOutput AdditivePending ℕ} (h : additiveNetworkPhase M op ins c = (.ok out, c')) :
    out.sendRequest.map SendRequest.toId = op.peersTo c.nPlayers c.myId ∧
      out.receiveRequest = (op.peersFrom c.nPlayers c.myId).map fun i => ReceiveRequest.new i 1 := by
  cases op with
  | input partyId output =>
      rw [additiveNetworkPhase, Act.read_bind] at h
      split at h
      · next hme =>
          obtain ⟨input, c₁, h1, h⟩ := Act.bind_eq_ok.mp h
          obtain ⟨-, rfl⟩ := Prod.mk.inj h1
          rw [Act.read_bind, Act.read_bind] at h
          obtain ⟨⟨sum, sendRequest⟩, c₂, h2, h⟩ := Act.bind_eq_ok.mp h
          obtain ⟨h, -⟩ := Prod.mk.inj h
          obtain ⟨a, -, h⟩ := Outcome.bind_eq_ok.mp h
          obtain ⟨b, -, h⟩ := Outcome.bind_eq_ok.mp h
          obtain rfl := Outcome.ok.inj h
          refine ⟨?_, by simp [AdditiveOperation.peersFrom, hme]⟩
          simpa [AdditiveOperation.peersTo, hme, others] using dealShares_requests h2
      · next hme =>
          obtain rfl : _ = out := Outcome.ok.inj (Prod.mk.inj h).1
          simp [AdditiveOperation.peersTo, AdditiveOperation.peersFrom, hme]
  | genRandom output =>
      rw [additiveNetworkPhase] at h
      obtain ⟨share, c₁, -, h⟩ := Act.bind_eq_ok.mp h
      obtain rfl : _ = out := Outcome.ok.inj (Prod.mk.inj h).1
      simp [AdditiveOperation.peersTo, AdditiveOperation.peersFrom]
  | add left right output =>
      simp only [additiveNetworkPhase] at h
      split at h
      · obtain ⟨s, -, h⟩ := Outcome.bind_eq_ok.mp (Prod.mk.inj h).1
        obtain rfl : _ = out := Outcome.ok.inj h
        simp [AdditiveOperation.peersTo, AdditiveOperation.peersFrom]
      · exact absurd (Prod.mk.inj h).1 (by simp)
  | reveal inp output =>
      simp only [additiveNetworkPhase] at h
      split at h
      · rw [Act.read_bind] at h
        obtain rfl : _ = out := Outcome.ok.inj (Prod.mk.inj h).1
        simp [AdditiveOperation.peersTo, AdditiveOperation.peersFrom, otherParties, others,
          Function.comp_def]
      · exact absurd (Prod.mk.inj h).1 (by simp)

/-! ### The requests of a round -/

/-- The requests of a batch are those of the given operations, at party `me`. -/
structure Batch.Shape (n me : ℕ) (ops : List AdditiveOperation) (batch : Batch ℕ AdditivePending) : Prop where
  sends : batch.sendRequests.map SendRequest.toId = ops.flatMap (AdditiveOperation.peersTo n me)
  sendCounts : batch.sendRequestCounts = ops.map fun op => (op.peersTo n me).length
  receives : batch.receiveRequests =
    ops.flatMap fun op => (op.peersFrom n me).map fun i => ReceiveRequest.new i 1
  receiveCounts : batch.receiveRequestCounts = ops.map fun op => (op.peersFrom n me).length

theorem Batch.Shape.empty (me : ℕ) : Batch.Shape n me [] .empty := ⟨rfl, rfl, rfl, rfl⟩

theorem Batch.Shape.add {me : ℕ} {ops : List AdditiveOperation} {batch : Batch ℕ AdditivePending}
    (h : batch.Shape n me ops) {op : AdditiveOperation} {out : NetworkPhaseOutput AdditivePending ℕ}
    (hs : out.sendRequest.map SendRequest.toId = op.peersTo n me)
    (hr : out.receiveRequest = (op.peersFrom n me).map fun i => ReceiveRequest.new i 1) :
    (batch.add out).Shape n me (ops ++ [op]) where
  sends := by simp [Batch.add, h.sends, hs]
  sendCounts := by
    have hlen := congrArg List.length hs
    simp [Batch.add, h.sendCounts, ← hlen]
  receives := by simp [Batch.add, h.receives, hr]
  receiveCounts := by simp [Batch.add, h.receiveCounts, hr]

/-- Pairing the requests with their origins is pairing them operation by operation. -/
theorem zip_origins {α : Type} : ∀ (lists : List (List α)) (start : ℕ),
    lists.flatten.zip (((lists.map List.length).zipIdx start).flatMap fun (count, index) =>
        List.replicate count index) =
      (lists.zipIdx start).flatMap fun (list, index) => list.map fun a => (a, index)
  | [], _ => rfl
  | list :: lists, start => by
      have ih := zip_origins lists (start + 1)
      rw [List.map_cons, List.zipIdx_cons, List.zipIdx_cons, List.flatten_cons, List.flatMap_cons,
        List.flatMap_cons, List.zip_append (by simp), ih]
      congr 1
      simp only
      induction list with
      | nil => rfl
      | cons a list ih' => simp [List.replicate_succ, ih']

/-- The positions of the operations that have a given peer among their peers. -/
def positions (peers : AdditiveOperation → List ℕ) (ops : List AdditiveOperation) (i : ℕ) : List ℕ :=
  (ops.zipIdx.filter fun (op, _) => i ∈ peers op).map Prod.snd

theorem filter_eq_replicate {l : List ℕ} (hl : l.Nodup) (i : ℕ) :
    (l.filter fun a => a = i) = if i ∈ l then [i] else [] := by
  induction l with
  | nil => rfl
  | cons a l ih =>
      obtain ⟨hnotin, hl⟩ := List.nodup_cons.mp hl
      by_cases ha : a = i
      · subst ha
        simp [ih hl, hnotin]
      · have hai : i ≠ a := fun h => ha h.symm
        simp [ha, hai, ih hl]

/-- The origins of what concerns one peer are the positions of the operations that involve it. -/
theorem origins_positions {peers : AdditiveOperation → List ℕ} (hp : ∀ op, (peers op).Nodup)
    (ops : List AdditiveOperation) (i : ℕ) :
    (((ops.flatMap peers).zip (origins (ops.map fun op => (peers op).length))).filter fun x => x.1 = i).map
      Prod.snd = positions peers ops i := by
  have hzip := zip_origins (ops.map peers) 0
  rw [List.map_map] at hzip
  rw [List.flatMap_def, origins]
  refine (congrArg (fun l => (l.filter fun x : ℕ × ℕ => x.1 = i).map Prod.snd) hzip).trans ?_
  rw [positions, List.zipIdx_map]
  generalize ops.zipIdx = l
  induction l with
  | nil => rfl
  | cons x l ih =>
      obtain ⟨op, index⟩ := x
      have hfilter : (((peers op).map fun a => (a, index)).filter fun x => x.1 = i).map Prod.snd =
          if i ∈ peers op then [index] else [] := by
        rw [List.filter_map, List.map_map]
        have := filter_eq_replicate (hp op) i
        simp only [Function.comp_def] at this ⊢
        rw [this]
        split <;> rfl
      simp only [List.map_cons, List.flatMap_cons, List.filter_append, List.map_append]
      simp only [Prod.map_apply, id_eq] at hfilter ⊢
      rw [hfilter, ih]
      by_cases hi : i ∈ peers op <;> simp [hi]

section

variable {me : ℕ} {ops : List AdditiveOperation} {batch : Batch ℕ AdditivePending}

/-- What a party sends to a peer comes from the operations that have the peer among `peersTo`. -/
theorem Batch.Shape.originsTo_eq (h : batch.Shape n me ops) (i : ℕ) :
    batch.originsTo i = positions (AdditiveOperation.peersTo n me) ops i := by
  rw [← origins_positions (AdditiveOperation.nodup_peersTo me), ← h.sends, ← h.sendCounts,
    List.zip_map_left, List.filter_map, List.map_map]
  rfl

/-- What a party requests from a peer belongs to the operations that have it among `peersFrom`. -/
theorem Batch.Shape.originsFrom_eq (h : batch.Shape n me ops) (i : ℕ) :
    batch.originsFrom i = positions (AdditiveOperation.peersFrom n me) ops i := by
  have hmap : batch.receiveRequests =
      (ops.flatMap (AdditiveOperation.peersFrom n me)).map fun i => ReceiveRequest.new i 1 := by
    rw [h.receives, List.map_flatMap]
  rw [← origins_positions (AdditiveOperation.nodup_peersFrom me), ← h.receiveCounts, Batch.originsFrom, hmap,
    List.zip_map_left, List.filter_map, List.flatMap_map, List.map_eq_flatMap]
  rfl

theorem map_snd_zip_origins {α : Type} (lists : List (List α)) :
    (lists.flatten.zip (origins (lists.map List.length))).map Prod.fst = lists.flatten := by
  apply List.map_fst_zip
  induction lists using List.reverseRecOn with
  | nil => simp
  | append_singleton lists list ih =>
      simp [origins, List.zipIdx_append] at ih ⊢

/-- The number of elements for one peer. -/
theorem length_filter_peers {peers : AdditiveOperation → List ℕ} (hp : ∀ op, (peers op).Nodup)
    (ops : List AdditiveOperation) (i : ℕ) :
    ((ops.flatMap peers).filter fun a => a = i).length = (positions peers ops i).length := by
  rw [← origins_positions hp ops i, List.length_map]
  have hfst := map_snd_zip_origins (ops.map peers)
  rw [List.map_map] at hfst
  rw [List.flatMap_def]
  conv_lhs => rw [← hfst, List.filter_map, List.length_map]
  rfl

theorem Batch.Shape.length_dataTo (h : batch.Shape n me ops) (i : ℕ) :
    (dataTo batch.sendRequests i).length = (positions (AdditiveOperation.peersTo n me) ops i).length := by
  rw [← length_filter_peers (AdditiveOperation.nodup_peersTo me), ← h.sends, List.filter_map, List.length_map,
    dataTo, List.length_map]
  rfl

theorem requestsFrom_eq (requests : List ReceiveRequest) (i : ℕ) :
    (requestsFrom requests i).map Prod.snd = (requests.filter fun req => req.fromId = i).map ReceiveRequest.count := by
  have hgen : ∀ (start : ℕ), (((requests.zipIdx start).filterMap fun item =>
      if item.1.fromId = i then some (item.2, item.1.count) else none).map Prod.snd) =
        (requests.filter fun req => req.fromId = i).map ReceiveRequest.count := by
    induction requests with
    | nil => intro start; rfl
    | cons req requests ih =>
        intro start
        by_cases hi : req.fromId = i <;> simp [List.zipIdx_cons, hi, ih]
  exact hgen 0

theorem Batch.Shape.requested_eq (h : batch.Shape n me ops) (i : ℕ) :
    batch.requested i = (positions (AdditiveOperation.peersFrom n me) ops i).length := by
  have hmap : batch.receiveRequests =
      (ops.flatMap (AdditiveOperation.peersFrom n me)).map fun i => ReceiveRequest.new i 1 := by
    rw [h.receives, List.map_flatMap]
  rw [Batch.requested, ← length_filter_peers (AdditiveOperation.nodup_peersFrom me)]
  have hcomp : ((requestsFrom batch.receiveRequests i).map fun req => expectedCount req.2) =
      ((requestsFrom batch.receiveRequests i).map Prod.snd).map expectedCount := by rw [List.map_map]; rfl
  rw [hcomp, requestsFrom_eq, hmap, List.filter_map, List.map_map, List.map_map]
  simp only [Function.comp_def]
  rw [show (fun x => expectedCount (ReceiveRequest.new x 1).count) = fun _ : ℕ => 1 from rfl]
  simp [ReceiveRequest.new]

theorem Batch.Shape.mem_namedPeers_iff (h : batch.Shape n me ops) (q : Fin n) :
    q ∈ namedPeers n batch.receiveRequests ↔ positions (AdditiveOperation.peersFrom n me) ops q ≠ [] := by
  rw [← List.length_pos_iff, ← length_filter_peers (AdditiveOperation.nodup_peersFrom me), List.length_pos_iff,
    mem_namedPeers, h.receives]
  simp [ReceiveRequest.new]

theorem Batch.Shape.messageTo_isSome (h : batch.Shape n me ops) (q : Fin n) :
    (messageTo batch.sendRequests q).isSome ↔ positions (AdditiveOperation.peersTo n me) ops q ≠ [] := by
  rw [← List.length_pos_iff, ← h.length_dataTo, List.length_pos_iff, messageTo]
  cases hd : dataTo batch.sendRequests q <;> simp

end

/-- One side's positions are the other side's. -/
theorem positions_eq {i j : ℕ} (hi : i < n) (hj : j < n) (ops : List AdditiveOperation) :
    positions (AdditiveOperation.peersTo n i) ops j = positions (AdditiveOperation.peersFrom n j) ops i := by
  unfold positions
  congr 2
  funext x
  simp [AdditiveOperation.mem_peersTo_iff hi hj]

theorem Link.unavailable_eq_none {Elem : Type} {link : Link n Elem} {peers : List ℕ}
    (h : ∀ i ∈ peers, i < n ∧ i ≠ link.id) : link.unavailable peers = none := by
  refine List.find?_eq_none.mpr fun i hi => ?_
  obtain ⟨hlt, hne⟩ := h i hi
  have : link.id ≠ ⟨i, hlt⟩ := fun he => hne (by rw [he])
  simp [Link.channel, hlt, this]

/-! ### The rounds of the additive scheme -/

section

variable {N : Type}

/-- The network and the seat of the party stay. -/
def Exec.SameSeat (s s' : Exec AdditiveOperation ℕ ℕ AdditiveContext AdditivePending N) : Prop :=
  s'.network = s.network ∧ s.context.SameSeat s'.context

instance : IsPreorder (Exec AdditiveOperation ℕ ℕ AdditiveContext AdditivePending N) Exec.SameSeat where
  refl s := ⟨rfl, refl_of AdditiveContext.SameSeat s.context⟩
  trans _ _ _ h h' := ⟨h'.1.trans h.1, trans_of AdditiveContext.SameSeat h.2 h'.2⟩

variable (scheme : AdditiveScheme M)

theorem networkPhase_sameSeat (op : AdditiveOperation) :
    Act.Keeps Exec.SameSeat
      (networkPhase scheme op : Act (Exec AdditiveOperation ℕ ℕ AdditiveContext AdditivePending N) Fault _) := by
  intro s hs
  obtain ⟨ins, r, context, hphase, hrun⟩ | hrun := networkPhase_cases scheme op s
  · rw [hrun] at hs ⊢
    have hseat := additiveNetworkPhase_sameSeat (M := M) op ins s.context
    rw [show additiveNetworkPhase M op ins s.context = (r, context) from hphase] at hseat
    exact ⟨rfl, hseat fun h => hs (Outcome.mapErr_eq_panic.mpr h)⟩
  · rw [hrun]
    exact refl_of Exec.SameSeat s

theorem finalizePhase_sameSeat (op : AdditiveOperation) (pending : AdditivePending) (data : List ℕ) :
    Act.Keeps Exec.SameSeat
      (finalizePhase scheme op pending data :
        Act (Exec AdditiveOperation ℕ ℕ AdditiveContext AdditivePending N) Fault _) :=
  fun _ _ => ⟨rfl, rfl, rfl⟩

theorem storeWires_sameSeat : ∀ (ws : List WireId) (vs : List ℕ), Act.Keeps Exec.SameSeat
    (storeWires ws vs : Act (Exec AdditiveOperation ℕ ℕ AdditiveContext AdditivePending N) Fault Unit)
  | [], [] => Act.Keeps.ret _
  | _ :: ws, _ :: vs =>
      Act.Keeps.bind (fun _ _ => ⟨rfl, rfl, rfl⟩) fun _ _ _ _ => storeWires_sameSeat ws vs
  | [], _ :: _ => Act.Keeps.ret _
  | _ :: _, [] => Act.Keeps.ret _

theorem doLocalOperations_sameSeat (round : Round AdditiveOperation) :
    Act.Keeps Exec.SameSeat
      (doLocalOperations scheme round :
        Act (Exec AdditiveOperation ℕ ℕ AdditiveContext AdditivePending N) Fault Unit) :=
  Act.Keeps.each _ fun op _ =>
    (networkPhase_sameSeat scheme op).bind fun _ _ _ _ =>
      (Act.Keeps.ret _).bind fun _ _ _ _ => (Act.Keeps.ret _).bind fun _ _ _ _ =>
        (finalizePhase_sameSeat scheme op _ _).bind fun _ _ _ _ => storeWires_sameSeat _ _

theorem finalizePhases_sameSeat : ∀ (ops : List (AdditiveOperation × AdditivePending × ℕ))
    (data : List (List ℕ)) (results : List (AdditiveOperation × List ℕ)),
    Act.Keeps Exec.SameSeat
      (finalizePhases scheme ops data results :
        Act (Exec AdditiveOperation ℕ ℕ AdditiveContext AdditivePending N) Fault _)
  | [], _, _ => Act.Keeps.ret _
  | (op, pending, _) :: ops, _, _ =>
      (finalizePhase_sameSeat scheme op pending _).bind fun _ _ _ _ => finalizePhases_sameSeat ops _ _

theorem finishNetworkOperations_sameSeat (ops : List AdditiveOperation) (batch : Batch ℕ AdditivePending)
    (data : List (List ℕ)) :
    Act.Keeps Exec.SameSeat
      (finishNetworkOperations scheme ops batch data :
        Act (Exec AdditiveOperation ℕ ℕ AdditiveContext AdditivePending N) Fault Unit) :=
  (finalizePhases_sameSeat scheme _ _ _).bind fun _ _ _ _ =>
    Act.Keeps.each _ fun _ _ => storeWires_sameSeat _ _

/-- The network phases of a round keep the seat, and ask for what the operations ask for. -/
theorem networkPhases_shape : ∀ {ops : List AdditiveOperation} (pre : List AdditiveOperation)
    {batch batch' : Batch ℕ AdditivePending}
    {s s' : Exec AdditiveOperation ℕ ℕ AdditiveContext AdditivePending N},
    networkPhases scheme ops batch s = (.ok batch', s') →
      batch.Shape s.context.nPlayers s.context.myId pre →
      s.SameSeat s' ∧ batch'.Shape s.context.nPlayers s.context.myId (pre ++ ops)
  | [], pre, batch, batch', s, s', h, hb => by
      obtain ⟨hb', rfl⟩ := Prod.mk.inj h
      obtain rfl := Outcome.ok.inj hb'
      exact ⟨refl_of Exec.SameSeat s, by simpa using hb⟩
  | op :: ops, pre, batch, batch', s, s', h, hb => by
      obtain ⟨out, s₁, h1, h2⟩ := Act.bind_eq_ok.mp h
      have hseat := networkPhase_sameSeat scheme op s (by rw [h1]; simp)
      rw [h1] at hseat
      have hout : ∃ ins c', additiveNetworkPhase M op ins s.context = (.ok out, c') := by
        obtain ⟨ins, r, context, hphase, hrun⟩ | hrun := networkPhase_cases scheme op s
        · obtain ⟨hr, -⟩ := Prod.mk.inj (hrun.symm.trans h1)
          exact ⟨ins, context, Outcome.mapErr_eq_ok.mp hr ▸ hphase⟩
        · exact absurd (Prod.mk.inj (hrun.symm.trans h1)).1 (by simp)
      obtain ⟨ins, c', hout⟩ := hout
      obtain ⟨hs, hr⟩ := additiveNetworkPhase_requests hout
      obtain ⟨hmy, hn⟩ : s₁.context.myId = s.context.myId ∧ s₁.context.nPlayers = s.context.nPlayers := hseat.2
      obtain ⟨h3, h4⟩ := networkPhases_shape (pre ++ [op]) h2 (by rw [hmy, hn]; exact hb.add hs hr)
      rw [hmy, hn] at h4
      exact ⟨trans_of Exec.SameSeat hseat h3, by simpa using h4⟩

/-! ### No error of the scheme -/

theorem u64Add_ne_err (a b : ℕ) (e : String) : u64Add a b ≠ .err e := by
  unfold u64Add
  split <;> simp

theorem u64Sub_ne_err (a b : ℕ) (e : String) : u64Sub a b ≠ .err e := by
  unfold u64Sub
  split <;> simp

theorem dealShares_ne_err (e : String) (myId : ℕ) : ∀ (is : List ℕ) (sum : ℕ)
    (sendRequest : List (SendRequest ℕ)),
    Act.Avoids (fun _ => True) e (dealShares M myId is sum sendRequest)
  | [], _, _ => Act.Avoids.ret (by simp)
  | i :: is, sum, sendRequest => by
      unfold dealShares
      split
      · exact dealShares_ne_err e myId is _ _
      · exact Act.Avoids.bind (fun _ _ => ⟨by simp [genRange], trivial⟩) fun share =>
          (Act.Avoids.ret (u64Add_ne_err _ _ e)).bind fun _ => dealShares_ne_err e myId is _ _

theorem additiveNetworkPhase_ne_err (e : String) (op : AdditiveOperation) (ins : List ℕ) :
    Act.Avoids (fun _ => True) e (additiveNetworkPhase M op ins) := by
  cases op with
  | input partyId output =>
      simp only [additiveNetworkPhase]
      refine (Act.Avoids.read _).bind fun myId => ?_
      split
      · refine Act.Avoids.bind (fun _ _ => ⟨by simp [removeInput], trivial⟩) fun input => ?_
        refine (Act.Avoids.read _).bind fun _ => (Act.Avoids.read _).bind fun _ => ?_
        refine (dealShares_ne_err e _ _ _ _).bind fun x => Act.Avoids.ret ?_
        intro h
        obtain h | ⟨a, -, h⟩ := Outcome.bind_eq_err.mp h
        · exact u64Add_ne_err _ _ e h
        · obtain h | ⟨b, -, h⟩ := Outcome.bind_eq_err.mp h
          · exact u64Sub_ne_err _ _ e h
          · exact absurd h (by simp)
      · exact Act.Avoids.ret (by simp)
  | genRandom output =>
      simp only [additiveNetworkPhase]
      exact Act.Avoids.bind (fun _ _ => ⟨by simp [genRange], trivial⟩) fun _ => Act.Avoids.ret (by simp)
  | add left right output =>
      simp only [additiveNetworkPhase]
      split
      · refine Act.Avoids.ret fun h => ?_
        obtain h | ⟨a, -, h⟩ := Outcome.bind_eq_err.mp h
        · exact u64Add_ne_err _ _ e h
        · exact absurd h (by simp)
      · exact Act.Avoids.ret (by simp)
  | reveal inp output =>
      simp only [additiveNetworkPhase]
      split
      · exact (Act.Avoids.read _).bind fun _ => Act.Avoids.ret (by simp)
      · exact Act.Avoids.ret (by simp)

theorem sumShares_ne_err (e : String) : ∀ (total : ℕ) (data : List ℕ), sumShares M total data ≠ .err e
  | _, [] => by simp [sumShares]
  | total, received :: data => by
      intro h
      obtain h | ⟨a, -, h⟩ := Outcome.bind_eq_err.mp h
      · exact u64Add_ne_err _ _ e h
      · exact sumShares_ne_err e _ _ h

theorem additiveFinalizePhase_ne_err (e : String) (pending : AdditivePending) (data : List ℕ) :
    additiveFinalizePhase M pending data ≠ .err e := by
  intro h
  unfold additiveFinalizePhase at h
  split at h
  · obtain h | ⟨a, -, h⟩ := Outcome.bind_eq_err.mp h
    · exact Outcome.unwrap_ne_err h
    · exact absurd h (by simp)
  · obtain h | ⟨a, -, h⟩ := Outcome.bind_eq_err.mp h
    · exact Outcome.unwrap_ne_err h
    · exact absurd h (by simp)
  · exact absurd h (by simp)
  · exact absurd h (by simp)
  · obtain h | ⟨a, -, h⟩ := Outcome.bind_eq_err.mp h
    · exact sumShares_ne_err e _ _ h
    · exact absurd h (by simp)

theorem mapErr_ne_err {α : Type} {x : Outcome String α} (hx : ∀ e, x ≠ .err e) (f : Fault) :
    x.mapErr schemeFault ≠ .err f := by
  cases x with
  | err e => exact absurd rfl (hx e)
  | ok a => simp [Outcome.mapErr]
  | panic => simp [Outcome.mapErr]
  | hang => simp [Outcome.mapErr]

theorem networkPhase_ne_err (f : Fault) (op : AdditiveOperation) :
    Act.Avoids (fun _ => True) f
      (networkPhase scheme op : Act (Exec AdditiveOperation ℕ ℕ AdditiveContext AdditivePending N) Fault _) := by
  intro s _
  refine ⟨?_, trivial⟩
  obtain ⟨ins, r, context, hphase, hrun⟩ | hrun := networkPhase_cases scheme op s
  · obtain rfl := congrArg Prod.fst hphase
    rw [hrun]
    exact mapErr_ne_err (fun e => (additiveNetworkPhase_ne_err e op ins s.context trivial).1) f
  · simp [hrun]

theorem finalizePhase_ne_err (f : Fault) (op : AdditiveOperation) (pending : AdditivePending) (data : List ℕ) :
    Act.Avoids (fun _ => True) f
      (finalizePhase scheme op pending data :
        Act (Exec AdditiveOperation ℕ ℕ AdditiveContext AdditivePending N) Fault _) :=
  fun _ _ => ⟨mapErr_ne_err (fun e => additiveFinalizePhase_ne_err e pending data) f, trivial⟩

theorem doLocalOperations_ne_err (f : Fault) (round : Round AdditiveOperation) :
    Act.Avoids (fun _ => True) f
      (doLocalOperations scheme round :
        Act (Exec AdditiveOperation ℕ ℕ AdditiveContext AdditivePending N) Fault Unit) :=
  doLocalOperations_avoids (fun _ _ => id) (networkPhase_ne_err scheme f) (finalizePhase_ne_err scheme f) round

theorem networkPhases_ne_err (f : Fault) (ops : List AdditiveOperation) (batch : Batch ℕ AdditivePending) :
    Act.Avoids (fun _ => True) f
      (networkPhases scheme ops batch :
        Act (Exec AdditiveOperation ℕ ℕ AdditiveContext AdditivePending N) Fault _) :=
  networkPhases_avoids (networkPhase_ne_err scheme f) ops batch

theorem finishNetworkOperations_ne_err (f : Fault) (ops : List AdditiveOperation)
    (batch : Batch ℕ AdditivePending) (data : List (List ℕ)) :
    Act.Avoids (fun _ => True) f
      (finishNetworkOperations scheme ops batch data :
        Act (Exec AdditiveOperation ℕ ℕ AdditiveContext AdditivePending N) Fault Unit) :=
  finishNetworkOperations_avoids (fun _ _ => id) (finalizePhase_ne_err scheme f) ops batch data

end

end MpcCore
