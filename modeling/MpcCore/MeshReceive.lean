import MpcCore.MeshNetwork
import Mathlib.Algebra.Order.BigOperators.Group.List
import Mathlib.Algebra.Order.Group.Nat

/-! # What a bulk receive returns

`recv_objects_many` over the channels of a mesh network, for any bytes that arrive.

* `MeshNetwork.recvObjectsMany_ok`: a success has taken one message from each peer that the requests
  name, and has cut it into the batches of that peer's requests; the order of the groups decides
  nothing.
* `MeshNetwork.getsWhatItAsked_iff`: when the peers have sent what the requests ask for, the receive
  succeeds exactly when no request asks for zero objects. -/

namespace MpcCore

namespace MeshNetwork

variable {σ T : Type} [ByteStream σ]

/-- The channel yields one message, which holds these objects. -/
def ReceivesMessage (fromBytes : List UInt8 → Except String (List T)) (channel : SecureStream σ) (objects : List T)
    (len : ℕ) (channel' : SecureStream σ) : Prop :=
  ∃ data, channel.recv = (.ok (data, len), channel') ∧ fromBytes data = .ok objects

variable {fromBytes : List UInt8 → Except String (List T)} {requests : List ReceiveRequest} {order : List ℕ}
  {net net' : MeshNetwork σ}

/-! ### One task -/

theorem recvTask_eq_ok {counts : List (ℕ × Option ℕ+)} {p : ℕ} {c : SecureStream σ}
    {d : Transferred σ (List (ℕ × List T))} : recvTask fromBytes counts p c = .ok d ↔
      ∃ objects, ReceivesMessage fromBytes c objects d.len d.channel ∧ splitObjects counts objects = .ok d.value ∧
        d.peer = p := by
  rcases hr : c.recv with ⟨received, c'⟩
  constructor
  · intro h
    simp only [recvTask, hr] at h
    obtain ⟨⟨data, len⟩, rfl, hdata⟩ := Outcome.bind_eq_ok.mp h
    split at hdata
    · cases hdata
    · next objects hdec =>
        obtain ⟨chunks, hsplit, hd⟩ := Outcome.bind_eq_ok.mp hdata
        obtain rfl := Outcome.ok.inj hd
        exact ⟨objects, ⟨data, hr, hdec⟩, hsplit, rfl⟩
  · rintro ⟨objects, ⟨data, hrecv, hdec⟩, hsplit, rfl⟩
    obtain ⟨rfl, rfl⟩ := Prod.mk.inj (hr.symm.trans hrecv)
    simp only [recvTask, hr, Outcome.ok_bind, hdec, hsplit]

theorem recv_done {p : ℕ} {d : Transferred σ (List (ℕ × List T))} :
    net.done (startRecv fromBytes requests) p = some d ↔
      ∃ c objects, net.channel p = some c ∧ ReceivesMessage fromBytes c objects d.len d.channel ∧
        splitObjects (requestsFrom requests p) objects = .ok d.value ∧ d.peer = p := by
  rw [done_eq_some, task_eq_some]
  simp only [startRecv, Except.ok.injEq, recvTask_eq_ok]
  constructor
  · rintro ⟨c, hc, objects, h⟩
    exact ⟨c, objects, hc, h⟩
  · rintro ⟨c, objects, hc, h⟩
    exact ⟨c, hc, objects, h⟩

theorem recv_peer (p : ℕ) (c : SecureStream σ) (d : Transferred σ (List (ℕ × List T)))
    (h : startRecv fromBytes requests p c = .ok (.ok d)) : d.peer = p := by
  obtain ⟨_, -, -, hp⟩ := recvTask_eq_ok.mp (Except.ok.inj h)
  exact hp

theorem splitObjects_length : ∀ {counts : List (ℕ × Option ℕ+)} {objects : List T} {chunks : List (ℕ × List T)},
    splitObjects counts objects = .ok chunks → objects.length = (counts.map fun c => expectedCount c.2).sum
  | [], objects, chunks, h => by
      simp only [splitObjects] at h
      split at h
      · next h0 => simpa using h0
      · cases h
  | (index, count) :: counts, objects, chunks, h => by
      simp only [splitObjects] at h
      split at h
      · cases h
      · next hle =>
          obtain ⟨rest, hrest, -⟩ := Outcome.bind_eq_ok.mp h
          have hlen := splitObjects_length hrest
          rw [List.length_drop] at hlen
          simp only [List.map_cons, List.sum_cons]
          omega

theorem sum_requestsFrom (p : ℕ) : ∀ (requests : List ReceiveRequest) (start : ℕ),
    (((requests.zipIdx start).filterMap fun (req, index) =>
        if req.fromId = p then some (index, req.count) else none).map fun c => expectedCount c.2).sum =
      ((requests.filter fun req => req.fromId = p).map fun req => expectedCount req.count).sum
  | [], _ => rfl
  | req :: requests, start => by
      have ih := sum_requestsFrom p requests (start + 1)
      rw [List.zipIdx_cons, List.filterMap_cons, List.filter_cons]
      by_cases hp : req.fromId = p
      · simpa [hp] using ih
      · simpa [hp] using ih

/-! ### All tasks -/

/-- Messages of the lengths that are asked for are made of the batches of some items, one for each request. -/
theorem exists_items_of_messages (hord : IsGroupOrder (requests.map ReceiveRequest.fromId) order)
    (h : ∀ p ∈ order, ∃ c objects len c', net.channel p = some c ∧ ReceivesMessage fromBytes c objects len c' ∧
      objects.length = ((requests.filter fun req => req.fromId = p).map fun req => expectedCount req.count).sum) :
    ∃ items : List (ReceiveRequest × List T), items.map Prod.fst = requests ∧
      (∀ item ∈ items, item.2.length = expectedCount item.1.count) ∧
      ∀ p ∈ order, ∃ c len c', net.channel p = some c ∧ ReceivesMessage fromBytes c (objectsFrom items p) len c' := by
  have hobjects : ∀ p, ∃ objects : List T,
      objects.length = ((requests.filter fun req => req.fromId = p).map fun req => expectedCount req.count).sum ∧
      (p ∈ order → ∃ c len c', net.channel p = some c ∧ ReceivesMessage fromBytes c objects len c') := by
    intro p
    by_cases hp : p ∈ order
    · obtain ⟨c, objects, len, c', hc, hrecv, hlen⟩ := h p hp
      exact ⟨objects, hlen, fun _ => ⟨c, len, c', hc, hrecv⟩⟩
    · have hnil : (requests.filter fun req => req.fromId = p) = [] := by
        refine List.filter_eq_nil_iff.mpr fun req hreq => ?_
        have hne : req.fromId ≠ p := fun h =>
          hp (hord.mem_iff.mpr (List.mem_dedup.mpr (List.mem_map.mpr ⟨req, hreq, h⟩)))
        simpa using hne
      exact ⟨[], by rw [hnil]; rfl, fun h => absurd h hp⟩
  choose objects hlen hrecv using hobjects
  obtain ⟨items, hfst, hcount, hobj⟩ := exists_items requests objects hlen
  refine ⟨items, hfst, hcount, fun p hp => ?_⟩
  rw [hobj p]
  exact hrecv p hp

theorem exists_items_of_done (hord : IsGroupOrder (requests.map ReceiveRequest.fromId) order)
    (hdone : ∀ p ∈ order, (net.done (startRecv fromBytes requests) p).isSome = true) :
    ∃ items : List (ReceiveRequest × List T), items.map Prod.fst = requests ∧
      (∀ item ∈ items, item.2.length = expectedCount item.1.count) ∧
      ∀ p ∈ order, ∃ c len c', net.channel p = some c ∧ ReceivesMessage fromBytes c (objectsFrom items p) len c' := by
  refine exists_items_of_messages hord fun p hp => ?_
  obtain ⟨d, hd⟩ := Option.isSome_iff_exists.mp (hdone p hp)
  obtain ⟨c, objects, hc, hrecv, hsplit, -⟩ := recv_done.mp hd
  refine ⟨c, objects, d.len, d.channel, hc, hrecv, ?_⟩
  rw [splitObjects_length hsplit]
  exact sum_requestsFrom p requests 0

/-- What is done with tasks that hand back the batches of some items. -/
theorem finishRecv_eq {items : List (ReceiveRequest × List T)} (hfst : items.map Prod.fst = requests)
    (hord : IsGroupOrder (requests.map ReceiveRequest.fromId) order)
    (hvalue : ∀ p ∈ order, ∃ d, net.done (startRecv fromBytes requests) p = some d ∧
      d.value = chunksFrom items p 0) :
    finishRecv requests.length (order.filterMap (net.done (startRecv fromBytes requests))) (net.without order) =
      (.ok (items.map Prod.snd,
        ((order.filterMap (net.done (startRecv fromBytes requests))).map Transferred.len).sum),
        net.settled (startRecv fromBytes requests) order) := by
  have hnd : order.Nodup := hord.nodup_iff.mpr (List.nodup_dedup _)
  have hlen : items.length = requests.length := by rw [← hfst, List.length_map]
  have hplace := placeObjects_chunks hnd fun item hitem => hord.mem_iff.mpr <| List.mem_dedup.mpr <|
    List.mem_map_of_mem (f := ReceiveRequest.fromId) (hfst ▸ List.mem_map_of_mem (f := Prod.fst) hitem)
  rw [← flatMap_value hvalue, hlen] at hplace
  have hpeers : ((order.filterMap (net.done (startRecv fromBytes requests))).map Transferred.peer).Nodup := by
    rw [map_peer recv_peer order fun p hp => by
      obtain ⟨d, hd, -⟩ := hvalue p hp
      rw [hd]
      rfl]
    exact hnd
  have hcollect := collectResults_eq _ 0 _ _ (net.without order) hpeers (fun d hd => slot_empty recv_peer hd) hplace
  rw [finishRecv, Act.bind_of_ok hcollect]
  simp only [allPlaced_map_some, Act.ret_ok_bind, Act.ret_apply, Nat.zero_add, settled]

/-- **The receive of messages that hold what is asked for.** -/
theorem recvObjectsMany_eq {items : List (ReceiveRequest × List T)} (hfst : items.map Prod.fst = requests)
    (hcount : ∀ item ∈ items, item.2.length = expectedCount item.1.count)
    (hord : IsGroupOrder (requests.map ReceiveRequest.fromId) order)
    (hrecv : ∀ p ∈ order, ∃ c len c', net.channel p = some c ∧
      ReceivesMessage fromBytes c (objectsFrom items p) len c') {r : Outcome String (List (List T) × ℕ)} :
    RecvObjectsMany fromBytes requests order net r net' ↔
      r = .ok (items.map Prod.snd,
        ((order.filterMap (net.done (startRecv fromBytes requests))).map Transferred.len).sum) ∧
      net' = net.settled (startRecv fromBytes requests) order := by
  have hnd : order.Nodup := hord.nodup_iff.mpr (List.nodup_dedup _)
  have hsplit : ∀ p, splitObjects (requestsFrom requests p) (objectsFrom items p) = .ok (chunksFrom items p 0) := by
    intro p
    rw [← hfst]
    exact splitObjects_eq p 0 hcount
  have hvalue : ∀ p ∈ order, ∃ d, net.done (startRecv fromBytes requests) p = some d ∧
      d.value = chunksFrom items p 0 := by
    intro p hp
    obtain ⟨c, len, c', hc, hmsg⟩ := hrecv p hp
    exact ⟨⟨len, p, c', chunksFrom items p 0⟩, recv_done.mpr ⟨c, _, hc, hmsg, hsplit p, rfl⟩, rfl⟩
  have hdone : ∀ p ∈ order, (net.done (startRecv fromBytes requests) p).isSome = true := by
    intro p hp
    obtain ⟨d, hd, -⟩ := hvalue p hp
    rw [hd]
    rfl
  have hends : ∀ {r net'}, RecvObjectsMany fromBytes requests order net r net' →
      r = .ok (items.map Prod.snd,
        ((order.filterMap (net.done (startRecv fromBytes requests))).map Transferred.len).sum) ∧
      net' = net.settled (startRecv fromBytes requests) order := by
    intro r net' h
    have hfinish := (finishRecv_eq hfst hord hvalue).symm.trans (BulkTransfer.of_done hnd hdone h)
    exact ⟨(Prod.mk.inj hfinish).1.symm, (Prod.mk.inj hfinish).2.symm⟩
  constructor
  · exact hends
  · rintro ⟨rfl, rfl⟩
    obtain ⟨r, net', h⟩ :=
      BulkTransfer.exists_outcome (startRecv fromBytes requests) (finishRecv requests.length) hnd net
    obtain ⟨rfl, rfl⟩ := hends h
    exact h

/-- **A bulk receive keeps order and channels.** -/
theorem recvObjectsMany_ok (hord : IsGroupOrder (requests.map ReceiveRequest.fromId) order)
    {batches : List (List T)} {len : ℕ} (h : RecvObjectsMany fromBytes requests order net (.ok (batches, len)) net') :
    batches.length = requests.length ∧
    (∀ item ∈ requests.zip batches, item.2.length = expectedCount item.1.count) ∧
    (∀ p ∈ requests.map ReceiveRequest.fromId, ∃ c n c', net.channel p = some c ∧
      ReceivesMessage fromBytes c (objectsFrom (requests.zip batches) p) n c' ∧ net'.channel p = some c') ∧
    (∀ p ∉ requests.map ReceiveRequest.fromId, net'.channel p = net.channel p) ∧
    (∀ p, (net'.channel p).isSome = (net.channel p).isSome) ∧
    ∀ order' r' net'', IsGroupOrder (requests.map ReceiveRequest.fromId) order' →
      (RecvObjectsMany fromBytes requests order' net r' net'' ↔ r' = .ok (batches, len) ∧ net'' = net') := by
  have hnd : order.Nodup := hord.nodup_iff.mpr (List.nodup_dedup _)
  have hmem : ∀ p, p ∈ order ↔ p ∈ requests.map ReceiveRequest.fromId := fun p =>
    hord.mem_iff.trans List.mem_dedup
  have hdone := BulkTransfer.done_of_ok hnd h
  obtain ⟨items, hfst, hcount, hrecv⟩ := exists_items_of_done hord hdone
  obtain ⟨hok, rfl⟩ := (recvObjectsMany_eq hfst hcount hord hrecv).mp h
  obtain ⟨rfl, rfl⟩ := Prod.mk.inj (Outcome.ok.inj hok)
  have hzip : requests.zip (items.map Prod.snd) = items := by
    rw [← hfst, List.zip_map']
    exact List.map_id _
  have hchannel : ∀ p ∈ order, ∃ c n c', net.channel p = some c ∧
      ReceivesMessage fromBytes c (objectsFrom items p) n c' ∧
      (net.settled (startRecv fromBytes requests) order).channel p = some c' := by
    intro p hp
    obtain ⟨d, hd⟩ := Option.isSome_iff_exists.mp (hdone p hp)
    obtain ⟨c, n, c', hc, data, hmsg, hdec⟩ := hrecv p hp
    obtain ⟨c₁, objects, hc₁, ⟨data', hmsg', -⟩, -⟩ := recv_done.mp hd
    obtain rfl : c = c₁ := Option.some.inj (hc.symm.trans hc₁)
    refine ⟨c, n, c', hc, ⟨data, hmsg, hdec⟩, ?_⟩
    rw [channel_settled recv_peer hnd hdone hp hd, (Prod.mk.inj (hmsg'.symm.trans hmsg)).2]
  have hother : ∀ p ∉ order, (net.settled (startRecv fromBytes requests) order).channel p = net.channel p :=
    fun p hp => channel_settled_ne recv_peer hdone hp
  rw [hzip]
  refine ⟨?_, hcount, fun p hp => hchannel p ((hmem p).mpr hp), fun p hp => hother p fun h => hp ((hmem p).mp h),
    fun p => ?_, fun order' r' net'' hord' => ?_⟩
  · rw [List.length_map, ← hfst, List.length_map]
  · by_cases hp : p ∈ order
    · obtain ⟨c, n, c', hc, -, hc'⟩ := hchannel p hp
      rw [hc, hc']
      rfl
    · rw [hother p hp]
  · have hperm : order'.Perm order := hord'.trans hord.symm
    have hsum := ((hperm.filterMap (net.done (startRecv fromBytes requests))).map Transferred.len).sum_nat
    rw [recvObjectsMany_eq hfst hcount hord' fun p hp => hrecv p (hperm.mem_iff.mp hp),
      settled_perm recv_peer hnd hdone hperm, hsum]

/-- The bytes still to be read, and those that were written; a read of more than there is waits. -/
structure OpenPipe where
  unread : List UInt8
  written : List UInt8

instance : ByteStream OpenPipe where
  writeAll bytes pipe := (.ok (), { pipe with written := pipe.written ++ bytes })
  readExact len pipe :=
    if len ≤ pipe.unread.length then (.ok (pipe.unread.take len), { pipe with unread := pipe.unread.drop len })
    else (.hang, pipe)

/-- The packet that carries these bytes. -/
def packet (data : List UInt8) : List UInt8 := SecureStream.totalLenBytes data ++ (data ++ List.replicate 16 0)

/-- A channel with these bytes to read, and the number of messages it has yielded. -/
def channelWith (unread : List UInt8) (recvCounter : ℕ) : SecureStream OpenPipe :=
  ⟨⟨unread, []⟩, tagCipher, 0, recvCounter, .initiator, []⟩

/-- Party 0 of three, with the channels to the other two. -/
def threeParties (first second : SecureStream OpenPipe) : MeshNetwork OpenPipe :=
  ⟨0, 3, [none, some first, some second]⟩

/-- Two objects from one party and one from another, requested in turns. -/
def turnsWanted : List (ℕ × ℕ) := [(1, 1), (2, 1), (1, 1)]

/-- The messages that answer these requests are on their way. -/
def turnsBefore : MeshNetwork OpenPipe := threeParties (channelWith (packet [5, 6]) 0) (channelWith (packet [7]) 0)

@[inherit_doc turnsBefore]
def turnsAfter : MeshNetwork OpenPipe := threeParties (channelWith [] 1) (channelWith [] 1)

/-- What the tasks hand back, the second party's first. -/
def turnsDone : List (Transferred OpenPipe (List (ℕ × List UInt8))) :=
  [⟨21, 2, channelWith [] 1, [(1, [7])]⟩, ⟨22, 1, channelWith [] 1, [(0, [5]), (2, [6])]⟩]

/-- `ReceiveRequest::new(from, count)` for each of these pairs. -/
def requestsOf (wanted : List (ℕ × ℕ)) : List ReceiveRequest := wanted.map fun w => ReceiveRequest.new w.1 w.2

theorem recv_turns : RecvObjectsMany .ok (requestsOf turnsWanted) [2, 1] turnsBefore (.ok ([[5], [7], [6]], 43))
    turnsAfter := by
  have htasks : startTasks (startRecv .ok (requestsOf turnsWanted)) [2, 1] [] turnsBefore =
      (.ok (turnsDone.map .ok), ⟨0, 3, [none, none, none]⟩) := rfl
  exact .joined htasks (.ok turnsDone) rfl

theorem recvObjectsMany_ok_turns : ([[5], [7], [6]] : List (List UInt8)).length = (requestsOf turnsWanted).length ∧
    ∀ order' r' net'', IsGroupOrder ((requestsOf turnsWanted).map ReceiveRequest.fromId) order' →
      (RecvObjectsMany .ok (requestsOf turnsWanted) order' turnsBefore r' net'' ↔
        r' = .ok ([[5], [7], [6]], 43) ∧ net'' = turnsAfter) := by
  have hord : IsGroupOrder ((requestsOf turnsWanted).map ReceiveRequest.fromId) [2, 1] := by
    unfold IsGroupOrder
    decide
  obtain ⟨hlen, -, -, -, -, hrun⟩ := recvObjectsMany_ok hord recv_turns
  exact ⟨hlen, hrun⟩

/-! ### Requests that are answered -/

/-- The number of objects that are requested from a peer. -/
def totalFrom (wanted : List (ℕ × ℕ)) (p : ℕ) : ℕ := ((wanted.filter fun w => w.1 = p).map Prod.snd).sum

/-- Each peer has sent one message with the objects that are requested from it, and nothing where none
are. -/
structure Answered (fromBytes : List UInt8 → Except String (List T)) (wanted : List (ℕ × ℕ)) (net : MeshNetwork σ) :
    Prop where
  sent : ∀ p, 0 < totalFrom wanted p → ∃ c objects len c', net.channel p = some c ∧
    ReceivesMessage fromBytes c objects len c' ∧ objects.length = totalFrom wanted p
  silent : ∀ p c, totalFrom wanted p = 0 → net.channel p = some c → c.recv.1 = .hang

/-- Whatever the order of the groups, the receive succeeds, and each batch has the count its request was
built with. -/
def GetsWhatItAsked (fromBytes : List UInt8 → Except String (List T)) (wanted : List (ℕ × ℕ))
    (net : MeshNetwork σ) : Prop :=
  ∀ order, IsGroupOrder ((requestsOf wanted).map ReceiveRequest.fromId) order →
    ∃ batches len net', batches.map List.length = wanted.map Prod.snd ∧
      ∀ r net'', RecvObjectsMany fromBytes (requestsOf wanted) order net r net'' ↔ r = .ok (batches, len) ∧ net'' = net'

theorem expectedCount_new (p count : ℕ) : expectedCount (ReceiveRequest.new p count).count = max count 1 := by
  cases count with
  | zero => rfl
  | succ count => exact (Nat.max_eq_left (Nat.succ_le_succ (Nat.zero_le count))).symm

theorem sum_expected (wanted : List (ℕ × ℕ)) (p : ℕ) :
    (((requestsOf wanted).filter fun req => req.fromId = p).map fun req => expectedCount req.count).sum =
      ((wanted.filter fun w => w.1 = p).map fun w => max w.2 1).sum := by
  induction wanted with
  | nil => rfl
  | cons w wanted ih =>
      have hfrom : (ReceiveRequest.new w.1 w.2).fromId = w.1 := rfl
      rw [requestsOf, List.map_cons, List.filter_cons, List.filter_cons, ← requestsOf, hfrom]
      by_cases hp : w.1 = p
      · simp only [hp, decide_true, if_true, List.map_cons, List.sum_cons, ih, expectedCount_new]
      · simp only [hp, decide_false, Bool.false_eq_true, if_false, ih]

theorem sum_max_eq {wanted : List (ℕ × ℕ)} (hpos : ∀ w ∈ wanted, 0 < w.2) (p : ℕ) :
    ((wanted.filter fun w => w.1 = p).map fun w => max w.2 1).sum = totalFrom wanted p := by
  rw [totalFrom]
  congr 1
  refine List.map_congr_left fun w hw => ?_
  have := hpos w (List.mem_filter.mp hw).1
  omega

/-- A request for zero objects makes the receive look for more than was asked for. -/
theorem sum_max_lt {wanted : List (ℕ × ℕ)} {w : ℕ × ℕ} (hw : w ∈ wanted) (hzero : w.2 = 0) :
    totalFrom wanted w.1 < ((wanted.filter fun v => v.1 = w.1).map fun w => max w.2 1).sum := by
  have hmem : w ∈ wanted.filter fun v => v.1 = w.1 := List.mem_filter.mpr ⟨hw, by simp⟩
  unfold totalFrom
  refine List.sum_lt_sum _ _ (fun v _ => le_max_left _ _) ⟨w, hmem, ?_⟩
  rw [hzero]
  exact Nat.one_pos

theorem not_done_of_zero {wanted : List (ℕ × ℕ)} (h : Answered fromBytes wanted net) {w : ℕ × ℕ} (hw : w ∈ wanted)
    (hzero : w.2 = 0) : net.done (startRecv fromBytes (requestsOf wanted)) w.1 = none := by
  rw [Option.eq_none_iff_forall_not_mem]
  intro d hd
  obtain ⟨c, objects, hc, ⟨data, hrecv, hdec⟩, hsplit, -⟩ := recv_done.mp hd
  have hlen := splitObjects_length hsplit
  rw [requestsFrom, sum_requestsFrom, sum_expected] at hlen
  have hlt := sum_max_lt hw hzero
  by_cases htotal : 0 < totalFrom wanted w.1
  · -- its message is shorter than the receive expects
    obtain ⟨c₁, objects₁, _, _, hc₁, ⟨data₁, hrecv₁, hdec₁⟩, hlen₁⟩ := h.sent w.1 htotal
    obtain rfl : c = c₁ := Option.some.inj (hc.symm.trans hc₁)
    obtain ⟨hdata, -⟩ := Prod.mk.inj (Outcome.ok.inj (Prod.mk.inj (hrecv.symm.trans hrecv₁)).1)
    rw [hdata, hdec₁] at hdec
    obtain rfl := Except.ok.inj hdec
    omega
  · have hhang := h.silent w.1 c (by omega) hc
    rw [hrecv] at hhang
    cases hhang

theorem exists_items_of_answered {wanted : List (ℕ × ℕ)} (h : Answered fromBytes wanted net)
    (hpos : ∀ w ∈ wanted, 0 < w.2) (hord : IsGroupOrder ((requestsOf wanted).map ReceiveRequest.fromId) order) :
    ∃ items : List (ReceiveRequest × List T), items.map Prod.fst = requestsOf wanted ∧
      (∀ item ∈ items, item.2.length = expectedCount item.1.count) ∧
      ∀ p ∈ order, ∃ c len c', net.channel p = some c ∧ ReceivesMessage fromBytes c (objectsFrom items p) len c' := by
  refine exists_items_of_messages hord fun p hp => ?_
  rw [sum_expected, sum_max_eq hpos]
  apply h.sent
  -- a peer that is named is asked for something
  obtain ⟨req, hreq, rfl⟩ := List.mem_map.mp (List.mem_dedup.mp (hord.mem_iff.mp hp))
  obtain ⟨w, hw, rfl⟩ := List.mem_map.mp hreq
  have hle : w.2 ≤ totalFrom wanted w.1 := List.le_sum_of_mem
    (List.mem_map_of_mem (f := Prod.snd) (List.mem_filter.mpr ⟨hw, by simp⟩))
  exact (hpos w hw).trans_le hle

/-- **The requests that get what they ask for.** -/
theorem getsWhatItAsked_iff {wanted : List (ℕ × ℕ)} (h : Answered fromBytes wanted net) :
    GetsWhatItAsked fromBytes wanted net ↔ ∀ w ∈ wanted, 0 < w.2 := by
  constructor
  · intro hgets w hw
    by_contra hzero
    obtain ⟨batches, len, net', -, hrun⟩ := hgets _ (List.Perm.refl _)
    have hnd : ((requestsOf wanted).map ReceiveRequest.fromId).dedup.Nodup := List.nodup_dedup _
    have hw' : w.1 ∈ ((requestsOf wanted).map ReceiveRequest.fromId).dedup := by
      rw [List.mem_dedup, requestsOf, List.map_map]
      exact List.mem_map.mpr ⟨w, hw, rfl⟩
    have hdone := BulkTransfer.done_of_ok hnd ((hrun _ _).mpr ⟨rfl, rfl⟩) w.1 hw'
    rw [not_done_of_zero h hw (by omega)] at hdone
    cases hdone
  · intro hpos order hord
    obtain ⟨items, hfst, hcount, hrecv⟩ := exists_items_of_answered h hpos hord
    refine ⟨items.map Prod.snd, _, _, ?_, fun r net'' => recvObjectsMany_eq hfst hcount hord hrecv⟩
    have hlens : (items.map Prod.snd).map List.length =
        (items.map Prod.fst).map fun req => expectedCount req.count := by
      rw [List.map_map, List.map_map]
      exact List.map_congr_left hcount
    rw [hlens, hfst, requestsOf, List.map_map]
    refine List.map_congr_left fun w hw => ?_
    rw [Function.comp_apply, expectedCount_new]
    have := hpos w hw
    omega

theorem answered_turns : Answered .ok turnsWanted turnsBefore where
  sent p hp := by
    have hcases : p = 1 ∨ p = 2 := by
      by_contra hne
      rw [not_or] at hne
      have hzero : totalFrom turnsWanted p = 0 := by simp [totalFrom, turnsWanted, Ne.symm hne.1, Ne.symm hne.2]
      omega
    obtain rfl | rfl := hcases
    · exact ⟨_, [5, 6], 22, channelWith [] 1, rfl, ⟨[5, 6], rfl, rfl⟩, rfl⟩
    · exact ⟨_, [7], 21, channelWith [] 1, rfl, ⟨[7], rfl, rfl⟩, rfl⟩
  silent p c hp hc := by
    match p, hp, hc with
    | 0, _, hc => cases hc
    | 1, hp, _ => cases hp
    | 2, hp, _ => cases hp
    | _ + 3, _, hc => cases hc

theorem getsWhatItAsked_turns : GetsWhatItAsked .ok turnsWanted turnsBefore ↔ ∀ w ∈ turnsWanted, 0 < w.2 :=
  getsWhatItAsked_iff answered_turns

/-- Nothing is requested from a party, so it sends nothing, and the receive waits for it. -/
theorem not_getsWhatItAsked_zero :
    Answered .ok [(1, 0)] (threeParties (channelWith [] 0) (channelWith [] 0)) ∧
    RecvObjectsMany .ok (requestsOf [(1, 0)]) [1] (threeParties (channelWith [] 0) (channelWith [] 0)) .hang
      ⟨0, 3, [none, none, some (channelWith [] 0)]⟩ ∧
    ¬GetsWhatItAsked .ok [(1, 0)] (threeParties (channelWith [] 0) (channelWith [] 0)) := by
  have hanswered : Answered .ok [(1, 0)] (threeParties (channelWith [] 0) (channelWith [] 0)) := by
    constructor
    · intro p hp
      have hzero : totalFrom [(1, 0)] p = 0 := by
        unfold totalFrom
        by_cases h : 1 = p <;> simp [h]
      omega
    · intro p c _ hc
      match p, hc with
      | 0, hc => cases hc
      | 1, hc => obtain rfl := Option.some.inj hc; rfl
      | 2, hc => obtain rfl := Option.some.inj hc; rfl
      | _ + 3, hc => cases hc
  have hhang : RecvObjectsMany .ok (requestsOf [(1, 0)]) [1] (threeParties (channelWith [] 0) (channelWith [] 0)) .hang
      ⟨0, 3, [none, none, some (channelWith [] 0)]⟩ := by
    have htasks : startTasks (startRecv .ok (requestsOf [(1, 0)])) [1] []
        (threeParties (channelWith [] 0) (channelWith [] 0)) =
        (.ok [.hang], ⟨0, 3, [none, none, some (channelWith [] 0)]⟩) := rfl
    exact .joined htasks (.hang (by simp) (by simp)) rfl
  refine ⟨hanswered, hhang, fun hgets => ?_⟩
  obtain ⟨batches, len, net', -, hrun⟩ := hgets [1] (.refl _)
  cases ((hrun _ _).mp hhang).1

end MeshNetwork

end MpcCore
