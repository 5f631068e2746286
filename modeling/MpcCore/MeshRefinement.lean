import MpcCore.AdditiveExchange
import MpcCore.MeshTraffic

/-! # Whole messages and their bytes

The bulk methods of `Link`, on whole messages, and those of `MeshNetwork`, on the streams of its channels.

* `Codec`: `postcard`, of which only the round trip is used.  `Codec.Encodes`: the bytes of a message.
* `sendObjectsMany_link`, `recvObjectsMany_link`: where a method of the mesh succeeds, the method of the link
  returns the same, lengths included, when the messages it finds are those whose bytes the mesh receives.
* `sendObjectsMany_succeeds`, `recvObjectsMany_waits`: the methods of the mesh succeed when the calls on the
  channels do, and wait when some of these do. -/

namespace MpcCore

open SecureStream (u32Len tagLen)

variable {n : ℕ} {Elem : Type}

/-- Serialisation of lists that can be read back. -/
structure Codec (T : Type) where
  toStdvec : List T → Except String (List UInt8)
  fromBytes : List UInt8 → Except String (List T)
  readsBack : ∀ {objs : List T} {bytes : List UInt8}, toStdvec objs = .ok bytes → fromBytes bytes = .ok objs

/-- These bytes are the objects of the message. -/
def Codec.Encodes (codec : Codec Elem) (bytes : List UInt8) (message : Message Elem) : Prop :=
  ∃ objs, message = .objects objs ∧ codec.toStdvec objs = .ok bytes

/-- `size` gives the bytes of a message on the wire. -/
def Codec.Sizes (codec : Codec Elem) (size : Message Elem → ℕ) : Prop :=
  ∀ bytes message, codec.Encodes bytes message → size message = u32Len + (bytes.length + tagLen)

theorem Codec.exists_sizes (codec : Codec Elem) : ∃ size, codec.Sizes size := by
  refine ⟨fun message => match message with
    | .objects objs => match codec.toStdvec objs with
      | .ok bytes => u32Len + (bytes.length + tagLen)
      | .error _ => 0
    | .digests _ => 0, ?_⟩
  rintro bytes message ⟨objs, rfl, hbytes⟩
  simp only [hbytes]

theorem Codec.Encodes.read {codec : Codec Elem} {bytes : List UInt8} {message : Message Elem}
    (h : codec.Encodes bytes message) {objs : List Elem} (hread : codec.fromBytes bytes = .ok objs) :
    message = .objects objs := by
  obtain ⟨objs', rfl, hbytes⟩ := h
  rw [codec.readsBack hbytes] at hread
  rw [Except.ok.inj hread]

theorem foldl_lengths {α : Type} (f : α → ℕ) (l : List α) : l.foldl (fun len a => len + f a) 0 = (l.map f).sum := by
  rw [List.sum_eq_foldl, List.foldl_map]

theorem Link.len_of_recvMany {T : Type} (link : Link n Elem) {link' : Link n Elem} {read : Message Elem → Outcome String (List T)}
    {requests : List ReceiveRequest} {all : List (List T)} {len : ℕ}
    (h : Link.recvMany read requests link = (.ok (all, len), link')) :
    len = ((namedPeers n requests).filterMap fun p => (link.arrived p).head?).foldl (fun len m => len + link.size m) 0 := by
  unfold Link.recvMany at h
  split at h
  · cases (Prod.mk.inj h).1
  · obtain ⟨all', -, heq⟩ := Outcome.bind_eq_ok.mp (Prod.mk.inj h).1
    exact (Prod.mk.inj (Outcome.ok.inj heq)).2.symm

theorem Link.other_of_available {link : Link n Elem} {peers : List ℕ} (h : link.unavailable peers = none) :
    ∀ q ∈ peers, q < n ∧ q ≠ link.id := by
  intro q hq
  have hchannel := List.find?_eq_none.mp h q hq
  simp only [Link.channel] at hchannel
  split at hchannel
  · next hlt =>
      refine ⟨hlt, fun hid => hchannel ?_⟩
      rw [if_pos (Fin.ext hid.symm), Option.isNone_none]
  · simp at hchannel

namespace MeshNetwork

variable {σ : Type} {codec : Codec Elem} {net net' : MeshNetwork σ} {order named : List ℕ} {p : Fin n} {link : Link n Elem}
  {len : ℕ}

theorem groups_perm (hord : IsGroupOrder named order) (hlt : ∀ q ∈ named, q < n) :
    order.Perm (((List.finRange n).filter fun q : Fin n => (q : ℕ) ∈ named).map Fin.val) := by
  have hnd : (((List.finRange n).filter fun q : Fin n => (q : ℕ) ∈ named).map Fin.val).Nodup :=
    ((List.nodup_finRange n).filter _).map fun _ _ => Fin.ext
  refine hord.trans ((List.perm_ext_iff_of_nodup (List.nodup_dedup _) hnd).mpr fun q => ?_)
  rw [List.mem_dedup, List.mem_map]
  constructor
  · intro hq
    exact ⟨⟨q, hlt q hq⟩, List.mem_filter.mpr ⟨List.mem_finRange _, decide_eq_true hq⟩, rfl⟩
  · rintro ⟨x, hx, rfl⟩
    exact of_decide_eq_true (List.mem_filter.mp hx).2

theorem sum_lengths {α : Type} {start : ℕ → SecureStream σ → Except String (Outcome String (Transferred σ α))}
    (hord : IsGroupOrder named order) (hlt : ∀ q ∈ named, q < n) {f : ℕ → ℕ}
    (h : ∀ q ∈ order, ∃ d, net.done start q = some d ∧ d.len = f q) :
    ((order.filterMap (net.done start)).map Transferred.len).sum =
      (((List.finRange n).filter fun q : Fin n => (q : ℕ) ∈ named).map fun q : Fin n => f q).sum := by
  have hlens : ∀ order : List ℕ, (∀ q ∈ order, ∃ d, net.done start q = some d ∧ d.len = f q) →
      (order.filterMap (net.done start)).map Transferred.len = order.map f := by
    intro order
    induction order with
    | nil => intro _; rfl
    | cons q order ih =>
        intro hall
        obtain ⟨d, hd, hlen⟩ := hall q List.mem_cons_self
        rw [List.filterMap_cons_some hd, List.map_cons, List.map_cons, hlen,
          ih fun x hx => hall x (List.mem_cons_of_mem _ hx)]
  rw [hlens order h, ((groups_perm hord hlt).map f).sum_nat, List.map_map]
  rfl

theorem other_of_channel (hlength : net.channels.length = n) (hself : net.channel p = none) {q : ℕ}
    {c : SecureStream σ} (hc : net.channel q = some c) : q < n ∧ q ≠ p := by
  refine ⟨hlength ▸ lt_of_channel hc, ?_⟩
  rintro rfl
  rw [hself] at hc
  cases hc

theorem messageTo_eq (requests : List (SendRequest Elem)) (q : Fin n) : messageTo requests q =
    if (q : ℕ) ∈ requests.map SendRequest.toId then some (.objects (dataTo requests q)) else none := by
  have hempty : (dataTo requests q).isEmpty = true ↔ (q : ℕ) ∉ requests.map SendRequest.toId := by
    rw [List.isEmpty_iff, dataTo, List.map_eq_nil_iff, List.filter_eq_nil_iff]
    simp [eq_comm]
  unfold messageTo
  by_cases hq : (q : ℕ) ∈ requests.map SendRequest.toId
  · rw [if_pos hq, if_neg fun h => hempty.mp h hq]
  · rw [if_neg hq, if_pos (hempty.mpr hq)]

variable [ByteStream σ]

/-- **A bulk send on bytes is a bulk send of messages.** -/
theorem sendObjectsMany_link (link : Link n Elem) {requests : List (SendRequest Elem)} (hlength : net.channels.length = n)
    (hself : net.channel p = none) (hid : link.id = p) (hsize : codec.Sizes link.size)
    (hord : IsGroupOrder (requests.map SendRequest.toId) order)
    (h : SendObjectsMany codec.toStdvec requests order net (.ok len) net') :
    link.sendObjectsMany requests = (.ok len, link.write (messageTo requests)) := by
  obtain ⟨hdone, -, rfl⟩ := sendObjectsMany_settled hord h
  have hsent : ∀ q ∈ order, ∃ d, net.done (startSend codec.toStdvec requests) q = some d ∧
      d.len = link.size (.objects (dataTo requests q)) ∧ q < n ∧ q ≠ p := by
    intro q hq
    obtain ⟨d, hd⟩ := Option.isSome_iff_exists.mp (hdone q hq)
    obtain ⟨c, hc, ht⟩ := task_eq_some.mp (done_eq_some.mp hd)
    obtain ⟨bytes, hbytes, hsend, -⟩ := startSend_eq_ok.mp ht
    obtain ⟨_, _, -, -, -, hlen, -⟩ := SecureStream.send_eq_ok hsend
    exact ⟨d, hd, hlen.trans (hsize bytes _ ⟨_, rfl, hbytes⟩).symm, other_of_channel hlength hself hc⟩
  have hnamed : ∀ q ∈ requests.map SendRequest.toId, q < n ∧ q ≠ p := by
    intro q hq
    obtain ⟨-, -, -, hother⟩ := hsent q (hord.mem_iff.mpr (List.mem_dedup.mpr hq))
    exact hother
  have hopen : link.unavailable (requests.map SendRequest.toId) = none :=
    Link.unavailable_eq_none fun q hq => by rw [hid]; exact hnamed q hq
  have hmessages : (List.finRange n).filterMap (messageTo requests) =
      ((List.finRange n).filter fun q : Fin n => (q : ℕ) ∈ requests.map SendRequest.toId).map fun q =>
        .objects (dataTo requests q) := by
    rw [← List.filterMap_eq_map, List.filterMap_filter]
    refine List.filterMap_congr fun q _ => ?_
    simp only [messageTo_eq, Function.comp_apply, decide_eq_true_eq]
  have hbytes : link.bytes (messageTo requests) =
      ((order.filterMap (net.done (startSend codec.toStdvec requests))).map Transferred.len).sum := by
    have hsum := sum_lengths hord (fun q hq => (hnamed q hq).1) (f := fun q => link.size (.objects (dataTo requests q)))
      fun q hq => by
        obtain ⟨d, hd, hlen, -⟩ := hsent q hq
        exact ⟨d, hd, hlen⟩
    rw [hsum, Link.bytes, foldl_lengths, hmessages, List.map_map]
    rfl
  rw [Link.sendObjectsMany, hopen]
  simp only [hbytes]

omit [ByteStream σ] in
theorem namedPeers_eq (requests : List ReceiveRequest) : namedPeers n requests =
    (List.finRange n).filter fun q : Fin n => (q : ℕ) ∈ requests.map ReceiveRequest.fromId :=
  List.filter_congr fun q _ => by simp [List.any_eq]

theorem named_of_recv {requests : List ReceiveRequest} {received : List (List Elem) × ℕ} (hlength : net.channels.length = n)
    (hself : net.channel p = none) (hord : IsGroupOrder (requests.map ReceiveRequest.fromId) order)
    (h : RecvObjectsMany codec.fromBytes requests order net (.ok received) net') :
    ∀ q ∈ requests.map ReceiveRequest.fromId, q < n ∧ q ≠ p := by
  intro q hq
  obtain ⟨-, -, -, _, -, -, -, hrecv⟩ := recvObjectsMany_settled hord h
  obtain ⟨c, _, _, hc, -⟩ := hrecv q (hord.mem_iff.mpr (List.mem_dedup.mpr hq))
  exact other_of_channel hlength hself hc

/-- **A bulk receive on bytes is a bulk receive of messages**, where the mesh receives the bytes of the messages
that the link has. -/
theorem recvObjectsMany_link (link : Link n Elem) {requests : List ReceiveRequest} {batches : List (List Elem)}
    (hlength : net.channels.length = n) (hself : net.channel p = none) (hid : link.id = p) (hsize : codec.Sizes link.size)
    (harrived : ∀ (q : Fin n) c bytes m c', (q : ℕ) ∈ requests.map ReceiveRequest.fromId → net.channel q = some c →
      c.recv = (.ok (bytes, m), c') → m = u32Len + (bytes.length + tagLen) ∧
        ∃ message, (link.arrived q).head? = some message ∧ codec.Encodes bytes message)
    (hord : IsGroupOrder (requests.map ReceiveRequest.fromId) order)
    (h : RecvObjectsMany codec.fromBytes requests order net (.ok (batches, len)) net') :
    link.recvMany Message.toObjects requests = (.ok (batches, len),
      { link with arrived := fun q =>
          if q ∈ namedPeers n requests then (link.arrived q).tail else link.arrived q }) := by
  have hnamed := named_of_recv hlength hself hord h
  obtain ⟨hdone, -, rfl, items, rfl, rfl, hcount, hrecv⟩ := recvObjectsMany_settled hord h
  have hmem : ∀ q, q ∈ order ↔ q ∈ (items.map Prod.fst).map ReceiveRequest.fromId := fun q =>
    hord.mem_iff.trans List.mem_dedup
  have hopen : link.unavailable ((items.map Prod.fst).map ReceiveRequest.fromId) = none :=
    Link.unavailable_eq_none fun q hq => by rw [hid]; exact hnamed q hq
  have hmessage : ∀ q : Fin n, (q : ℕ) ∈ order → ∃ d, net.done (startRecv codec.fromBytes (items.map Prod.fst)) q =
      some d ∧ (link.arrived q).head? = some (.objects (objectsFrom items q)) ∧
      d.len = link.size (.objects (objectsFrom items q)) := by
    intro q hq
    obtain ⟨d, hd⟩ := Option.isSome_iff_exists.mp (hdone q hq)
    obtain ⟨c, objects, hc, ⟨bytes, hbytes, hread⟩, -⟩ := recv_done.mp hd
    obtain ⟨c₁, m, c', hc₁, bytes', hbytes', hread'⟩ := hrecv q hq
    obtain rfl := Option.some.inj (hc.symm.trans hc₁)
    obtain ⟨rfl, -⟩ := Prod.mk.inj (Outcome.ok.inj (Prod.mk.inj (hbytes.symm.trans hbytes')).1)
    obtain ⟨hlen, message, hhead, hencodes⟩ := harrived q c bytes d.len d.channel ((hmem q).mp hq) hc hbytes
    obtain rfl := hencodes.read hread'
    exact ⟨d, hd, hhead, hlen.trans (hsize _ _ hencodes).symm⟩
  have hread : ∀ q ∈ namedPeers n (items.map Prod.fst), ∃ m, (link.arrived q).head? = some m ∧
      Message.toObjects m = .ok (objectsFrom items q) := by
    intro q hq
    obtain ⟨req, hreq, hfrom⟩ := mem_namedPeers.mp hq
    obtain ⟨d, -, hhead, -⟩ := hmessage q ((hmem q).mpr (List.mem_map.mpr ⟨req, hreq, hfrom⟩))
    exact ⟨_, hhead, rfl⟩
  obtain ⟨len, hlink⟩ := Link.recvMany_eq link Message.toObjects hcount hopen hread
  have hheads : (namedPeers n (items.map Prod.fst)).filterMap (fun q => (link.arrived q).head?) =
      (namedPeers n (items.map Prod.fst)).map fun q => .objects (objectsFrom items q) := by
    rw [← congrFun (List.filterMap_eq_map (f := fun q : Fin n => Message.objects (objectsFrom items q))) _]
    refine List.filterMap_congr fun q hq => ?_
    obtain ⟨req, hreq, hfrom⟩ := mem_namedPeers.mp hq
    obtain ⟨d, -, hhead, -⟩ := hmessage q ((hmem q).mpr (List.mem_map.mpr ⟨req, hreq, hfrom⟩))
    exact hhead
  have hsum := sum_lengths hord (fun q hq => (hnamed q hq).1) (f := fun q => link.size (.objects (objectsFrom items q)))
    fun q hq => by
      obtain ⟨d, hd, -, hlen⟩ := hmessage ⟨q, (hnamed q ((hmem q).mp hq)).1⟩ hq
      exact ⟨d, hd, hlen⟩
  have hlen := link.len_of_recvMany hlink
  rw [hheads, foldl_lengths, List.map_map, namedPeers_eq] at hlen
  rw [hlink, hsum, hlen]
  rfl

/-! ### When the methods succeed or wait -/

/-- **A bulk send succeeds** when the data of each group can be serialised and sent on an open channel. -/
theorem sendObjectsMany_succeeds {requests : List (SendRequest Elem)} {r : Outcome String ℕ}
    (hord : IsGroupOrder (requests.map SendRequest.toId) order)
    (hsend : ∀ q ∈ requests.map SendRequest.toId, ∃ c bytes m c', net.channel q = some c ∧
      codec.toStdvec (dataTo requests q) = .ok bytes ∧ c.send bytes = (.ok m, c'))
    (h : SendObjectsMany codec.toStdvec requests order net r net') : ∃ len, r = .ok len := by
  have hnd : order.Nodup := hord.nodup_iff.mpr (List.nodup_dedup _)
  have hdone : ∀ q ∈ order, (net.done (startSend codec.toStdvec requests) q).isSome = true := by
    intro q hq
    obtain ⟨c, bytes, m, c', hc, hbytes, hsent⟩ := hsend q (List.mem_dedup.mp (hord.mem_iff.mp hq))
    refine Option.isSome_iff_exists.mpr ⟨⟨m, q, c', ()⟩, done_eq_some.mpr (task_eq_some.mpr ⟨c, hc, ?_⟩)⟩
    exact startSend_eq_ok.mpr ⟨bytes, hbytes, hsent, rfl⟩
  have hpeers : ((order.filterMap (net.done (startSend codec.toStdvec requests))).map Transferred.peer).Nodup := by
    rw [map_peer send_peer order hdone]
    exact hnd
  have hfinish := BulkTransfer.of_done hnd hdone h
  rw [finishSend_eq _ 0 _ hpeers fun d hd => slot_empty send_peer hd] at hfinish
  exact ⟨_, (Prod.mk.inj hfinish).1.symm⟩

/-- The task of a channel that has nothing to receive yet waits, and that of one with a message succeeds. -/
theorem recvTask_cases {c : SecureStream σ} {requests : List ReceiveRequest} {q : ℕ}
    (h : c.recv.1 = .hang ∨ ∃ objects m c' chunks, ReceivesMessage codec.fromBytes c objects m c' ∧
      splitObjects (requestsFrom requests q) objects = .ok chunks) :
    (c.recv.1 = .hang ∧ recvTask codec.fromBytes (requestsFrom requests q) q c = .hang) ∨
      ∃ d, recvTask codec.fromBytes (requestsFrom requests q) q c = .ok d := by
  obtain hhang | ⟨objects, m, c', chunks, hmessage, hsplit⟩ := h
  · exact .inl ⟨hhang, by simp only [recvTask, hhang]; rfl⟩
  · exact .inr ⟨⟨m, q, c', chunks⟩, recvTask_eq_ok.mpr ⟨objects, hmessage, hsplit, rfl⟩⟩

/-- **A bulk receive succeeds or waits** when each peer has a channel on which there is nothing to receive yet, or a
message that is split as its requests ask for.  Where it waits there is such a channel with nothing to receive. -/
theorem recvObjectsMany_waits {requests : List ReceiveRequest} {r : Outcome String (List (List Elem) × ℕ)}
    (hord : IsGroupOrder (requests.map ReceiveRequest.fromId) order)
    (hrecv : ∀ q ∈ requests.map ReceiveRequest.fromId, ∃ c, net.channel q = some c ∧ (c.recv.1 = .hang ∨
      ∃ objects m c' chunks, ReceivesMessage codec.fromBytes c objects m c' ∧
        splitObjects (requestsFrom requests q) objects = .ok chunks))
    (h : RecvObjectsMany codec.fromBytes requests order net r net') :
    (∃ received, r = .ok received) ∨
      r = .hang ∧ ∃ q ∈ requests.map ReceiveRequest.fromId, ∃ c, net.channel q = some c ∧ c.recv.1 = .hang := by
  have hnd : order.Nodup := hord.nodup_iff.mpr (List.nodup_dedup _)
  have hmem : ∀ q ∈ order, q ∈ requests.map ReceiveRequest.fromId := fun q hq => List.mem_dedup.mp (hord.mem_iff.mp hq)
  have htask : ∀ q ∈ order, ∃ c, net.channel q = some c ∧ net.task (startRecv codec.fromBytes requests) q =
      some (recvTask codec.fromBytes (requestsFrom requests q) q c) := fun q hq => by
    obtain ⟨c, hc, -⟩ := hrecv q (hmem q hq)
    exact ⟨c, hc, task_eq_some.mpr ⟨c, hc, rfl⟩⟩
  have hready : ∀ q ∈ order, ∀ c, net.channel q = some c →
      (c.recv.1 = .hang ∧ recvTask codec.fromBytes (requestsFrom requests q) q c = .hang) ∨
        ∃ d, recvTask codec.fromBytes (requestsFrom requests q) q c = .ok d := by
    intro q hq c hc
    obtain ⟨c₁, hc₁, hcase⟩ := hrecv q (hmem q hq)
    obtain rfl := Option.some.inj (hc.symm.trans hc₁)
    exact recvTask_cases hcase
  obtain ⟨done, -, hjoin, hfinish⟩ | ⟨before, bad, after, e, rfl, hbad, -⟩ := BulkTransfer.ends hnd h
  · obtain ⟨values, hvalues, rfl⟩ | ⟨rfl, hhang⟩ := hjoin.ok_or_hang fun t ht => by
      obtain ⟨q, hq, ht⟩ := List.mem_filterMap.mp ht
      obtain ⟨c, hc, ht'⟩ := htask q hq
      obtain rfl := Option.some.inj (ht'.symm.trans ht)
      exact (hready q hq c hc).imp And.right id
    · have hall : ∀ q ∈ order, (net.done (startRecv codec.fromBytes requests) q).isSome = true := by
        intro q hq
        obtain ⟨c, -, ht⟩ := htask q hq
        have hin := List.mem_filterMap.mpr ⟨q, hq, ht⟩
        rw [hvalues] at hin
        obtain ⟨d, -, hd⟩ := List.mem_map.mp hin
        rw [done_eq_some.mpr (ht.trans (congrArg some hd.symm))]
        rfl
      obtain ⟨items, hfst, hcount, hmessages⟩ := exists_items_of_done hord hall
      exact .inl ⟨_, ((recvObjectsMany_eq hfst hcount hord hmessages).mp h).1⟩
    · -- the task that waits is one of a channel with nothing to receive
      obtain ⟨q, hq, ht⟩ := List.mem_filterMap.mp hhang
      obtain ⟨c, hc, ht'⟩ := htask q hq
      obtain ⟨hnothing, -⟩ | ⟨d, hd⟩ := hready q hq c hc
      · exact .inr ⟨(Prod.mk.inj hfinish).1.symm, q, hmem q hq, c, hc, hnothing⟩
      · rw [ht', hd] at ht
        cases ht
  · obtain ⟨c, -, ht⟩ := htask bad (by simp)
    rw [hbad] at ht
    cases ht

end MeshNetwork

end MpcCore
