import MpcCore.Scheme
import Mathlib.Data.List.FinRange
import Mathlib.Data.List.Nodup

/-! # One party's end of a mesh network

The bulk methods of `MeshNetwork` as one party sees them, on whole messages.

* A message is what its sender serialised: the digests of the handshake or elements of the scheme.
  `arrived` holds the messages a channel has still to yield, `leaving` those written to it, and
  `size` gives the bytes of a message on the wire.
* Every channel but the party's own is open.  A receive from a channel that yields no message does
  not return.
* The groups of `into_group_map` are taken in the order of the peers.  The chunks of different
  groups go to different positions, so only the choice among several failures depends on the order.
  Only receives that succeed or wait are meant here; `MeshNetwork.RecvObjectsMany` has all the ways one can end.
* `Link.recvMany_eq`: every request gets the chunk that answers it. -/

namespace MpcCore

/-- What a message holds. -/
inductive Message (Elem : Type) where
  | digests (hashes : List (List UInt8))
  | objects (elems : List Elem)
deriving DecidableEq, Repr

/-- `MeshNetwork` at one party. -/
structure Link (n : ℕ) (Elem : Type) where
  id : Fin n
  size : Message Elem → ℕ
  arrived : Fin n → List (Message Elem)
  leaving : Fin n → List (Message Elem)

variable {n : ℕ} {Elem T : Type}

/-- `postcard::from_bytes::<Vec<Vec<u8>>>`. -/
def Message.toDigests : Message Elem → Outcome String (List (List UInt8))
  | digests hashes => .ok hashes
  | objects _ => .err "Deserialization error"

/-- `postcard::from_bytes::<Vec<T>>` at the elements of the scheme. -/
def Message.toObjects : Message Elem → Outcome String (List Elem)
  | digests _ => .err "Deserialization error"
  | objects elems => .ok elems

/-! ### Sending -/

/-- `self.channels.get_mut(peer).and_then(Option::take)` -/
def Link.channel (link : Link n Elem) (peer : ℕ) : Option (Fin n) :=
  if h : peer < n then (if link.id = ⟨peer, h⟩ then none else some ⟨peer, h⟩) else none

/-- The first peer without a channel. -/
def Link.unavailable (link : Link n Elem) (peers : List ℕ) : Option ℕ :=
  peers.find? fun peer => (link.channel peer).isNone

/-- The text of the error for such a peer. -/
def channelError (peer : ℕ) : String := s!"Channel {peer} unavailable or in use"

/-- The group of one peer: the data of its requests. -/
def dataTo (requests : List (SendRequest Elem)) (peer : ℕ) : List Elem :=
  (requests.filter fun req => req.toId = peer).map SendRequest.data

/-- Write one message to each peer that has one. -/
def Link.write (link : Link n Elem) (messages : Fin n → Option (Message Elem)) : Link n Elem :=
  { link with leaving := fun p => link.leaving p ++ (messages p).toList }

/-- The bytes of all messages written. -/
def Link.bytes (link : Link n Elem) (messages : Fin n → Option (Message Elem)) : ℕ :=
  ((List.finRange n).filterMap messages).foldl (fun len m => len + link.size m) 0

/-- The message for one peer: none without a request. -/
def messageTo (requests : List (SendRequest Elem)) (p : Fin n) : Option (Message Elem) :=
  if (dataTo requests p).isEmpty then none else some (.objects (dataTo requests p))

/-- `send_objects_many`. -/
def Link.sendObjectsMany (requests : List (SendRequest Elem)) : Act (Link n Elem) String ℕ := fun link =>
  match link.unavailable (requests.map SendRequest.toId) with
  | some peer => (.err (channelError peer), link)
  | none => (.ok (link.bytes (messageTo requests)), link.write (messageTo requests))

/-- `broadcast_object`. -/
def Link.broadcastObject (hash : List UInt8) : Act (Link n Elem) String ℕ := fun link =>
  let messages := fun p => if p = link.id then none else some (Message.digests [hash])
  (.ok (link.bytes messages), link.write messages)

/-! ### Receiving -/

/-- The group of one peer: the positions and the counts of its requests. -/
def requestsFrom (requests : List ReceiveRequest) (peer : ℕ) : List (ℕ × Option ℕ+) :=
  requests.zipIdx.filterMap fun (req, index) => if req.fromId = peer then some (index, req.count) else none

/-- `count.map(|c| c.get()).unwrap_or(1)` -/
def expectedCount (count : Option ℕ+) : ℕ := (count.map PNat.val).getD 1

/-- The loop that splits the objects of one message according to the counts. -/
def splitObjects : List (ℕ × Option ℕ+) → List T → Outcome String (List (ℕ × List T))
  | [], objects =>
      let left := objects.length
      if left = 0 then .ok [] else .err s!"Count mismatch: {left} objects left over"
  | (index, count) :: counts, objects =>
      let left := objects.length
      let expected := expectedCount count
      if left < expected then
        .err s!"Count mismatch: expected {expected} objects, but only {left} left"
      else
        (splitObjects counts (objects.drop expected)).bind fun chunks =>
          .ok ((index, objects.take expected) :: chunks)

/-- `results[index].replace(objects)`, with the assertion after it. -/
def placeObjects : List (ℕ × List T) → List (Option (List T)) → Outcome String (List (Option (List T)))
  | [], results => .ok results
  | (index, objects) :: chunks, results =>
      match results[index]? with
      | some none => placeObjects chunks (results.set index (some objects))
      | _ => .panic

/-- `assert!(results.iter().all(|x| x.is_some()))`, and the results. -/
def allPlaced : List (Option (List T)) → Outcome String (List (List T))
  | [] => .ok []
  | some objects :: results => (allPlaced results).bind fun all => .ok (objects :: all)
  | none :: _ => .panic

/-- The task of one peer: its message, split. -/
def Link.recvFrom (link : Link n Elem) (read : Message Elem → Outcome String (List T))
    (requests : List ReceiveRequest) (p : Fin n) : Outcome String (List (ℕ × List T)) :=
  match link.arrived p with
  | [] => .hang
  | m :: _ => (read m).bind (splitObjects (requestsFrom requests p))

/-- The tasks of the given peers. -/
def Link.recvAll (link : Link n Elem) (read : Message Elem → Outcome String (List T))
    (requests : List ReceiveRequest) : List (Fin n) → Outcome String (List (ℕ × List T))
  | [] => .ok []
  | p :: ps =>
      (link.recvFrom read requests p).bind fun chunks =>
        (link.recvAll read requests ps).bind fun rest => .ok (chunks ++ rest)

/-- The peers that the requests name. -/
def namedPeers (n : ℕ) (requests : List ReceiveRequest) : List (Fin n) :=
  (List.finRange n).filter fun p => requests.any fun req => req.fromId = p

instance (requests : List ReceiveRequest) : DecidablePred fun p : Fin n => p ∈ namedPeers n requests :=
  fun _ => inferInstance

/-- `recv_objects_many`, as far as its tasks succeed or wait.  It waits for all peers and fails as the first of
them does, where `try_join_all` fails as soon as one task does. -/
def Link.recvMany (read : Message Elem → Outcome String (List T)) (requests : List ReceiveRequest) :
    Act (Link n Elem) String (List (List T) × ℕ) := fun link =>
  match link.unavailable (requests.map ReceiveRequest.fromId) with
  | some peer => (.err (channelError peer), link)
  | none =>
      let peers := namedPeers n requests
      let results := (link.recvAll read requests peers).bind fun chunks =>
        (placeObjects chunks (List.replicate requests.length none)).bind allPlaced
      (results.bind fun all =>
          .ok (all, (peers.filterMap fun p => (link.arrived p).head?).foldl (fun len m => len + link.size m) 0),
        { link with arrived := fun p => if p ∈ peers then (link.arrived p).tail else link.arrived p })

instance : Network (Link n Elem) Elem where
  nPlayers _ := n
  myId link := link.id
  broadcastObject := Link.broadcastObject
  recvHashesMany := Link.recvMany Message.toDigests
  sendObjectsMany := Link.sendObjectsMany
  recvObjectsMany := Link.recvMany Message.toObjects

/-! ### What a bulk receive returns -/

/-- The chunks of one peer's group, when every request is paired with the chunk that answers it. -/
def chunksFrom (items : List (ReceiveRequest × List T)) (peer start : ℕ) : List (ℕ × List T) :=
  (items.zipIdx start).filterMap fun (item, index) =>
    if item.1.fromId = peer then some (index, item.2) else none

/-- The objects of one peer's message. -/
def objectsFrom (items : List (ReceiveRequest × List T)) (peer : ℕ) : List T :=
  (items.filter fun item => item.1.fromId = peer).flatMap Prod.snd

theorem splitObjects_eq : ∀ {items : List (ReceiveRequest × List T)} (peer start : ℕ),
    (∀ item ∈ items, item.2.length = expectedCount item.1.count) →
      splitObjects (((items.map Prod.fst).zipIdx start).filterMap fun (req, index) =>
        if req.fromId = peer then some (index, req.count) else none) (objectsFrom items peer) =
        .ok (chunksFrom items peer start)
  | [], _, _, _ => by simp [splitObjects, chunksFrom, objectsFrom]
  | (req, chunk) :: items, peer, start, h => by
      have ih := splitObjects_eq peer (start + 1) fun item hitem =>
        h item (List.mem_cons_of_mem _ hitem)
      have hlen : chunk.length = expectedCount req.count := h _ List.mem_cons_self
      by_cases hp : req.fromId = peer
      · have hobj : objectsFrom ((req, chunk) :: items) peer = chunk ++ objectsFrom items peer := by
          simp [objectsFrom, hp]
        have hchunks : chunksFrom ((req, chunk) :: items) peer start =
            (start, chunk) :: chunksFrom items peer (start + 1) := by
          simp [chunksFrom, List.zipIdx_cons, hp]
        rw [hobj, hchunks, List.map_cons, List.zipIdx_cons, List.filterMap_cons]
        simp only [hp, if_true, splitObjects, ← hlen]
        rw [if_neg (by simp), List.drop_left, List.take_left, ih]
        rfl
      · have hobj : objectsFrom ((req, chunk) :: items) peer = objectsFrom items peer := by
          simp [objectsFrom, hp]
        have hchunks : chunksFrom ((req, chunk) :: items) peer start = chunksFrom items peer (start + 1) := by
          simp [chunksFrom, List.zipIdx_cons, hp]
        rw [hobj, hchunks, List.map_cons, List.zipIdx_cons, List.filterMap_cons]
        simpa [hp] using ih

theorem placeObjects_eq : ∀ {chunks : List (ℕ × List T)} {results : List (Option (List T))},
    (chunks.map Prod.fst).Nodup → (∀ c ∈ chunks, results[c.1]? = some none) →
      ∃ results', placeObjects chunks results = .ok results' ∧ results'.length = results.length ∧
        (∀ c ∈ chunks, results'[c.1]? = some (some c.2)) ∧
        ∀ i, i ∉ chunks.map Prod.fst → results'[i]? = results[i]?
  | [], results, _, _ => ⟨results, rfl, rfl, by simp, fun _ _ => rfl⟩
  | (index, objects) :: chunks, results, hnd, h => by
      obtain ⟨hnotin, hnd⟩ := List.nodup_cons.mp hnd
      have hindex : results[index]? = some none := h _ List.mem_cons_self
      obtain ⟨results', hok, hlen, hin, hout⟩ :=
        @placeObjects_eq chunks (results.set index (some objects)) hnd fun c hc => by
          have hne : index ≠ c.1 := by
            rintro rfl
            exact hnotin (List.mem_map.mpr ⟨c, hc, rfl⟩)
          rw [List.getElem?_set_ne hne]
          exact h c (List.mem_cons_of_mem _ hc)
      refine ⟨results', by rw [placeObjects, hindex]; exact hok, by simpa using hlen, fun c hc => ?_, fun i hi => ?_⟩
      · obtain rfl | hc := List.mem_cons.mp hc
        · have hlt : index < results.length := (List.getElem?_eq_some_iff.mp hindex).1
          rw [hout index hnotin, List.getElem?_set_self hlt]
        · exact hin c hc
      · have hne : index ≠ i := by rintro rfl; simp at hi
        rw [hout i fun hi' => hi (by simp [hi']), List.getElem?_set_ne hne]

theorem allPlaced_map_some : ∀ (all : List (List T)), allPlaced (all.map some) = .ok all
  | [] => rfl
  | objects :: all => by rw [List.map_cons, allPlaced, allPlaced_map_some all]; rfl

theorem mem_chunksFrom {items : List (ReceiveRequest × List T)} {peer : ℕ} {c : ℕ × List T} :
    c ∈ chunksFrom items peer 0 ↔ ∃ req, items[c.1]? = some (req, c.2) ∧ req.fromId = peer := by
  obtain ⟨index, chunk⟩ := c
  simp only [chunksFrom, List.mem_filterMap, Prod.exists, List.mk_mem_zipIdx_iff_getElem?]
  constructor
  · rintro ⟨req, chunk', index', hget, h⟩
    split at h
    · next hp =>
        obtain ⟨rfl, rfl⟩ : index' = index ∧ chunk' = chunk := by simpa using h
        exact ⟨req, hget, hp⟩
    · exact absurd h (by simp)
  · rintro ⟨req, hget, hp⟩
    exact ⟨req, chunk, index, hget, by simp [hp]⟩

theorem nodup_chunksFrom (items : List (ReceiveRequest × List T)) (peer : ℕ) :
    ((chunksFrom items peer 0).map Prod.fst).Nodup := by
  have hsub : ((chunksFrom items peer 0).map Prod.fst).Sublist (items.zipIdx.map Prod.snd) := by
    rw [chunksFrom, List.map_filterMap]
    have heq : items.zipIdx.map Prod.snd = items.zipIdx.filterMap fun x => some x.2 := by simp
    rw [heq]
    generalize items.zipIdx = l
    induction l with
    | nil => simp
    | cons x l ih =>
        obtain ⟨item, index⟩ := x
        by_cases hp : item.1.fromId = peer
        · simpa [hp] using ih
        · simpa [hp] using ih.cons index
  exact hsub.nodup (by rw [List.zipIdx_map_snd]; exact List.nodup_range')

/-- The chunks of all groups fill the results, whatever the order of the groups. -/
theorem placeObjects_chunks {items : List (ReceiveRequest × List T)} {peers : List ℕ} (hnd : peers.Nodup)
    (hall : ∀ item ∈ items, item.1.fromId ∈ peers) :
    placeObjects (peers.flatMap fun p => chunksFrom items p 0) (List.replicate items.length none) =
      .ok ((items.map Prod.snd).map some) := by
  have hchunks : ((peers.flatMap fun p => chunksFrom items p 0).map Prod.fst).Nodup := by
    rw [List.map_flatMap]
    refine List.nodup_flatMap.mpr ⟨fun p _ => nodup_chunksFrom items p, hnd.imp fun {p q} hne => ?_⟩
    intro i hi hj
    obtain ⟨c, hc, rfl⟩ := List.mem_map.mp hi
    obtain ⟨d, hd, hdc⟩ := List.mem_map.mp hj
    obtain ⟨req, hget, hreq⟩ := mem_chunksFrom.mp hc
    obtain ⟨req', hget', hreq'⟩ := mem_chunksFrom.mp hd
    rw [hdc, hget] at hget'
    obtain ⟨rfl, -⟩ : req = req' ∧ c.2 = d.2 := by simpa using hget'
    exact hne (hreq.symm.trans hreq')
  have hempty : ∀ c ∈ peers.flatMap fun p => chunksFrom items p 0,
      (List.replicate items.length (none : Option (List T)))[c.1]? = some none := by
    intro c hc
    obtain ⟨p, -, hc⟩ := List.mem_flatMap.mp hc
    obtain ⟨req, hget, -⟩ := mem_chunksFrom.mp hc
    have hlt := (List.getElem?_eq_some_iff.mp hget).1
    simp [hlt]
  obtain ⟨results, hplace, hlen, hin, -⟩ := placeObjects_eq hchunks hempty
  rw [List.length_replicate] at hlen
  rw [hplace]
  congr 1
  apply List.ext_getElem?
  intro i
  by_cases hi : i < items.length
  · obtain ⟨⟨req, chunk⟩, hget⟩ : ∃ item, items[i]? = some item := ⟨_, List.getElem?_eq_getElem hi⟩
    have hc : (i, chunk) ∈ peers.flatMap fun p => chunksFrom items p 0 :=
      List.mem_flatMap.mpr ⟨req.fromId, hall _ (List.mem_of_getElem? hget), mem_chunksFrom.mpr ⟨req, hget, rfl⟩⟩
    rw [hin _ hc]
    simp [hget]
  · rw [List.getElem?_eq_none (by omega), List.getElem?_eq_none (by simpa using hi)]

variable (link : Link n Elem) (read : Message Elem → Outcome String (List T))
  {items : List (ReceiveRequest × List T)}

theorem mem_namedPeers {requests : List ReceiveRequest} {p : Fin n} :
    p ∈ namedPeers n requests ↔ ∃ req ∈ requests, req.fromId = p := by
  simp [namedPeers]

theorem Link.recvAll_eq (hcount : ∀ item ∈ items, item.2.length = expectedCount item.1.count) :
    ∀ {peers : List (Fin n)}, (∀ p ∈ peers, ∃ m, (link.arrived p).head? = some m ∧
        read m = .ok (objectsFrom items p)) →
      link.recvAll read (items.map Prod.fst) peers = .ok (peers.flatMap fun p : Fin n => chunksFrom items p 0)
  | [], _ => rfl
  | p :: peers, h => by
      obtain ⟨m, hm, hread⟩ := h p List.mem_cons_self
      have hsplit := splitObjects_eq p 0 hcount
      have hp : link.recvFrom read (items.map Prod.fst) p = .ok (chunksFrom items p 0) := by
        unfold Link.recvFrom
        cases ha : link.arrived p with
        | nil => rw [ha] at hm; exact absurd hm (by simp)
        | cons m' rest =>
            obtain rfl : m' = m := by simpa [ha] using hm
            simpa [hread, requestsFrom] using hsplit
      rw [Link.recvAll, hp, Link.recvAll_eq hcount fun q hq => h q (List.mem_cons_of_mem _ hq)]
      rfl

/-- **Every request gets the chunk that answers it**, when each message is the chunks that its
receiver's requests ask for. -/
theorem Link.recvMany_eq (hcount : ∀ item ∈ items, item.2.length = expectedCount item.1.count)
    (hopen : link.unavailable ((items.map Prod.fst).map ReceiveRequest.fromId) = none)
    (harrived : ∀ p ∈ namedPeers n (items.map Prod.fst), ∃ m, (link.arrived p).head? = some m ∧
      read m = .ok (objectsFrom items p)) :
    ∃ len, Link.recvMany read (items.map Prod.fst) link =
      (.ok (items.map Prod.snd, len),
        { link with arrived := fun p =>
            if p ∈ namedPeers n (items.map Prod.fst) then (link.arrived p).tail else link.arrived p }) := by
  set peers := namedPeers n (items.map Prod.fst) with hpeers
  have hall := Link.recvAll_eq link read hcount harrived
  have hnamed : ∀ item ∈ items, item.1.fromId ∈ peers.map Fin.val := by
    intro item hitem
    have hmem : item.1 ∈ items.map Prod.fst := List.mem_map_of_mem hitem
    -- the peer of the request has a channel, so its group was read
    have hchan : ¬(link.channel item.1.fromId).isNone = true := by
      have := List.find?_eq_none.mp hopen item.1.fromId (List.mem_map_of_mem hmem)
      simpa using this
    have hlt : item.1.fromId < n := by
      by_contra hge
      exact hchan (by simp [Link.channel, hge])
    exact List.mem_map.mpr ⟨⟨item.1.fromId, hlt⟩, mem_namedPeers.mpr ⟨item.1, hmem, rfl⟩, rfl⟩
  have hnd : (peers.map Fin.val).Nodup :=
    ((List.nodup_finRange n).filter _).map fun _ _ => Fin.ext
  have hplace := placeObjects_chunks hnd hnamed
  rw [List.flatMap_map] at hplace
  refine ⟨(peers.filterMap fun p => (link.arrived p).head?).foldl (fun len m => len + link.size m) 0, ?_⟩
  rw [Link.recvMany, hopen]
  simp only [← hpeers, hall, List.length_map, hplace, Outcome.ok_bind, allPlaced_map_some]

/-- A bulk receive of messages that succeeds has split the first message of each peer. -/
theorem Link.split_of_recvMany {T : Type} {link link' : Link n Elem} {read : Message Elem → Outcome String (List T)}
    {requests : List ReceiveRequest} {received : List (List T) × ℕ}
    (h : Link.recvMany read requests link = (.ok received, link')) :
    ∀ p ∈ namedPeers n requests, ∃ m objects chunks, (link.arrived p).head? = some m ∧ read m = .ok objects ∧
      splitObjects (requestsFrom requests p) objects = .ok chunks := by
  have hall : ∀ {peers : List (Fin n)} {chunks : List (ℕ × List T)}, link.recvAll read requests peers = .ok chunks →
      ∀ p ∈ peers, ∃ m objects chunks, (link.arrived p).head? = some m ∧ read m = .ok objects ∧
        splitObjects (requestsFrom requests p) objects = .ok chunks := by
    intro peers
    induction peers with
    | nil => intro _ _ p hp; cases hp
    | cons q peers ih =>
        intro chunks h p hp
        obtain ⟨first, hfirst, h⟩ := Outcome.bind_eq_ok.mp h
        obtain ⟨rest, hrest, -⟩ := Outcome.bind_eq_ok.mp h
        obtain rfl | hp := List.mem_cons.mp hp
        · unfold Link.recvFrom at hfirst
          split at hfirst
          · cases hfirst
          · next m ms hm =>
              obtain ⟨objects, hread, hsplit⟩ := Outcome.bind_eq_ok.mp hfirst
              exact ⟨m, objects, first, by rw [hm, List.head?_cons], hread, hsplit⟩
        · exact ih hrest p hp
  unfold Link.recvMany at h
  split at h
  · cases (Prod.mk.inj h).1
  · obtain ⟨_, hresults, -⟩ := Outcome.bind_eq_ok.mp (Prod.mk.inj h).1
    obtain ⟨chunks, hchunks, -⟩ := Outcome.bind_eq_ok.mp hresults
    exact hall hchunks

/-- Messages with as many objects as are asked for can be cut into the chunks of the requests. -/
theorem exists_items : ∀ (requests : List ReceiveRequest) (objects : ℕ → List T),
    (∀ i, (objects i).length =
      ((requests.filter fun req => req.fromId = i).map fun req => expectedCount req.count).sum) →
      ∃ items : List (ReceiveRequest × List T), items.map Prod.fst = requests ∧
        (∀ item ∈ items, item.2.length = expectedCount item.1.count) ∧ ∀ i, objectsFrom items i = objects i
  | [], objects, h => ⟨[], rfl, by simp, fun i => by
      have : objects i = [] := List.length_eq_zero_iff.mp (by simpa using h i)
      rw [this]; rfl⟩
  | req :: requests, objects, h => by
      have hreq : (objects req.fromId).length = expectedCount req.count +
          ((requests.filter fun r => r.fromId = req.fromId).map fun req => expectedCount req.count).sum := by
        simpa using h req.fromId
      obtain ⟨items, hfst, hlen, hobj⟩ := exists_items requests
        (Function.update objects req.fromId ((objects req.fromId).drop (expectedCount req.count))) fun i => by
          by_cases hi : i = req.fromId
          · subst hi
            rw [Function.update_self, List.length_drop, hreq]
            omega
          · have hne : req.fromId ≠ i := fun he => hi he.symm
            rw [Function.update_of_ne hi]
            simpa [hne] using h i
      refine ⟨(req, (objects req.fromId).take (expectedCount req.count)) :: items, by rw [List.map_cons, hfst],
        fun item hitem => ?_, fun i => ?_⟩
      · obtain rfl | hitem := List.mem_cons.mp hitem
        · exact List.length_take_of_le (by omega)
        · exact hlen item hitem
      · by_cases hi : req.fromId = i
        · subst hi
          have hrest := hobj req.fromId
          rw [Function.update_self] at hrest
          have hcons : objectsFrom ((req, (objects req.fromId).take (expectedCount req.count)) :: items)
              req.fromId = (objects req.fromId).take (expectedCount req.count) ++ objectsFrom items req.fromId := by
            simp [objectsFrom]
          rw [hcons, hrest, List.take_append_drop]
        · have hrest := hobj i
          rw [Function.update_of_ne (fun he => hi he.symm)] at hrest
          rw [← hrest]
          simp [objectsFrom, hi]

end MpcCore
