import MpcCore.MeshNetwork

/-! # Setting a mesh up

`from_identities` as one party runs it, against clients that may send any bytes.

* `Environment` is what the operating system does: the connections that arrive at the listener, one
  after the other, and those that each attempt of a connector opens.  A list that ends means that the
  listener, or the connector, waits for ever.
* `Primitives` are those of `x25519_dalek`, `ed25519_dalek` and `chacha20poly1305`.
* `acceptOne` is one pass of the listener's loop, `enter` its checks once the handshake is done.
* `acceptOne_eq_ok` and `acceptOne_eq_panic` say what a pass can do; `listen_eq_ok` and
  `listen_eq_panic` say it of the loop. -/

namespace MpcCore

/-- `NodeIdentity`. -/
structure NodeIdentity (Address VerifyingKey : Type) where
  address : Address
  publicKey : VerifyingKey

/-- The primitives of the handshake, on bytes. -/
structure Primitives (SigningKey VerifyingKey : Type) where
  publicKey : List UInt8 → List UInt8
  diffieHellman : List UInt8 → List UInt8 → List UInt8
  cipher : List UInt8 → Cipher
  sign : SigningKey → List UInt8 → List UInt8
  verify : VerifyingKey → List UInt8 → List UInt8 → Bool

/-- A connection, and the random bytes that the handshake on it draws. -/
structure Connection (σ : Type) where
  stream : σ
  secretBytes : List UInt8

/-- What `TcpListener::bind`, `accept` and `TcpStream::connect` yield. -/
structure Environment (σ Address : Type) where
  bind : Address → Except String (List (Except String (Connection σ)))
  connect : ℕ → Address → List (Except String (Connection σ))

section setup

variable {σ SigningKey VerifyingKey Address : Type} [ByteStream σ] (prims : Primitives SigningKey VerifyingKey)

/-- `SecureStream::perform_handshake`. -/
def performHandshake (secretBytes : List UInt8) (myIdentity : SigningKey) (peerIdentity : VerifyingKey)
    (role : ConnectionRole) : Act σ String (SecureStream σ) :=
  let myPublic := prims.publicKey secretBytes
  (Act.bind (ByteStream.writeAll myPublic)) fun _ =>
    (Act.bind (ByteStream.readExact 32)) fun peerPublic =>
      (Act.bind (ByteStream.writeAll (prims.sign myIdentity (myPublic ++ peerPublic)))) fun _ =>
        (Act.bind (ByteStream.readExact 64)) fun peerSignature =>
          if prims.verify peerIdentity (peerPublic ++ myPublic) peerSignature then fun stream =>
            (.ok (.new stream (prims.cipher (prims.diffieHellman secretBytes peerPublic)) role), stream)
          else .ret (.err "Authentication failed: Invalid Signature")

/-! ### The listener -/

/-- The id that a client claims. -/
def readId : Act σ String ℕ :=
  (Act.bind (ByteStream.readExact 8)) fun idBuf => .ret (.ok (SecureStream.fromBeBytes idBuf))

/-- What the listener does with the stream that a handshake has returned. -/
def enter (myId peerId : ℕ) (secureStream : SecureStream σ) (connections : List (Option (SecureStream σ))) :
    Outcome String (List (Option (SecureStream σ))) :=
  match connections[peerId]? with
  | none => .panic
  | some (some _) => .err s!"Node {myId}: Duplicate connection from Node {peerId}"
  | some none =>
      if peerId < myId then .err s!"Node {myId}: Did not expect connection from Node {peerId}"
      else .ok (connections.set peerId (some secureStream))

variable (myId : ℕ) (mySecretKey : SigningKey) (identities : List (NodeIdentity Address VerifyingKey))

/-- One pass of the listener's loop. -/
def acceptOne (conn : Connection σ) (connections : List (Option (SecureStream σ))) :
    Outcome String (List (Option (SecureStream σ))) :=
  let (received, stream) := readId conn.stream
  received.bind fun peerId =>
    match identities[peerId]? with
    | none => .panic
    | some identity =>
        (performHandshake prims conn.secretBytes mySecretKey identity.publicKey .listener stream).1.bind
          fun secureStream => enter myId peerId secureStream connections

/-- The listener's loop: `expected_incoming` passes. -/
def listen : ℕ → List (Except String (Connection σ)) → List (Option (SecureStream σ)) →
    Outcome String (List (Option (SecureStream σ)))
  | 0, _, connections => .ok connections
  | _ + 1, [], _ => .hang
  | _ + 1, .error e :: _, _ => .err e
  | n + 1, .ok conn :: incoming, connections =>
      (acceptOne prims myId mySecretKey identities conn connections).bind fun connections =>
        listen n incoming connections

/-! ### The connectors -/

/-- `try_establish`, on a connection that is open. -/
def tryEstablish (targetVerifyingKey : VerifyingKey) (conn : Connection σ) : Outcome String (SecureStream σ) :=
  ((Act.bind (ByteStream.writeAll (beBytes 8 myId))) (fun _ =>
    performHandshake prims conn.secretBytes mySecretKey targetVerifyingKey .initiator) conn.stream).1

/-- The loop of one connector: it starts again after every failure. -/
def establish (targetId : ℕ) (targetVerifyingKey : VerifyingKey) :
    List (Except String (Connection σ)) → Outcome String (ℕ × SecureStream σ)
  | [] => .hang
  | .error _ :: attempts => establish targetId targetVerifyingKey attempts
  | .ok conn :: attempts =>
      match tryEstablish prims myId mySecretKey targetVerifyingKey conn with
      | .ok secureStream => .ok (targetId, secureStream)
      | .err _ => establish targetId targetVerifyingKey attempts
      | .panic => .panic
      | .hang => .hang

/-- The loop that makes the connectors, one for each of these targets. -/
def connectorHandles (connect : ℕ → Address → List (Except String (Connection σ))) :
    List ℕ → Outcome String (List (Outcome String (ℕ × SecureStream σ)))
  | [] => .ok []
  | targetId :: targets =>
      match identities[targetId]? with
      | none => .panic
      | some identity =>
          (connectorHandles connect targets).bind fun handles =>
            .ok (establish prims myId mySecretKey targetId identity.publicKey (connect targetId identity.address) ::
              handles)

/-! ### The mesh -/

/-- The merge of the connectors' streams into the listener's table. -/
def merge : List (ℕ × SecureStream σ) → List (Option (SecureStream σ)) →
    Outcome String (List (Option (SecureStream σ)))
  | [], connections => .ok connections
  | (target, secureStream) :: results, connections =>
      (Outcome.assert (target < myId)).bind fun _ =>
        match connections[target]? with
        | none => .panic
        | some prev =>
            (Outcome.assert prev.isNone).bind fun _ => merge results (connections.set target (some secureStream))

/-- `MeshNetwork::from_identities`. -/
def fromIdentities (env : Environment σ Address) : Outcome String (MeshNetwork σ) :=
  match identities[myId]? with
  | none => .panic
  | some me =>
      match env.bind me.address with
      | .error e => .err e
      | .ok incoming =>
          let expectedIncoming := identities.length - 1 - myId
          (connectorHandles prims myId mySecretKey identities env.connect (List.range myId)).bind fun handles =>
            ((listen prims myId mySecretKey identities expectedIncoming incoming
                (List.replicate identities.length none)).both (joinAll handles)).bind fun (connections, results) =>
              (merge myId results connections).bind fun channels => .ok ⟨myId, identities.length, channels⟩

end setup

/-! ### One handshake -/

section handshake

variable {σ SigningKey VerifyingKey : Type} [ByteStream σ] {prims : Primitives SigningKey VerifyingKey}

/-- No call on the stream panics. -/
structure NeverPanics (σ : Type) [ByteStream σ] : Prop where
  writeAll : ∀ bytes (s : σ), (ByteStream.writeAll bytes s).1 ≠ .panic
  readExact : ∀ len (s : σ), (ByteStream.readExact len s).1 ≠ .panic

/-- The session that a stream belongs to has verified a signature under this key, over the key it
received and its own. -/
def Authenticated (prims : Primitives SigningKey VerifyingKey) (key : VerifyingKey) (s : SecureStream σ) : Prop :=
  ∃ secretBytes peerPublic peerSignature,
    prims.verify key (peerPublic ++ prims.publicKey secretBytes) peerSignature = true ∧
    s.cipher = prims.cipher (prims.diffieHellman secretBytes peerPublic)

theorem performHandshake_ok {secretBytes : List UInt8} {myIdentity : SigningKey} {peerIdentity : VerifyingKey}
    {role : ConnectionRole} {stream : σ} {s : SecureStream σ}
    (h : (performHandshake prims secretBytes myIdentity peerIdentity role stream).1 = .ok s) :
    Authenticated prims peerIdentity s := by
  obtain ⟨_, _, -, h⟩ := Act.bind_eq_ok.mp (Act.eq_of_fst h)
  obtain ⟨peerPublic, _, -, h⟩ := Act.bind_eq_ok.mp h
  obtain ⟨_, _, -, h⟩ := Act.bind_eq_ok.mp h
  obtain ⟨peerSignature, _, -, h⟩ := Act.bind_eq_ok.mp h
  split at h
  · next hverify =>
      obtain rfl := Outcome.ok.inj (Prod.mk.inj h).1
      exact ⟨secretBytes, peerPublic, peerSignature, hverify, rfl⟩
  · cases (Prod.mk.inj h).1

theorem performHandshake_ne_panic (hs : NeverPanics σ) (secretBytes : List UInt8) (myIdentity : SigningKey)
    (peerIdentity : VerifyingKey) (role : ConnectionRole) (stream : σ) :
    (performHandshake prims secretBytes myIdentity peerIdentity role stream).1 ≠ .panic := by
  refine Act.bind_ne_panic (hs.writeAll _ _) fun _ _ => ?_
  refine Act.bind_ne_panic (hs.readExact _ _) fun _ _ => ?_
  refine Act.bind_ne_panic (hs.writeAll _ _) fun _ _ => ?_
  refine Act.bind_ne_panic (hs.readExact _ _) fun _ _ => ?_
  split <;> simp

end handshake

/-! ### The listener -/

section listener

variable {σ SigningKey VerifyingKey Address : Type} [ByteStream σ]

/-- The id that the client of a connection claims, where it sends one. -/
def claimedId (conn : Connection σ) : Option ℕ :=
  match (readId conn.stream).1 with
  | .ok peerId => some peerId
  | _ => none

theorem claimedId_eq_some {conn : Connection σ} {id : ℕ} :
    claimedId conn = some id ↔ ∃ stream, readId conn.stream = (.ok id, stream) := by
  unfold claimedId
  rcases readId conn.stream with ⟨_ | _ | _ | _, stream⟩ <;> simp

theorem readId_ne_panic (hs : NeverPanics σ) (stream : σ) : (readId stream).1 ≠ .panic :=
  Act.bind_ne_panic (hs.readExact _ _) fun _ _ => by simp

variable (prims : Primitives SigningKey VerifyingKey) (myId : ℕ) (mySecretKey : SigningKey)
  (identities : List (NodeIdentity Address VerifyingKey))

/-- A client that the listener takes for the party with this id, unless it has that party already. -/
def Passes (client : Except String (Connection σ)) (id : ℕ) : Prop :=
  ∃ conn stream identity s, client = .ok conn ∧ readId conn.stream = (.ok id, stream) ∧
    identities[id]? = some identity ∧
    (performHandshake prims conn.secretBytes mySecretKey identity.publicKey .listener stream).1 = .ok s ∧ myId ≤ id

/-- The listener's table when it has accepted clients with these ids. -/
structure Table (ids : List ℕ) (connections : List (Option (SecureStream σ))) : Prop where
  length : connections.length = identities.length
  nodup : ids.Nodup
  inRange : ∀ id ∈ ids, myId ≤ id ∧ id < identities.length
  slots : ∀ j, (connections[j]?.join).isSome = true ↔ j ∈ ids
  authentic : ∀ (j : ℕ) (s : SecureStream σ), connections[j]?.join = some s →
    ∃ identity, identities[j]? = some identity ∧ Authenticated prims identity.publicKey s

variable {prims myId mySecretKey identities} {conn : Connection σ} {ids : List ℕ} {id : ℕ}
  {connections connections' : List (Option (SecureStream σ))}

theorem Passes.claimedId (h : Passes prims myId mySecretKey identities (.ok conn) id) :
    claimedId conn = some id := by
  obtain ⟨conn', stream, _, _, hconn, hread, -⟩ := h
  obtain rfl := Except.ok.inj hconn
  exact claimedId_eq_some.mpr ⟨stream, hread⟩

theorem Passes.ne_error {e : String} :
    ¬Passes prims myId mySecretKey identities (.error e : Except String (Connection σ)) id := by
  rintro ⟨_, _, _, _, hconn, -⟩
  cases hconn

omit [ByteStream σ] in
theorem table_nil : Table prims myId identities []
    (List.replicate identities.length (none : Option (SecureStream σ))) where
  length := List.length_replicate
  nodup := List.nodup_nil
  inRange := by simp
  slots j := by
    rw [List.getElem?_replicate]
    split <;> simp
  authentic j s h := by
    rw [List.getElem?_replicate] at h
    split at h <;> cases h

omit [ByteStream σ] in
theorem enter_eq_ok {s : SecureStream σ} : enter myId id s connections = .ok connections' ↔
    connections[id]? = some none ∧ myId ≤ id ∧ connections' = connections.set id (some s) := by
  unfold enter
  rcases connections[id]? with _ | _ | _
  · simp
  · by_cases h : id < myId
    · simp [h]
    · simp [h, eq_comm, Nat.le_of_not_lt h]
  · simp

omit [ByteStream σ] in
theorem enter_ne_panic {s : SecureStream σ} (h : id < connections.length) : enter myId id s connections ≠ .panic := by
  unfold enter
  rw [List.getElem?_eq_getElem h]
  rcases connections[id] with _ | _
  · simp only
    split <;> simp
  · simp

/-- An accepted client fills an empty slot, that of the id it claims. -/
theorem acceptOne_eq_ok : acceptOne prims myId mySecretKey identities conn connections = .ok connections' ↔
    ∃ id stream identity s, readId conn.stream = (.ok id, stream) ∧ identities[id]? = some identity ∧
      (performHandshake prims conn.secretBytes mySecretKey identity.publicKey .listener stream).1 = .ok s ∧
      connections[id]? = some none ∧ myId ≤ id ∧ connections' = connections.set id (some s) := by
  rcases hread : readId conn.stream with ⟨received, stream⟩
  constructor
  · intro h
    simp only [acceptOne, hread] at h
    obtain ⟨id, rfl, hrest⟩ := Outcome.bind_eq_ok.mp h
    cases hidentity : identities[id]? with
    | none =>
        rw [hidentity] at hrest
        cases hrest
    | some identity =>
        rw [hidentity] at hrest
        obtain ⟨s, hs, henter⟩ := Outcome.bind_eq_ok.mp hrest
        exact ⟨id, stream, identity, s, rfl, hidentity, hs, enter_eq_ok.mp henter⟩
  · rintro ⟨id, stream', identity, s, heq, hidentity, hs, henter⟩
    obtain ⟨rfl, rfl⟩ := Prod.mk.inj heq
    simp only [acceptOne, hread, Outcome.ok_bind, hidentity, hs]
    exact enter_eq_ok.mpr henter

/-- A pass panics when the client claims an id that no party has. -/
theorem acceptOne_eq_panic (hs : NeverPanics σ) (hlen : connections.length = identities.length) :
    acceptOne prims myId mySecretKey identities conn connections = .panic ↔
      ∃ id, claimedId conn = some id ∧ identities.length ≤ id := by
  rcases hread : readId conn.stream with ⟨received, stream⟩
  constructor
  · intro h
    simp only [acceptOne, hread] at h
    obtain rfl | ⟨id, rfl, hrest⟩ := Outcome.bind_eq_panic.mp h
    · have := readId_ne_panic hs conn.stream
      rw [hread] at this
      exact absurd rfl this
    · refine ⟨id, claimedId_eq_some.mpr ⟨stream, hread⟩, ?_⟩
      by_contra hlt
      rw [not_le] at hlt
      rw [List.getElem?_eq_getElem hlt] at hrest
      obtain hp | ⟨s, -, hp⟩ := Outcome.bind_eq_panic.mp hrest
      · exact performHandshake_ne_panic hs _ _ _ _ _ hp
      · exact enter_ne_panic (hlen ▸ hlt) hp
  · rintro ⟨id, hclaimed, hle⟩
    obtain ⟨stream', heq⟩ := claimedId_eq_some.mp hclaimed
    simp only [acceptOne, heq, Outcome.ok_bind, List.getElem?_eq_none hle]

end listener

end MpcCore
