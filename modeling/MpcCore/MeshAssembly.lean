import MpcCore.MeshEstablished
import MpcCore.MeshTraffic
import Mathlib.Order.Interval.Finset.Fin

/-! # A mesh that its parties set up

`from_identities` at all parties at once, where the bytes that one end of a connection writes come in at the other.

* `Primitives.Lawful`: what the primitives of the two ends of a connection do together.
* `asked`, `answered`: the bytes that a connector writes on its connection, and the listener on one of its clients.
* `Linked`: the clients of a listener are the parties behind it in any order; what a connector writes has come in at
  the listener, and what the listener writes on a client, once it gets to it, has come in at the connector.
* `setUp`: then all parties have returned, with the mesh of `established`. -/

namespace MpcCore

open MeshNetwork (OpenPipe established)
open SecureStream (departed)

variable {SigningKey VerifyingKey Address : Type} {n : ℕ}

/-- What `x25519_dalek` and `ed25519_dalek` do for two parties. -/
structure Primitives.Lawful (prims : Primitives SigningKey VerifyingKey) (verifyingKey : SigningKey → VerifyingKey) :
    Prop where
  length_publicKey : ∀ secret, secret.length = 32 → (prims.publicKey secret).length = 32
  length_sign : ∀ key message, (prims.sign key message).length = 64
  verify_sign : ∀ key message, prims.verify (verifyingKey key) message (prims.sign key message) = true
  diffieHellman_comm : ∀ secret secret', secret.length = 32 → secret'.length = 32 →
    prims.diffieHellman secret (prims.publicKey secret') = prims.diffieHellman secret' (prims.publicKey secret)

/-! ### One connection -/

section connection

variable {prims : Primitives SigningKey VerifyingKey} {verifyingKey : SigningKey → VerifyingKey}
  {secretBytes : List UInt8} {key : SigningKey} {peerKey : VerifyingKey} {role : ConnectionRole}

/-- An end writes its key before it reads. -/
theorem performHandshake_written (unread written : List UInt8) : ∃ more,
    (performHandshake prims secretBytes key peerKey role (⟨unread, written⟩ : OpenPipe)).2.written =
      written ++ prims.publicKey secretBytes ++ more := by
  simp only [performHandshake, Act.bind, ByteStream.writeAll, ByteStream.readExact]
  by_cases hkey : 32 ≤ unread.length
  · simp only [if_pos hkey]
    by_cases hsignature : 64 ≤ (unread.drop 32).length
    · simp only [if_pos hsignature]
      split <;> exact ⟨_, rfl⟩
    · simp only [if_neg hsignature]
      exact ⟨_, rfl⟩
  · simp only [if_neg hkey]
    exact ⟨[], by rw [List.append_nil]⟩

/-- Once it has the key of the other end it writes its signature. -/
theorem performHandshake_signed {peerPublic : List UInt8} (hpeer : peerPublic.length = 32) (rest written : List UInt8) :
    (performHandshake prims secretBytes key peerKey role (⟨peerPublic ++ rest, written⟩ : OpenPipe)).2.written =
      written ++ prims.publicKey secretBytes ++ prims.sign key (prims.publicKey secretBytes ++ peerPublic) := by
  have hkey : 32 ≤ (peerPublic ++ rest).length := by
    rw [List.length_append]
    omega
  have htake : (peerPublic ++ rest).take 32 = peerPublic := by rw [← hpeer, List.take_left]
  have hdrop : (peerPublic ++ rest).drop 32 = rest := by rw [← hpeer, List.drop_left]
  simp only [performHandshake, Act.bind, ByteStream.writeAll, ByteStream.readExact, if_pos hkey, htake, hdrop]
  by_cases hsignature : 64 ≤ rest.length
  · simp only [if_pos hsignature]
    split <;> rfl
  · simp only [if_neg hsignature]

theorem performHandshake_eq (hlawful : prims.Lawful verifyingKey) (peer : SigningKey) {peerSecret : List UInt8}
    (hsecret : peerSecret.length = 32) (written : List UInt8) :
    (performHandshake prims secretBytes key (verifyingKey peer) role
      (⟨prims.publicKey peerSecret ++ prims.sign peer (prims.publicKey peerSecret ++ prims.publicKey secretBytes),
        written⟩ : OpenPipe)).1 =
      .ok (.new ⟨[], written ++ prims.publicKey secretBytes ++
          prims.sign key (prims.publicKey secretBytes ++ prims.publicKey peerSecret)⟩
        (prims.cipher (prims.diffieHellman secretBytes (prims.publicKey peerSecret))) role) := by
  have hpeer := hlawful.length_publicKey peerSecret hsecret
  set peerPublic := prims.publicKey peerSecret
  set signature := prims.sign peer (peerPublic ++ prims.publicKey secretBytes) with hsign
  have hlength : signature.length = 64 := hlawful.length_sign _ _
  have hkey : 32 ≤ (peerPublic ++ signature).length := by
    rw [List.length_append]
    omega
  have htake : (peerPublic ++ signature).take 32 = peerPublic := by rw [← hpeer, List.take_left]
  have hdrop : (peerPublic ++ signature).drop 32 = signature := by rw [← hpeer, List.drop_left]
  have hverify : prims.verify (verifyingKey peer) (peerPublic ++ prims.publicKey secretBytes) signature = true :=
    hlawful.verify_sign _ _
  have htake' : signature.take 64 = signature := List.take_of_length_le hlength.le
  have hdrop' : signature.drop 64 = [] := List.drop_of_length_le hlength.le
  simp only [performHandshake, Act.bind, ByteStream.writeAll, ByteStream.readExact, if_pos hkey, htake, hdrop,
    if_pos hlength.ge, htake', hdrop', hverify, if_true]

theorem readId_eq {id : ℕ} (hid : id < 2 ^ 64) (rest written : List UInt8) :
    readId (⟨beBytes 8 id ++ rest, written⟩ : OpenPipe) = (.ok id, ⟨rest, written⟩) := by
  have hlength : 8 ≤ (beBytes 8 id ++ rest).length := by
    rw [List.length_append, beBytes_length]
    omega
  have htake : (beBytes 8 id ++ rest).take 8 = beBytes 8 id := List.take_left' (beBytes_length 8 id)
  have hdrop : (beBytes 8 id ++ rest).drop 8 = rest := List.drop_left' (beBytes_length 8 id)
  have hread : SecureStream.fromBeBytes (beBytes 8 id) = id := by
    rw [fromBeBytes_beBytes]
    omega
  simp only [readId, Act.bind, ByteStream.readExact, if_pos hlength, htake, hdrop, Act.ret_apply, hread]

end connection

/-! ### The loops of the listener and of a connector -/

section loops

variable {σ : Type} [ByteStream σ] {prims : Primitives SigningKey VerifyingKey} {myId : ℕ} {mySecretKey : SigningKey}
  {identities : List (NodeIdentity Address VerifyingKey)}

theorem listen_succ {conn : Connection σ} : ∀ {k : ℕ} {incoming : List (Except String (Connection σ))}
    {connections table : List (Option (SecureStream σ))}, incoming[k]? = some (.ok conn) →
    listen prims myId mySecretKey identities k incoming connections = .ok table →
    listen prims myId mySecretKey identities (k + 1) incoming connections =
      acceptOne prims myId mySecretKey identities conn table
  | 0, first :: incoming, connections, table, hconn, h => by
      obtain rfl := Option.some.inj hconn
      obtain rfl := Outcome.ok.inj h
      rw [listen]
      cases acceptOne prims myId mySecretKey identities conn connections <;> rfl
  | k + 1, .ok first :: incoming, connections, table, hconn, h => by
      rw [listen] at h
      obtain ⟨connections₁, hfirst, hrest⟩ := Outcome.bind_eq_ok.mp h
      rw [listen, hfirst, Outcome.ok_bind]
      exact listen_succ hconn hrest

/-- The connections that come later are not accepted. -/
theorem listen_append : ∀ (incoming later : List (Except String (Connection σ)))
    (connections : List (Option (SecureStream σ))),
    listen prims myId mySecretKey identities incoming.length (incoming ++ later) connections =
      listen prims myId mySecretKey identities incoming.length incoming connections
  | [], _, _ => by rw [List.length_nil, listen, listen]
  | .error e :: incoming, later, connections => rfl
  | .ok conn :: incoming, later, connections => by
      rw [List.cons_append, List.length_cons, listen, listen]
      congr 1
      funext table
      exact listen_append incoming later table

theorem establish_refused {targetId : ℕ} {targetKey : VerifyingKey} {conn : Connection σ} {s : SecureStream σ}
    {attempts : List (Except String (Connection σ))}
    (h : tryEstablish prims myId mySecretKey targetKey conn = .ok s) : ∀ refused : List String,
    establish prims myId mySecretKey targetId targetKey (refused.map .error ++ .ok conn :: attempts) = .ok (targetId, s)
  | [] => by simp only [List.map_nil, List.nil_append, establish, h]
  | e :: refused => by
      rw [List.map_cons, List.cons_append, establish]
      exact establish_refused h refused

end loops

/-! ### The bytes between honest parties -/

/-- Honest parties, and the random bytes that each draws for its connection with another. -/
structure Parties (SigningKey VerifyingKey Address : Type) (n : ℕ) where
  signingKey : Fin n → SigningKey
  identity : Fin n → NodeIdentity Address VerifyingKey
  secretBytes : Fin n → Fin n → List UInt8
  length_secretBytes : ∀ p q, (secretBytes p q).length = 32

namespace Parties

variable (parties : Parties SigningKey VerifyingKey Address n) (prims : Primitives SigningKey VerifyingKey)
  (came : Fin n → Fin n → List UInt8)

def identities : List (NodeIdentity Address VerifyingKey) := (List.finRange n).map parties.identity

/-- The cipher of one party for its channel with another. -/
def sessionKey (p q : Fin n) : Cipher :=
  prims.cipher (prims.diffieHellman (parties.secretBytes p q) (prims.publicKey (parties.secretBytes q p)))

/-- A connection of a party with another, on which these bytes have come in. -/
def connection (p q : Fin n) : Connection OpenPipe := ⟨⟨came p q, []⟩, parties.secretBytes p q⟩

/-- The clients of a listener, in the order in which they come. -/
def clients (p : Fin n) (order : List (Fin n)) : List (Except String (Connection OpenPipe)) :=
  order.map fun q => .ok (parties.connection came p q)

/-- The listener of a party after so many clients. -/
def served (p : Fin n) (order : List (Fin n)) (k : ℕ) : Outcome String (List (Option (SecureStream OpenPipe))) :=
  listen prims p (parties.signingKey p) parties.identities k (parties.clients came p order) (List.replicate n none)

/-- What a connector writes on its connection. -/
def asked (q p : Fin n) : List UInt8 :=
  ((Act.bind (ByteStream.writeAll (beBytes 8 q)) fun _ =>
    performHandshake prims (parties.secretBytes q p) (parties.signingKey q) (parties.identity p).publicKey .initiator)
      (parties.connection came q p).stream).2.written

/-- What a listener writes on the connection of a client, once it gets to it. -/
def answered (p q : Fin n) : List UInt8 :=
  match readId (parties.connection came p q).stream with
  | (.ok peerId, stream) =>
      match parties.identities[peerId]? with
      | some identity =>
          (performHandshake prims (parties.secretBytes p q) (parties.signingKey p) identity.publicKey .listener
            stream).2.written
      | none => stream.written
  | (_, stream) => stream.written

/-- The key and the signature of one end. -/
def greeting (p q : Fin n) : List UInt8 :=
  prims.publicKey (parties.secretBytes p q) ++ prims.sign (parties.signingKey p)
    (prims.publicKey (parties.secretBytes p q) ++ prims.publicKey (parties.secretBytes q p))

/-- All that one party writes to another: a connector sends its id first. -/
def sent (p q : Fin n) : List UInt8 :=
  (if p < q then [] else beBytes 8 p) ++ parties.greeting prims p q

/-- The channel of a party with another. -/
def stream (p q : Fin n) : SecureStream OpenPipe :=
  .new ⟨[], parties.sent prims p q⟩ (parties.sessionKey prims p q) (if p < q then .listener else .initiator)

theorem length_identities : parties.identities.length = n := by
  rw [identities, List.length_map, List.length_finRange]

theorem getElem?_identities (p : Fin n) : parties.identities[(p : ℕ)]? = some (parties.identity p) := by
  rw [identities, List.getElem?_map, List.getElem?_eq_getElem (by simp), List.getElem_finRange]
  rfl

end Parties

/-- A set-up in which nothing more is on its way.  The clients of a listener are the parties behind it, in any order,
and later ones.  What a connector has written has come in, and so has what a listener has written on the clients
that it has got to.  A connector may be refused before it gets a connection. -/
structure Linked (prims : Primitives SigningKey VerifyingKey) (parties : Parties SigningKey VerifyingKey Address n)
    (env : Fin n → Environment OpenPipe Address) (came : Fin n → Fin n → List UInt8) : Prop where
  listener : ∀ p, ∃ order later, order.Perm ((List.finRange n).filter (p < ·)) ∧
    (env p).bind (parties.identity p).address = .ok (parties.clients came p order ++ later) ∧
    ∀ k q table, order[k]? = some q → parties.served prims came p order k = .ok table →
      came q p = parties.answered prims came p q
  connector : ∀ p q, p < q → ∃ (refused : List String) (attempts : List (Except String (Connection OpenPipe))),
    (env q).connect p (parties.identity p).address = refused.map .error ++ .ok (parties.connection came q p) :: attempts
  asked : ∀ p q, p < q → came p q = parties.asked prims came q p

section linked

variable {prims : Primitives SigningKey VerifyingKey} {verifyingKey : SigningKey → VerifyingKey}
  {parties : Parties SigningKey VerifyingKey Address n} {env : Fin n → Environment OpenPipe Address}
  {came : Fin n → Fin n → List UInt8} {p q : Fin n}

theorem length_publicKey (hlawful : prims.Lawful verifyingKey) (p q : Fin n) :
    (prims.publicKey (parties.secretBytes p q)).length = 32 :=
  hlawful.length_publicKey _ (parties.length_secretBytes p q)

theorem asked_eq : parties.asked prims came q p =
    (performHandshake prims (parties.secretBytes q p) (parties.signingKey q) (parties.identity p).publicKey .initiator
      (⟨came q p, beBytes 8 q⟩ : OpenPipe)).2.written := rfl

theorem asked_written : ∃ more, parties.asked prims came q p =
    beBytes 8 q ++ prims.publicKey (parties.secretBytes q p) ++ more :=
  performHandshake_written (came q p) (beBytes 8 q)

theorem answered_eq (hn : n ≤ 2 ^ 64) {rest : List UInt8} (hcame : came p q = beBytes 8 q ++ rest) :
    parties.answered prims came p q =
      (performHandshake prims (parties.secretBytes p q) (parties.signingKey p) (parties.identity q).publicKey .listener
        (⟨rest, []⟩ : OpenPipe)).2.written := by
  have hread : readId (parties.connection came p q).stream = (.ok (q : ℕ), ⟨rest, []⟩) := by
    rw [Parties.connection, hcame]
    exact readId_eq (by omega) rest []
  simp only [Parties.answered, hread, parties.getElem?_identities]

/-- **All bytes of a handshake come in** once the listener has got to it. -/
theorem Linked.came_eq (hlawful : prims.Lawful verifyingKey) (hn : n ≤ 2 ^ 64) (h : Linked prims parties env came)
    (hpq : p < q) (hanswered : came q p = parties.answered prims came p q) :
    came q p = parties.sent prims p q ∧ came p q = parties.sent prims q p := by
  obtain ⟨more, hmore⟩ : ∃ more, parties.asked prims came q p =
    beBytes 8 q ++ prims.publicKey (parties.secretBytes q p) ++ more := asked_written
  have hasked := h.asked p q hpq
  rw [hmore, List.append_assoc] at hasked
  -- the listener answers with its key and its signature
  rw [answered_eq hn hasked, performHandshake_signed (length_publicKey hlawful _ _), List.nil_append] at hanswered
  have hgreeting : came q p = parties.greeting prims p q := hanswered
  refine ⟨?_, ?_⟩
  · rw [hgreeting, Parties.sent, if_pos hpq, List.nil_append]
  -- and the connector with its signature
  · rw [h.asked p q hpq, asked_eq, hanswered, performHandshake_signed (length_publicKey hlawful _ _),
      Parties.sent, if_neg hpq.not_gt, Parties.greeting, List.append_assoc]

/-- The listener lets in an honest client. -/
theorem acceptOne_sent (hlawful : prims.Lawful verifyingKey) (hn : n ≤ 2 ^ 64)
    (hkeys : ∀ p, (parties.identity p).publicKey = verifyingKey (parties.signingKey p)) (hpq : p < q)
    (hcame : came p q = parties.sent prims q p) {table : List (Option (SecureStream OpenPipe))}
    (hslot : table[(q : ℕ)]? = some none) :
    acceptOne prims p (parties.signingKey p) parties.identities (parties.connection came p q) table =
      .ok (table.set q (some (parties.stream prims p q))) := by
  rw [Parties.sent, if_neg hpq.not_gt] at hcame
  have hread : readId (parties.connection came p q).stream = (.ok (q : ℕ), ⟨parties.greeting prims q p, []⟩) := by
    rw [Parties.connection, hcame]
    exact readId_eq (by omega) _ []
  refine acceptOne_eq_ok.mpr ⟨q, _, _, _, hread, parties.getElem?_identities q, ?_, hslot, hpq.le, rfl⟩
  rw [hkeys]
  refine (performHandshake_eq hlawful _ (parties.length_secretBytes _ _) _).trans ?_
  rw [Parties.stream, Parties.sent, if_pos hpq, if_pos hpq]
  rfl

/-- A connector gets through to an honest listener. -/
theorem tryEstablish_sent (hlawful : prims.Lawful verifyingKey)
    (hkeys : ∀ p, (parties.identity p).publicKey = verifyingKey (parties.signingKey p)) (hpq : p < q)
    (hcame : came q p = parties.sent prims p q) :
    tryEstablish prims q (parties.signingKey q) (parties.identity p).publicKey (parties.connection came q p) =
      .ok (parties.stream prims q p) := by
  rw [Parties.sent, if_pos hpq, List.nil_append] at hcame
  change (performHandshake prims (parties.secretBytes q p) (parties.signingKey q) (parties.identity p).publicKey
    .initiator (⟨came q p, beBytes 8 q⟩ : OpenPipe)).1 = _
  rw [hcame, hkeys]
  refine (performHandshake_eq hlawful _ (parties.length_secretBytes _ _) _).trans ?_
  rw [Parties.stream, Parties.sent, if_neg hpq.not_gt, if_neg hpq.not_gt, List.append_assoc]
  rfl

/-- **The listener lets in one client after the other**, in whatever order they come. -/
theorem Linked.served (hlawful : prims.Lawful verifyingKey) (hn : n ≤ 2 ^ 64)
    (hkeys : ∀ p, (parties.identity p).publicKey = verifyingKey (parties.signingKey p))
    (h : Linked prims parties env came) {order : List (Fin n)} (hperm : order.Perm ((List.finRange n).filter (p < ·)))
    (hanswered : ∀ k q table, order[k]? = some q → parties.served prims came p order k = .ok table →
      came q p = parties.answered prims came p q) :
    ∀ k ≤ order.length, ∃ table, parties.served prims came p order k = .ok table ∧ table.length = n ∧
      ∀ q : Fin n, table[(q : ℕ)]? = some (if q ∈ order.take k then some (parties.stream prims p q) else none) ∧
        (q ∈ order.take k → came q p = parties.sent prims p q ∧ came p q = parties.sent prims q p) := by
  intro k
  induction k with
  | zero =>
      refine fun _ => ⟨List.replicate n none, rfl, List.length_replicate .., fun q => ⟨?_, by simp⟩⟩
      rw [List.getElem?_replicate, if_pos q.isLt, List.take_zero, if_neg List.not_mem_nil]
  | succ k ih =>
      intro hk
      obtain ⟨table, htable, hlength, hslots⟩ := ih (by omega)
      obtain ⟨q, hq⟩ : ∃ q, order[k]? = some q := ⟨order[k], List.getElem?_eq_getElem hk⟩
      have hpq : p < q := by
        have hmem := hperm.mem_iff.mp (List.mem_of_getElem? hq)
        exact of_decide_eq_true (List.mem_filter.mp hmem).2
      have htake : order.take (k + 1) = order.take k ++ [q] := by
        rw [List.take_add_one, hq, Option.toList_some]
      have hnew : q ∉ order.take k := by
        have hnodup : (order.take (k + 1)).Nodup :=
          (hperm.nodup_iff.mpr ((List.nodup_finRange n).filter _)).sublist (List.take_sublist ..)
        rw [htake] at hnodup
        exact fun hmem => (List.nodup_append.mp hnodup).2.2 q hmem q (List.mem_singleton_self q) rfl
      obtain ⟨hto, hfrom⟩ := h.came_eq hlawful hn hpq (hanswered k q table hq htable)
      have hslot : table[(q : ℕ)]? = some none := by rw [(hslots q).1, if_neg hnew]
      refine ⟨table.set q (some (parties.stream prims p q)), ?_, by rw [List.length_set, hlength], fun x => ?_⟩
      · have hconn : (parties.clients came p order)[k]? = some (.ok (parties.connection came p q)) := by
          rw [Parties.clients, List.getElem?_map, hq, Option.map_some]
        rw [Parties.served, listen_succ hconn htable]
        exact acceptOne_sent hlawful hn hkeys hpq hfrom hslot
      · by_cases hx : x = q
        · subst hx
          rw [List.getElem?_set_self (by omega), htake, if_pos (by simp)]
          exact ⟨rfl, fun _ => ⟨hto, hfrom⟩⟩
        · have hmem : x ∈ order.take (k + 1) ↔ x ∈ order.take k := by simp [htake, hx]
          rw [List.getElem?_set_ne (Fin.val_ne_of_ne (Ne.symm hx)), (hslots x).1]
          simp only [hmem, true_and]
          exact (hslots x).2

theorem connectorHandles_linked (hlawful : prims.Lawful verifyingKey)
    (hkeys : ∀ p, (parties.identity p).publicKey = verifyingKey (parties.signingKey p))
    (h : Linked prims parties env came) (hcame : ∀ p < q, came q p = parties.sent prims p q) :
    ∀ targets : List (Fin n), (∀ p ∈ targets, p < q) →
    connectorHandles prims q (parties.signingKey q) parties.identities (env q).connect (targets.map Fin.val) =
      .ok ((targets.map fun p : Fin n => ((p : ℕ), parties.stream prims q p)).map .ok)
  | [], _ => rfl
  | p :: targets, htargets => by
      have hpq := htargets p (List.mem_cons_self ..)
      obtain ⟨refused, attempts, hconnect⟩ := h.connector p q hpq
      have hthrough := tryEstablish_sent hlawful hkeys hpq (hcame p hpq)
      have hrest := connectorHandles_linked hlawful hkeys h hcame targets fun x hx =>
        htargets x (List.mem_cons_of_mem _ hx)
      simp only [List.map_cons, connectorHandles, parties.getElem?_identities, hrest, Outcome.ok_bind, hconnect,
        establish_refused hthrough]

/-- Every two parties have heard all of each other. -/
theorem Linked.came_all (hlawful : prims.Lawful verifyingKey) (hn : n ≤ 2 ^ 64)
    (hkeys : ∀ p, (parties.identity p).publicKey = verifyingKey (parties.signingKey p))
    (h : Linked prims parties env came) (hpq : p < q) :
    came q p = parties.sent prims p q ∧ came p q = parties.sent prims q p := by
  obtain ⟨order, later, hperm, -, hanswered⟩ := h.listener p
  obtain ⟨table, -, -, hslots⟩ := h.served hlawful hn hkeys hperm hanswered _ le_rfl
  rw [List.take_length] at hslots
  exact (hslots q).2 (hperm.mem_iff.mpr (List.mem_filter.mpr ⟨List.mem_finRange q, decide_eq_true hpq⟩))

theorem length_clients (p : Fin n) : ((List.finRange n).filter (p < ·)).length = n - 1 - p := by
  have hnodup : ((List.finRange n).filter (p < ·)).Nodup := (List.nodup_finRange n).filter _
  have hset : ((List.finRange n).filter (p < ·)).toFinset = Finset.Ioi p := by
    ext q
    simp
  rw [← List.toFinset_card_of_nodup hnodup, hset, Fin.card_Ioi]

/-- A mesh whose bytes have all left it. -/
def MeshNetwork.drained (net : MeshNetwork OpenPipe) : MeshNetwork OpenPipe :=
  { net with channels := net.channels.map (Option.map fun c => departed c.inner.written.length c) }

theorem drained_eq {channels : List (Option (SecureStream OpenPipe))}
    (hchannels : ∀ q : Fin n, channels[(q : ℕ)]? = some (if q = p then none else some (parties.stream prims p q)))
    (hlength : channels.length = n) :
    (⟨p, n, channels⟩ : MeshNetwork OpenPipe).drained = established (parties.sessionKey prims) p := by
  simp only [MeshNetwork.drained, established, MeshNetwork.mk.injEq, true_and]
  refine List.ext_getElem? fun j => ?_
  by_cases hj : j < n
  · have hget : (List.finRange n)[j]? = some ⟨j, hj⟩ := by
      rw [List.getElem?_eq_getElem (by simpa using hj), List.getElem_finRange]
      rfl
    rw [List.getElem?_map, hchannels ⟨j, hj⟩, List.getElem?_map, hget, Option.map_some, Option.map_some]
    by_cases hjp : (⟨j, hj⟩ : Fin n) = p
    · rw [if_pos hjp, if_pos hjp, Option.map_none]
    · rw [if_neg hjp, if_neg hjp, Option.map_some]
      simp only [departed, Parties.stream, SecureStream.new, List.drop_length]
  · rw [List.getElem?_eq_none (by simpa [hlength] using hj), List.getElem?_eq_none (by simpa using hj)]

theorem Linked.listened (hlawful : prims.Lawful verifyingKey) (hn : n ≤ 2 ^ 64)
    (hkeys : ∀ p, (parties.identity p).publicKey = verifyingKey (parties.signingKey p))
    (h : Linked prims parties env came) (p : Fin n) :
    ∃ incoming table, (env p).bind (parties.identity p).address = .ok incoming ∧
      listen prims p (parties.signingKey p) parties.identities (parties.identities.length - 1 - p) incoming
        (List.replicate parties.identities.length none) = .ok table ∧ table.length = n ∧
      ∀ q : Fin n, table[(q : ℕ)]? = some (if p < q then some (parties.stream prims p q) else none) := by
  obtain ⟨order, later, hperm, hbind, hanswered⟩ := h.listener p
  obtain ⟨table, htable, hlength, hslots⟩ := h.served hlawful hn hkeys hperm hanswered _ le_rfl
  refine ⟨_, table, hbind, ?_, hlength, fun q => ?_⟩
  · have hcount : parties.identities.length - 1 - p = (parties.clients came p order).length := by
      rw [parties.length_identities, Parties.clients, List.length_map, hperm.length_eq, length_clients]
    rw [hcount, listen_append, parties.length_identities]
    simpa only [Parties.served, Parties.clients, List.length_map] using htable
  · have hmem : q ∈ order ↔ p < q := by
      rw [hperm.mem_iff, List.mem_filter, decide_eq_true_eq]
      exact and_iff_right (List.mem_finRange q)
    rw [(hslots q).1, List.take_length]
    simp only [hmem]

theorem exists_targets (p : Fin n) : ∃ targets : List (Fin n), targets.map Fin.val = List.range p ∧
    ∀ q, q ∈ targets ↔ q < p := by
  have htargets : ((List.finRange p).map (Fin.castLE p.isLt.le)).map Fin.val = List.range p := by
    rw [List.map_map]
    exact List.map_coe_finRange_eq_range
  refine ⟨_, htargets, fun q => ?_⟩
  rw [← List.mem_map_of_injective Fin.val_injective, htargets, List.mem_range, Fin.lt_def]

theorem merge_streams {targets : List (Fin n)} (htargets : targets.map Fin.val = List.range p)
    (hmem : ∀ q, q ∈ targets ↔ q < p) {table : List (Option (SecureStream OpenPipe))} (hlength : table.length = n)
    (hslot : ∀ q : Fin n, table[(q : ℕ)]? = some (if p < q then some (parties.stream prims p q) else none)) :
    ∃ channels, merge p (targets.map fun q : Fin n => ((q : ℕ), parties.stream prims p q)) table = .ok channels ∧
      channels.length = n ∧
      ∀ q : Fin n, channels[(q : ℕ)]? = some (if q = p then none else some (parties.stream prims p q)) := by
  set results := targets.map fun q : Fin n => ((q : ℕ), parties.stream prims p q) with hresults
  have hfst : results.map Prod.fst = List.range p := by
    rw [hresults, List.map_map]
    exact htargets
  have hempty : ∀ r ∈ results, r.1 < (p : ℕ) ∧ table[r.1]? = some none := by
    intro r hr
    obtain ⟨q, hq, rfl⟩ := List.mem_map.mp hr
    have hqp := (hmem q).mp hq
    refine ⟨hqp, ?_⟩
    rw [hslot, if_neg hqp.not_gt]
  obtain ⟨channels, hmerge, hin, hout⟩ := merge_eq (hfst ▸ List.nodup_range) hempty
  have hchannels : ∀ q : Fin n, channels[(q : ℕ)]? = some (if q = p then none else some (parties.stream prims p q)) := by
    intro q
    by_cases hq : q < p
    · rw [if_neg hq.ne]
      exact hin _ (List.mem_map_of_mem ((hmem q).mpr hq))
    · have hnot : (q : ℕ) ∉ results.map Prod.fst := by
        rw [hfst, List.mem_range]
        exact hq
      rw [hout _ hnot, hslot]
      by_cases hqp : q = p
      · rw [if_pos hqp, if_neg (hqp ▸ lt_irrefl p)]
      · rw [if_neg hqp, if_pos (lt_of_le_of_ne (not_lt.mp hq) (Ne.symm hqp))]
  refine ⟨channels, hmerge, le_antisymm ?_ ?_, hchannels⟩
  · have hlast : n ∉ results.map Prod.fst := by
      rw [hfst, List.mem_range]
      omega
    rw [← List.getElem?_eq_none_iff, hout n hlast, List.getElem?_eq_none_iff, hlength]
  · have hpos := p.isLt
    obtain ⟨hlt, -⟩ := List.getElem?_eq_some_iff.mp (hchannels ⟨n - 1, by omega⟩)
    dsimp only at hlt
    omega

/-- **Honest parties set their mesh up.**  Let the primitives of any two ends fit together, and let nothing more be on
its way.  Then all parties have returned, whatever the order in which clients have come: each has the mesh of
`established`, in which every two parties share a key and the one with the smaller id has listened, and what one has
written is what has come in at the other. -/
theorem setUp (hlawful : prims.Lawful verifyingKey) (hn : n ≤ 2 ^ 64)
    (hkeys : ∀ p, (parties.identity p).publicKey = verifyingKey (parties.signingKey p))
    (h : Linked prims parties env came) :
    (∀ p q, parties.sessionKey prims p q = parties.sessionKey prims q p) ∧
    ∀ p : Fin n, ∃ net, fromIdentities prims p (parties.signingKey p) parties.identities (env p) = .ok net ∧
      net.drained = established (parties.sessionKey prims) p ∧
      ∀ (q : Fin n) c, net.channel q = some c → c.inner.written = came q p := by
  refine ⟨fun p q => ?_, fun p => ?_⟩
  · rw [Parties.sessionKey, hlawful.diffieHellman_comm _ _ (parties.length_secretBytes p q)
      (parties.length_secretBytes q p), Parties.sessionKey]
  have hcame := fun {x y : Fin n} (hxy : x < y) => h.came_all hlawful hn hkeys hxy
  obtain ⟨incoming, table, hbind, hlisten, hlength, hslot⟩ := h.listened hlawful hn hkeys p
  obtain ⟨targets, htargets, hmem⟩ := exists_targets p
  have hhandles := connectorHandles_linked hlawful hkeys h (fun q hq => (hcame hq).1) targets fun q hq => (hmem q).mp hq
  obtain ⟨channels, hmerge, hlengths, hchannels⟩ := merge_streams htargets hmem hlength hslot
  rw [htargets] at hhandles
  refine ⟨⟨p, n, channels⟩, ?_, drained_eq hchannels hlengths, fun q c hc => ?_⟩
  · simp only [fromIdentities, parties.getElem?_identities, hbind, hhandles, Outcome.ok_bind, hlisten, joinAll_map_ok,
      Outcome.both, hmerge]
    rw [parties.length_identities]
  · rw [MeshNetwork.channel, hchannels q, Option.join_some] at hc
    split at hc
    · cases hc
    · next hqp =>
        obtain rfl := Option.some.inj hc
        change parties.sent prims p q = came q p
        obtain hlt | hgt := lt_or_gt_of_ne hqp
        · exact ((hcame hlt).2).symm
        · exact ((hcame hgt).1).symm

end linked

/-! ### Three parties -/

section honest

variable (parties : Parties SigningKey VerifyingKey Address n) (prims : Primitives SigningKey VerifyingKey)

/-- What has come in at a party from another. -/
def Parties.arrived (p q : Fin n) : List UInt8 := parties.sent prims q p

/-- The connections of a party at the end of a set-up, with its clients in this order. -/
def Parties.honest (order : Fin n → List (Fin n)) (p : Fin n) : Environment OpenPipe Address where
  bind _ := .ok (parties.clients (parties.arrived prims) p (order p))
  connect target _ := if h : target < n then [.ok (parties.connection (parties.arrived prims) p ⟨target, h⟩)] else []

variable {parties prims} in
theorem linked_honest {verifyingKey : SigningKey → VerifyingKey} (hlawful : prims.Lawful verifyingKey) (hn : n ≤ 2 ^ 64)
    {order : Fin n → List (Fin n)} (hperm : ∀ p, (order p).Perm ((List.finRange n).filter (p < ·))) :
    Linked prims parties (parties.honest prims order) (parties.arrived prims) where
  listener p := by
    refine ⟨order p, [], hperm p, by rw [List.append_nil]; rfl, fun k q table hq _ => ?_⟩
    have hpq : p < q := of_decide_eq_true (List.mem_filter.mp ((hperm p).mem_iff.mp (List.mem_of_getElem? hq))).2
    have hcame : parties.arrived prims p q = beBytes 8 q ++ parties.greeting prims q p := by
      rw [Parties.arrived, Parties.sent, if_neg hpq.not_gt]
    rw [answered_eq hn hcame, Parties.greeting,
      performHandshake_signed (length_publicKey hlawful _ _), List.nil_append,
      Parties.arrived, Parties.sent, if_pos hpq, List.nil_append, Parties.greeting]
  connector p q _ := ⟨[], [], by
    simp only [Parties.honest, dif_pos p.isLt]
    rfl⟩
  asked p q hpq := by
    rw [asked_eq, Parties.arrived, Parties.arrived, Parties.sent, Parties.sent, if_pos hpq, if_neg hpq.not_gt,
      List.nil_append, Parties.greeting, Parties.greeting,
      performHandshake_signed (length_publicKey hlawful _ _), List.append_assoc]

end honest

/-- Primitives that fit together: a public key is its secret, and what two parties share is the sum of theirs. -/
def sumPrimitives : Primitives UInt8 UInt8 where
  publicKey secretBytes := secretBytes
  diffieHellman secretBytes peerPublic := List.zipWith (· + ·) secretBytes peerPublic
  cipher _ := tagCipher
  sign key message := (message.map (· + key) ++ List.replicate 64 0).take 64
  verify key message signature := signature == (message.map (· + key) ++ List.replicate 64 0).take 64

theorem lawful_sumPrimitives : sumPrimitives.Lawful id where
  length_publicKey _ hsecret := hsecret
  length_sign key message := by simp [sumPrimitives]
  verify_sign key message := by simp [sumPrimitives]
  diffieHellman_comm _ _ _ _ := List.zipWith_comm_of_comm fun x y => UInt8.add_comm x y

/-- Three parties, each with its own key. -/
def threeHonest : Parties UInt8 UInt8 Unit 3 where
  signingKey p := UInt8.ofNat (p + 1)
  identity p := ⟨(), UInt8.ofNat (p + 1)⟩
  secretBytes p q := List.replicate 32 (UInt8.ofNat (3 * p + q))
  length_secretBytes _ _ := List.length_replicate ..

/-- The last party comes first. -/
def lastFirst (p : Fin 3) : List (Fin 3) := ((List.finRange 3).filter (p < ·)).reverse

theorem setUp_three : ∃ net, fromIdentities sumPrimitives 1 (threeHonest.signingKey 1) threeHonest.identities
    (threeHonest.honest sumPrimitives lastFirst 1) = .ok net ∧
      net.drained = established (threeHonest.sessionKey sumPrimitives) 1 := by
  have hlinked : Linked sumPrimitives threeHonest (threeHonest.honest sumPrimitives lastFirst)
      (threeHonest.arrived sumPrimitives) :=
    linked_honest lawful_sumPrimitives (by decide) fun p => List.reverse_perm _
  obtain ⟨net, hnet, hdrained, -⟩ := (setUp lawful_sumPrimitives (by decide) (fun _ => rfl) hlinked).2 1
  exact ⟨net, hnet, hdrained⟩

end MpcCore
