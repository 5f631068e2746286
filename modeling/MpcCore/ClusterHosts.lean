import MpcCore.ClusterBytes
import MpcCore.HandshakeAgreement
import Mathlib.Logic.Relation

/-! # A cluster from its handshakes on, over bytes

The parties of a computation from their new contexts on, over a mesh that is set up: each greets the others with
its digest, concludes its handshake, and goes on with its tasks, while others may be anywhere in theirs.

* `HostStep`: a call of a party that succeeds, or some bytes that travel.
* `HostRefines`: behind the digests that are still to be read, the bytes between two parties are the packets of
  the messages on the channel between them; who is past its handshake has heard from all, with its own digest.
* `HostRefines.step`, `overBytes`: every run over bytes, from the mesh on, is a run over messages of parties that
  are past their handshakes. -/

namespace MpcCore

open Operation MpcScheme ExecutionContext
open MeshNetwork (OpenPipe Flight Joined IsGroupOrder SendObjectsMany RecvObjectsMany groupBytes established deliver)
open SecureStream (tagLen)
open Relation (ReflTransGen)

variable {S Op Wire Elem Input Ctx Pending N : Type} {n : ℕ} [Network N Elem] {codec : Codec Elem}
  {hashes : Codec (List UInt8)}

/-! ### The two halves of a handshake that succeeds -/

section halves

omit [Network N Elem] in
theorem onNetwork_eq_ok {α : Type} {x : Act N String α} {a : α} {ec ec' : ExecutionContext S Op Wire Elem Ctx Pending N} :
    onNetwork x ec = (.ok a, ec') ↔ ∃ network, x ec.network = (.ok a, network) ∧ ec' = { ec with network } := by
  unfold onNetwork
  rcases hx : x ec.network with ⟨r, network⟩
  simp only [Prod.mk.injEq, Outcome.mapErr_eq_ok]
  constructor
  · rintro ⟨rfl, rfl⟩
    exact ⟨network, ⟨rfl, rfl⟩, rfl⟩
  · rintro ⟨network', ⟨rfl, rfl⟩, rfl⟩
    exact ⟨rfl, rfl⟩

/-- A party that greets sends the digest of its circuit. -/
theorem greet_eq_ok {digest : MpcCircuit S Op → Outcome String (List UInt8)} {circuit : MpcCircuit S Op}
    {network : N} {ec : ExecutionContext S Op Wire Elem Ctx Pending N} {hash : List UInt8} {sendLen : ℕ} :
    greet digest (.new circuit network) = (.ok (hash, sendLen), ec) ↔ digest circuit = .ok hash ∧ ∃ network',
      @Network.broadcastObject N Elem _ hash network = (.ok sendLen, network') ∧ ec = .new circuit network' := by
  change Act.bind (Act.ret ((digest circuit).mapErr schemeFault)) _ _ = _ ↔ _
  rw [Act.bind_eq_ok]
  simp only [Act.ret_apply, Prod.mk.injEq, Outcome.mapErr_eq_ok, Act.bind_eq_ok, onNetwork_eq_ok]
  constructor
  · rintro ⟨hash', _, ⟨hdigest, rfl⟩, len, _, ⟨network', hcall, rfl⟩, hret, rfl⟩
    obtain ⟨rfl, rfl⟩ := Prod.mk.inj (Outcome.ok.inj hret)
    exact ⟨hdigest, network', hcall, rfl⟩
  · rintro ⟨hdigest, network', hcall, rfl⟩
    exact ⟨hash, _, ⟨hdigest, rfl⟩, sendLen, _, ⟨network', hcall, rfl⟩, rfl, rfl⟩

theorem disagree_eq_false {hash : List UInt8} : ∀ {batches : List (List (List UInt8))},
    disagree hash batches = .ok false ↔ ∀ batch ∈ batches, batch.head? = some hash
  | [] => by simp [disagree]
  | [] :: batches => by simp [disagree]
  | (h :: hs) :: batches => by
      rw [disagree, List.head?_cons, Outcome.unwrap_some, Outcome.ok_bind, List.forall_mem_cons, List.head?_cons,
        ← disagree_eq_false, Option.some.injEq]
      by_cases hne : h = hash
      · rw [if_neg (not_not.mpr hne)]
        exact (and_iff_right hne).symm
      · rw [if_pos hne]
        simp [hne]

variable [Operation Op] [MpcScheme S Op Wire Elem Input Ctx Pending]

omit [Operation Op] in
/-- A party that concludes its handshake has read its own digest from all others. -/
theorem conclude_eq_ok {rng : Draws} {hash : List UInt8} {sendLen : ℕ} {lens : ℕ × ℕ}
    {ec ec' : ExecutionContext S Op Wire Elem Ctx Pending N} :
    conclude rng hash sendLen ec = (.ok lens, ec') ↔
      ∃ batches network context network', @Network.recvHashesMany N Elem _ (digestRequests
          (@Network.nPlayers N Elem _ ec.network) (@Network.myId N Elem _ ec.network)) ec.network =
            (.ok (batches, lens.2), network) ∧
        sendLen = lens.1 ∧ (∀ batch ∈ batches, batch.head? = some hash) ∧
        establishContext ec.circuit.scheme ec.circuit rng network = (.ok context, network') ∧
        ec' = { ec with network := network', schemeContext := some context, executionState := .handshaked } := by
  unfold conclude
  rw [Act.read_bind]
  constructor
  · intro h
    obtain ⟨⟨batches, len⟩, _, hcall, h⟩ := Act.bind_eq_ok.mp h
    obtain ⟨network, hrecv, rfl⟩ := onNetwork_eq_ok.mp hcall
    obtain ⟨disagrees, _, hcheck, h⟩ := Act.bind_eq_ok.mp h
    obtain ⟨hdisagree, rfl⟩ := Prod.mk.inj hcheck
    obtain ⟨lens', _, hverdict, h⟩ := Act.bind_eq_ok.mp h
    obtain ⟨hlens, rfl⟩ := Prod.mk.inj hverdict
    rw [Act.read_bind] at h
    obtain ⟨context, _, hestablish, h⟩ := Act.bind_eq_ok.mp h
    obtain ⟨network', hcontext, rfl⟩ := onNetwork_eq_ok.mp hestablish
    obtain ⟨hret, rfl⟩ := Prod.mk.inj h
    obtain rfl := Outcome.ok.inj hret
    clear hcheck hverdict
    cases disagrees with
    | true => cases hlens
    | false =>
        obtain rfl := Outcome.ok.inj hlens
        exact ⟨batches, network, context, network', hrecv, rfl, disagree_eq_false.mp hdisagree, hcontext, rfl⟩
  · rintro ⟨batches, network, context, network', hrecv, rfl, hagree, hcontext, rfl⟩
    rw [Act.bind_of_ok (onNetwork_eq_ok.mpr ⟨network, hrecv, rfl⟩)]
    simp only [disagree_eq_false.mpr hagree, Act.ret_ok_bind, Bool.false_eq_true, if_false, Act.read_bind]
    rw [Act.bind_of_ok (onNetwork_eq_ok.mpr ⟨network', hcontext, rfl⟩)]
    rfl

end halves

/-! ### Digests over a mesh -/

section digests

variable {T : Type} {meshes : Fin n → MeshNetwork OpenPipe} {flight : Flight n} {p : Fin n} {m : MeshNetwork OpenPipe}
  {len : ℕ}

theorem broadcastObject_eq_ok {σ : Type} [ByteStream σ] {toStdvec : List T → Except String (List UInt8)} {obj : T}
    {net net' : MeshNetwork σ} : MeshNetwork.broadcastObject toStdvec obj net = (.ok len, net') ↔
      ∃ bytes, toStdvec [obj] = .ok bytes ∧ MeshNetwork.broadcast bytes net = (.ok len, net') := by
  unfold MeshNetwork.broadcastObject MeshNetwork.broadcastObjects
  cases toStdvec [obj] with
  | ok bytes => simp
  | error e => simp

theorem mem_digestRequests {x : Fin n} : (x : ℕ) ∈ (digestRequests n p).map ReceiveRequest.fromId ↔ x ≠ p := by
  rw [digestRequests, List.map_map, List.mem_map]
  constructor
  · rintro ⟨i, hi, rfl⟩ hx
    exact (mem_others.mp hi).2 (congrArg Fin.val hx)
  · exact fun hx => ⟨x, mem_others.mpr ⟨x.isLt, Fin.val_ne_of_ne hx⟩, rfl⟩

theorem exists_of_mem_digestRequests {q : ℕ} (h : q ∈ (digestRequests n p).map ReceiveRequest.fromId) :
    ∃ x : Fin n, (x : ℕ) = q ∧ x ≠ p := by
  rw [digestRequests, List.map_map, List.mem_map] at h
  obtain ⟨i, hi, rfl⟩ := h
  obtain ⟨hlt, hne⟩ := mem_others.mp hi
  exact ⟨⟨i, hlt⟩, rfl, fun he => hne (by rw [← he])⟩

/-- A party that has received the digests has read the first message of each other, and nothing else. -/
theorem heard_of_recv (hjoined : Joined meshes flight) {fromBytes : List UInt8 → Except String (List T)}
    {order : List ℕ} {batches : List (List T)} (hord : IsGroupOrder ((digestRequests n p).map ReceiveRequest.fromId) order)
    (h : RecvObjectsMany fromBytes (digestRequests n p) order (meshes p) (.ok (batches, len)) m) {x : Fin n} (hx : x ≠ p) :
    ∃ bytes rest objs, flight x p = bytes :: rest ∧ fromBytes bytes = .ok objs ∧
      ∃ batch ∈ batches, ∀ obj ∈ batch, obj ∈ objs := by
  obtain ⟨-, -, -, items, hfst, rfl, -, hrecv⟩ := MeshNetwork.recvObjectsMany_settled hord h
  obtain ⟨c, m, c', hc, bytes, hbytes, hread⟩ :=
    hrecv x (hord.mem_iff.mpr (List.mem_dedup.mpr (mem_digestRequests.mpr hx)))
  obtain ⟨bytes', rest, hflight, hok⟩ := hjoined.recv hc hbytes (by simp)
  obtain ⟨rfl, -⟩ := Prod.mk.inj (Outcome.ok.inj hok)
  obtain ⟨item, hitem, hfrom⟩ : ∃ item ∈ items, item.1.fromId = x := by
    have hmem := mem_digestRequests.mpr hx
    rw [← hfst, List.map_map] at hmem
    exact List.mem_map.mp hmem
  refine ⟨bytes, rest, _, hflight, hread, item.2, List.mem_map_of_mem hitem, fun obj hobj => ?_⟩
  exact List.mem_flatMap.mpr ⟨item, List.mem_filter.mpr ⟨hitem, decide_eq_true hfrom⟩, hobj⟩

end digests

/-! ### Hosts -/

/-- A party over its network: before its handshake, with its digest sent, or past it. -/
inductive Host (S Op Wire Elem Ctx Pending N : Type) where
  | fresh (context : ExecutionContext S Op Wire Elem Ctx Pending N)
  | greeted (context : ExecutionContext S Op Wire Elem Ctx Pending N) (hash : List UInt8) (sendLen : ℕ)
  | entered (node : Node S Op Wire Elem Ctx Pending N)

namespace Host

/-- The context of a party. -/
def context : Host S Op Wire Elem Ctx Pending N → ExecutionContext S Op Wire Elem Ctx Pending N
  | fresh ec => ec
  | greeted ec _ _ => ec
  | entered node => node.context

/-- The channels of a party. -/
def mesh (backed : MeshBacked N codec hashes) (host : Host S Op Wire Elem Ctx Pending N) : MeshNetwork OpenPipe :=
  backed.mesh host.context.network

/-- A party over another network. -/
def withNetwork (host : Host S Op Wire Elem Ctx Pending N) (network : N) : Host S Op Wire Elem Ctx Pending N :=
  match host with
  | fresh ec => fresh { ec with network }
  | greeted ec hash sendLen => greeted { ec with network } hash sendLen
  | entered node => entered { node with context := { node.context with network } }

/-- A party with other channels. -/
def onMesh (backed : MeshBacked N codec hashes) (host : Host S Op Wire Elem Ctx Pending N) (m : MeshNetwork OpenPipe) :
    Host S Op Wire Elem Ctx Pending N :=
  host.withNetwork (backed.onMesh host.context.network m)

/-- It has sent its digest. -/
def hasSent : Host S Op Wire Elem Ctx Pending N → Bool
  | fresh _ => false
  | _ => true

/-- It is past its handshake. -/
def hasEntered : Host S Op Wire Elem Ctx Pending N → Bool
  | entered _ => true
  | _ => false

/-- Its next call receives: its digests, or the messages of its task. -/
def receives : Host S Op Wire Elem Ctx Pending N → Bool
  | fresh _ => false
  | greeted _ _ _ => true
  | entered node => node.waiting.isSome

/-- The party as it is, or will be, past its handshake. -/
def node (circuit : MpcCircuit S Op) (context : Ctx) : Host S Op Wire Elem Ctx Pending N → Node S Op Wire Elem Ctx Pending N
  | fresh ec => .handshaked circuit context ec.network
  | greeted ec _ _ => .handshaked circuit context ec.network
  | entered node => node

end Host

namespace Cluster

variable [Operation Op] [MpcScheme S Op Wire Elem Input Ctx Pending]

/-- The calls that succeed, at any party, and the bytes that travel.  Every message fits the header. -/
inductive HostStep (backed : MeshBacked N codec hashes) (digest : MpcCircuit S Op → Outcome String (List UInt8))
    (rng : Fin n → Draws) (inputs : Fin n → List (WireId × Input)) (hosts : Fin n → Host S Op Wire Elem Ctx Pending N) :
    (Fin n → Host S Op Wire Elem Ctx Pending N) → Prop where
  | greet {p : Fin n} {ec ec' : ExecutionContext S Op Wire Elem Ctx Pending N} {hash : List UInt8} {sendLen : ℕ}
      (hp : hosts p = .fresh ec) (hcall : greet digest ec = (.ok (hash, sendLen), ec'))
      (hfits : ∀ bytes, hashes.toStdvec [hash] = .ok bytes → bytes.length + tagLen < 2 ^ 32) :
      HostStep backed digest rng inputs hosts (Function.update hosts p (.greeted ec' hash sendLen))
  | conclude {p : Fin n} {ec ec' : ExecutionContext S Op Wire Elem Ctx Pending N} {hash : List UInt8} {sendLen : ℕ}
      {lens : ℕ × ℕ} (hp : hosts p = .greeted ec hash sendLen)
      (hcall : conclude (rng p) hash sendLen ec = (.ok lens, ec')) :
      HostStep backed digest rng inputs hosts (Function.update hosts p (.entered ⟨ec', ec'.circuit.tasks, none⟩))
  | call {p : Fin n} {node node' : Node S Op Wire Elem Ctx Pending N} (hp : hosts p = .entered node)
      (hcall : NodeCall codec (inputs p) node node') :
      HostStep backed digest rng inputs hosts (Function.update hosts p (.entered node'))
  | deliver (p q : Fin n) (k : ℕ) :
      HostStep backed digest rng inputs hosts fun x =>
        (hosts x).onMesh backed (deliver (fun y => (hosts y).mesh backed) p q k x)

/-- What the next call of a party returns, but for its value. -/
def nextCall (digest : MpcCircuit S Op → Outcome String (List UInt8)) (rng : Draws) (ins : List (WireId × Input)) :
    Host S Op Wire Elem Ctx Pending N → Outcome Fault Unit
  | .fresh ec => (greet digest ec).1.bind fun _ => .ok ()
  | .greeted ec hash sendLen => (conclude rng hash sendLen ec).1.bind fun _ => .ok ()
  | .entered ⟨ec, _, some (task, batch)⟩ => (task.complete ec.circuit.scheme batch ec).1
  | .entered ⟨ec, task :: _, none⟩ => (task.begin ec.circuit.scheme ins ec).1.bind fun _ => .ok ()
  | .entered ⟨_, [], none⟩ => .ok ()

theorem nextCall_of_nodeCall {digest : MpcCircuit S Op → Outcome String (List UInt8)} {rng : Draws}
    {ins : List (WireId × Input)} {node node' : Node S Op Wire Elem Ctx Pending N} (h : NodeCall codec ins node node') :
    nextCall digest rng ins (.entered node) = .ok () := by
  obtain ⟨ec, todo, waiting⟩ := node
  cases h with
  | begin hrest htodo hcall _ =>
      obtain rfl := hrest
      obtain rfl := htodo
      simp only [nextCall, hcall, Outcome.ok_bind]
  | complete hwaiting hcall =>
      obtain rfl := hwaiting
      exact congrArg Prod.fst hcall

/-- The context of the scheme does not depend on the network but for its ids. -/
def Establishes (backed : MeshBacked N codec hashes) (rng : Fin n → Draws) (circuits : Fin n → MpcCircuit S Op)
    (contexts : Fin n → Ctx) : Prop :=
  ∀ (p : Fin n) (network : N), (backed.mesh network).myId = p → (backed.mesh network).nParties = n →
    establishContext (circuits p).scheme (circuits p) (rng p) network = (.ok (contexts p), network)

/-- The bytes of the digest of a circuit. -/
def digestBytes (hashes : Codec (List UInt8)) (digest : MpcCircuit S Op → Outcome String (List UInt8))
    (circuit : MpcCircuit S Op) : List UInt8 :=
  match digest circuit with
  | .ok hash => ((hashes.toStdvec [hash]).toOption).getD []
  | _ => []

/-- The digests that are sent and not yet read. -/
def unread (hashes : Codec (List UInt8)) (digest : MpcCircuit S Op → Outcome String (List UInt8))
    (circuits : Fin n → MpcCircuit S Op) (hosts : Fin n → Host S Op Wire Elem Ctx Pending N) : Flight n := fun p q =>
  if (hosts p).hasSent = true ∧ (hosts q).hasEntered = false ∧ p ≠ q then [digestBytes hashes digest (circuits p)] else []

/-- A party on its way into the computation: as long as it is fresh it is quiet, and later it has a digest. -/
inductive Entering (hashes : Codec (List UInt8)) (digest : MpcCircuit S Op → Outcome String (List UInt8))
    (circuit : MpcCircuit S Op) (quiet : Prop) : Host S Op Wire Elem Ctx Pending N → Prop where
  | fresh {network : N} (hquiet : quiet) : Entering hashes digest circuit quiet (.fresh (.new circuit network))
  | greeted {network : N} {hash : List UInt8} {sendLen : ℕ} (hdigest : digest circuit = .ok hash)
      (hbytes : hashes.toStdvec [hash] = .ok (digestBytes hashes digest circuit)) :
      Entering hashes digest circuit quiet (.greeted (.new circuit network) hash sendLen)
  | entered {node : Node S Op Wire Elem Ctx Pending N} {hash : List UInt8} (hdigest : digest circuit = .ok hash)
      (hbytes : hashes.toStdvec [hash] = .ok (digestBytes hashes digest circuit)) :
      Entering hashes digest circuit quiet (.entered node)

/-- Behind the digests, the bytes between the parties are the messages on the channels, and a party past its
handshake has heard its own digest from all others. -/
structure HostRefines (backed : MeshBacked N codec hashes) (size : Message Elem → ℕ)
    (digest : MpcCircuit S Op → Outcome String (List UInt8)) (circuits : Fin n → MpcCircuit S Op) (contexts : Fin n → Ctx)
    (hosts : Fin n → Host S Op Wire Elem Ctx Pending N)
    (net : RoundProgram.Net (Fin n) (Party S Op Wire Elem Ctx Pending n) (Stage S Op Wire Elem Ctx Pending n)
      (Packet Elem)) : Prop where
  refines : Refines backed size (unread hashes digest circuits hosts)
    (fun p => (hosts p).node (circuits p) (contexts p)) net
  entering : ∀ p, Entering hashes digest (circuits p) (∀ q, net.channel p q = []) (hosts p)
  agreed : ∀ p, (hosts p).hasEntered = true → ∀ q, (hosts q).hasSent = true ∧ digest (circuits q) = digest (circuits p)

section hosts

variable {backed : MeshBacked N codec hashes} {size : Message Elem → ℕ}
  {digest : MpcCircuit S Op → Outcome String (List UInt8)} {rng : Fin n → Draws} {circuits : Fin n → MpcCircuit S Op}
  {contexts : Fin n → Ctx} {inputs : Fin n → List (WireId × Input)}
  {hosts hosts' : Fin n → Host S Op Wire Elem Ctx Pending N}
  {net : RoundProgram.Net (Fin n) (Party S Op Wire Elem Ctx Pending n) (Stage S Op Wire Elem Ctx Pending n) (Packet Elem)}
  {p : Fin n}

/-! What a step changes of the parties, as they are past their handshakes, and of the digests. -/

omit [Network N Elem] [Operation Op] [MpcScheme S Op Wire Elem Input Ctx Pending] in
theorem node_update (host : Host S Op Wire Elem Ctx Pending N) :
    (fun x => (Function.update hosts p host x).node (circuits x) (contexts x)) =
      Function.update (fun x => (hosts x).node (circuits x) (contexts x)) p (host.node (circuits p) (contexts p)) :=
  funext fun x => Function.apply_update (fun x host => Host.node (circuits x) (contexts x) host) hosts p host x

omit [Operation Op] [MpcScheme S Op Wire Elem Input Ctx Pending] in
theorem mesh_node (host : Host S Op Wire Elem Ctx Pending N) (circuit : MpcCircuit S Op) (context : Ctx) :
    (host.node circuit context).mesh backed = host.mesh backed := by
  cases host <;> rfl

omit [Operation Op] [MpcScheme S Op Wire Elem Input Ctx Pending] in
theorem node_onMesh (host : Host S Op Wire Elem Ctx Pending N) (m : MeshNetwork OpenPipe) (circuit : MpcCircuit S Op)
    (context : Ctx) : (host.onMesh backed m).node circuit context = (host.node circuit context).onMesh backed m := by
  cases host <;> rfl

omit [Operation Op] [MpcScheme S Op Wire Elem Input Ctx Pending] in
theorem mesh_onMesh (host : Host S Op Wire Elem Ctx Pending N) (m : MeshNetwork OpenPipe) :
    (host.onMesh backed m).mesh backed = m := by
  cases host <;> exact backed.mesh_onMesh _ _

omit [Network N Elem] [Operation Op] [MpcScheme S Op Wire Elem Input Ctx Pending] in
theorem hasSent_withNetwork (host : Host S Op Wire Elem Ctx Pending N) (network : N) :
    (host.withNetwork network).hasSent = host.hasSent := by
  cases host <;> rfl

omit [Network N Elem] [Operation Op] [MpcScheme S Op Wire Elem Input Ctx Pending] in
theorem hasEntered_withNetwork (host : Host S Op Wire Elem Ctx Pending N) (network : N) :
    (host.withNetwork network).hasEntered = host.hasEntered := by
  cases host <;> rfl

omit [Network N Elem] [Operation Op] [MpcScheme S Op Wire Elem Input Ctx Pending] in
theorem hasSent_of_hasEntered {host : Host S Op Wire Elem Ctx Pending N} (h : host.hasEntered = true) :
    host.hasSent = true := by
  cases host with
  | fresh _ | greeted _ _ _ => cases h
  | entered _ => rfl

omit [Network N Elem] [Operation Op] [MpcScheme S Op Wire Elem Input Ctx Pending] in
theorem exists_of_hasEntered {host : Host S Op Wire Elem Ctx Pending N} (h : host.hasEntered = true) :
    ∃ node, host = .entered node := by
  cases host with
  | fresh _ | greeted _ _ _ => cases h
  | entered node => exact ⟨node, rfl⟩

omit [Network N Elem] [Operation Op] [MpcScheme S Op Wire Elem Input Ctx Pending] in
theorem unread_congr (hsent : ∀ x, (hosts' x).hasSent = (hosts x).hasSent)
    (hentered : ∀ x, (hosts' x).hasEntered = (hosts x).hasEntered) :
    unread hashes digest circuits hosts' = unread hashes digest circuits hosts := by
  funext x y
  rw [unread, unread, hsent, hentered]

omit [Network N Elem] [Operation Op] [MpcScheme S Op Wire Elem Input Ctx Pending] in
/-- Nobody waits for the digest of a party that is fresh, nor for any at one that has entered. -/
theorem unread_eq_nil {x y : Fin n} (h : (hosts x).hasSent = false ∨ (hosts y).hasEntered = true) :
    unread hashes digest circuits hosts x y = [] := by
  refine if_neg fun hxy => ?_
  obtain h | h := h
  · rw [h] at hxy
    exact absurd hxy.1 (by simp)
  · rw [h] at hxy
    exact absurd hxy.2.1 (by simp)

omit [Operation Op] [MpcScheme S Op Wire Elem Input Ctx Pending] in
theorem hostMesh_update (host : Host S Op Wire Elem Ctx Pending N) :
    (fun x => (Function.update hosts p host x).mesh backed) =
      Function.update (fun x => (hosts x).mesh backed) p (host.mesh backed) :=
  funext fun x => Function.apply_update (fun _ host => Host.mesh backed host) hosts p host x

omit [Operation Op] in
theorem HostRefines.joined (h : HostRefines backed size digest circuits contexts hosts net) :
    ∃ flight : Flight n, Joined (fun x => (hosts x).mesh backed)
        (fun x y => unread hashes digest circuits hosts x y ++ flight x y) ∧
      ∀ x y, List.Forall₂ (fun bytes packet => codec.Encodes bytes packet.message) (flight x y) (net.channel x y) := by
  simpa only [mesh_node] using h.refines.joined

omit [Network N Elem] [Operation Op] [MpcScheme S Op Wire Elem Input Ctx Pending] in
theorem Entering.mono {circuit : MpcCircuit S Op} {quiet quiet' : Prop} {host : Host S Op Wire Elem Ctx Pending N}
    (h : Entering hashes digest circuit quiet host) (hquiet : quiet → quiet') :
    Entering hashes digest circuit quiet' host := by
  cases h with
  | fresh hq => exact .fresh (hquiet hq)
  | greeted hdigest hbytes => exact .greeted hdigest hbytes
  | entered hdigest hbytes => exact .entered hdigest hbytes

omit [Network N Elem] [Operation Op] [MpcScheme S Op Wire Elem Input Ctx Pending] in
theorem entering_update {quiet quiet' : Fin n → Prop}
    (h : ∀ x, Entering hashes digest (circuits x) (quiet x) (hosts x)) {host : Host S Op Wire Elem Ctx Pending N}
    (hquiet : ∀ x ≠ p, quiet x → quiet' x) (hhost : Entering hashes digest (circuits p) (quiet' p) host) (x : Fin n) :
    Entering hashes digest (circuits x) (quiet' x) (Function.update hosts p host x) := by
  by_cases hx : x = p
  · subst hx
    rwa [Function.update_self]
  · rw [Function.update_of_ne hx]
    exact (h x).mono (hquiet x hx)

omit [Network N Elem] [Operation Op] [MpcScheme S Op Wire Elem Input Ctx Pending] in
theorem unread_greet (host : Host S Op Wire Elem Ctx Pending N) (hp : (hosts p).hasSent = false)
    (hhost : host.hasSent = true) (hentered : ∀ x, (hosts x).hasEntered = false) (hentered' : host.hasEntered = false)
    {flight : Flight n} (hflight : ∀ y, flight p y = []) :
    Flight.push (fun x y => unread hashes digest circuits hosts x y ++ flight x y) p
        (fun y => if y = p then none else some (digestBytes hashes digest (circuits p))) =
      fun x y => unread hashes digest circuits (Function.update hosts p host) x y ++ flight x y := by
  have hnone : ∀ y, (Function.update hosts p host y).hasEntered = false := by
    intro y
    by_cases hy : y = p
    · rwa [hy, Function.update_self]
    · rw [Function.update_of_ne hy]
      exact hentered y
  funext x y
  by_cases hx : x = p
  · subst hx
    rw [Flight.push, if_pos rfl, unread_eq_nil (.inl hp), hflight]
    by_cases hy : y = x
    · simp [unread, hy]
    · simp [unread, hentered, hy, Ne.symm hy, hhost]
  · simp only [Flight.push, if_neg hx, unread, hnone, hentered, Function.update_of_ne hx]

omit [Operation Op] in
/-- **A party greets**, and its digest is on the way to all others. -/
theorem HostRefines.greet (h : HostRefines backed size digest circuits contexts hosts net)
    {ec ec' : ExecutionContext S Op Wire Elem Ctx Pending N} {hash : List UInt8} {sendLen : ℕ} (hp : hosts p = .fresh ec)
    (hcall : greet digest ec = (.ok (hash, sendLen), ec'))
    (hfits : ∀ bytes, hashes.toStdvec [hash] = .ok bytes → bytes.length + tagLen < 2 ^ 32) :
    HostRefines backed size digest circuits contexts (Function.update hosts p (.greeted ec' hash sendLen)) net := by
  have hentering := h.entering p
  have hmesh : (hosts p).mesh backed = backed.mesh ec.network := by rw [hp]; rfl
  have hsent : (hosts p).hasSent = false := by rw [hp]; rfl
  have hentered : ∀ x, (hosts x).hasEntered = false := fun x => by
    by_contra hx
    have := (h.agreed x (by simpa using hx) p).1
    rw [hsent] at this
    cases this
  rw [hp] at hentering
  cases hentering with
  | @fresh network₀ hquiet =>
      obtain ⟨hdigest, network, hbroadcast, rfl⟩ := greet_eq_ok.mp hcall
      obtain ⟨bytes, hbytes, hsend⟩ := broadcastObject_eq_ok.mp (backed.broadcastObject _ _ _ _ hbroadcast)
      have hpbytes : digestBytes hashes digest (circuits p) = bytes := by
        simp only [digestBytes, hdigest, hbytes, Except.toOption, Option.getD_some]
      obtain ⟨flight, hjoined, hencodes⟩ := h.joined
      have hjoined' := hjoined.broadcast (hmesh ▸ hsend) (hfits bytes hbytes)
      have hflight : ∀ y, flight p y = [] := fun y => by
        have hpackets := hencodes p y
        rw [hquiet] at hpackets
        exact List.forall₂_nil_right_iff.mp hpackets
      rw [← hpbytes, unread_greet (.greeted (.new (circuits p) network) hash sendLen) hsent rfl hentered rfl hflight]
        at hjoined'
      refine ⟨⟨fun x => ?_, flight, ?_, hencodes⟩, entering_update h.entering (fun _ _ hq => hq)
        (.greeted hdigest (hpbytes ▸ hbytes)), fun x hx => ?_⟩
      · have hshow := (h.refines.shows x).onNetwork network
        by_cases hx : x = p
        · subst hx
          rw [hp] at hshow
          rwa [Function.update_self]
        · rw [Function.update_of_ne hx]
          exact h.refines.shows x
      · simp only [mesh_node, hostMesh_update]
        exact hjoined'
      · by_cases hxp : x = p
        · rw [hxp, Function.update_self] at hx
          cases hx
        · rw [Function.update_of_ne hxp, hentered] at hx
          cases hx

omit [Network N Elem] [Operation Op] [MpcScheme S Op Wire Elem Input Ctx Pending] in
theorem unread_conclude (host : Host S Op Wire Elem Ctx Pending N) (hp : (hosts p).hasSent = true)
    (hentered : (hosts p).hasEntered = false) (hhost : host.hasEntered = true)
    (hsent : ∀ x, (hosts x).hasSent = true) (flight : Flight n) :
    Flight.pop (fun x y => unread hashes digest circuits hosts x y ++ flight x y) p
        (fun x => (x : ℕ) ∈ (digestRequests n p).map ReceiveRequest.fromId) =
      fun x y => unread hashes digest circuits (Function.update hosts p host) x y ++ flight x y := by
  funext x y
  by_cases hy : y = p
  · subst hy
    rw [unread_eq_nil (.inr (by rwa [Function.update_self])), Flight.pop]
    by_cases hx : x = y
    · rw [if_neg fun h => mem_digestRequests.mp (of_decide_eq_true h.2) hx]
      simp [unread, hx]
    · rw [if_pos ⟨rfl, decide_eq_true (mem_digestRequests.mpr hx)⟩]
      simp [unread, hsent, hentered, hx]
  · have hx : (Function.update hosts p host x).hasSent = (hosts x).hasSent := by
      by_cases hx : x = p
      · rw [hx, Function.update_self, hp, hasSent_of_hasEntered hhost]
      · rw [Function.update_of_ne hx]
    simp only [Flight.pop, if_neg fun h : y = p ∧ _ => hy h.1, unread, hx, Function.update_of_ne hy]

omit [Operation Op] in
/-- A party that has received the digests, which are its own, is one of parties that have all sent the same. -/
theorem HostRefines.heard (h : HostRefines backed size digest circuits contexts hosts net)
    (hentered : (hosts p).hasEntered = false) {order : List ℕ} {batches : List (List (List UInt8))} {len : ℕ}
    {m : MeshNetwork OpenPipe} {hash : List UInt8} (hdigest : digest (circuits p) = .ok hash)
    (hord : IsGroupOrder ((digestRequests n p).map ReceiveRequest.fromId) order)
    (hmany : RecvObjectsMany hashes.fromBytes (digestRequests n p) order ((hosts p).mesh backed) (.ok (batches, len)) m)
    (hagree : ∀ batch ∈ batches, batch.head? = some hash) {x : Fin n} (hx : x ≠ p) :
    (hosts x).hasSent = true ∧ digest (circuits x) = digest (circuits p) := by
  obtain ⟨flight, hjoined, hencodes⟩ := h.joined
  obtain ⟨bytes, rest, objs, hflight, hread, batch, hbatch, hmem⟩ := heard_of_recv hjoined hord hmany hx
  have hsame : ∀ hash', digest (circuits x) = .ok hash' →
      hashes.toStdvec [hash'] = .ok (digestBytes hashes digest (circuits x)) → (hosts x).hasSent = true →
      (hosts x).hasSent = true ∧ digest (circuits x) = digest (circuits p) := by
    intro hash' hdigest' hbytes' hsent
    rw [unread, if_pos ⟨hsent, hentered, hx⟩] at hflight
    obtain ⟨rfl, -⟩ := List.cons.inj hflight
    rw [hashes.readsBack hbytes'] at hread
    obtain rfl := Except.ok.inj hread
    have hhead := hmem hash (List.mem_of_mem_head? (hagree batch hbatch))
    rw [hdigest', hdigest, List.mem_singleton.mp hhead]
    exact ⟨hsent, rfl⟩
  have hentering := h.entering x
  generalize hhost : hosts x = host at hentering hsame ⊢
  cases hentering with
  | fresh hquiet =>
      have hpackets := hencodes x p
      rw [hquiet] at hpackets
      rw [List.forall₂_nil_right_iff.mp hpackets, unread_eq_nil (.inl (by rw [hhost]; rfl))] at hflight
      cases hflight
  | greeted hdigest' hbytes' => exact hsame _ hdigest' hbytes' rfl
  | entered hdigest' hbytes' => exact hsame _ hdigest' hbytes' rfl

omit [Operation Op] in
/-- The digests come over the channels, and the context of the scheme after them is as announced. -/
theorem HostRefines.recv_digests (hestablish : Establishes backed rng circuits contexts)
    (h : HostRefines backed size digest circuits contexts hosts net) {network network' : N}
    (hmesh : (hosts p).mesh backed = backed.mesh network) {r : Outcome String (List (List (List UInt8)) × ℕ)}
    (hcall : @Network.recvHashesMany N Elem _ (digestRequests (@Network.nPlayers N Elem _ network)
      (@Network.myId N Elem _ network)) network = (r, network')) :
    ∃ order, IsGroupOrder ((digestRequests n p).map ReceiveRequest.fromId) order ∧
      RecvObjectsMany hashes.fromBytes (digestRequests n p) order ((hosts p).mesh backed) r (backed.mesh network') ∧
      ∀ received, r = .ok received →
        establishContext (circuits p).scheme (circuits p) (rng p) network' = (.ok (contexts p), network') := by
  obtain ⟨flight, hjoined, -⟩ := h.joined
  rw [backed.nPlayers, backed.myId, ← hmesh, hjoined.nParties, hjoined.myId] at hcall
  obtain ⟨order, hord, hmany⟩ := backed.recvHashesMany _ _ _ _ hcall
  rw [← hmesh] at hmany
  refine ⟨order, hord, hmany, ?_⟩
  rintro ⟨batches, len⟩ rfl
  have hjoined' := hjoined.recvObjectsMany hord hmany
  have hnew : Function.update (fun x => (hosts x).mesh backed) p (backed.mesh network') p = backed.mesh network' :=
    Function.update_self ..
  exact hestablish p network' (hnew ▸ hjoined'.myId p) (hnew ▸ hjoined'.nParties p)

omit [Operation Op] in
theorem HostRefines.concluded (hestablish : Establishes backed rng circuits contexts)
    (h : HostRefines backed size digest circuits contexts hosts net)
    {ec ec' : ExecutionContext S Op Wire Elem Ctx Pending N} {hash : List UInt8} {sendLen : ℕ} {lens : ℕ × ℕ}
    (hp : hosts p = .greeted ec hash sendLen) (hcall : conclude (rng p) hash sendLen ec = (.ok lens, ec')) :
    ∃ order batches network, IsGroupOrder ((digestRequests n p).map ReceiveRequest.fromId) order ∧
      RecvObjectsMany hashes.fromBytes (digestRequests n p) order ((hosts p).mesh backed) (.ok (batches, lens.2))
        (backed.mesh network) ∧
      (∀ batch ∈ batches, batch.head? = some hash) ∧
      (⟨ec', ec'.circuit.tasks, none⟩ : Node S Op Wire Elem Ctx Pending N) =
        .handshaked (circuits p) (contexts p) network := by
  have hentering := h.entering p
  have hmesh : (hosts p).mesh backed = backed.mesh ec.network := by rw [hp]; rfl
  rw [hp] at hentering
  cases hentering with
  | greeted =>
      obtain ⟨batches, network, context, network', hrecv, -, hagree, hcontext, rfl⟩ := conclude_eq_ok.mp hcall
      obtain ⟨order, hord, hmany, hestablished⟩ := h.recv_digests hestablish hmesh hrecv
      obtain ⟨hok, rfl⟩ := Prod.mk.inj (hcontext.symm.trans (hestablished _ rfl))
      obtain rfl := Outcome.ok.inj hok
      exact ⟨order, batches, network', hord, hmany, hagree, rfl⟩

omit [Operation Op] in
/-- **A party concludes its handshake**: it has read the digest of each other party, and it is its own. -/
theorem HostRefines.conclude (hestablish : Establishes backed rng circuits contexts)
    (h : HostRefines backed size digest circuits contexts hosts net)
    {ec ec' : ExecutionContext S Op Wire Elem Ctx Pending N} {hash : List UInt8} {sendLen : ℕ} {lens : ℕ × ℕ}
    (hp : hosts p = .greeted ec hash sendLen) (hcall : conclude (rng p) hash sendLen ec = (.ok lens, ec')) :
    HostRefines backed size digest circuits contexts
      (Function.update hosts p (.entered ⟨ec', ec'.circuit.tasks, none⟩)) net := by
  obtain ⟨order, batches, network, hord, hmany, hagree, hnode⟩ := h.concluded hestablish hp hcall
  have hentering := h.entering p
  have hsent : (hosts p).hasSent = true := by rw [hp]; rfl
  have hentered : (hosts p).hasEntered = false := by rw [hp]; rfl
  obtain ⟨flight, hjoined, hencodes⟩ := h.joined
  rw [hp] at hentering
  cases hentering with
  | @greeted network₀ _ _ hdigest hbytes =>
      have hheard : ∀ x, (hosts x).hasSent = true ∧ digest (circuits x) = digest (circuits p) := by
        intro x
        by_cases hx : x = p
        · rw [hx]
          exact ⟨hsent, rfl⟩
        · exact h.heard hentered hdigest hord hmany hagree hx
      have hjoined' := hjoined.recvObjectsMany hord hmany
      rw [hnode]
      set node : Node S Op Wire Elem Ctx Pending N := .handshaked (circuits p) (contexts p) network
      rw [unread_conclude (.entered node) hsent hentered rfl fun x => (hheard x).1] at hjoined'
      refine ⟨⟨fun x => ?_, flight, ?_, hencodes⟩, entering_update h.entering (fun _ _ hq => hq) (.entered hdigest hbytes),
        fun x hx y => ?_⟩
      · by_cases hx : x = p
        · subst hx
          have hshow := (h.refines.shows x).onNetwork network
          rw [hp] at hshow
          rwa [Function.update_self]
        · rw [Function.update_of_ne hx]
          exact h.refines.shows x
      · simp only [mesh_node, hostMesh_update]
        exact hjoined'
      · have hsame : ∀ z, digest (circuits z) = digest (circuits p) := fun z => (hheard z).2
        refine ⟨?_, (hsame y).trans (hsame x).symm⟩
        by_cases hy : y = p
        · rw [hy, Function.update_self]
          rfl
        · rw [Function.update_of_ne hy]
          exact (hheard y).1

theorem HostRefines.call (hsize : codec.Sizes size) (h : HostRefines backed size digest circuits contexts hosts net)
    {node node' : Node S Op Wire Elem Ctx Pending N} (hp : hosts p = .entered node)
    (hcall : NodeCall codec (inputs p) node node') : ∃ net', (program inputs).Reachable net net' ∧
      HostRefines backed size digest circuits contexts (Function.update hosts p (.entered node')) net' := by
  have hentered : (hosts p).hasEntered = true := by rw [hp]; rfl
  have hnode : (hosts p).node (circuits p) (contexts p) = node := by rw [hp]; rfl
  rw [← hnode] at hcall
  obtain ⟨net', hreach, hrefines, hquiet⟩ := h.refines.call hsize (fun q => unread_eq_nil (.inr hentered)) hcall
  have hupdate : ∀ x, (Function.update hosts p (.entered node') x).hasSent = (hosts x).hasSent ∧
      (Function.update hosts p (.entered node') x).hasEntered = (hosts x).hasEntered := by
    intro x
    by_cases hx : x = p
    · rw [hx, Function.update_self, hentered, hasSent_of_hasEntered hentered]
      exact ⟨rfl, rfl⟩
    · rw [Function.update_of_ne hx]
      exact ⟨rfl, rfl⟩
  refine ⟨net', hreach, ⟨?_, ?_, fun x hx q => ?_⟩⟩
  · rw [unread_congr (fun x => (hupdate x).1) fun x => (hupdate x).2, node_update]
    exact hrefines
  · have hentering := h.entering p
    rw [hp] at hentering
    cases hentering with
    | entered hdigest hbytes =>
        exact entering_update h.entering (fun x hx hq y => hquiet x hx y (hq y)) (.entered hdigest hbytes)
  · rw [(hupdate x).2] at hx
    rw [(hupdate q).1]
    exact h.agreed x hx q

omit [Operation Op] in
/-- Bytes that travel change no message. -/
theorem HostRefines.deliver (h : HostRefines backed size digest circuits contexts hosts net) (p q : Fin n) (k : ℕ) :
    HostRefines backed size digest circuits contexts
      (fun x => (hosts x).onMesh backed (deliver (fun y => (hosts y).mesh backed) p q k x)) net := by
  have hunread : unread hashes digest circuits
      (fun x => (hosts x).onMesh backed (MeshNetwork.deliver (fun y => (hosts y).mesh backed) p q k x)) =
      unread hashes digest circuits hosts :=
    unread_congr (fun x => hasSent_withNetwork _ _) fun x => hasEntered_withNetwork _ _
  refine ⟨?_, fun x => ?_, fun x hx y => ?_⟩
  · rw [hunread]
    have hdeliver := h.refines.deliver p q k
    simp only [mesh_node] at hdeliver
    simpa only [node_onMesh] using hdeliver
  · have hentering := h.entering x
    generalize hosts x = host at hentering ⊢
    cases hentering with
    | fresh hquiet => exact .fresh hquiet
    | greeted hdigest hbytes => exact .greeted hdigest hbytes
    | entered hdigest hbytes => exact .entered hdigest hbytes
  · rw [Host.onMesh, hasEntered_withNetwork] at hx
    rw [Host.onMesh, hasSent_withNetwork]
    exact h.agreed x hx y

/-- **One step over bytes** is a run over messages. -/
theorem HostRefines.step (hsize : codec.Sizes size) (hestablish : Establishes backed rng circuits contexts)
    (h : HostRefines backed size digest circuits contexts hosts net)
    (hstep : HostStep backed digest rng inputs hosts hosts') :
    ∃ net', (program inputs).Reachable net net' ∧ HostRefines backed size digest circuits contexts hosts' net' := by
  cases hstep with
  | greet hp hcall hfits => exact ⟨net, .refl, h.greet hp hcall hfits⟩
  | conclude hp hcall => exact ⟨net, .refl, h.conclude hestablish hp hcall⟩
  | call hp hcall => exact h.call hsize hp hcall
  | deliver p q k => exact ⟨net, .refl, h.deliver p q k⟩

theorem HostRefines.run (hsize : codec.Sizes size) (hestablish : Establishes backed rng circuits contexts)
    (h : HostRefines backed size digest circuits contexts hosts net)
    (hrun : ReflTransGen (HostStep backed digest rng inputs) hosts hosts') :
    ∃ net', (program inputs).Reachable net net' ∧ HostRefines backed size digest circuits contexts hosts' net' := by
  induction hrun with
  | refl => exact ⟨net, .refl, h⟩
  | tail _ hstep ih =>
      obtain ⟨net₁, hreach, h₁⟩ := ih
      obtain ⟨net', hreach', h'⟩ := h₁.step hsize hestablish hstep
      exact ⟨net', hreach.trans hreach', h'⟩

omit [Operation Op] in
/-- New parties over a mesh that is set up. -/
theorem hostRefines_new {key : Fin n → Fin n → Cipher} (hkey : ∀ p q, key p q = key q p)
    (haead : ∀ p q, IsAead (key p q)) {networks : Fin n → N} (hnetworks : ∀ p, backed.mesh (networks p) = established key p) :
    HostRefines backed size digest circuits contexts
      (fun p => (.fresh (.new (circuits p) (networks p)) : Host S Op Wire Elem Ctx Pending N))
      (RoundProgram.initial fun p => handshaked (circuits p) size (contexts p) p) := by
  refine ⟨⟨fun p => .rest rfl rfl rfl ⟨rfl, rfl, rfl, rfl, rfl, rfl⟩, fun _ _ => [], ?_, fun _ _ => .nil⟩,
    fun p => .fresh fun _ => rfl, fun p hp => absurd hp (by simp [Host.hasEntered])⟩
  have hmeshes : (fun p => backed.mesh (networks p)) = established key := funext hnetworks
  have hunread : (fun x y => unread hashes digest circuits
      (fun p => (.fresh (.new (circuits p) (networks p)) : Host S Op Wire Elem Ctx Pending N)) x y ++ []) =
      fun _ _ => [] := by
    funext x y
    rw [unread_eq_nil (.inl rfl), List.nil_append]
  rw [hunread]
  change Joined (fun p => backed.mesh (networks p)) _
  rw [hmeshes]
  exact MeshNetwork.joined_established hkey haead

/-- **Over bytes.**  Let parties start with a circuit each over a mesh that is set up, and let their calls and the
bytes on their way proceed in any order.  Then everything that a party past its handshake does is part of a run over
channels of messages: it has the same context, with the network calls and the byte counts that they returned, and
behind the digests the bytes between two parties are the packets of the messages on the channel between them.  As
soon as one party is past its handshake, all have sent its digest. -/
theorem overBytes {key : Fin n → Fin n → Cipher} (hkey : ∀ p q, key p q = key q p) (haead : ∀ p q, IsAead (key p q))
    (hsize : codec.Sizes size) (hestablish : Establishes backed rng circuits contexts) {networks : Fin n → N}
    (hnetworks : ∀ p, backed.mesh (networks p) = established key p)
    (hrun : ReflTransGen (HostStep backed digest rng inputs)
      (fun p => .fresh (.new (circuits p) (networks p))) hosts) :
    ∃ net, (program inputs).Reachable (RoundProgram.initial fun p => handshaked (circuits p) size (contexts p) p) net ∧
      HostRefines backed size digest circuits contexts hosts net :=
  (hostRefines_new hkey haead hnetworks).run hsize hestablish hrun

end hosts

end Cluster

end MpcCore
