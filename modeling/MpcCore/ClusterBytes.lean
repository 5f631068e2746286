import MpcCore.ExecutionNetworks
import MpcCore.Lib.RoundHalves
import MpcCore.MeshRefinement

/-! # A cluster over the bytes of a mesh

The parties of a computation over the encrypted streams of a mesh, and the cluster over channels of
whole messages, which has the same runs as far as calls succeed.

* `MeshBacked`: a network whose methods are those of `MeshNetwork`, whatever the order of the groups.
* `NodeCall`: a party sends the messages of a task, or receives those it waits for.
* `Refines`: the bytes between two parties are the packets of the messages on the channel between them, behind
  those of earlier messages, and each party has the context that it has there.
* `Refines.call`, `Refines.deliver`: every call, and every byte that travels, is a run over messages. -/

namespace MpcCore

open Operation MpcScheme
open MeshNetwork (OpenPipe Flight Joined IsGroupOrder SendObjectsMany RecvObjectsMany groupBytes established deliver)
open SecureStream (tagLen)

variable {S Op Wire Elem Input Ctx Pending N : Type} {n : ℕ} [Network N Elem] {codec : Codec Elem}
  {hashes : Codec (List UInt8)}

/-- A network whose methods are those of a mesh. -/
structure MeshBacked (N : Type) {Elem : Type} [Network N Elem] (codec : Codec Elem) (hashes : Codec (List UInt8)) where
  mesh : N → MeshNetwork OpenPipe
  onMesh : N → MeshNetwork OpenPipe → N
  mesh_onMesh : ∀ net m, mesh (onMesh net m) = m
  myId : ∀ net, @Network.myId N Elem _ net = (mesh net).myId
  nPlayers : ∀ net, @Network.nPlayers N Elem _ net = (mesh net).nParties
  broadcastObject : ∀ hash net r net', @Network.broadcastObject N Elem _ hash net = (r, net') →
    MeshNetwork.broadcastObject hashes.toStdvec hash (mesh net) = (r, mesh net')
  recvHashesMany : ∀ requests net r net', @Network.recvHashesMany N Elem _ requests net = (r, net') →
    ∃ order, IsGroupOrder (requests.map ReceiveRequest.fromId) order ∧
      RecvObjectsMany hashes.fromBytes requests order (mesh net) r (mesh net')
  sendObjectsMany : ∀ requests net r net', @Network.sendObjectsMany N Elem _ requests net = (r, net') →
    ∃ order, IsGroupOrder (requests.map SendRequest.toId) order ∧
      SendObjectsMany codec.toStdvec requests order (mesh net) r (mesh net')
  recvObjectsMany : ∀ requests net r net', @Network.recvObjectsMany N Elem _ requests net = (r, net') →
    ∃ order, IsGroupOrder (requests.map ReceiveRequest.fromId) order ∧
      RecvObjectsMany codec.fromBytes requests order (mesh net) r (mesh net')

/-- A party over such a network: its context, the tasks to come, and the task whose messages it has sent. -/
structure Node (S Op Wire Elem Ctx Pending N : Type) where
  context : ExecutionContext S Op Wire Elem Ctx Pending N
  todo : List (Task Op)
  waiting : Option (Task Op × Batch Elem Pending)

/-- The channels of a party. -/
def Node.mesh (backed : MeshBacked N codec hashes) (node : Node S Op Wire Elem Ctx Pending N) : MeshNetwork OpenPipe :=
  backed.mesh node.context.network

/-- A party with other channels. -/
def Node.onMesh (backed : MeshBacked N codec hashes) (node : Node S Op Wire Elem Ctx Pending N) (m : MeshNetwork OpenPipe) :
    Node S Op Wire Elem Ctx Pending N :=
  { node with context := { node.context with network := backed.onMesh node.context.network m } }

/-- A party after its handshake. -/
def Node.handshaked (circuit : MpcCircuit S Op) (context : Ctx) (network : N) : Node S Op Wire Elem Ctx Pending N :=
  ⟨⟨circuit, .handshaked, network, .empty, some context, []⟩, circuit.tasks, none⟩

namespace Cluster

variable [Operation Op] [MpcScheme S Op Wire Elem Input Ctx Pending]

/-- The calls of a party that succeed.  Every message fits the header. -/
inductive NodeCall (codec : Codec Elem) (ins : List (WireId × Input)) (node : Node S Op Wire Elem Ctx Pending N) :
    Node S Op Wire Elem Ctx Pending N → Prop where
  | begin {task : Task Op} {todo : List (Task Op)} {batch : Batch Elem Pending}
      {context : ExecutionContext S Op Wire Elem Ctx Pending N} (hrest : node.waiting = none)
      (htodo : node.todo = task :: todo)
      (hcall : task.begin node.context.circuit.scheme ins node.context = (.ok batch, context))
      (hfits : ∀ q bytes, groupBytes codec.toStdvec batch.sendRequests q = some bytes → bytes.length + tagLen < 2 ^ 32) :
      NodeCall codec ins node ⟨context, todo, some (task, batch)⟩
  | complete {task : Task Op} {batch : Batch Elem Pending} {context : ExecutionContext S Op Wire Elem Ctx Pending N}
      (hwaiting : node.waiting = some (task, batch))
      (hcall : task.complete node.context.circuit.scheme batch node.context = (.ok (), context)) :
      NodeCall codec ins node ⟨context, node.todo, none⟩

/-! ### The cluster over messages -/

/-- A link on which nothing is. -/
def quiet (size : Message Elem → ℕ) (p : Fin n) : Link n Elem := ⟨p, size, fun _ => [], fun _ => []⟩

/-- A node between two tasks is a party at rest, a node in a task one that has sent its messages and received
none. -/
inductive Shows (size : Message Elem → ℕ) (p : Fin n) (node : Node S Op Wire Elem Ctx Pending N) :
    RoundProgram.Proc (Fin n) (Party S Op Wire Elem Ctx Pending n) (Stage S Op Wire Elem Ctx Pending n) (Packet Elem) →
      Prop where
  | rest {party : Party S Op Wire Elem Ctx Pending n} (hrest : node.waiting = none) (hok : party.outcome = .ok ())
      (htodo : party.todo = node.todo)
      (hcontext : ExecutionContext.Over (fun _ link => link = quiet size p) node.context party.context) :
      Shows size p node (.idle party)
  | waiting {stage : Stage S Op Wire Elem Ctx Pending n} (hwaiting : node.waiting = some (stage.task, stage.batch))
      (htodo : stage.todo = node.todo)
      (hcontext : ExecutionContext.Over (fun _ link => link.id = p ∧ link.size = size) node.context stage.context)
      (hbatch : (∀ r, stage.task ≠ .round r) → stage.batch.receiveRequests = []) :
      Shows size p node (.busy stage (fun _ => none) fun _ => none)

/-- The nodes are the parties, and the bytes between them are the messages on the channels, behind some
earlier ones. -/
structure Refines (backed : MeshBacked N codec hashes) (size : Message Elem → ℕ) (early : Flight n)
    (nodes : Fin n → Node S Op Wire Elem Ctx Pending N)
    (net : RoundProgram.Net (Fin n) (Party S Op Wire Elem Ctx Pending n) (Stage S Op Wire Elem Ctx Pending n)
      (Packet Elem)) : Prop where
  shows : ∀ p, Shows size p (nodes p) (net.proc p)
  joined : ∃ flight : Flight n, Joined (fun p => (nodes p).mesh backed) (fun p q => early p q ++ flight p q) ∧
    ∀ p q, List.Forall₂ (fun bytes packet => codec.Encodes bytes packet.message) (flight p q) (net.channel p q)

section refines

variable {backed : MeshBacked N codec hashes} {size : Message Elem → ℕ} {early : Flight n}
  {inputs : Fin n → List (WireId × Input)} {nodes : Fin n → Node S Op Wire Elem Ctx Pending N}
  {net : RoundProgram.Net (Fin n) (Party S Op Wire Elem Ctx Pending n) (Stage S Op Wire Elem Ctx Pending n) (Packet Elem)}
  {p : Fin n} {task : Task Op} {batch : Batch Elem Pending}

omit [Operation Op] [MpcScheme S Op Wire Elem Input Ctx Pending] in
theorem mesh_update (node : Node S Op Wire Elem Ctx Pending N) :
    (fun x => (Function.update nodes p node x).mesh backed) =
      Function.update (fun x => (nodes x).mesh backed) p (node.mesh backed) := by
  funext x
  exact Function.apply_update (fun _ => Node.mesh backed) nodes p node x

theorem mesh_of_begin (backed : MeshBacked N codec hashes) {ec ec₁ : ExecutionContext S Op Wire Elem Ctx Pending N}
    {scheme : S} {ins : List (WireId × Input)}
    (hcall : task.begin scheme ins ec = (.ok batch, ec₁)) :
    ∃ order len, IsGroupOrder (batch.sendRequests.map SendRequest.toId) order ∧
      SendObjectsMany codec.toStdvec batch.sendRequests order (backed.mesh ec.network) (.ok len)
        (backed.mesh ec₁.network) := by
  have hover : ExecutionContext.Over (fun s t => s = ec.network ∧ t = ec.network) ec ec :=
    ⟨rfl, rfl, rfl, rfl, rfl, rfl, rfl⟩
  have hsent := Task.begin_over (Q := fun s _ => ∃ order len,
    IsGroupOrder (batch.sendRequests.map SendRequest.toId) order ∧ SendObjectsMany codec.toStdvec batch.sendRequests order
      (backed.mesh ec.network) (.ok len) (backed.mesh s)) hover hcall ?_ ?_ ?_
  · obtain ⟨_, -, h⟩ := hsent
    exact h.network
  · rintro s t ⟨rfl, rfl⟩
    rfl
  · rintro s t len s' ⟨rfl, rfl⟩ hsend
    obtain ⟨order, hord, h⟩ := backed.sendObjectsMany _ _ _ _ hsend
    exact ⟨s', hsend, order, len, hord, h⟩
  · rintro hnone s t ⟨rfl, -⟩
    rw [hnone]
    exact ⟨[], 0, .refl _, .joined rfl (.ok []) rfl⟩

theorem mesh_of_complete (backed : MeshBacked N codec hashes)
    {ec ec₁ : ExecutionContext S Op Wire Elem Ctx Pending N} {scheme : S} {r : Round Op}
    (hcall : (Task.round r).complete scheme batch ec = (.ok (), ec₁)) :
    ∃ order received, IsGroupOrder (batch.receiveRequests.map ReceiveRequest.fromId) order ∧
      RecvObjectsMany codec.fromBytes batch.receiveRequests order (backed.mesh ec.network) (.ok received)
        (backed.mesh ec₁.network) := by
  have hover : ExecutionContext.Over (fun s t => s = ec.network ∧ t = ec.network) ec ec :=
    ⟨rfl, rfl, rfl, rfl, rfl, rfl, rfl⟩
  have hreceived := Task.complete_tracks (Q := fun s _ => ∃ order received,
    IsGroupOrder (batch.receiveRequests.map ReceiveRequest.fromId) order ∧ RecvObjectsMany codec.fromBytes
      batch.receiveRequests order (backed.mesh ec.network) (.ok received) (backed.mesh s)) ?_ scheme r _ _ _ _ hover hcall
  · obtain ⟨_, -, h⟩ := hreceived
    exact h.network
  · rintro s t received s' ⟨rfl, rfl⟩ hrecv
    obtain ⟨order, hord, h⟩ := backed.recvObjectsMany _ _ _ _ hrecv
    exact ⟨s', hrecv, order, received, hord, h⟩

/-- **The first half of a task** over bytes and over messages: what is sent on the channels of the mesh is left
on the link. -/
theorem begin_link (hsize : codec.Sizes size) {ec ec₁ : ExecutionContext S Op Wire Elem Ctx Pending N}
    {ec' : ExecutionContext S Op Wire Elem Ctx Pending (Link n Elem)}
    (hcontext : ExecutionContext.Over (fun _ link => link = quiet size p) ec ec')
    (hmyId : (backed.mesh ec.network).myId = p) (hlength : (backed.mesh ec.network).channels.length = n)
    (hself : (backed.mesh ec.network).channel p = none) {scheme : S} {ins : List (WireId × Input)}
    (hcall : task.begin scheme ins ec = (.ok batch, ec₁)) :
    ∃ ec₁', task.begin scheme ins ec' = (.ok batch, ec₁') ∧
      ExecutionContext.Over (fun _ link => link = (quiet size p).write (messageTo batch.sendRequests)) ec₁ ec₁' := by
  refine Task.begin_over (S := S) (R := fun s link => s = ec.network ∧ link = quiet size p)
    ⟨hcontext.circuit, hcontext.executionState, hcontext.wireContents, hcontext.schemeContext, hcontext.calls, rfl,
      hcontext.network⟩ hcall ?_ ?_ ?_
  · rintro s link ⟨rfl, rfl⟩
    rw [backed.myId, hmyId]
    rfl
  · rintro s link len s' ⟨rfl, rfl⟩ hsend
    obtain ⟨order, hord, hsend⟩ := backed.sendObjectsMany _ _ _ _ hsend
    exact ⟨_, MeshNetwork.sendObjectsMany_link _ hlength hself rfl hsize hord hsend, rfl⟩
  · rintro hnone s link ⟨rfl, rfl⟩
    rw [hnone]
    simp [Link.write, messageTo, dataTo, quiet]

omit [Operation Op] [MpcScheme S Op Wire Elem Input Ctx Pending] in
theorem encodes_groupBytes {requests : List (SendRequest Elem)} {order : List ℕ} {m m' : MeshNetwork OpenPipe} {len : ℕ}
    (hord : IsGroupOrder (requests.map SendRequest.toId) order)
    (h : SendObjectsMany codec.toStdvec requests order m (.ok len) m') (q : Fin n) :
    List.Forall₂ codec.Encodes (groupBytes codec.toStdvec requests q).toList (messageTo requests q).toList := by
  rw [MeshNetwork.messageTo_eq, groupBytes]
  split
  · next hq =>
      obtain ⟨c, bytes, _, _, -, hbytes, -⟩ := (MeshNetwork.sendObjectsMany_ok hord h).1 q hq
      rw [hbytes]
      exact .cons ⟨_, rfl, hbytes⟩ .nil
  · exact .nil

theorem begin_requests {scheme : S} {ins : List (WireId × Input)} {ec ec₁ : ExecutionContext S Op Wire Elem Ctx Pending N}
    (hcall : task.begin scheme ins ec = (.ok batch, ec₁)) (htask : ∀ r, task ≠ .round r) :
    batch.receiveRequests = [] := by
  cases task with
  | round r => exact absurd rfl (htask r)
  | enter _ _ | leave _ | prepare =>
      rw [Task.begin, Act.bind_eq_ok] at hcall
      obtain ⟨_, _, -, h⟩ := hcall
      obtain ⟨rfl, -⟩ := Act.ret_eq_ok.mp h
      rfl

theorem push_early (flight : Flight n) (data : Fin n → Option (List UInt8)) :
    (Flight.push (fun x y => early x y ++ flight x y) p data) = fun x y => early x y ++ flight.push p data x y :=
  funext fun x => funext fun y => Flight.push_append (fun _ _ => rfl) x y

theorem pop_early (flight : Flight n) (senders : Fin n → Bool) (hearly : ∀ q, early q p = []) :
    (Flight.pop (fun x y => early x y ++ flight x y) p senders) = fun x y => early x y ++ flight.pop p senders x y := by
  funext x y
  unfold Flight.pop
  split
  · next h => simp only [h.1, hearly, List.nil_append]
  · rfl

theorem Refines.begin (hsize : codec.Sizes size) (h : Refines backed size early nodes net) {todo : List (Task Op)}
    {context : ExecutionContext S Op Wire Elem Ctx Pending N} (hrest : (nodes p).waiting = none)
    (htodo : (nodes p).todo = task :: todo)
    (hcall : task.begin (nodes p).context.circuit.scheme (inputs p) (nodes p).context = (.ok batch, context))
    (hfits : ∀ q bytes, groupBytes codec.toStdvec batch.sendRequests q = some bytes → bytes.length + tagLen < 2 ^ 32) :
    ∃ net', (program inputs).Reachable net net' ∧
      Refines backed size early (Function.update nodes p ⟨context, todo, some (task, batch)⟩) net' ∧
      ∀ x ≠ p, ∀ y, net.channel x y = [] → net'.channel x y = [] := by
  obtain ⟨hshows, flight, hjoined, hencodes⟩ := h
  have hp := hshows p
  generalize hproc : net.proc p = proc at hp
  cases hp with
  | waiting hwaiting =>
      rw [hrest] at hwaiting
      cases hwaiting
  | @rest party _ hok htodo' hcontext =>
      obtain ⟨context', hbegin, hcontext'⟩ :=
        begin_link hsize hcontext (hjoined.myId p) (hjoined.length p) (hjoined.self p) hcall
      have hstart : (program inputs).start p party =
          some (.inr ⟨context', task, todo, batch, party.round, party.received⟩) := by
        simp only [program, hok, htodo', htodo, hcontext.circuit, hbegin]
      have hlink := hcontext'.network
      obtain ⟨order, len, hord, hsend⟩ := mesh_of_begin backed hcall
      refine ⟨_, RoundProgram.Reachable.refl.begin hproc hstart, ⟨fun x => ?_,
        flight.push p fun x => groupBytes codec.toStdvec batch.sendRequests x, ?_, fun x y => ?_⟩, fun x hx y hnil => ?_⟩
      · by_cases hx : x = p
        · subst hx
          rw [RoundProgram.Net.rewire_self, Function.update_self]
          refine .waiting rfl rfl ⟨hcontext'.circuit, hcontext'.executionState, hcontext'.wireContents,
            hcontext'.schemeContext, hcontext'.calls, ?_⟩ (begin_requests hcall)
          rw [hlink]
          exact ⟨rfl, rfl⟩
        · rw [RoundProgram.Net.rewire_ne _ _ hx, Function.update_of_ne hx]
          exact hshows x
      · rw [mesh_update, ← push_early]
        exact hjoined.sendObjectsMany hord hsend hfits
      · by_cases hx : x = p
        · subst hx
          have hsends : (program inputs).sends x ⟨context', task, todo, batch, party.round, party.received⟩ y =
              (messageTo batch.sendRequests y).map fun message => ⟨party.round, batch.originsTo y, message⟩ := by
            simp only [program, hlink, Link.write, quiet, List.nil_append, Option.head?_toList]
          simp only [RoundProgram.Net.rewire, Flight.push, if_pos, hsends]
          refine List.rel_append (hencodes x y) ?_
          rw [Option.toList_map, List.forall₂_map_right_iff]
          exact encodes_groupBytes hord hsend y
        · simp only [RoundProgram.Net.rewire, Flight.push, if_neg hx]
          exact hencodes x y
      · simp only [RoundProgram.Net.rewire, if_neg hx, hnil]

/-- **The second half of a round** over bytes and over messages, when the messages of the link are those whose bytes
come in on the channels of the mesh. -/
theorem complete_link (hsize : codec.Sizes size) {ec ec₁ : ExecutionContext S Op Wire Elem Ctx Pending N}
    {ec' : ExecutionContext S Op Wire Elem Ctx Pending (Link n Elem)} {link : Link n Elem}
    (hcontext : ExecutionContext.Over (fun _ l => l = link) ec ec') (hid : link.id = p) (hlink : link.size = size)
    (hlength : (backed.mesh ec.network).channels.length = n) (hself : (backed.mesh ec.network).channel p = none)
    (harrived : ∀ (q : Fin n) c bytes m c', (q : ℕ) ∈ batch.receiveRequests.map ReceiveRequest.fromId →
      (backed.mesh ec.network).channel q = some c → c.recv = (.ok (bytes, m), c') →
      m = SecureStream.u32Len + (bytes.length + tagLen) ∧
        ∃ message, (link.arrived q).head? = some message ∧ codec.Encodes bytes message)
    {scheme : S} {r : Round Op} (hcall : (Task.round r).complete scheme batch ec = (.ok (), ec₁)) :
    ∃ ec₁', (Task.round r).complete scheme batch ec' = (.ok (), ec₁') ∧
      ExecutionContext.Over (fun _ l => l =
        { link with arrived := fun q =>
            if q ∈ namedPeers n batch.receiveRequests then (link.arrived q).tail else link.arrived q }) ec₁ ec₁' := by
  refine Task.complete_tracks (S := S) (R := fun s l => s = ec.network ∧ l = link) ?_ scheme r ec ec' () ec₁
    ⟨hcontext.circuit, hcontext.executionState, hcontext.wireContents, hcontext.schemeContext, hcontext.calls, rfl,
      hcontext.network⟩ hcall
  rintro s l ⟨batches, len⟩ s' ⟨rfl, rfl⟩ hrecv
  obtain ⟨order, hord, hrecv⟩ := backed.recvObjectsMany _ _ _ _ hrecv
  exact ⟨_, MeshNetwork.recvObjectsMany_link _ hlength hself hid (hlink ▸ hsize) harrived hord hrecv, rfl⟩

theorem named_of_complete {flight : Flight n} {ec ec₁ : ExecutionContext S Op Wire Elem Ctx Pending N} {scheme : S}
    {meshes : Fin n → MeshNetwork OpenPipe} (hjoined : Joined meshes flight) (hmesh : backed.mesh ec.network = meshes p)
    (hbatch : (∀ r, task ≠ .round r) → batch.receiveRequests = [])
    (hcall : task.complete scheme batch ec = (.ok (), ec₁)) :
    ∀ q ∈ batch.receiveRequests.map ReceiveRequest.fromId, q ≠ p ∧ ∃ x : Fin n, (x : ℕ) = q ∧ flight x p ≠ [] := by
  intro q hq
  cases task with
  | round r =>
      obtain ⟨order, received, hord, hrecv⟩ := mesh_of_complete backed hcall
      rw [hmesh] at hrecv
      obtain ⟨hlt, hne⟩ := MeshNetwork.named_of_recv (hjoined.length p) (hjoined.self p) hord hrecv q hq
      obtain ⟨-, -, -, _, -, -, -, hmessages⟩ := MeshNetwork.recvObjectsMany_settled hord hrecv
      obtain ⟨c, m, c', hc, data, hdata, -⟩ := hmessages q (hord.mem_iff.mpr (List.mem_dedup.mpr hq))
      obtain ⟨_, _, hflight, -⟩ := hjoined.recv (q := ⟨q, hlt⟩) hc hdata (by simp)
      refine ⟨hne, ⟨q, hlt⟩, rfl, ?_⟩
      rw [hflight]
      simp
  | enter _ _ | leave _ | prepare =>
      rw [hbatch (by simp)] at hq
      cases hq

omit [Network N Elem] [Operation Op] [MpcScheme S Op Wire Elem Input Ctx Pending] in
/-- A link is quiet once the messages that came in are read. -/
theorem exchange_read {link : Link n Elem} (hid : link.id = p) (hsize : link.size = size)
    {inbox : Fin n → Option (Packet Elem)} {requests : List ReceiveRequest}
    (hinbox : ∀ q, q ∉ namedPeers n requests → inbox q = none) :
    { link.exchange inbox with
      arrived := fun q =>
        if q ∈ namedPeers n requests then ((link.exchange inbox).arrived q).tail
        else (link.exchange inbox).arrived q } = quiet size p := by
  subst hid
  subst hsize
  simp only [Link.exchange, quiet, Link.mk.injEq, true_and, and_true]
  funext q
  split
  · cases inbox q <;> rfl
  · next hq =>
      rw [hinbox q hq]
      rfl

omit [Network N Elem] [Operation Op] [MpcScheme S Op Wire Elem Input Ctx Pending] in
theorem arrived_of_recv {flight : Flight n} {meshes : Fin n → MeshNetwork OpenPipe} (hjoined : Joined meshes flight)
    (link : Link n Elem) {inbox : Fin n → Option (Packet Elem)} {q : Fin n} {c c' : SecureStream OpenPipe}
    {bytes : List UInt8} {m : ℕ} (hmessage : ∀ bytes rest, flight q p = bytes :: rest →
      ∃ packet, inbox q = some packet ∧ codec.Encodes bytes packet.message)
    (hc : (meshes p).channel q = some c) (hrecv : c.recv = (.ok (bytes, m), c')) :
    m = SecureStream.u32Len + (bytes.length + tagLen) ∧
      ∃ message, ((link.exchange inbox).arrived q).head? = some message ∧ codec.Encodes bytes message := by
  obtain ⟨data, rest, hflight, hok⟩ := hjoined.recv hc hrecv (by simp)
  obtain ⟨rfl, rfl⟩ := Prod.mk.inj (Outcome.ok.inj hok)
  obtain ⟨packet, hpacket, hencodes⟩ := hmessage bytes rest hflight
  refine ⟨rfl, packet.message, ?_, hencodes⟩
  simp only [Link.exchange, hpacket, Option.map_some, Option.toList_some, List.head?_cons]

/-- **The second half of a task** over bytes and over messages, when the messages that came in are the first ones
on their way. -/
theorem complete_shown (hsize : codec.Sizes size) {flight : Flight n} {meshes : Fin n → MeshNetwork OpenPipe}
    (hjoined : Joined meshes flight) {ec ec₁ : ExecutionContext S Op Wire Elem Ctx Pending N}
    (hmesh : backed.mesh ec.network = meshes p) {ec' : ExecutionContext S Op Wire Elem Ctx Pending (Link n Elem)}
    (hcontext : ExecutionContext.Over (fun _ link => link.id = p ∧ link.size = size) ec ec')
    (hbatch : (∀ r, task ≠ .round r) → batch.receiveRequests = []) {scheme : S}
    (hcall : task.complete scheme batch ec = (.ok (), ec₁)) (inbox : Fin n → Option (Packet Elem))
    (hmessage : ∀ q : Fin n, (q : ℕ) ∈ batch.receiveRequests.map ReceiveRequest.fromId → ∀ bytes rest,
      flight q p = bytes :: rest → ∃ packet, inbox q = some packet ∧ codec.Encodes bytes packet.message)
    (hnone : ∀ q, q ∉ namedPeers n batch.receiveRequests → inbox q = none) :
    ∃ ec₁', task.complete scheme batch { ec' with network := ec'.network.exchange inbox } = (.ok (), ec₁') ∧
      ExecutionContext.Over (fun _ link => link = quiet size p) ec₁ ec₁' ∧
      Joined (Function.update meshes p (backed.mesh ec₁.network))
        (flight.pop p fun x => (x : ℕ) ∈ batch.receiveRequests.map ReceiveRequest.fromId) := by
  have hread := exchange_read hcontext.network.1 hcontext.network.2 hnone
  cases task with
  | round r =>
      have hexchange : ExecutionContext.Over (fun _ link => link = ec'.network.exchange inbox) ec
          { ec' with network := ec'.network.exchange inbox } :=
        ⟨hcontext.circuit, hcontext.executionState, hcontext.wireContents, hcontext.schemeContext, hcontext.calls, rfl⟩
      obtain ⟨ec₁', hcall', hcontext'⟩ := complete_link hsize hexchange hcontext.network.1 hcontext.network.2
        (hmesh ▸ hjoined.length p) (hmesh ▸ hjoined.self p)
        (fun q c bytes m c' hq hc hrecv => arrived_of_recv hjoined _ (hmessage q hq) (hmesh ▸ hc) hrecv) hcall
      obtain ⟨order, received, hord, hrecv⟩ := mesh_of_complete backed hcall
      refine ⟨ec₁', hcall', ⟨hcontext'.circuit, hcontext'.executionState, hcontext'.wireContents,
        hcontext'.schemeContext, hcontext'.calls, hcontext'.network.trans hread⟩, ?_⟩
      rw [hmesh] at hrecv
      exact hjoined.recvObjectsMany hord hrecv
  | enter _ _ | leave _ | prepare =>
      have hnil := hbatch (by simp)
      obtain ⟨-, rfl⟩ := Prod.mk.inj hcall
      refine ⟨_, rfl, ⟨hcontext.circuit, hcontext.executionState, hcontext.wireContents, hcontext.schemeContext,
        hcontext.calls, ?_⟩, ?_⟩
      · rw [← hread]
        simp [hnil, namedPeers]
      · have hpop : flight.pop p (fun x => (x : ℕ) ∈ batch.receiveRequests.map ReceiveRequest.fromId) = flight := by
          funext x y
          exact if_neg (by simp [hnil])
        rw [hpop, hmesh, Function.update_eq_self]
        exact hjoined

theorem Refines.complete (hsize : codec.Sizes size) (h : Refines backed size early nodes net) (hearly : ∀ q, early q p = [])
    {context : ExecutionContext S Op Wire Elem Ctx Pending N} (hwaiting : (nodes p).waiting = some (task, batch))
    (hcall : task.complete (nodes p).context.circuit.scheme batch (nodes p).context = (.ok (), context)) :
    ∃ net', (program inputs).Reachable net net' ∧
      Refines backed size early (Function.update nodes p ⟨context, (nodes p).todo, none⟩) net' ∧
      ∀ x ≠ p, ∀ y, net.channel x y = [] → net'.channel x y = [] := by
  obtain ⟨hshows, flight, hjoined, hencodes⟩ := h
  have hp := hshows p
  generalize hproc : net.proc p = proc at hp
  cases hp with
  | rest hrest =>
      rw [hwaiting] at hrest
      cases hrest
  | @waiting stage hwaiting' htodo hcontext hbatch =>
      obtain ⟨rfl, rfl⟩ := Prod.mk.inj (Option.some.inj (hwaiting.symm.trans hwaiting'))
      have hnamed := named_of_complete hjoined rfl hbatch hcall
      have hopen : stage.context.network.unavailable (stage.batch.receiveRequests.map ReceiveRequest.fromId) = none := by
        refine Link.unavailable_eq_none fun q hq => ?_
        obtain ⟨hne, x, rfl, -⟩ := hnamed q hq
        rw [hcontext.network.1]
        exact ⟨x.isLt, hne⟩
      have hawaits : ∀ q : Fin n, (program inputs).awaits p stage q = true ↔
          (q : ℕ) ∈ stage.batch.receiveRequests.map ReceiveRequest.fromId := by
        intro q
        simp only [program, hopen, Option.isNone_none, Bool.true_and, decide_eq_true_eq, mem_namedPeers, List.mem_map]
      have hthere : ∀ q, (program inputs).awaits p stage q = true → net.channel q p ≠ [] := by
        intro q hq hnil
        obtain ⟨-, x, hx, hflight⟩ := hnamed q ((hawaits q).mp hq)
        obtain rfl := Fin.ext hx
        have hnone := hencodes x p
        rw [hnil] at hnone
        rw [hearly, List.nil_append] at hflight
        exact hflight (List.forall₂_nil_right_iff.mp hnone)
      obtain ⟨context', hcomplete, hcontext', hjoined'⟩ := complete_shown hsize hjoined rfl hcontext hbatch hcall
        (fun q => if (program inputs).awaits p stage q = true then (net.channel q p).head? else none)
        (fun q hq bytes rest hflight => by
          have hchannel := hencodes q p
          rw [hearly, List.nil_append] at hflight
          rw [hflight] at hchannel
          obtain ⟨packet, packets, hencodes, -, heq⟩ := List.forall₂_cons_left_iff.mp hchannel
          refine ⟨packet, ?_, hencodes⟩
          rw [if_pos ((hawaits q).mpr hq), heq, List.head?_cons])
        fun q hq => if_neg fun ha => hq (mem_namedPeers.mpr (List.mem_map.mp ((hawaits q).mp ha)))
      have hfinish : (program inputs).finish p stage (fun q =>
          if (program inputs).awaits p stage q = true then (net.channel q p).head? else none) =
          ⟨context', stage.todo, .ok (), stage.round + 1, stage.received ++ [fun q =>
            (if (program inputs).awaits p stage q = true then (net.channel q p).head? else none).map Packet.message]⟩ := by
        rw [← hcontext.circuit] at hcomplete
        simp only [program] at hcomplete ⊢
        rw [hcomplete]
      refine ⟨_, RoundProgram.Reachable.refl.complete hproc hthere, ⟨fun x => ?_, flight.pop p fun x =>
        (x : ℕ) ∈ stage.batch.receiveRequests.map ReceiveRequest.fromId, ?_, fun x y => ?_⟩, fun x hx y hnil => ?_⟩
      · by_cases hx : x = p
        · subst hx
          rw [RoundProgram.Net.rewire_self, Function.update_self, hfinish]
          exact .rest rfl rfl htodo hcontext'
        · rw [RoundProgram.Net.rewire_ne _ _ hx, Function.update_of_ne hx]
          exact hshows x
      · rw [mesh_update, ← pop_early _ _ hearly]
        exact hjoined'
      · by_cases hxy : y = p ∧ (program inputs).awaits p stage x = true
        · simp only [RoundProgram.Net.rewire, Flight.pop, if_pos hxy]
          rw [if_pos ⟨hxy.1, decide_eq_true ((hawaits x).mp hxy.2)⟩]
          rw [← List.drop_one, ← List.drop_one]
          exact List.forall₂_drop 1 (hencodes x y)
        · simp only [RoundProgram.Net.rewire, Flight.pop, if_neg hxy]
          rw [if_neg fun h => hxy ⟨h.1, (hawaits x).mpr (of_decide_eq_true h.2)⟩]
          exact hencodes x y
      · simp only [RoundProgram.Net.rewire, hnil, List.tail_nil, ite_self]

omit [Network N Elem] [Operation Op] [MpcScheme S Op Wire Elem Input Ctx Pending] in
theorem Shows.onNetwork {node : Node S Op Wire Elem Ctx Pending N}
    {proc : RoundProgram.Proc (Fin n) (Party S Op Wire Elem Ctx Pending n) (Stage S Op Wire Elem Ctx Pending n) (Packet Elem)}
    (h : Shows size p node proc) (network : N) :
    Shows size p { node with context := { node.context with network } } proc := by
  cases h with
  | rest hrest hok htodo hcontext =>
      exact .rest hrest hok htodo ⟨hcontext.circuit, hcontext.executionState, hcontext.wireContents,
        hcontext.schemeContext, hcontext.calls, hcontext.network⟩
  | waiting hwaiting htodo hcontext hbatch =>
      exact .waiting hwaiting htodo ⟨hcontext.circuit, hcontext.executionState, hcontext.wireContents,
        hcontext.schemeContext, hcontext.calls, hcontext.network⟩ hbatch

omit [Operation Op] [MpcScheme S Op Wire Elem Input Ctx Pending] in
/-- Bytes that travel change no message. -/
theorem Refines.deliver (h : Refines backed size early nodes net) (p q : Fin n) (k : ℕ) : Refines backed size early
    (fun x => (nodes x).onMesh backed (deliver (fun y => (nodes y).mesh backed) p q k x)) net := by
  obtain ⟨hshows, flight, hjoined, hencodes⟩ := h
  refine ⟨fun x => (hshows x).onNetwork _, flight, ?_, hencodes⟩
  have hmeshes : (fun x => ((nodes x).onMesh backed
      (MeshNetwork.deliver (fun y => (nodes y).mesh backed) p q k x)).mesh backed) =
      MeshNetwork.deliver (fun y => (nodes y).mesh backed) p q k := by
    funext x
    exact backed.mesh_onMesh _ _
  rw [hmeshes]
  exact hjoined.delivered p q k

/-- **One call over bytes** is a run over messages, in which the other parties send nothing. -/
theorem Refines.call (hsize : codec.Sizes size) (h : Refines backed size early nodes net) (hearly : ∀ q, early q p = [])
    {node : Node S Op Wire Elem Ctx Pending N} (hcall : NodeCall codec (inputs p) (nodes p) node) :
    ∃ net', (program inputs).Reachable net net' ∧ Refines backed size early (Function.update nodes p node) net' ∧
      ∀ x ≠ p, ∀ y, net.channel x y = [] → net'.channel x y = [] := by
  cases hcall with
  | begin hrest htodo hcall hfits => exact h.begin hsize hrest htodo hcall hfits
  | complete hwaiting hcall => exact h.complete hsize hearly hwaiting hcall

end refines

end Cluster

end MpcCore
