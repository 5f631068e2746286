import MpcCore.ClusterWorking
import Mathlib.Data.Fintype.Prod

/-! # Every run over bytes can be completed, and no call fails

A cluster from its handshakes on, over the bytes of a mesh, when its lockstep run over messages gets to its end.

* `Digests`: the digests of the circuits, which fit the header.
* `Arriving.greet_succeeds`, `Arriving.digests_come`, `Arriving.conclude_waits`: a party greets, and concludes its
  handshake or waits for a digest that has not come in.
* `Arriving.deliverAll`: all bytes come in.
* `Arriving.completes`: every run can be continued until no party has a task left.
* `Arriving.nextCall_waits`: no call fails. -/

namespace MpcCore

open Operation MpcScheme ExecutionContext
open MeshNetwork (OpenPipe deliver)
open SecureStream (tagLen)
open Relation (ReflTransGen)

variable {S Op Wire Elem Input Ctx Pending N : Type} {n : ℕ}

namespace Cluster

variable [Network N Elem] {codec : Codec Elem} {hashes : Codec (List UInt8)} [Operation Op]
  [MpcScheme S Op Wire Elem Input Ctx Pending]

/-! ### Parties on their way -/

/-- The digests of the circuits, and their bytes, which fit the header. -/
structure Digests (hashes : Codec (List UInt8)) (digest : MpcCircuit S Op → Outcome String (List UInt8))
    (circuits : Fin n → MpcCircuit S Op) (hash bytes : Fin n → List UInt8) : Prop where
  eq : ∀ p, digest (circuits p) = .ok (hash p)
  encodes : ∀ p, hashes.toStdvec [hash p] = .ok (bytes p)
  fits : ∀ p, (bytes p).length + tagLen < 2 ^ 32

/-- Parties on their way, the net that they are past their handshakes, and their channels. -/
structure Arriving (backed : MeshBacked N codec hashes) (size : Message Elem → ℕ)
    (digest : MpcCircuit S Op → Outcome String (List UInt8)) (circuits : Fin n → MpcCircuit S Op) (contexts : Fin n → Ctx)
    (inputs : Fin n → List (WireId × Input)) (init : Fin n → Party S Op Wire Elem Ctx Pending n)
    (hosts : Fin n → Host S Op Wire Elem Ctx Pending N)
    (net : RoundProgram.Net (Fin n) (Party S Op Wire Elem Ctx Pending n) (Stage S Op Wire Elem Ctx Pending n)
      (Packet Elem)) : Prop where
  refines : HostRefines backed size digest circuits contexts hosts net
  able : ∀ p, ((hosts p).mesh backed).Able (hosts p).toSend
  reach : (program inputs).Reachable (RoundProgram.initial init) net

section arriving

variable {backed : MeshBacked N codec hashes} {size : Message Elem → ℕ}
  {digest : MpcCircuit S Op → Outcome String (List UInt8)} {rng : Fin n → Draws} {circuits : Fin n → MpcCircuit S Op}
  {contexts : Fin n → Ctx} {inputs : Fin n → List (WireId × Input)} {init : Fin n → Party S Op Wire Elem Ctx Pending n}
  {R : ℕ} {hosts hosts' : Fin n → Host S Op Wire Elem Ctx Pending N}
  {net : RoundProgram.Net (Fin n) (Party S Op Wire Elem Ctx Pending n) (Stage S Op Wire Elem Ctx Pending n) (Packet Elem)}
  {p : Fin n} {hash bytes : Fin n → List UInt8}

omit [Operation Op] in
theorem able_greet {circuit : MpcCircuit S Op} {network : N} {ec' : ExecutionContext S Op Wire Elem Ctx Pending N}
    {hash : List UInt8} {sendLen : ℕ} (h : (backed.mesh network).Able (circuit.tasks.length + 1))
    (hcall : greet digest (.new circuit network) = (.ok (hash, sendLen), ec')) :
    (backed.mesh ec'.network).Able ec'.circuit.tasks.length := by
  obtain ⟨-, network', hbroadcast, rfl⟩ := greet_eq_ok.mp hcall
  obtain ⟨data, -, hsend⟩ := broadcastObject_eq_ok.mp (backed.broadcastObject _ _ _ _ hbroadcast)
  exact able_broadcast h hsend

theorem able_step (hestablish : Establishes backed rng circuits contexts)
    (h : HostRefines backed size digest circuits contexts hosts net)
    (hable : ∀ p, ((hosts p).mesh backed).Able (hosts p).toSend) (hstep : HostStep backed digest rng inputs hosts hosts')
    (p : Fin n) : ((hosts' p).mesh backed).Able (hosts' p).toSend := by
  -- all parties but the one that makes a call are as before
  have hupdate : ∀ (q : Fin n) (host : Host S Op Wire Elem Ctx Pending N), (host.mesh backed).Able host.toSend →
      ((Function.update hosts q host p).mesh backed).Able (Function.update hosts q host p).toSend := by
    intro q host hhost
    by_cases hpq : p = q
    · subst hpq
      rwa [Function.update_self]
    · rw [Function.update_of_ne hpq]
      exact hable p
  cases hstep with
  | @greet q ec ec' hash sendLen hq hcall hfits =>
      have hentering := h.entering q
      have hableq := hable q
      rw [hq] at hentering hableq
      cases hentering with
      | fresh => exact hupdate q _ (able_greet hableq hcall)
  | @conclude q ec ec' hash sendLen lens hq hcall =>
      obtain ⟨order, batches, network, hord, hmany, -, hnode⟩ := h.concluded hestablish hq hcall
      have hentering := h.entering q
      have hableq := able_recvObjectsMany (hable q) hord hmany
      rw [hq] at hentering hableq
      rw [hnode]
      cases hentering with
      | greeted => exact hupdate q _ hableq
  | @call q node node' hq hcall =>
      have hableq := hable q
      rw [hq] at hableq
      exact hupdate q _ (able_call hableq hcall)
  | deliver q r k =>
      obtain ⟨flight, hjoined, -⟩ := h.joined
      intro y c hc
      have htoSend : ((hosts p).onMesh backed (deliver (fun x => (hosts x).mesh backed) q r k p)).toSend =
          (hosts p).toSend := Host.toSend_withNetwork _ _
      have hmesh : ((hosts p).onMesh backed (deliver (fun x => (hosts x).mesh backed) q r k p)).mesh backed =
          deliver (fun x => (hosts x).mesh backed) q r k p := mesh_onMesh _ _
      rw [hmesh] at hc
      rw [htoSend]
      have hy : y < n := by
        have hlt := MeshNetwork.lt_of_channel hc
        rwa [(hjoined.delivered q r k).length] at hlt
      obtain ⟨c₀, hc₀, hcipher, hcounter, -⟩ := channel_deliver hjoined (y := ⟨y, hy⟩) hc
      rw [hcipher, hcounter]
      exact hable p y c₀ hc₀

theorem Arriving.step (hsize : codec.Sizes size) (hestablish : Establishes backed rng circuits contexts)
    (h : Arriving backed size digest circuits contexts inputs init hosts net)
    (hstep : HostStep backed digest rng inputs hosts hosts') :
    ∃ net', Arriving backed size digest circuits contexts inputs init hosts' net' := by
  obtain ⟨net', hreach, hrefines⟩ := h.refines.step hsize hestablish hstep
  exact ⟨net', hrefines, able_step hestablish h.refines h.able hstep, h.reach.trans hreach⟩

theorem Arriving.run (hsize : codec.Sizes size) (hestablish : Establishes backed rng circuits contexts)
    (h : Arriving backed size digest circuits contexts inputs init hosts net)
    (hrun : ReflTransGen (HostStep backed digest rng inputs) hosts hosts') :
    ∃ net', Arriving backed size digest circuits contexts inputs init hosts' net' := by
  induction hrun with
  | refl => exact ⟨net, h⟩
  | tail _ hstep ih =>
      obtain ⟨net₁, h₁⟩ := ih
      exact h₁.step hsize hestablish hstep

theorem Arriving.deliverOn (hestablish : Establishes backed rng circuits contexts)
    (h : Arriving backed size digest circuits contexts inputs init hosts net) :
    ∀ pairs : List (Fin n × Fin n), ∃ hosts', ReflTransGen (HostStep backed digest rng inputs) hosts hosts' ∧
      Arriving backed size digest circuits contexts inputs init hosts' net ∧
      (∀ x, ∃ network, hosts' x = (hosts x).withNetwork network) ∧
      ∀ pair ∈ pairs, ∀ a, ((hosts' pair.1).mesh backed).channel pair.2 = some a → a.inner.written = []
  | [] => ⟨hosts, .refl, h, fun x => ⟨_, ((hosts x).withNetwork_self).symm⟩, by simp⟩
  | (x, p) :: pairs => by
      obtain ⟨hosts₁, hrun, h₁, hsame, hempty⟩ := h.deliverOn hestablish pairs
      obtain ⟨flight, hjoined, -⟩ := h₁.refines.joined
      let k := ((((hosts₁ x).mesh backed).channel p).map fun a => a.inner.written.length).getD 0
      have hstep : HostStep backed digest rng inputs hosts₁ _ := .deliver x p k
      refine ⟨_, hrun.tail hstep, ⟨h₁.refines.deliver x p k, able_step hestablish h₁.refines h₁.able hstep, h₁.reach⟩,
        fun y => ?_, fun pair hpair a ha => ?_⟩
      · obtain ⟨network, hy⟩ := hsame y
        rw [Host.onMesh, hy]
        exact ⟨_, Host.withNetwork_withNetwork ..⟩
      · rw [mesh_onMesh] at ha
        obtain ⟨a₀, ha₀, -, -, hwritten⟩ := channel_deliver hjoined ha
        rw [hwritten]
        by_cases hx : pair.1 = x ∧ pair.2 = p
        · have hk : k = a₀.inner.written.length := by
            rw [hx.1, hx.2] at ha₀
            simp only [k, ha₀, Option.map_some, Option.getD_some]
          rw [if_pos hx, hk, List.drop_length]
        · rw [if_neg hx]
          exact hempty pair ((List.mem_cons.mp hpair).resolve_left fun he => hx (by rw [he]; exact ⟨rfl, rfl⟩)) a₀ ha₀

theorem Arriving.deliverAll (hestablish : Establishes backed rng circuits contexts)
    (h : Arriving backed size digest circuits contexts inputs init hosts net) :
    ∃ hosts', ReflTransGen (HostStep backed digest rng inputs) hosts hosts' ∧
      Arriving backed size digest circuits contexts inputs init hosts' net ∧
      (∀ x, ∃ network, hosts' x = (hosts x).withNetwork network) ∧
      ∀ (x p : Fin n) a, ((hosts' x).mesh backed).channel p = some a → a.inner.written = [] := by
  obtain ⟨hosts', hrun, h', hsame, hempty⟩ := h.deliverOn hestablish Finset.univ.toList
  exact ⟨hosts', hrun, h', hsame, fun x p => hempty (x, p) (Finset.mem_toList.mpr (Finset.mem_univ _))⟩

/-- **A party can greet** when its circuit has a digest that fits the header. -/
theorem Arriving.greet_succeeds (hdigests : Digests hashes digest circuits hash bytes)
    (h : Arriving backed size digest circuits contexts inputs init hosts net)
    {ec : ExecutionContext S Op Wire Elem Ctx Pending N} (hp : hosts p = .fresh ec) :
    ∃ sendLen ec', greet digest ec = (.ok (hash p, sendLen), ec') ∧ ec'.circuit = ec.circuit := by
  obtain ⟨flight, hjoined, -⟩ := h.refines.joined
  have hentering := h.refines.entering p
  have hable := h.able p
  have hmesh : (hosts p).mesh backed = backed.mesh ec.network := by rw [hp]; rfl
  rw [hp] at hentering
  cases hentering with
  | @fresh network hquiet =>
      have hable : ((hosts p).mesh backed).Able ((circuits p).tasks.length + 1) := by rwa [hp] at hable ⊢
      obtain ⟨len, m, hbroadcast⟩ := broadcast_succeeds hjoined hable (hdigests.fits p)
      rcases hcall : @Network.broadcastObject N Elem _ (hash p) network with ⟨r, network'⟩
      have hobject := backed.broadcastObject _ _ _ _ hcall
      rw [MeshNetwork.broadcastObject, MeshNetwork.broadcastObjects, hdigests.encodes] at hobject
      rw [hmesh] at hbroadcast
      obtain ⟨rfl, -⟩ := Prod.mk.inj (hobject.symm.trans hbroadcast)
      exact ⟨len, _, greet_eq_ok.mpr ⟨hdigests.eq p, network', hcall, rfl⟩, rfl⟩

theorem Arriving.greet_half (hdigests : Digests hashes digest circuits hash bytes)
    (h : Arriving backed size digest circuits contexts inputs init hosts net) (hp : (hosts p).hasSent = false) :
    ∃ host, HostStep backed digest rng inputs hosts (Function.update hosts p host) ∧ host.left < (hosts p).left := by
  cases hhost : hosts p with
  | greeted _ _ _ | entered _ =>
      rw [hhost] at hp
      cases hp
  | fresh ec =>
      obtain ⟨sendLen, ec', hgreet, hcircuit⟩ := h.greet_succeeds hdigests hhost
      refine ⟨_, .greet hhost hgreet fun data hdata => ?_, ?_⟩
      · obtain rfl := Except.ok.inj ((hdigests.encodes p).symm.trans hdata)
        exact hdigests.fits p
      · simp only [Host.left, hcircuit]
        omega

omit [Operation Op] in
theorem conclude_hang {rng : Draws} {hash : List UInt8} {sendLen : ℕ} {ec : ExecutionContext S Op Wire Elem Ctx Pending N}
    (hcall : (@Network.recvHashesMany N Elem _ (digestRequests (@Network.nPlayers N Elem _ ec.network)
      (@Network.myId N Elem _ ec.network)) ec.network).1 = .hang) : (conclude rng hash sendLen ec).1 = .hang := by
  unfold conclude
  rw [Act.read_bind]
  simp only [Act.bind, onNetwork, hcall, Outcome.mapErr]

omit [Operation Op] in
/-- The first message from another party to one before the end of its handshake is the digest. -/
theorem HostRefines.first_digest (hdigests : Digests hashes digest circuits hash bytes)
    (h : HostRefines backed size digest circuits contexts hosts net) (hp : (hosts p).hasEntered = false)
    {x : Fin n} (hx : x ≠ p) {later : List (List UInt8)}
    (hencodes : List.Forall₂ (fun bytes packet => codec.Encodes bytes packet.message) later (net.channel x p))
    {data : List UInt8} {rest : List (List UInt8)}
    (hfirst : unread hashes digest circuits hosts x p ++ later = data :: rest) : data = bytes x := by
  by_cases hsent : (hosts x).hasSent = true
  · rw [unread, if_pos ⟨hsent, hp, hx⟩] at hfirst
    simp only [digestBytes, hdigests.eq, hdigests.encodes, Except.toOption, Option.getD_some, List.singleton_append,
      List.cons.injEq] at hfirst
    exact hfirst.1.symm
  · have hfresh : (hosts x).hasSent = false := Bool.eq_false_of_not_eq_true hsent
    have hentering := h.entering x
    rw [unread_eq_nil (.inl hfresh), List.nil_append] at hfirst
    generalize hosts x = host at hentering hfresh
    cases hentering with
    | greeted | entered => cases hfresh
    | fresh hquiet =>
        rw [hquiet, hfirst] at hencodes
        cases hencodes

/-- **A party receives the digests of all others or waits** for one of them. -/
theorem Arriving.digests_come (hestablish : Establishes backed rng circuits contexts)
    (hdigests : Digests hashes digest circuits hash bytes)
    (h : Arriving backed size digest circuits contexts inputs init hosts net)
    {ec : ExecutionContext S Op Wire Elem Ctx Pending N} {hash' : List UInt8} {sendLen : ℕ}
    (hp : hosts p = .greeted ec hash' sendLen) :
    hash' = hash p ∧
      ((∃ batches len network, @Network.recvHashesMany N Elem _ (digestRequests (@Network.nPlayers N Elem _ ec.network)
          (@Network.myId N Elem _ ec.network)) ec.network = (.ok (batches, len), network) ∧
        (∀ batch, batch ∈ batches ↔ ∃ x ≠ p, batch = [hash x]) ∧
        establishContext ec.circuit.scheme ec.circuit (rng p) network = (.ok (contexts p), network)) ∨
      (conclude (rng p) hash' sendLen ec).1 = .hang ∧
        ∃ q ≠ p, ∃ c, ((hosts p).mesh backed).channel q = some c ∧ c.recv.1 = .hang) := by
  obtain ⟨flight, hjoined, hencodes⟩ := h.refines.joined
  have hentered : (hosts p).hasEntered = false := by rw [hp]; rfl
  have hmesh : (hosts p).mesh backed = backed.mesh ec.network := by rw [hp]; rfl
  have hfirst : ∀ x ≠ p, ∀ data rest, unread hashes digest circuits hosts x p ++ flight x p = data :: rest →
      data = bytes x :=
    fun x hx data rest => h.refines.first_digest hdigests hentered hx (hencodes x p)
  have hread : ∀ x, hashes.fromBytes (bytes x) = .ok [hash x] := fun x => hashes.readsBack (hdigests.encodes x)
  have hentering := h.refines.entering p
  rw [hp] at hentering
  cases hentering with
  | @greeted network _ _ hdigest hbytes =>
      obtain rfl := Outcome.ok.inj ((hdigests.eq p).symm.trans hdigest)
      refine ⟨rfl, ?_⟩
      rcases hcall : @Network.recvHashesMany N Elem _ (digestRequests (@Network.nPlayers N Elem _ network)
        (@Network.myId N Elem _ network)) network with ⟨r, network'⟩
      obtain ⟨order, hord, hmany, hestablished⟩ := h.refines.recv_digests hestablish hmesh hcall
      have hready : ∀ q ∈ (digestRequests n p).map ReceiveRequest.fromId, ∃ c,
          ((hosts p).mesh backed).channel q = some c ∧ (c.recv.1 = .hang ∨ ∃ objects m c' chunks,
            MeshNetwork.ReceivesMessage hashes.fromBytes c objects m c' ∧
              splitObjects (requestsFrom (digestRequests n p) q) objects = .ok chunks) := by
        intro q hq
        obtain ⟨x, rfl, hx⟩ := exists_of_mem_digestRequests hq
        obtain ⟨a, _, ha, -⟩ := hjoined.both hx.symm
        refine ⟨a, ha, or_iff_not_imp_left.mpr fun hcomes => ?_⟩
        obtain ⟨data, rest, hflight, hok⟩ := hjoined.recv ha rfl hcomes
        obtain rfl := hfirst x hx data rest hflight
        obtain ⟨chunks, hsplit⟩ := split_digest (hash x) hx
        exact ⟨[hash x], _, _, chunks, ⟨bytes x, Prod.ext hok rfl, hread x⟩, hsplit⟩
      obtain ⟨⟨batches, len⟩, rfl⟩ | ⟨rfl, q, hq, hwaits⟩ := MeshNetwork.recvObjectsMany_waits hord hready hmany
      · left
        have hbatch : ∀ batch ∈ batches, ∃ x ≠ p, batch = [hash x] := by
          intro batch hbatch
          obtain ⟨x, hx, data, rest, objs, hdata, hobjs, obj, hobj, rfl⟩ := batch_of_recv hjoined hord hmany hbatch
          rw [hfirst x hx data rest hdata, hread] at hobjs
          obtain rfl := Except.ok.inj hobjs
          exact ⟨x, hx, by rw [List.mem_singleton.mp hobj]⟩
        refine ⟨batches, len, network', hcall, fun batch => ⟨hbatch batch, ?_⟩, hestablished _ rfl⟩
        rintro ⟨x, hx, rfl⟩
        obtain ⟨data, rest, objs, hdata, hobjs, batch, hmem, hall⟩ := heard_of_recv hjoined hord hmany hx
        rw [hfirst x hx data rest hdata, hread] at hobjs
        obtain rfl := Except.ok.inj hobjs
        obtain ⟨y, -, rfl⟩ := hbatch batch hmem
        rwa [List.mem_singleton.mp (hall (hash y) (List.mem_singleton_self _))] at hmem
      · obtain ⟨x, rfl, hx⟩ := exists_of_mem_digestRequests hq
        exact .inr ⟨conclude_hang (congrArg Prod.fst hcall), x, hx, hwaits⟩

/-- **A party concludes its handshake or waits** for the digest of another, when all circuits have the same. -/
theorem Arriving.conclude_waits (hestablish : Establishes backed rng circuits contexts)
    (hdigests : Digests hashes digest circuits hash bytes) (hsame : ∀ x, hash x = hash p)
    (h : Arriving backed size digest circuits contexts inputs init hosts net)
    {ec : ExecutionContext S Op Wire Elem Ctx Pending N} {hash' : List UInt8} {sendLen : ℕ}
    (hp : hosts p = .greeted ec hash' sendLen) :
    (∃ lens ec', conclude (rng p) hash' sendLen ec = (.ok lens, ec') ∧ ec'.circuit = ec.circuit) ∨
      (conclude (rng p) hash' sendLen ec).1 = .hang ∧
        ∃ q ≠ p, ∃ c, ((hosts p).mesh backed).channel q = some c ∧ c.recv.1 = .hang := by
  obtain ⟨rfl, ⟨batches, len, network, hcall, hbatches, hcontext⟩ | hwaits⟩ := h.digests_come hestablish hdigests hp
  · have hagree : ∀ batch ∈ batches, batch.head? = some (hash p) := by
      intro batch hbatch
      obtain ⟨x, -, rfl⟩ := (hbatches batch).mp hbatch
      rw [List.head?_cons, hsame]
    exact .inl ⟨(sendLen, len), _,
      conclude_eq_ok.mpr ⟨batches, network, contexts p, network, hcall, rfl, hagree, hcontext, rfl⟩, rfl⟩
  · exact .inr hwaits

theorem Arriving.digest_there (h : Arriving backed size digest circuits contexts inputs init hosts net)
    (hsent : ∀ x, (hosts x).hasSent = true) (hp : (hosts p).hasEntered = false)
    (hempty : ∀ (x y : Fin n) a, ((hosts x).mesh backed).channel y = some a → a.inner.written = []) {q : Fin n} (hq : q ≠ p)
    {c : SecureStream OpenPipe} (hc : ((hosts p).mesh backed).channel q = some c) : c.recv.1 ≠ .hang := by
  obtain ⟨flight, hjoined, -⟩ := h.refines.joined
  have hflight : unread hashes digest circuits hosts q p ++ flight q p ≠ [] := by
    rw [unread, if_pos ⟨hsent q, hp, hq⟩]
    simp
  obtain ⟨_, _, hrecv⟩ := hjoined.recv_ready hc hflight (hempty q p)
  rw [hrecv]
  simp

theorem Arriving.conclude_half (hestablish : Establishes backed rng circuits contexts)
    (hdigests : Digests hashes digest circuits hash bytes) (hsame : ∀ x, hash x = hash p)
    (h : Arriving backed size digest circuits contexts inputs init hosts net) (hsent : ∀ x, (hosts x).hasSent = true)
    (hp : (hosts p).hasEntered = false)
    (hempty : ∀ (x y : Fin n) a, ((hosts x).mesh backed).channel y = some a → a.inner.written = []) :
    ∃ host, HostStep backed digest rng inputs hosts (Function.update hosts p host) ∧ host.left < (hosts p).left := by
  have hsentp := hsent p
  cases hhost : hosts p with
  | fresh _ =>
      rw [hhost] at hsentp
      cases hsentp
  | entered _ =>
      rw [hhost] at hp
      cases hp
  | greeted ec hash' sendLen =>
      obtain ⟨lens, ec', hconclude, hcircuit⟩ | ⟨-, q, hq, c, hc, hhang⟩ :=
        h.conclude_waits hestablish hdigests hsame hhost
      · refine ⟨_, .conclude hhost hconclude, ?_⟩
        simp only [Host.left, hcircuit, Option.isSome_none, Bool.false_eq_true, if_false]
        omega
      · exact absurd hhang (h.digest_there hsent hp hempty hq hc)

omit [Network N Elem] [Operation Op] [MpcScheme S Op Wire Elem Input Ctx Pending] in
theorem able_of_le {m : MeshNetwork OpenPipe} {k l : ℕ} (h : m.Able l) (hle : k ≤ l) : m.Able k := fun q c hc =>
  ⟨(h q c hc).1, lt_of_le_of_lt (Nat.add_le_add_left hle _) (h q c hc).2⟩

theorem Arriving.working (h : Arriving backed size digest circuits contexts inputs init hosts net) :
    Working backed size (unread hashes digest circuits hosts) inputs init
      (fun p => (hosts p).node (circuits p) (contexts p)) net := by
  refine ⟨h.refines.refines, fun p => ?_, h.reach⟩
  have hable := h.able p
  have hentering := h.refines.entering p
  rw [mesh_node]
  generalize hosts p = host at hable hentering ⊢
  cases hentering with
  | fresh => exact able_of_le hable (Nat.le_succ _)
  | greeted | entered => exact hable

theorem Arriving.begin_half (hends : LockstepEnds codec inputs init R) (hsize : codec.Sizes size)
    (h : Arriving backed size digest circuits contexts inputs init hosts net)
    {node : Node S Op Wire Elem Ctx Pending N} (hhost : hosts p = .entered node)
    {party : Party S Op Wire Elem Ctx Pending n} {stage : Stage S Op Wire Elem Ctx Pending n}
    (hp : net.proc p = .idle party) (hr : (program inputs).start p party = some (.inr stage)) :
    ∃ node', NodeCall codec (inputs p) node node' ∧ (Host.entered node').left < (Host.entered node).left := by
  have hbegin := h.working.begin_half hends hsize hp hr
  simpa only [hhost, Host.node] using hbegin

theorem Arriving.complete_waits (hends : LockstepEnds codec inputs init R) (hsize : codec.Sizes size)
    (h : Arriving backed size digest circuits contexts inputs init hosts net)
    {node : Node S Op Wire Elem Ctx Pending N} (hhost : hosts p = .entered node)
    {stage : Stage S Op Wire Elem Ctx Pending n} (hp : net.proc p = .busy stage (fun _ => none) fun _ => none) :
    (∃ context, stage.task.complete node.context.circuit.scheme stage.batch node.context = (.ok (), context)) ∨
      (stage.task.complete node.context.circuit.scheme stage.batch node.context).1 = .hang ∧
        ∃ q, (program inputs).awaits p stage q = true ∧
          ∃ c, ((hosts p).mesh backed).channel q = some c ∧ c.recv.1 = .hang := by
  have hwaits := h.working.complete_waits hends hsize (fun q => unread_eq_nil (.inr (by rw [hhost]; rfl))) hp
  simp only [hhost, Host.node] at hwaits
  rw [hhost]
  exact hwaits

theorem Arriving.complete_half (hends : LockstepEnds codec inputs init R) (hsize : codec.Sizes size)
    (h : Arriving backed size digest circuits contexts inputs init hosts net)
    {node : Node S Op Wire Elem Ctx Pending N} (hhost : hosts p = .entered node)
    {stage : Stage S Op Wire Elem Ctx Pending n} (hp : net.proc p = .busy stage (fun _ => none) fun _ => none)
    (hmessages : ∀ q, (program inputs).awaits p stage q = true → net.channel q p ≠ [])
    (hempty : ∀ x a, ((hosts x).mesh backed).channel p = some a → a.inner.written = []) :
    ∃ node', NodeCall codec (inputs p) node node' ∧ (Host.entered node').left < (Host.entered node).left := by
  have hcomplete := h.working.complete_half hends hsize (fun q => unread_eq_nil (.inr (by rw [hhost]; rfl))) hp hmessages
    fun x a ha => hempty x a (by rwa [mesh_node] at ha)
  simpa only [hhost, Host.node] using hcomplete

/-- A call of a party that leaves it less to go, after some bytes have travelled. -/
theorem Arriving.advance (hsize : codec.Sizes size) (hestablish : Establishes backed rng circuits contexts)
    (hrun : ReflTransGen (HostStep backed digest rng inputs) hosts hosts')
    (h : Arriving backed size digest circuits contexts inputs init hosts' net)
    (hsame : ∀ x, ∃ network, hosts' x = (hosts x).withNetwork network) {host : Host S Op Wire Elem Ctx Pending N}
    (hstep : HostStep backed digest rng inputs hosts' (Function.update hosts' p host)) (hleft : host.left < (hosts' p).left) :
    ∃ hosts' net', ReflTransGen (HostStep backed digest rng inputs) hosts hosts' ∧
      Arriving backed size digest circuits contexts inputs init hosts' net' ∧
      ∑ x, (hosts' x).left < ∑ x, (hosts x).left := by
  obtain ⟨net', h'⟩ := h.step hsize hestablish hstep
  refine ⟨_, net', hrun.tail hstep, h', ?_⟩
  have hlefts : ∀ x, (hosts' x).left = (hosts x).left := fun x => by
    obtain ⟨network, hx⟩ := hsame x
    rw [hx, Host.left_withNetwork]
  refine Finset.sum_lt_sum (fun x _ => ?_) ⟨p, Finset.mem_univ p, ?_⟩
  · by_cases hx : x = p
    · rw [hx, Function.update_self, ← hlefts]
      exact hleft.le
    · rw [Function.update_of_ne hx, hlefts]
  · rwa [Function.update_self, ← hlefts]

theorem Arriving.advance_delivered (hsize : codec.Sizes size) (hestablish : Establishes backed rng circuits contexts)
    (h : Arriving backed size digest circuits contexts inputs init hosts net) (p : Fin n)
    (hcall : ∀ hosts', Arriving backed size digest circuits contexts inputs init hosts' net →
      (∀ x, ∃ network, hosts' x = (hosts x).withNetwork network) →
      (∀ (x y : Fin n) a, ((hosts' x).mesh backed).channel y = some a → a.inner.written = []) →
      ∃ host, HostStep backed digest rng inputs hosts' (Function.update hosts' p host) ∧ host.left < (hosts' p).left) :
    ∃ hosts' net', ReflTransGen (HostStep backed digest rng inputs) hosts hosts' ∧
      Arriving backed size digest circuits contexts inputs init hosts' net' ∧
      ∑ x, (hosts' x).left < ∑ x, (hosts x).left := by
  obtain ⟨hosts₁, hrun, h₁, hsame, hempty⟩ := h.deliverAll hestablish
  obtain ⟨host, hstep, hleft⟩ := hcall hosts₁ h₁ hsame hempty
  exact h₁.advance hsize hestablish hrun hsame hstep hleft

/-- **Progress.**  Some party gets further, once the bytes for it have travelled, or all are at the end. -/
theorem Arriving.progress (hsize : codec.Sizes size) (hestablish : Establishes backed rng circuits contexts)
    (hdigests : Digests hashes digest circuits hash bytes) (hagree : ∀ p q, hash q = hash p)
    (hends : LockstepEnds codec inputs init R)
    (h : Arriving backed size digest circuits contexts inputs init hosts net) :
    (∃ hosts' net', ReflTransGen (HostStep backed digest rng inputs) hosts hosts' ∧
      Arriving backed size digest circuits contexts inputs init hosts' net' ∧
      ∑ x, (hosts' x).left < ∑ x, (hosts x).left) ∨
    ∀ p, ∃ node, hosts p = .entered node ∧
      ∃ party, net.proc p = .idle party ∧ (program inputs).lock init R p = some party := by
  by_cases hsent : ∀ x, (hosts x).hasSent = true
  · by_cases hentered : ∀ x, (hosts x).hasEntered = true
    · have hnode : ∀ p, ∃ node, hosts p = .entered node := fun p => exists_of_hasEntered (hentered p)
      obtain ⟨count, hsync⟩ := h.reach.synced hends.matched
      by_cases hlt : ∃ p, count p < R
      · left
        have hR : ∀ p, ∃ party, (program inputs).lock init R p = some party := fun p =>
          (hends.ends p).imp fun _ hparty => hparty.1
        obtain ⟨p, -, hdo⟩ := hsync.progress_half hends.matched h.working.refines.halfway hR hlt
        obtain ⟨node, hhost⟩ := hnode p
        cases hdo with
        | begin hp hr =>
            obtain ⟨node', hcall, hleft⟩ := h.begin_half hends hsize hhost hp hr
            exact h.advance hsize hestablish .refl (fun x => ⟨_, ((hosts x).withNetwork_self).symm⟩)
              (.call hhost hcall) (by rwa [hhost])
        | complete hp hmessages =>
            refine h.advance_delivered hsize hestablish p fun hosts₁ h₁ hsame hempty => ?_
            obtain ⟨network, hx⟩ := hsame p
            rw [hhost] at hx
            obtain ⟨node', hcall, hleft⟩ := h₁.complete_half hends hsize hx hp hmessages fun x => hempty x p
            exact ⟨_, .call hx hcall, by rwa [hx]⟩
      · right
        intro p
        have hp : count p = R :=
          le_antisymm (hsync.count_le hends.ends p) (Nat.le_of_not_lt fun hp => hlt ⟨p, hp⟩)
        obtain ⟨node, hhost⟩ := hnode p
        exact ⟨node, hhost, h.working.ended hends hsync hp⟩
    · obtain ⟨p, hp⟩ := not_forall.mp hentered
      left
      refine h.advance_delivered hsize hestablish p fun hosts₁ h₁ hsame hempty => ?_
      refine h₁.conclude_half hestablish hdigests (hagree p) (fun x => ?_) ?_ hempty
      · obtain ⟨network, hx⟩ := hsame x
        rw [hx, hasSent_withNetwork]
        exact hsent x
      · obtain ⟨network, hx⟩ := hsame p
        rw [hx, hasEntered_withNetwork]
        exact Bool.eq_false_of_not_eq_true hp
  · obtain ⟨p, hp⟩ := not_forall.mp hsent
    obtain ⟨host, hstep, hleft⟩ := h.greet_half hdigests (Bool.eq_false_of_not_eq_true hp)
    exact .inl (h.advance hsize hestablish .refl (fun x => ⟨_, ((hosts x).withNetwork_self).symm⟩) hstep hleft)

/-- **Every run can be completed**, with the parties of the lockstep run at the end. -/
theorem Arriving.completes (hsize : codec.Sizes size) (hestablish : Establishes backed rng circuits contexts)
    (hdigests : Digests hashes digest circuits hash bytes) (hagree : ∀ p q, hash q = hash p)
    (hends : LockstepEnds codec inputs init R)
    (h : Arriving backed size digest circuits contexts inputs init hosts net) :
    ∃ hosts' net', ReflTransGen (HostStep backed digest rng inputs) hosts hosts' ∧
      Arriving backed size digest circuits contexts inputs init hosts' net' ∧
      ∀ p, ∃ node, hosts' p = .entered node ∧
        ∃ party, net'.proc p = .idle party ∧ (program inputs).lock init R p = some party := by
  induction hleft : ∑ x, (hosts x).left using Nat.strong_induction_on generalizing hosts net with
  | h left ih =>
      obtain ⟨hosts₁, net₁, hrun, h₁, hlt⟩ | hend := h.progress hsize hestablish hdigests hagree hends
      · obtain ⟨hosts', net', hrun', h', hend⟩ := ih _ (hleft ▸ hlt) h₁ rfl
        exact ⟨hosts', net', hrun.trans hrun', h', hend⟩
      · exact ⟨hosts, net, .refl, h, hend⟩

/-- **No call fails.**  The next call of a party succeeds, or it is one that receives and waits on a channel to
another party on which there is nothing to receive yet. -/
theorem Arriving.nextCall_waits (hsize : codec.Sizes size) (hestablish : Establishes backed rng circuits contexts)
    (hdigests : Digests hashes digest circuits hash bytes) (hagree : ∀ p q, hash q = hash p)
    (hends : LockstepEnds codec inputs init R)
    (h : Arriving backed size digest circuits contexts inputs init hosts net) (p : Fin n) :
    nextCall digest (rng p) (inputs p) (hosts p) = .ok () ∨
      (hosts p).receives = true ∧ nextCall digest (rng p) (inputs p) (hosts p) = .hang ∧
        ∃ q ≠ p, ∃ c, ((hosts p).mesh backed).channel q = some c ∧ c.recv.1 = .hang := by
  cases hhost : hosts p with
  | fresh ec =>
      obtain ⟨sendLen, ec', hgreet, -⟩ := h.greet_succeeds hdigests hhost
      left
      simp only [nextCall, hgreet, Outcome.ok_bind]
  | greeted ec hash' sendLen =>
      obtain ⟨lens, ec', hconclude, -⟩ | ⟨hhang, hwaits⟩ := h.conclude_waits hestablish hdigests (hagree p) hhost
      · left
        simp only [nextCall, hconclude, Outcome.ok_bind]
      · rw [hhost] at hwaits
        refine .inr ⟨rfl, ?_, hwaits⟩
        simp only [nextCall, hhang, Outcome.bind]
  | entered node =>
      obtain ⟨count, hsync⟩ := h.reach.synced hends.matched
      have hshow := h.refines.refines.shows p
      rw [hhost] at hshow
      obtain ⟨party, hidle⟩ | ⟨stage, hbusy⟩ := h.working.refines.halfway p
      · left
        rw [hidle] at hshow
        obtain ⟨-, hnone⟩ | ⟨stage, hstart⟩ := hends.start hsync hidle
        · cases hshow with
          | rest hrest hok htodo hcontext =>
              rw [start_eq_none hok hnone] at htodo
              obtain ⟨ec, todo, waiting⟩ := node
              obtain rfl : todo = [] := htodo.symm
              obtain rfl : waiting = none := hrest
              rfl
        · obtain ⟨node', hcall, -⟩ := h.begin_half hends hsize hhost hidle hstart
          exact nextCall_of_nodeCall hcall
      · rw [hbusy] at hshow
        cases hshow with
        | waiting hwaiting htodo hcontext hbatch =>
            obtain ⟨ec, todo, waiting⟩ := node
            obtain rfl : waiting = some (stage.task, stage.batch) := hwaiting
            obtain ⟨context, hok⟩ | ⟨hhang, q, hq, c, hc, hwaits⟩ := h.complete_waits hends hsize hhost hbusy
            · exact .inl (congrArg Prod.fst hok)
            · obtain ⟨flight, hjoined, -⟩ := h.refines.joined
              have hne : p ≠ q := hjoined.ne_of_channel hc
              rw [hhost] at hc
              exact .inr ⟨rfl, hhang, q, hne.symm, c, hc, hwaits⟩

end arriving

end Cluster

end MpcCore
