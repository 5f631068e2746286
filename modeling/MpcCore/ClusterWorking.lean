import MpcCore.ClusterHosts

/-! # What a party over bytes can do next

The channels of parties that have messages to send, and the tasks of parties past their handshakes, when the lockstep
run over messages gets to its end.

* `MeshNetwork.Able`: the channels of a party can take so many more messages, one for each task to come
  (`Host.toSend`), and its digest.
* `LockstepEnds`: all tasks of the lockstep run succeed, and its messages can be serialised and fit the header.
* `send_returns`, `recv_waits`: a bulk call on the mesh returns what it returns on the link, or waits.
* `Working.begin_half`, `Working.complete_waits`: a party begins a task, and completes it or waits for a message that
  has not come in. -/

namespace MpcCore

open Operation MpcScheme ExecutionContext
open MeshNetwork (OpenPipe Flight Joined IsGroupOrder RecvObjectsMany groupBytes established deliver)
open SecureStream (tagLen)

variable {S Op Wire Elem Input Ctx Pending N : Type} {n : ℕ}

/-- The cipher encrypts all data that fits the header. -/
def Seals (cipher : Cipher) : Prop :=
  ∀ nonce associatedData data, data.length + tagLen < 2 ^ 32 →
    ∃ buffer, cipher.encryptInPlace nonce associatedData data = some buffer

/-- The channels of a mesh can take so many more messages. -/
def MeshNetwork.Able (net : MeshNetwork OpenPipe) (messages : ℕ) : Prop :=
  ∀ q c, net.channel q = some c → Seals c.cipher ∧ c.sendCounter + messages < 2 ^ 64

namespace Host

/-- The messages that a party may still send to another. -/
def toSend : Host S Op Wire Elem Ctx Pending N → ℕ
  | fresh ec => ec.circuit.tasks.length + 1
  | greeted ec _ _ => ec.circuit.tasks.length
  | entered node => node.todo.length

/-- The halves of tasks, and of the handshake, that a party has to go. -/
def left : Host S Op Wire Elem Ctx Pending N → ℕ
  | fresh ec => 2 * ec.circuit.tasks.length + 2
  | greeted ec _ _ => 2 * ec.circuit.tasks.length + 1
  | entered node => 2 * node.todo.length + if node.waiting.isSome then 1 else 0

theorem withNetwork_self (host : Host S Op Wire Elem Ctx Pending N) : host.withNetwork host.context.network = host := by
  cases host <;> rfl

theorem withNetwork_withNetwork (host : Host S Op Wire Elem Ctx Pending N) (network network' : N) :
    (host.withNetwork network).withNetwork network' = host.withNetwork network' := by
  cases host <;> rfl

theorem toSend_withNetwork (host : Host S Op Wire Elem Ctx Pending N) (network : N) :
    (host.withNetwork network).toSend = host.toSend := by
  cases host <;> rfl

theorem left_withNetwork (host : Host S Op Wire Elem Ctx Pending N) (network : N) :
    (host.withNetwork network).left = host.left := by
  cases host <;> rfl

end Host

namespace Cluster

variable [Network N Elem] {codec : Codec Elem} {hashes : Codec (List UInt8)} [Operation Op]
  [MpcScheme S Op Wire Elem Input Ctx Pending]

section able

variable {backed : MeshBacked N codec hashes} {p : Fin n} {task : Task Op} {batch : Batch Elem Pending}

theorem channel_deliver {meshes : Fin n → MeshNetwork OpenPipe} {flight : Flight n} (hjoined : Joined meshes flight)
    {p q x y : Fin n} {k : ℕ} {c : SecureStream OpenPipe} (hc : (deliver meshes p q k x).channel y = some c) :
    ∃ c₀, (meshes x).channel y = some c₀ ∧ c.cipher = c₀.cipher ∧ c.sendCounter = c₀.sendCounter ∧
      c.inner.written = if x = p ∧ y = q then c₀.inner.written.drop k else c₀.inner.written := by
  by_cases hpq : p = q
  · subst hpq
    simp only [deliver, hjoined.self] at hc
    have hne : ¬(x = p ∧ y = p) := by
      rintro ⟨rfl, rfl⟩
      exact hjoined.ne_of_channel hc rfl
    exact ⟨c, hc, rfl, rfl, (if_neg hne).symm⟩
  · obtain ⟨a, b, ha, hb, -⟩ := hjoined.both hpq
    simp only [deliver, ha, hb] at hc
    rw [MeshNetwork.channel_relink hjoined.length hpq] at hc
    by_cases h : x = p ∧ y = q
    · obtain ⟨rfl, rfl⟩ := h
      rw [if_pos ⟨rfl, rfl⟩] at hc
      obtain rfl := Option.some.inj hc
      exact ⟨a, ha, rfl, rfl, (if_pos ⟨rfl, rfl⟩).symm⟩
    · simp only [if_neg h] at hc ⊢
      by_cases h' : x = q ∧ y = p
      · obtain ⟨rfl, rfl⟩ := h'
        rw [if_pos ⟨rfl, rfl⟩] at hc
        obtain rfl := Option.some.inj hc
        exact ⟨b, hb, rfl, rfl, rfl⟩
      · rw [if_neg h'] at hc
        exact ⟨c, hc, rfl, rfl, rfl⟩

/-- A mesh that is set up can take as many messages as there are counters. -/
theorem able_established {key : Fin n → Fin n → Cipher} (hseals : ∀ p q, Seals (key p q)) {messages : ℕ}
    (hlt : messages < 2 ^ 64) (p : Fin n) : (established key p).Able messages := by
  intro q c hc
  have hq : q < n := by
    simpa only [established, List.length_map, List.length_finRange] using MeshNetwork.lt_of_channel hc
  have hchannel := MeshNetwork.channel_established key p ⟨q, hq⟩
  rw [hc] at hchannel
  split at hchannel
  · cases hchannel
  · obtain rfl := Option.some.inj hchannel
    refine ⟨hseals _ _, ?_⟩
    change 0 + messages < 2 ^ 64
    rwa [Nat.zero_add]

theorem able_send {c c' : SecureStream OpenPipe} {data : List UInt8} {len messages : ℕ}
    (h : Seals c.cipher ∧ c.sendCounter + (messages + 1) < 2 ^ 64) (hcall : c.send data = (.ok len, c')) :
    Seals c'.cipher ∧ c'.sendCounter + messages < 2 ^ 64 := by
  obtain ⟨_, -, -, -, heq⟩ := SecureStream.send_pipe hcall
  rw [heq]
  exact ⟨h.1, by dsimp only; omega⟩

theorem able_recv {c c' : SecureStream OpenPipe} {received : List UInt8 × ℕ} {messages : ℕ}
    (h : Seals c.cipher ∧ c.sendCounter + messages < 2 ^ 64) (hcall : c.recv = (.ok received, c')) :
    Seals c'.cipher ∧ c'.sendCounter + messages < 2 ^ 64 := by
  obtain ⟨_, _, _, _, -, -, -, heq⟩ | ⟨hne, -⟩ := SecureStream.recv_cases hcall
  · rw [heq]
    exact h
  · exact absurd rfl (hne _)

theorem able_recvObjectsMany {T : Type} {fromBytes : List UInt8 → Except String (List T)} {requests : List ReceiveRequest}
    {order : List ℕ} {net net' : MeshNetwork OpenPipe} {received : List (List T) × ℕ} {messages : ℕ}
    (h : net.Able messages) (hord : IsGroupOrder (requests.map ReceiveRequest.fromId) order)
    (hrecv : RecvObjectsMany fromBytes requests order net (.ok received) net') : net'.Able messages := by
  intro q c hc
  obtain ⟨hdone, rfl, -⟩ := MeshNetwork.recvObjectsMany_settled hord hrecv
  by_cases hq : q ∈ order
  · obtain ⟨d, hd⟩ := Option.isSome_iff_exists.mp (hdone q hq)
    rw [MeshNetwork.channel_settled MeshNetwork.recv_peer (hord.nodup_iff.mpr (List.nodup_dedup _)) hdone hq hd] at hc
    obtain rfl := Option.some.inj hc
    obtain ⟨c₀, _, hc₀, ⟨bytes, hbytes, -⟩, -⟩ := MeshNetwork.recv_done.mp hd
    exact able_recv (h q c₀ hc₀) hbytes
  · rw [MeshNetwork.channel_settled_ne MeshNetwork.recv_peer hdone hq] at hc
    exact h q c hc

theorem able_broadcast {net net' : MeshNetwork OpenPipe} {data : List UInt8} {len messages : ℕ}
    (h : net.Able (messages + 1)) (hcall : MeshNetwork.broadcast data net = (.ok len, net')) : net'.Able messages := by
  intro q c hc
  rw [MeshNetwork.broadcast, Act.read_bind] at hcall
  obtain ⟨_, -, -, hsent⟩ | ⟨_, _, _, _, -, -, -, hne, -⟩ := MeshNetwork.broadcastTo_cases _ 0 _ List.nodup_range hcall
  · by_cases hq : q ∈ (List.range net.nParties).filter (· ≠ net.myId)
    · obtain ⟨c₀, m, c', -, hc₀, hsend, hc'⟩ := hsent.sent q hq
      obtain rfl := Option.some.inj (hc.symm.trans hc')
      exact able_send (h q c₀ hc₀) hsend
    · obtain ⟨hseals, hcounter⟩ := h q c ((hsent.other q hq).symm.trans hc)
      exact ⟨hseals, by omega⟩
  · exact absurd rfl (hne len)

theorem send_succeeds {c : SecureStream OpenPipe} {data : List UInt8} {messages : ℕ} (haead : IsAead c.cipher)
    (h : Seals c.cipher ∧ c.sendCounter + (messages + 1) < 2 ^ 64) (hfits : data.length + tagLen < 2 ^ 32) :
    ∃ len c', c.send data = (.ok len, c') := by
  obtain ⟨buffer, henc⟩ := h.1 _ _ _ hfits
  obtain ⟨c', hc'⟩ := SecureStream.exists_send haead henc (by omega)
  exact ⟨_, c', hc'⟩

theorem broadcast_succeeds {meshes : Fin n → MeshNetwork OpenPipe} {flight : Flight n} (hjoined : Joined meshes flight)
    {data : List UInt8} {messages : ℕ} (h : (meshes p).Able (messages + 1)) (hfits : data.length + tagLen < 2 ^ 32) :
    ∃ len net', MeshNetwork.broadcast data (meshes p) = (.ok len, net') := by
  rcases hcall : MeshNetwork.broadcast data (meshes p) with ⟨r, net'⟩
  have hloop := hcall
  rw [MeshNetwork.broadcast, Act.read_bind] at hloop
  obtain ⟨len, rfl, -⟩ | ⟨before, bad, after, net₁, hpeers, hbad, hsent, -, _, hsend, hfails⟩ :=
    MeshNetwork.broadcastTo_cases _ 0 _ List.nodup_range hloop
  · exact ⟨len, net', rfl⟩
  · have hlt : bad < n := by
      have hmem : bad ∈ List.range (meshes p).nParties := by rw [hpeers]; simp
      rwa [List.mem_range, hjoined.nParties] at hmem
    have hnew : bad ∉ before.filter (· ≠ (meshes p).myId) := by
      have hnodup : (before ++ bad :: after).Nodup := hpeers ▸ List.nodup_range
      exact fun hmem => (List.nodup_append.mp hnodup).2.2 bad (List.mem_filter.mp hmem).1 bad (List.mem_cons_self ..) rfl
    obtain ⟨c, -, hc, -, haead, -⟩ := hjoined.link p ⟨bad, hlt⟩ fun hpb => hbad (by rw [hjoined.myId, hpb])
    obtain ⟨len, c', hc'⟩ := send_succeeds haead (h bad c hc) hfits
    have hlt₁ : bad < net₁.nParties := by rwa [hsent.nParties, hjoined.nParties]
    rw [MeshNetwork.send, MeshNetwork.onChannel_open hlt₁ ((hsent.other bad hnew).trans hc), hc'] at hsend
    obtain ⟨rfl, -⟩ := Prod.mk.inj hsend
    exact hfails.elim

/-- One digest from a party is what is asked of it. -/
theorem split_digest {T : Type} (obj : T) {q : Fin n} (hne : q ≠ p) :
    ∃ chunks, splitObjects (requestsFrom (digestRequests n p) q) [obj] = .ok chunks := by
  let items := (others n p).map fun i => (ReceiveRequest.new i 1, [obj])
  have hcount : ∀ item ∈ items, item.2.length = expectedCount item.1.count := by
    intro item hitem
    obtain ⟨i, -, rfl⟩ := List.mem_map.mp hitem
    rfl
  have hfst : items.map Prod.fst = digestRequests n p := by
    simp only [items, List.map_map, digestRequests, Function.comp_def]
  have hobjects : objectsFrom items q = [obj] := by
    have hfilter : items.filter (fun item => item.1.fromId = (q : ℕ)) = [(ReceiveRequest.new q 1, [obj])] := by
      simp only [items, List.filter_map, Function.comp_def, ReceiveRequest.new]
      rw [filter_eq_replicate (nodup_others p.val), if_pos (mem_others.mpr ⟨q.isLt, Fin.val_ne_of_ne hne⟩)]
      rfl
    rw [objectsFrom, hfilter]
    rfl
  have hsplit := splitObjects_eq (q : ℕ) 0 hcount
  rw [hfst, hobjects] at hsplit
  exact ⟨_, hsplit⟩

theorem batch_of_recv {T : Type} {meshes : Fin n → MeshNetwork OpenPipe} {flight : Flight n} (hjoined : Joined meshes flight)
    {fromBytes : List UInt8 → Except String (List T)} {order : List ℕ} {batches : List (List T)} {len : ℕ}
    {m : MeshNetwork OpenPipe} (hord : IsGroupOrder ((digestRequests n p).map ReceiveRequest.fromId) order)
    (h : RecvObjectsMany fromBytes (digestRequests n p) order (meshes p) (.ok (batches, len)) m) {batch : List T}
    (hbatch : batch ∈ batches) :
    ∃ x ≠ p, ∃ bytes rest objs, flight x p = bytes :: rest ∧ fromBytes bytes = .ok objs ∧
      ∃ obj ∈ objs, batch = [obj] := by
  obtain ⟨-, -, -, items, hfst, rfl, hcount, hrecv⟩ := MeshNetwork.recvObjectsMany_settled hord h
  obtain ⟨item, hitem, rfl⟩ := List.mem_map.mp hbatch
  have hmem : item.1 ∈ digestRequests n p := hfst ▸ List.mem_map_of_mem hitem
  obtain ⟨i, hi, hnew⟩ := List.mem_map.mp hmem
  obtain ⟨hlt, hne⟩ := mem_others.mp hi
  obtain ⟨c, k, c', hc, bytes, hbytes, hread⟩ :=
    hrecv i (hord.mem_iff.mpr (List.mem_dedup.mpr (mem_digestRequests (x := ⟨i, hlt⟩).mpr fun he => hne (by rw [← he]))))
  obtain ⟨bytes', rest, hflight, hok⟩ := hjoined.recv (q := ⟨i, hlt⟩) hc hbytes (by simp)
  obtain ⟨rfl, -⟩ := Prod.mk.inj (Outcome.ok.inj hok)
  have hlength := hcount item hitem
  rw [← hnew] at hlength
  obtain ⟨obj, hobj⟩ := List.length_eq_one_iff.mp hlength
  refine ⟨⟨i, hlt⟩, fun he => hne (by rw [← he]), bytes, rest, _, hflight, hread, obj, ?_, hobj⟩
  refine List.mem_flatMap.mpr ⟨item, List.mem_filter.mpr ⟨hitem, decide_eq_true ?_⟩, hobj ▸ List.mem_singleton_self obj⟩
  rw [← hnew]
  rfl

/-- What a call leaves to the channels. -/
theorem able_call {ins : List (WireId × Input)} {node node' : Node S Op Wire Elem Ctx Pending N}
    (h : (node.mesh backed).Able node.todo.length) (hcall : NodeCall codec ins node node') :
    (node'.mesh backed).Able node'.todo.length := by
  cases hcall with
  | @begin task todo batch context hrest htodo hcall hfits =>
      intro q c hc
      obtain ⟨order, len, hord, hsend⟩ := mesh_of_begin backed hcall
      obtain ⟨hsent, hother⟩ := MeshNetwork.sendObjectsMany_ok hord hsend
      rw [htodo, List.length_cons] at h
      by_cases hq : q ∈ batch.sendRequests.map SendRequest.toId
      · obtain ⟨c₀, bytes, m, c₁, hc₀, -, hcall, hc₁⟩ := hsent q hq
        obtain rfl := Option.some.inj (hc.symm.trans hc₁)
        exact able_send (h q c₀ hc₀) hcall
      · obtain ⟨hseals, hcounter⟩ := h q c ((hother q hq).symm.trans hc)
        exact ⟨hseals, by dsimp only; omega⟩
  | @complete task batch context hwaiting hcall =>
      cases task with
      | round r =>
          obtain ⟨order, received, hord, hrecv⟩ := mesh_of_complete backed hcall
          exact able_recvObjectsMany h hord hrecv
      | enter _ _ | leave _ | prepare =>
          obtain ⟨-, rfl⟩ := Prod.mk.inj hcall
          exact h

end able

/-! ### Parties past their handshakes -/

/-- The lockstep run succeeds up to its end after `R` tasks, and its messages can be serialised and fit the
header. -/
structure LockstepEnds (codec : Codec Elem) (inputs : Fin n → List (WireId × Input))
    (init : Fin n → Party S Op Wire Elem Ctx Pending n) (R : ℕ) : Prop where
  matched : (program inputs).Matched init
  ends : ∀ p, ∃ party, (program inputs).lock init R p = some party ∧ (program inputs).start p party = none
  ok : ∀ k p party, (program inputs).lock init k p = some party → party.outcome = .ok ()
  fits : ∀ k p stage, (program inputs).staged ((program inputs).lock init k) p = some stage →
    ∀ q ∈ stage.batch.sendRequests.map SendRequest.toId, ∃ bytes,
      codec.toStdvec (dataTo stage.batch.sendRequests q) = .ok bytes ∧ bytes.length + tagLen < 2 ^ 32

omit [Network N Elem] in
theorem LockstepEnds.start {inputs : Fin n → List (WireId × Input)} {init : Fin n → Party S Op Wire Elem Ctx Pending n}
    {R : ℕ} (hends : LockstepEnds codec inputs init R) {count : Fin n → ℕ}
    {net : RoundProgram.Net (Fin n) (Party S Op Wire Elem Ctx Pending n) (Stage S Op Wire Elem Ctx Pending n)
      (Packet Elem)} (hsync : (program inputs).Synced init count net) {p : Fin n}
    {party : Party S Op Wire Elem Ctx Pending n} (hp : net.proc p = .idle party) :
    (count p = R ∧ (program inputs).start p party = none) ∨
      ∃ stage, (program inputs).start p party = some (.inr stage) := by
  obtain ⟨party', hlock, hnone⟩ := hends.ends p
  have hidle := hsync.lock_idle hp
  obtain heq | hlt := (hsync.count_le hends.ends p).eq_or_lt
  · rw [heq, hlock] at hidle
    obtain rfl := Option.some.inj hidle
    exact .inl ⟨heq, hnone⟩
  · obtain ⟨stage, hstaged⟩ := RoundProgram.staged_of_lt hlock hlt
    obtain ⟨party₁, hlock₁, hstart⟩ := RoundProgram.staged_eq_some.mp hstaged
    obtain rfl := Option.some.inj (hlock₁.symm.trans hidle)
    exact .inr ⟨stage, hstart⟩

/-- Parties past their handshakes, the net that they are behind some earlier messages, and their channels. -/
structure Working (backed : MeshBacked N codec hashes) (size : Message Elem → ℕ) (early : Flight n)
    (inputs : Fin n → List (WireId × Input)) (init : Fin n → Party S Op Wire Elem Ctx Pending n)
    (nodes : Fin n → Node S Op Wire Elem Ctx Pending N)
    (net : RoundProgram.Net (Fin n) (Party S Op Wire Elem Ctx Pending n) (Stage S Op Wire Elem Ctx Pending n)
      (Packet Elem)) : Prop where
  refines : Refines backed size early nodes net
  able : ∀ p, ((nodes p).mesh backed).Able (nodes p).todo.length
  reach : (program inputs).Reachable (RoundProgram.initial init) net

section working

variable {backed : MeshBacked N codec hashes} {size : Message Elem → ℕ} {early : Flight n}
  {inputs : Fin n → List (WireId × Input)} {init : Fin n → Party S Op Wire Elem Ctx Pending n} {R : ℕ} {nodes : Fin n → Node S Op Wire Elem Ctx Pending N}
  {net : RoundProgram.Net (Fin n) (Party S Op Wire Elem Ctx Pending n) (Stage S Op Wire Elem Ctx Pending n) (Packet Elem)}
  {p : Fin n} {party : Party S Op Wire Elem Ctx Pending n} {stage : Stage S Op Wire Elem Ctx Pending n}

omit [Operation Op] [MpcScheme S Op Wire Elem Input Ctx Pending] in
/-- **A bulk send on the mesh returns what it returns on the link**, when its channels can take a message and all data
can be serialised and fits the header. -/
theorem send_returns (hsize : codec.Sizes size) {meshes : Fin n → MeshNetwork OpenPipe} {flight : Flight n}
    (hjoined : Joined meshes flight) {s : N} (hmesh : backed.mesh s = meshes p) {messages : ℕ}
    (hable : (meshes p).Able (messages + 1)) {requests : List (SendRequest Elem)}
    (hfits : ∀ q ∈ requests.map SendRequest.toId, ∃ bytes, codec.toStdvec (dataTo requests q) = .ok bytes ∧
      bytes.length + tagLen < 2 ^ 32) {len : ℕ} {link' : Link n Elem}
    (hsend : @Network.sendObjectsMany (Link n Elem) Elem _ requests (quiet size p) = (.ok len, link')) :
    ∃ s', @Network.sendObjectsMany N Elem _ requests s = (.ok len, s') := by
  have hsend : (quiet size p).sendObjectsMany requests = (.ok len, link') := hsend
  have hopen : (quiet size p).unavailable (requests.map SendRequest.toId) = none := by
    by_contra hne
    obtain ⟨q, hq⟩ := Option.ne_none_iff_exists'.mp hne
    rw [Link.sendObjectsMany, hq] at hsend
    cases (Prod.mk.inj hsend).1
  rcases hcall : @Network.sendObjectsMany N Elem _ requests s with ⟨r, s'⟩
  obtain ⟨order, hord, hmany⟩ := backed.sendObjectsMany _ _ _ _ hcall
  rw [hmesh] at hmany
  have hsends : ∀ q ∈ requests.map SendRequest.toId, ∃ c bytes m c', (meshes p).channel q = some c ∧
      codec.toStdvec (dataTo requests q) = .ok bytes ∧ c.send bytes = (.ok m, c') := by
    intro q hq
    obtain ⟨hlt, hne⟩ := Link.other_of_available hopen q hq
    have hpq : p ≠ ⟨q, hlt⟩ := fun he => hne (by rw [he]; rfl)
    obtain ⟨a, _, ha, -, haead, -⟩ := hjoined.link p ⟨q, hlt⟩ hpq
    obtain ⟨bytes, hbytes, hlength⟩ := hfits q hq
    obtain ⟨m, a', ha'⟩ := send_succeeds haead (hable q a ha) hlength
    exact ⟨a, bytes, m, a', ha, hbytes, ha'⟩
  obtain ⟨len', rfl⟩ := MeshNetwork.sendObjectsMany_succeeds hord hsends hmany
  have hlink := MeshNetwork.sendObjectsMany_link (quiet size p) (hjoined.length p) (hjoined.self p) rfl hsize hord hmany
  obtain ⟨hlen, -⟩ := Prod.mk.inj (hsend.symm.trans hlink)
  obtain rfl := Outcome.ok.inj hlen
  exact ⟨s', rfl⟩

/-- **A node can begin** a task that the party of the net can start. -/
theorem Working.begin_half (hends : LockstepEnds codec inputs init R) (hsize : codec.Sizes size)
    (h : Working backed size early inputs init nodes net) (hp : net.proc p = .idle party)
    (hr : (program inputs).start p party = some (.inr stage)) :
    ∃ node, NodeCall codec (inputs p) (nodes p) node ∧
      (Host.entered node).left < (Host.entered (nodes p)).left := by
  obtain ⟨count, hsync⟩ := h.reach.synced hends.matched
  have hfits := hends.fits _ p stage (RoundProgram.staged_eq_some.mpr ⟨party, hsync.lock_idle hp, hr⟩)
  obtain ⟨task, todo, batch, context, hok, htodo, hbegin, rfl⟩ := start_eq_inr hr
  obtain ⟨flight, hjoined, -⟩ := h.refines.joined
  have hshow := h.refines.shows p
  rw [hp] at hshow
  cases hshow with
  | rest hrest _ htodo' hcontext =>
      have hover := hcontext.symm
      have hcalled := Task.begin_over (Q := fun _ _ => True)
        (R := fun link s => link = quiet size p ∧ s = (nodes p).context.network)
        ⟨hover.circuit, hover.executionState, hover.wireContents, hover.schemeContext, hover.calls, hover.network, rfl⟩
        hbegin ?_ ?_ fun _ _ _ _ => trivial
      · obtain ⟨context', hcall, -⟩ := hcalled
        rw [hcontext.circuit] at hcall
        refine ⟨_, .begin hrest (htodo'.symm.trans htodo) hcall fun q bytes hbytes => ?_, ?_⟩
        · unfold groupBytes at hbytes
          split at hbytes
          · next hq =>
              obtain ⟨bytes', hbytes', hlt⟩ := hfits q hq
              rw [hbytes'] at hbytes
              obtain rfl := Option.some.inj hbytes
              exact hlt
          · cases hbytes
        · simp only [Host.left, hrest, htodo'.symm.trans htodo, List.length_cons, Option.isSome_some, if_true,
            Option.isSome_none, Bool.false_eq_true, if_false]
          omega
      · rintro link s ⟨rfl, rfl⟩
        rw [backed.myId]
        exact hjoined.myId p
      · rintro link s len link' ⟨rfl, rfl⟩ hsend
        have hable := h.able p
        rw [htodo'.symm.trans htodo, List.length_cons] at hable
        obtain ⟨s', hcall⟩ := send_returns hsize hjoined rfl hable hfits hsend
        exact ⟨s', hcall, trivial⟩

omit [Network N Elem] in
theorem LockstepEnds.finish_ok (hends : LockstepEnds codec inputs init R) {count : Fin n → ℕ}
    (hsync : (program inputs).Synced init count net) (hp : net.proc p = .busy stage (fun _ => none) fun _ => none) :
    ((program inputs).finish p stage fun q => if (program inputs).awaits p stage q = true then
      (program inputs).posted ((program inputs).lock init (count p)) q p else none).outcome = .ok () := by
  obtain ⟨party, hlock, hnone⟩ := hends.ends p
  have hstaged := hsync.staged hp
  have hne : count p ≠ R := by
    intro heq
    obtain ⟨party', hlock', hstart⟩ := RoundProgram.staged_eq_some.mp hstaged
    rw [heq, hlock] at hlock'
    obtain rfl := Option.some.inj hlock'
    rw [hnone] at hstart
    cases hstart
  have hlt : count p < R := lt_of_le_of_ne (hsync.count_le hends.ends p) hne
  exact hends.ok _ p _ (RoundProgram.lock_succ_of_lt hlock hlt hstaged)

omit [Network N Elem] [Operation Op] [MpcScheme S Op Wire Elem Input Ctx Pending] in
theorem unavailable_of_recvMany {link link' : Link n Elem} {requests : List ReceiveRequest}
    {received : List (List Elem) × ℕ}
    (hrecv : @Network.recvObjectsMany (Link n Elem) Elem _ requests link = (.ok received, link')) :
    link.unavailable (requests.map ReceiveRequest.fromId) = none := by
  by_contra hne
  obtain ⟨q, hq⟩ := Option.ne_none_iff_exists'.mp hne
  have hrecv : Link.recvMany Message.toObjects requests link = (.ok received, link') := hrecv
  rw [Link.recvMany, hq] at hrecv
  cases (Prod.mk.inj hrecv).1

omit [Operation Op] [MpcScheme S Op Wire Elem Input Ctx Pending] in
/-- **A bulk receive on the mesh returns what it returns on the link**, or waits for a party that it names, when the
messages in the inbox are the first ones on their way. -/
theorem recv_waits (hsize : codec.Sizes size) {meshes : Fin n → MeshNetwork OpenPipe} {flight : Flight n}
    (hjoined : Joined meshes flight) {s s' : N} (hmesh : backed.mesh s = meshes p) {link link' : Link n Elem}
    (hid : link.id = p) (hlink : link.size = size) {inbox : Fin n → Option (Packet Elem)}
    {requests : List ReceiveRequest} {received : List (List Elem) × ℕ} {r : Outcome String (List (List Elem) × ℕ)}
    (hmessage : ∀ q ∈ namedPeers n requests, ∀ bytes rest, flight q p = bytes :: rest →
      ∃ packet, inbox q = some packet ∧ codec.Encodes bytes packet.message)
    (hrecv : @Network.recvObjectsMany (Link n Elem) Elem _ requests (link.exchange inbox) = (.ok received, link'))
    (hcall : @Network.recvObjectsMany N Elem _ requests s = (r, s')) :
    r = .ok received ∨
      r = .hang ∧ ∃ q ∈ namedPeers n requests, ∃ c, (meshes p).channel q = some c ∧ c.recv.1 = .hang := by
  have hopen := unavailable_of_recvMany hrecv
  have hrecv : Link.recvMany Message.toObjects requests (link.exchange inbox) = (.ok received, link') := hrecv
  have hnamed : ∀ q ∈ requests.map ReceiveRequest.fromId, ∃ x : Fin n, (x : ℕ) = q ∧ x ≠ p ∧ x ∈ namedPeers n requests := by
    intro q hq
    obtain ⟨hlt, hne⟩ := Link.other_of_available hopen q hq
    refine ⟨⟨q, hlt⟩, rfl, fun he => hne ?_, mem_namedPeers.mpr (List.mem_map.mp hq)⟩
    rw [← hid] at he
    exact congrArg Fin.val he
  obtain ⟨order, hord, hmany⟩ := backed.recvObjectsMany _ _ _ _ hcall
  rw [hmesh] at hmany
  have hready : ∀ q ∈ requests.map ReceiveRequest.fromId, ∃ c, (meshes p).channel q = some c ∧ (c.recv.1 = .hang ∨
      ∃ objects m c' chunks, MeshNetwork.ReceivesMessage codec.fromBytes c objects m c' ∧
        splitObjects (requestsFrom requests q) objects = .ok chunks) := by
    intro q hq
    obtain ⟨x, rfl, hne, hx⟩ := hnamed q hq
    obtain ⟨a, _, ha, -⟩ := hjoined.both hne.symm
    refine ⟨a, ha, or_iff_not_imp_left.mpr fun hcomes => ?_⟩
    obtain ⟨bytes, rest, hflight, hok⟩ := hjoined.recv ha rfl hcomes
    obtain ⟨packet, hinbox, objs, hobjs, hbytes⟩ := hmessage x hx bytes rest hflight
    obtain ⟨m, objects, chunks, hhead, hread, hsplit⟩ := Link.split_of_recvMany hrecv x hx
    simp only [Link.exchange, hinbox, Option.map_some, Option.toList_some, List.head?_cons, Option.some.injEq] at hhead
    rw [← hhead, hobjs] at hread
    obtain rfl := Outcome.ok.inj hread
    exact ⟨objs, _, _, chunks, ⟨bytes, Prod.ext hok rfl, codec.readsBack hbytes⟩, hsplit⟩
  obtain ⟨⟨batches, len⟩, rfl⟩ | ⟨hhang, q, hq, hwaits⟩ := MeshNetwork.recvObjectsMany_waits hord hready hmany
  · left
    have hsame := MeshNetwork.recvObjectsMany_link (link.exchange inbox) (hjoined.length p) (hjoined.self p) hid
      (hlink ▸ hsize) (fun q c bytes m c' hq hc hrecv => ?_) hord hmany
    · exact (Prod.mk.inj (hrecv.symm.trans hsame)).1.symm
    · obtain ⟨x, hx, -, hmem⟩ := hnamed q hq
      obtain rfl := Fin.ext hx
      exact arrived_of_recv hjoined link (hmessage x hmem) hc hrecv
  · obtain ⟨x, rfl, -, hx⟩ := hnamed q hq
    exact .inr ⟨hhang, x, hx, hwaits⟩

/-- A round that is completed has a context of the scheme, and its bulk receive has succeeded. -/
theorem received_of_complete {scheme : S} {round : Round Op} {batch : Batch Elem Pending}
    {ec ec₁ : ExecutionContext S Op Wire Elem Ctx Pending N}
    (hcall : (Task.round round).complete scheme batch ec = (.ok (), ec₁)) :
    (∃ context, ec.schemeContext = some context) ∧
      ∃ received s, @Network.recvObjectsMany N Elem _ batch.receiveRequests ec.network = (.ok received, s) := by
  rw [complete_round, withContext] at hcall
  split at hcall
  · cases (Prod.mk.inj hcall).1
  · next context hcontext =>
      obtain ⟨received, s, hrecv, -⟩ := Act.bind_eq_ok.mp (Prod.ext (Prod.mk.inj hcall).1 rfl)
      exact ⟨⟨context, hcontext⟩, received, _, Prod.ext (Outcome.mapErr_eq_ok.mp (Prod.mk.inj hrecv).1) rfl⟩

theorem complete_hang {scheme : S} {round : Round Op} {batch : Batch Elem Pending}
    {ec : ExecutionContext S Op Wire Elem Ctx Pending N} {context : Ctx} (hcontext : ec.schemeContext = some context)
    (hcall : (@Network.recvObjectsMany N Elem _ batch.receiveRequests ec.network).1 = .hang) :
    ((Task.round round).complete scheme batch ec).1 = .hang := by
  rw [complete_round]
  simp only [withContext, hcontext, Act.bind, recvRequests, hcall, Outcome.mapErr]

/-- A round that is completed over one network is completed over another on which the bulk receive returns the
same. -/
theorem completed_of_received {N' : Type} [Network N' Elem] {scheme : S} {round : Round Op} {batch : Batch Elem Pending}
    {ec : ExecutionContext S Op Wire Elem Ctx Pending N} {ec' ec₁' : ExecutionContext S Op Wire Elem Ctx Pending N'}
    (hover : ExecutionContext.Over (fun _ _ => True) ec' ec)
    (hcall : (Task.round round).complete scheme batch ec' = (.ok (), ec₁')) {received : List (List Elem) × ℕ} {s : N}
    {s' : N'} (hrecv' : @Network.recvObjectsMany N' Elem _ batch.receiveRequests ec'.network = (.ok received, s'))
    (hrecv : @Network.recvObjectsMany N Elem _ batch.receiveRequests ec.network = (.ok received, s)) :
    ∃ ec₁, (Task.round round).complete scheme batch ec = (.ok (), ec₁) := by
  have htracks := Task.complete_tracks (Q := fun _ _ => True) (R := fun t s => t = ec'.network ∧ s = ec.network)
    ?_ scheme round ec' ec () ec₁'
    ⟨hover.circuit, hover.executionState, hover.wireContents, hover.schemeContext, hover.calls, rfl, rfl⟩ hcall
  · obtain ⟨ec₁, hcall, -⟩ := htracks
    exact ⟨ec₁, hcall⟩
  · rintro t u received₁ t' ⟨rfl, rfl⟩ hrecv₁
    obtain rfl := Outcome.ok.inj (Prod.mk.inj (hrecv₁.symm.trans hrecv')).1
    exact ⟨s, hrecv, trivial⟩

/-- The first bytes on the way to a party in a task are those of the message of the lockstep run. -/
theorem LockstepEnds.first_posted (hends : LockstepEnds codec inputs init R) {count : Fin n → ℕ}
    (hsync : (program inputs).Synced init count net) (hp : net.proc p = .busy stage (fun _ => none) fun _ => none)
    {q : Fin n} (hq : (program inputs).awaits p stage q = true) {data : List (List UInt8)}
    (hencodes : List.Forall₂ (fun bytes packet => codec.Encodes bytes packet.message) data (net.channel q p))
    {bytes : List UInt8} {rest : List (List UInt8)} (hdata : data = bytes :: rest) :
    ∃ packet, (program inputs).posted ((program inputs).lock init (count p)) q p = some packet ∧
      codec.Encodes bytes packet.message := by
  rw [hdata] at hencodes
  obtain ⟨packet, packets, hbytes, -, hchannel⟩ := List.forall₂_cons_left_iff.mp hencodes
  exact ⟨packet, (hsync.unread hends.matched hp hq rfl hchannel).1, hbytes⟩

/-- **A node completes its task or waits** for a message from a party that it awaits. -/
theorem Working.complete_waits (hends : LockstepEnds codec inputs init R) (hsize : codec.Sizes size)
    (h : Working backed size early inputs init nodes net) (hearly : ∀ q, early q p = [])
    (hp : net.proc p = .busy stage (fun _ => none) fun _ => none) :
    (∃ context, stage.task.complete (nodes p).context.circuit.scheme stage.batch (nodes p).context = (.ok (), context)) ∨
      (stage.task.complete (nodes p).context.circuit.scheme stage.batch (nodes p).context).1 = .hang ∧
        ∃ q, (program inputs).awaits p stage q = true ∧
          ∃ c, ((nodes p).mesh backed).channel q = some c ∧ c.recv.1 = .hang := by
  obtain ⟨count, hsync⟩ := h.reach.synced hends.matched
  have hfinish := hends.finish_ok hsync hp
  obtain ⟨flight, hjoined, hencodes⟩ := h.refines.joined
  have hshow := h.refines.shows p
  rw [hp] at hshow
  cases hshow with
  | waiting hwaiting htodo hcontext hbatch =>
      set inbox : Fin n → Option (Packet Elem) := fun q => if (program inputs).awaits p stage q = true then
        (program inputs).posted ((program inputs).lock init (count p)) q p else none with hinbox
      have hover := hcontext.symm
      cases htask : stage.task with
      | enter _ _ | leave _ | prepare => exact .inl ⟨_, rfl⟩
      | round r =>
          simp only [program, htask] at hfinish
          rcases hcomplete : (Task.round r).complete stage.context.circuit.scheme stage.batch
            { stage.context with network := stage.context.network.exchange inbox } with ⟨outcome, context⟩
          rw [hcomplete] at hfinish
          obtain rfl : outcome = .ok () := hfinish
          -- the bulk receive of the link has succeeded, and that of the mesh returns the same or waits
          obtain ⟨⟨context₀, hcontext₀⟩, received, link', hrecv⟩ := received_of_complete hcomplete
          rcases hcall : @Network.recvObjectsMany N Elem _ stage.batch.receiveRequests (nodes p).context.network
            with ⟨outcome, s'⟩
          have hawaits : ∀ q ∈ namedPeers n stage.batch.receiveRequests, (program inputs).awaits p stage q = true := by
            intro q hq
            have hopen := unavailable_of_recvMany hrecv
            simp only [program, Bool.and_eq_true, decide_eq_true_eq]
            exact ⟨Option.isNone_iff_eq_none.mpr hopen, hq⟩
          obtain rfl | ⟨rfl, q, hq, hwaits⟩ := recv_waits hsize hjoined rfl hcontext.network.1 hcontext.network.2
            (fun q hq bytes rest hflight => by
              rw [hearly, List.nil_append] at hflight
              obtain ⟨packet, hposted, hbytes⟩ := hends.first_posted hsync hp (hawaits q hq) (hencodes q p) hflight
              refine ⟨packet, ?_, hbytes⟩
              rw [hinbox]
              simp only [if_pos (hawaits q hq), hposted])
            hrecv hcall
          · have hover' : ExecutionContext.Over (fun _ _ => True)
                { stage.context with network := stage.context.network.exchange inbox } (nodes p).context :=
              ⟨hover.circuit, hover.executionState, hover.wireContents, hover.schemeContext, hover.calls, trivial⟩
            obtain ⟨context', hcompleted⟩ := completed_of_received hover' hcomplete hrecv hcall
            rw [hcontext.circuit] at hcompleted
            exact .inl ⟨context', hcompleted⟩
          · right
            refine ⟨complete_hang (hcontext.schemeContext.symm.trans hcontext₀) ?_, q, hawaits q hq, hwaits⟩
            rw [hcall]

theorem Working.complete_half (hends : LockstepEnds codec inputs init R) (hsize : codec.Sizes size)
    (h : Working backed size early inputs init nodes net) (hearly : ∀ q, early q p = [])
    (hp : net.proc p = .busy stage (fun _ => none) fun _ => none)
    (hmessages : ∀ q, (program inputs).awaits p stage q = true → net.channel q p ≠ [])
    (hempty : ∀ x a, ((nodes x).mesh backed).channel p = some a → a.inner.written = []) :
    ∃ node, NodeCall codec (inputs p) (nodes p) node ∧
      (Host.entered node).left < (Host.entered (nodes p)).left := by
  obtain ⟨flight, hjoined, hencodes⟩ := h.refines.joined
  have hshow := h.refines.shows p
  have hwaits := h.complete_waits hends hsize hearly hp
  rw [hp] at hshow
  cases hshow with
  | waiting hwaiting htodo hcontext hbatch =>
      obtain ⟨context, hcall⟩ | ⟨-, q, hq, a, ha, hhang⟩ := hwaits
      · refine ⟨_, .complete hwaiting hcall, ?_⟩
        simp [Host.left, hwaiting]
      · -- all bytes of a message have come in, so the channel does not wait
        have hflight : early q p ++ flight q p ≠ [] := fun hnil => by
          have hpackets := hencodes q p
          rw [(List.append_eq_nil_iff.mp hnil).2] at hpackets
          exact hmessages q hq (List.forall₂_nil_left_iff.mp hpackets)
        obtain ⟨_, _, hrecv⟩ := hjoined.recv_ready ha hflight (hempty q)
        rw [hrecv] at hhang
        cases hhang

omit [Operation Op] in
theorem Refines.halfway (h : Refines backed size early nodes net) : net.Halfway := by
  intro p
  have hp := h.shows p
  generalize net.proc p = proc at hp ⊢
  cases hp with
  | rest => exact .inl ⟨_, rfl⟩
  | waiting => exact .inr ⟨_, rfl⟩

theorem Working.ended (hends : LockstepEnds codec inputs init R) (h : Working backed size early inputs init nodes net)
    {count : Fin n → ℕ} (hsync : (program inputs).Synced init count net) (hp : count p = R) :
    ∃ party, net.proc p = .idle party ∧ (program inputs).lock init R p = some party := by
  obtain ⟨party, hlock, hnone⟩ := hends.ends p
  obtain ⟨party', hidle⟩ | ⟨stage, hbusy⟩ := h.refines.halfway p
  · exact ⟨party', hidle, hp ▸ hsync.lock_idle hidle⟩
  · obtain ⟨party', hlock', hstart⟩ := RoundProgram.staged_eq_some.mp (hsync.staged hbusy)
    rw [hp, hlock] at hlock'
    obtain rfl := Option.some.inj hlock'
    rw [hnone] at hstart
    cases hstart

end working

end Cluster

end MpcCore
