import MpcCore.ClusterCompletion
import MpcCore.ClusterCorrectness
import MpcCore.MeshPostcard

/-! # Additive computations over bytes

What an additive computation computes when its parties start over the encrypted streams of a mesh.

* `overBytes_correct`: a party that is finished is one of parties with one circuit, and holds the plaintext of each
  opened wire, whatever the others are doing; the values of all parties sum to the plaintexts, and no byte is left.
* `overBytes_completes`: with one circuit, accepted inputs, and messages that fit the header in the format of
  `postcard`, every run can be continued until all parties are finished.
* `overBytes_noFailure`: no call of such a run returns an error or panics. -/

namespace MpcCore

open Operation MpcScheme
open MeshNetwork (OpenPipe established)
open SecureStream (tagLen)
open Relation (ReflTransGen)

variable {M n : ℕ} {N : Type} [Network N ℕ] {codec : Codec ℕ} {hashes : Codec (List UInt8)}
  {circuit : AdditiveCircuit M} {circuits : Fin n → AdditiveCircuit M}

abbrev AdditiveHost (M : ℕ) (N : Type) [Network N ℕ] :=
  Host (AdditiveScheme M) AdditiveOperation ℕ ℕ AdditiveContext AdditivePending N

/-- The new parties of an additive computation, each with its circuit, over their networks. -/
def additiveHosts (circuits : Fin n → AdditiveCircuit M) (networks : Fin n → N) (p : Fin n) : AdditiveHost M N :=
  .fresh (.new (circuits p) (networks p))

/-- The contexts of the scheme after the handshakes. -/
def additiveContexts (n : ℕ) (draws : Fin n → Draws) (p : Fin n) : AdditiveContext := ⟨p, n, .empty, draws p⟩

/-- The digest of a circuit. -/
def additiveDigest (sha3 : List UInt8 → List UInt8) (circuit : AdditiveCircuit M) : Outcome String (List UInt8) :=
  .ok (sha3 circuit.toStdvec)

/-- Past its handshake, between two tasks, and finished. -/
def Host.Finished : AdditiveHost M N → Prop
  | fresh _ | greeted _ _ _ => False
  | entered node => node.waiting = none ∧ node.context.executionState = .finished

/-! ### The messages of an additive computation -/

section messages

variable {draws : Fin n → Draws} {table : WireId → Fin n → ℕ} {p : Fin n} {q : ℕ} {done ops : List AdditiveOperation}
  {op : AdditiveOperation}

theorem length_dataTo_outOf : (dataTo (outOf draws table p done op).sendRequest q).length ≤ 1 := by
  have hto : ∀ f : ℕ → ℕ, (dataTo ((others n p).map fun i => ⟨i, f i⟩) q).length ≤ 1 := fun f => by
    have hpick : ((others n p).filter fun i : ℕ => i = q).length ≤ 1 := by
      rw [filter_eq_replicate (nodup_others p)]
      split <;> simp
    rw [dataTo, List.length_map, List.filter_map, List.length_map]
    exact hpick
  cases op with
  | input partyId output =>
      simp only [outOf]
      split
      · exact hto _
      · exact Nat.zero_le _
  | genRandom output | add left right output => exact Nat.zero_le _
  | reveal inp output => exact hto fun _ => table inp p

theorem lt_of_mem_outOf (hdraws : ∀ p k, draws p k < M) (hM : 0 < M) (hreads : ∀ w ∈ inputs op, table w p < M) {v : ℕ}
    (hv : v ∈ (outOf draws table p done op).sendRequest.map SendRequest.data) : v < M := by
  cases op with
  | input partyId output =>
      simp only [outOf] at hv
      split at hv
      · rw [List.map_map, List.mem_map] at hv
        obtain ⟨i, -, rfl⟩ := hv
        exact dealt_lt hdraws hM _ _ _
      · cases hv
  | genRandom output | add left right output => cases hv
  | reveal inp output =>
      simp only [outOf, List.map_map, List.mem_map] at hv
      obtain ⟨i, -, rfl⟩ := hv
      exact hreads inp (by simp [inputs])

/-- What a party sends in a task. -/
theorem sendRequests_batchOf : (batchOf draws table p done ops).sendRequests =
    (eachFrom (outOf draws table p) done ops).flatMap NetworkPhaseOutput.sendRequest :=
  (foldl_add (eachFrom (outOf draws table p) done ops) .empty).2.2.1

theorem length_dataTo_batchOf : (dataTo (batchOf draws table p done ops).sendRequests q).length ≤ ops.length := by
  have hlength : ∀ (ops done : List AdditiveOperation),
      (eachFrom (outOf draws table p) done ops).length = ops.length := by
    intro ops
    induction ops with
    | nil => exact fun _ => rfl
    | cons op ops ih => exact fun done => congrArg (· + 1) (ih (done ++ [op]))
  have hle : ((eachFrom (outOf draws table p) done ops).flatMap fun out => dataTo out.sendRequest q).length ≤
      (eachFrom (outOf draws table p) done ops).length * 1 := length_flatMap_le fun out hout => by
    obtain ⟨d, op, -, rfl⟩ := mem_eachFrom hout
    exact length_dataTo_outOf
  rw [hlength, Nat.mul_one] at hle
  rw [sendRequests_batchOf, dataTo, List.filter_flatMap, List.map_flatMap]
  exact hle

theorem lt_of_mem_batchOf (hdraws : ∀ p k, draws p k < M) (hM : 0 < M)
    (hreads : ∀ op ∈ ops, ∀ w ∈ inputs op, table w p < M) {v : ℕ}
    (hv : v ∈ dataTo (batchOf draws table p done ops).sendRequests q) : v < M := by
  obtain ⟨request, hrequest, rfl⟩ := List.mem_map.mp hv
  rw [sendRequests_batchOf] at hrequest
  obtain ⟨out, hout, hmem⟩ := List.mem_flatMap.mp (List.mem_filter.mp hrequest).1
  obtain ⟨d, op, hop, rfl⟩ := mem_eachFrom hout
  exact lt_of_mem_outOf hdraws hM (hreads op hop) (List.mem_map_of_mem hmem)

end messages

theorem toStdvec_postcard (hle : M ≤ 2 ^ 63) {objs : List ℕ} {k : ℕ} (hlength : objs.length ≤ k)
    (hk : 5 + 9 * k + tagLen < 2 ^ 32) (hlt : ∀ v ∈ objs, v < M) :
    ∃ bytes, postcard.toStdvec objs = .ok bytes ∧ bytes.length + tagLen < 2 ^ 32 := by
  have hshort : ShortSeq (· < 2 ^ 64) objs := ⟨by omega, fun v hv => by have := hlt v hv; omega⟩
  refine ⟨_, toStdvec_ofReads.mpr ⟨hshort, rfl⟩, ?_⟩
  have hbytes : (encodeSeq varint objs).length ≤ 4 + 1 + objs.length * 9 :=
    length_encodeSeq_le (by omega) fun v hv => length_varint_le (by have := hlt v hv; omega)
  omega

namespace Cluster

/-! ### The lockstep run -/

section lockstep

variable {inputs : Fin n → List (WireId × ℕ)} {draws : Fin n → Draws} {size : Message ℕ → ℕ}

/-- The network operations of a task are no more than those of its round. -/
theorem networkAt_fits (hrounds : ∀ round ∈ circuit.offlineRounds ++ circuit.onlineRounds,
      5 + 9 * round.networkOperations.length + tagLen < 2 ^ 32) {k : ℕ} {task : Task AdditiveOperation}
    (htask : circuit.tasks[k]? = some task) : 5 + 9 * (circuit.networkAt k).length + tagLen < 2 ^ 32 := by
  rw [MpcCircuit.networkAt, htask, Option.elim_some]
  cases task with
  | round round => exact hrounds round (by simp [rounds_split htask, Task.rounds])
  | enter _ _ | leave _ | prepare => exact (by decide : 5 + 9 * 0 + tagLen < 2 ^ 32)

/-- **The lockstep run comes to its end**, and its messages fit the header. -/
theorem lockstepEnds (hx : Executable n circuit) (hr : Regular M draws circuit.operations)
    (haccept : ∀ p, Accepts circuit p (inputs p))
    (hrounds : ∀ round ∈ circuit.offlineRounds ++ circuit.onlineRounds,
      5 + 9 * round.networkOperations.length + tagLen < 2 ^ 32) :
    LockstepEnds postcard inputs (additiveParties circuit size draws) circuit.tasks.length where
  matched := matched (owned_tasks hx.owned)
  ends p := by
    obtain ⟨party, hparty⟩ := exists_lock hx hr haccept _ le_rfl p
    have hat := partyAt (owned_tasks hx.owned) _ p party hparty
    have htodo : party.todo = [] := by rw [hat.todo, List.drop_length]
    refine ⟨party, hparty, ?_⟩
    simp only [program, htodo, (valuesAt hx hr _ p party hparty).ok]
  ok k p party hparty := (valuesAt hx hr k p party hparty).ok
  fits k p stage hstage q hq := by
    have hat := stageAt (owned_tasks hx.owned) hstage
    have hvalues := stageValues_of_staged hx hr (valuesAt hx hr k) hstage
    obtain ⟨rest, hrest⟩ := operations_split hat.task
    have hmem : ∀ op ∈ circuit.networkAt k, op ∈ circuit.operations := fun op hop => by
      rw [hrest, doneAt_succ hat.task]
      exact List.mem_append_left _ (List.mem_append_right _ hop)
    rw [hvalues.batch]
    refine toStdvec_postcard hr.le length_dataTo_batchOf (networkAt_fits hrounds hat.task) fun v hv =>
      lt_of_mem_batchOf hr.draws_lt hr.pos (fun op hop w hw => ?_) hv
    exact shareTable_lt hx.ordered hr.draws_lt hr.pos (read_mem hx (hmem op hop) hw) p

end lockstep

/-! ### Finished parties -/

section finished

variable {backed : MeshBacked N codec hashes} {size : Message ℕ → ℕ} {sha3 : List UInt8 → List UInt8}
  {contexts : Fin n → AdditiveContext} {hosts : Fin n → AdditiveHost M N} {net : AdditiveNet M n} {p : Fin n}

theorem HostRefines.finished (h : HostRefines backed size (additiveDigest sha3) circuits contexts hosts net)
    (hp : (hosts p).Finished) :
    Finished net p ∧ ∀ w, wireAt net p w = (hosts p).context.getWire w := by
  have hshow := h.refines.shows p
  generalize hosts p = host at hp hshow
  cases host with
  | fresh _ | greeted _ _ _ => exact hp.elim
  | entered node =>
      have hshow : Shows size p node (net.proc p) := hshow
      generalize hproc : net.proc p = proc at hshow
      cases hshow with
      | rest hrest hok htodo hcontext =>
          simp only [Finished, wireAt, hproc]
          exact ⟨hcontext.executionState.trans hp.2, fun w => congrArg (fun wires => wires.get w) hcontext.wireContents⟩
      | waiting hwaiting =>
          rw [hp.1] at hwaiting
          cases hwaiting

theorem hasEntered_of_finished {host : AdditiveHost M N} (h : host.Finished) : host.hasEntered = true := by
  cases host with
  | fresh _ | greeted _ _ _ => exact h.elim
  | entered _ => rfl

theorem eq_of_toStdvec {circuit circuit' : AdditiveCircuit M} (h : circuit.toStdvec = circuit'.toStdvec) :
    circuit = circuit' := by
  obtain ⟨hoffline, honline⟩ := rounds_eq_of_toStdvec h
  cases circuit
  cases circuit'
  simp only at hoffline honline
  rw [hoffline, honline]

/-- A party past its handshake is one of parties with the same circuit. -/
theorem HostRefines.same_circuit (h : HostRefines backed size (additiveDigest sha3) circuits contexts hosts net)
    (hcollision : ∀ p q, sha3 (circuits p).toStdvec = sha3 (circuits q).toStdvec →
      (circuits p).toStdvec = (circuits q).toStdvec)
    (hp : (hosts p).hasEntered = true) (q : Fin n) : circuits q = circuits p := by
  exact eq_of_toStdvec (hcollision q p (Outcome.ok.inj (h.agreed p hp q).2))

theorem HostRefines.spent (h : HostRefines backed size (additiveDigest sha3) circuits contexts hosts net)
    (hentered : ∀ p, (hosts p).hasEntered = true) (hempty : ∀ p q, net.channel p q = []) (p q : Fin n)
    (c : SecureStream OpenPipe) (hc : ((hosts p).mesh backed).channel q = some c) :
    c.inner.unread = [] ∧ c.inner.written = [] := by
  obtain ⟨flight, hjoined, hencodes⟩ := h.joined
  have hflight : ∀ x y, unread hashes (additiveDigest sha3) circuits hosts x y ++ flight x y = [] := fun x y => by
    have hpackets := hencodes x y
    rw [hempty] at hpackets
    rw [unread_eq_nil (.inr (hentered y)), List.forall₂_nil_right_iff.mp hpackets, List.append_nil]
  obtain ⟨a, b, ha, hb, -, -, hab, hba⟩ := hjoined.both (hjoined.ne_of_channel hc)
  obtain rfl := Option.some.inj (hc.symm.trans ha)
  have hout := hab.packets
  have hin := hba.packets
  rw [hflight] at hout hin
  exact ⟨(List.append_eq_nil_iff.mp hin.eq_nil).1, (List.append_eq_nil_iff.mp hout.eq_nil).2⟩

end finished

/-! ### Runs -/

section runs

variable {inputs : Fin n → List (WireId × ℕ)} {draws : Fin n → Draws} {key : Fin n → Fin n → Cipher}
  {networks : Fin n → N} {sha3 : List UInt8 → List UInt8}

theorem establishes_additive {backed : MeshBacked N codec hashes} :
    Establishes backed draws circuits (additiveContexts n draws) := by
  intro p network hid hparties
  change (Outcome.ok (⟨@Network.myId N ℕ _ network, @Network.nPlayers N ℕ _ network, .empty, draws p⟩ : AdditiveContext),
    network) = _
  rw [backed.myId, backed.nPlayers, hid, hparties]
  rfl

/-- **What an additive computation over bytes computes.**  Let parties start with a circuit each that their planner
has accepted, and let SHA-3 have no collision on these circuits.  In every run, a party that is finished is one of
parties that all have its circuit, and it holds the plaintext of every opened wire without another `Reveal` above it,
wherever the other parties are.  Once all are finished, their values of a wire without a `Reveal` above it sum to its
plaintext modulo `M`, and no byte is left on any channel. -/
theorem overBytes_correct {backed : MeshBacked N codec hashes} {operations : Fin n → List AdditiveOperation}
    (hpos : 1 ≤ M) (hle : M ≤ 2 ^ 63) (hnew : ∀ p, MpcCircuit.new ⟨⟩ (operations p) = .ok (circuits p))
    (hstored : ∀ p, (circuits p).StoresBeforeUse) (hown : ∀ p, ∀ op ∈ operations p, op.Owned n)
    (hcollision : ∀ p q, sha3 (circuits p).toStdvec = sha3 (circuits q).toStdvec →
      (circuits p).toStdvec = (circuits q).toStdvec)
    (hdraws : ∀ p k, draws p k < M) (hkey : ∀ p q, key p q = key q p) (haead : ∀ p q, IsAead (key p q))
    (hnetworks : ∀ p, backed.mesh (networks p) = established key p) {hosts : Fin n → AdditiveHost M N}
    (hrun : ReflTransGen (HostStep backed (additiveDigest sha3) draws inputs) (additiveHosts circuits networks) hosts)
    {p : Fin n} (hp : (hosts p).Finished) :
    (∀ q, circuits q = circuits p) ∧
    (∀ inp output, .reveal inp output ∈ operations p → ¬RevealAbove (operations p) inp →
      (hosts p).context.getWire output = some (plaintexts (circuits p) inputs draws inp)) ∧
    ((∀ q, (hosts q).Finished) →
      (∀ w ∈ producedWires (operations p), ¬RevealAbove (operations p) w → ∃ share : Fin n → ℕ,
        (∀ q, (hosts q).context.getWire w = some (share q)) ∧
          ∑ q, share q ≡ plaintexts (circuits p) inputs draws w [MOD M]) ∧
      ∀ (q x : Fin n) c, ((hosts q).mesh backed).channel x = some c → c.inner.unread = [] ∧ c.inner.written = []) := by
  obtain ⟨size, hsize⟩ := codec.exists_sizes
  obtain ⟨net, hreach, hrefines⟩ := (hostRefines_new hkey haead hnetworks).run hsize establishes_additive hrun
  have hsame := hrefines.same_circuit hcollision (hasEntered_of_finished hp)
  refine ⟨hsame, ?_⟩
  obtain ⟨circuit, rfl⟩ : ∃ circuit, circuits = fun _ => circuit := ⟨circuits p, funext hsame⟩
  have hreach : (program inputs).Reachable (RoundProgram.initial (additiveParties circuit size draws)) net := hreach
  have hx := executable_of_new (hnew p) (hstored p) (hown p)
  have hr := hx.regular hpos hle hdraws
  have hperm := MpcCircuit.perm_of_new (hnew p)
  have hrevealed : ∀ {w}, ¬RevealAbove (operations p) w → ¬RevealAbove circuit.operations w := fun hno h =>
    hno (h.mono fun op hop => hperm.mem_iff.mp hop)
  refine ⟨fun inp output hop hno => ?_, fun hall => ⟨fun w hw hno => ?_, hrefines.spent (fun q => ?_) fun q x => ?_⟩⟩
  · obtain ⟨hfinished, hwires⟩ := hrefines.finished hp
    rw [← hwires]
    exact reveal_plaintext hx hr hpos hreach hfinished (hperm.mem_iff.mpr hop) (hrevealed hno)
  · have hw : w ∈ circuit.operations.map AdditiveOperation.output := by
      rw [← producedWires_eq]
      exact (producedWires_perm hperm).mem_iff.mpr hw
    refine ⟨shares circuit inputs draws w, fun q => ?_, sum_shares_modEq hx hpos hw (hrevealed hno)⟩
    obtain ⟨hfinished, hwires⟩ := hrefines.finished (hall q)
    rw [← hwires]
    exact wireAt_finished hx hr hreach hfinished hw
  · exact hasEntered_of_finished (hall q)
  · have howned := owned_tasks hx.owned
    have hfinished := fun q => (hrefines.finished (hall q)).1
    obtain ⟨count, hsync⟩ := hreach.synced (matched howned)
    refine hsync.channel_empty (fun q => ?_) (fun q x => ?_) q x
    · obtain ⟨party, hq, -⟩ := (hfinished q).idle
      exact ⟨party, hq⟩
    · rw [count_of_finished howned hsync (hfinished q), count_of_finished howned hsync (hfinished x)]

theorem exists_digests (circuits : Fin n → AdditiveCircuit M) (hsha3 : ∀ data, (sha3 data).length = 64) :
    ∃ bytes, Digests postcardHashes (additiveDigest sha3) circuits (fun p => sha3 (circuits p).toStdvec) bytes := by
  have hshort : ∀ p, ShortSeq (ShortSeq fun _ => True) [sha3 (circuits p).toStdvec] := fun p => by
    refine ⟨by simp, fun hash hmem => ?_⟩
    rw [List.mem_singleton.mp hmem]
    exact ⟨by rw [hsha3]; decide, fun _ _ => trivial⟩
  refine ⟨_, fun _ => rfl, fun p => toStdvec_ofReads.mpr ⟨hshort p, rfl⟩, fun p => ?_⟩
  have hbytes : ∀ hash ∈ [sha3 (circuits p).toStdvec],
      (encodeSeq (fun b : UInt8 => [b]) hash).length ≤ 0 + 1 + 64 * 1 := by
    intro hash hmem
    have hlength := hsha3 (circuits p).toStdvec
    rw [← List.mem_singleton.mp hmem] at hlength
    rw [← hlength]
    exact length_encodeSeq_le (by omega) fun _ _ => le_rfl
  have hlist := length_encodeSeq_le (k := 0) (by simp) hbytes
  simp only [List.length_singleton] at hlist
  simp only [tagLen]
  omega

/-- The parties of a run are on their way. -/
theorem exists_arriving {backed : MeshBacked N codec hashes} {size : Message ℕ → ℕ} (hsize : codec.Sizes size)
    (htasks : ∀ p, (circuits p).tasks.length + 1 < 2 ^ 64)
    (hkey : ∀ p q, key p q = key q p) (haead : ∀ p q, IsAead (key p q)) (hseals : ∀ p q, Seals (key p q))
    (hnetworks : ∀ p, backed.mesh (networks p) = established key p) {hosts : Fin n → AdditiveHost M N}
    (hrun : ReflTransGen (HostStep backed (additiveDigest sha3) draws inputs) (additiveHosts circuits networks) hosts) :
    ∃ net, Arriving backed size (additiveDigest sha3) circuits (additiveContexts n draws) inputs
      (fun p => handshaked (circuits p) size (additiveContexts n draws p) p) hosts net := by
  refine Arriving.run hsize establishes_additive ⟨hostRefines_new hkey haead hnetworks, fun p => ?_, .refl⟩ hrun
  change (backed.mesh (networks p)).Able _
  rw [hnetworks]
  exact able_established hseals (htasks p) p

/-- With accepted inputs a run can be continued until all are finished. -/
theorem exists_hosts_finished {backed : MeshBacked N postcard postcardHashes} (hx : Executable n circuit)
    (hr : Regular M draws circuit.operations) (haccept : ∀ p, Accepts circuit p (inputs p))
    (hrounds : ∀ round ∈ circuit.offlineRounds ++ circuit.onlineRounds,
      5 + 9 * round.networkOperations.length + tagLen < 2 ^ 32) (htasks : circuit.tasks.length + 1 < 2 ^ 64)
    (hsha3 : ∀ data, (sha3 data).length = 64)
    (hkey : ∀ p q, key p q = key q p) (haead : ∀ p q, IsAead (key p q)) (hseals : ∀ p q, Seals (key p q))
    (hnetworks : ∀ p, backed.mesh (networks p) = established key p) {hosts : Fin n → AdditiveHost M N}
    (hrun : ReflTransGen (HostStep backed (additiveDigest sha3) draws inputs)
      (additiveHosts (fun _ => circuit) networks) hosts) :
    ∃ hosts', ReflTransGen (HostStep backed (additiveDigest sha3) draws inputs) hosts hosts' ∧
      ∀ p, (hosts' p).Finished := by
  obtain ⟨bytes, hdigests⟩ := exists_digests (fun _ : Fin n => circuit) hsha3
  obtain ⟨net, harriving⟩ := exists_arriving sizes_postcard (fun _ => htasks) hkey haead hseals hnetworks hrun
  obtain ⟨hosts', net', hrun', harriving', hend⟩ := harriving.completes sizes_postcard establishes_additive hdigests
    (fun _ _ => rfl) (lockstepEnds hx hr haccept hrounds)
  refine ⟨hosts', hrun', fun p => ?_⟩
  obtain ⟨node, hnode, party, hparty, hlock⟩ := hend p
  have hshow := harriving'.refines.refines.shows p
  rw [hparty, hnode] at hshow
  rw [hnode]
  cases hshow with
  | rest hrest hok htodo hcontext =>
      refine ⟨hrest, hcontext.executionState.symm.trans ?_⟩
      rw [(partyAt (owned_tasks hx.owned) _ p party hlock).state, List.take_length, stateAfter_tasks]

/-- **Every run over bytes can be completed.**  Let the parties start with one circuit that its planner has accepted,
and supply accepted inputs, let no round have so many network operations that its messages do not fit the header, and
let the ciphers of the two ends of a channel be one AEAD that encrypts all data of that size.  Wherever a run has got
to, in the handshakes or past them, it can be continued until all parties are finished. -/
theorem overBytes_completes {backed : MeshBacked N postcard postcardHashes} {operations : List AdditiveOperation}
    (hpos : 1 ≤ M) (hle : M ≤ 2 ^ 63) (hnew : MpcCircuit.new ⟨⟩ operations = .ok circuit)
    (hstored : circuit.StoresBeforeUse) (hown : ∀ op ∈ operations, op.Owned n) (hdraws : ∀ p k, draws p k < M)
    (haccept : ∀ p, Accepts circuit p (inputs p))
    (hrounds : ∀ round ∈ circuit.offlineRounds ++ circuit.onlineRounds,
      5 + 9 * round.networkOperations.length + tagLen < 2 ^ 32) (htasks : circuit.tasks.length + 1 < 2 ^ 64)
    (hsha3 : ∀ data, (sha3 data).length = 64)
    (hkey : ∀ p q, key p q = key q p) (haead : ∀ p q, IsAead (key p q)) (hseals : ∀ p q, Seals (key p q))
    (hnetworks : ∀ p, backed.mesh (networks p) = established key p) {hosts : Fin n → AdditiveHost M N}
    (hrun : ReflTransGen (HostStep backed (additiveDigest sha3) draws inputs)
      (additiveHosts (fun _ => circuit) networks) hosts) :
    ∃ hosts', ReflTransGen (HostStep backed (additiveDigest sha3) draws inputs) hosts hosts' ∧
      ∀ p, (hosts' p).Finished :=
  have hx := executable_of_new hnew hstored hown
  exists_hosts_finished hx (hx.regular hpos hle hdraws) haccept hrounds htasks hsha3 hkey haead hseals hnetworks hrun

/-- **No call fails over bytes.**  Wherever a run of these parties has got to, the next call of a party succeeds, or it
is one that receives and waits on a channel to another party on which there is nothing to receive yet: no call returns
an error or panics. -/
theorem overBytes_noFailure {backed : MeshBacked N postcard postcardHashes} {operations : List AdditiveOperation}
    (hpos : 1 ≤ M) (hle : M ≤ 2 ^ 63) (hnew : MpcCircuit.new ⟨⟩ operations = .ok circuit)
    (hstored : circuit.StoresBeforeUse) (hown : ∀ op ∈ operations, op.Owned n) (hdraws : ∀ p k, draws p k < M)
    (haccept : ∀ p, Accepts circuit p (inputs p))
    (hrounds : ∀ round ∈ circuit.offlineRounds ++ circuit.onlineRounds,
      5 + 9 * round.networkOperations.length + tagLen < 2 ^ 32) (htasks : circuit.tasks.length + 1 < 2 ^ 64)
    (hsha3 : ∀ data, (sha3 data).length = 64)
    (hkey : ∀ p q, key p q = key q p) (haead : ∀ p q, IsAead (key p q)) (hseals : ∀ p q, Seals (key p q))
    (hnetworks : ∀ p, backed.mesh (networks p) = established key p) {hosts : Fin n → AdditiveHost M N}
    (hrun : ReflTransGen (HostStep backed (additiveDigest sha3) draws inputs)
      (additiveHosts (fun _ => circuit) networks) hosts) (p : Fin n) :
    nextCall (additiveDigest sha3) (draws p) (inputs p) (hosts p) = .ok () ∨
      (hosts p).receives = true ∧ nextCall (additiveDigest sha3) (draws p) (inputs p) (hosts p) = .hang ∧
        ∃ q ≠ p, ∃ c, ((hosts p).mesh backed).channel q = some c ∧ c.recv.1 = .hang := by
  have hx := executable_of_new hnew hstored hown
  obtain ⟨bytes, hdigests⟩ := exists_digests (fun _ : Fin n => circuit) hsha3
  obtain ⟨net, harriving⟩ := exists_arriving sizes_postcard (fun _ => htasks) hkey haead hseals hnetworks hrun
  exact harriving.nextCall_waits sizes_postcard establishes_additive hdigests (fun _ _ => rfl)
    (lockstepEnds hx (hx.regular hpos hle hdraws) haccept hrounds) p

end runs

/-! ### The opened sum over bytes -/

theorem seals_tagCipher : Seals tagCipher := fun _ _ _ _ => ⟨_, rfl⟩

/-- Two meshes with the formats of `postcard`. -/
abbrev openedSumMesh : MeshBacked (Meshed postcard postcardHashes) postcard postcardHashes := Meshed.backed

/-- The channels of a party. -/
def openedSumNetwork (p : Fin 2) : Meshed postcard postcardHashes := ⟨established (fun _ _ => tagCipher) p⟩

/-- A digest of the first bytes. -/
def firstBytes (data : List UInt8) : List UInt8 := (data ++ List.replicate 64 0).take 64

theorem length_firstBytes (data : List UInt8) : (firstBytes data).length = 64 := by
  rw [firstBytes, List.length_take, List.length_append, List.length_replicate]
  omega

theorem mesh_openedSumNetwork (p : Fin 2) :
    openedSumMesh.mesh (openedSumNetwork p) = established (fun _ _ => tagCipher) p := rfl

theorem openedSumDraws_lt (p : Fin 2) (k : ℕ) : openedSumDraws p k < 100 := Nat.mod_lt _ (by decide)

theorem accepts_openedSum (p : Fin 2) : Accepts openedSum p (openedSumInputs p) := by
  apply accepts_of_perm <;> revert p <;> decide

theorem exists_openedSum : ∃ hosts,
    ReflTransGen (HostStep openedSumMesh (additiveDigest firstBytes) openedSumDraws openedSumInputs)
      (additiveHosts (fun _ => openedSum) openedSumNetwork) hosts ∧ ∀ p, (hosts p).Finished := by
  have hx : Executable 2 openedSum := executable_of_new new_openedSum (by decide) (by decide)
  exact exists_hosts_finished hx (hx.regular (by decide) (by decide) openedSumDraws_lt) accepts_openedSum (by decide)
    (by decide) length_firstBytes (fun _ _ => rfl) (fun _ _ => SecureStream.isAead_tagCipher)
    (fun _ _ => seals_tagCipher) mesh_openedSumNetwork .refl

theorem overBytes_openedSum : ∃ hosts net,
    ReflTransGen (HostStep openedSumMesh (additiveDigest firstBytes) openedSumDraws openedSumInputs)
      (additiveHosts (fun _ => openedSum) openedSumNetwork) hosts ∧ (∀ p, (hosts p).Finished) ∧
    (program openedSumInputs).Reachable
      (RoundProgram.initial (additiveParties openedSum Message.wireSize openedSumDraws)) net ∧
    HostRefines openedSumMesh Message.wireSize (additiveDigest firstBytes) (fun _ => openedSum)
      (additiveContexts 2 openedSumDraws) hosts net := by
  obtain ⟨hosts, hrun, hfinished⟩ := exists_openedSum
  obtain ⟨net, hreach, hrefines⟩ := overBytes (fun _ _ => rfl) (fun _ _ => SecureStream.isAead_tagCipher) sizes_postcard
    establishes_additive mesh_openedSumNetwork hrun
  exact ⟨hosts, net, hrun, hfinished, hreach, hrefines⟩

theorem overBytes_correct_openedSum : ∃ hosts,
    ReflTransGen (HostStep openedSumMesh (additiveDigest firstBytes) openedSumDraws openedSumInputs)
      (additiveHosts (fun _ => openedSum) openedSumNetwork) hosts ∧
    ∀ p, (hosts p).context.getWire ⟨3⟩ = some 65 := by
  obtain ⟨hosts, hrun, hfinished⟩ := exists_openedSum
  have hplain : plaintexts openedSum openedSumInputs openedSumDraws ⟨2⟩ = 65 := by decide
  refine ⟨hosts, hrun, fun p => ?_⟩
  have hcorrect := overBytes_correct (by decide) (by decide) (fun _ => new_openedSum) (fun _ => by decide)
    (fun _ => by decide) (fun _ _ _ => rfl) openedSumDraws_lt (fun _ _ => rfl)
    (fun _ _ => SecureStream.isAead_tagCipher) mesh_openedSumNetwork hrun (hfinished p)
  rw [← hplain]
  exact hcorrect.2.1 ⟨2⟩ ⟨3⟩ (by decide) not_revealAbove_openedSum

theorem overBytes_completes_openedSum : ∃ hosts,
    ReflTransGen (HostStep openedSumMesh (additiveDigest firstBytes) openedSumDraws openedSumInputs)
      (additiveHosts (fun _ => openedSum) openedSumNetwork) hosts ∧ ∀ p, (hosts p).Finished :=
  overBytes_completes (by decide) (by decide) new_openedSum (by decide) (by decide) openedSumDraws_lt
    accepts_openedSum (by decide) (by decide) length_firstBytes (fun _ _ => rfl)
    (fun _ _ => SecureStream.isAead_tagCipher) (fun _ _ => seals_tagCipher) mesh_openedSumNetwork .refl

/-- The digest of the sum. -/
def openedSumHash : List UInt8 := firstBytes openedSum.toStdvec

/-- A party that has broadcast it. -/
def openedSumGreeted (p : Fin 2) : AdditiveHost 100 (Meshed postcard postcardHashes) :=
  .greeted (greet (additiveDigest firstBytes) (.new openedSum (openedSumNetwork p))).2 openedSumHash 86

theorem greet_openedSum {hosts : Fin 2 → AdditiveHost 100 (Meshed postcard postcardHashes)} {p : Fin 2}
    (hp : hosts p = additiveHosts (fun _ => openedSum) openedSumNetwork p) :
    HostStep openedSumMesh (additiveDigest firstBytes) openedSumDraws openedSumInputs hosts
      (Function.update hosts p (openedSumGreeted p)) := by
  refine .greet hp (Act.eq_of_fst ?_) fun bytes hbytes => ?_
  · clear hp
    revert p
    decide +kernel
  · obtain ⟨-, rfl⟩ := toStdvec_ofReads.mp hbytes
    decide +kernel

/-- One party has broadcast its digest. -/
def openedSumFirst (p : Fin 2) : Fin 2 → AdditiveHost 100 (Meshed postcard postcardHashes) :=
  Function.update (additiveHosts (fun _ => openedSum) openedSumNetwork) p (openedSumGreeted p)

/-- So has another, and its digest has come in at the first. -/
def openedSumSecond (p q x : Fin 2) : AdditiveHost 100 (Meshed postcard postcardHashes) :=
  (Function.update (openedSumFirst p) q (openedSumGreeted q) x).onMesh openedSumMesh
    (MeshNetwork.deliver (fun y => (Function.update (openedSumFirst p) q (openedSumGreeted q) y).mesh openedSumMesh)
      q p 86 x)

/-- Party 0 waits for the digest of party 1, and receives it. -/
theorem overBytes_noFailure_openedSum :
    (nextCall (additiveDigest firstBytes) (openedSumDraws 0) (openedSumInputs 0) (openedSumFirst 0 0) = .hang ∧
      ∃ q ≠ (0 : Fin 2), ∃ c, ((openedSumFirst 0 0).mesh openedSumMesh).channel q = some c ∧ c.recv.1 = .hang) ∧
    (openedSumSecond 0 1 0).receives = true ∧
    nextCall (additiveDigest firstBytes) (openedSumDraws 0) (openedSumInputs 0) (openedSumSecond 0 1 0) = .ok () := by
  have hfirst : ReflTransGen (HostStep openedSumMesh (additiveDigest firstBytes) openedSumDraws openedSumInputs)
      (additiveHosts (fun _ => openedSum) openedSumNetwork) (openedSumFirst 0) := .single (greet_openedSum rfl)
  have hsecond : ReflTransGen (HostStep openedSumMesh (additiveDigest firstBytes) openedSumDraws openedSumInputs)
      (additiveHosts (fun _ => openedSum) openedSumNetwork) (openedSumSecond 0 1) :=
    (hfirst.tail (greet_openedSum rfl)).tail (.deliver 1 0 86)
  have hcall {hosts : Fin 2 → AdditiveHost 100 (Meshed postcard postcardHashes)}
      (hrun : ReflTransGen (HostStep openedSumMesh (additiveDigest firstBytes) openedSumDraws openedSumInputs)
        (additiveHosts (fun _ => openedSum) openedSumNetwork) hosts) :=
    overBytes_noFailure (by decide) (by decide) new_openedSum (by decide) (by decide) openedSumDraws_lt
      accepts_openedSum (by decide) (by decide) length_firstBytes (fun _ _ => rfl)
      (fun _ _ => SecureStream.isAead_tagCipher) (fun _ _ => seals_tagCipher) mesh_openedSumNetwork hrun 0
  refine ⟨?_, rfl, (hcall hsecond).resolve_right fun h => absurd h.2.1 (by decide +kernel)⟩
  exact ((hcall hfirst).resolve_left (by decide +kernel)).2

end Cluster

end MpcCore
