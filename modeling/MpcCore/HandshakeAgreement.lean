import MpcCore.AdditiveExchange
import MpcCore.Digest
import MpcCore.ExecutionLifecycle

/-! # Agreement on the plan

Parties that start with the handshake, each with a circuit of its own, in any interleaving.

* `greet` is the handshake up to the end of its broadcast and `conclude` the rest; `handshake_eq`
  puts them together.
* `Cluster.entry` puts the handshake as one more round before the rounds of `Cluster.program`.
* `Agreement`: what every net keeps.  The first message that a party takes from another is the
  digest of the other, however far the other is ahead.
* `planAgreement`: either all circuits are equal and nobody is told otherwise, or nobody leaves the
  first state and only digests are sent. -/

namespace MpcCore

open Operation MpcScheme ExecutionContext

variable {S Op Wire Elem Input Ctx Pending : Type} {n : ℕ}

/-! ### The handshake, cut at its broadcast -/

section

variable {N : Type} [Operation Op] [MpcScheme S Op Wire Elem Input Ctx Pending] [Network N Elem]

/-- The requests for the digests of the others. -/
def digestRequests (nPlayers myId : ℕ) : List ReceiveRequest :=
  (others nPlayers myId).map fun i => ReceiveRequest.new i 1

/-- The handshake until its digest is sent: the digest, and the bytes sent. -/
def greet (digest : MpcCircuit S Op → Outcome String (List UInt8)) :
    Act (ExecutionContext S Op Wire Elem Ctx Pending N) Fault (List UInt8 × ℕ) :=
  (assertState "handshake" .newBorn).bind fun _ =>
    (Act.read fun ec => digest ec.circuit).bind fun hash =>
      (Act.ret (hash.mapErr schemeFault)).bind fun hash =>
        (onNetwork (@Network.broadcastObject N Elem _ hash)).bind fun sendLen => .ret (.ok (hash, sendLen))

/-- The handshake from there to its end. -/
def conclude (rng : Draws) (hash : List UInt8) (sendLen : ℕ) :
    Act (ExecutionContext S Op Wire Elem Ctx Pending N) Fault (ℕ × ℕ) :=
  (Act.read fun ec => digestRequests (@Network.nPlayers N Elem _ ec.network)
      (@Network.myId N Elem _ ec.network)).bind fun request =>
    (onNetwork (@Network.recvHashesMany N Elem _ request)).bind fun (hashes, recvLen) =>
      (Act.ret (disagree hash hashes)).bind fun disagrees =>
        (Act.ret (if disagrees then .err (.error .planNotAgreed) else .ok (sendLen, recvLen))).bind fun lens =>
          (Act.read circuit).bind fun circuit =>
            (onNetwork (establishContext circuit.scheme circuit rng)).bind fun context =>
              (Act.modify fun ec => { ec with schemeContext := some context }).bind fun _ =>
                (setState .handshaked).bind fun _ => .ret (.ok lens)

omit [Operation Op] in
/-- **The two halves are the handshake.** -/
theorem handshake_eq (digest : MpcCircuit S Op → Outcome String (List UInt8)) (rng : Draws) :
    (handshake digest rng : Act (ExecutionContext S Op Wire Elem Ctx Pending N) Fault (ℕ × ℕ)) =
      (greet digest).bind fun (hash, sendLen) => conclude rng hash sendLen := by
  unfold handshake agreeOnPlan greet conclude digestRequests
  simp only [Act.bind_assoc]
  congr 1

end

/-! ### Parties that start with the handshake -/

/-- A party before its handshake, or after it with the result of the call. -/
inductive Entrant (S Op Wire Elem Ctx Pending : Type) (n : ℕ) where
  | before (context : ExecutionContext S Op Wire Elem Ctx Pending (Link n Elem))
  | after (result : Outcome Fault (ℕ × ℕ)) (party : Party S Op Wire Elem Ctx Pending n)

/-- A party in its handshake, once its digest is handed to the network, or in a later task. -/
inductive EntrantStage (S Op Wire Elem Ctx Pending : Type) (n : ℕ) where
  | greeting (context : ExecutionContext S Op Wire Elem Ctx Pending (Link n Elem)) (hash : List UInt8) (sendLen : ℕ)
  | working (result : Outcome Fault (ℕ × ℕ)) (stage : Stage S Op Wire Elem Ctx Pending n)

namespace Cluster

variable [Operation Op] [MpcScheme S Op Wire Elem Input Ctx Pending]

/-- The rounds of the parties with the handshake as the first one.  A party whose call failed makes
no further call. -/
def entry (digest : MpcCircuit S Op → Outcome String (List UInt8)) (rng : Fin n → Draws)
    (inputs : Fin n → List (WireId × Input)) :
    RoundProgram (Fin n) (Entrant S Op Wire Elem Ctx Pending n) (EntrantStage S Op Wire Elem Ctx Pending n)
      (Packet Elem) where
  start p
    | .before ec =>
        match greet digest ec with
        | (.ok (hash, sendLen), ec) => some (.inr (.greeting ec hash sendLen))
        | (outcome, ec) =>
            some (.inl (.after (outcome.bind fun _ => .ok (0, 0)) ⟨ec, [], outcome.bind fun _ => .ok (), 0, []⟩))
    | .after result party =>
        ((program inputs).start p party).map (Sum.map (Entrant.after result) (EntrantStage.working result))
  sends p
    | .greeting ec _ _, q => (ec.network.leaving q).head?.map fun message => ⟨0, [], message⟩
    | .working _ stage, q => (program inputs).sends p stage q
  awaits p
    | .greeting _ _ _, q => decide (q ≠ p)
    | .working _ stage, q => (program inputs).awaits p stage q
  finish p
    | .greeting ec hash sendLen, inbox =>
        let (result, context) := conclude (rng p) hash sendLen { ec with network := ec.network.exchange inbox }
        .after result ⟨context, context.circuit.tasks, result.bind fun _ => .ok (), 1,
          [fun q => (inbox q).map Packet.message]⟩
    | .working result stage, inbox => .after result ((program inputs).finish p stage inbox)

/-- A party with its own circuit, before its handshake. -/
def newcomer (circuit : Fin n → MpcCircuit S Op) (size : Fin n → Message Elem → ℕ) (p : Fin n) :
    Entrant S Op Wire Elem Ctx Pending n :=
  .before (.new (circuit p) ⟨p, size p, fun _ => [], fun _ => []⟩)

end Cluster

/-- The context of a party. -/
def Entrant.context : Entrant S Op Wire Elem Ctx Pending n →
    ExecutionContext S Op Wire Elem Ctx Pending (Link n Elem)
  | before ec => ec
  | after _ party => party.context

/-- The result of the handshake, once it has returned. -/
def Entrant.result : Entrant S Op Wire Elem Ctx Pending n → Option (Outcome Fault (ℕ × ℕ))
  | before _ => none
  | after result _ => some result

/-- A party of a net: between two calls, or in one. -/
abbrev EntrantProc (S Op Wire Elem Ctx Pending : Type) (n : ℕ) : Type :=
  RoundProgram.Proc (Fin n) (Entrant S Op Wire Elem Ctx Pending n) (EntrantStage S Op Wire Elem Ctx Pending n)
    (Packet Elem)

/-- The context of a party, wherever it is. -/
def EntrantProc.context : EntrantProc S Op Wire Elem Ctx Pending n →
    ExecutionContext S Op Wire Elem Ctx Pending (Link n Elem)
  | .idle s => s.context
  | .stopped s => s.context
  | .busy (.greeting ec _ _) _ _ => ec
  | .busy (.working _ stage) _ _ => stage.context

/-- The result of the handshake of a party, once it has returned. -/
def EntrantProc.result : EntrantProc S Op Wire Elem Ctx Pending n → Option (Outcome Fault (ℕ × ℕ))
  | .idle s => s.result
  | .stopped s => s.result
  | .busy (.greeting _ _ _) _ _ => none
  | .busy (.working result _) _ _ => some result

/-! ### One handshake -/

section

variable [Operation Op] [MpcScheme S Op Wire Elem Input Ctx Pending]

/-- The network of a party that has broadcast its digest. -/
def Link.greeted (link : Link n Elem) (hash : List UInt8) : Link n Elem :=
  link.write fun p => if p = link.id then none else some (.digests [hash])

omit [Operation Op] [MpcScheme S Op Wire Elem Input Ctx Pending] in
theorem greet_cases {digest : MpcCircuit S Op → Outcome String (List UInt8)} {circuit : MpcCircuit S Op}
    {link : Link n Elem} {r : Outcome Fault (List UInt8 × ℕ)}
    {ec : ExecutionContext S Op Wire Elem Ctx Pending (Link n Elem)}
    (h : greet digest (.new circuit link) = (r, ec)) :
    (∃ hash sendLen, digest circuit = .ok hash ∧ r = .ok (hash, sendLen) ∧
      ec = .new circuit (link.greeted hash)) ∨
    (∀ x, r ≠ .ok x) ∧ r ≠ .err (.error .planNotAgreed) ∧ ec.executionState = .newBorn := by
  change Act.bind (Act.ret ((digest circuit).mapErr schemeFault)) _ _ = _ at h
  cases hd : digest circuit with
  | ok hash =>
      rw [hd] at h
      obtain ⟨rfl, rfl⟩ := Prod.mk.inj h
      exact .inl ⟨hash, _, rfl, rfl, rfl⟩
  | err e =>
      rw [hd] at h
      obtain ⟨rfl, rfl⟩ := Prod.mk.inj h
      exact .inr ⟨by simp, by simp [schemeFault], rfl⟩
  | panic =>
      rw [hd] at h
      obtain ⟨rfl, rfl⟩ := Prod.mk.inj h
      exact .inr ⟨by simp, by simp, rfl⟩
  | hang =>
      rw [hd] at h
      obtain ⟨rfl, rfl⟩ := Prod.mk.inj h
      exact .inr ⟨by simp, by simp, rfl⟩

theorem disagree_eq (hash : List UInt8) (hashOf : ℕ → List UInt8) : ∀ others : List ℕ,
    disagree hash (others.map fun i => [hashOf i]) = .ok (others.any fun i => hashOf i ≠ hash)
  | [] => rfl
  | i :: others => by
      rw [List.map_cons, disagree, List.head?_cons, Outcome.unwrap_some, Outcome.ok_bind, disagree_eq hash hashOf others]
      by_cases h : hashOf i = hash <;> simp [h]

omit [Operation Op] [MpcScheme S Op Wire Elem Input Ctx Pending] in
theorem Link.recvHashes_eq (link : Link n Elem) (hashOf : ℕ → List UInt8)
    (harrived : ∀ q, q ≠ link.id → (link.arrived q).head? = some (.digests [hashOf q])) :
    ∃ len link', Link.recvMany Message.toDigests (digestRequests n link.id) link =
      (.ok ((others n link.id).map fun i => [hashOf i], len), link') := by
  have hfst : ((others n link.id).map fun i => (ReceiveRequest.new i 1, [hashOf i])).map Prod.fst =
      digestRequests n link.id := by simp [digestRequests, Function.comp_def]
  have hsnd : ((others n link.id).map fun i => (ReceiveRequest.new i 1, [hashOf i])).map Prod.snd =
      (others n link.id).map fun i => [hashOf i] := by simp [Function.comp_def]
  have hopen : link.unavailable ((digestRequests n link.id).map ReceiveRequest.fromId) = none := by
    refine Link.unavailable_eq_none fun i hi => ?_
    obtain ⟨req, hreq, rfl⟩ := List.mem_map.mp hi
    obtain ⟨j, hj, rfl⟩ := List.mem_map.mp hreq
    exact mem_others.mp hj
  have hread : ∀ q ∈ namedPeers n (digestRequests n link.id), ∃ m, (link.arrived q).head? = some m ∧
      m.toDigests = .ok (objectsFrom ((others n link.id).map fun i => (ReceiveRequest.new i 1, [hashOf i])) q) := by
    intro q hq
    obtain ⟨req, hreq, he⟩ := mem_namedPeers.mp hq
    obtain ⟨i, hi, rfl⟩ := List.mem_map.mp hreq
    have hqi : (q : ℕ) = i := he.symm
    have hne : q ≠ link.id := fun hid => (mem_others.mp hi).2 (by rw [← hqi, hid])
    have hpick : (others n link.id).filter (fun a => a = (q : ℕ)) = [(q : ℕ)] := by
      rw [filter_eq_replicate (nodup_others _), if_pos (hqi ▸ hi)]
    refine ⟨_, harrived q hne, ?_⟩
    rw [Message.toDigests, objectsFrom, List.filter_map, List.flatMap_map]
    simp only [Function.comp_def, ReceiveRequest.new, hpick]
    rfl
  have hcount : ∀ item ∈ (others n link.id).map fun i => (ReceiveRequest.new i 1, [hashOf i]),
      item.2.length = expectedCount item.1.count := by
    intro item hitem
    obtain ⟨i, -, rfl⟩ := List.mem_map.mp hitem
    rfl
  obtain ⟨len, h⟩ := Link.recvMany_eq link Message.toDigests hcount (by rwa [hfst]) (by rwa [hfst])
  rw [hfst, hsnd] at h
  exact ⟨len, _, h⟩

omit [Operation Op] [MpcScheme S Op Wire Elem Input Ctx Pending] in
theorem onNetwork_ne_planNotAgreed {N α : Type} (x : Act N String α)
    (ec : ExecutionContext S Op Wire Elem Ctx Pending N) : (onNetwork x ec).1 ≠ .err (.error .planNotAgreed) := by
  unfold onNetwork
  obtain ⟨r, network⟩ := x ec.network
  cases r <;> simp [Outcome.mapErr, schemeFault]

omit [Operation Op] in
/-- **The second half**, when one digest of every other party has arrived: another digest among them
ends the handshake with `PlanNotAgreed`, in the state it began in. -/
theorem conclude_cases {rng : Draws} {hash : List UInt8} {sendLen : ℕ}
    {ec ec' : ExecutionContext S Op Wire Elem Ctx Pending (Link n Elem)} {r : Outcome Fault (ℕ × ℕ)}
    (hashOf : ℕ → List UInt8)
    (harrived : ∀ q, q ≠ ec.network.id → (ec.network.arrived q).head? = some (.digests [hashOf q]))
    (h : conclude rng hash sendLen ec = (r, ec')) :
    (∃ q : Fin n, hashOf q ≠ hash) ∧ r = .err (.error .planNotAgreed) ∧
        ec'.executionState = ec.executionState ∨
      (∀ q : Fin n, q ≠ ec.network.id → hashOf q = hash) ∧ r ≠ .err (.error .planNotAgreed) := by
  obtain ⟨len, link', hrecv⟩ := ec.network.recvHashes_eq hashOf harrived
  have hcall : @Network.recvHashesMany (Link n Elem) Elem _ (digestRequests
        (@Network.nPlayers (Link n Elem) Elem _ ec.network) (@Network.myId (Link n Elem) Elem _ ec.network)) ec.network =
      (.ok ((others n ec.network.id).map fun i => [hashOf i], len), link') := hrecv
  have hnet : onNetwork (@Network.recvHashesMany (Link n Elem) Elem _ (digestRequests
        (@Network.nPlayers (Link n Elem) Elem _ ec.network) (@Network.myId (Link n Elem) Elem _ ec.network))) ec =
      (.ok ((others n ec.network.id).map fun i => [hashOf i], len), { ec with network := link' }) := by
    unfold onNetwork
    rw [hcall]
    rfl
  unfold conclude at h
  rw [Act.read_bind, Act.bind_of_ok hnet] at h
  simp only [disagree_eq] at h
  rw [Act.ret_ok_bind] at h
  by_cases hany : ((others n ec.network.id).any fun i => hashOf i ≠ hash) = true
  · rw [if_pos hany] at h
    obtain ⟨rfl, rfl⟩ := Prod.mk.inj h
    obtain ⟨i, hi, hne⟩ := List.any_eq_true.mp hany
    exact .inl ⟨⟨⟨i, (mem_others.mp hi).1⟩, by simpa using hne⟩, rfl, rfl⟩
  · rw [if_neg hany, Act.ret_ok_bind, Act.read_bind] at h
    refine .inr ⟨fun q hq => ?_, ?_⟩
    · by_contra hne
      refine hany (List.any_eq_true.mpr ⟨q, mem_others.mpr ⟨q.2, fun he => hq (Fin.ext he)⟩, by simpa using hne⟩)
    · obtain ⟨context, ec₁, -, h⟩ | ⟨r₁, h1, hf⟩ := Act.bind_cases h
      · obtain ⟨rfl, -⟩ := Prod.mk.inj h
        simp
      · rintro rfl
        rw [hf.eq_err] at h1
        exact onNetwork_ne_planNotAgreed _ _ (congrArg Prod.fst h1)

end

/-! ### What every net keeps -/

section

variable (digest : MpcCircuit S Op → Outcome String (List UInt8)) (circuit : Fin n → MpcCircuit S Op)

/-- The packet holds the digest of the party. -/
def IsDigestOf (p : Fin n) (packet : Packet Elem) : Prop :=
  ∃ hash, digest (circuit p) = .ok hash ∧ packet.message = .digests [hash]

/-- All parties have the circuit of this one. -/
def AllAs (p : Fin n) : Prop := ∀ q, circuit q = circuit p

/-- A party whose handshake has returned: it is not refused when all have its circuit, and it goes on only
when all have its circuit. -/
structure Ended (p : Fin n) (result : Outcome Fault (ℕ × ℕ)) (party : Party S Op Wire Elem Ctx Pending n) :
    Prop where
  refused : result = .err (.error .planNotAgreed) → ¬ AllAs circuit p
  agreed : party.outcome = .ok () ∨ party.context.executionState ≠ .newBorn → AllAs circuit p

/-- A party of a reachable net. -/
inductive EntrantAt (size : Fin n → Message Elem → ℕ) (p : Fin n) :
    EntrantProc S Op Wire Elem Ctx Pending n → Prop where
  | before : EntrantAt size p (.idle (Cluster.newcomer circuit size p))
  | greeting {hash : List UInt8} {sendLen : ℕ} {outbox inbox : Fin n → Option (Packet Elem)}
      (hd : digest (circuit p) = .ok hash)
      (hout : ∀ q m, outbox q = some m → IsDigestOf digest circuit p m)
      (hin : ∀ q m, inbox q = some m → IsDigestOf digest circuit q m) :
      EntrantAt size p (.busy (.greeting
        (.new (circuit p) (Link.greeted ⟨p, size p, fun _ => [], fun _ => []⟩ hash)) hash sendLen) outbox inbox)
  | after {result : Outcome Fault (ℕ × ℕ)} {party : Party S Op Wire Elem Ctx Pending n}
      (h : Ended circuit p result party) : EntrantAt size p (.idle (.after result party))
  | stopped {result : Outcome Fault (ℕ × ℕ)} {party : Party S Op Wire Elem Ctx Pending n}
      (h : Ended circuit p result party) : EntrantAt size p (.stopped (.after result party))
  | working {result : Outcome Fault (ℕ × ℕ)} {stage : Stage S Op Wire Elem Ctx Pending n}
      {outbox inbox : Fin n → Option (Packet Elem)} (hr : result ≠ .err (.error .planNotAgreed))
      (h : AllAs circuit p) : EntrantAt size p (.busy (.working result stage) outbox inbox)

end

/-- The party has still to read the first message of another. -/
def Unread (q : Fin n) : EntrantProc S Op Wire Elem Ctx Pending n → Prop
  | .idle (.before _) => True
  | .busy (.greeting _ _ _) _ inbox => inbox q = none
  | _ => False

/-- The party has sent nothing to another, or it sends nothing more. -/
def Silent (q : Fin n) : EntrantProc S Op Wire Elem Ctx Pending n → Prop
  | .idle (.before _) => True
  | .busy (.greeting _ _ _) outbox _ => outbox q ≠ none
  | .stopped _ => True
  | _ => False

/-- The nets of parties that start with the handshake. -/
abbrev EntrantNet (S Op Wire Elem Ctx Pending : Type) (n : ℕ) : Type :=
  RoundProgram.Net (Fin n) (Entrant S Op Wire Elem Ctx Pending n) (EntrantStage S Op Wire Elem Ctx Pending n)
    (Packet Elem)

/-- **What every net keeps.**  As long as a party has not read the first message of another, that message
is the digest of the other: it is at the head of the channel, or still to be sent. -/
structure Agreement (digest : MpcCircuit S Op → Outcome String (List UInt8)) (circuit : Fin n → MpcCircuit S Op)
    (size : Fin n → Message Elem → ℕ) (net : EntrantNet S Op Wire Elem Ctx Pending n) : Prop where
  entrant : ∀ p, EntrantAt digest circuit size p (net.proc p)
  head : ∀ p q, p ≠ q → Unread p (net.proc q) → ∀ m ms, net.channel p q = m :: ms → IsDigestOf digest circuit p m
  silent : ∀ p q, p ≠ q → Unread p (net.proc q) → net.channel p q = [] → Silent q (net.proc p)
  content : ∀ p q, ∀ m ∈ net.channel p q, IsDigestOf digest circuit p m ∨ AllAs circuit p

namespace Agreement

variable {digest : MpcCircuit S Op → Outcome String (List UInt8)} {circuit : Fin n → MpcCircuit S Op}
  {size : Fin n → Message Elem → ℕ} {net : EntrantNet S Op Wire Elem Ctx Pending n} {p q : Fin n}
  {proc : EntrantProc S Op Wire Elem Ctx Pending n}

theorem unread_of_setProc (hunread : ∀ a, Unread a proc → Unread a (net.proc p)) {a b : Fin n}
    (hb : Unread a ((net.setProc p proc).proc b)) : Unread a (net.proc b) := by
  by_cases hbp : b = p
  · subst hbp
    rw [RoundProgram.Net.setProc_same] at hb
    exact hunread a hb
  · rwa [RoundProgram.Net.setProc_ne _ _ _ hbp] at hb

theorem entrant_setProc (h : Agreement digest circuit size net) (hp : EntrantAt digest circuit size p proc)
    (a : Fin n) : EntrantAt digest circuit size a ((net.setProc p proc).proc a) := by
  by_cases hap : a = p
  · subst hap
    rwa [RoundProgram.Net.setProc_same]
  · rw [RoundProgram.Net.setProc_ne _ _ _ hap]
    exact h.entrant a

theorem setProc (h : Agreement digest circuit size net) (hp : EntrantAt digest circuit size p proc)
    (hunread : ∀ a, Unread a proc → Unread a (net.proc p))
    (hsilent : ∀ b, p ≠ b → Silent b (net.proc p) → Silent b proc) :
    Agreement digest circuit size (net.setProc p proc) := by
  refine ⟨h.entrant_setProc hp, fun a b hab hb => h.head a b hab (unread_of_setProc hunread hb),
    fun a b hab hb hc => ?_, h.content⟩
  have hs := h.silent a b hab (unread_of_setProc hunread hb) hc
  by_cases hap : a = p
  · subst hap
    rw [RoundProgram.Net.setProc_same]
    exact hsilent b hab hs
  · rwa [RoundProgram.Net.setProc_ne _ _ _ hap]

theorem send (h : Agreement digest circuit size net) {m : Packet Elem}
    (hp : EntrantAt digest circuit size p proc) (hunread : ∀ a, Unread a proc → Unread a (net.proc p))
    (hsilent : ∀ b, b ≠ q → Silent b (net.proc p) → Silent b proc)
    (hm : IsDigestOf digest circuit p m ∨ AllAs circuit p ∧ ¬ Silent q (net.proc p)) :
    Agreement digest circuit size ((net.setProc p proc).setChannel p q (net.channel p q ++ [m])) := by
  constructor
  · exact h.entrant_setProc hp
  · intro a b hab hb m' ms hc
    by_cases hch : a = p ∧ b = q
    · obtain ⟨rfl, rfl⟩ := hch
      rw [RoundProgram.Net.setChannel_same] at hc
      cases hold : net.channel a b with
      | nil =>
          rw [hold, List.nil_append] at hc
          obtain ⟨rfl, -⟩ := List.cons.inj hc
          exact hm.resolve_right fun hm' => hm'.2 (h.silent a b hab (unread_of_setProc hunread hb) hold)
      | cons m₀ rest =>
          rw [hold, List.cons_append] at hc
          obtain ⟨rfl, -⟩ := List.cons.inj hc
          exact h.head a b hab (unread_of_setProc hunread hb) _ _ hold
    · rw [RoundProgram.Net.setChannel_ne _ _ _ _ hch] at hc
      exact h.head a b hab (unread_of_setProc hunread hb) _ _ hc
  · intro a b hab hb hc
    by_cases hch : a = p ∧ b = q
    · obtain ⟨rfl, rfl⟩ := hch
      rw [RoundProgram.Net.setChannel_same] at hc
      exact absurd hc (by simp)
    · rw [RoundProgram.Net.setChannel_ne _ _ _ _ hch] at hc
      have hs := h.silent a b hab (unread_of_setProc hunread hb) hc
      by_cases hap : a = p
      · subst hap
        rw [RoundProgram.Net.setChannel_proc, RoundProgram.Net.setProc_same]
        exact hsilent b (fun hbq => hch ⟨rfl, hbq⟩) hs
      · rwa [RoundProgram.Net.setChannel_proc, RoundProgram.Net.setProc_ne _ _ _ hap]
  · intro a b m' hm'
    by_cases hch : a = p ∧ b = q
    · obtain ⟨rfl, rfl⟩ := hch
      rw [RoundProgram.Net.setChannel_same] at hm'
      obtain hm' | hm' := List.mem_append.mp hm'
      · exact h.content a b m' hm'
      · obtain rfl := List.mem_singleton.mp hm'
        exact hm.imp_right And.left
    · rw [RoundProgram.Net.setChannel_ne _ _ _ _ hch] at hm'
      exact h.content a b m' hm'

theorem recv (h : Agreement digest circuit size net) {m : Packet Elem} {ms : List (Packet Elem)}
    (hc : net.channel q p = m :: ms) (hp : EntrantAt digest circuit size p proc)
    (hread : ¬ Unread q proc) (hunread : ∀ a, Unread a proc → Unread a (net.proc p))
    (hsilent : ∀ b, Silent b (net.proc p) → Silent b proc) :
    Agreement digest circuit size ((net.setProc p proc).setChannel q p ms) := by
  have hne : ∀ a b, Unread a ((net.setProc p proc).proc b) → ¬(a = q ∧ b = p) := by
    rintro a b hb ⟨rfl, rfl⟩
    rw [RoundProgram.Net.setProc_same] at hb
    exact hread hb
  have h' := h.setProc hp hunread fun b _ => hsilent b
  refine ⟨h'.entrant, fun a b hab hb m' ms' hc' => ?_, fun a b hab hb hc' => ?_, fun a b m' hm' => ?_⟩
  · rw [RoundProgram.Net.setChannel_ne _ _ _ _ (hne a b hb)] at hc'
    exact h'.head a b hab hb m' ms' hc'
  · rw [RoundProgram.Net.setChannel_ne _ _ _ _ (hne a b hb)] at hc'
    exact h'.silent a b hab hb hc'
  · by_cases hch : a = q ∧ b = p
    · obtain ⟨rfl, rfl⟩ := hch
      rw [RoundProgram.Net.setChannel_same] at hm'
      exact h.content a b m' (by rw [hc]; exact List.mem_cons_of_mem m hm')
    · rw [RoundProgram.Net.setChannel_ne _ _ _ _ hch] at hm'
      exact h.content a b m' hm'

section

variable {hash : List UInt8} {sendLen : ℕ} {outbox inbox : Fin n → Option (Packet Elem)} {m : Packet Elem}

theorem send_digest (h : Agreement digest circuit size net)
    (hp : net.proc p = .busy (.greeting
      (.new (circuit p) (Link.greeted ⟨p, size p, fun _ => [], fun _ => []⟩ hash)) hash sendLen) outbox inbox)
    (hd : digest (circuit p) = .ok hash) (hout : ∀ q m, outbox q = some m → IsDigestOf digest circuit p m)
    (hin : ∀ q m, inbox q = some m → IsDigestOf digest circuit q m) (hm : outbox q = some m) :
    Agreement digest circuit size ((net.setProc p (.busy (.greeting
      (.new (circuit p) (Link.greeted ⟨p, size p, fun _ => [], fun _ => []⟩ hash)) hash sendLen)
        (Function.update outbox q none) inbox)).setChannel p q (net.channel p q ++ [m])) := by
  refine h.send (.greeting hd (fun a m' hm' => ?_) hin) (fun a ha => ?_) (fun b hb hsil => ?_) (.inl (hout q m hm))
  · by_cases haq : a = q
    · rw [haq, Function.update_self] at hm'
      cases hm'
    · rw [Function.update_of_ne haq] at hm'
      exact hout a m' hm'
  · rw [hp]
    exact ha
  · rw [hp] at hsil
    show Function.update outbox q none b ≠ none
    rw [Function.update_of_ne hb]
    exact hsil

theorem recv_digest (h : Agreement digest circuit size net) (hqp : q ≠ p)
    (hp : net.proc p = .busy (.greeting
      (.new (circuit p) (Link.greeted ⟨p, size p, fun _ => [], fun _ => []⟩ hash)) hash sendLen) outbox inbox)
    (hd : digest (circuit p) = .ok hash) (hout : ∀ q m, outbox q = some m → IsDigestOf digest circuit p m)
    (hinbox : ∀ q m, inbox q = some m → IsDigestOf digest circuit q m) (hin : inbox q = none)
    {ms : List (Packet Elem)} (hc : net.channel q p = m :: ms) :
    Agreement digest circuit size ((net.setProc p (.busy (.greeting
      (.new (circuit p) (Link.greeted ⟨p, size p, fun _ => [], fun _ => []⟩ hash)) hash sendLen)
        outbox (Function.update inbox q (some m)))).setChannel q p ms) := by
  have hunread : Unread q (net.proc p) := by
    rw [hp]
    exact hin
  have hm := h.head q p hqp hunread m ms hc
  refine h.recv hc (.greeting hd hout fun a m' hm' => ?_) (fun hu => ?_) (fun a hu => ?_) fun b hsil => ?_
  · by_cases haq : a = q
    · rw [haq, Function.update_self] at hm'
      obtain rfl := Option.some.inj hm'
      rwa [haq]
    · rw [Function.update_of_ne haq] at hm'
      exact hinbox a m' hm'
  · exact absurd hu (by simp [Unread])
  · rw [hp]
    by_cases haq : a = q
    · rw [haq]
      exact hin
    · have hu' : Function.update inbox q (some m) a = none := hu
      rwa [Function.update_of_ne haq] at hu'
  · rw [hp] at hsil
    exact hsil

end

variable [Operation Op] [MpcScheme S Op Wire Elem Input Ctx Pending] {rng : Fin n → Draws}
  {inputs : Fin n → List (WireId × Input)}

theorem start_before (h : Agreement digest circuit size net)
    (hp : net.proc p = .idle (Cluster.newcomer circuit size p))
    {next : Entrant S Op Wire Elem Ctx Pending n ⊕ EntrantStage S Op Wire Elem Ctx Pending n}
    (hs : (Cluster.entry digest rng inputs).start p (Cluster.newcomer circuit size p) = some next) :
    (∀ s', next = .inl s' → Agreement digest circuit size (net.setProc p (.stopped s'))) ∧
    ∀ r, next = .inr r → Agreement digest circuit size
      (net.setProc p (.busy r ((Cluster.entry digest rng inputs).sends p r) fun _ => none)) := by
  have hbefore : ∀ a, Unread a (net.proc p) := fun a => by rw [hp]; trivial
  simp only [Cluster.entry, Cluster.newcomer] at hs
  rcases hg : greet digest (ExecutionContext.new (circuit p) ⟨p, size p, fun _ => [], fun _ => []⟩ :
    ExecutionContext S Op Wire Elem Ctx Pending (Link n Elem)) with ⟨r, ec⟩
  rw [hg] at hs
  obtain ⟨hash, sendLen, hd, rfl, rfl⟩ | ⟨hne, hpna, hstate⟩ := greet_cases hg
  · obtain rfl := Option.some.inj hs
    refine ⟨fun s' he => absurd he (by simp), fun r he => ?_⟩
    obtain rfl := Sum.inr.inj he
    have hsends : ∀ q, (Cluster.entry digest rng inputs).sends p (.greeting
        (.new (circuit p) (Link.greeted ⟨p, size p, fun _ => [], fun _ => []⟩ hash)) hash sendLen) q =
          if q = p then none else some ⟨0, [], .digests [hash]⟩ := by
      intro q
      by_cases hq : q = p <;> simp [Cluster.entry, ExecutionContext.new, Link.greeted, Link.write, hq]
    refine h.setProc (.greeting hd (fun q m hm => ?_) fun q m hm => by cases hm) (fun a _ => hbefore a) fun b hb _ => ?_
    · rw [hsends] at hm
      split at hm
      · cases hm
      · obtain rfl := Option.some.inj hm
        exact ⟨hash, hd, rfl⟩
    · show (Cluster.entry digest rng inputs).sends p _ b ≠ none
      rw [hsends, if_neg (Ne.symm hb)]
      simp
  · have hended : ∀ outcome : Outcome Fault (ℕ × ℕ), ∀ party : Party S Op Wire Elem Ctx Pending n,
        outcome = r.bind (fun _ => .ok (0, 0)) → party = ⟨ec, [], r.bind fun _ => .ok (), 0, []⟩ →
        Ended circuit p outcome party := by
      rintro outcome party rfl rfl
      refine ⟨fun he => ?_, fun he => ?_⟩
      · obtain he | ⟨x, he, -⟩ := Outcome.bind_eq_err.mp he
        · exact absurd he hpna
        · exact absurd he (hne x)
      · obtain he | he := he
        · obtain ⟨x, he, -⟩ := Outcome.bind_eq_ok.mp he
          exact absurd he (hne x)
        · exact absurd hstate he
    have hnext : next = .inl (.after (r.bind fun _ => .ok (0, 0)) ⟨ec, [], r.bind fun _ => .ok (), 0, []⟩) := by
      cases r with
      | ok x => exact absurd rfl (hne x)
      | err e => exact (Option.some.inj hs).symm
      | panic => exact (Option.some.inj hs).symm
      | hang => exact (Option.some.inj hs).symm
    refine ⟨fun s' he => ?_, fun r he => by rw [hnext] at he; cases he⟩
    rw [hnext] at he
    obtain rfl := Sum.inl.inj he
    exact h.setProc (.stopped (hended _ _ rfl rfl)) (fun a _ => hbefore a) fun b _ _ => trivial

theorem start_after (h : Agreement digest circuit size net) {result : Outcome Fault (ℕ × ℕ)}
    {party : Party S Op Wire Elem Ctx Pending n} (hp : net.proc p = .idle (.after result party))
    (hended : Ended circuit p result party)
    {next : Entrant S Op Wire Elem Ctx Pending n ⊕ EntrantStage S Op Wire Elem Ctx Pending n}
    (hs : (Cluster.entry digest rng inputs).start p (.after result party) = some next) :
    (∀ s', next = .inl s' → Agreement digest circuit size (net.setProc p (.stopped s'))) ∧
    ∀ r, next = .inr r → Agreement digest circuit size
      (net.setProc p (.busy r ((Cluster.entry digest rng inputs).sends p r) fun _ => none)) := by
  have hnot : ∀ b, ¬ Silent b (net.proc p) := fun b => by rw [hp]; exact id
  obtain ⟨next', hnext', rfl⟩ := Option.map_eq_some_iff.mp hs
  cases next' with
  | inl party' =>
      refine ⟨fun s' he => ?_, fun r he => absurd he (by simp)⟩
      obtain rfl := Sum.inl.inj he
      obtain ⟨_, _, _, _, hok, -, -, -, -⟩ := Cluster.start_eq_inl hnext'
      exact h.setProc (.stopped ⟨hended.refused, fun _ => hended.agreed (.inl hok)⟩) (fun a ha => ha.elim)
        fun b _ _ => trivial
  | inr stage =>
      refine ⟨fun s' he => absurd he (by simp), fun r he => ?_⟩
      obtain rfl := Sum.inr.inj he
      obtain ⟨_, _, _, _, hok, -, -, -⟩ := Cluster.start_eq_inr hnext'
      have hall := hended.agreed (.inl hok)
      exact h.setProc (.working (fun he => hended.refused he hall) hall) (fun a ha => ha.elim)
        fun b _ hb => (hnot b hb).elim

theorem finish_greeting {hash : List UInt8} {sendLen : ℕ} {inbox : Fin n → Option (Packet Elem)}
    (hinj : ∀ p q hash, digest (circuit p) = .ok hash → digest (circuit q) = .ok hash → circuit p = circuit q)
    (hd : digest (circuit p) = .ok hash) (hin : ∀ q m, inbox q = some m → IsDigestOf digest circuit q m)
    (hall : ∀ q, q ≠ p → (inbox q).isSome) :
    EntrantAt digest circuit size p (.idle ((Cluster.entry digest rng inputs).finish p (.greeting
      (.new (circuit p) (Link.greeted ⟨p, size p, fun _ => [], fun _ => []⟩ hash)) hash sendLen) inbox)) := by
  have hchoice : ∀ i, ∃ known : List UInt8, ∀ (hi : i < n) h, digest (circuit ⟨i, hi⟩) = .ok h → known = h := by
    intro i
    by_cases hex : ∃ (hi : i < n) (h : List UInt8), digest (circuit ⟨i, hi⟩) = .ok h
    · obtain ⟨hi, h, hdi⟩ := hex
      exact ⟨h, fun _ h' hdi' => Outcome.ok.inj (hdi.symm.trans hdi')⟩
    · exact ⟨[], fun hi h hdi => absurd ⟨hi, h, hdi⟩ hex⟩
  choose hashOf hknown using hchoice
  have hhash : ∀ q h, digest (circuit q) = .ok h → hashOf q = h := fun q h hq => hknown q q.isLt h hq
  have hread : ∀ q, q ≠ p → digest (circuit q) = .ok (hashOf q) ∧
      ((inbox q).map Packet.message).toList.head? = some (.digests [hashOf q]) := by
    intro q hq
    obtain ⟨m, hm⟩ := Option.isSome_iff_exists.mp (hall q hq)
    obtain ⟨h, hdq, hmsg⟩ := hin q m hm
    rw [hhash q h hdq]
    exact ⟨hdq, by simp [hm, hmsg]⟩
  simp only [Cluster.entry]
  rcases hc : conclude (rng p) hash sendLen ({ (ExecutionContext.new (circuit p)
      (Link.greeted ⟨p, size p, fun _ => [], fun _ => []⟩ hash) :
        ExecutionContext S Op Wire Elem Ctx Pending (Link n Elem)) with
      network := (Link.greeted ⟨p, size p, fun _ => [], fun _ => []⟩ hash).exchange inbox }) with ⟨r, ec⟩
  rw [show (ExecutionContext.new (circuit p) (Link.greeted ⟨p, size p, fun _ => [], fun _ => []⟩ hash) :
    ExecutionContext S Op Wire Elem Ctx Pending (Link n Elem)).network =
      Link.greeted ⟨p, size p, fun _ => [], fun _ => []⟩ hash from rfl, hc]
  refine .after ?_
  obtain ⟨⟨q, hq⟩, rfl, hstate⟩ | ⟨hsame, hne⟩ := conclude_cases hashOf (fun q hq => (hread q hq).2) hc
  · refine ⟨fun _ hallp => hq (hhash q hash (by rw [hallp q, hd])), fun he => ?_⟩
    obtain he | he := he
    · exact absurd he (by simp [Outcome.bind])
    · exact absurd hstate he
  · have hallp : AllAs circuit p := by
      intro q
      by_cases hq : q = p
      · rw [hq]
      · have h1 := (hread q hq).1
        rw [hsame q hq] at h1
        exact hinj q p hash h1 hd
    exact ⟨fun he => absurd he hne, fun _ => hallp⟩

/-- **One event.** -/
theorem step (h : Agreement digest circuit size net)
    (hinj : ∀ p q hash, digest (circuit p) = .ok hash → digest (circuit q) = .ok hash → circuit p = circuit q)
    {net' : EntrantNet S Op Wire Elem Ctx Pending n} {ev : RoundProgram.Event (Fin n)}
    (hs : (Cluster.entry digest rng inputs).step net ev = some net') : Agreement digest circuit size net' := by
  cases RoundProgram.stepTo_of_step hs with
  | @stop p s s' hp hstart =>
      have hat := h.entrant p
      rw [hp] at hat
      cases hat with
      | before => exact (h.start_before hp hstart).1 s' rfl
      | after hended => exact (h.start_after hp hended hstart).1 s' rfl
  | @start p s r hp hstart =>
      have hat := h.entrant p
      rw [hp] at hat
      cases hat with
      | before => exact (h.start_before hp hstart).2 r rfl
      | after hended => exact (h.start_after hp hended hstart).2 r rfl
  | @send p q r outbox inbox m hp hm =>
      have hat := h.entrant p
      rw [hp] at hat
      cases hat with
      | greeting hd hout hin => exact h.send_digest hp hd hout hin hm
      | working hr hall =>
          refine h.send (.working hr hall) (fun a ha => ha.elim) (fun b _ hsil => ?_) (.inr ⟨hall, fun hsil => ?_⟩)
          · rw [hp] at hsil
            exact hsil.elim
          · rw [hp] at hsil
            exact hsil.elim
  | @recv p q r outbox inbox m ms hp ha hin hc =>
      have hat := h.entrant p
      rw [hp] at hat
      cases hat with
      | greeting hd hout hinbox =>
          exact h.recv_digest (by simpa [Cluster.entry] using ha) hp hd hout hinbox hin hc
      | working hr hall =>
          refine h.recv hc (.working hr hall) id (fun a hu => hu.elim) fun b hsil => ?_
          rw [hp] at hsil
          exact hsil
  | @finish p r outbox inbox hp hout hin =>
      have hat := h.entrant p
      rw [hp] at hat
      have hsil : ∀ b, ¬ Silent b (net.proc p) := by
        intro b hb
        rw [hp] at hb
        cases r with
        | greeting ec hash sendLen => exact hb (hout b)
        | working result stage => exact hb
      cases hat with
      | greeting hd _ hinbox =>
          refine h.setProc (finish_greeting hinj hd hinbox fun q hq => hin q ?_) (fun a ha => ha.elim)
            fun b _ hb => (hsil b hb).elim
          simpa [Cluster.entry] using hq
      | working hr hall =>
          exact h.setProc (.after ⟨fun he => absurd he hr, fun _ => hall⟩) (fun a ha => ha.elim)
            fun b _ hb => (hsil b hb).elim

/-- **Every net.** -/
theorem of_reachable
    (hinj : ∀ p q hash, digest (circuit p) = .ok hash → digest (circuit q) = .ok hash → circuit p = circuit q)
    (h : (Cluster.entry digest rng inputs).Reachable (RoundProgram.initial (Cluster.newcomer circuit size)) net) :
    Agreement digest circuit size net := by
  induction h with
  | refl =>
      exact ⟨fun p => .before, fun p q _ _ m ms hc => absurd hc (by simp [RoundProgram.initial]),
        fun p q _ _ _ => trivial, fun p q m hm => absurd hm (by simp [RoundProgram.initial])⟩
  | step _ hs ih => exact ih.step hinj hs

end Agreement

/-! ### All or nothing -/

section

variable {digest : MpcCircuit S Op → Outcome String (List UInt8)} {circuit : Fin n → MpcCircuit S Op}
  {size : Fin n → Message Elem → ℕ} {p : Fin n} {proc : EntrantProc S Op Wire Elem Ctx Pending n}

/-- A party that is told that the plans differ has a circuit that not all have. -/
theorem EntrantAt.refused (h : EntrantAt digest circuit size p proc)
    (hr : EntrantProc.result proc = some (.err (.error .planNotAgreed))) : ¬ AllAs circuit p := by
  cases h with
  | before => cases hr
  | greeting _ _ _ => cases hr
  | after hended => exact hended.refused (Option.some.inj hr)
  | stopped hended => exact hended.refused (Option.some.inj hr)
  | working hne _ => exact absurd (Option.some.inj hr) hne

/-- A party that has left the first state has the circuit that all have. -/
theorem EntrantAt.agreed (h : EntrantAt digest circuit size p proc)
    (hs : (EntrantProc.context proc).executionState ≠ .newBorn) : AllAs circuit p := by
  cases h with
  | before => exact absurd rfl hs
  | greeting _ _ _ => exact absurd rfl hs
  | after hended => exact hended.agreed (.inr hs)
  | stopped hended => exact hended.agreed (.inr hs)
  | working _ hall => exact hall

end

namespace Cluster

variable [Operation Op] [MpcScheme S Op Wire Elem Input Ctx Pending]

/-- **Agreement on the plan**: all parties have one circuit, and no handshake says otherwise, or no party
leaves the first state and nothing but digests is sent. -/
theorem planAgreement (digest : MpcCircuit S Op → Outcome String (List UInt8)) (circuit : Fin n → MpcCircuit S Op)
    (size : Fin n → Message Elem → ℕ) (rng : Fin n → Draws) (inputs : Fin n → List (WireId × Input))
    (hinj : ∀ p q hash, digest (circuit p) = .ok hash → digest (circuit q) = .ok hash → circuit p = circuit q) :
    ((∀ p q, circuit p = circuit q) ∧
      ∀ net : EntrantNet S Op Wire Elem Ctx Pending n,
        (entry digest rng inputs).Reachable (RoundProgram.initial (newcomer circuit size)) net →
          ∀ p, EntrantProc.result (net.proc p) ≠ some (.err (.error .planNotAgreed))) ∨
    ∀ net : EntrantNet S Op Wire Elem Ctx Pending n,
      (entry digest rng inputs).Reachable (RoundProgram.initial (newcomer circuit size)) net →
        (∀ p, (EntrantProc.context (net.proc p)).executionState = .newBorn) ∧
        ∀ p q, ∀ packet ∈ net.channel p q, ∃ hash, packet.message = .digests [hash] := by
  by_cases hall : ∀ p q, circuit p = circuit q
  · exact .inl ⟨hall, fun net h p hr => ((Agreement.of_reachable hinj h).entrant p).refused hr fun q => hall q p⟩
  · have hnot : ∀ p, ¬ AllAs circuit p := fun p hp => hall fun a b => (hp a).trans (hp b).symm
    refine .inr fun net h => ⟨fun p => ?_, fun p q packet hpacket => ?_⟩
    · by_contra hs
      exact hnot p (((Agreement.of_reachable hinj h).entrant p).agreed hs)
    · obtain ⟨hash, -, hmsg⟩ := ((Agreement.of_reachable hinj h).content p q packet hpacket).resolve_right (hnot p)
      exact ⟨hash, hmsg⟩

/-- Two parties with different plans. -/
def differingPlans : Fin 2 → MpcCircuit (AdditiveScheme 100) AdditiveOperation
  | 0 => sumCircuit
  | 1 => soloCircuit

theorem planAgreement_differing : ¬ ∃ net : EntrantNet (AdditiveScheme 100) AdditiveOperation ℕ ℕ AdditiveContext
    AdditivePending 2, (entry (fun circuit => .ok circuit.toStdvec) (fun _ k => k) fun _ => []).Reachable
      (RoundProgram.initial (newcomer differingPlans fun _ _ => 1)) net ∧
    ∃ p, (EntrantProc.context (net.proc p)).executionState = .handshaked := by
  have hinj : ∀ (p q : Fin 2) (hash : List UInt8),
      (.ok (differingPlans p).toStdvec : Outcome String (List UInt8)) = .ok hash →
      (.ok (differingPlans q).toStdvec : Outcome String (List UInt8)) = .ok hash →
      differingPlans p = differingPlans q := by
    intro p q hash hp hq
    have hrounds : ∀ p q, (differingPlans p).offlineRounds = (differingPlans q).offlineRounds →
        differingPlans p = differingPlans q := by decide
    exact hrounds p q (rounds_eq_of_toStdvec (Outcome.ok.inj (hp.trans hq.symm))).1
  rintro ⟨net, hreach, p, hp⟩
  rcases planAgreement (fun circuit => .ok circuit.toStdvec) differingPlans (fun _ _ => 1) (fun _ k => k)
    (fun _ => []) hinj with ⟨hall, -⟩ | h
  · exact absurd (hall 0 1) (by decide)
  · rw [(h net hreach).1 p] at hp
    cases hp

end Cluster

end MpcCore
