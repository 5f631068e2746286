import MpcCore.ClusterAdditiveBytes

/-! # Plans that differ are found out

Parties that start over bytes with circuits that are not all the same.

* `Arriving.not_entered`: none of them gets past its handshake.
* `Arriving.refused`: a party to which the digests of all others come returns `PlanNotAgreed`.
* `Arriving.all_sent`, `Arriving.all_refused`: every run can be continued until this is what each party does next.
* `overBytes_refused`: the same for additive circuits in the format of `postcard`. -/

namespace MpcCore

open Operation MpcScheme ExecutionContext
open MeshNetwork (established)
open Relation (ReflTransGen)

namespace Cluster

section refused

variable {S Op Wire Elem Input Ctx Pending N : Type} {n : ℕ} [Network N Elem] {codec : Codec Elem}
  {hashes : Codec (List UInt8)} [Operation Op] [MpcScheme S Op Wire Elem Input Ctx Pending]

theorem disagree_eq_true {hash : List UInt8} : ∀ {batches : List (List (List UInt8))},
    (∀ batch ∈ batches, ∃ other, batch = [other]) → (∃ batch ∈ batches, batch ≠ [hash]) → disagree hash batches = .ok true
  | [], _, ⟨_, hmem, _⟩ => by cases hmem
  | batch :: batches, hall, ⟨batch', hmem, hne⟩ => by
      obtain ⟨other, rfl⟩ := hall batch List.mem_cons_self
      rw [disagree, List.head?_cons, Outcome.unwrap_some, Outcome.ok_bind]
      by_cases hother : other = hash
      · subst hother
        rw [if_neg (not_not.mpr rfl)]
        exact disagree_eq_true (fun batch h => hall batch (List.mem_cons_of_mem _ h))
          ⟨batch', (List.mem_cons.mp hmem).resolve_left hne, hne⟩
      · rw [if_pos hother]

omit [Operation Op] in
theorem conclude_refused {rng : Draws} {hash : List UInt8} {sendLen len : ℕ} {batches : List (List (List UInt8))}
    {ec : ExecutionContext S Op Wire Elem Ctx Pending N} {network : N}
    (hcall : @Network.recvHashesMany N Elem _ (digestRequests (@Network.nPlayers N Elem _ ec.network)
      (@Network.myId N Elem _ ec.network)) ec.network = (.ok (batches, len), network))
    (hdisagree : disagree hash batches = .ok true) :
    (conclude rng hash sendLen ec).1 = .err (.error .planNotAgreed) := by
  unfold conclude
  rw [Act.read_bind, Act.bind_of_ok (onNetwork_eq_ok.mpr ⟨network, hcall, rfl⟩)]
  simp only [hdisagree, Act.ret_ok_bind, if_true]
  rfl

variable {backed : MeshBacked N codec hashes} {size : Message Elem → ℕ}
  {digest : MpcCircuit S Op → Outcome String (List UInt8)} {rng : Fin n → Draws} {circuits : Fin n → MpcCircuit S Op}
  {contexts : Fin n → Ctx} {inputs : Fin n → List (WireId × Input)} {init : Fin n → Party S Op Wire Elem Ctx Pending n}
  {hosts : Fin n → Host S Op Wire Elem Ctx Pending N}
  {net : RoundProgram.Net (Fin n) (Party S Op Wire Elem Ctx Pending n) (Stage S Op Wire Elem Ctx Pending n) (Packet Elem)}
  {a b p : Fin n} {hash bytes : Fin n → List UInt8}

theorem Arriving.not_entered (hdigests : Digests hashes digest circuits hash bytes) (hne : hash a ≠ hash b)
    (h : Arriving backed size digest circuits contexts inputs init hosts net) (p : Fin n) :
    (hosts p).hasEntered = false := by
  refine Bool.eq_false_of_not_eq_true fun hp => hne ?_
  have hsame : ∀ q, hash q = hash p := fun q =>
    Outcome.ok.inj ((hdigests.eq q).symm.trans ((h.refines.agreed p hp q).2.trans (hdigests.eq p)))
  exact (hsame a).trans (hsame b).symm

/-- **A party returns `PlanNotAgreed` or waits** for the digest of another, when two digests differ. -/
theorem Arriving.refused (hestablish : Establishes backed rng circuits contexts)
    (hdigests : Digests hashes digest circuits hash bytes) (hne : hash a ≠ hash b)
    (h : Arriving backed size digest circuits contexts inputs init hosts net)
    {ec : ExecutionContext S Op Wire Elem Ctx Pending N} {hash' : List UInt8} {sendLen : ℕ}
    (hp : hosts p = .greeted ec hash' sendLen) :
    (conclude (rng p) hash' sendLen ec).1 = .err (.error .planNotAgreed) ∨
      (conclude (rng p) hash' sendLen ec).1 = .hang ∧
        ∃ q ≠ p, ∃ c, ((hosts p).mesh backed).channel q = some c ∧ c.recv.1 = .hang := by
  obtain ⟨x, hx⟩ : ∃ x, hash x ≠ hash p := by
    by_cases ha : hash a = hash p
    · exact ⟨b, fun hb => hne (ha.trans hb.symm)⟩
    · exact ⟨a, ha⟩
  obtain ⟨rfl, ⟨batches, len, network, hcall, hbatches, -⟩ | hwaits⟩ := h.digests_come hestablish hdigests hp
  · refine .inl (conclude_refused hcall (disagree_eq_true (fun batch hbatch => ?_) ⟨[hash x], ?_, ?_⟩))
    · obtain ⟨y, -, rfl⟩ := (hbatches batch).mp hbatch
      exact ⟨hash y, rfl⟩
    · exact (hbatches _).mpr ⟨x, fun hxp => hx (by rw [hxp]), rfl⟩
    · exact fun heq => hx (List.head_eq_of_cons_eq heq)
  · exact .inr hwaits

theorem Arriving.nextCall_refused (hestablish : Establishes backed rng circuits contexts)
    (hdigests : Digests hashes digest circuits hash bytes) (hne : hash a ≠ hash b)
    (h : Arriving backed size digest circuits contexts inputs init hosts net) (p : Fin n) :
    nextCall digest (rng p) (inputs p) (hosts p) =
        (if (hosts p).hasSent = true then .err (.error .planNotAgreed) else .ok ()) ∨
      (hosts p).receives = true ∧ nextCall digest (rng p) (inputs p) (hosts p) = .hang ∧
        ∃ q ≠ p, ∃ c, ((hosts p).mesh backed).channel q = some c ∧ c.recv.1 = .hang := by
  have hentered := h.not_entered hdigests hne p
  cases hhost : hosts p with
  | fresh ec =>
      obtain ⟨sendLen, ec', hgreet, -⟩ := h.greet_succeeds hdigests hhost
      left
      simp only [nextCall, hgreet, Outcome.ok_bind]
      rfl
  | greeted ec hash' sendLen =>
      obtain hrefused | ⟨hhang, hwaits⟩ := h.refused hestablish hdigests hne hhost
      · left
        simp only [nextCall, hrefused, Outcome.err_bind]
        rfl
      · rw [hhost] at hwaits
        refine .inr ⟨rfl, ?_, hwaits⟩
        simp only [nextCall, hhang, Outcome.bind]
  | entered node =>
      rw [hhost] at hentered
      cases hentered

theorem Arriving.all_sent (hsize : codec.Sizes size) (hestablish : Establishes backed rng circuits contexts)
    (hdigests : Digests hashes digest circuits hash bytes)
    (h : Arriving backed size digest circuits contexts inputs init hosts net) :
    ∃ hosts' net', ReflTransGen (HostStep backed digest rng inputs) hosts hosts' ∧
      Arriving backed size digest circuits contexts inputs init hosts' net' ∧ ∀ p, (hosts' p).hasSent = true := by
  induction hleft : ∑ x, (hosts x).left using Nat.strong_induction_on generalizing hosts net with
  | h left ih =>
      by_cases hsent : ∀ p, (hosts p).hasSent = true
      · exact ⟨hosts, net, .refl, h, hsent⟩
      · obtain ⟨p, hp⟩ := not_forall.mp hsent
        obtain ⟨host, hstep, hlt⟩ := h.greet_half hdigests (Bool.eq_false_of_not_eq_true hp)
        obtain ⟨hosts₁, net₁, hrun, h₁, hlt⟩ := h.advance hsize hestablish .refl
          (fun x => ⟨_, ((hosts x).withNetwork_self).symm⟩) hstep hlt
        obtain ⟨hosts', net', hrun', h', hsent'⟩ := ih _ (hleft ▸ hlt) h₁ rfl
        exact ⟨hosts', net', hrun.trans hrun', h', hsent'⟩

/-- **Every run can be continued until each party returns `PlanNotAgreed`**, when two digests differ. -/
theorem Arriving.all_refused (hsize : codec.Sizes size) (hestablish : Establishes backed rng circuits contexts)
    (hdigests : Digests hashes digest circuits hash bytes) (hne : hash a ≠ hash b)
    (h : Arriving backed size digest circuits contexts inputs init hosts net) :
    ∃ hosts', ReflTransGen (HostStep backed digest rng inputs) hosts hosts' ∧
      ∀ p, nextCall digest (rng p) (inputs p) (hosts' p) = .err (.error .planNotAgreed) := by
  obtain ⟨hosts₁, net₁, hrun₁, h₁, hsent₁⟩ := h.all_sent hsize hestablish hdigests
  obtain ⟨hosts', hrun', h', hsame, hempty⟩ := h₁.deliverAll hestablish
  have hsent : ∀ p, (hosts' p).hasSent = true := fun p => by
    obtain ⟨network, hp⟩ := hsame p
    rw [hp, hasSent_withNetwork]
    exact hsent₁ p
  refine ⟨hosts', hrun₁.trans hrun', fun p => ?_⟩
  obtain hrefused | ⟨-, -, q, hq, c, hc, hhang⟩ := h'.nextCall_refused hestablish hdigests hne p
  · rw [hrefused, if_pos (hsent p)]
  · exact absurd hhang (h'.digest_there hsent (h'.not_entered hdigests hne p) hempty hq hc)

end refused

/-! ### Additive circuits -/

section additive

variable {M n : ℕ} {N : Type} [Network N ℕ] {codec : Codec ℕ} {circuits : Fin n → AdditiveCircuit M}
  {inputs : Fin n → List (WireId × ℕ)} {draws : Fin n → Draws} {key : Fin n → Fin n → Cipher} {networks : Fin n → N}
  {sha3 : List UInt8 → List UInt8}

/-- **Plans that differ are found out over bytes.**  Let the parties start with circuits that are not all the same, and
let SHA-3 have no collision on these circuits.  Wherever a run has got to, no party is past its handshake; a party that
has not sent its digest can do so; and one that has sent it returns `PlanNotAgreed` next, or waits on a channel to
another party on which there is nothing to receive yet.  The run can be continued until every party returns
`PlanNotAgreed`, those whose plan is that of most included. -/
theorem overBytes_refused {backed : MeshBacked N codec postcardHashes} {a b : Fin n} (hne : circuits a ≠ circuits b)
    (hcollision : ∀ p q, sha3 (circuits p).toStdvec = sha3 (circuits q).toStdvec →
      (circuits p).toStdvec = (circuits q).toStdvec)
    (hsha3 : ∀ data, (sha3 data).length = 64) (htasks : ∀ p, (circuits p).tasks.length + 1 < 2 ^ 64)
    (hkey : ∀ p q, key p q = key q p) (haead : ∀ p q, IsAead (key p q)) (hseals : ∀ p q, Seals (key p q))
    (hnetworks : ∀ p, backed.mesh (networks p) = established key p) {hosts : Fin n → AdditiveHost M N}
    (hrun : ReflTransGen (HostStep backed (additiveDigest sha3) draws inputs) (additiveHosts circuits networks) hosts) :
    (∀ p, (hosts p).hasEntered = false ∧
      (nextCall (additiveDigest sha3) (draws p) (inputs p) (hosts p) =
          (if (hosts p).hasSent = true then .err (.error .planNotAgreed) else .ok ()) ∨
        (hosts p).receives = true ∧ nextCall (additiveDigest sha3) (draws p) (inputs p) (hosts p) = .hang ∧
          ∃ q ≠ p, ∃ c, ((hosts p).mesh backed).channel q = some c ∧ c.recv.1 = .hang)) ∧
    ∃ hosts', ReflTransGen (HostStep backed (additiveDigest sha3) draws inputs) hosts hosts' ∧
      ∀ p, nextCall (additiveDigest sha3) (draws p) (inputs p) (hosts' p) = .err (.error .planNotAgreed) := by
  have hdiffer : sha3 (circuits a).toStdvec ≠ sha3 (circuits b).toStdvec := fun heq =>
    hne (eq_of_toStdvec (hcollision a b heq))
  obtain ⟨size, hsize⟩ := codec.exists_sizes
  obtain ⟨bytes, hdigests⟩ := exists_digests circuits hsha3
  obtain ⟨net, harriving⟩ := exists_arriving hsize htasks hkey haead hseals hnetworks hrun
  refine ⟨fun p => ⟨harriving.not_entered hdigests hdiffer p, ?_⟩, ?_⟩
  · exact harriving.nextCall_refused establishes_additive hdigests hdiffer p
  · exact harriving.all_refused hsize establishes_additive hdigests hdiffer

end additive

/-- One of two parties has the sum, the other no operation. -/
def differing (p : Fin 2) : AdditiveCircuit 100 :=
  match p.val with
  | 0 => openedSum
  | _ => ⟨⟨⟩, [], []⟩

theorem overBytes_refused_differing : ∃ hosts,
    ReflTransGen (HostStep openedSumMesh (additiveDigest firstBytes) openedSumDraws openedSumInputs)
      (additiveHosts differing openedSumNetwork) hosts ∧
    ∀ p, nextCall (additiveDigest firstBytes) (openedSumDraws p) (openedSumInputs p) (hosts p) =
      .err (.error .planNotAgreed) :=
  (overBytes_refused (a := 0) (b := 1) (by decide) (by decide) length_firstBytes (by decide) (fun _ _ => rfl)
    (fun _ _ => SecureStream.isAead_tagCipher) (fun _ _ => seals_tagCipher) mesh_openedSumNetwork .refl).2

end Cluster

end MpcCore
