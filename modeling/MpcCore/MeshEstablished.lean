import MpcCore.MeshSetup
import Mathlib.Data.List.Perm.Subperm

/-! # Which meshes are set up

The runs of `from_identities`, from the passes of the listener to the merged table.

* `Table.accept` and `Passes.accept` are the two directions of one pass; `listen_eq_ok` and
  `listen_eq_panic` follow by induction on the passes.
* `merge_eq`: the assertions of the merge hold.
* `isComplete_iff`: a mesh that is returned has a channel to every other party, and none to itself,
  exactly when no client it has let in claims to be the party itself.
* `fromIdentities_ne_panic_iff`: the set-up panics exactly when the listener comes to a client that
  claims an id which no party has. -/

namespace MpcCore

variable {σ SigningKey VerifyingKey Address : Type} [ByteStream σ] {prims : Primitives SigningKey VerifyingKey}
  {myId : ℕ} {mySecretKey : SigningKey} {identities : List (NodeIdentity Address VerifyingKey)}
  {connections connections' : List (Option (SecureStream σ))} {ids : List ℕ}

/-! ### The passes of the listener -/

section listener

variable {conn : Connection σ} {id : ℕ}

omit [ByteStream σ] in
theorem slot_eq_none (hlt : id < connections.length) (hempty : (connections[id]?.join).isSome ≠ true) :
    connections[id]? = some none := by
  rw [List.getElem?_eq_getElem hlt] at hempty ⊢
  rcases hc : connections[id] with _ | c
  · rfl
  · rw [hc] at hempty
    exact absurd rfl hempty

omit [ByteStream σ] in
theorem slot_isSome {j : ℕ} {s : SecureStream σ} (h : connections[id]? = some none) :
    ((connections.set id (some s))[j]?.join).isSome = true ↔ (connections[j]?.join).isSome = true ∨ j = id := by
  by_cases hj : j = id
  · subst hj
    have hlt : j < connections.length := (List.getElem?_eq_some_iff.mp h).1
    rw [List.getElem?_set_self hlt]
    simp
  · rw [List.getElem?_set_ne (Ne.symm hj)]
    simp [hj]

/-- A pass that succeeds has let a client in, for a party that was not there. -/
theorem Table.accept (ht : Table prims myId identities ids connections)
    (h : acceptOne prims myId mySecretKey identities conn connections = .ok connections') :
    ∃ id, Passes prims myId mySecretKey identities (.ok conn) id ∧ id ∉ ids ∧
      Table prims myId identities (ids ++ [id]) connections' := by
  obtain ⟨id, stream, identity, s, hread, hidentity, hs, hslot, hle, rfl⟩ := acceptOne_eq_ok.mp h
  have hnot : id ∉ ids := by
    rw [← ht.slots, hslot]
    simp
  have hlt : id < identities.length := (List.getElem?_eq_some_iff.mp hidentity).1
  refine ⟨id, ⟨conn, stream, identity, s, rfl, hread, hidentity, hs, hle⟩, hnot, ?_, ?_, fun id' hid' => ?_,
    fun j => ?_, fun j s' hs' => ?_⟩
  · rw [List.length_set, ht.length]
  · exact List.nodup_append.mpr ⟨ht.nodup, List.nodup_singleton id, fun a ha b hb => by
      rw [List.mem_singleton.mp hb]
      rintro rfl
      exact hnot ha⟩
  · obtain hid' | hid' := List.mem_append.mp hid'
    · exact ht.inRange id' hid'
    · obtain rfl := List.mem_singleton.mp hid'
      exact ⟨hle, hlt⟩
  · rw [slot_isSome hslot, ht.slots, List.mem_append, List.mem_singleton]
  · by_cases hj : j = id
    · subst hj
      rw [List.getElem?_set_self (ht.length ▸ hlt)] at hs'
      obtain rfl := Option.some.inj hs'
      exact ⟨identity, hidentity, performHandshake_ok hs⟩
    · rw [List.getElem?_set_ne (Ne.symm hj)] at hs'
      exact ht.authentic j s' hs'

theorem Passes.accept (ht : Table prims myId identities ids connections)
    (h : Passes prims myId mySecretKey identities (.ok conn) id) (hnot : id ∉ ids) :
    ∃ connections', acceptOne prims myId mySecretKey identities conn connections = .ok connections' ∧
      Table prims myId identities (ids ++ [id]) connections' := by
  have hclaimed := h.claimedId
  obtain ⟨conn', stream, identity, s, hconn, hread, hidentity, hs, hle⟩ := h
  obtain rfl := Except.ok.inj hconn
  have hlt : id < connections.length := ht.length ▸ (List.getElem?_eq_some_iff.mp hidentity).1
  have hslot : connections[id]? = some none := slot_eq_none hlt fun hsome => hnot ((ht.slots id).mp hsome)
  have hok := acceptOne_eq_ok.mpr ⟨id, stream, identity, s, hread, hidentity, hs, hslot, hle, rfl⟩
  obtain ⟨id', hpasses, -, ht'⟩ := ht.accept hok
  obtain rfl : id = id' := Option.some.inj (hclaimed.symm.trans hpasses.claimedId)
  exact ⟨_, hok, ht'⟩

theorem listen_eq_ok : ∀ {n : ℕ} {incoming : List (Except String (Connection σ))} {ids : List ℕ}
    {connections : List (Option (SecureStream σ))}, Table prims myId identities ids connections →
    listen prims myId mySecretKey identities n incoming connections = .ok connections' →
    ∃ ids', List.Forall₂ (Passes prims myId mySecretKey identities) (incoming.take n) ids' ∧ ids'.length = n ∧
      Table prims myId identities (ids ++ ids') connections'
  | 0, incoming, ids, connections, ht, h => by
      obtain rfl := Outcome.ok.inj h
      refine ⟨[], ?_, rfl, ?_⟩
      · rw [List.take_zero]
        exact .nil
      · rwa [List.append_nil]
  | n + 1, [], ids, connections, ht, h => by cases h
  | n + 1, .error e :: incoming, ids, connections, ht, h => by cases h
  | n + 1, .ok conn :: incoming, ids, connections, ht, h => by
      obtain ⟨connections₁, haccept, hrest⟩ := Outcome.bind_eq_ok.mp h
      obtain ⟨id, hpasses, -, ht₁⟩ := ht.accept haccept
      obtain ⟨ids', hall, hlen, ht'⟩ := listen_eq_ok ht₁ hrest
      refine ⟨id :: ids', .cons hpasses hall, ?_, ?_⟩
      · rw [List.length_cons, hlen]
      · rwa [List.append_assoc] at ht'

/-- The listener panics at a client that claims an id which no party has, when it has let in all before. -/
theorem listen_eq_panic (hs : NeverPanics σ) : ∀ {n : ℕ} {incoming : List (Except String (Connection σ))}
    {ids : List ℕ} {connections : List (Option (SecureStream σ))}, Table prims myId identities ids connections →
    (listen prims myId mySecretKey identities n incoming connections = .panic ↔
      ∃ k < n, ∃ ids', List.Forall₂ (Passes prims myId mySecretKey identities) (incoming.take k) ids' ∧
        (ids ++ ids').Nodup ∧ ∃ conn id, incoming[k]? = some (.ok conn) ∧ claimedId conn = some id ∧
          identities.length ≤ id)
  | 0, incoming, ids, connections, ht => by simp [listen]
  | n + 1, [], ids, connections, ht => by simp [listen]
  | n + 1, .error e :: incoming, ids, connections, ht => by
      constructor
      · intro h
        cases h
      · rintro ⟨k, -, ids', hall, -, conn, id, hk, -⟩
        cases k with
        | zero => cases hk
        | succ k =>
            rw [List.take_succ_cons] at hall
            cases hall with
            | cons hpasses _ => exact absurd hpasses Passes.ne_error
  | n + 1, .ok conn :: incoming, ids, connections, ht => by
      have hrun : listen prims myId mySecretKey identities (n + 1) (.ok conn :: incoming) connections = .panic ↔
          acceptOne prims myId mySecretKey identities conn connections = .panic ∨
            ∃ connections₁, acceptOne prims myId mySecretKey identities conn connections = .ok connections₁ ∧
              listen prims myId mySecretKey identities n incoming connections₁ = .panic := Outcome.bind_eq_panic
      rw [hrun, acceptOne_eq_panic hs ht.length]
      constructor
      · rintro (⟨id, hclaimed, hle⟩ | ⟨connections₁, haccept, hpanic⟩)
        · refine ⟨0, Nat.succ_pos n, [], ?_, ?_, conn, id, rfl, hclaimed, hle⟩
          · rw [List.take_zero]
            exact .nil
          · rw [List.append_nil]
            exact ht.nodup
        · obtain ⟨id, hpasses, -, ht₁⟩ := ht.accept haccept
          obtain ⟨k, hk, ids', hall, hnd, hlast⟩ := (listen_eq_panic hs ht₁).mp hpanic
          refine ⟨k + 1, Nat.succ_lt_succ hk, id :: ids', ?_, ?_, hlast⟩
          · rw [List.take_succ_cons]
            exact .cons hpasses hall
          · rwa [List.append_assoc] at hnd
      · rintro ⟨k, hk, ids', hall, hnd, conn', id', hlast, hclaimed, hle⟩
        cases k with
        | zero =>
            obtain rfl := Except.ok.inj (Option.some.inj hlast)
            exact .inl ⟨id', hclaimed, hle⟩
        | succ k =>
            rw [List.take_succ_cons] at hall
            obtain ⟨id, ids'', hpasses, hrest, rfl⟩ := List.forall₂_cons_left_iff.mp hall
            have hnot : id ∉ ids := fun hmem => (List.nodup_append.mp hnd).2.2 id hmem id List.mem_cons_self rfl
            obtain ⟨connections₁, haccept, ht₁⟩ := hpasses.accept ht hnot
            refine .inr ⟨connections₁, haccept, (listen_eq_panic hs ht₁).mpr ⟨k, by omega, ids'', hrest, ?_, conn', id',
              hlast, hclaimed, hle⟩⟩
            rwa [List.append_assoc]

theorem mem_ids_iff {clients : List (Except String (Connection σ))} {ids : List ℕ}
    (h : List.Forall₂ (Passes prims myId mySecretKey identities) clients ids) :
    id ∈ ids ↔ ∃ conn, .ok conn ∈ clients ∧ claimedId conn = some id := by
  induction h with
  | nil => simp
  | @cons client id' clients ids hpasses _ ih =>
      obtain ⟨conn, rfl⟩ : ∃ conn, client = .ok conn := by
        obtain ⟨conn, _, _, _, hconn, -⟩ := hpasses
        exact ⟨conn, hconn⟩
      simp only [List.mem_cons, ih, Except.ok.injEq, or_and_right, exists_or, exists_eq_left, hpasses.claimedId,
        Option.some.injEq]
      rw [eq_comm]

end listener

/-! ### The connectors and the merge -/

section connectors

variable {connect : ℕ → Address → List (Except String (Connection σ))} {targets : List ℕ}

theorem tryEstablish_ok {key : VerifyingKey} {conn : Connection σ} {s : SecureStream σ}
    (h : tryEstablish prims myId mySecretKey key conn = .ok s) : Authenticated prims key s := by
  obtain ⟨_, _, -, h⟩ := Act.bind_eq_ok.mp (Act.eq_of_fst h)
  exact performHandshake_ok (congrArg Prod.fst h)

theorem tryEstablish_ne_panic (hs : NeverPanics σ) (key : VerifyingKey) (conn : Connection σ) :
    tryEstablish prims myId mySecretKey key conn ≠ .panic :=
  Act.bind_ne_panic (hs.writeAll _ _) fun _ _ => performHandshake_ne_panic hs _ _ _ _ _

theorem establish_ok {targetId : ℕ} {key : VerifyingKey} : ∀ {attempts : List (Except String (Connection σ))}
    {r : ℕ × SecureStream σ}, establish prims myId mySecretKey targetId key attempts = .ok r →
    r.1 = targetId ∧ Authenticated prims key r.2
  | [], r, h => by cases h
  | .error _ :: attempts, r, h => by
      rw [establish] at h
      exact establish_ok h
  | .ok conn :: attempts, r, h => by
      simp only [establish] at h
      split at h
      · next s hs =>
          obtain rfl := Outcome.ok.inj h
          exact ⟨rfl, tryEstablish_ok hs⟩
      · exact establish_ok h
      · cases h
      · cases h

theorem establish_ne_panic (hs : NeverPanics σ) (targetId : ℕ) (key : VerifyingKey) :
    ∀ attempts : List (Except String (Connection σ)), establish prims myId mySecretKey targetId key attempts ≠ .panic
  | [] => by simp [establish]
  | .error _ :: attempts => establish_ne_panic hs targetId key attempts
  | .ok conn :: attempts => by
      simp only [establish]
      split
      · simp
      · exact establish_ne_panic hs targetId key attempts
      · next hp => exact absurd hp (tryEstablish_ne_panic hs key conn)
      · simp

theorem connectorHandles_ok : ∀ {targets : List ℕ} {results : List (ℕ × SecureStream σ)},
    connectorHandles prims myId mySecretKey identities connect targets = .ok (results.map .ok) →
    results.map Prod.fst = targets ∧ ∀ r ∈ results, ∃ identity, identities[r.1]? = some identity ∧
      Authenticated prims identity.publicKey r.2
  | [], results, h => by
      obtain rfl := List.map_eq_nil_iff.mp (Outcome.ok.inj h).symm
      simp
  | targetId :: targets, results, h => by
      rw [connectorHandles] at h
      split at h
      · cases h
      · next identity hidentity =>
          obtain ⟨handles, hrest, hcons⟩ := Outcome.bind_eq_ok.mp h
          obtain ⟨r, results, rfl, hr, rfl⟩ := List.map_eq_cons_iff.mp (Outcome.ok.inj hcons).symm
          obtain ⟨hfst, hall⟩ := connectorHandles_ok hrest
          obtain ⟨hr1, hauth⟩ := establish_ok hr.symm
          refine ⟨by rw [List.map_cons, hr1, hfst], fun r' hr' => ?_⟩
          obtain rfl | hr' := List.mem_cons.mp hr'
          · exact ⟨identity, hr1 ▸ hidentity, hauth⟩
          · exact hall r' hr'

variable (prims) (myId) (mySecretKey) (connect) in
theorem exists_connectorHandles (hs : NeverPanics σ) : ∀ {targets : List ℕ}, (∀ t ∈ targets, t < identities.length) →
    ∃ handles, connectorHandles prims myId mySecretKey identities connect targets = .ok handles ∧
      ∀ t ∈ handles, t ≠ .panic
  | [], _ => ⟨[], rfl, by simp⟩
  | targetId :: targets, h => by
      have hlt := h targetId List.mem_cons_self
      obtain ⟨handles, hrest, hall⟩ := exists_connectorHandles hs fun t ht => h t (List.mem_cons_of_mem _ ht)
      have hmake : connectorHandles prims myId mySecretKey identities connect (targetId :: targets) =
          .ok (establish prims myId mySecretKey targetId identities[targetId].publicKey
            (connect targetId identities[targetId].address) :: handles) := by
        simp only [connectorHandles, List.getElem?_eq_getElem hlt, hrest, Outcome.ok_bind]
      refine ⟨_, hmake, fun t ht => ?_⟩
      obtain rfl | ht := List.mem_cons.mp ht
      · exact establish_ne_panic hs _ _ _
      · exact hall t ht

omit [ByteStream σ] in
/-- **The assertions of the merge hold.** -/
theorem merge_eq : ∀ {results : List (ℕ × SecureStream σ)} {connections : List (Option (SecureStream σ))},
    (results.map Prod.fst).Nodup → (∀ r ∈ results, r.1 < myId ∧ connections[r.1]? = some none) →
    ∃ channels, merge myId results connections = .ok channels ∧
      (∀ r ∈ results, channels[r.1]? = some (some r.2)) ∧
      ∀ j, j ∉ results.map Prod.fst → channels[j]? = connections[j]?
  | [], connections, _, _ => ⟨connections, rfl, by simp, fun _ _ => rfl⟩
  | r :: results, connections, hnd, h => by
      rw [List.map_cons, List.nodup_cons] at hnd
      obtain ⟨hlt, hslot⟩ := h r List.mem_cons_self
      have hne : ∀ r' ∈ results, r.1 ≠ r'.1 := fun r' hr' heq => hnd.1 (heq ▸ List.mem_map_of_mem hr')
      have hrest : ∀ r' ∈ results, r'.1 < myId ∧ (connections.set r.1 (some r.2))[r'.1]? = some none := by
        intro r' hr'
        rw [List.getElem?_set_ne (hne r' hr')]
        exact h r' (List.mem_cons_of_mem _ hr')
      obtain ⟨channels, hmerge, hin, hout⟩ := merge_eq hnd.2 hrest
      refine ⟨channels, ?_, fun r' hr' => ?_, fun j hj => ?_⟩
      · simp only [merge, hlt, decide_true, Outcome.assert, if_true, Outcome.ok_bind, hslot, Option.isNone_none]
        exact hmerge
      · obtain rfl | hr' := List.mem_cons.mp hr'
        · rw [hout _ hnd.1, List.getElem?_set_self (List.getElem?_eq_some_iff.mp hslot).1]
        · exact hin r' hr'
      · rw [List.map_cons, List.mem_cons, not_or] at hj
        rw [hout j hj.2, List.getElem?_set_ne (Ne.symm hj.1)]

omit [ByteStream σ] in
theorem Table.exists_merge {results : List (ℕ × SecureStream σ)} (ht : Table prims myId identities ids connections)
    (hmy : myId < identities.length) (hfst : results.map Prod.fst = List.range myId) :
    ∃ channels, merge myId results connections = .ok channels ∧
      (∀ r ∈ results, channels[r.1]? = some (some r.2)) ∧ ∀ j, ¬j < myId → channels[j]? = connections[j]? := by
  have hmem : ∀ j, j ∈ results.map Prod.fst ↔ j < myId := fun j => by rw [hfst, List.mem_range]
  have hslots : ∀ r ∈ results, r.1 < myId ∧ connections[r.1]? = some none := by
    intro r hr
    have hlt : r.1 < myId := (hmem r.1).mp (List.mem_map_of_mem hr)
    refine ⟨hlt, ?_⟩
    have hempty : (connections[r.1]?.join).isSome ≠ true := fun hsome => by
      have := (ht.inRange r.1 ((ht.slots r.1).mp hsome)).1
      omega
    exact slot_eq_none (by rw [ht.length]; omega) hempty
  obtain ⟨channels, hmerge, hin, hout⟩ := merge_eq (hfst ▸ List.nodup_range) hslots
  exact ⟨channels, hmerge, hin, fun j hj => hout j fun h => hj ((hmem j).mp h)⟩

end connectors

/-! ### Complete meshes -/

/-- The connections that arrive at the party's own listener. -/
def Environment.incoming (env : Environment σ Address) (identities : List (NodeIdentity Address VerifyingKey))
    (myId : ℕ) : List (Except String (Connection σ)) :=
  match identities[myId]?.map fun me => env.bind me.address with
  | some (.ok incoming) => incoming
  | _ => []

omit [ByteStream σ] in
theorem Environment.incoming_eq {env : Environment σ Address} {me : NodeIdentity Address VerifyingKey}
    {incoming : List (Except String (Connection σ))} (hme : identities[myId]? = some me)
    (hbind : env.bind me.address = .ok incoming) : env.incoming identities myId = incoming := by
  simp only [Environment.incoming, hme, Option.map_some, hbind]

/-- No channel to the party itself, and to every other party one that was authenticated with its key. -/
structure MeshNetwork.IsComplete (prims : Primitives SigningKey VerifyingKey) (myId : ℕ)
    (identities : List (NodeIdentity Address VerifyingKey)) (net : MeshNetwork σ) : Prop where
  own : net.channel myId = none
  others : ∀ j identity, identities[j]? = some identity → j ≠ myId →
    ∃ s, net.channel j = some s ∧ Authenticated prims identity.publicKey s

variable {env : Environment σ Address} {net : MeshNetwork σ}

/-- A mesh that is returned has the channels that the listener has let in and those to the parties before. -/
theorem fromIdentities_eq_ok (h : fromIdentities prims myId mySecretKey identities env = .ok net) :
    myId < identities.length ∧ ∃ ids, List.Forall₂ (Passes prims myId mySecretKey identities)
      ((env.incoming identities myId).take (identities.length - 1 - myId)) ids ∧
      ids.length = identities.length - 1 - myId ∧ ids.Nodup ∧ (∀ id ∈ ids, myId ≤ id ∧ id < identities.length) ∧
      (∀ j, (net.channel j).isSome = true ↔ j < myId ∨ j ∈ ids) ∧
      ∀ j s, net.channel j = some s →
        ∃ identity, identities[j]? = some identity ∧ Authenticated prims identity.publicKey s := by
  unfold fromIdentities at h
  split at h
  · cases h
  · next me hme =>
      split at h
      · cases h
      · next incoming hbind =>
          have hincoming := Environment.incoming_eq hme hbind
          obtain ⟨handles, hhandles, h⟩ := Outcome.bind_eq_ok.mp h
          obtain ⟨⟨connections, results⟩, hboth, h⟩ := Outcome.bind_eq_ok.mp h
          obtain ⟨channels, hmerge, h⟩ := Outcome.bind_eq_ok.mp h
          obtain rfl := Outcome.ok.inj h
          obtain ⟨hlisten, hjoin⟩ := Outcome.both_eq_ok.mp hboth
          obtain ⟨ids, hall, hlen, ht⟩ := listen_eq_ok table_nil hlisten
          rw [List.nil_append] at ht
          rw [joinAll_eq_ok hjoin] at hhandles
          obtain ⟨hfst, hauth⟩ := connectorHandles_ok hhandles
          have hmy : myId < identities.length := (List.getElem?_eq_some_iff.mp hme).1
          obtain ⟨channels', hmerge', hin, hout⟩ := ht.exists_merge hmy hfst
          obtain rfl := Outcome.ok.inj (hmerge.symm.trans hmerge')
          have htarget : ∀ j < myId, ∃ r ∈ results, r.1 = j := by
            intro j hj
            rw [← List.mem_range, ← hfst] at hj
            exact List.mem_map.mp hj
          refine ⟨hmy, ids, hincoming ▸ hall, hlen, ht.nodup, ht.inRange, fun j => ?_, fun j s hs => ?_⟩
          · by_cases hj : j < myId
            · obtain ⟨r, hr, rfl⟩ := htarget j hj
              simp [MeshNetwork.channel, hin r hr, hj]
            · rw [MeshNetwork.channel, hout j hj, ht.slots]
              simp [hj]
          · by_cases hj : j < myId
            · obtain ⟨r, hr, rfl⟩ := htarget j hj
              rw [MeshNetwork.channel, hin r hr] at hs
              obtain rfl := Option.some.inj hs
              exact hauth r hr
            · rw [MeshNetwork.channel, hout j hj] at hs
              exact ht.authentic j s hs

/-- **The meshes that are complete.** -/
theorem isComplete_iff (h : fromIdentities prims myId mySecretKey identities env = .ok net) :
    net.IsComplete prims myId identities ↔
      ∀ conn, .ok conn ∈ (env.incoming identities myId).take (identities.length - 1 - myId) →
        claimedId conn ≠ some myId := by
  obtain ⟨hmy, ids, hall, hlen, hnd, hrange, hchannel, hauth⟩ := fromIdentities_eq_ok h
  have hself : myId ∉ ids ↔ ∀ conn, .ok conn ∈ (env.incoming identities myId).take (identities.length - 1 - myId) →
      claimedId conn ≠ some myId := by
    rw [mem_ids_iff hall, not_exists]
    simp only [not_and, ne_eq]
  rw [← hself]
  constructor
  · intro hcomplete hmem
    have := (hchannel myId).mpr (.inr hmem)
    rw [hcomplete.own] at this
    cases this
  · intro hnot
    -- the ids that were let in fill the range behind the party's own
    have hsub : ids ⊆ List.range' (myId + 1) (identities.length - 1 - myId) := by
      intro id hid
      obtain ⟨hle, hlt⟩ := hrange id hid
      have hne : id ≠ myId := by
        rintro rfl
        exact hnot hid
      rw [List.mem_range'_1]
      omega
    have hperm : ids.Perm (List.range' (myId + 1) (identities.length - 1 - myId)) := by
      refine (List.subperm_of_subset hnd hsub).perm_of_length_le ?_
      rw [List.length_range', hlen]
    refine ⟨?_, fun j identity hidentity hj => ?_⟩
    · cases hc : net.channel myId with
      | none => rfl
      | some s =>
          have := (hchannel myId).mp (by rw [hc]; rfl)
          obtain hlt | hmem := this
          · omega
          · exact absurd hmem hnot
    · have hlt : j < identities.length := (List.getElem?_eq_some_iff.mp hidentity).1
      have hsome : (net.channel j).isSome = true := by
        refine (hchannel j).mpr ?_
        rw [hperm.mem_iff, List.mem_range'_1]
        omega
      obtain ⟨s, hs⟩ := Option.isSome_iff_exists.mp hsome
      obtain ⟨identity', hidentity', hs'⟩ := hauth j s hs
      obtain rfl := Option.some.inj (hidentity.symm.trans hidentity')
      exact ⟨s, hs, hs'⟩

/-! ### A client that claims to be the party itself -/

/-- A stream that returns what is written to it. -/
structure Echo where
  unread : List UInt8

instance : ByteStream Echo where
  writeAll bytes echo := (.ok (), ⟨echo.unread ++ bytes⟩)
  readExact len echo :=
    if len ≤ echo.unread.length then (.ok (echo.unread.take len), ⟨echo.unread.drop len⟩) else (.hang, echo)

/-- Primitives in which a signature is the message with the key added to each byte. -/
def toyPrimitives : Primitives UInt8 UInt8 where
  publicKey secretBytes := secretBytes
  diffieHellman secretBytes peerPublic := secretBytes ++ peerPublic
  cipher _ := tagCipher
  sign key message := message.map (· + key)
  verify key message signature := signature == message.map (· + key)

/-- Two parties with different keys. -/
def twoParties : List (NodeIdentity Unit UInt8) := [⟨(), 1⟩, ⟨(), 2⟩]

/-- One client comes to the listener. -/
def oneClient (stream : σ) : Environment σ Unit where
  bind _ := .ok [.ok ⟨stream, List.replicate 32 5⟩]
  connect _ _ := []

/-- What the second party sends to the first. -/
def secondParty : Pipe :=
  ⟨beBytes 8 1 ++ List.replicate 32 9 ++ toyPrimitives.sign 2 (List.replicate 32 9 ++ List.replicate 32 5), []⟩

/-- The mesh of the first party with the second one. -/
def pairMesh : MeshNetwork Pipe :=
  ⟨0, 2, [none, some (.new
    ⟨[], List.replicate 32 5 ++ toyPrimitives.sign 1 (List.replicate 32 5 ++ List.replicate 32 9)⟩ tagCipher .listener)]⟩

theorem isComplete_iff_pair : pairMesh.IsComplete toyPrimitives 0 twoParties ↔
    ∀ conn, .ok conn ∈ ((oneClient secondParty).incoming twoParties 0).take 1 → claimedId conn ≠ some 0 :=
  isComplete_iff (rfl : fromIdentities toyPrimitives 0 1 twoParties (oneClient secondParty) = .ok pairMesh)

/-- A client that sends this id and then what it is sent. -/
def mirror (id : ℕ) : Echo := ⟨beBytes 8 id⟩

/-- The mesh of the first party when it has taken such a client for itself. -/
def selfMesh : MeshNetwork Echo := ⟨0, 2, [some (.new ⟨[]⟩ tagCipher .listener), none]⟩

/-- A client without a key passes with what it was sent, and the other party has no channel. -/
theorem not_isComplete_self : fromIdentities toyPrimitives 0 1 twoParties (oneClient (mirror 0)) = .ok selfMesh ∧
    ¬selfMesh.IsComplete toyPrimitives 0 twoParties := by
  refine ⟨rfl, fun h => ?_⟩
  have := h.own
  cases this

/-! ### Clients that are survived -/

theorem fromIdentities_eq_panic (hs : NeverPanics σ) {me : NodeIdentity Address VerifyingKey}
    {incoming : List (Except String (Connection σ))} (hme : identities[myId]? = some me)
    (hbind : env.bind me.address = .ok incoming) :
    fromIdentities prims myId mySecretKey identities env = .panic ↔
      listen prims myId mySecretKey identities (identities.length - 1 - myId) incoming
        (List.replicate identities.length none) = .panic := by
  have hmy : myId < identities.length := (List.getElem?_eq_some_iff.mp hme).1
  have htargets : ∀ t ∈ List.range myId, t < identities.length := fun t ht => by
    have := List.mem_range.mp ht
    omega
  obtain ⟨handles, hhandles, hnever⟩ := exists_connectorHandles prims myId mySecretKey env.connect hs htargets
  simp only [fromIdentities, hme, hbind, hhandles, Outcome.ok_bind]
  rw [Outcome.bind_eq_panic, Outcome.both_eq_panic]
  constructor
  · rintro ((h | h) | ⟨⟨connections, results⟩, hboth, h⟩)
    · exact h
    · exact absurd h (joinAll_ne_panic hnever)
    · obtain ⟨hlisten, hjoin⟩ := Outcome.both_eq_ok.mp hboth
      obtain ⟨ids, -, -, ht⟩ := listen_eq_ok table_nil hlisten
      rw [joinAll_eq_ok hjoin] at hhandles
      obtain ⟨channels, hmerge, -⟩ := ht.exists_merge hmy (connectorHandles_ok hhandles).1
      simp only [hmerge, Outcome.ok_bind] at h
      cases h
  · intro h
    exact .inl (.inl h)

/-- **The clients that do not make the set-up panic.** -/
theorem fromIdentities_ne_panic_iff (hs : NeverPanics σ) (hmy : myId < identities.length) :
    fromIdentities prims myId mySecretKey identities env ≠ .panic ↔
      ∀ k < identities.length - 1 - myId, ∀ ids,
        List.Forall₂ (Passes prims myId mySecretKey identities) ((env.incoming identities myId).take k) ids →
        ids.Nodup →
        ∀ conn id, (env.incoming identities myId)[k]? = some (.ok conn) → claimedId conn = some id →
          id < identities.length := by
  have hme : identities[myId]? = some identities[myId] := List.getElem?_eq_getElem hmy
  cases hbind : env.bind identities[myId].address with
  | error e =>
      have hincoming : env.incoming identities myId = [] := by
        simp only [Environment.incoming, hme, Option.map_some, hbind]
      rw [hincoming]
      simp [fromIdentities, hme, hbind]
  | ok incoming =>
      rw [ne_eq, fromIdentities_eq_panic hs hme hbind, listen_eq_panic hs table_nil,
        Environment.incoming_eq hme hbind]
      constructor
      · intro h k hk ids hall hnd conn id hconn hclaimed
        by_contra hge
        exact h ⟨k, hk, ids, hall, hnd, conn, id, hconn, hclaimed, not_lt.mp hge⟩
      · rintro h ⟨k, hk, ids, hall, hnd, conn, id, hconn, hclaimed, hge⟩
        exact absurd (h k hk ids hall hnd conn id hconn hclaimed) (not_lt.mpr hge)

theorem neverPanics_pipe : NeverPanics Pipe where
  writeAll bytes s := by simp [ByteStream.writeAll]
  readExact len s := by
    simp only [ByteStream.readExact]
    split <;> simp

theorem fromIdentities_ne_panic_pair : fromIdentities toyPrimitives 0 1 twoParties (oneClient secondParty) ≠ .panic ↔
    ∀ k < 1, ∀ ids,
      List.Forall₂ (Passes toyPrimitives 0 1 twoParties) (((oneClient secondParty).incoming twoParties 0).take k) ids →
      ids.Nodup → ∀ conn id, ((oneClient secondParty).incoming twoParties 0)[k]? = some (.ok conn) →
        claimedId conn = some id → id < 2 :=
  fromIdentities_ne_panic_iff neverPanics_pipe (by decide)

/-- A client that claims an id which no party has makes the set-up panic. -/
theorem fromIdentities_panic : fromIdentities toyPrimitives 0 1 twoParties (oneClient (mirror 2)) = .panic := rfl

end MpcCore
