import MpcCore.MeshMessages
import MpcCore.StreamConversation

/-! # The traffic of a mesh

The channels of all parties at once, over pipes that lose and reorder nothing.

* `Joined`: between any two parties lie the packets of some messages, in each direction.
* `Joined.sent`, `Joined.received`, `Joined.delivered`: what a party sends on some channels, or
  receives on some, and the bytes that travel, keep it.  The methods of `MeshNetwork` do no more.
* `Joined.objects_received`: objects that are sent and received one message at a time.
* `Traffic`: all methods at all parties and the bytes that travel, in any order.  `traffic`: from each
  party to each other the messages sent are those received and those on their way, in order. -/

namespace MpcCore

namespace MeshNetwork

open SecureStream (Carries departed reached u32Len tagLen)

variable {n : ℕ} {T : Type}

/-! ### What a bulk method that succeeds leaves -/

section settled

variable {σ : Type} [ByteStream σ] {net net' : MeshNetwork σ} {len : ℕ} {order : List ℕ}
  {toStdvec : List T → Except String (List UInt8)} {fromBytes : List UInt8 → Except String (List T)}

theorem sendObjectsMany_settled {requests : List (SendRequest T)}
    (hord : IsGroupOrder (requests.map SendRequest.toId) order)
    (h : SendObjectsMany toStdvec requests order net (.ok len) net') :
    (∀ p ∈ order, (net.done (startSend toStdvec requests) p).isSome = true) ∧
    net' = net.settled (startSend toStdvec requests) order ∧
    len = ((order.filterMap (net.done (startSend toStdvec requests))).map Transferred.len).sum := by
  have hnd : order.Nodup := hord.nodup_iff.mpr (List.nodup_dedup _)
  have hdone := BulkTransfer.done_of_ok hnd h
  have hpeers : ((order.filterMap (net.done (startSend toStdvec requests))).map Transferred.peer).Nodup := by
    rw [map_peer send_peer order hdone]
    exact hnd
  have hfinish := BulkTransfer.of_done hnd hdone h
  rw [finishSend_eq _ 0 _ hpeers fun d hd => slot_empty send_peer hd] at hfinish
  obtain ⟨hok, hnet⟩ := Prod.mk.inj hfinish
  refine ⟨hdone, hnet.symm, ?_⟩
  rw [← Outcome.ok.inj hok, Nat.zero_add]

theorem recvObjectsMany_settled {requests : List ReceiveRequest} {batches : List (List T)}
    (hord : IsGroupOrder (requests.map ReceiveRequest.fromId) order)
    (h : RecvObjectsMany fromBytes requests order net (.ok (batches, len)) net') :
    (∀ p ∈ order, (net.done (startRecv fromBytes requests) p).isSome = true) ∧
    net' = net.settled (startRecv fromBytes requests) order ∧
    len = ((order.filterMap (net.done (startRecv fromBytes requests))).map Transferred.len).sum ∧
    ∃ items : List (ReceiveRequest × List T), items.map Prod.fst = requests ∧ items.map Prod.snd = batches ∧
      (∀ item ∈ items, item.2.length = expectedCount item.1.count) ∧
      ∀ p ∈ order, ∃ c m c', net.channel p = some c ∧ ReceivesMessage fromBytes c (objectsFrom items p) m c' := by
  have hnd : order.Nodup := hord.nodup_iff.mpr (List.nodup_dedup _)
  have hdone := BulkTransfer.done_of_ok hnd h
  obtain ⟨items, hfst, hcount, hrecv⟩ := exists_items_of_done hord hdone
  obtain ⟨hok, hnet⟩ := (recvObjectsMany_eq hfst hcount hord hrecv).mp h
  obtain ⟨rfl, rfl⟩ := Prod.mk.inj (Outcome.ok.inj hok)
  exact ⟨hdone, hnet, rfl, items, hfst, rfl, hcount, hrecv⟩

end settled

/-! ### Tables and channels -/

/-- The messages on their way from one party to another. -/
abbrev Flight (n : ℕ) := Fin n → Fin n → List (List UInt8)

/-- The tables of the parties: each has a channel to every other, and the two ends of a channel carry
what is on its way. -/
structure Joined (nets : Fin n → MeshNetwork OpenPipe) (flight : Flight n) : Prop where
  myId : ∀ p, (nets p).myId = p
  nParties : ∀ p, (nets p).nParties = n
  length : ∀ p, (nets p).channels.length = n
  self : ∀ p, (nets p).channel p = none
  link : ∀ p q, p ≠ q → ∃ a b, (nets p).channel q = some a ∧ (nets q).channel p = some b ∧ IsAead a.cipher ∧
    Carries a b (flight p q)

variable {nets : Fin n → MeshNetwork OpenPipe} {flight flight' : Flight n} {p q : Fin n}
  {net' : MeshNetwork OpenPipe}

theorem Joined.both (h : Joined nets flight) (hpq : p ≠ q) :
    ∃ a b, (nets p).channel q = some a ∧ (nets q).channel p = some b ∧ IsAead a.cipher ∧ IsAead b.cipher ∧
      Carries a b (flight p q) ∧ Carries b a (flight q p) := by
  obtain ⟨a, b, ha, hb, haead, hab⟩ := h.link p q hpq
  obtain ⟨b', a', hb', ha', haead', hba⟩ := h.link q p hpq.symm
  obtain rfl := Option.some.inj (ha.symm.trans ha')
  obtain rfl := Option.some.inj (hb.symm.trans hb')
  exact ⟨a, b, ha, hb, haead, haead', hab, hba⟩

theorem Joined.ne_of_channel (h : Joined nets flight) {c : SecureStream OpenPipe} (hc : (nets p).channel q = some c) :
    p ≠ q := by
  rintro rfl
  rw [h.self p] at hc
  cases hc

/-- **One party moves**: its channels change, and with them what it has sent and received. -/
theorem Joined.update (h : Joined nets flight) (hmyId : net'.myId = (nets p).myId)
    (hnParties : net'.nParties = (nets p).nParties) (hlength : net'.channels.length = (nets p).channels.length)
    (hself : net'.channel p = none)
    (hlink : ∀ q, p ≠ q → ∀ a b, (nets p).channel q = some a → IsAead a.cipher → IsAead b.cipher →
      Carries a b (flight p q) → Carries b a (flight q p) →
      ∃ a', net'.channel q = some a' ∧ a'.cipher = a.cipher ∧ Carries a' b (flight' p q) ∧ Carries b a' (flight' q p))
    (hframe : ∀ x y, x ≠ p → y ≠ p → flight' x y = flight x y) :
    Joined (Function.update nets p net') flight' := by
  have hat : ∀ (P : Fin n → MeshNetwork OpenPipe → Prop), P p net' → (∀ x, P x (nets x)) →
      ∀ x, P x (Function.update nets p net' x) := by
    intro P hnew hold x
    by_cases hx : x = p
    · subst hx
      rwa [Function.update_self]
    · rw [Function.update_of_ne hx]
      exact hold x
  refine ⟨hat (fun x net => net.myId = x) (hmyId.trans (h.myId p)) h.myId,
    hat (fun _ net => net.nParties = n) (hnParties.trans (h.nParties p)) h.nParties,
    hat (fun _ net => net.channels.length = n) (hlength.trans (h.length p)) h.length,
    hat (fun x net => net.channel x = none) hself h.self, fun x y hxy => ?_⟩
  by_cases hx : x = p
  · subst hx
    obtain ⟨a, b, ha, hb, haead, haead', hab, hba⟩ := h.both hxy
    obtain ⟨a', ha', hcipher, hab', -⟩ := hlink y hxy a b ha haead haead' hab hba
    refine ⟨a', b, ?_, ?_, hcipher ▸ haead, hab'⟩
    · rwa [Function.update_self]
    · rwa [Function.update_of_ne hxy.symm]
  · by_cases hy : y = p
    · subst hy
      obtain ⟨a, b, ha, hb, haead, haead', hab, hba⟩ := h.both (Ne.symm hx)
      obtain ⟨a', ha', hcipher, -, hba'⟩ := hlink x (Ne.symm hx) a b ha haead haead' hab hba
      refine ⟨b, a', ?_, ?_, haead', hba'⟩
      · rwa [Function.update_of_ne hx]
      · rwa [Function.update_self]
    · obtain ⟨a, b, ha, hb, haead, hab⟩ := h.link x y hxy
      refine ⟨a, b, ?_, ?_, haead, ?_⟩
      · rwa [Function.update_of_ne hx]
      · rwa [Function.update_of_ne hy]
      · rwa [hframe x y hx hy]

/-- Messages from a party, at most one to each other party. -/
def Flight.push (flight : Flight n) (p : Fin n) (data : Fin n → Option (List UInt8)) : Flight n :=
  fun x y => if x = p then flight x y ++ (data y).toList else flight x y

/-- The first messages to a party from some others are taken. -/
def Flight.pop (flight : Flight n) (p : Fin n) (senders : Fin n → Bool) : Flight n :=
  fun x y => if y = p ∧ senders x = true then (flight x y).tail else flight x y

/-- **A party sends** one message on each of some channels. -/
theorem Joined.sent (h : Joined nets flight) (data : Fin n → Option (List UInt8)) (hmyId : net'.myId = (nets p).myId)
    (hnParties : net'.nParties = (nets p).nParties) (hlength : net'.channels.length = (nets p).channels.length)
    (hsent : ∀ q bytes, data q = some bytes → bytes.length + tagLen < 2 ^ 32 ∧ ∃ c m c', (nets p).channel q = some c ∧
      c.send bytes = (.ok m, c') ∧ net'.channel q = some c')
    (hother : ∀ q, data q = none → net'.channel q = (nets p).channel q) :
    Joined (Function.update nets p net') (flight.push p data) := by
  have hself : data p = none := by
    cases hp : data p with
    | none => rfl
    | some bytes =>
        obtain ⟨-, c, _, _, hc, -⟩ := hsent p bytes hp
        exact absurd rfl (h.ne_of_channel hc)
  refine h.update hmyId hnParties hlength ?_ (fun q hpq a b ha haead haead' hab hba => ?_) fun x y hx _ => ?_
  · rw [hother p hself, h.self p]
  · have hback : flight.push p data q p = flight q p := if_neg hpq.symm
    have hforth : flight.push p data p q = flight p q ++ (data q).toList := if_pos rfl
    rw [hback, hforth]
    cases hq : data q with
    | none =>
        refine ⟨a, ?_, rfl, ?_, hba⟩
        · rw [hother q hq, ha]
        · rwa [Option.toList_none, List.append_nil]
    | some bytes =>
        obtain ⟨hfits, c, m, c', hc, hsend, hc'⟩ := hsent q bytes hq
        obtain rfl := Option.some.inj (ha.symm.trans hc)
        obtain ⟨_, -, -, -, heq⟩ := SecureStream.send_pipe hsend
        exact ⟨c', hc', by rw [heq], hab.send hsend hfits, hba.of_send hsend⟩
  · exact if_neg hx

/-- **A party receives** one message on each of some channels. -/
theorem Joined.received (h : Joined nets flight) (senders : Fin n → Bool) (hmyId : net'.myId = (nets p).myId)
    (hnParties : net'.nParties = (nets p).nParties) (hlength : net'.channels.length = (nets p).channels.length)
    (hreceived : ∀ q, senders q = true → ∃ c r c', (nets p).channel q = some c ∧ c.recv = (r, c') ∧ r ≠ .hang ∧
      net'.channel q = some c')
    (hother : ∀ q, senders q = false → net'.channel q = (nets p).channel q) :
    Joined (Function.update nets p net') (flight.pop p senders) := by
  have hself : senders p = false := by
    cases hp : senders p with
    | false => rfl
    | true =>
        obtain ⟨c, _, _, hc, -⟩ := hreceived p hp
        exact absurd rfl (h.ne_of_channel hc)
  refine h.update hmyId hnParties hlength ?_ (fun q hpq a b ha haead haead' hab hba => ?_) fun x y _ hy => ?_
  · rw [hother p hself, h.self p]
  · have hforth : flight.pop p senders p q = flight p q := if_neg fun hq => hpq hq.1.symm
    rw [hforth]
    cases hq : senders q with
    | false =>
        have hback : flight.pop p senders q p = flight q p := if_neg (by simp [hq])
        rw [hback]
        exact ⟨a, by rw [hother q hq, ha], rfl, hab, hba⟩
    | true =>
        have hback : flight.pop p senders q p = (flight q p).tail := if_pos ⟨rfl, hq⟩
        obtain ⟨c, r, c', hc, hrecv, hr, hc'⟩ := hreceived q hq
        obtain rfl := Option.some.inj (ha.symm.trans hc)
        obtain ⟨data, rest, heq, -, hba'⟩ := hba.recv haead' hrecv hr
        rw [hback, heq]
        refine ⟨c', hc', ?_, hba.of_recv haead' hab hrecv hr, hba'⟩
        rw [hba'.cipher, hba.cipher]
  · exact if_neg fun hxy => hy hxy.1

/-- What a receive that returns has returned. -/
theorem Joined.recv (h : Joined nets flight) {c c' : SecureStream OpenPipe} {r : Outcome String (List UInt8 × ℕ)}
    (hc : (nets p).channel q = some c) (hrecv : c.recv = (r, c')) (hr : r ≠ .hang) :
    ∃ data rest, flight q p = data :: rest ∧ r = .ok (data, u32Len + (data.length + tagLen)) := by
  obtain ⟨a, b, ha, hb, -, haead', -, hba⟩ := h.both (h.ne_of_channel hc)
  obtain rfl := Option.some.inj (ha.symm.trans hc)
  obtain ⟨data, rest, heq, hok, -⟩ := hba.recv haead' hrecv hr
  exact ⟨data, rest, heq, hok⟩

/-- A receive returns when a message is on its way and all bytes have come in. -/
theorem Joined.recv_ready (h : Joined nets flight) {c : SecureStream OpenPipe} (hc : (nets p).channel q = some c)
    (hflight : flight q p ≠ []) (hall : ∀ b, (nets q).channel p = some b → b.inner.written = []) :
    ∃ received c', c.recv = (.ok received, c') := by
  obtain ⟨a, b, ha, hb, -, haead', -, hba⟩ := h.both (h.ne_of_channel hc)
  obtain rfl := Option.some.inj (ha.symm.trans hc)
  obtain ⟨data, rest, hcons⟩ := List.exists_cons_of_ne_nil hflight
  rw [hcons] at hba
  obtain ⟨c', hrecv⟩ := hba.recv_ready haead' (hall b hb)
  exact ⟨_, c', hrecv⟩

/-! ### The bytes that travel -/

section deliver

variable {a b a' b' : SecureStream OpenPipe}

/-- The tables with other streams at the two ends of a channel. -/
def relink (nets : Fin n → MeshNetwork OpenPipe) (p q : Fin n) (a b : SecureStream OpenPipe) :
    Fin n → MeshNetwork OpenPipe :=
  Function.update (Function.update nets p ((nets p).setChannel q a)) q ((nets q).setChannel p b)

theorem relink_cases (P : Fin n → MeshNetwork OpenPipe → Prop) (hold : ∀ x, P x (nets x))
    (hset : ∀ x y c, P x (nets x) → P x ((nets x).setChannel y c)) (x : Fin n) : P x (relink nets p q a b x) := by
  unfold relink
  by_cases hq : x = q
  · subst hq
    rw [Function.update_self]
    exact hset _ _ _ (hold _)
  · rw [Function.update_of_ne hq]
    by_cases hp : x = p
    · subst hp
      rw [Function.update_self]
      exact hset _ _ _ (hold _)
    · rw [Function.update_of_ne hp]
      exact hold x

theorem channel_relink (hlength : ∀ x, (nets x).channels.length = n) (hpq : p ≠ q) (x y : Fin n) :
    (relink nets p q a b x).channel y =
      if x = p ∧ y = q then some a else if x = q ∧ y = p then some b else (nets x).channel y := by
  have hlt : ∀ x y : Fin n, (y : ℕ) < (nets x).channels.length := fun x y => (hlength x).symm ▸ y.isLt
  unfold relink
  by_cases hq : x = q
  · subst hq
    rw [Function.update_self, if_neg fun h => hpq h.1.symm]
    by_cases hy : y = p
    · subst hy
      rw [if_pos ⟨rfl, rfl⟩, channel_setChannel_self (hlt _ _)]
    · rw [if_neg fun h => hy h.2, channel_setChannel_ne (Fin.val_ne_of_ne hy)]
  · rw [Function.update_of_ne hq, if_neg (c := x = q ∧ y = p) fun h => hq h.1]
    by_cases hp : x = p
    · subst hp
      rw [Function.update_self]
      by_cases hy : y = q
      · subst hy
        rw [if_pos ⟨rfl, rfl⟩, channel_setChannel_self (hlt _ _)]
      · rw [if_neg fun h => hy h.2, channel_setChannel_ne (Fin.val_ne_of_ne hy)]
    · rw [Function.update_of_ne hp, if_neg fun h => hp h.1]

theorem Joined.relink (h : Joined nets flight) (hpq : p ≠ q) (haead : IsAead a'.cipher) (haead' : IsAead b'.cipher)
    (hab : Carries a' b' (flight p q)) (hba : Carries b' a' (flight q p)) :
    Joined (relink nets p q a' b') flight := by
  have hchannel := channel_relink (a := a') (b := b') h.length hpq
  refine ⟨relink_cases (fun x net => net.myId = x) h.myId fun _ _ _ h => h,
    relink_cases (fun _ net => net.nParties = n) h.nParties fun _ _ _ h => h,
    relink_cases (fun _ net => net.channels.length = n) h.length fun _ _ _ h => ?_, fun x => ?_, fun x y hxy => ?_⟩
  · rwa [setChannel, List.length_set]
  · rw [hchannel, if_neg fun hx => hpq (hx.1.symm.trans hx.2), if_neg fun hx => hpq (hx.2.symm.trans hx.1), h.self]
  · by_cases hp : x = p ∧ y = q
    · obtain ⟨rfl, rfl⟩ := hp
      refine ⟨a', b', ?_, ?_, haead, hab⟩
      · rw [hchannel, if_pos ⟨rfl, rfl⟩]
      · rw [hchannel, if_neg fun hx => hpq hx.2, if_pos ⟨rfl, rfl⟩]
    · by_cases hq : x = q ∧ y = p
      · obtain ⟨rfl, rfl⟩ := hq
        refine ⟨b', a', ?_, ?_, haead', hba⟩
        · rw [hchannel, if_neg hp, if_pos ⟨rfl, rfl⟩]
        · rw [hchannel, if_pos ⟨rfl, rfl⟩]
      · obtain ⟨c, d, hc, hd, hcaead, hcd⟩ := h.link x y hxy
        refine ⟨c, d, ?_, ?_, hcaead, hcd⟩
        · rw [hchannel, if_neg hp, if_neg hq, hc]
        · rw [hchannel, if_neg fun hx => hq hx.symm, if_neg fun hx => hp hx.symm, hd]

/-- Some of the bytes from one party to another arrive. -/
def deliver (nets : Fin n → MeshNetwork OpenPipe) (p q : Fin n) (k : ℕ) : Fin n → MeshNetwork OpenPipe :=
  match (nets p).channel q, (nets q).channel p with
  | some a, some b => MeshNetwork.relink nets p q (departed k a) (reached (a.inner.written.take k) b)
  | _, _ => nets

theorem Joined.delivered (h : Joined nets flight) (p q : Fin n) (k : ℕ) : Joined (deliver nets p q k) flight := by
  by_cases hpq : p = q
  · subst hpq
    simp only [deliver, h.self]
    exact h
  · obtain ⟨a, b, ha, hb, haead, haead', hab, hba⟩ := h.both hpq
    simp only [deliver, ha, hb]
    exact h.relink hpq haead haead' (hab.deliver k) (hba.of_deliver k _)

end deliver

/-! ### The methods -/

section methods

variable {data : List UInt8} {len : ℕ} {toStdvec : List T → Except String (List UInt8)}
  {fromBytes : List UInt8 → Except String (List T)} {order : List ℕ}

theorem Joined.send (h : Joined nets flight) (hcall : send q data (nets p) = (.ok len, net'))
    (hfits : data.length + tagLen < 2 ^ 32) :
    Joined (Function.update nets p net') (flight.push p fun x => if x = q then some data else none) := by
  obtain ⟨c, c', -, hc, hsend, rfl⟩ := onChannel_eq_ok.mp hcall
  refine h.sent _ rfl rfl ?_ (fun x bytes hx => ?_) fun x hx => ?_
  · rw [setChannel, List.length_set]
  · by_cases hxq : x = q
    · subst hxq
      rw [if_pos rfl] at hx
      obtain rfl := Option.some.inj hx
      exact ⟨hfits, c, len, c', hc, hsend, channel_setChannel_self (lt_of_channel hc)⟩
    · rw [if_neg hxq] at hx
      cases hx
  · have hxq : x ≠ q := by
      rintro rfl
      rw [if_pos rfl] at hx
      cases hx
    exact channel_setChannel_ne (Fin.val_ne_of_ne hxq)

theorem Joined.recv_call (h : Joined nets flight) (hcall : MeshNetwork.recv q (nets p) = (.ok (data, len), net')) :
    Joined (Function.update nets p net') (flight.pop p fun x => x = q) := by
  obtain ⟨c, c', -, hc, hrecv, rfl⟩ := onChannel_eq_ok.mp hcall
  refine h.received _ rfl rfl ?_ (fun x hx => ?_) fun x hx => ?_
  · rw [setChannel, List.length_set]
  · obtain rfl := of_decide_eq_true hx
    exact ⟨c, _, c', hc, hrecv, by simp, channel_setChannel_self (lt_of_channel hc)⟩
  · exact channel_setChannel_ne (Fin.val_ne_of_ne (of_decide_eq_false hx))

theorem Joined.recv_returns (h : Joined nets flight) (hpq : p ≠ q) {r : Outcome String (List UInt8 × ℕ)}
    (hcall : MeshNetwork.recv q (nets p) = (r, net')) (hr : r ≠ .hang) :
    ∃ data rest, flight q p = data :: rest ∧ r = .ok (data, u32Len + (data.length + tagLen)) := by
  obtain ⟨a, _, ha, -⟩ := h.link p q hpq
  have hlt : (q : ℕ) < (nets p).nParties := (h.nParties p).symm ▸ q.isLt
  rcases hrecv : a.recv with ⟨received, a'⟩
  rw [MeshNetwork.recv, onChannel_open hlt ha, hrecv] at hcall
  obtain ⟨rfl, -⟩ := Prod.mk.inj hcall
  have hhang : received ≠ .hang := by
    rintro rfl
    exact hr rfl
  obtain ⟨data, rest, heq, rfl⟩ := h.recv ha hrecv hhang
  exact ⟨data, rest, heq, rfl⟩

/-! Objects. -/

/-- `send_objects`: their bytes are one more message. -/
theorem Joined.sendObjects (h : Joined nets flight) {objs : List T}
    (hcall : MeshNetwork.sendObjects toStdvec q objs (nets p) = (.ok len, net'))
    (hfits : ∀ bytes, toStdvec objs = .ok bytes → bytes.length + tagLen < 2 ^ 32) :
    ∃ bytes, toStdvec objs = .ok bytes ∧ len = u32Len + (bytes.length + tagLen) ∧
      Joined (Function.update nets p net') (flight.push p fun x => if x = q then some bytes else none) := by
  unfold MeshNetwork.sendObjects at hcall
  cases hbytes : toStdvec objs with
  | error e =>
      rw [hbytes] at hcall
      cases (Prod.mk.inj hcall).1
  | ok bytes =>
      rw [hbytes] at hcall
      obtain ⟨_, _, -, -, hsend, -⟩ := onChannel_eq_ok.mp hcall
      obtain ⟨_, _, -, -, -, hlen, -⟩ := SecureStream.send_eq_ok hsend
      exact ⟨bytes, rfl, hlen, h.send hcall (hfits bytes hbytes)⟩

/-- `recv_objects`: it takes the first message, whatever it makes of it, and returns its objects when they are as
many as asked for. -/
theorem Joined.recvObjects (h : Joined nets flight) (hpq : p ≠ q) {count : Option ℕ} {r : Outcome String (List T × ℕ)}
    (hcall : MeshNetwork.recvObjects fromBytes q count (nets p) = (r, net')) (hr : r ≠ .hang) :
    ∃ bytes rest, flight q p = bytes :: rest ∧ Joined (Function.update nets p net') (flight.pop p fun x => x = q) ∧
      ((∃ objs, fromBytes bytes = .ok objs ∧ (∀ k ∈ count, k = objs.length) ∧
          r = .ok (objs, u32Len + (bytes.length + tagLen))) ∨
        (∀ objs, fromBytes bytes = .ok objs → ∃ k ∈ count, k ≠ objs.length) ∧ ∃ e, r = .err e) := by
  obtain ⟨⟨bytes, recvLen⟩, net₁, hrecv, hrest⟩ | ⟨r₁, hrecv, hfails⟩ := Act.bind_cases hcall
  · obtain ⟨_, rest, hflight, hok⟩ := h.recv_returns hpq hrecv (by simp)
    obtain ⟨rfl, rfl⟩ := Prod.mk.inj (Outcome.ok.inj hok)
    have hjoined := h.recv_call hrecv
    dsimp only at hrest
    cases hread : fromBytes bytes with
    | error e =>
        rw [hread] at hrest
        obtain ⟨rfl, rfl⟩ := Prod.mk.inj hrest
        refine ⟨bytes, rest, hflight, hjoined, .inr ⟨fun objs hobjs => ?_, _, rfl⟩⟩
        rw [hread] at hobjs
        cases hobjs
    | ok objs =>
        rw [hread] at hrest
        cases count with
        | none =>
            obtain ⟨rfl, rfl⟩ := Prod.mk.inj hrest
            exact ⟨bytes, rest, hflight, hjoined, .inl ⟨objs, hread, by simp, rfl⟩⟩
        | some k =>
            by_cases hk : k = objs.length
            · simp only [hk, ne_eq, not_true_eq_false, if_false] at hrest
              obtain ⟨rfl, rfl⟩ := Prod.mk.inj hrest
              exact ⟨bytes, rest, hflight, hjoined, .inl ⟨objs, hread, by simpa using hk, rfl⟩⟩
            · simp only [if_pos (Ne.symm hk)] at hrest
              obtain ⟨rfl, rfl⟩ := Prod.mk.inj hrest
              refine ⟨bytes, rest, hflight, hjoined, .inr ⟨fun objs' hobjs => ⟨k, rfl, ?_⟩, _, rfl⟩⟩
              obtain rfl := Except.ok.inj (hread.symm.trans hobjs)
              exact hk
  · obtain ⟨_, _, -, rfl⟩ := h.recv_returns hpq hrecv (hfails.ne_hang hr)
    exact absurd hfails Outcome.not_fails_ok

theorem Joined.recvObject_ne_panic (h : Joined nets flight) (hpq : p ≠ q) :
    (recvObject fromBytes q (nets p)).1 ≠ .panic := by
  rcases hcall : MeshNetwork.recvObjects fromBytes q (some 1) (nets p) with ⟨r, net'⟩
  have hcases := fun hr => h.recvObjects hpq hcall hr
  rw [recvObject, Act.bind, hcall]
  cases r with
  | ok received =>
      obtain ⟨bytes, _, -, -, ⟨objs, -, hone, hok⟩ | ⟨-, e, herr⟩⟩ := hcases (by simp)
      · obtain rfl := Outcome.ok.inj hok
        obtain ⟨obj, rfl⟩ := List.length_eq_one_iff.mp (hone 1 rfl).symm
        simp [Act.bind]
      · cases herr
  | err e => simp
  | panic =>
      obtain ⟨_, _, -, -, ⟨_, -, -, hok⟩ | ⟨-, _, herr⟩⟩ := hcases (by simp)
      · cases hok
      · cases herr
  | hang => simp

/-- **Objects arrive as they were sent**, when their bytes can be read back and nothing else is on its way. -/
theorem Joined.objects_received (h : Joined nets flight) (hpq : p ≠ q) (hempty : flight p q = []) {objs : List T}
    (hsend : MeshNetwork.sendObjects toStdvec q objs (nets p) = (.ok len, net'))
    (hfits : ∀ bytes, toStdvec objs = .ok bytes → bytes.length + tagLen < 2 ^ 32)
    (hback : ∀ bytes, toStdvec objs = .ok bytes → fromBytes bytes = .ok objs) (k : ℕ) {count : Option ℕ}
    (hcount : ∀ k ∈ count, k = objs.length) {r : Outcome String (List T × ℕ)} {net₂ : MeshNetwork OpenPipe}
    (hrecv : MeshNetwork.recvObjects fromBytes p count (deliver (Function.update nets p net') p q k q) = (r, net₂))
    (hr : r ≠ .hang) : r = .ok (objs, len) := by
  obtain ⟨bytes, hbytes, rfl, hsent⟩ := h.sendObjects hsend hfits
  obtain ⟨first, rest, hflight, -, hend⟩ := (hsent.delivered p q k).recvObjects hpq.symm hrecv hr
  obtain rfl : first = bytes := by
    simp only [Flight.push, if_pos, hempty, List.nil_append] at hflight
    exact (List.cons.inj hflight).1.symm
  obtain ⟨objs', hread, -, rfl⟩ | ⟨hne, -⟩ := hend
  · rw [hback first hbytes] at hread
    rw [Except.ok.inj hread]
  · obtain ⟨k, hk, hkne⟩ := hne objs (hback first hbytes)
    exact absurd (hcount k hk) hkne

theorem Joined.object_received (h : Joined nets flight) (hpq : p ≠ q) (hempty : flight p q = []) {obj : T}
    (hsend : MeshNetwork.sendObject toStdvec q obj (nets p) = (.ok len, net'))
    (hfits : ∀ bytes, toStdvec [obj] = .ok bytes → bytes.length + tagLen < 2 ^ 32)
    (hback : ∀ bytes, toStdvec [obj] = .ok bytes → fromBytes bytes = .ok [obj]) (k : ℕ) {r : Outcome String (T × ℕ)}
    {net₂ : MeshNetwork OpenPipe}
    (hrecv : MeshNetwork.recvObject fromBytes p (deliver (Function.update nets p net') p q k q) = (r, net₂))
    (hr : r ≠ .hang) : r = .ok (obj, len) := by
  obtain ⟨received, net₁, hobjs, hrest⟩ | ⟨r₁, hobjs, hfails⟩ := Act.bind_cases hrecv
  · obtain rfl := Outcome.ok.inj (h.objects_received hpq hempty hsend hfits hback k (by simp) hobjs (by simp))
    exact (Prod.mk.inj hrest).1.symm
  · obtain rfl := h.objects_received hpq hempty hsend hfits hback k (by simp) hobjs (hfails.ne_hang hr)
    exact absurd hfails Outcome.not_fails_ok

theorem Joined.broadcast (h : Joined nets flight) (hcall : broadcast data (nets p) = (.ok len, net'))
    (hfits : data.length + tagLen < 2 ^ 32) :
    Joined (Function.update nets p net') (flight.push p fun x => if x = p then none else some data) := by
  rw [MeshNetwork.broadcast, Act.read_bind] at hcall
  obtain ⟨_, -, -, hsent⟩ | ⟨_, _, _, _, -, -, -, hne, -⟩ := broadcastTo_cases _ 0 _ List.nodup_range hcall
  · have hmem : ∀ x : Fin n, (x : ℕ) ∈ (List.range (nets p).nParties).filter (· ≠ (nets p).myId) ↔ x ≠ p := by
      intro x
      rw [List.mem_filter, List.mem_range, h.nParties, h.myId, decide_eq_true_eq, Fin.val_ne_iff]
      exact and_iff_right x.isLt
    refine h.sent _ hsent.myId hsent.nParties hsent.length (fun x bytes hx => ?_) fun x hx => ?_
    · have hxp : x ≠ p := by
        rintro rfl
        rw [if_pos rfl] at hx
        cases hx
      rw [if_neg hxp] at hx
      obtain rfl := Option.some.inj hx
      obtain ⟨c, m, c', -, hc, hsend, hc'⟩ := hsent.sent x ((hmem x).mpr hxp)
      exact ⟨hfits, c, m, c', hc, hsend, hc'⟩
    · refine hsent.other x fun hx' => ?_
      rw [if_neg ((hmem x).mp hx')] at hx
      cases hx
  · exact absurd rfl (hne len)

/-- The message for one peer in a bulk send. -/
def groupBytes (toStdvec : List T → Except String (List UInt8)) (requests : List (SendRequest T)) (peer : ℕ) :
    Option (List UInt8) :=
  if peer ∈ requests.map SendRequest.toId then (toStdvec (dataTo requests peer)).toOption else none

theorem Joined.sendObjectsMany {requests : List (SendRequest T)} (h : Joined nets flight)
    (hord : IsGroupOrder (requests.map SendRequest.toId) order)
    (hcall : SendObjectsMany toStdvec requests order (nets p) (.ok len) net')
    (hfits : ∀ x bytes, groupBytes toStdvec requests x = some bytes → bytes.length + tagLen < 2 ^ 32) :
    Joined (Function.update nets p net') (flight.push p fun x => groupBytes toStdvec requests x) := by
  have hmem : ∀ x, x ∈ order ↔ x ∈ requests.map SendRequest.toId := fun x => hord.mem_iff.trans List.mem_dedup
  obtain ⟨hdone, rfl, -⟩ := sendObjectsMany_settled hord hcall
  refine h.sent _ rfl rfl ?_ (fun x bytes hx => ⟨hfits x bytes hx, ?_⟩) fun x hx => ?_
  · rw [settled, restore_length, without_length]
  · unfold groupBytes at hx
    split at hx
    · next hnamed =>
        obtain ⟨d, hd⟩ := Option.isSome_iff_exists.mp (hdone x ((hmem x).mpr hnamed))
        obtain ⟨c, hc, ht⟩ := task_eq_some.mp (done_eq_some.mp hd)
        obtain ⟨bytes', hbytes, hsend, -⟩ := startSend_eq_ok.mp ht
        rw [hbytes] at hx
        obtain rfl := Option.some.inj hx
        exact ⟨c, d.len, d.channel, hc, hsend,
          channel_settled send_peer (hord.nodup_iff.mpr (List.nodup_dedup _)) hdone ((hmem x).mpr hnamed) hd⟩
    · cases hx
  · refine channel_settled_ne send_peer hdone fun hx' => ?_
    obtain ⟨d, hd⟩ := Option.isSome_iff_exists.mp (hdone x hx')
    obtain ⟨c, hc, ht⟩ := task_eq_some.mp (done_eq_some.mp hd)
    obtain ⟨bytes, hbytes, -⟩ := startSend_eq_ok.mp ht
    rw [groupBytes, if_pos ((hmem x).mp hx'), hbytes] at hx
    cases hx

theorem Joined.recvObjectsMany {requests : List ReceiveRequest} {batches : List (List T)} (h : Joined nets flight)
    (hord : IsGroupOrder (requests.map ReceiveRequest.fromId) order)
    (hcall : RecvObjectsMany fromBytes requests order (nets p) (.ok (batches, len)) net') :
    Joined (Function.update nets p net') (flight.pop p fun x => (x : ℕ) ∈ requests.map ReceiveRequest.fromId) := by
  have hmem : ∀ x, x ∈ order ↔ x ∈ requests.map ReceiveRequest.fromId := fun x => hord.mem_iff.trans List.mem_dedup
  obtain ⟨hdone, rfl, -⟩ := recvObjectsMany_settled hord hcall
  refine h.received _ rfl rfl ?_ (fun x hx => ?_) fun x hx => ?_
  · rw [settled, restore_length, without_length]
  · have hnamed := (hmem x).mpr (of_decide_eq_true hx)
    obtain ⟨d, hd⟩ := Option.isSome_iff_exists.mp (hdone x hnamed)
    obtain ⟨c, objects, hc, ⟨data, hrecv, -⟩, -⟩ := recv_done.mp hd
    exact ⟨c, _, d.channel, hc, hrecv, by simp,
      channel_settled recv_peer (hord.nodup_iff.mpr (List.nodup_dedup _)) hdone hnamed hd⟩
  · exact channel_settled_ne recv_peer hdone fun hx' => of_decide_eq_false hx ((hmem x).mp hx')

end methods

/-! ### Any order of calls -/

/-- The tables of parties that have set up the mesh: every two share a key, and the one with the smaller
id has listened. -/
def established (key : Fin n → Fin n → Cipher) (p : Fin n) : MeshNetwork OpenPipe :=
  ⟨p, n, (List.finRange n).map fun q =>
    if q = p then none else some (.new ⟨[], []⟩ (key p q) (if p < q then .listener else .initiator))⟩

theorem channel_established (key : Fin n → Fin n → Cipher) (p q : Fin n) : (established key p).channel q =
    if q = p then none else some (.new ⟨[], []⟩ (key p q) (if p < q then .listener else .initiator)) := by
  have hget : (List.finRange n)[(q : ℕ)]? = some q := by
    rw [List.getElem?_eq_getElem (by simp), List.getElem_finRange]
    rfl
  rw [channel, established, List.getElem?_map, hget]
  rfl

theorem joined_established {key : Fin n → Fin n → Cipher} (hkey : ∀ p q, key p q = key q p)
    (haead : ∀ p q, IsAead (key p q)) : Joined (established key) fun _ _ => [] := by
  refine ⟨fun _ => rfl, fun _ => rfl, fun _ => by simp [established], fun p => ?_, fun p q hpq => ?_⟩
  · rw [channel_established, if_pos rfl]
  · refine ⟨_, _, ?_, ?_, haead p q, SecureStream.carries_new (key p q) (if p < q then .listener else .initiator)⟩
    · rw [channel_established, if_neg hpq.symm]
    · rw [channel_established, if_neg hpq, hkey q p]
      obtain hlt | hlt := lt_or_gt_of_ne hpq
      · rw [if_pos hlt, if_neg hlt.asymm, SecureStream.peer]
      · rw [if_neg hlt.asymm, if_pos hlt, SecureStream.peer]

/-- Messages that a party has received, at most one more from each other party. -/
def Flight.taken (received : Flight n) (p : Fin n) (data : Fin n → Option (List UInt8)) : Flight n :=
  fun x y => if y = p then received x y ++ (data x).toList else received x y

/-- The message that the next receive from a peer returns. -/
def nextMessage (net : MeshNetwork OpenPipe) (peer : ℕ) : Option (List UInt8) :=
  (net.channel peer).bind fun c => match c.recv.1 with
    | .ok (data, _) => some data
    | _ => none

/-- Calls that succeed, at any parties, and bytes that travel, in any order: the messages sent and received
so far.  Every message fits the header. -/
inductive Traffic (toStdvec : List T → Except String (List UInt8)) (fromBytes : List UInt8 → Except String (List T))
    (start : Fin n → MeshNetwork OpenPipe) : Flight n → Flight n → (Fin n → MeshNetwork OpenPipe) → Prop where
  | start : Traffic toStdvec fromBytes start (fun _ _ => []) (fun _ _ => []) start
  | send {sent received : Flight n} {nets : Fin n → MeshNetwork OpenPipe} {net' : MeshNetwork OpenPipe} {p q : Fin n}
      {data : List UInt8} {len : ℕ} (h : Traffic toStdvec fromBytes start sent received nets)
      (hcall : send q data (nets p) = (.ok len, net')) (hfits : data.length + tagLen < 2 ^ 32) :
      Traffic toStdvec fromBytes start (sent.push p fun x => if x = q then some data else none) received
        (Function.update nets p net')
  | broadcast {sent received : Flight n} {nets : Fin n → MeshNetwork OpenPipe} {net' : MeshNetwork OpenPipe} {p : Fin n}
      {data : List UInt8} {len : ℕ} (h : Traffic toStdvec fromBytes start sent received nets)
      (hcall : broadcast data (nets p) = (.ok len, net')) (hfits : data.length + tagLen < 2 ^ 32) :
      Traffic toStdvec fromBytes start (sent.push p fun x => if x = p then none else some data) received
        (Function.update nets p net')
  | sendObjectsMany {sent received : Flight n} {nets : Fin n → MeshNetwork OpenPipe} {net' : MeshNetwork OpenPipe}
      {p : Fin n} {requests : List (SendRequest T)} {order : List ℕ} {len : ℕ}
      (h : Traffic toStdvec fromBytes start sent received nets)
      (hord : IsGroupOrder (requests.map SendRequest.toId) order)
      (hcall : SendObjectsMany toStdvec requests order (nets p) (.ok len) net')
      (hfits : ∀ x bytes, groupBytes toStdvec requests x = some bytes → bytes.length + tagLen < 2 ^ 32) :
      Traffic toStdvec fromBytes start (sent.push p fun x => groupBytes toStdvec requests x) received
        (Function.update nets p net')
  | recv {sent received : Flight n} {nets : Fin n → MeshNetwork OpenPipe} {net' : MeshNetwork OpenPipe} {p q : Fin n}
      {data : List UInt8} {len : ℕ} (h : Traffic toStdvec fromBytes start sent received nets)
      (hcall : MeshNetwork.recv q (nets p) = (.ok (data, len), net')) :
      Traffic toStdvec fromBytes start sent (received.taken p fun x => if x = q then some data else none)
        (Function.update nets p net')
  | recvObjectsMany {sent received : Flight n} {nets : Fin n → MeshNetwork OpenPipe} {net' : MeshNetwork OpenPipe}
      {p : Fin n} {requests : List ReceiveRequest} {order : List ℕ} {batches : List (List T)} {len : ℕ}
      (h : Traffic toStdvec fromBytes start sent received nets)
      (hord : IsGroupOrder (requests.map ReceiveRequest.fromId) order)
      (hcall : RecvObjectsMany fromBytes requests order (nets p) (.ok (batches, len)) net') :
      Traffic toStdvec fromBytes start sent
        (received.taken p fun x => if (x : ℕ) ∈ requests.map ReceiveRequest.fromId then (nets p).nextMessage x else none)
        (Function.update nets p net')
  | deliver {sent received : Flight n} {nets : Fin n → MeshNetwork OpenPipe} (p q : Fin n) (k : ℕ)
      (h : Traffic toStdvec fromBytes start sent received nets) :
      Traffic toStdvec fromBytes start sent received (deliver nets p q k)

section traffic

variable {sent received : Flight n} {data : Fin n → Option (List UInt8)} {senders : Fin n → Bool}

theorem Flight.push_append (h : ∀ x y, sent x y = received x y ++ flight x y) (x y : Fin n) :
    sent.push p data x y = received x y ++ flight.push p data x y := by
  unfold Flight.push
  by_cases hx : x = p
  · rw [if_pos hx, if_pos hx, h, List.append_assoc]
  · rw [if_neg hx, if_neg hx, h]

theorem Flight.taken_append (h : ∀ x y, sent x y = received x y ++ flight x y)
    (htaken : ∀ x, (senders x = true ∧ ∃ bytes rest, data x = some bytes ∧ flight x p = bytes :: rest) ∨
      senders x = false ∧ data x = none) (x y : Fin n) :
    sent x y = received.taken p data x y ++ flight.pop p senders x y := by
  unfold Flight.taken Flight.pop
  rw [h]
  by_cases hy : y = p
  · subst hy
    rw [if_pos rfl]
    obtain ⟨hx, bytes, rest, hdata, hflight⟩ | ⟨hx, hdata⟩ := htaken x
    · rw [if_pos ⟨rfl, hx⟩, hdata, hflight]
      simp
    · rw [if_neg (by simp [hx]), hdata]
      simp
  · rw [if_neg hy, if_neg fun hy' => hy hy'.1]

/-- The next message from a peer is the first on its way, where a receive from it returns. -/
theorem Joined.nextMessage (h : Joined nets flight) {c c' : SecureStream OpenPipe}
    {r : Outcome String (List UInt8 × ℕ)} (hc : (nets p).channel q = some c) (hrecv : c.recv = (r, c')) (hr : r ≠ .hang) :
    ∃ bytes rest, (nets p).nextMessage q = some bytes ∧ flight q p = bytes :: rest := by
  obtain ⟨bytes, rest, hflight, hok⟩ := h.recv hc hrecv hr
  refine ⟨bytes, rest, ?_, hflight⟩
  rw [MeshNetwork.nextMessage, hc, Option.bind_some, hrecv, hok]

theorem Traffic.joined {toStdvec : List T → Except String (List UInt8)}
    {fromBytes : List UInt8 → Except String (List T)} {start : Fin n → MeshNetwork OpenPipe}
    (hstart : Joined start fun _ _ => []) (h : Traffic toStdvec fromBytes start sent received nets) :
    ∃ flight, Joined nets flight ∧ ∀ p q, sent p q = received p q ++ flight p q := by
  induction h with
  | start => exact ⟨_, hstart, fun _ _ => rfl⟩
  | send _ hcall hfits ih =>
      obtain ⟨flight, hjoined, hsent⟩ := ih
      exact ⟨_, hjoined.send hcall hfits, Flight.push_append hsent⟩
  | broadcast _ hcall hfits ih =>
      obtain ⟨flight, hjoined, hsent⟩ := ih
      exact ⟨_, hjoined.broadcast hcall hfits, Flight.push_append hsent⟩
  | sendObjectsMany _ hord hcall hfits ih =>
      obtain ⟨flight, hjoined, hsent⟩ := ih
      exact ⟨_, hjoined.sendObjectsMany hord hcall hfits, Flight.push_append hsent⟩
  | @recv _ _ nets _ p q data _ _ hcall ih =>
      obtain ⟨flight, hjoined, hsent⟩ := ih
      refine ⟨_, hjoined.recv_call hcall, Flight.taken_append hsent fun x => ?_⟩
      by_cases hx : x = q
      · subst hx
        left
        obtain ⟨c, c', -, hc, hrecv, -⟩ := onChannel_eq_ok.mp hcall
        obtain ⟨bytes, rest, hflight, hok⟩ := hjoined.recv hc hrecv (by simp)
        obtain ⟨rfl, -⟩ := Prod.mk.inj (Outcome.ok.inj hok)
        exact ⟨decide_eq_true rfl, data, rest, if_pos rfl, hflight⟩
      · exact .inr ⟨decide_eq_false hx, if_neg hx⟩
  | @recvObjectsMany _ _ nets _ p requests order _ _ _ hord hcall ih =>
      obtain ⟨flight, hjoined, hsent⟩ := ih
      refine ⟨_, hjoined.recvObjectsMany hord hcall, Flight.taken_append hsent fun x => ?_⟩
      obtain ⟨hdone, -⟩ := recvObjectsMany_settled hord hcall
      by_cases hx : (x : ℕ) ∈ requests.map ReceiveRequest.fromId
      · left
        obtain ⟨d, hd⟩ := Option.isSome_iff_exists.mp (hdone x (hord.mem_iff.mpr (List.mem_dedup.mpr hx)))
        obtain ⟨c, objects, hc, ⟨data, hrecv, -⟩, -⟩ := recv_done.mp hd
        obtain ⟨bytes, rest, hnext, hflight⟩ := hjoined.nextMessage hc hrecv (by simp)
        exact ⟨decide_eq_true hx, bytes, rest, (if_pos hx).trans hnext, hflight⟩
      · exact .inr ⟨decide_eq_false hx, if_neg hx⟩
  | deliver p q k _ ih =>
      obtain ⟨flight, hjoined, hsent⟩ := ih
      exact ⟨flight, hjoined.delivered p q k, hsent⟩

/-- One party has broadcast a byte, and its packet has reached another. -/
def greeted (p q : Fin n) : Fin n → MeshNetwork OpenPipe :=
  deliver (Function.update (established fun _ _ => tagCipher) p
    (MeshNetwork.broadcast [7] (established (fun _ _ => tagCipher) p)).2) p q 21

end traffic

end MeshNetwork

end MpcCore
