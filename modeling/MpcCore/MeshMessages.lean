import MpcCore.MeshReceive
import MpcCore.StreamFraming

/-! # Single messages

The methods of `MeshNetwork` that send or receive one message, and the provided methods of the
`Network` trait over them.

* A call on the channel of a peer leaves the channel in the table, however it ends.
* `toStdvec` and `fromBytes` stand for `postcard`.
* `broadcastTo_cases`: a broadcast has sent its data to all other parties, or to those before the first
  one for which it fails, and it touches no other channel. -/

namespace MpcCore

namespace MeshNetwork

variable {σ T α : Type}

/-! ### Point-to-point methods -/

/-- `get_channel_mut`. -/
def getChannelMut (target : ℕ) : Act (MeshNetwork σ) String (SecureStream σ) := fun net =>
  (if net.nParties ≤ target then .err "Invalid Party ID"
    else match net.channels[target]? with
      | some (some conn) => .ok conn
      | some none => .err s!"No connection to Node {target} (or target is self)"
      | none => .panic, net)

/-- A call on the channel to a peer, with the text for its error. -/
def onChannel (target : ℕ) (text : String → String) (call : Act (SecureStream σ) String α) :
    Act (MeshNetwork σ) String α :=
  (getChannelMut target).bind fun channel net =>
    let (r, channel) := call channel
    (r.mapErr text, { net with channels := net.channels.set target (some channel) })

section

variable [ByteStream σ]

/-- `send`. -/
def send (toId : ℕ) (data : List UInt8) : Act (MeshNetwork σ) String ℕ :=
  let len := data.length
  onChannel toId (fun e => s!"Failed to send {len} bytes to {toId}: {e}") (SecureStream.send data)

/-- `recv`. -/
def recv (fromId : ℕ) : Act (MeshNetwork σ) String (List UInt8 × ℕ) :=
  onChannel fromId (fun e => s!"Failed to receive from {fromId}: {e}") SecureStream.recv

/-- The loop of `broadcast`. -/
def broadcastTo (data : List UInt8) : List ℕ → ℕ → Act (MeshNetwork σ) String ℕ
  | [], totalBytesSent => .ret (.ok totalBytesSent)
  | toId :: rest, totalBytesSent =>
      (Act.read myId).bind fun myId =>
        if toId = myId then broadcastTo data rest totalBytesSent
        else (send toId data).bind fun len => broadcastTo data rest (totalBytesSent + len)

/-- `broadcast`. -/
def broadcast (data : List UInt8) : Act (MeshNetwork σ) String ℕ :=
  (Act.read nParties).bind fun nParties => broadcastTo data (List.range nParties) 0

/-! ### Provided methods -/

/-- `send_objects`. -/
def sendObjects (toStdvec : List T → Except String (List UInt8)) (toId : ℕ) (objs : List T) :
    Act (MeshNetwork σ) String ℕ :=
  match toStdvec objs with
  | .error e => .ret (.err e)
  | .ok bytes => send toId bytes

/-- `send_object`. -/
def sendObject (toStdvec : List T → Except String (List UInt8)) (toId : ℕ) (obj : T) :
    Act (MeshNetwork σ) String ℕ :=
  sendObjects toStdvec toId [obj]

/-- `broadcast_objects`. -/
def broadcastObjects (toStdvec : List T → Except String (List UInt8)) (objs : List T) :
    Act (MeshNetwork σ) String ℕ :=
  match toStdvec objs with
  | .error e => .ret (.err e)
  | .ok data => broadcast data

/-- `broadcast_object`. -/
def broadcastObject (toStdvec : List T → Except String (List UInt8)) (obj : T) : Act (MeshNetwork σ) String ℕ :=
  broadcastObjects toStdvec [obj]

/-- `recv_objects`. -/
def recvObjects (fromBytes : List UInt8 → Except String (List T)) (fromId : ℕ) (count : Option ℕ) :
    Act (MeshNetwork σ) String (List T × ℕ) :=
  (recv fromId).bind fun (bytes, recvLen) =>
    match fromBytes bytes with
    | .error e => .ret (.err s!"Deserialization error, {e}")
    | .ok objs =>
        match count with
        | none => .ret (.ok (objs, recvLen))
        | some count =>
            let len := objs.length
            if len ≠ count then .ret (.err s!"Batch size mismatch. Expected {count}, got {len}")
            else .ret (.ok (objs, recvLen))

/-- `recv_object`. -/
def recvObject (fromBytes : List UInt8 → Except String (List T)) (fromId : ℕ) :
    Act (MeshNetwork σ) String (T × ℕ) :=
  (recvObjects fromBytes fromId (some 1)).bind fun (vec, recvLen) =>
    (Act.ret (Outcome.unwrap vec.head?)).bind fun obj => .ret (.ok (obj, recvLen))

end

/-! ### What a call on a channel does -/

section channel

variable {net net' : MeshNetwork σ} {p : ℕ} {text : String → String} {call : Act (SecureStream σ) String α}
  {r : Outcome String α} {a : α}

/-- The table with another channel to a peer. -/
def setChannel (net : MeshNetwork σ) (p : ℕ) (c : SecureStream σ) : MeshNetwork σ :=
  { net with channels := net.channels.set p (some c) }

theorem channel_setChannel_self {c : SecureStream σ} (h : p < net.channels.length) :
    (net.setChannel p c).channel p = some c := by
  rw [channel, setChannel, List.getElem?_set_self h]
  rfl

theorem channel_setChannel_ne {q : ℕ} {c : SecureStream σ} (h : q ≠ p) :
    (net.setChannel p c).channel q = net.channel q :=
  channel_set_ne _ _ h

theorem getElem?_of_channel {c : SecureStream σ} (h : net.channel p = some c) : net.channels[p]? = some (some c) :=
  Option.join_eq_some_iff.mp h

/-- On an open channel of the table. -/
theorem onChannel_open {c : SecureStream σ} (hp : p < net.nParties) (hc : net.channel p = some c) :
    onChannel p text call net = ((call c).1.mapErr text, net.setChannel p (call c).2) := by
  have hget : getChannelMut p net = (.ok c, net) := by
    simp only [getChannelMut, if_neg (not_le.mpr hp), getElem?_of_channel hc]
  rw [onChannel, Act.bind_of_ok hget]
  rfl

theorem onChannel_closed (h : ¬∃ c, p < net.nParties ∧ net.channel p = some c) :
    ∃ r, onChannel p text call net = (r, net) ∧ ∀ a, r ≠ .ok a := by
  have hget : ∃ r, getChannelMut p net = (r, net) ∧ ∀ c, r ≠ .ok c := by
    refine ⟨_, rfl, fun c hc => h ?_⟩
    split at hc
    · cases hc
    · next hlt =>
        split at hc
        · next conn hconn => exact ⟨conn, not_le.mp hlt, Option.join_eq_some_iff.mpr hconn⟩
        · cases hc
        · cases hc
  obtain ⟨r, hget, hr⟩ := hget
  unfold onChannel Act.bind
  rw [hget]
  cases r with
  | ok c => exact absurd rfl (hr c)
  | err e => exact ⟨_, rfl, by simp⟩
  | panic => exact ⟨_, rfl, by simp⟩
  | hang => exact ⟨_, rfl, by simp⟩

theorem onChannel_eq_ok : onChannel p text call net = (.ok a, net') ↔
    ∃ c c', p < net.nParties ∧ net.channel p = some c ∧ call c = (.ok a, c') ∧ net' = net.setChannel p c' := by
  by_cases h : ∃ c, p < net.nParties ∧ net.channel p = some c
  · obtain ⟨c, hp, hc⟩ := h
    rw [onChannel_open hp hc]
    constructor
    · intro heq
      obtain ⟨hok, rfl⟩ := Prod.mk.inj heq
      exact ⟨c, (call c).2, hp, hc, Prod.ext (Outcome.mapErr_eq_ok.mp hok) rfl, rfl⟩
    · rintro ⟨c₁, c', -, hc₁, hcall, rfl⟩
      obtain rfl : c = c₁ := Option.some.inj (hc.symm.trans hc₁)
      rw [hcall]
      rfl
  · obtain ⟨r, heq, hr⟩ : ∃ r, onChannel p text call net = (r, net) ∧ ∀ a, r ≠ .ok a := onChannel_closed h
    rw [heq]
    constructor
    · intro heq
      exact absurd (Prod.mk.inj heq).1 (hr a)
    · rintro ⟨c, c', hp, hc, -, -⟩
      exact absurd ⟨c, hp, hc⟩ h

end channel

section

variable [ByteStream σ] {net net' : MeshNetwork σ} {data : List UInt8}

/-- The table after a message to each of some peers: their channels have sent it, the others are as before. -/
structure SentTo (data : List UInt8) (peers : List ℕ) (net net' : MeshNetwork σ) : Prop where
  myId : net'.myId = net.myId
  nParties : net'.nParties = net.nParties
  length : net'.channels.length = net.channels.length
  sent : ∀ p ∈ peers, ∃ c n c', p < net.nParties ∧ net.channel p = some c ∧ c.send data = (.ok n, c') ∧
    net'.channel p = some c'
  other : ∀ p ∉ peers, net'.channel p = net.channel p

theorem SentTo.nil (net : MeshNetwork σ) : SentTo data [] net net :=
  ⟨rfl, rfl, rfl, by simp, fun _ _ => rfl⟩

/-- One message, then the messages to the other peers. -/
theorem SentTo.cons {p : ℕ} {peers : List ℕ} {c c' : SecureStream σ} {n : ℕ} (hp : p < net.nParties)
    (hc : net.channel p = some c) (hsend : c.send data = (.ok n, c')) (hnew : p ∉ peers)
    (h : SentTo data peers (net.setChannel p c') net') : SentTo data (p :: peers) net net' := by
  refine ⟨h.myId, h.nParties, ?_, fun q hq => ?_, fun q hq => ?_⟩
  · rw [h.length, setChannel, List.length_set]
  · obtain rfl | hq := List.mem_cons.mp hq
    · refine ⟨c, n, c', hp, hc, hsend, ?_⟩
      rw [h.other q hnew, channel_setChannel_self (lt_of_channel hc)]
    · have hne : q ≠ p := fun heq => hnew (heq ▸ hq)
      obtain ⟨c₁, n₁, c₁', hlt, hc₁, hsend₁, hc₁'⟩ := h.sent q hq
      rw [channel_setChannel_ne hne] at hc₁
      exact ⟨c₁, n₁, c₁', hlt, hc₁, hsend₁, hc₁'⟩
  · rw [List.mem_cons, not_or] at hq
    rw [h.other q hq.2, channel_setChannel_ne hq.1]

/-- The loop of a broadcast: it has sent the data to all peers but itself, or to those before the first
one for which a send does not succeed, whose channel is as that send leaves it. -/
theorem broadcastTo_cases {r : Outcome String ℕ} : ∀ (peers : List ℕ) (total : ℕ) (net : MeshNetwork σ),
    peers.Nodup → broadcastTo data peers total net = (r, net') →
    (∃ len, r = .ok len ∧ len = total + (peers.filter (· ≠ net.myId)).length *
        (SecureStream.u32Len + (data.length + SecureStream.tagLen)) ∧
      SentTo data (peers.filter (· ≠ net.myId)) net net') ∨
    ∃ before bad after net₁, peers = before ++ bad :: after ∧ bad ≠ net.myId ∧
      SentTo data (before.filter (· ≠ net.myId)) net net₁ ∧ (∀ len, r ≠ .ok len) ∧
      ∃ r₁, send bad data net₁ = (r₁, net') ∧ r₁.Fails r
  | [], total, net, _, h => by
      obtain ⟨rfl, rfl⟩ := Prod.mk.inj h
      exact .inl ⟨total, rfl, by simp, .nil net⟩
  | p :: peers, total, net, hnd, h => by
      obtain ⟨hnew, hnd⟩ := List.nodup_cons.mp hnd
      rw [broadcastTo, Act.read_bind] at h
      by_cases hself : p = net.myId
      · rw [if_pos hself] at h
        obtain ⟨len, hr, hlen, hsent⟩ | ⟨before, bad, after, net₁, rfl, hbad, hsent, hne, hsend⟩ :=
          broadcastTo_cases peers total net hnd h
        · left
          rw [List.filter_cons_of_neg (by simpa using hself)]
          exact ⟨len, hr, hlen, hsent⟩
        · right
          refine ⟨p :: before, bad, after, net₁, rfl, hbad, ?_, hne, hsend⟩
          rwa [List.filter_cons_of_neg (by simpa using hself)]
      · rw [if_neg hself] at h
        obtain ⟨len, net₂, hsend, h⟩ | ⟨r₁, hsend, hfails⟩ := Act.bind_cases h
        · obtain ⟨c, c', hp, hc, hcall, rfl⟩ := onChannel_eq_ok.mp hsend
          obtain ⟨len', hr, hlen, hsent⟩ | ⟨before, bad, after, net₁, rfl, hbad, hsent, hne, hsend'⟩ :=
            broadcastTo_cases peers (total + len) _ hnd h
          · left
            obtain ⟨_, _, -, -, -, hn, -⟩ := SecureStream.send_eq_ok hcall
            rw [List.filter_cons_of_pos (by simpa using hself)]
            refine ⟨len', hr, ?_, hsent.cons hp hc hcall fun hmem => hnew (List.mem_of_mem_filter hmem)⟩
            rw [hlen, hn, List.length_cons, Nat.add_one_mul, Nat.add_assoc, Nat.add_comm (SecureStream.u32Len + _)]
            rfl
          · right
            refine ⟨p :: before, bad, after, net₁, rfl, hbad, ?_, hne, hsend'⟩
            rw [List.filter_cons_of_pos (by simpa using hself)]
            exact hsent.cons hp hc hcall fun hmem => hnew (List.mem_append_left _ (List.mem_of_mem_filter hmem))
        · right
          exact ⟨[], p, peers, net, rfl, hself, .nil net, hfails.ne_ok, r₁, hsend, hfails⟩

end

end MeshNetwork

end MpcCore
