import MpcCore.StreamIntegrity

/-! # Framing

The packets that `send` writes and `recv` reads, over a byte stream that loses and reorders nothing.

* `send_eq_ok`, `recv_packet`: what one call does with a packet, whatever cipher is used.
* `fromBeBytes_beBytes`: the length header holds the length modulo `2 ^ 32`.
* `roundTrip_iff`: the receiver reads back the messages that were sent exactly when each of them fits
  the header. -/

namespace MpcCore

/-- A byte stream that loses and reorders nothing: the bytes that its writes have put on it, and those
that its reads will yield. -/
class ReliableStream (σ : Type) extends ByteStream σ where
  written : σ → List UInt8
  unread : σ → List UInt8
  written_writeAll : ∀ {bytes s s'}, writeAll bytes s = (.ok (), s') → written s' = written s ++ bytes
  readExact_unread : ∀ {len s}, len ≤ (unread s).length →
    ∃ s', readExact len s = (.ok ((unread s).take len), s') ∧ unread s' = (unread s).drop len

/-- Decryption inverts encryption, and a ciphertext is longer than its plaintext by the tag. -/
structure IsAead (cipher : Cipher) : Prop where
  decrypt : ∀ {nonce associatedData data buffer}, cipher.encryptInPlace nonce associatedData data = some buffer →
    cipher.decryptInPlace nonce associatedData buffer = some data
  length : ∀ {nonce associatedData data buffer}, cipher.encryptInPlace nonce associatedData data = some buffer →
    buffer.length = data.length + SecureStream.tagLen

/-! ### The length header -/

theorem fromBeBytes_append (bytes : List UInt8) (b : UInt8) :
    SecureStream.fromBeBytes (bytes ++ [b]) = 256 * SecureStream.fromBeBytes bytes + b.toNat := by
  simp [SecureStream.fromBeBytes]

theorem fromBeBytes_beBytes : ∀ k n : ℕ, SecureStream.fromBeBytes (beBytes k n) = n % 256 ^ k
  | 0, n => by simp [beBytes, SecureStream.fromBeBytes, Nat.mod_one]
  | k + 1, n => by
      rw [beBytes, fromBeBytes_append, fromBeBytes_beBytes k, toNat_ofNat_mod, Nat.pow_succ, Nat.mul_comm (256 ^ k),
        Nat.mod_mul]
      omega

namespace SecureStream

theorem fromBeBytes_totalLenBytes (data : List UInt8) :
    fromBeBytes (totalLenBytes data) = (data.length + tagLen) % 2 ^ 32 :=
  fromBeBytes_beBytes 4 (data.length + tagLen)

/-! ### One packet -/

section packet

variable {σ : Type} [ByteStream σ]

theorem send_eq_ok {data : List UInt8} {s s' : SecureStream σ} {n : ℕ} (h : send data s = (.ok n, s')) :
    ∃ buffer inner₁, s.cipher.encryptInPlace (nonceBytes s.role s.sendCounter) (totalLenBytes data) data = some buffer ∧
      ByteStream.writeAll (totalLenBytes data) s.inner = (.ok (), inner₁) ∧
      ByteStream.writeAll buffer inner₁ = (.ok (), s'.inner) ∧ n = u32Len + (data.length + tagLen) ∧
      s'.cipher = s.cipher ∧ s'.role = s.role ∧ s'.sendCounter = s.sendCounter + 1 ∧ s'.sendCounter < 2 ^ 64 := by
  obtain ⟨buffer, s₁, h1, h⟩ := Act.bind_eq_ok.mp h
  obtain ⟨_, s₂, h2, h⟩ := Act.bind_eq_ok.mp h
  obtain ⟨_, s₃, h3, h⟩ := Act.bind_eq_ok.mp h
  obtain ⟨_, s₄, h4, h⟩ := Act.bind_eq_ok.mp h
  obtain ⟨_, s₅, h5, h⟩ := Act.bind_eq_ok.mp h
  obtain ⟨hn, rfl⟩ := Act.ret_eq_ok.mp h
  obtain ⟨henc, rfl⟩ := Prod.mk.inj h1
  obtain ⟨-, rfl⟩ := Prod.mk.inj h2
  obtain ⟨hw₁, rfl⟩ := Prod.mk.inj h3
  obtain ⟨hw₂, rfl⟩ := Prod.mk.inj h4
  unfold countSend at h5
  split at h5
  · next hlt =>
      obtain ⟨-, rfl⟩ := Prod.mk.inj h5
      refine ⟨buffer, _, ?_, Prod.ext hw₁ rfl, Prod.ext hw₂ rfl, hn.symm, rfl, rfl, rfl, hlt⟩
      split at henc
      · next buffer' hsome => rw [hsome, Outcome.ok.inj henc]
      · cases henc
  · cases (Prod.mk.inj h5).1

end packet

variable {σ τ : Type} [ReliableStream σ] [ReliableStream τ]

/-- The bytes that an end has put on the stream. -/
def written (s : SecureStream σ) : List UInt8 := ReliableStream.written s.inner

/-- The bytes that an end has still to read. -/
def unread (s : SecureStream σ) : List UInt8 := ReliableStream.unread s.inner

theorem readExact_append {s : SecureStream σ} {bytes rest : List UInt8} (h : s.unread = bytes ++ rest) :
    ∃ s', readExact bytes.length s = (.ok bytes, s') ∧ s'.unread = rest ∧ s' = { s with inner := s'.inner } := by
  have hlen : bytes.length ≤ (ReliableStream.unread s.inner).length := by
    rw [show ReliableStream.unread s.inner = bytes ++ rest from h, List.length_append]
    omega
  obtain ⟨inner, hread, hunread⟩ := ReliableStream.readExact_unread hlen
  rw [show ReliableStream.unread s.inner = bytes ++ rest from h] at hread hunread
  rw [List.take_left] at hread
  rw [List.drop_left] at hunread
  refine ⟨{ s with inner }, ?_, hunread, rfl⟩
  simp only [readExact, hread]

theorem recv_header {s : SecureStream σ} {header rest : List UInt8} (hlen : header.length = u32Len)
    (h : s.unread = header ++ rest) :
    ∃ s₁, s₁.unread = rest ∧ s₁ = { s with inner := s₁.inner } ∧
      recv s = (if fromBeBytes header < tagLen then Act.ret (.err "Packet too short")
        else (readExact (fromBeBytes header)).bind fun buffer => (decrypt header buffer).bind fun data =>
          countRecv.bind fun _ => .ret (.ok (data, u32Len + fromBeBytes header))) s₁ := by
  obtain ⟨s₁, hread, hunread, hs₁⟩ := readExact_append h
  rw [hlen] at hread
  exact ⟨s₁, hunread, hs₁, Act.bind_of_ok hread⟩

/-- A packet that decrypts is received. -/
theorem recv_packet {s : SecureStream σ} {header buffer rest data : List UInt8} (hheader : header.length = u32Len)
    (hlen : fromBeBytes header = buffer.length) (htag : tagLen ≤ buffer.length)
    (hdec : s.cipher.decryptInPlace (nonceBytes (peer s.role) s.recvCounter) header buffer = some data)
    (hcount : s.recvCounter + 1 < 2 ^ 64) (h : s.unread = header ++ (buffer ++ rest)) :
    ∃ s', recv s = (.ok (data, u32Len + buffer.length), s') ∧ s'.unread = rest ∧ s'.cipher = s.cipher ∧
      s'.role = s.role ∧ s'.recvCounter = s.recvCounter + 1 := by
  obtain ⟨s₁, h₁, hs₁, hrecv⟩ := recv_header hheader h
  obtain ⟨s₂, hread, h₂, hs₂⟩ := readExact_append h₁
  have hs : s₂ = { s with inner := s₂.inner } := by rw [hs₂, hs₁]
  have hdec' : decrypt header buffer s₂ = (.ok data, s₂) := by
    rw [hs]
    simp only [decrypt, hdec]
  have hcount' : countRecv s₂ = (.ok (), { s₂ with recvCounter := s.recvCounter + 1 }) := by
    rw [hs]
    simp only [countRecv, if_pos hcount]
  rw [if_neg (by omega), hlen, Act.bind_of_ok hread, Act.bind_of_ok hdec', Act.bind_of_ok hcount'] at hrecv
  refine ⟨_, hrecv, h₂, ?_, ?_, rfl⟩
  · rw [hs]
  · rw [hs]

/-- What a receive reports is the length in the header. -/
theorem recv_count {s s' : SecureStream σ} {header rest data : List UInt8} {n : ℕ} (hheader : header.length = u32Len)
    (h : s.unread = header ++ rest) (hrecv : recv s = (.ok (data, n), s')) : n = u32Len + fromBeBytes header := by
  obtain ⟨s₁, -, -, heq⟩ := recv_header hheader h
  rw [heq] at hrecv
  split at hrecv
  · cases (Prod.mk.inj hrecv).1
  · obtain ⟨buffer, s₂, -, hrecv⟩ := Act.bind_eq_ok.mp hrecv
    obtain ⟨data', s₃, -, hrecv⟩ := Act.bind_eq_ok.mp hrecv
    obtain ⟨_, s₄, -, hrecv⟩ := Act.bind_eq_ok.mp hrecv
    exact (Prod.mk.inj (Act.ret_eq_ok.mp hrecv).1).2.symm

/-! ### All packets -/

/-- `send` for one message after the other. -/
def sendAll : List (List UInt8) → Act (SecureStream σ) String (List ℕ)
  | [] => .ret (.ok [])
  | data :: messages => (send data).bind fun n => (sendAll messages).bind fun counts => .ret (.ok (n :: counts))

/-- `recv` as many times. -/
def recvAll : ℕ → Act (SecureStream σ) String (List (List UInt8 × ℕ))
  | 0 => .ret (.ok [])
  | n + 1 => recv.bind fun received => (recvAll n).bind fun rest => .ret (.ok (received :: rest))

/-- The two ends share the key, and the next packet of one is the next that the other reads. -/
structure InStep (sender : SecureStream σ) (receiver : SecureStream τ) : Prop where
  cipher : receiver.cipher = sender.cipher
  role : receiver.role = peer sender.role
  counter : receiver.recvCounter = sender.sendCounter

/-- The receives return the messages with the byte counts that their sends reported, and leave nothing
unread. -/
def RoundTrip (messages : List (List UInt8)) (counts : List ℕ) (receiver : SecureStream τ) : Prop :=
  ∃ receiver', recvAll messages.length receiver = (.ok (messages.zip counts), receiver') ∧ receiver'.unread = []

theorem peer_peer (role : ConnectionRole) : peer (peer role) = role := by
  cases role <;> rfl

/-- The packet of a message that fits the header is received, and the two ends stay in step. -/
theorem recv_sent {sender sender₁ : SecureStream σ} {receiver : SecureStream τ} {data bytes : List UInt8} {n : ℕ}
    (haead : IsAead sender.cipher) (hsend : send data sender = (.ok n, sender₁)) (hstep : InStep sender receiver)
    {buffer : List UInt8} (henc : sender.cipher.encryptInPlace (nonceBytes sender.role sender.sendCounter)
      (totalLenBytes data) data = some buffer)
    (hunread : receiver.unread = totalLenBytes data ++ (buffer ++ bytes)) (hfits : data.length + tagLen < 2 ^ 32) :
    ∃ receiver₁, recv receiver = (.ok (data, n), receiver₁) ∧ receiver₁.unread = bytes ∧
      InStep sender₁ receiver₁ := by
  obtain ⟨_, _, -, -, -, rfl, hcipher, hrole, hcounter, hlt⟩ := send_eq_ok hsend
  have hbuffer := haead.length henc
  have hheader : (totalLenBytes data).length = u32Len := beBytes_length 4 _
  have hlen : fromBeBytes (totalLenBytes data) = buffer.length := by
    rw [fromBeBytes_totalLenBytes, Nat.mod_eq_of_lt hfits, hbuffer]
  have hdec : receiver.cipher.decryptInPlace (nonceBytes (peer receiver.role) receiver.recvCounter)
      (totalLenBytes data) buffer = some data := by
    rw [hstep.cipher, hstep.role, peer_peer, hstep.counter]
    exact haead.decrypt henc
  have hlt' : receiver.recvCounter + 1 < 2 ^ 64 := by
    rw [hstep.counter, ← hcounter]
    exact hlt
  obtain ⟨receiver₁, hrecv, hunread₁, hc, hr, hcount⟩ := recv_packet hheader hlen (by omega) hdec hlt' hunread
  rw [hbuffer] at hrecv
  refine ⟨receiver₁, hrecv, hunread₁, ?_, ?_, ?_⟩
  · rw [hc, hcipher, hstep.cipher]
  · rw [hr, hrole, hstep.role]
  · rw [hcount, hcounter, hstep.counter]

theorem roundTrip_cons {receiver receiver₁ : SecureStream τ} {data : List UInt8} {n : ℕ}
    {messages : List (List UInt8)} {counts : List ℕ} (hrecv : recv receiver = (.ok (data, n), receiver₁)) :
    RoundTrip (data :: messages) (n :: counts) receiver ↔ RoundTrip messages counts receiver₁ := by
  simp only [RoundTrip, List.length_cons, recvAll, Act.bind_of_ok hrecv, List.zip_cons_cons]
  constructor
  · rintro ⟨receiver', h, hnil⟩
    obtain ⟨rest, receiver₂, hrecvs, hret⟩ := Act.bind_eq_ok.mp h
    obtain ⟨hreturned, rfl⟩ := Act.ret_eq_ok.mp hret
    rw [(List.cons.inj hreturned).2] at hrecvs
    exact ⟨receiver₂, hrecvs, hnil⟩
  · rintro ⟨receiver', h, hnil⟩
    exact ⟨receiver', Act.bind_of_ok h, hnil⟩

theorem not_roundTrip_of_le {receiver : SecureStream τ} {data rest : List UInt8} {messages : List (List UInt8)}
    {counts : List ℕ} (hunread : receiver.unread = totalLenBytes data ++ rest)
    (hlong : 2 ^ 32 ≤ data.length + tagLen) :
    ¬RoundTrip (data :: messages) ((u32Len + (data.length + tagLen)) :: counts) receiver := by
  rintro ⟨receiver', h, -⟩
  obtain ⟨received, receiver₁, hrecv, h⟩ := Act.bind_eq_ok.mp h
  obtain ⟨rest, receiver₂, -, hret⟩ := Act.bind_eq_ok.mp h
  obtain rfl := (List.cons.inj (Act.ret_eq_ok.mp hret).1).1
  have hheader : (totalLenBytes data).length = u32Len := beBytes_length 4 _
  have hcount := recv_count hheader hunread hrecv
  rw [fromBeBytes_totalLenBytes] at hcount
  have hmod := Nat.mod_lt (data.length + tagLen) (show 2 ^ 32 > 0 by omega)
  omega

/-- The messages of one end, and whether the other end reads them back. -/
theorem exists_sent (messages : List (List UInt8)) : ∀ {sender sender' : SecureStream σ} {counts : List ℕ},
    IsAead sender.cipher → sendAll messages sender = (.ok counts, sender') →
    ∃ bytes, sender'.written = sender.written ++ bytes ∧ ∀ receiver : SecureStream τ, InStep sender receiver →
      receiver.unread = bytes →
      (RoundTrip messages counts receiver ↔ ∀ data ∈ messages, data.length + tagLen < 2 ^ 32) := by
  induction messages with
  | nil =>
      intro sender sender' counts _ hsend
      obtain ⟨rfl, rfl⟩ := Act.ret_eq_ok.mp hsend
      refine ⟨[], (List.append_nil _).symm, fun receiver _ hunread => ?_⟩
      simp only [List.not_mem_nil, false_imp_iff, implies_true, iff_true]
      exact ⟨receiver, rfl, hunread⟩
  | cons data messages ih =>
      intro sender sender' counts haead hsend
      obtain ⟨n, sender₁, h1, hsend⟩ := Act.bind_eq_ok.mp hsend
      obtain ⟨counts, sender₂, h2, hsend⟩ := Act.bind_eq_ok.mp hsend
      obtain ⟨rfl, rfl⟩ := Act.ret_eq_ok.mp hsend
      obtain ⟨buffer, inner₁, henc, hw₁, hw₂, hn, hcipher, -⟩ := send_eq_ok h1
      obtain ⟨bytes, hwritten, hrest⟩ := ih (hcipher ▸ haead) h2
      refine ⟨totalLenBytes data ++ (buffer ++ bytes), ?_, fun receiver hstep hunread => ?_⟩
      · rw [hwritten, written, ReliableStream.written_writeAll hw₂, ReliableStream.written_writeAll hw₁, written]
        simp only [List.append_assoc]
      · rw [List.forall_mem_cons]
        by_cases hfits : data.length + tagLen < 2 ^ 32
        · obtain ⟨receiver₁, hrecv, hunread₁, hstep₁⟩ := recv_sent haead h1 hstep henc hunread hfits
          rw [roundTrip_cons hrecv, hrest receiver₁ hstep₁ hunread₁]
          simp only [hfits, true_and]
        · -- the header holds another length than the one the send reported
          simp only [hfits, false_and, iff_false]
          rw [hn]
          exact not_roundTrip_of_le hunread (not_lt.mp hfits)

/-- **The messages that are read back.** -/
theorem roundTrip_iff {sender sender' : SecureStream σ} {receiver : SecureStream τ} {messages : List (List UInt8)}
    {counts : List ℕ} (haead : IsAead sender.cipher) (hstep : InStep sender receiver)
    (hsend : sendAll messages sender = (.ok counts, sender'))
    (harrived : sender'.written = sender.written ++ receiver.unread) :
    RoundTrip messages counts receiver ↔ ∀ data ∈ messages, data.length + tagLen < 2 ^ 32 := by
  obtain ⟨bytes, hwritten, h⟩ := exists_sent (τ := τ) messages haead hsend
  refine h receiver hstep ?_
  rw [hwritten] at harrived
  exact (List.append_cancel_left harrived).symm

/-! ### A message that does not fit the header -/

instance : ReliableStream Pipe where
  written := Pipe.written
  unread := Pipe.unread
  written_writeAll h := by
    obtain ⟨-, rfl⟩ := Prod.mk.inj h
    rfl
  readExact_unread h := ⟨_, if_pos h, rfl⟩

theorem isAead_tagCipher : IsAead tagCipher where
  decrypt h := by
    obtain rfl := Option.some.inj h
    simp [tagCipher]
  length h := by
    obtain rfl := Option.some.inj h
    simp [tagLen]

/-- The ends of a session before anything is sent. -/
def pipeSender : SecureStream Pipe := .new ⟨[], []⟩ tagCipher .listener

@[inherit_doc pipeSender]
def pipeReceiver (unread : List UInt8) : SecureStream Pipe := .new ⟨unread, []⟩ tagCipher .initiator

/-- The packet of a message. -/
def tagPacket (data : List UInt8) : List UInt8 := totalLenBytes data ++ (data ++ List.replicate 16 0)

/-- The sender after one message. -/
def pipeSent (data : List UInt8) : SecureStream Pipe :=
  ⟨⟨[], tagPacket data⟩, tagCipher, 1, 0, .listener, [⟨nonceBytes .listener 0, totalLenBytes data, data⟩]⟩

theorem sendAll_pipe (data : List UInt8) :
    sendAll [data] pipeSender = (.ok [u32Len + (data.length + tagLen)], pipeSent data) := by
  have hassert : ((data ++ List.replicate 16 (0 : UInt8)).length == data.length + tagLen) = true := by
    simp [tagLen]
  have hsend : send data pipeSender = (.ok (u32Len + (data.length + tagLen)), pipeSent data) := by
    have h1 : encrypt data pipeSender = (.ok (data ++ List.replicate 16 0), ⟨⟨[], []⟩, tagCipher, 0, 0, .listener,
        [⟨nonceBytes .listener 0, totalLenBytes data, data⟩]⟩) := rfl
    rw [send, Act.bind_of_ok h1, hassert]
    rfl
  rw [sendAll, Act.bind_of_ok hsend]
  rfl

theorem roundTrip_iff_pipe : RoundTrip [[1, 2, 3]] [23] (pipeReceiver (tagPacket [1, 2, 3])) ↔
    ∀ data ∈ [([1, 2, 3] : List UInt8)], data.length + tagLen < 2 ^ 32 := by
  have hstep : InStep pipeSender (pipeReceiver (tagPacket [1, 2, 3])) := ⟨rfl, rfl, rfl⟩
  exact roundTrip_iff isAead_tagCipher hstep (sendAll_pipe [1, 2, 3]) rfl

/-- The shortest message that does not fit. -/
def tooLong : List UInt8 := List.replicate (2 ^ 32 - 16) 0

/-- A send of this message returns its length, and the receive finds a length of zero. -/
theorem not_roundTrip_tooLong :
    sendAll [tooLong] pipeSender = (.ok [2 ^ 32 + 4], pipeSent tooLong) ∧
    (recv (pipeReceiver (tagPacket tooLong))).1 = .err "Packet too short" ∧
    ¬RoundTrip [tooLong] [2 ^ 32 + 4] (pipeReceiver (tagPacket tooLong)) := by
  have hlen : tooLong.length + tagLen = 2 ^ 32 := by
    have hsum : 2 ^ 32 - 16 + tagLen = 2 ^ 32 := rfl
    rw [tooLong, List.length_replicate, hsum]
  have hheader : fromBeBytes (totalLenBytes tooLong) = 0 := by
    rw [fromBeBytes_totalLenBytes, hlen, Nat.mod_self]
  have hsend := sendAll_pipe tooLong
  rw [hlen] at hsend
  have hrecv : (recv (pipeReceiver (tagPacket tooLong))).1 = .err "Packet too short" := by
    have hlen : (totalLenBytes tooLong).length = u32Len := beBytes_length 4 _
    obtain ⟨s₁, -, -, h⟩ := recv_header (s := pipeReceiver (tagPacket tooLong)) hlen rfl
    rw [h, hheader, if_pos (by decide)]
    rfl
  refine ⟨hsend, hrecv, ?_⟩
  rintro ⟨receiver', h, -⟩
  obtain ⟨received, _, h, -⟩ := Act.bind_eq_ok.mp h
  rw [h] at hrecv
  cases hrecv

end SecureStream

end MpcCore
