import MpcCore.SecureStream
import Mathlib.Data.List.Infix

/-! # The stream against an active network

Sends and receives at the two ends of one session, while somebody else decides which bytes arrive.

* `incoming` is the part of `recv` that reads a packet; `recv_eq` says what the rest does with it.
* `Dialogue`: the calls in any order.  Between two calls the byte stream of an end may be replaced
  by any other, so every read may return anything.
* `Unforged`: a packet that decrypts is one that an end encrypted, with this nonce and length.
* `stream_integrity`: what one end receives is a prefix of what the other end sent. -/

namespace MpcCore

namespace SecureStream

variable {σ : Type} [ByteStream σ]

/-! ### One call -/

/-- The length and the buffer that `recv` hands to the cipher. -/
def incoming : Act (SecureStream σ) String (List UInt8 × List UInt8) :=
  (readExact u32Len).bind fun lenBuf =>
    if fromBeBytes lenBuf < tagLen then .ret (.err "Packet too short")
    else (readExact (fromBeBytes lenBuf)).bind fun buffer => .ret (.ok (lenBuf, buffer))

theorem recv_eq : recv (σ := σ) = incoming.bind fun (lenBuf, buffer) =>
    (decrypt lenBuf buffer).bind fun data =>
      countRecv.bind fun _ => .ret (.ok (data, u32Len + fromBeBytes lenBuf)) := by
  unfold recv incoming
  rw [Act.bind_assoc]
  congr 1
  funext lenBuf
  by_cases h : fromBeBytes lenBuf < tagLen
  · simp only [if_pos h]
    rfl
  · simp only [if_neg h]
    rw [Act.bind_assoc]
    rfl

theorem readExact_inner {len : ℕ} {s s' : SecureStream σ} {r : Outcome String (List UInt8)}
    (h : readExact len s = (r, s')) : s' = { s with inner := s'.inner } := by
  obtain ⟨-, rfl⟩ := Prod.mk.inj h
  rfl

theorem incoming_inner {s s' : SecureStream σ} {r : Outcome String (List UInt8 × List UInt8)}
    (h : incoming s = (r, s')) : s' = { s with inner := s'.inner } := by
  obtain ⟨lenBuf, s₁, h1, h⟩ | ⟨r₁, h1, -⟩ := Act.bind_cases h
  · have hs₁ := readExact_inner h1
    by_cases hlen : fromBeBytes lenBuf < tagLen
    · simp only [if_pos hlen, Act.ret_apply] at h
      obtain ⟨-, rfl⟩ := Prod.mk.inj h
      exact hs₁
    · simp only [if_neg hlen] at h
      obtain ⟨buffer, s₂, h2, h⟩ | ⟨r₂, h2, -⟩ := Act.bind_cases h
      · obtain ⟨-, rfl⟩ := Prod.mk.inj h
        rw [readExact_inner h2, hs₁]
      · rw [readExact_inner h2, hs₁]
  · exact readExact_inner h1

/-- A receive that succeeds decrypts the packet under the counter it finds, and moves the counter by
one; a receive that fails leaves everything but the byte stream. -/
theorem recv_cases {s s' : SecureStream σ} {r : Outcome String (List UInt8 × ℕ)} (h : recv s = (r, s')) :
    (∃ lenBuf buffer data n, r = .ok (data, n) ∧ (incoming s).1 = .ok (lenBuf, buffer) ∧
      s.cipher.decryptInPlace (nonceBytes (peer s.role) s.recvCounter) lenBuf buffer = some data ∧
      s' = { s with inner := s'.inner, recvCounter := s.recvCounter + 1 }) ∨
    (∀ a, r ≠ .ok a) ∧ s' = { s with inner := s'.inner } := by
  rw [recv_eq] at h
  obtain ⟨⟨lenBuf, buffer⟩, s₁, h1, h⟩ | ⟨r₁, h1, hf⟩ := Act.bind_cases h
  · have hs₁ := incoming_inner h1
    obtain ⟨data, s₂, h2, h⟩ | ⟨r₂, h2, hf⟩ := Act.bind_cases h
    · obtain ⟨hdec, rfl⟩ := Prod.mk.inj h2
      obtain ⟨_, s₃, h3, h⟩ | ⟨r₃, h3, hf⟩ := Act.bind_cases h
      · obtain ⟨hr, rfl⟩ := Prod.mk.inj h
        refine .inl ⟨lenBuf, buffer, data, _, hr.symm, by rw [h1], ?_, ?_⟩
        · rw [hs₁] at hdec
          dsimp only at hdec
          split at hdec
          · rename_i m hm
            rw [hm, Outcome.ok.inj hdec]
          · cases hdec
        · unfold countRecv at h3
          split at h3
          · obtain ⟨-, rfl⟩ := Prod.mk.inj h3
            rw [hs₁]
          · cases (Prod.mk.inj h3).1
      · refine .inr ⟨hf.ne_ok, ?_⟩
        unfold countRecv at h3
        split at h3
        · obtain ⟨rfl, -⟩ := Prod.mk.inj h3
          exact absurd hf Outcome.not_fails_ok
        · obtain ⟨-, rfl⟩ := Prod.mk.inj h3
          exact hs₁
    · obtain ⟨-, rfl⟩ := Prod.mk.inj h2
      exact .inr ⟨hf.ne_ok, hs₁⟩
  · exact .inr ⟨hf.ne_ok, incoming_inner h1⟩

/-- The cipher and the counter of the receives are the same. -/
def SameRecv (s s' : SecureStream σ) : Prop := s'.cipher = s.cipher ∧ s'.recvCounter = s.recvCounter

omit [ByteStream σ] in
instance : IsPreorder (SecureStream σ) SameRecv where
  refl _ := ⟨rfl, rfl⟩
  trans _ _ _ h h' := ⟨h'.1.trans h.1, h'.2.trans h.2⟩

/-- A send leaves what receives read. -/
theorem send_keeps (data : List UInt8) : Act.Keeps SameRecv (send (σ := σ) data) := by
  have hwrite : ∀ bytes, Act.Keeps SameRecv (writeAll (σ := σ) bytes) := fun bytes s _ => ⟨rfl, rfl⟩
  have hcount : Act.Keeps SameRecv (countSend (σ := σ)) := by
    intro s _
    unfold countSend
    split <;> exact ⟨rfl, rfl⟩
  unfold send
  refine Act.Keeps.bind (fun s _ => ⟨rfl, rfl⟩) fun buffer _ _ _ => ?_
  refine Act.Keeps.bind (.ret _) fun _ _ _ _ => (hwrite _).bind fun _ _ _ _ => ?_
  exact (hwrite _).bind fun _ _ _ _ => hcount.bind fun _ _ _ _ => .ret _

/-- A send that the cipher refuses writes nothing. -/
theorem send_refused {data : List UInt8} {s : SecureStream σ}
    (h : s.cipher.encryptInPlace (nonceBytes s.role s.sendCounter) (totalLenBytes data) data = none) :
    send data s = (.err "Encryption error", { s with
      encryptions := s.encryptions ++ [⟨nonceBytes s.role s.sendCounter, totalLenBytes data, data⟩] }) := by
  have h1 : encrypt data s = (.err "Encryption error", { s with
      encryptions := s.encryptions ++ [⟨nonceBytes s.role s.sendCounter, totalLenBytes data, data⟩] }) := by
    simp only [encrypt, h]
  simp only [send, Act.bind, h1]

end SecureStream

/-! ### Sends, receives and tampering -/

/-- A message that `send` took at an end, or that `recv` returned there. -/
inductive SessionMessage where
  | sent (role : ConnectionRole) (data : List UInt8)
  | received (role : ConnectionRole) (data : List UInt8)
deriving DecidableEq, Repr

/-- The messages passed to `send` at an end. -/
def sentBy (role : ConnectionRole) (messages : List SessionMessage) : List (List UInt8) :=
  messages.filterMap fun
    | .sent role' data => if role' = role then some data else none
    | .received _ _ => none

/-- The messages that `recv` returned at an end. -/
def receivedBy (role : ConnectionRole) (messages : List SessionMessage) : List (List UInt8) :=
  messages.filterMap fun
    | .sent _ _ => none
    | .received role' data => if role' = role then some data else none

namespace Session

variable {σ : Type} [ByteStream σ]

/-- If the packet that waits at an end decrypts, then one of the two ends encrypted its message,
under this nonce and this length, into this buffer. -/
def Unforged (s : Session σ) (role : ConnectionRole) : Prop :=
  ∀ lenBuf buffer data, (SecureStream.incoming (s.atEnd role)).1 = .ok (lenBuf, buffer) →
    (s.atEnd role).cipher.decryptInPlace
      (SecureStream.nonceBytes (SecureStream.peer (s.atEnd role).role) (s.atEnd role).recvCounter) lenBuf buffer =
        some data →
    ∃ role', ∃ e ∈ (s.atEnd role').encryptions,
      e.nonce = SecureStream.nonceBytes (SecureStream.peer (s.atEnd role).role) (s.atEnd role).recvCounter ∧
      e.associatedData = lenBuf ∧ e.plaintext = data ∧
      (s.atEnd role').cipher.encryptInPlace e.nonce e.associatedData e.plaintext = some buffer

/-- Calls at the two ends in any order, with any bytes delivered in between.  A send succeeds or is
refused by the cipher; a receive may fail wherever it is, and what it consumed is gone. -/
inductive Dialogue : Session σ → List SessionMessage → Session σ → Prop where
  | nil (s : Session σ) : Dialogue s [] s
  | send {s s₁ : Session σ} {messages : List SessionMessage} (role : ConnectionRole) (data : List UInt8) {n : ℕ}
      {stream : SecureStream σ} : Dialogue s messages s₁ →
      (s₁.atEnd role).send data = (.ok n, stream) →
      Dialogue s (messages ++ [.sent role data]) (s₁.setEnd role stream)
  | refuse {s s₁ : Session σ} {messages : List SessionMessage} (role : ConnectionRole) (data : List UInt8)
      {r : Outcome String ℕ} {stream : SecureStream σ} : Dialogue s messages s₁ →
      (s₁.atEnd role).cipher.encryptInPlace
        (SecureStream.nonceBytes (s₁.atEnd role).role (s₁.atEnd role).sendCounter)
        (SecureStream.totalLenBytes data) data = none →
      (s₁.atEnd role).send data = (r, stream) → Dialogue s messages (s₁.setEnd role stream)
  | recv {s s₁ : Session σ} {messages : List SessionMessage} (role : ConnectionRole) {data : List UInt8} {n : ℕ}
      {stream : SecureStream σ} : Dialogue s messages s₁ → s₁.Unforged role →
      (s₁.atEnd role).recv = (.ok (data, n), stream) →
      Dialogue s (messages ++ [.received role data]) (s₁.setEnd role stream)
  | recvFailed {s s₁ : Session σ} {messages : List SessionMessage} (role : ConnectionRole)
      {r : Outcome String (List UInt8 × ℕ)} {stream : SecureStream σ} : Dialogue s messages s₁ →
      (s₁.atEnd role).recv = (r, stream) → (∀ a, r ≠ .ok a) → Dialogue s messages (s₁.setEnd role stream)
  | deliver {s s₁ : Session σ} {messages : List SessionMessage} (role : ConnectionRole) (inner : σ) :
      Dialogue s messages s₁ → Dialogue s messages (s₁.setEnd role { s₁.atEnd role with inner })

/-! ### The counters -/

/-- An end after some messages: the counters count them, and what it encrypted is the message that
the counter in the nonce names. -/
structure EndAt (cipher : Cipher) (role : ConnectionRole) (messages : List SessionMessage) (stream : SecureStream σ) :
    Prop where
  atRole : stream.role = role
  underKey : stream.cipher = cipher
  sendCounter : stream.sendCounter = (sentBy role messages).length
  recvCounter : stream.recvCounter = (receivedBy role messages).length
  encryptions : ∀ e ∈ stream.encryptions, cipher.encryptInPlace e.nonce e.associatedData e.plaintext ≠ none →
    ∃ k : ℕ, e.nonce = SecureStream.nonceBytes role k ∧ (sentBy role messages)[k]? = some e.plaintext

variable {cipher : Cipher} {role : ConnectionRole} {messages : List SessionMessage} {stream stream' : SecureStream σ}

theorem EndAt.send (h : EndAt cipher role messages stream) {data : List UInt8} {n : ℕ}
    (hsend : stream.send data = (.ok n, stream')) :
    EndAt cipher role (messages ++ [.sent role data]) stream' := by
  obtain ⟨hrole, henc, hcount⟩ := SecureStream.send_cases hsend (by simp)
  have hkeep := SecureStream.send_keeps data stream (by rw [hsend]; simp)
  rw [hsend] at hkeep
  obtain ⟨hcipher, hrecv⟩ := hkeep
  have hsent : sentBy role (messages ++ [.sent role data]) = sentBy role messages ++ [data] := by simp [sentBy]
  have hreceived : receivedBy role (messages ++ [.sent role data]) = receivedBy role messages := by
    simp [receivedBy]
  have hcounter : stream'.sendCounter = stream.sendCounter + 1 := by
    obtain ⟨-, hcount⟩ | ⟨hne, -⟩ := hcount
    · exact hcount
    · exact absurd rfl (hne n)
  refine ⟨hrole.trans h.atRole, hcipher.trans h.underKey, ?_, ?_, fun e he hne => ?_⟩
  · rw [hsent, List.length_append, hcounter, h.sendCounter]
    rfl
  · rw [hreceived, hrecv, h.recvCounter]
  · rw [hsent]
    rw [henc] at he
    obtain he | he := List.mem_append.mp he
    · obtain ⟨k, hk, hget⟩ := h.encryptions e he hne
      exact ⟨k, hk, by rw [List.getElem?_append_left (List.getElem?_eq_some_iff.mp hget).1, hget]⟩
    · obtain rfl := List.mem_singleton.mp he
      exact ⟨stream.sendCounter, by rw [h.atRole], by rw [h.sendCounter]; simp⟩

theorem EndAt.refuse (h : EndAt cipher role messages stream) {data : List UInt8} {r : Outcome String ℕ}
    (hnone : stream.cipher.encryptInPlace (SecureStream.nonceBytes stream.role stream.sendCounter)
      (SecureStream.totalLenBytes data) data = none)
    (hsend : stream.send data = (r, stream')) : EndAt cipher role messages stream' := by
  rw [SecureStream.send_refused hnone] at hsend
  obtain ⟨-, rfl⟩ := Prod.mk.inj hsend
  refine ⟨h.atRole, h.underKey, h.sendCounter, h.recvCounter, fun e he hne => ?_⟩
  obtain he | he := List.mem_append.mp he
  · exact h.encryptions e he hne
  · obtain rfl := List.mem_singleton.mp he
    rw [h.underKey] at hnone
    exact absurd hnone hne

omit [ByteStream σ] in
theorem EndAt.inner (h : EndAt cipher role messages stream) (inner : σ) :
    EndAt cipher role messages { stream with inner } :=
  ⟨h.atRole, h.underKey, h.sendCounter, h.recvCounter, h.encryptions⟩

omit [ByteStream σ] in
/-- The messages of the other end do not count here. -/
theorem EndAt.other (h : EndAt cipher role messages stream) {m : SessionMessage}
    (hm : ∀ data, m ≠ .sent role data ∧ m ≠ .received role data) : EndAt cipher role (messages ++ [m]) stream := by
  have hsent : sentBy role (messages ++ [m]) = sentBy role messages := by
    cases m with
    | sent role' data =>
        have hne : role' ≠ role := by rintro rfl; exact (hm data).1 rfl
        simp [sentBy, hne]
    | received role' data => simp [sentBy]
  have hreceived : receivedBy role (messages ++ [m]) = receivedBy role messages := by
    cases m with
    | sent role' data => simp [receivedBy]
    | received role' data =>
        have hne : role' ≠ role := by rintro rfl; exact (hm data).2 rfl
        simp [receivedBy, hne]
  refine ⟨h.atRole, h.underKey, ?_, ?_, ?_⟩
  · rw [hsent]
    exact h.sendCounter
  · rw [hreceived]
    exact h.recvCounter
  · rw [hsent]
    exact h.encryptions

theorem EndAt.recv (h : EndAt cipher role messages stream) {data : List UInt8} {n : ℕ}
    (hrecv : stream.recv = (.ok (data, n), stream')) :
    EndAt cipher role (messages ++ [.received role data]) stream' := by
  have hsent : sentBy role (messages ++ [.received role data]) = sentBy role messages := by simp [sentBy]
  have hreceived : receivedBy role (messages ++ [.received role data]) = receivedBy role messages ++ [data] := by
    simp [receivedBy]
  obtain ⟨_, _, _, _, -, -, -, hs⟩ | ⟨hne, -⟩ := SecureStream.recv_cases hrecv
  · rw [hs]
    refine ⟨h.atRole, h.underKey, ?_, ?_, ?_⟩
    · rw [hsent]
      exact h.sendCounter
    · rw [hreceived, List.length_append, h.recvCounter]
      rfl
    · rw [hsent]
      exact h.encryptions
  · exact absurd rfl (hne (data, n))

theorem EndAt.recvFailed (h : EndAt cipher role messages stream) {r : Outcome String (List UInt8 × ℕ)}
    (hrecv : stream.recv = (r, stream')) (hr : ∀ a, r ≠ .ok a) : EndAt cipher role messages stream' := by
  obtain ⟨_, _, data, n, rfl, -⟩ | ⟨-, hs⟩ := SecureStream.recv_cases hrecv
  · exact absurd rfl (hr (data, n))
  · rw [hs]
    exact h.inner _

omit [ByteStream σ] in
/-- One end is replaced, and the other one stays. -/
theorem endAt_setEnd {s : Session σ} (hself : EndAt cipher role messages stream)
    (hother : ∀ role', role' ≠ role → EndAt cipher role' messages (s.atEnd role')) :
    ∀ role', EndAt cipher role' messages ((s.setEnd role stream).atEnd role') := by
  intro role'
  by_cases hrole : role' = role
  · subst hrole
    rw [atEnd_setEnd_self]
    exact hself
  · rw [atEnd_setEnd_ne s hrole]
    exact hother role' hrole

/-- **The ends of a dialogue.** -/
theorem Dialogue.endAt {listener initiator : σ} {s : Session σ}
    (h : Dialogue (.new listener initiator cipher) messages s) :
    ∀ role, EndAt cipher role messages (s.atEnd role) := by
  induction h with
  | nil =>
      intro role
      cases role <;> exact ⟨rfl, rfl, rfl, rfl, fun e he => absurd he (by simp [new, atEnd, SecureStream.new])⟩
  | send role data _ hsend ih =>
      exact endAt_setEnd ((ih role).send hsend) fun role' hne => (ih role').other fun data' => by simp [hne.symm]
  | refuse role data _ hnone hsend ih =>
      exact endAt_setEnd ((ih role).refuse hnone hsend) fun role' _ => ih role'
  | @recv s₁ messages role data n stream _ _ hrecv ih =>
      exact endAt_setEnd ((ih role).recv hrecv) fun role' hne => (ih role').other fun data' => by simp [hne.symm]
  | recvFailed role _ hrecv hr ih =>
      exact endAt_setEnd ((ih role).recvFailed hrecv hr) fun role' _ => ih role'
  | deliver role inner _ ih =>
      exact endAt_setEnd ((ih role).inner inner) fun role' _ => ih role'

/-! ### What is received -/

theorem prefix_snoc {α : Type} {l l' : List α} {a : α} (h : l <+: l') (ha : l'[l.length]? = some a) :
    l ++ [a] <+: l' := by
  obtain ⟨rest, rfl⟩ := h
  rw [List.getElem?_append_right le_rfl, Nat.sub_self] at ha
  cases rest with
  | nil => cases ha
  | cons b rest =>
      obtain rfl : b = a := by simpa using ha
      exact ⟨rest, by simp⟩

/-- **A received message** is the next one that the other end sent: the role in the nonce names the
other end, and the counter in it the position. -/
theorem received_next {s : Session σ} (hend : ∀ role, EndAt cipher role messages (s.atEnd role))
    (hlt : ∀ role, (sentBy role messages).length < 2 ^ 64)
    (hbound : (receivedBy role messages).length < 2 ^ 64) (hu : s.Unforged role) {data : List UInt8} {n : ℕ}
    (hrecv : (s.atEnd role).recv = (.ok (data, n), stream)) :
    (sentBy (SecureStream.peer role) messages)[(receivedBy role messages).length]? = some data := by
  obtain ⟨lenBuf, buffer, data', n', heq, hin, hdec, -⟩ | ⟨hne, -⟩ := SecureStream.recv_cases hrecv
  · obtain ⟨rfl, -⟩ : data = data' ∧ n = n' := by simpa using heq
    obtain ⟨role', e, he, hnonce, -, hdata, henc⟩ := hu lenBuf buffer data hin hdec
    rw [(hend role').underKey] at henc
    obtain ⟨k, hk, hget⟩ := (hend role').encryptions e he (by simp [henc])
    have hklt : k < (sentBy role' messages).length := (List.getElem?_eq_some_iff.mp hget).1
    have hk64 := hlt role'
    rw [hk, (hend role).atRole, (hend role).recvCounter] at hnonce
    obtain ⟨rfl, rfl⟩ := nonceBytes_inj (by omega) hbound hnonce
    rw [hget, hdata]
  · exact absurd rfl (hne (data, n))

theorem sentBy_length_le (role : ConnectionRole) (messages : List SessionMessage) (m : SessionMessage) :
    (sentBy role messages).length ≤ (sentBy role (messages ++ [m])).length := by
  simp [sentBy]

/-- **Integrity of the stream.** -/
theorem stream_integrity {listener initiator : σ} {s : Session σ}
    (h : Dialogue (.new listener initiator cipher) messages s)
    (hlt : ∀ role, (sentBy role messages).length < 2 ^ 64) (role : ConnectionRole) :
    receivedBy role messages <+: sentBy (SecureStream.peer role) messages := by
  induction h generalizing role with
  | nil => exact List.nil_prefix
  | @send s₁ messages role' data n stream _ _ ih =>
      have hreceived : receivedBy role (messages ++ [.sent role' data]) = receivedBy role messages := by
        simp [receivedBy]
      rw [hreceived]
      refine (ih (fun r => (sentBy_length_le r _ _).trans_lt (hlt r)) role).trans ?_
      simp [sentBy]
  | refuse role' data _ _ _ ih => exact ih hlt role
  | @recv s₁ messages role' data n stream hd hu hrecv ih =>
      have hlt' : ∀ r, (sentBy r messages).length < 2 ^ 64 := fun r => (sentBy_length_le r _ _).trans_lt (hlt r)
      have hsent : sentBy (SecureStream.peer role) (messages ++ [.received role' data]) =
          sentBy (SecureStream.peer role) messages := by simp [sentBy]
      rw [hsent]
      by_cases hrole : role' = role
      · subst hrole
        have hpre := ih hlt' role'
        have hreceived : receivedBy role' (messages ++ [.received role' data]) =
            receivedBy role' messages ++ [data] := by simp [receivedBy]
        rw [hreceived]
        exact prefix_snoc hpre (received_next hd.endAt hlt'
          (hpre.length_le.trans_lt (hlt' _)) hu hrecv)
      · have hreceived : receivedBy role (messages ++ [.received role' data]) = receivedBy role messages := by
          simp [receivedBy, hrole]
        rw [hreceived]
        exact ih hlt' role
  | recvFailed role' _ _ _ ih => exact ih hlt role
  | deliver role' inner _ ih => exact ih hlt role

end Session

/-! ### A reflected and a replayed packet -/

/-- The bytes that are still to be read, and those that were written. -/
structure Pipe where
  unread : List UInt8
  written : List UInt8
deriving DecidableEq

instance : ByteStream Pipe where
  writeAll bytes pipe := (.ok (), { pipe with written := pipe.written ++ bytes })
  readExact len pipe :=
    if len ≤ pipe.unread.length then (.ok (pipe.unread.take len), { pipe with unread := pipe.unread.drop len })
    else (.err "early eof", { pipe with unread := [] })

/-- A cipher whose tag is the nonce and the associated data. -/
def labelCipher : Cipher where
  encryptInPlace nonce associatedData data := some (data ++ (nonce ++ associatedData))
  decryptInPlace nonce associatedData buffer :=
    if buffer.drop (buffer.length - 16) = nonce ++ associatedData then some (buffer.take (buffer.length - 16))
    else none

namespace Session

/-- The initiator sends one byte. -/
def pipeSent : Session Pipe :=
  ⟨.new ⟨[], []⟩ labelCipher .listener, (SecureStream.send [7] (.new ⟨[], []⟩ labelCipher .initiator)).2⟩

/-- The packet is delivered to both ends, to the listener twice. -/
def pipeDelivered : Session Pipe :=
  ⟨{ pipeSent.listener with inner := ⟨pipeSent.initiator.inner.written ++ pipeSent.initiator.inner.written, []⟩ },
    { pipeSent.initiator with inner := ⟨pipeSent.initiator.inner.written, []⟩ }⟩

/-- Each end receives, the listener twice. -/
def pipeReceived : Session Pipe :=
  ⟨(SecureStream.recv (SecureStream.recv pipeDelivered.listener).2).2, (SecureStream.recv pipeDelivered.initiator).2⟩

theorem unforged_pipe : Unforged ⟨pipeDelivered.listener, pipeReceived.initiator⟩ .listener := by
  intro lenBuf buffer data hin hdec
  obtain ⟨rfl, rfl⟩ : [0, 0, 0, 17] = lenBuf ∧ [7, 0, 0, 0, 0, 0, 0, 0, 0, 0, 0, 0, 0, 0, 0, 0, 17] = buffer := by
    have hin' : (SecureStream.incoming pipeDelivered.listener).1 = .ok ([0, 0, 0, 17],
      [7, 0, 0, 0, 0, 0, 0, 0, 0, 0, 0, 0, 0, 0, 0, 0, 17]) := by decide +kernel
    simpa using hin'.symm.trans hin
  obtain rfl : [7] = data := Option.some.inj (Eq.trans (by decide +kernel) hdec)
  exact ⟨.initiator, ⟨SecureStream.nonceBytes .initiator 0, SecureStream.totalLenBytes [7], [7]⟩,
    by decide +kernel, by decide +kernel, by decide +kernel, rfl, by decide +kernel⟩

theorem dialogue_pipe : Dialogue (.new ⟨[], []⟩ ⟨[], []⟩ labelCipher)
    [.sent .initiator [7], .received .listener [7]] pipeReceived := by
  have h1 : Dialogue (.new ⟨[], []⟩ ⟨[], []⟩ labelCipher) [.sent .initiator [7]] pipeSent :=
    .send .initiator [7] (.nil _) (Act.eq_of_fst (r := .ok 21) (by decide +kernel))
  have h2 : Dialogue (.new ⟨[], []⟩ ⟨[], []⟩ labelCipher) [.sent .initiator [7]] pipeDelivered :=
    .deliver .initiator _ (.deliver .listener _ h1)
  -- the initiator does not take its own packet
  have h3 := h2.recvFailed .initiator (r := .err "Decryption error") (Prod.ext (by decide +kernel) rfl) (by simp)
  have h4 := h3.recv .listener unforged_pipe (Act.eq_of_fst (r := .ok ([7], 21)) (by decide +kernel))
  -- the listener does not take the packet a second time
  exact h4.recvFailed .listener (r := .err "Decryption error") (Prod.ext (by decide +kernel) rfl) (by simp)

theorem stream_integrity_pipe :
    receivedBy .listener [.sent .initiator [7], .received .listener [7]] <+:
      sentBy (SecureStream.peer .listener) [.sent .initiator [7], .received .listener [7]] :=
  stream_integrity dialogue_pipe (fun role => by cases role <;> decide) .listener

end Session

end MpcCore
