import MpcCore.MeshReceive
import MpcCore.StreamFraming

/-! # The two ends of a stream at once

Both ends of a session send and receive, over pipes that lose and reorder nothing, while the bytes
travel in pieces of any size.

* `Packets`: the bytes of the messages that an end has sent and the other has still to receive.
  `Carries`: these bytes are what lies between the two ends, in one direction.
* A call at one end changes one direction and leaves the other: `Carries.send`, `Carries.recv` and
  `Carries.deliver`, each with its frame.
* `Conversation`: the calls and the pieces in any order.  `conversation`: in each direction the
  messages that are sent are those received and those still to come, in order, and no receive fails. -/

namespace MpcCore

open MeshNetwork (OpenPipe)

namespace SecureStream

/-- The bytes of some messages, the first of them sent under a value of the counter.  Every message fits
the header. -/
inductive Packets (cipher : Cipher) (role : ConnectionRole) : ℕ → List (List UInt8) → List UInt8 → Prop where
  | nil (counter : ℕ) : Packets cipher role counter [] []
  | cons {counter : ℕ} {data buffer bytes : List UInt8} {messages : List (List UInt8)}
      (henc : cipher.encryptInPlace (nonceBytes role counter) (totalLenBytes data) data = some buffer)
      (hfits : data.length + tagLen < 2 ^ 32) (h : Packets cipher role (counter + 1) messages bytes) :
      Packets cipher role counter (data :: messages) (totalLenBytes data ++ (buffer ++ bytes))

theorem Packets.eq_nil {cipher : Cipher} {role : ConnectionRole} {counter : ℕ} {bytes : List UInt8}
    (h : Packets cipher role counter [] bytes) : bytes = [] := by
  cases h
  rfl

theorem Packets.snoc {cipher : Cipher} {role : ConnectionRole} {counter : ℕ} {messages : List (List UInt8)}
    {data buffer bytes : List UInt8} (h : Packets cipher role counter messages bytes)
    (henc : cipher.encryptInPlace (nonceBytes role (counter + messages.length)) (totalLenBytes data) data = some buffer)
    (hfits : data.length + tagLen < 2 ^ 32) :
    Packets cipher role counter (messages ++ [data]) (bytes ++ (totalLenBytes data ++ buffer)) := by
  induction h with
  | nil counter => simpa using Packets.cons henc hfits (.nil (counter + 1))
  | @cons counter data' buffer' bytes' messages henc' hfits' _ ih =>
      have hcounter : counter + 1 + messages.length = counter + (data' :: messages).length := by
        rw [List.length_cons]
        omega
      rw [hcounter] at ih
      simpa using Packets.cons henc' hfits' (ih henc)

/-- What lies between a sender and a receiver are the packets of some messages. -/
structure Carries (sender receiver : SecureStream OpenPipe) (messages : List (List UInt8)) : Prop where
  cipher : receiver.cipher = sender.cipher
  role : receiver.role = peer sender.role
  counter : sender.sendCounter = receiver.recvCounter + messages.length
  below : sender.sendCounter < 2 ^ 64
  packets : Packets sender.cipher sender.role receiver.recvCounter messages
    (receiver.inner.unread ++ sender.inner.written)

variable {a b a' b' : SecureStream OpenPipe} {messages : List (List UInt8)} {data : List UInt8}

theorem carries_new (cipher : Cipher) (role : ConnectionRole) :
    Carries (.new ⟨[], []⟩ cipher role) (.new ⟨[], []⟩ cipher (peer role)) [] where
  cipher := rfl
  role := rfl
  counter := rfl
  below := by simp [SecureStream.new]
  packets := .nil 0

/-! ### Sending -/

theorem send_pipe {n : ℕ} (h : send data a = (.ok n, a')) :
    ∃ buffer, a.cipher.encryptInPlace (nonceBytes a.role a.sendCounter) (totalLenBytes data) data = some buffer ∧
      n = u32Len + (data.length + tagLen) ∧ a.sendCounter + 1 < 2 ^ 64 ∧
      a' = ⟨⟨a.inner.unread, a.inner.written ++ (totalLenBytes data ++ buffer)⟩, a.cipher, a.sendCounter + 1,
        a.recvCounter, a.role, a'.encryptions⟩ := by
  obtain ⟨buffer, inner₁, henc, hw₁, hw₂, hn, hcipher, hrole, hcount, hlt⟩ := send_eq_ok h
  have hkeeps := send_keeps data a (by rw [h]; simp)
  rw [h] at hkeeps
  obtain ⟨-, rfl⟩ := Prod.mk.inj hw₁
  obtain ⟨-, hinner⟩ := Prod.mk.inj hw₂
  refine ⟨buffer, henc, hn, hcount ▸ hlt, ?_⟩
  cases a' with
  | mk inner cipher sendCounter recvCounter role encryptions =>
      simp only at hcipher hrole hcount hinner
      have hrecv : recvCounter = a.recvCounter := hkeeps.2
      rw [← hinner, hcipher, hrole, hcount, hrecv, List.append_assoc]

/-- A message that is sent is the last one to be received. -/
theorem Carries.send (h : Carries a b messages) {n : ℕ} (hsend : SecureStream.send data a = (.ok n, a'))
    (hfits : data.length + tagLen < 2 ^ 32) : Carries a' b (messages ++ [data]) := by
  obtain ⟨buffer, henc, -, hlt, ha'⟩ := send_pipe hsend
  rw [h.counter] at henc
  rw [ha']
  refine ⟨h.cipher, h.role, ?_, hlt, ?_⟩
  · simp only [h.counter, List.length_append, List.length_singleton]
    omega
  · have hsnoc := h.packets.snoc henc hfits
    rwa [List.append_assoc] at hsnoc

theorem Carries.of_send (h : Carries b a messages) {n : ℕ} (hsend : SecureStream.send data a = (.ok n, a')) :
    Carries b a' messages := by
  obtain ⟨buffer, -, -, -, ha'⟩ := send_pipe hsend
  rw [ha']
  exact ⟨h.cipher, h.role, h.counter, h.below, h.packets⟩

theorem exists_send (haead : IsAead a.cipher) {buffer : List UInt8}
    (henc : a.cipher.encryptInPlace (nonceBytes a.role a.sendCounter) (totalLenBytes data) data = some buffer)
    (hlt : a.sendCounter + 1 < 2 ^ 64) : ∃ a', SecureStream.send data a = (.ok (u32Len + (data.length + tagLen)), a') := by
  have hassert : (buffer.length == data.length + tagLen) = true := by
    rw [haead.length henc, beq_self_eq_true]
  have hencrypt : encrypt data a = (.ok buffer, { a with
      encryptions := a.encryptions ++ [⟨nonceBytes a.role a.sendCounter, totalLenBytes data, data⟩] }) := by
    simp only [encrypt, henc]
  have hcount : ∀ inner encryptions, countSend (⟨inner, a.cipher, a.sendCounter, a.recvCounter, a.role, encryptions⟩ :
      SecureStream OpenPipe) = (.ok (), ⟨inner, a.cipher, a.sendCounter + 1, a.recvCounter, a.role, encryptions⟩) := by
    intro inner encryptions
    simp only [countSend, if_pos hlt]
  refine ⟨⟨⟨a.inner.unread, a.inner.written ++ totalLenBytes data ++ buffer⟩, a.cipher, a.sendCounter + 1, a.recvCounter,
    a.role, a.encryptions ++ [⟨nonceBytes a.role a.sendCounter, totalLenBytes data, data⟩]⟩, ?_⟩
  unfold SecureStream.send
  rw [Act.bind_of_ok hencrypt, hassert]
  exact Act.bind_of_ok (hcount ⟨a.inner.unread, a.inner.written ++ totalLenBytes data ++ buffer⟩ _)

/-! ### Receiving -/

theorem readExact_hang {len : ℕ} (h : b.inner.unread.length < len) : readExact len b = (.hang, b) := by
  simp only [readExact, ByteStream.readExact, if_neg (not_le.mpr h)]

theorem readExact_pipe {bytes rest : List UInt8} (h : b.inner.unread = bytes ++ rest) :
    readExact bytes.length b = (.ok bytes, { b with inner := ⟨rest, b.inner.written⟩ }) := by
  have hle : bytes.length ≤ b.inner.unread.length := by
    rw [h, List.length_append]
    omega
  simp only [readExact, ByteStream.readExact, if_pos hle]
  rw [h, List.take_left, List.drop_left]

/-- Two splits of the same bytes: either all of the first part is there, or something of it is missing. -/
theorem split_arrived {unread written first rest : List UInt8} (h : unread ++ written = first ++ rest) :
    (∃ unread', unread = first ++ unread' ∧ unread' ++ written = rest) ∨ unread.length < first.length := by
  obtain ⟨missing, hfirst, hrest⟩ | ⟨unread', hunread, hrest⟩ := List.append_eq_append_iff.mp h
  · cases missing with
    | nil => exact .inl ⟨[], by simpa using hfirst.symm, by simpa using hrest⟩
    | cons _ _ =>
        right
        rw [hfirst, List.length_append, List.length_cons]
        omega
  · exact .inl ⟨unread', hunread, hrest.symm⟩

theorem recv_hang_header (h : b.inner.unread.length < u32Len) : (recv b).1 = .hang := by
  simp only [recv, Act.bind, readExact_hang h]

/-- What a receive does once its header is there. -/
theorem recv_pipe_header {rest : List UInt8} (hfits : data.length + tagLen < 2 ^ 32)
    (h : b.inner.unread = totalLenBytes data ++ rest) :
    recv b = ((readExact (data.length + tagLen)).bind fun buffer => (decrypt (totalLenBytes data) buffer).bind fun data' =>
      countRecv.bind fun _ => .ret (.ok (data', u32Len + (data.length + tagLen))))
        { b with inner := ⟨rest, b.inner.written⟩ } := by
  have hheader : (totalLenBytes data).length = u32Len := beBytes_length 4 _
  have hlen : fromBeBytes (totalLenBytes data) = data.length + tagLen := by
    rw [fromBeBytes_totalLenBytes, Nat.mod_eq_of_lt hfits]
  have hread := readExact_pipe h
  rw [hheader] at hread
  unfold recv
  rw [Act.bind_of_ok hread, hlen, if_neg (by omega)]

/-- **One receive** returns the first message, or does not return because some of its packet is missing. -/
theorem Carries.recv_cases (haead : IsAead a.cipher) (h : Carries a b messages) :
    (∃ data rest unread, messages = data :: rest ∧
      SecureStream.recv b = (.ok (data, u32Len + (data.length + tagLen)),
        { b with inner := ⟨unread, b.inner.written⟩, recvCounter := b.recvCounter + 1 }) ∧
      Packets a.cipher a.role (b.recvCounter + 1) rest (unread ++ a.inner.written)) ∨
    (SecureStream.recv b).1 = .hang ∧ (a.inner.written = [] → messages = []) := by
  have hpackets := h.packets
  have hbelow : b.recvCounter + messages.length < 2 ^ 64 := h.counter ▸ h.below
  generalize hbytes : b.inner.unread ++ a.inner.written = bytes at hpackets
  cases hpackets with
  | nil =>
      right
      have hnil : b.inner.unread = [] := (List.append_eq_nil_iff.mp hbytes).1
      refine ⟨recv_hang_header ?_, fun _ => rfl⟩
      rw [hnil]
      decide
  | @cons _ data buffer rest messages henc hfits hrest =>
      have hbuffer := haead.length henc
      obtain ⟨unread₁, hunread, hbytes₁⟩ | hshort := split_arrived hbytes
      · have hrecv := recv_pipe_header hfits hunread
        obtain ⟨unread₂, rfl, hbytes₂⟩ | hshort := split_arrived hbytes₁
        · left
          have hread := readExact_pipe (b := { b with inner := ⟨buffer ++ unread₂, b.inner.written⟩ }) rfl
          have hdec : decrypt (totalLenBytes data) buffer
              ({ b with inner := ⟨unread₂, b.inner.written⟩ } : SecureStream OpenPipe) =
                (.ok data, { b with inner := ⟨unread₂, b.inner.written⟩ }) := by
            simp only [decrypt, h.cipher, h.role, peer_peer, haead.decrypt henc]
          have hcount : countRecv ({ b with inner := ⟨unread₂, b.inner.written⟩ } : SecureStream OpenPipe) =
              (.ok (), { b with inner := ⟨unread₂, b.inner.written⟩, recvCounter := b.recvCounter + 1 }) := by
            rw [List.length_cons] at hbelow
            have hlt : b.recvCounter + 1 < 2 ^ 64 := by omega
            simp only [countRecv, if_pos hlt]
          refine ⟨data, messages, unread₂, rfl, ?_, hbytes₂ ▸ hrest⟩
          rw [hrecv, ← hbuffer, Act.bind_of_ok hread, Act.bind_of_ok hdec, Act.bind_of_ok hcount]
          rfl
        · -- the header is there, the buffer is not
          right
          refine ⟨?_, fun hnil => ?_⟩
          · rw [hrecv]
            rw [hbuffer] at hshort
            simp only [Act.bind, readExact_hang (b := { b with inner := ⟨unread₁, b.inner.written⟩ }) hshort]
          · rw [hnil, List.append_nil] at hbytes₁
            rw [hbytes₁, List.length_append] at hshort
            omega
      · right
        have hheader : (totalLenBytes data).length = u32Len := beBytes_length 4 _
        refine ⟨recv_hang_header (hheader ▸ hshort), fun hnil => ?_⟩
        rw [hnil, List.append_nil] at hbytes
        rw [hbytes, List.length_append] at hshort
        omega

/-- A receive that returns takes the first message. -/
theorem Carries.recv (haead : IsAead a.cipher) (h : Carries a b messages) {r : Outcome String (List UInt8 × ℕ)}
    (hrecv : SecureStream.recv b = (r, b')) (hr : r ≠ .hang) :
    ∃ data rest, messages = data :: rest ∧ r = .ok (data, u32Len + (data.length + tagLen)) ∧ Carries a b' rest := by
  obtain ⟨data, rest, unread, rfl, heq, hpackets⟩ | ⟨hhang, -⟩ := h.recv_cases haead
  · obtain ⟨rfl, rfl⟩ := Prod.mk.inj (hrecv.symm.trans heq)
    refine ⟨data, rest, rfl, rfl, h.cipher, h.role, ?_, h.below, hpackets⟩
    rw [h.counter, List.length_cons]
    dsimp only
    omega
  · rw [hrecv] at hhang
    exact absurd hhang hr

theorem Carries.of_recv (haead : IsAead a.cipher) (h : Carries a b messages) {back : List (List UInt8)}
    (hback : Carries b a back) {r : Outcome String (List UInt8 × ℕ)} (hrecv : SecureStream.recv b = (r, b'))
    (hr : r ≠ .hang) : Carries b' a back := by
  obtain ⟨data, rest, unread, rfl, heq, -⟩ | ⟨hhang, -⟩ := h.recv_cases haead
  · obtain ⟨-, rfl⟩ := Prod.mk.inj (hrecv.symm.trans heq)
    exact ⟨hback.cipher, hback.role, hback.counter, hback.below, hback.packets⟩
  · rw [hrecv] at hhang
    exact absurd hhang hr

/-- Once all bytes have arrived, the first message can be received. -/
theorem Carries.recv_ready (haead : IsAead a.cipher) {rest : List (List UInt8)} (h : Carries a b (data :: rest))
    (hall : a.inner.written = []) : ∃ b', SecureStream.recv b = (.ok (data, u32Len + (data.length + tagLen)), b') := by
  obtain ⟨data', rest', unread, heq, hrecv, -⟩ | ⟨-, hnil⟩ := h.recv_cases haead
  · obtain ⟨rfl, rfl⟩ := List.cons.inj heq
    exact ⟨_, hrecv⟩
  · cases hnil hall

/-! ### The bytes on their way -/

/-- An end whose first `k` bytes have left it. -/
def departed (k : ℕ) (s : SecureStream OpenPipe) : SecureStream OpenPipe :=
  { s with inner := ⟨s.inner.unread, s.inner.written.drop k⟩ }

/-- An end at which some bytes have come in. -/
def reached (bytes : List UInt8) (s : SecureStream OpenPipe) : SecureStream OpenPipe :=
  { s with inner := ⟨s.inner.unread ++ bytes, s.inner.written⟩ }

theorem Carries.deliver (h : Carries a b messages) (k : ℕ) :
    Carries (departed k a) (reached (a.inner.written.take k) b) messages := by
  refine ⟨h.cipher, h.role, h.counter, h.below, ?_⟩
  have hpackets := h.packets
  rwa [← List.take_append_drop k a.inner.written, ← List.append_assoc] at hpackets

theorem Carries.of_deliver (h : Carries b a messages) (k : ℕ) (bytes : List UInt8) :
    Carries (reached bytes b) (departed k a) messages :=
  ⟨h.cipher, h.role, h.counter, h.below, h.packets⟩

end SecureStream

/-! ### Conversations -/

namespace Session

open SecureStream (peer peer_peer Carries departed reached u32Len tagLen)

/-- Some of the bytes that an end has written reach the other end. -/
def deliver (s : Session OpenPipe) (role : ConnectionRole) (k : ℕ) : Session OpenPipe :=
  (s.setEnd role (departed k (s.atEnd role))).setEnd (peer role)
    (reached ((s.atEnd role).inner.written.take k) (s.atEnd (peer role)))

/-- Sends and receives at the two ends of a new session, and bytes that arrive, in any order. -/
inductive Conversation (cipher : Cipher) : List SessionMessage → Session OpenPipe → Prop where
  | start : Conversation cipher [] (.new ⟨[], []⟩ ⟨[], []⟩ cipher)
  | send {s : Session OpenPipe} {log : List SessionMessage} (role : ConnectionRole) {data : List UInt8} {n : ℕ}
      {stream : SecureStream OpenPipe} (h : Conversation cipher log s)
      (hsend : (s.atEnd role).send data = (.ok n, stream)) (hfits : data.length + tagLen < 2 ^ 32) :
      Conversation cipher (log ++ [.sent role data]) (s.setEnd role stream)
  | recv {s : Session OpenPipe} {log : List SessionMessage} (role : ConnectionRole) {data : List UInt8} {n : ℕ}
      {stream : SecureStream OpenPipe} (h : Conversation cipher log s)
      (hrecv : (s.atEnd role).recv = (.ok (data, n), stream)) :
      Conversation cipher (log ++ [.received role data]) (s.setEnd role stream)
  | deliver {s : Session OpenPipe} {log : List SessionMessage} (role : ConnectionRole) (k : ℕ)
      (h : Conversation cipher log s) : Conversation cipher log (s.deliver role k)

/-- In one direction: what is sent and not received lies between the two ends. -/
structure Pending (cipher : Cipher) (log : List SessionMessage) (s : Session OpenPipe) (role : ConnectionRole)
    (pending : List (List UInt8)) : Prop where
  underKey : (s.atEnd role).cipher = cipher
  sent : sentBy role log = receivedBy (peer role) log ++ pending
  carries : Carries (s.atEnd role) (s.atEnd (peer role)) pending

theorem peer_ne (role : ConnectionRole) : peer role ≠ role := by
  cases role <;> simp [peer]

theorem eq_or_eq_peer (role role' : ConnectionRole) : role' = role ∨ role' = peer role := by
  cases role <;> cases role' <;> simp [peer]

section log

variable (role role' : ConnectionRole) (data : List UInt8) (log : List SessionMessage)

theorem sentBy_sent : sentBy role' (log ++ [.sent role data]) =
    sentBy role' log ++ if role = role' then [data] else [] := by
  by_cases h : role = role' <;> simp [sentBy, h]

theorem sentBy_received : sentBy role' (log ++ [.received role data]) = sentBy role' log := by
  simp [sentBy]

theorem receivedBy_sent : receivedBy role' (log ++ [.sent role data]) = receivedBy role' log := by
  simp [receivedBy]

theorem receivedBy_received : receivedBy role' (log ++ [.received role data]) =
    receivedBy role' log ++ if role = role' then [data] else [] := by
  by_cases h : role = role' <;> simp [receivedBy, h]

end log

/-- **Both directions**, after any steps. -/
theorem Conversation.pending {cipher : Cipher} (haead : IsAead cipher) {log : List SessionMessage}
    {s : Session OpenPipe} (h : Conversation cipher log s) (role : ConnectionRole) :
    ∃ pending, Pending cipher log s role pending := by
  induction h generalizing role with
  | start =>
      refine ⟨[], ?_, rfl, ?_⟩
      · cases role <;> rfl
      · cases role
        · exact SecureStream.carries_new cipher .listener
        · exact SecureStream.carries_new cipher .initiator
  | @send s log sender data n stream _ hsend hfits ih =>
      obtain ⟨pending, hkey, hsent, hcarries⟩ := ih role
      obtain rfl | rfl := eq_or_eq_peer sender role
      · refine ⟨pending ++ [data], ?_, ?_, ?_⟩
        · obtain ⟨_, -, -, -, heq⟩ := SecureStream.send_pipe hsend
          rw [atEnd_setEnd_self, heq]
          exact hkey
        · rw [sentBy_sent, receivedBy_sent, hsent, if_pos rfl, List.append_assoc]
        · rw [atEnd_setEnd_self, atEnd_setEnd_ne _ (peer_ne _)]
          exact hcarries.send hsend hfits
      · rw [peer_peer] at hcarries hsent
        refine ⟨pending, ?_, ?_, ?_⟩
        · rw [atEnd_setEnd_ne _ (peer_ne _)]
          exact hkey
        · rw [sentBy_sent, receivedBy_sent, peer_peer, hsent, if_neg (peer_ne _).symm, List.append_nil]
        · rw [atEnd_setEnd_ne _ (peer_ne _), peer_peer, atEnd_setEnd_self]
          exact hcarries.of_send hsend
  | @recv s log receiver data n stream _ hrecv ih =>
      obtain ⟨back, hkeyBack, hsentBack, hback⟩ := ih receiver
      obtain ⟨pending, hkey, hsent, hcarries⟩ := ih (peer receiver)
      rw [peer_peer] at hcarries hsent
      obtain rfl | rfl := eq_or_eq_peer receiver role
      · refine ⟨back, ?_, ?_, ?_⟩
        · obtain ⟨_, _, _, -, heq, -⟩ | ⟨hhang, -⟩ := hcarries.recv_cases (hkey ▸ haead)
          · obtain ⟨-, rfl⟩ := Prod.mk.inj (hrecv.symm.trans heq)
            rw [atEnd_setEnd_self]
            exact hkeyBack
          · rw [hrecv] at hhang
            cases hhang
        · rw [sentBy_received, receivedBy_received, hsentBack, if_neg (peer_ne _).symm, List.append_nil]
        · rw [atEnd_setEnd_self, atEnd_setEnd_ne _ (peer_ne _)]
          exact hcarries.of_recv (hkey ▸ haead) hback hrecv (by simp)
      · obtain ⟨data', rest, rfl, hok, hcarries'⟩ := hcarries.recv (hkey ▸ haead) hrecv (by simp)
        obtain ⟨rfl, -⟩ := Prod.mk.inj (Outcome.ok.inj hok)
        refine ⟨rest, ?_, ?_, ?_⟩
        · rw [atEnd_setEnd_ne _ (peer_ne _)]
          exact hkey
        · rw [sentBy_received, receivedBy_received, peer_peer, hsent, if_pos rfl, List.append_assoc]
          rfl
        · rw [atEnd_setEnd_ne _ (peer_ne _), peer_peer, atEnd_setEnd_self]
          exact hcarries'
  | @deliver s log sender k _ ih =>
      obtain ⟨pending, hkey, hsent, hcarries⟩ := ih role
      have hself : (s.deliver sender k).atEnd sender = departed k (s.atEnd sender) := by
        rw [Session.deliver, atEnd_setEnd_ne _ (peer_ne _).symm, atEnd_setEnd_self]
      have hpeer : (s.deliver sender k).atEnd (peer sender) =
          reached ((s.atEnd sender).inner.written.take k) (s.atEnd (peer sender)) := by
        rw [Session.deliver, atEnd_setEnd_self]
      refine ⟨pending, ?_, hsent, ?_⟩
      · obtain rfl | rfl := eq_or_eq_peer sender role
        · rw [hself]
          exact hkey
        · rw [hpeer]
          exact hkey
      · obtain rfl | rfl := eq_or_eq_peer sender role
        · rw [hself, hpeer]
          exact hcarries.deliver k
        · rw [peer_peer] at hcarries ⊢
          rw [hself, hpeer]
          exact hcarries.of_deliver k _

/-- **Conversation.**  Whatever has happened, in each direction the messages sent are those received,
in order, followed by those still to come.  A receive that returns returns the first of these, with the
byte count of its send, and it does return once the bytes written have arrived. -/
theorem conversation {cipher : Cipher} (haead : IsAead cipher) {log : List SessionMessage} {s : Session OpenPipe}
    (h : Conversation cipher log s) (role : ConnectionRole) :
    ∃ pending, sentBy role log = receivedBy (peer role) log ++ pending ∧
      (∀ r, ((s.atEnd (peer role)).recv).1 = r → r ≠ .hang → ∃ data rest, pending = data :: rest ∧
        r = .ok (data, u32Len + (data.length + tagLen))) ∧
      ((s.atEnd role).inner.written = [] → pending ≠ [] → ((s.atEnd (peer role)).recv).1 ≠ .hang) := by
  obtain ⟨pending, hkey, hsent, hcarries⟩ := h.pending haead role
  refine ⟨pending, hsent, fun r hr hne => ?_, fun hall hpending => ?_⟩
  · obtain ⟨data, rest, heq, hok, -⟩ := hcarries.recv (hkey ▸ haead) (Prod.ext hr rfl) hne
    exact ⟨data, rest, heq, hok⟩
  · obtain ⟨data, rest, rfl⟩ := List.exists_cons_of_ne_nil hpending
    obtain ⟨_, hok⟩ := hcarries.recv_ready (hkey ▸ haead) hall
    rw [hok]
    simp

/-- Each end sends a message, and the packet of the initiator arrives. -/
def crossing : Session OpenPipe :=
  let s : Session OpenPipe := .new ⟨[], []⟩ ⟨[], []⟩ tagCipher
  let s := s.setEnd .initiator (s.initiator.send [7, 8]).2
  let s := s.setEnd .listener (s.listener.send [9]).2
  s.deliver .initiator 22

theorem conversation_crossing : Conversation tagCipher [.sent .initiator [7, 8], .sent .listener [9]] crossing ∧
    ∃ pending : List (List UInt8), [[7, 8]] = [] ++ pending ∧ (crossing.listener.recv).1 ≠ .hang := by
  have hcrossing : Conversation tagCipher ([] ++ [.sent .initiator [7, 8]] ++ [.sent .listener [9]]) crossing :=
    ((Conversation.start.send .initiator rfl (by decide)).send .listener rfl (by decide)).deliver .initiator 22
  obtain ⟨pending, hsent, -, hready⟩ := conversation SecureStream.isAead_tagCipher hcrossing .initiator
  refine ⟨hcrossing, pending, hsent, hready rfl ?_⟩
  rintro rfl
  cases hsent

end Session

end MpcCore
