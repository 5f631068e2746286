import MpcCore.Lib.Outcome
import MpcCore.Lib.BigEndian
import Mathlib.Data.List.Chain

/-! # The encrypted stream

`SecureStream` over any byte stream and any authenticated cipher, and the sends of the two ends of
one session in any order.

* The byte stream is a class; whatever part of the bytes went out or came in before a failure is in
  its state.  The cipher stands for `ChaCha20Poly1305` with the key of the session.
* A `u64` is a natural number, and an addition that leaves its range is a panic.
* `encryptions` is a ghost field, the calls of `encrypt_in_place` so far.
* `nonceUnique_iff`: no two of these calls, on one end or across both, use one nonce for different
  plaintexts, exactly when on each end a send after a failed one sends the same data again. -/

namespace MpcCore

/-- An authenticated cipher with its key: nonce, associated data, plaintext or ciphertext. -/
structure Cipher where
  encryptInPlace : List UInt8 → List UInt8 → List UInt8 → Option (List UInt8)
  decryptInPlace : List UInt8 → List UInt8 → List UInt8 → Option (List UInt8)

/-- A byte stream in both directions. -/
class ByteStream (σ : Type) where
  writeAll : List UInt8 → Act σ String Unit
  readExact : ℕ → Act σ String (List UInt8)

/-- `ConnectionRole`. -/
inductive ConnectionRole where
  | listener
  | initiator
deriving DecidableEq, Repr

/-- A call of `encrypt_in_place`. -/
structure Encryption where
  nonce : List UInt8
  associatedData : List UInt8
  plaintext : List UInt8
deriving DecidableEq, Repr

/-- `SecureStream`. -/
structure SecureStream (σ : Type) where
  inner : σ
  cipher : Cipher
  sendCounter : ℕ
  recvCounter : ℕ
  role : ConnectionRole
  encryptions : List Encryption

namespace SecureStream

variable {σ : Type} [ByteStream σ]

/-- `TAG_LEN`. -/
def tagLen : ℕ := 16

/-- `U32_LEN`. -/
def u32Len : ℕ := 4

/-- `SecureStream::new`, with the cipher that the shared secret determines. -/
def new (stream : σ) (cipher : Cipher) (role : ConnectionRole) : SecureStream σ :=
  ⟨stream, cipher, 0, 0, role, []⟩

/-- A nonce: one byte for the role of the sender, three zero bytes and the counter. -/
def nonceBytes (sender : ConnectionRole) (counter : ℕ) : List UInt8 :=
  [if sender = .listener then 1 else 0, 0, 0, 0] ++ beBytes 8 counter

/-- `(total_len as u32).to_be_bytes()`, for the length of the data and the tag. -/
def totalLenBytes (data : List UInt8) : List UInt8 := beBytes 4 (data.length + tagLen)

/-- `self.cipher.encrypt_in_place(&nonce, &total_len_bytes, &mut buffer)?` -/
def encrypt (data : List UInt8) : Act (SecureStream σ) String (List UInt8) := fun s =>
  let nonce := nonceBytes s.role s.sendCounter
  (match s.cipher.encryptInPlace nonce (totalLenBytes data) data with
    | some buffer => .ok buffer
    | none => .err "Encryption error",
    { s with encryptions := s.encryptions ++ [⟨nonce, totalLenBytes data, data⟩] })

/-- `self.inner.write_all(bytes)?` -/
def writeAll (bytes : List UInt8) : Act (SecureStream σ) String Unit := fun s =>
  let (r, inner) := ByteStream.writeAll bytes s.inner
  (r, { s with inner })

/-- `self.send_counter += 1` -/
def countSend : Act (SecureStream σ) String Unit := fun s =>
  if s.sendCounter + 1 < 2 ^ 64 then (.ok (), { s with sendCounter := s.sendCounter + 1 })
  else (.panic, s)

/-- `send`. -/
def send (data : List UInt8) : Act (SecureStream σ) String ℕ :=
  (encrypt data).bind fun buffer =>
    (Act.ret (.assert (buffer.length == data.length + tagLen))).bind fun _ =>
      (writeAll (totalLenBytes data)).bind fun _ =>
        (writeAll buffer).bind fun _ =>
          countSend.bind fun _ => .ret (.ok (u32Len + (data.length + tagLen)))

/-- The other end of a stream. -/
def peer : ConnectionRole → ConnectionRole
  | .listener => .initiator
  | .initiator => .listener

/-- `self.inner.read_exact(&mut buffer)?` -/
def readExact (len : ℕ) : Act (SecureStream σ) String (List UInt8) := fun s =>
  let (r, inner) := ByteStream.readExact len s.inner
  (r, { s with inner })

/-- `self.cipher.decrypt_in_place(&nonce, &len_buf, &mut buffer)?` -/
def decrypt (lenBuf buffer : List UInt8) : Act (SecureStream σ) String (List UInt8) := fun s =>
  (match s.cipher.decryptInPlace (nonceBytes (peer s.role) s.recvCounter) lenBuf buffer with
    | some data => .ok data
    | none => .err "Decryption error", s)

/-- `self.recv_counter += 1` -/
def countRecv : Act (SecureStream σ) String Unit := fun s =>
  if s.recvCounter + 1 < 2 ^ 64 then (.ok (), { s with recvCounter := s.recvCounter + 1 })
  else (.panic, s)

/-- `u32::from_be_bytes(len_buf)` -/
def fromBeBytes (bytes : List UInt8) : ℕ := bytes.foldl (fun n b => 256 * n + b.toNat) 0

/-- `recv`. -/
def recv : Act (SecureStream σ) String (List UInt8 × ℕ) :=
  (readExact u32Len).bind fun lenBuf =>
    let totalLen := fromBeBytes lenBuf
    if totalLen < tagLen then .ret (.err "Packet too short")
    else
      (readExact totalLen).bind fun buffer =>
        (decrypt lenBuf buffer).bind fun data =>
          countRecv.bind fun _ => .ret (.ok (data, u32Len + totalLen))

/-! ### What one send does -/

theorem writeAll_eq {bytes : List UInt8} {s s' : SecureStream σ} {r : Outcome String Unit}
    (h : writeAll bytes s = (r, s')) : s' = { s with inner := s'.inner } := by
  obtain ⟨-, rfl⟩ := Prod.mk.inj h
  rfl

/-- A send encrypts its data once, under the counter it finds; it moves the counter by one when it
succeeds, and leaves it when it fails. -/
theorem send_cases {data : List UInt8} {s s' : SecureStream σ} {r : Outcome String ℕ}
    (h : send data s = (r, s')) (hr : r ≠ .panic) :
    s'.role = s.role ∧
    s'.encryptions = s.encryptions ++ [⟨nonceBytes s.role s.sendCounter, totalLenBytes data, data⟩] ∧
    ((∃ n, r = .ok n) ∧ s'.sendCounter = s.sendCounter + 1 ∨
      (∀ n, r ≠ .ok n) ∧ s'.sendCounter = s.sendCounter) := by
  obtain ⟨buffer, s₁, h1, h⟩ | ⟨r₁, h1, hf⟩ := Act.bind_cases h
  · obtain ⟨-, hs₁⟩ := Prod.mk.inj h1
    obtain ⟨_, s₂, h2, h⟩ | ⟨r₂, h2, hf⟩ := Act.bind_cases h
    · obtain ⟨-, hs₂⟩ := Prod.mk.inj h2
      obtain ⟨_, s₃, h3, h⟩ | ⟨r₃, h3, hf⟩ := Act.bind_cases h
      · have hs₃ := writeAll_eq h3
        obtain ⟨_, s₄, h4, h⟩ | ⟨r₄, h4, hf⟩ := Act.bind_cases h
        · have hs₄ := writeAll_eq h4
          obtain ⟨_, s₅, h5, h⟩ | ⟨r₅, h5, hf⟩ := Act.bind_cases h
          · obtain ⟨hr', hs'⟩ := Prod.mk.inj h
            unfold countSend at h5
            split at h5
            · obtain ⟨-, hs₅⟩ := Prod.mk.inj h5
              rw [← hs', ← hs₅, hs₄, hs₃, ← hs₂, ← hs₁]
              exact ⟨rfl, rfl, .inl ⟨⟨_, hr'.symm⟩, rfl⟩⟩
            · cases (Prod.mk.inj h5).1
          · unfold countSend at h5
            split at h5
            · obtain ⟨rfl, -⟩ := Prod.mk.inj h5
              exact absurd hf Outcome.not_fails_ok
            · obtain ⟨rfl, -⟩ := Prod.mk.inj h5
              exact absurd rfl (hf.ne_panic hr)
        · rw [writeAll_eq h4, hs₃, ← hs₂, ← hs₁]
          exact ⟨rfl, rfl, .inr ⟨hf.ne_ok, rfl⟩⟩
      · rw [writeAll_eq h3, ← hs₂, ← hs₁]
        exact ⟨rfl, rfl, .inr ⟨hf.ne_ok, rfl⟩⟩
    · obtain ⟨-, hs₂⟩ := Prod.mk.inj h2
      rw [← hs₂, ← hs₁]
      exact ⟨rfl, rfl, .inr ⟨hf.ne_ok, rfl⟩⟩
  · obtain ⟨-, hs₁⟩ := Prod.mk.inj h1
    rw [← hs₁]
    exact ⟨rfl, rfl, .inr ⟨hf.ne_ok, rfl⟩⟩

end SecureStream

/-! ### The sends of a session -/

/-- The two ends of one stream. -/
structure Session (σ : Type) where
  listener : SecureStream σ
  initiator : SecureStream σ

/-- A call of `send`: the end, the data, and whether it succeeded. -/
structure SendCall where
  role : ConnectionRole
  data : List UInt8
  sent : Bool
deriving DecidableEq, Repr

namespace Session

variable {σ : Type}

/-- One end of a session. -/
def atEnd (s : Session σ) : ConnectionRole → SecureStream σ
  | .listener => s.listener
  | .initiator => s.initiator

/-- Replace one end of a session. -/
def setEnd (s : Session σ) (role : ConnectionRole) (stream : SecureStream σ) : Session σ :=
  match role with
  | .listener => { s with listener := stream }
  | .initiator => { s with initiator := stream }

@[simp] theorem atEnd_setEnd_self (s : Session σ) (role : ConnectionRole) (stream : SecureStream σ) :
    (s.setEnd role stream).atEnd role = stream := by
  cases role <;> rfl

theorem atEnd_setEnd_ne (s : Session σ) {role role' : ConnectionRole} (h : role' ≠ role)
    (stream : SecureStream σ) : (s.setEnd role stream).atEnd role' = s.atEnd role' := by
  cases role <;> cases role' <;> first | rfl | exact absurd rfl h

/-- A session with a fresh key: the cipher is the same at both ends. -/
def new (listener initiator : σ) (cipher : Cipher) : Session σ :=
  ⟨.new listener cipher .listener, .new initiator cipher .initiator⟩

/-- All calls of `encrypt_in_place` under the key of the session. -/
def encryptions (s : Session σ) : List Encryption := s.listener.encryptions ++ s.initiator.encryptions

/-- No two calls use one nonce for different plaintexts. -/
def NonceUnique (s : Session σ) : Prop :=
  ∀ e ∈ s.encryptions, ∀ e' ∈ s.encryptions, e.nonce = e'.nonce → e.plaintext = e'.plaintext

variable [ByteStream σ]

/-- Sends at either end, in any order, each returning a value or an error. -/
inductive Run : Session σ → List SendCall → Session σ → Prop where
  | nil (s : Session σ) : Run s [] s
  | ok {s s₁ : Session σ} {calls : List SendCall} (role : ConnectionRole) (data : List UInt8) {n : ℕ}
      {stream : SecureStream σ} : Run s calls s₁ → (s₁.atEnd role).send data = (.ok n, stream) →
      Run s (calls ++ [⟨role, data, true⟩]) (s₁.setEnd role stream)
  | err {s s₁ : Session σ} {calls : List SendCall} (role : ConnectionRole) (data : List UInt8) {e : String}
      {stream : SecureStream σ} : Run s calls s₁ → (s₁.atEnd role).send data = (.err e, stream) →
      Run s (calls ++ [⟨role, data, false⟩]) (s₁.setEnd role stream)

end Session

/-- The calls at one end. -/
def callsAt (role : ConnectionRole) (calls : List SendCall) : List SendCall :=
  calls.filter fun c => c.role = role

/-- At each end, a send that follows a failed one sends the same data again. -/
def RepeatsFailed (calls : List SendCall) : Prop :=
  ∀ role, (callsAt role calls).IsChain fun c c' => c.sent = false → c'.data = c.data

/-- The encryptions of the calls at one end, from a value of the counter. -/
def encryptionsFrom (role : ConnectionRole) : ℕ → List SendCall → List Encryption
  | _, [] => []
  | counter, c :: calls =>
      ⟨SecureStream.nonceBytes role counter, SecureStream.totalLenBytes c.data, c.data⟩ ::
        encryptionsFrom role (if c.sent then counter + 1 else counter) calls

/-! ### Nonces -/

theorem nonceBytes_inj {role role' : ConnectionRole} {m n : ℕ} (hm : m < 2 ^ 64) (hn : n < 2 ^ 64)
    (h : SecureStream.nonceBytes role m = SecureStream.nonceBytes role' n) : role = role' ∧ m = n := by
  unfold SecureStream.nonceBytes at h
  obtain ⟨h1, h2⟩ := List.append_inj h rfl
  refine ⟨?_, beBytes_inj (k := 8) (by omega) (by omega) h2⟩
  have h3 := (List.cons.inj h1).1
  cases role <;> cases role' <;> first | rfl | exact absurd h3 (by decide)

/-- The counters of the encryptions at one end. -/
theorem mem_encryptionsFrom {role : ConnectionRole} : ∀ {counter : ℕ} {calls : List SendCall} {e : Encryption},
    e ∈ encryptionsFrom role counter calls →
      ∃ k, counter ≤ k ∧ k < counter + calls.length ∧ e.nonce = SecureStream.nonceBytes role k
  | _, [], _, h => by cases h
  | counter, c :: calls, e, h => by
      obtain rfl | h := List.mem_cons.mp h
      · exact ⟨counter, le_rfl, by simp, rfl⟩
      · obtain ⟨k, h1, h2, h3⟩ := mem_encryptionsFrom h
        rw [List.length_cons]
        refine ⟨k, ?_, ?_, h3⟩ <;> split at h1 <;> split at h2 <;> omega

theorem encryptionsFrom_append {role : ConnectionRole} : ∀ (counter : ℕ) (calls calls' : List SendCall),
    encryptionsFrom role counter (calls ++ calls') = encryptionsFrom role counter calls ++
      encryptionsFrom role (counter + calls.countP (·.sent)) calls'
  | _, [], _ => by simp [encryptionsFrom]
  | counter, c :: calls, calls' => by
      simp only [List.cons_append, encryptionsFrom, encryptionsFrom_append, List.countP_cons]
      congr 3
      cases c.sent
      · simp
      · simp
        omega

/-- At one end, nonces are unique exactly when failed sends are repeated. -/
theorem encryptionsFrom_unique_iff {role : ConnectionRole} : ∀ (calls : List SendCall) (counter : ℕ),
    counter + calls.length < 2 ^ 64 →
    ((∀ e ∈ encryptionsFrom role counter calls, ∀ e' ∈ encryptionsFrom role counter calls,
        e.nonce = e'.nonce → e.plaintext = e'.plaintext) ↔
      calls.IsChain fun c c' => c.sent = false → c'.data = c.data)
  | [], _, _ => by simp [encryptionsFrom]
  | [c], counter, _ => by simp [encryptionsFrom]
  | c :: d :: calls, counter, hlt => by
      have hrest : (if c.sent then counter + 1 else counter) + (d :: calls).length < 2 ^ 64 := by
        simp only [List.length_cons] at hlt ⊢
        split <;> omega
      rw [List.isChain_cons_cons, ← encryptionsFrom_unique_iff (d :: calls) _ hrest]
      constructor
      · intro h
        refine ⟨fun hsent => ?_, fun e he e' he' => h e (List.mem_cons_of_mem _ he) e' (List.mem_cons_of_mem _ he')⟩
        exact h ⟨SecureStream.nonceBytes role counter, SecureStream.totalLenBytes d.data, d.data⟩
          (by simp [encryptionsFrom, hsent]) _ (List.mem_cons_self ..) rfl
      · rintro ⟨hcd, h⟩
        -- A later call under the nonce of the first one comes after failures only.
        have hfirst : ∀ e ∈ encryptionsFrom role (if c.sent then counter + 1 else counter) (d :: calls),
            e.nonce = SecureStream.nonceBytes role counter → e.plaintext = c.data := by
          intro e he hnonce
          cases hsent : c.sent with
          | true =>
              obtain ⟨k, h1, h2, h3⟩ := mem_encryptionsFrom he
              rw [hsent, if_pos rfl] at h1 h2
              rw [hsent, if_pos rfl] at hrest
              have := (nonceBytes_inj (by omega) (by omega) (h3.symm.trans hnonce)).2
              omega
          | false =>
              rw [← hcd hsent]
              refine h e he ⟨SecureStream.nonceBytes role counter, SecureStream.totalLenBytes d.data, d.data⟩ ?_ hnonce
              simp [encryptionsFrom, hsent]
        intro e he e' he' hnonce
        obtain rfl | he := List.mem_cons.mp he <;> obtain rfl | he' := List.mem_cons.mp he'
        · rfl
        · exact (hfirst e' he' hnonce.symm).symm
        · exact hfirst e he hnonce
        · exact h e he e' he' hnonce

/-! ### The run of a session -/

variable {σ : Type} [ByteStream σ]

theorem callsAt_append_self (calls : List SendCall) (role : ConnectionRole) (data : List UInt8) (sent : Bool) :
    callsAt role (calls ++ [⟨role, data, sent⟩]) = callsAt role calls ++ [⟨role, data, sent⟩] := by
  simp [callsAt]

theorem callsAt_append_ne (calls : List SendCall) {c : SendCall} {role : ConnectionRole} (h : role ≠ c.role) :
    callsAt role (calls ++ [c]) = callsAt role calls := by
  simp [callsAt, h.symm]

/-- The state of an end after its calls. -/
def EndAfter (role : ConnectionRole) (calls : List SendCall) (stream : SecureStream σ) : Prop :=
  stream.role = role ∧ stream.sendCounter = calls.countP (·.sent) ∧
    stream.encryptions = encryptionsFrom role 0 calls

theorem EndAfter.send {role : ConnectionRole} {calls : List SendCall} {stream stream' : SecureStream σ}
    (h : EndAfter role calls stream) {data : List UInt8} {r : Outcome String ℕ}
    (hsend : stream.send data = (r, stream')) (hr : r ≠ .panic) (sent : Bool)
    (hsent : sent = true ↔ ∃ n, r = .ok n) : EndAfter role (calls ++ [⟨role, data, sent⟩]) stream' := by
  obtain ⟨h1, h2, h3⟩ := h
  obtain ⟨k1, k2, k3⟩ := SecureStream.send_cases hsend hr
  refine ⟨k1.trans h1, ?_, ?_⟩
  · rw [List.countP_append, ← h2]
    obtain ⟨hok, hcount⟩ | ⟨hne, hcount⟩ := k3
    · simp [hcount, hsent.mpr hok]
    · have : sent = false := by
        by_contra hs
        obtain ⟨n, hn⟩ := hsent.mp (by simpa using hs)
        exact hne n hn
      simp [hcount, this]
  · rw [k2, encryptionsFrom_append, h1, h2, h3]
    simp [encryptionsFrom]

theorem Session.Run.endAfter {listener initiator : σ} {cipher : Cipher} {calls : List SendCall} {s : Session σ}
    (h : Run (.new listener initiator cipher) calls s) :
    ∀ role, EndAfter role (callsAt role calls) (s.atEnd role) := by
  induction h with
  | nil =>
      intro role
      cases role <;> exact ⟨rfl, rfl, rfl⟩
  | @ok s₁ calls role data n stream _ hsend ih =>
      intro role'
      by_cases hrole : role' = role
      · subst hrole
        rw [callsAt_append_self, atEnd_setEnd_self]
        exact (ih role').send hsend (by simp) true (by simp)
      · rw [callsAt_append_ne calls hrole, atEnd_setEnd_ne _ hrole]
        exact ih role'
  | @err s₁ calls role data e stream _ hsend ih =>
      intro role'
      by_cases hrole : role' = role
      · subst hrole
        rw [callsAt_append_self, atEnd_setEnd_self]
        exact (ih role').send hsend (by simp) false (by simp)
      · rw [callsAt_append_ne calls hrole, atEnd_setEnd_ne _ hrole]
        exact ih role'

/-- **When nonces are unique.** -/
theorem Session.nonceUnique_iff {listener initiator : σ} {cipher : Cipher} {calls : List SendCall} {s : Session σ}
    (h : Run (.new listener initiator cipher) calls s)
    (hlt : ∀ role, (callsAt role calls).length < 2 ^ 64) : s.NonceUnique ↔ RepeatsFailed calls := by
  have hend := h.endAfter
  have hl : s.listener.encryptions = encryptionsFrom .listener 0 (callsAt .listener calls) := (hend .listener).2.2
  have hi : s.initiator.encryptions = encryptionsFrom .initiator 0 (callsAt .initiator calls) :=
    (hend .initiator).2.2
  have hunique := fun role => @encryptionsFrom_unique_iff role (callsAt role calls) 0
    (by simpa using hlt role)
  have hall : RepeatsFailed calls ↔ ∀ role, ∀ e ∈ encryptionsFrom role 0 (callsAt role calls),
      ∀ e' ∈ encryptionsFrom role 0 (callsAt role calls), e.nonce = e'.nonce → e.plaintext = e'.plaintext :=
    forall_congr' fun role => (hunique role).symm
  rw [hall]
  unfold NonceUnique Session.encryptions
  rw [hl, hi]
  constructor
  · intro hu role e he e' he'
    cases role with
    | listener => exact hu e (List.mem_append_left _ he) e' (List.mem_append_left _ he')
    | initiator => exact hu e (List.mem_append_right _ he) e' (List.mem_append_right _ he')
  · intro hu e he e' he' hnonce
    -- Nonces of different ends differ in their first byte.
    have hcross : ∀ e ∈ encryptionsFrom .listener 0 (callsAt .listener calls),
        ∀ e' ∈ encryptionsFrom .initiator 0 (callsAt .initiator calls), e.nonce ≠ e'.nonce := by
      intro e he e' he' hnonce
      obtain ⟨k, -, hk, h1⟩ := mem_encryptionsFrom he
      obtain ⟨k', -, hk', h2⟩ := mem_encryptionsFrom he'
      have hk64 := hlt .listener
      have hk64' := hlt .initiator
      rw [h1, h2] at hnonce
      exact absurd (nonceBytes_inj (by omega) (by omega) hnonce).1 (by simp)
    obtain he | he := List.mem_append.mp he <;> obtain he' | he' := List.mem_append.mp he'
    · exact hu .listener e he e' he' hnonce
    · exact absurd hnonce (hcross e he e' he')
    · exact absurd hnonce.symm (hcross e' he' e he)
    · exact hu .initiator e he e' he' hnonce

/-! ### A failed send that is not repeated -/

/-- A byte stream that is told which of its writes fail. -/
structure FlakyStream where
  results : List Bool

instance : ByteStream FlakyStream where
  writeAll _ s := (if s.results.headD true then .ok () else .err "broken pipe", ⟨s.results.tail⟩)
  readExact _ s := (.err "end of file", s)

/-- A cipher that only appends a tag. -/
def tagCipher : Cipher where
  encryptInPlace _ _ data := some (data ++ List.replicate 16 0)
  decryptInPlace _ _ buffer := some (buffer.take (buffer.length - 16))

/-- The listener's first write fails in a send of `a`; then it sends `b`. -/
def resendCalls (a b : UInt8) : List SendCall := [⟨.listener, [a], false⟩, ⟨.listener, [b], true⟩]

/-- The session after it. -/
def resendSession (a b : UInt8) : Session FlakyStream :=
  ⟨⟨⟨[]⟩, tagCipher, 1, 0, .listener,
      [⟨SecureStream.nonceBytes .listener 0, SecureStream.totalLenBytes [a], [a]⟩,
        ⟨SecureStream.nonceBytes .listener 0, SecureStream.totalLenBytes [b], [b]⟩]⟩,
    .new ⟨[]⟩ tagCipher .initiator⟩

theorem run_resend (a b : UInt8) : Session.Run (.new ⟨[false, true, true]⟩ ⟨[]⟩ tagCipher) (resendCalls a b)
    (resendSession a b) :=
  .ok .listener [b] (.err .listener [a] (.nil _) rfl) rfl

theorem Session.nonceUnique_iff_resend : (resendSession 0 0).NonceUnique ↔ RepeatsFailed (resendCalls 0 0) :=
  Session.nonceUnique_iff (run_resend 0 0) fun role => by cases role <;> decide

/-- **A nonce that is used twice.** -/
theorem Session.nonce_reused : Session.Run (.new ⟨[false, true, true]⟩ ⟨[]⟩ tagCipher) (resendCalls 0 1)
    (resendSession 0 1) ∧ ¬ (resendSession 0 1).NonceUnique := by
  refine ⟨run_resend 0 1, fun h => ?_⟩
  have := h _ (List.mem_cons_self ..) _ (List.mem_cons_of_mem _ (List.mem_cons_self ..)) rfl
  revert this
  decide

end MpcCore
