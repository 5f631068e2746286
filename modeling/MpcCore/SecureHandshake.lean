import MpcCore.SecureStream
import MpcCore.Lib.SymbolicAttacker
import Mathlib.Data.Finset.Insert

/-! # The handshake of a secure stream

Sessions of `perform_handshake` among the parties of a mesh, against an attacker that reads everything
that is written and decides what is read.

* Cryptography is ideal: the secret of a session is a fresh one, a public key is a power of the
  generator, and a 64-byte payload is the list of its two keys.  Signing key and identity are one.
* `step`: a party may have any number of sessions at a time, with no regard to what it does when one of
  them fails.  `fromIdentities` has the calls that a mesh makes.
* `Event.Offered`: what a session reads is something the attacker can derive.
* `sessionSecrecy`: a completed session with an honest peer shares its key with a session of that peer
  only.
* `identityAgreement_iff`: if one honest end of a key is meant for the other, then the other is meant for
  it exactly when it is not meant for a party of the attacker.  That can be (`identities_misbound`),
  since the keys are signed, but not for whom they are. -/

namespace MpcCore

namespace Handshake

/-- Secrets that the sessions of honest parties generate, one each, and those of the attacker. -/
inductive Secret where
  | session (index : ℕ)
  | attacker (index : ℕ)
deriving DecidableEq, Repr

abbrev PublicKey := Multiset Secret

abbrev Wire := Term Secret ℕ

/-- `XPublicKey::from(&my_secret)`, for the secret of a session. -/
def publicKey (index : ℕ) : PublicKey := {.session index}

/-- `my_secret.diffie_hellman(&peer_public)` -/
def sharedSecret (index : ℕ) (peerPublic : PublicKey) : PublicKey := .session index ::ₘ peerPublic

/-- `signature_payload`: the own key and then the key received. -/
def signaturePayload (myPublic peerPublic : PublicKey) : List PublicKey := [myPublic, peerPublic]

/-- `peer_payload`: the key received and then the own key. -/
def peerPayload (peerPublic myPublic : PublicKey) : List PublicKey := [peerPublic, myPublic]

/-- How far a session is: its key is written, its signature is written, the signature of the peer is
verified and the stream upgraded, or it is not verified. -/
inductive Stage where
  | sentKey
  | sentSignature (peerPublic : PublicKey)
  | upgraded (peerPublic : PublicKey)
  | failed (peerPublic : PublicKey)
deriving DecidableEq

/-- A call of `perform_handshake`: the party that makes it, its role, and the peer under whose key it
verifies. -/
structure Session where
  party : ℕ
  role : ConnectionRole
  peer : ℕ
  stage : Stage

/-- The key that the session has received. -/
def Session.received (session : Session) : Option PublicKey :=
  match session.stage with
  | .sentSignature peerPublic => some peerPublic
  | .upgraded peerPublic => some peerPublic
  | .failed peerPublic => some peerPublic
  | .sentKey => none

/-- The parties whose signing key the attacker does not have, and the calls of `perform_handshake` that
they make: by whom, in which role, and with the key of which peer. -/
structure Setting where
  honest : Finset ℕ
  calls : ℕ → ConnectionRole → ℕ → Bool

/-- The calls that `from_identities` makes: a connector for each party before it, and a listener for the
party whose number it has read, whoever wrote it. -/
def fromIdentities (nParties myId : ℕ) : ConnectionRole → ℕ → Bool
  | .initiator, targetId => myId < nParties ∧ targetId < myId
  | .listener, peerId => myId < nParties ∧ peerId < nParties

/-- The sessions so far, and what they have written. -/
structure State where
  sessions : List Session
  written : List Wire

/-- What can happen next. -/
inductive Event where
  | call (myId : ℕ) (role : ConnectionRole) (peerId : ℕ)
  | readKey (index : ℕ) (peerPublic : PublicKey)
  | readSignature (index : ℕ) (signer : ℕ) (payload : List PublicKey)

/-- A new session generates its secret and writes its public key. -/
def State.begin (st : State) (session : Session) : State :=
  ⟨st.sessions ++ [session], st.written ++ [.power (publicKey st.sessions.length)]⟩

/-- Move a session on. -/
def State.setStage (st : State) (index : ℕ) (session : Session) (stage : Stage) : State :=
  { st with sessions := st.sessions.set index { session with stage } }

/-- One event, when it can happen. -/
def step (setting : Setting) (st : State) : Event → Option State
  | .call myId role peerId =>
      if myId ∈ setting.honest ∧ setting.calls myId role peerId then
        some (st.begin ⟨myId, role, peerId, .sentKey⟩)
      else none
  | .readKey index peerPublic =>
      st.sessions[index]?.bind fun session =>
        if session.stage = .sentKey then
          some { st.setStage index session (.sentSignature peerPublic) with
            written := st.written ++ [.signature session.party (signaturePayload (publicKey index) peerPublic)] }
        else none
  | .readSignature index signer payload =>
      st.sessions[index]?.bind fun session =>
        match session.stage with
        | .sentSignature peerPublic =>
            some (st.setStage index session
              (if signer = session.peer ∧ payload = peerPayload peerPublic (publicKey index) then
                .upgraded peerPublic
              else .failed peerPublic))
        | _ => none

/-- What the attacker knows: its own secrets, the signing keys of the parties that are not honest, and
all that is written. -/
def known (setting : Setting) (st : State) : Set Wire :=
  {t | (∃ i, t = .secret (.attacker i)) ∨ (∃ party, party ∉ setting.honest ∧ t = .signingKey party) ∨ t ∈ st.written}

/-- What is read is something the attacker can derive. -/
def Event.Offered (setting : Setting) (st : State) : Event → Prop
  | .readKey _ peerPublic => Derives (known setting st) (.power peerPublic)
  | .readSignature _ signer payload => Derives (known setting st) (.signature signer payload)
  | _ => True

/-- Before the first session. -/
def initial : State := ⟨[], []⟩

/-- The states that the attacker can bring about from a given one. -/
inductive Leads (setting : Setting) (st : State) : State → Prop where
  | refl : Leads setting st st
  | step {st₁ st₂ : State} {ev : Event} (h : Leads setting st st₁) (ho : ev.Offered setting st₁)
      (hs : Handshake.step setting st₁ ev = some st₂) : Leads setting st st₂

theorem Leads.trans {setting : Setting} {st st₁ st₂ : State} (h : Leads setting st st₁) (h' : Leads setting st₁ st₂) :
    Leads setting st st₂ := by
  induction h' with
  | refl => exact h
  | step _ ho hs ih => exact ih.step ho hs

/-! ### What each event does -/

/-- What each event does, and when it can happen. -/
inductive StepTo (setting : Setting) (st : State) : Event → State → Prop where
  | begin {ev : Event} {session : Session} (hparty : session.party ∈ setting.honest) (hstage : session.stage = .sentKey) :
      StepTo setting st ev (st.begin session)
  | readKey {index : ℕ} {peerPublic : PublicKey} {session : Session} (hs : st.sessions[index]? = some session)
      (hstage : session.stage = .sentKey) :
      StepTo setting st (.readKey index peerPublic) { st.setStage index session (.sentSignature peerPublic) with
        written := st.written ++ [.signature session.party (signaturePayload (publicKey index) peerPublic)] }
  | verified {index : ℕ} {peerPublic : PublicKey} {session : Session} (hs : st.sessions[index]? = some session)
      (hstage : session.stage = .sentSignature peerPublic) :
      StepTo setting st (.readSignature index session.peer (peerPayload peerPublic (publicKey index)))
        (st.setStage index session (.upgraded peerPublic))
  | refused {index signer : ℕ} {payload : List PublicKey} {peerPublic : PublicKey} {session : Session}
      (hs : st.sessions[index]? = some session) (hstage : session.stage = .sentSignature peerPublic) :
      StepTo setting st (.readSignature index signer payload) (st.setStage index session (.failed peerPublic))

variable {setting : Setting} {st st' : State} {ev : Event} {index : ℕ} {session : Session} {peerPublic : PublicKey}

theorem stepTo_of_step (h : step setting st ev = some st') : StepTo setting st ev st' := by
  cases ev with
  | call myId role peerId =>
      simp only [step] at h
      split at h
      · next hguard =>
          obtain rfl := Option.some.inj h
          exact .begin hguard.1 rfl
      · exact absurd h (by simp)
  | readKey index peerPublic =>
      obtain ⟨session, hs, h⟩ := Option.bind_eq_some_iff.mp h
      split at h
      · next hstage =>
          obtain rfl := Option.some.inj h
          exact .readKey hs hstage
      · exact absurd h (by simp)
  | readSignature index signer payload =>
      obtain ⟨session, hs, h⟩ := Option.bind_eq_some_iff.mp h
      split at h
      · next peerPublic hstage =>
          obtain rfl := Option.some.inj h
          split
          · next hverify =>
              obtain ⟨rfl, rfl⟩ := hverify
              exact .verified hs hstage
          · exact .refused hs hstage
      · exact absurd h (by simp)

theorem getElem?_setStage (hs : st.sessions[index]? = some session) (stage : Stage) (i : ℕ) :
    (st.setStage index session stage).sessions[i]? =
      if i = index then some { session with stage } else st.sessions[i]? := by
  obtain ⟨hlt, -⟩ := List.getElem?_eq_some_iff.mp hs
  by_cases hi : i = index
  · subst hi
    simp [State.setStage, hlt]
  · rw [if_neg hi, State.setStage, List.getElem?_set_ne (Ne.symm hi)]

theorem getElem?_begin (st : State) (session : Session) (i : ℕ) :
    (st.begin session).sessions[i]? =
      if i = st.sessions.length then some session else st.sessions[i]? := by
  by_cases hi : i = st.sessions.length
  · subst hi
    simp [State.begin]
  · rw [if_neg hi, State.begin, List.getElem?_append]
    split
    · rfl
    · rw [List.getElem?_eq_none (by simp; omega), List.getElem?_eq_none (by omega)]

/-! ### What every run keeps -/

/-- A secret that no one but its session has. -/
def Secret.Fresh : Secret → Prop
  | .session _ => True
  | .attacker _ => False

instance : DecidablePred Secret.Fresh
  | .session _ => inferInstanceAs (Decidable True)
  | .attacker _ => inferInstanceAs (Decidable False)

/-- Session `i` is one of `party` and has received the key. -/
def State.Received (st : State) (i party : ℕ) (peerPublic : PublicKey) : Prop :=
  ∃ session, st.sessions[i]? = some session ∧ session.party = party ∧ session.received = some peerPublic

/-- Honest sessions write their keys and sign them before the keys they have received, no received key
is made of two fresh secrets, and an upgraded session has seen a signature of its peer. -/
structure State.Valid (setting : Setting) (st : State) : Prop where
  party : ∀ (i : ℕ) (session : Session), st.sessions[i]? = some session → session.party ∈ setting.honest
  written : ∀ t ∈ st.written, (∃ i, t = .power (publicKey i)) ∨
    ∃ i party peerPublic, st.Received i party peerPublic ∧
      t = .signature party (signaturePayload (publicKey i) peerPublic)
  received : ∀ i party peerPublic, st.Received i party peerPublic → peerPublic.countP Secret.Fresh ≤ 1
  verified : ∀ (i : ℕ) (session : Session) (peerPublic : PublicKey),
    st.sessions[i]? = some session → session.stage = .upgraded peerPublic →
    Derives (known setting st) (.signature session.peer (peerPayload peerPublic (publicKey i)))

theorem known_mono (hsub : st.written ⊆ st'.written) : known setting st ⊆ known setting st' := by
  rintro t (ht | ht | ht)
  · exact .inl ht
  · exact .inr (.inl ht)
  · exact .inr (.inr (hsub ht))

/-- All that the attacker knows shows at most one fresh secret in a power. -/
theorem State.Valid.known_shows (h : st.Valid setting) :
    ∀ t ∈ known setting st, Derives.Shows Secret.Fresh t := by
  rintro t (⟨i, rfl⟩ | ⟨party, -, rfl⟩ | ht)
  · exact fun hfresh => hfresh
  · trivial
  · obtain ⟨i, rfl⟩ | ⟨i, party, peerPublic, hreceived, rfl⟩ := h.written t ht
    · exact Multiset.countP_le_card _ {_}
    · intro exponents hmem
      obtain rfl | rfl : exponents = publicKey i ∨ exponents = peerPublic := by
        simpa [signaturePayload] using hmem
      · exact Multiset.countP_le_card _ {_}
      · exact h.received i party _ hreceived


theorem State.Received.begin {i party : ℕ} (h : st.Received i party peerPublic) (session : Session) :
    (st.begin session).Received i party peerPublic := by
  obtain ⟨session', hs, hrest⟩ := h
  obtain ⟨hlt, -⟩ := List.getElem?_eq_some_iff.mp hs
  exact ⟨session', by rw [getElem?_begin, if_neg (by omega)]; exact hs, hrest⟩

theorem State.Received.setStage {i party : ℕ} (h : st.Received i party peerPublic)
    (hs : st.sessions[index]? = some session) {stage : Stage}
    (hkeep : ∀ key, session.received = some key → Session.received { session with stage } = some key) :
    (st.setStage index session stage).Received i party peerPublic := by
  obtain ⟨session', hs', hparty, hreceived⟩ := h
  by_cases hi : i = index
  · subst hi
    obtain rfl : session = session' := by simpa [hs] using hs'
    exact ⟨{ session with stage }, by rw [getElem?_setStage hs, if_pos rfl], hparty, hkeep _ hreceived⟩
  · exact ⟨session', by rw [getElem?_setStage hs, if_neg hi]; exact hs', hparty, hreceived⟩

theorem State.Received.of_setStage {i party : ℕ} (hs : st.sessions[index]? = some session) {stage : Stage}
    (h : (st.setStage index session stage).Received i party peerPublic) :
    st.Received i party peerPublic ∨ Session.received { session with stage } = some peerPublic := by
  obtain ⟨session', hs', hparty, hreceived⟩ := h
  rw [getElem?_setStage hs] at hs'
  split at hs'
  · obtain rfl := Option.some.inj hs'
    exact .inr hreceived
  · exact .inl ⟨session', hs', hparty, hreceived⟩

theorem State.Valid.begin (h : st.Valid setting) (hparty : session.party ∈ setting.honest)
    (hstage : session.stage = .sentKey) : (st.begin session).Valid setting where
  party i session' hs := by
    rw [getElem?_begin] at hs
    split at hs
    · obtain rfl := Option.some.inj hs
      exact hparty
    · exact h.party i session' hs
  written t ht := by
    obtain ht | ht := List.mem_append.mp ht
    · obtain hkey | ⟨i, party, peerPublic, hreceived, rfl⟩ := h.written t ht
      · exact .inl hkey
      · exact .inr ⟨i, party, peerPublic, hreceived.begin session, rfl⟩
    · exact .inl ⟨_, List.mem_singleton.mp ht⟩
  received i party peerPublic hreceived := by
    obtain ⟨session', hs, hparty', hreceived⟩ := hreceived
    rw [getElem?_begin] at hs
    split at hs
    · obtain rfl := Option.some.inj hs
      simp [Session.received, hstage] at hreceived
    · exact h.received i party peerPublic ⟨session', hs, hparty', hreceived⟩
  verified i session' peerPublic hs hupgraded := by
    rw [getElem?_begin] at hs
    split at hs
    · obtain rfl := Option.some.inj hs
      simp [hstage] at hupgraded
    · exact (h.verified i session' peerPublic hs hupgraded).mono (known_mono (List.subset_append_left _ _))

theorem State.Valid.readKey (h : st.Valid setting) (hs : st.sessions[index]? = some session)
    (hstage : session.stage = .sentKey) (ho : Derives (known setting st) (.power peerPublic)) :
    State.Valid setting { st.setStage index session (.sentSignature peerPublic) with
      written := st.written ++ [.signature session.party (signaturePayload (publicKey index) peerPublic)] } where
  party i session' hs' := by
    rw [getElem?_setStage hs] at hs'
    split at hs'
    · obtain rfl := Option.some.inj hs'
      exact h.party index session hs
    · exact h.party i session' hs'
  written t ht := by
    obtain ht | ht := List.mem_append.mp ht
    · obtain hkey | ⟨i, party, key, hreceived, rfl⟩ := h.written t ht
      · exact .inl hkey
      · exact .inr ⟨i, party, key, hreceived.setStage hs (by simp [Session.received, hstage]), rfl⟩
    · exact .inr ⟨index, session.party, peerPublic,
        ⟨{ session with stage := .sentSignature peerPublic },
          by rw [getElem?_setStage hs, if_pos rfl], rfl, rfl⟩, List.mem_singleton.mp ht⟩
  received i party key hreceived := by
    obtain hreceived | hkey := State.Received.of_setStage hs hreceived
    · exact h.received i party key hreceived
    · obtain rfl : peerPublic = key := by simpa [Session.received] using hkey
      exact ho.countP_le_one Secret.Fresh h.known_shows
  verified i session' key hs' hupgraded := by
    rw [getElem?_setStage hs] at hs'
    split at hs'
    · obtain rfl := Option.some.inj hs'
      simp at hupgraded
    · exact (h.verified i session' key hs' hupgraded).mono (known_mono (List.subset_append_left _ _))

theorem State.Valid.readSignature (h : st.Valid setting) (hs : st.sessions[index]? = some session)
    (hstage : session.stage = .sentSignature peerPublic) {stage : Stage}
    (hnew : stage = .failed peerPublic ∨ stage = .upgraded peerPublic ∧
      Derives (known setting st) (.signature session.peer (peerPayload peerPublic (publicKey index)))) :
    (st.setStage index session stage).Valid setting := by
  have hsame : Session.received { session with stage } = session.received := by
    obtain rfl | ⟨rfl, -⟩ := hnew <;> simp [Session.received, hstage]
  refine ⟨fun i session' hs' => ?_, fun t ht => ?_, fun i party key hreceived => ?_,
    fun i session' key hs' hupgraded => ?_⟩
  · rw [getElem?_setStage hs] at hs'
    split at hs'
    · obtain rfl := Option.some.inj hs'
      exact h.party index session hs
    · exact h.party i session' hs'
  · obtain hkey | ⟨i, party, key, hreceived, rfl⟩ := h.written t ht
    · exact .inl hkey
    · exact .inr ⟨i, party, key, hreceived.setStage hs (fun _ hkey => hsame.trans hkey), rfl⟩
  · obtain hreceived | hkey := State.Received.of_setStage hs hreceived
    · exact h.received i party key hreceived
    · exact h.received index session.party key ⟨session, hs, rfl, hsame.symm.trans hkey⟩
  · rw [getElem?_setStage hs] at hs'
    split at hs'
    · next hi =>
        obtain rfl := Option.some.inj hs'
        obtain rfl | ⟨rfl, hsigned⟩ := hnew
        · simp at hupgraded
        · obtain rfl : peerPublic = key := by simpa using hupgraded
          exact hi ▸ hsigned
    · exact h.verified i session' key hs' hupgraded

/-- **One event** keeps a state valid. -/
theorem State.Valid.step (h : st.Valid setting) (ho : ev.Offered setting st)
    (hs : Handshake.step setting st ev = some st') :
    st'.Valid setting := by
  cases stepTo_of_step hs with
  | begin hparty hstage => exact h.begin hparty hstage
  | readKey hsession hstage => exact h.readKey hsession hstage ho
  | verified hsession hstage => exact h.readSignature hsession hstage (.inr ⟨rfl, ho⟩)
  | refused hsession hstage => exact h.readSignature hsession hstage (.inl rfl)

theorem valid_initial : initial.Valid setting := by
  constructor <;> simp [initial, State.Received]

theorem Leads.valid (h : Leads setting st st') (hst : st.Valid setting) : st'.Valid setting := by
  induction h with
  | refl => exact hst
  | step _ ho hs ih => exact ih.step ho hs

/-! ### What an upgraded session knows of its peer -/

/-- An upgraded session with an honest peer has the key of a session of that peer, which has its key. -/
theorem State.Valid.partner (h : st.Valid setting) (hs : st.sessions[index]? = some session)
    (hupgraded : session.stage = .upgraded peerPublic) (hpeer : session.peer ∈ setting.honest) :
    ∃ j, peerPublic = publicKey j ∧ st.Received j session.peer (publicKey index) := by
  have hkey : (.signingKey session.peer : Wire) ∉ known setting st := by
    rintro (⟨i, hi⟩ | ⟨party, hdishonest, hi⟩ | hi)
    · exact absurd hi (by simp)
    · exact hdishonest (Term.signingKey.inj hi ▸ hpeer)
    · obtain ⟨i, hi⟩ | ⟨i, party, key, -, hi⟩ := h.written _ hi <;> exact absurd hi (by simp)
  -- the signature it has verified is one that a session of the peer has written
  obtain ⟨i, hi⟩ | ⟨party, -, hi⟩ | hi := (h.verified index session peerPublic hs hupgraded).signature_mem hkey
  · exact absurd hi (by simp)
  · exact absurd hi (by simp)
  · obtain ⟨j, hj⟩ | ⟨j, party, key, hreceived, hj⟩ := h.written _ hi
    · exact absurd hj (by simp)
    · obtain ⟨rfl, hpayload⟩ := Term.signature.inj hj
      obtain ⟨hown, hkey⟩ : peerPublic = publicKey j ∧ publicKey index = key := by
        simpa [peerPayload, signaturePayload] using hpayload
      exact ⟨j, hown, hkey ▸ hreceived⟩

/-- **Secrecy of the session key.**  When a session with an honest peer completes, the key it has received
is the key of a session of that peer which has received its own key, and no state that follows lets
the attacker derive the secret they share. -/
theorem sessionSecrecy (hreach : Leads setting initial st) (hs : st.sessions[index]? = some session)
    (hupgraded : session.stage = .upgraded peerPublic) (hpeer : session.peer ∈ setting.honest) :
    (∃ j, peerPublic = publicKey j ∧ st.Received j session.peer (publicKey index)) ∧
      ∀ st', Leads setting st st' → ¬Derives (known setting st') (.power (sharedSecret index peerPublic)) := by
  have hvalid := hreach.valid valid_initial
  obtain ⟨j, rfl, hreceived⟩ := hvalid.partner hs hupgraded hpeer
  refine ⟨⟨j, rfl, hreceived⟩, fun st' hst' hderives => ?_⟩
  have hcount : (sharedSecret index (publicKey j)).countP Secret.Fresh = 2 := by
    rw [sharedSecret, publicKey, ← Multiset.cons_zero, Multiset.countP_cons_of_pos _ trivial,
      Multiset.countP_cons_of_pos _ trivial, Multiset.countP_zero]
  have hshows := hderives.countP_le_one Secret.Fresh (hst'.valid hvalid).known_shows
  omega

/-- Two completed sessions with one key, the first of them meant for the party of the second. -/
structure State.SharedKey (st : State) (s t : Session) : Prop where
  meant : s.peer = t.party
  secret : ∃ i j keyS keyT, st.sessions[i]? = some s ∧ st.sessions[j]? = some t ∧ s.stage = .upgraded keyS ∧
    t.stage = .upgraded keyT ∧ sharedSecret i keyS = sharedSecret j keyT

/-- Such sessions agree on who they are for. -/
def State.IdentityAgreement (st : State) : Prop := ∀ s t, st.SharedKey s t → t.peer = s.party

theorem State.Valid.peer_eq_iff (h : st.Valid setting) {s t : Session} (hshared : st.SharedKey s t) :
    t.peer = s.party ↔ t.peer ∈ setting.honest := by
  obtain ⟨hmeant, i, j, keyS, keyT, hs, ht, hupgradedS, hupgradedT, hsame⟩ := hshared
  refine ⟨fun hpeer => hpeer ▸ h.party i s hs, fun hpeer => ?_⟩
  obtain ⟨u, rfl, -⟩ := h.partner hs hupgradedS (hmeant ▸ h.party j t ht)
  obtain ⟨v, rfl, hv⟩ := h.partner ht hupgradedT hpeer
  -- the two secrets of the key belong to one session each
  rw [sharedSecret, sharedSecret, publicKey, publicKey, Multiset.cons_eq_cons] at hsame
  have hcases : i = j ∨ i = v := by
    obtain ⟨hij, -⟩ | ⟨-, rest, -, hrest⟩ := hsame
    · exact .inl (Secret.session.inj hij)
    · obtain ⟨hiv, -⟩ := (Multiset.singleton_eq_cons_iff _).mp hrest
      exact .inr (Secret.session.inj hiv).symm
  obtain rfl | rfl := hcases
  · obtain rfl : s = t := by simpa [hs] using ht
    exact hmeant
  · obtain ⟨session, hsession, hparty, -⟩ := hv
    obtain rfl : s = session := by simpa [hs] using hsession
    exact hparty.symm

/-- **Agreement on the identities.**  In every state the attacker can bring about, the honest ends of one
key agree on who they are talking to exactly when none of those second ends is meant for a
party whose signing key the attacker has. -/
theorem identityAgreement_iff (hreach : Leads setting initial st) :
    st.IdentityAgreement ↔ ∀ s t, st.SharedKey s t → t.peer ∈ setting.honest :=
  forall₂_congr fun _ _ => forall_congr' fun hshared => (hreach.valid valid_initial).peer_eq_iff hshared

/-- Parties 0 and 1 of three are honest, and the attacker has the signing key of party 2. -/
def threeParties : Setting := ⟨{0, 1}, fromIdentities 3⟩

/-- Party 1 has connected to party 0, and what it sent arrived under the number of the given party. -/
def exchanged (claimed : ℕ) : State :=
  ⟨[⟨1, .initiator, 0, .upgraded (publicKey 1)⟩, ⟨0, .listener, claimed, .upgraded (publicKey 0)⟩],
    [.power (publicKey 0), .power (publicKey 1), .signature 1 (signaturePayload (publicKey 0) (publicKey 1)),
      .signature 0 (signaturePayload (publicKey 1) (publicKey 0))]⟩

/-- The attacker passes everything on, and signs the keys itself where it has claimed its own number. -/
theorem leads_exchanged {claimed : ℕ} (hclaimed : claimed = 1 ∨ claimed = 2) :
    Leads threeParties initial (exchanged claimed) := by
  have hkey : ∀ {sessions : List Session} {written : List Wire} {t : Wire}, t ∈ written →
      Derives (known threeParties ⟨sessions, written⟩) t := fun h => .known (.inr (.inr h))
  have h1 : Leads threeParties initial ⟨[⟨1, .initiator, 0, .sentKey⟩], [.power (publicKey 0)]⟩ :=
    Leads.refl.step (show Event.Offered _ _ (.call 1 .initiator 0) from trivial) rfl
  have h2 : Leads threeParties initial ⟨[⟨1, .initiator, 0, .sentKey⟩, ⟨0, .listener, claimed, .sentKey⟩],
      [.power (publicKey 0), .power (publicKey 1)]⟩ :=
    h1.step (show Event.Offered _ _ (.call 0 .listener claimed) from trivial) (by obtain rfl | rfl := hclaimed <;> rfl)
  have h3 := h2.step (show Event.Offered _ _ (.readKey 0 (publicKey 1)) from hkey (by simp)) rfl
  have h4 := h3.step (show Event.Offered _ _ (.readKey 1 (publicKey 0)) from hkey (by simp)) rfl
  have h5 := h4.step (show Event.Offered _ _ (.readSignature 0 0 (peerPayload (publicKey 1) (publicKey 0))) from
    hkey (by simp [peerPayload, signaturePayload])) rfl
  refine h5.step (show Event.Offered _ _ (.readSignature 1 claimed (peerPayload (publicKey 0) (publicKey 1))) from ?_)
    (by obtain rfl | rfl := hclaimed <;> rfl)
  obtain rfl | rfl := hclaimed
  · exact hkey (by simp [peerPayload, signaturePayload])
  · refine .sign (.known (.inr (.inl ⟨2, by decide, rfl⟩))) fun key hmem => ?_
    obtain rfl | rfl : key = publicKey 0 ∨ key = publicKey 1 := by simpa [peerPayload] using hmem
    · exact hkey (by simp)
    · exact hkey (by simp)

theorem sessionSecrecy_exchanged :
    (∃ j, publicKey 1 = publicKey j ∧ (exchanged 1).Received j 0 (publicKey 0)) ∧
      ¬Derives (known threeParties (exchanged 1)) (.power (sharedSecret 0 (publicKey 1))) := by
  have hs : (exchanged 1).sessions[0]? = some ⟨1, .initiator, 0, .upgraded (publicKey 1)⟩ := rfl
  have hsecret := sessionSecrecy (leads_exchanged (.inl rfl)) hs rfl (by decide)
  exact ⟨hsecret.1, hsecret.2 _ .refl⟩

/-- With the number of party 1 on the wire the two sessions agree. -/
theorem identityAgreement_exchanged : (exchanged 1).IdentityAgreement := by
  apply (identityAgreement_iff (leads_exchanged (.inl rfl))).mpr
  rintro s t ⟨-, -, j, -, -, -, ht, -⟩
  have hall : ∀ session ∈ (exchanged 1).sessions, session.peer ∈ threeParties.honest := by decide
  exact hall t (List.mem_of_getElem? ht)

/-- With the number of party 2 on the wire party 0 takes the session of party 1 for one of party 2. -/
theorem identities_misbound : Leads threeParties initial (exchanged 2) ∧ ¬(exchanged 2).IdentityAgreement := by
  refine ⟨leads_exchanged (.inr rfl), fun hagree => ?_⟩
  have hshared : (exchanged 2).SharedKey ⟨1, .initiator, 0, .upgraded (publicKey 1)⟩
      ⟨0, .listener, 2, .upgraded (publicKey 0)⟩ :=
    ⟨rfl, 0, 1, _, _, rfl, rfl, rfl, rfl, by decide⟩
  exact absurd (hagree _ _ hshared) (by decide)

end Handshake

end MpcCore
