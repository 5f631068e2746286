import MpcCore.ExecutionRetry
import MpcCore.ClusterShares

/-! # The inputs of a repeated online phase

The network phase of an input takes the prepared value out of the context, before the exchange that can
fail.  A call of `do_online` that follows a failed one finds no value there and shares zero.

* `Consumption`: the values that are left in the context are those of the inputs without a network
  phase, and each network phase shared the value it found.
* `FailedCalls`: any number of calls of `do_online` that fail.
* `sharesInputs_iff`: the call that succeeds shares the values supplied exactly if no call failed
  before it, or all values are zero modulo `M`. -/

namespace MpcCore

open Operation MpcScheme

/-- A call of the additive scheme or of the network under it. -/
abbrev AdditiveCall : Type := Call AdditiveOperation ℕ ℕ AdditivePending

/-- What the rounds of the additive scheme work on. -/
abbrev AdditiveExec (N : Type) : Type := Exec AdditiveOperation ℕ ℕ AdditiveContext AdditivePending N

/-- A party of the additive scheme on some network. -/
abbrev AdditivePartyOn (M : ℕ) (N : Type) : Type :=
  ExecutionContext (AdditiveScheme M) AdditiveOperation ℕ ℕ AdditiveContext AdditivePending N

variable {M : ℕ} {N : Type}

/-! ### The shares of one input -/

/-- The shares sent and the share kept sum to the value. -/
def Shares (M : ℕ) (out : NetworkPhaseOutput AdditivePending ℕ) (v : ℕ) : Prop :=
  ∃ share, out.pending = .input true (some share) ∧
    ((out.sendRequest.map SendRequest.data).sum + share) % M = v % M

theorem u64Add_eq_ok {a b s : ℕ} (h : u64Add a b = .ok s) : s = a + b := by
  unfold u64Add at h
  split at h
  · exact (Outcome.ok.inj h).symm
  · cases h

theorem u64Sub_eq_ok {a b s : ℕ} (h : u64Sub a b = .ok s) : b ≤ a ∧ s = a - b := by
  unfold u64Sub at h
  split at h
  · next hle => exact ⟨hle, (Outcome.ok.inj h).symm⟩
  · cases h

theorem dealShares_sum {myId : ℕ} : ∀ {is : List ℕ} {sum sum' : ℕ} {sent sent' : List (SendRequest ℕ)}
    {c c' : AdditiveContext}, dealShares M myId is sum sent c = (.ok (sum', sent'), c') →
    sum % M = (sent.map SendRequest.data).sum % M → sum' % M = (sent'.map SendRequest.data).sum % M
  | [], sum, sum', sent, sent', c, c', h, hsum => by
      obtain ⟨rfl, rfl⟩ : sum = sum' ∧ sent = sent' := by simpa [dealShares] using (Prod.mk.inj h).1
      exact hsum
  | i :: is, sum, sum', sent, sent', c, c', h, hsum => by
      unfold dealShares at h
      split at h
      · exact dealShares_sum h hsum
      · obtain ⟨share, c₁, -, h⟩ := Act.bind_eq_ok.mp h
        obtain ⟨s, c₂, hs, h⟩ := Act.bind_eq_ok.mp h
        obtain rfl := u64Add_eq_ok (Prod.mk.inj hs).1
        apply dealShares_sum h
        rw [List.map_append, List.sum_append, Nat.mod_mod, Nat.add_mod, hsum]
        simp [Nat.add_mod]

/-- The inputs that are left stay. -/
def SameInputs (c c' : AdditiveContext) : Prop := c'.userInputs = c.userInputs

instance : IsPreorder AdditiveContext SameInputs where
  refl _ := rfl
  trans _ _ _ h h' := h'.trans h

theorem dealShares_sameInputs (myId : ℕ) : ∀ (is : List ℕ) (sum : ℕ) (sent : List (SendRequest ℕ)),
    Act.Keeps SameInputs (dealShares M myId is sum sent)
  | [], _, _ => Act.Keeps.ret _
  | i :: is, sum, sent => by
      unfold dealShares
      split
      · exact dealShares_sameInputs myId is _ _
      · exact Act.Keeps.bind (fun _ _ => rfl) fun _ _ _ _ =>
          (Act.Keeps.ret _).bind fun _ _ _ _ => dealShares_sameInputs myId is _ _

/-- The dealer of an input takes its value out of the context, and shares it. -/
theorem dealInput_consumes {w : WireId} {c c' : AdditiveContext}
    {r : Outcome String (NetworkPhaseOutput AdditivePending ℕ)} (h : dealInput M w c = (r, c')) (hr : r ≠ .panic) :
    c'.userInputs = c.userInputs.erase w ∧
      ∀ out, r = .ok out → Shares M out ((c.userInputs.get w).getD 0) := by
  have hrun : ((dealShares M c.myId (List.range c.nPlayers) 0 []).bind fun dealt =>
      Act.ret <| (u64Add ((c.userInputs.get w).getD 0 % M) M).bind fun a => (u64Sub a dealt.1).bind fun b =>
        .ok ⟨.input true (some (b % M)), dealt.2, []⟩) { c with userInputs := c.userInputs.erase w } =
      (r, c') := h
  have hkeep := dealShares_sameInputs (M := M) c.myId (List.range c.nPlayers) 0 []
    { c with userInputs := c.userInputs.erase w }
  obtain ⟨⟨sum, sent⟩, c₁, h1, h2⟩ | ⟨r₁, h1, hf⟩ := Act.bind_cases hrun
  · obtain ⟨hout, rfl⟩ := Prod.mk.inj h2
    rw [h1] at hkeep
    refine ⟨hkeep (by simp), fun out ho => ?_⟩
    rw [ho] at hout
    obtain ⟨a, ha, hout⟩ := Outcome.bind_eq_ok.mp hout
    obtain ⟨b, hb, hout⟩ := Outcome.bind_eq_ok.mp hout
    obtain rfl := Outcome.ok.inj hout
    obtain rfl := u64Add_eq_ok ha
    obtain ⟨hle, rfl⟩ := u64Sub_eq_ok hb
    refine ⟨_, rfl, ?_⟩
    have hsum := dealShares_sum h1 rfl
    calc ((sent.map SendRequest.data).sum + ((c.userInputs.get w).getD 0 % M + M - sum) % M) % M
        = (sum + ((c.userInputs.get w).getD 0 % M + M - sum)) % M := by
          rw [Nat.add_mod, ← hsum, Nat.mod_mod, ← Nat.add_mod]
      _ = ((c.userInputs.get w).getD 0 % M + M) % M := by rw [Nat.add_sub_cancel' hle]
      _ = (c.userInputs.get w).getD 0 % M := by rw [Nat.add_mod_right, Nat.mod_mod]
  · rw [h1] at hkeep
    exact ⟨hkeep (hf.ne_panic hr), fun out ho => absurd ho (hf.ne_ok out)⟩

/-! ### What is left of the inputs -/

/-- The network phase of this party's input of the wire is among the calls. -/
def Dealt (me : ℕ) (w : WireId) (calls : List AdditiveCall) : Prop :=
  ∃ ins r, Call.networkPhase (.input me w) ins r ∈ calls

theorem dealt_iff {me : ℕ} {w : WireId} {calls : List AdditiveCall} :
    Dealt me w calls ↔ .input me w ∈ calls.filterMap Call.networkOp := mem_networkOps.symm

theorem dealt_snoc {me : ℕ} {w : WireId} {calls : List AdditiveCall} {c : AdditiveCall} :
    Dealt me w (calls ++ [c]) ↔ Dealt me w calls ∨ c.networkOp = some (.input me w) := by
  rw [dealt_iff, dealt_iff, List.filterMap_append, List.mem_append]
  simp [List.mem_filterMap]

/-- The calls made since the inputs were prepared, and the context they leave: the value of an input
is there until its network phase, which shares it; a second network phase shares zero. -/
structure Consumption (M me : ℕ) (supplied : PMap WireId ℕ) (calls : List AdditiveCall)
    (context : AdditiveContext) : Prop where
  myId : context.myId = me
  spent : ∀ w, Dealt me w calls → context.userInputs.get w = none
  unspent : ∀ w, ¬ Dealt me w calls → context.userInputs.get w = supplied.get w
  first : ∀ before w ins out after, calls = before ++ .networkPhase (.input me w) ins (.ok out) :: after →
    ¬ Dealt me w before → Shares M out ((supplied.get w).getD 0)
  again : ∀ before w ins out after, calls = before ++ .networkPhase (.input me w) ins (.ok out) :: after →
    Dealt me w before → Shares M out 0

variable {me : ℕ} {supplied : PMap WireId ℕ} {calls : List AdditiveCall} {context : AdditiveContext}

theorem Consumption.start (hme : context.myId = me) (hsup : context.userInputs = supplied) :
    Consumption M me supplied [] context where
  myId := hme
  spent w h := by obtain ⟨ins, r, hmem⟩ := h; cases hmem
  unspent w _ := by rw [hsup]
  first before w ins out after he := absurd he (by simp)
  again before w ins out after he := absurd he (by simp)

theorem Consumption.snoc_other (h : Consumption M me supplied calls context) {c : AdditiveCall}
    (hc : ∀ w, c.networkOp ≠ some (.input me w)) {context' : AdditiveContext}
    (hme : context'.myId = context.myId) (hsame : SameInputs context context') :
    Consumption M me supplied (calls ++ [c]) context' where
  myId := hme.trans h.myId
  spent w hw := by
    rw [hsame]
    exact h.spent w ((dealt_snoc.mp hw).resolve_right (hc w))
  unspent w hw := by
    rw [hsame]
    exact h.unspent w fun hd => hw (dealt_snoc.mpr (.inl hd))
  first before w ins out after he := by
    obtain ⟨-, rfl, -⟩ | ⟨after', -, he'⟩ := eq_append_snoc_cases he
    · exact absurd rfl (hc w)
    · exact h.first _ _ _ _ _ he'
  again before w ins out after he := by
    obtain ⟨-, rfl, -⟩ | ⟨after', -, he'⟩ := eq_append_snoc_cases he
    · exact absurd rfl (hc w)
    · exact h.again _ _ _ _ _ he'

theorem Consumption.snoc_input (h : Consumption M me supplied calls context) {w : WireId} {ins : List ℕ}
    {r : Outcome String (NetworkPhaseOutput AdditivePending ℕ)} {context' : AdditiveContext}
    (hme : context'.myId = context.myId) (herase : context'.userInputs = context.userInputs.erase w)
    (hshares : ∀ out, r = .ok out → Shares M out ((context.userInputs.get w).getD 0)) :
    Consumption M me supplied (calls ++ [.networkPhase (.input me w) ins r]) context' where
  myId := hme.trans h.myId
  spent w' hw' := by
    rw [herase]
    by_cases hww : w' = w
    · simp [PMap.get, PMap.erase, hww]
    · rw [PMap.get_erase_ne _ hww]
      refine h.spent w' ((dealt_snoc.mp hw').resolve_right fun hop => hww ?_)
      simpa [Call.networkOp, eq_comm] using hop
  unspent w' hw' := by
    rw [dealt_snoc, not_or] at hw'
    have hww : w' ≠ w := fun he => hw'.2 (by rw [he]; rfl)
    rw [herase, PMap.get_erase_ne _ hww]
    exact h.unspent w' hw'.1
  first before w' ins' out after he hd := by
    obtain ⟨rfl, heq, -⟩ | ⟨after', -, he'⟩ := eq_append_snoc_cases he
    · obtain ⟨rfl, -, rfl⟩ : w' = w ∧ ins' = ins ∧ .ok out = r := by simpa using heq
      rw [← h.unspent w' hd]
      exact hshares out rfl
    · exact h.first _ _ _ _ _ he' hd
  again before w' ins' out after he hd := by
    obtain ⟨rfl, heq, -⟩ | ⟨after', -, he'⟩ := eq_append_snoc_cases he
    · obtain ⟨rfl, -, rfl⟩ : w' = w ∧ ins' = ins ∧ .ok out = r := by simpa using heq
      have := hshares out rfl
      rwa [h.spent w' hd] at this
    · exact h.again _ _ _ _ _ he' hd

theorem Consumption.networkPhase (h : Consumption M me supplied calls context) {op : AdditiveOperation}
    {ins : List ℕ} {r : Outcome String (NetworkPhaseOutput AdditivePending ℕ)} {context' : AdditiveContext}
    (hrun : additiveNetworkPhase M op ins context = (r, context')) (hr : r ≠ .panic) :
    Consumption M me supplied (calls ++ [.networkPhase op ins r]) context' := by
  have hseat := additiveNetworkPhase_sameSeat (M := M) op ins context (by rw [hrun]; exact hr)
  rw [hrun] at hseat
  cases op with
  | input partyId w =>
      rw [additiveNetworkPhase, Act.read_bind] at hrun
      split at hrun
      · next hme =>
          obtain rfl : partyId = me := hme.symm.trans h.myId
          obtain ⟨h1, h2⟩ := dealInput_consumes hrun hr
          exact h.snoc_input hseat.1 h1 h2
      · next hme =>
          obtain ⟨-, rfl⟩ := Prod.mk.inj hrun
          refine h.snoc_other (fun w' hop => hme ?_) rfl rfl
          obtain ⟨rfl, -⟩ : partyId = me ∧ w = w' := by simpa [Call.networkOp] using hop
          exact h.myId
  | genRandom output =>
      obtain ⟨-, rfl⟩ := Prod.mk.inj hrun
      exact h.snoc_other (fun w hop => by simp [Call.networkOp] at hop) rfl rfl
  | add left right output =>
      refine h.snoc_other (fun w hop => by simp [Call.networkOp] at hop) hseat.1 ?_
      obtain _ | ⟨a, _ | ⟨b, ins⟩⟩ := ins <;> exact congrArg AdditiveContext.userInputs (Prod.mk.inj hrun).2.symm
  | reveal inp output =>
      refine h.snoc_other (fun w hop => by simp [Call.networkOp] at hop) hseat.1 ?_
      cases ins <;> exact congrArg AdditiveContext.userInputs (Prod.mk.inj hrun).2.symm

variable [Network N ℕ]

theorem consumption_callInvariant (scheme : AdditiveScheme M) (log : List AdditiveCall) (me : ℕ)
    (supplied : PMap WireId ℕ) : CallInvariant scheme
      (fun s : AdditiveExec N => ∃ calls, s.calls = log ++ calls ∧ Consumption M me supplied calls s.context)
      fun _ => True where
  networkPhase op := by
    rintro s ⟨calls, hlog, h⟩ hr
    obtain ⟨ins, r, context, hphase, hrun⟩ | hrun := networkPhase_cases scheme op s
    · rw [hrun] at hr ⊢
      exact ⟨⟨_, (congrArg (· ++ _) hlog).trans (List.append_assoc ..),
        h.networkPhase hphase fun hp => hr (Outcome.mapErr_eq_panic.mpr hp)⟩, fun _ => trivial⟩
    · rw [hrun]
      exact ⟨⟨calls, hlog, h⟩, fun _ => trivial⟩
  finalizePhase op pending data := by
    rintro s ⟨calls, hlog, h⟩ -
    exact ⟨⟨_, (congrArg (· ++ _) hlog).trans (List.append_assoc ..),
      h.snoc_other (fun w hop => by cases hop) rfl rfl⟩, fun _ => trivial⟩
  storeWire w v := by
    rintro s ⟨calls, hlog, h⟩ -
    exact ⟨⟨calls, hlog, h⟩, fun _ => trivial⟩
  send requests := by
    rintro s ⟨calls, hlog, h⟩ -
    exact ⟨⟨_, (congrArg (· ++ _) hlog).trans (List.append_assoc ..),
      h.snoc_other (fun w hop => by cases hop) rfl rfl⟩, fun _ => trivial⟩
  recv requests := by
    rintro s ⟨calls, hlog, h⟩ -
    exact ⟨⟨_, (congrArg (· ++ _) hlog).trans (List.append_assoc ..),
      h.snoc_other (fun w hop => by cases hop) rfl rfl⟩, fun _ => trivial⟩

/-! ### The seat of a party -/

/-- The calls of the network leave the identifier of the party. -/
structure KeepsId (N : Type) [Network N ℕ] : Prop where
  broadcast : ∀ (object : List UInt8) (network : N),
    Network.myId ℕ (Network.broadcastObject ℕ object network).2 = Network.myId ℕ network
  recvHashes : ∀ (requests : List ReceiveRequest) (network : N),
    Network.myId ℕ (Network.recvHashesMany ℕ requests network).2 = Network.myId ℕ network
  send : ∀ (requests : List (SendRequest ℕ)) (network : N),
    Network.myId ℕ (Network.sendObjectsMany requests network).2 = Network.myId ℕ network
  recv : ∀ (requests : List ReceiveRequest) (network : N),
    Network.myId ℕ (@Network.recvObjectsMany N ℕ _ requests network).2 = Network.myId ℕ network

/-- The context of the scheme has the identifier that the network has. -/
def InOwnSeat (s : AdditiveExec N) : Prop := s.context.myId = Network.myId ℕ s.network

theorem seated_callInvariant (hid : KeepsId N) (scheme : AdditiveScheme M) :
    CallInvariant scheme (InOwnSeat (N := N)) fun _ => True where
  networkPhase op := by
    intro s hs hr
    refine ⟨?_, fun _ => trivial⟩
    have hseat := networkPhase_sameSeat scheme op s hr
    rw [InOwnSeat, hseat.1, ← show s.context.myId = _ from hs]
    exact hseat.2.1
  finalizePhase op pending data s hs _ := ⟨hs, fun _ => trivial⟩
  storeWire w v s hs _ := ⟨hs, fun _ => trivial⟩
  send requests s hs _ := ⟨hs.trans (hid.send requests s.network).symm, fun _ => trivial⟩
  recv requests s hs _ := ⟨hs.trans (hid.recv requests s.network).symm, fun _ => trivial⟩

/-! ### A call that fails -/

/-- The network part of a round that returns, with a value or an error, has run all network phases: the
scheme itself never fails. -/
theorem doNetworkOperations_called {scheme : AdditiveScheme M} {round : Round AdditiveOperation}
    {s s' : AdditiveExec N} {r : Outcome Fault (ℕ × ℕ)} (h : doNetworkOperations scheme round s = (r, s'))
    (hr : (∃ lens, r = .ok lens) ∨ ∃ f, r = .err f) :
    ∃ new, s'.calls = s.calls ++ new ∧ ∀ op ∈ round.networkOperations, ∃ ins r, Call.networkPhase op ins r ∈ new := by
  have hpanic : r ≠ .panic := by rcases hr with ⟨_, rfl⟩ | ⟨_, rfl⟩ <;> simp
  obtain ⟨batch, s₁, h1, h2⟩ | ⟨r₁, h1, hf⟩ := Act.bind_cases h
  · obtain ⟨new, hnew, hcalled⟩ := networkPhases_called h1
    obtain ⟨⟨more, hmore⟩, -⟩ := ((log_callInvariant scheme s₁.calls).exchange round.networkOperations batch).of_eq h2
      (List.prefix_refl _) hpanic
    refine ⟨new ++ more, by rw [← hmore, hnew, List.append_assoc], fun op hop => ?_⟩
    obtain ⟨ins, r, hmem⟩ := hcalled op hop
    exact ⟨ins, r, List.mem_append_left _ hmem⟩
  · obtain ⟨lens, rfl⟩ | ⟨f, rfl⟩ := hr
    · exact absurd rfl (hf.ne_ok lens)
    · obtain rfl := hf.eq_err
      refine absurd ?_ (networkPhases_ne_err scheme f round.networkOperations .empty s trivial).1
      rw [h1]

namespace ExecutionContext

omit [Network N ℕ] in
theorem withContext_run {α : Type} {x : Act (AdditiveExec N) Fault α} {ec ec' : AdditivePartyOn M N}
    {r : Outcome Fault α} {context : AdditiveContext} (hctx : ec.schemeContext = some context)
    (h : withContext x ec = (r, ec')) :
    ∃ s', x ⟨context, ec.wireContents, ec.network, ec.calls⟩ = (r, s') ∧ ec'.schemeContext = some s'.context ∧
      ec'.calls = s'.calls := by
  simp only [withContext, hctx] at h
  obtain ⟨h1, rfl⟩ := Prod.mk.inj h
  exact ⟨_, Prod.ext h1 rfl, rfl, rfl⟩

theorem handshake_inOwnSeat {digest : AdditiveCircuit M → Outcome String (List UInt8)} {rng : Draws}
    {ec ec' : AdditivePartyOn M N} {lens : ℕ × ℕ} (h : handshake digest rng ec = (.ok lens, ec')) :
    ec'.Holds InOwnSeat := by
  obtain ⟨_, ec₁, -, h⟩ := Act.bind_eq_ok.mp h
  obtain ⟨lens', ec₂, -, h⟩ := Act.bind_eq_ok.mp h
  rw [Act.read_bind] at h
  obtain ⟨context, ec₃, h3, h⟩ := Act.bind_eq_ok.mp h
  obtain ⟨hctx, rfl⟩ := Prod.mk.inj h3
  obtain ⟨-, rfl⟩ := Prod.mk.inj h
  obtain rfl := Outcome.ok.inj (Outcome.mapErr_eq_ok.mp hctx)
  exact ⟨_, rfl, rfl⟩

theorem perform_inOwnSeat (hid : KeepsId N) {digest : AdditiveCircuit M → Outcome String (List UInt8)}
    {circuit : AdditiveCircuit M} {ec ec' : AdditivePartyOn M N} (hl : Lifecycle circuit ec)
    (hec : ec.schemeContext.isSome = true → ec.Holds InOwnSeat) {i : Invocation ℕ} {r : Outcome Fault Unit}
    (h : perform digest i ec = (r, ec')) (hr : r ≠ .panic) :
    ec'.schemeContext.isSome = true → ec'.Holds InOwnSeat := by
  have hphase : ∀ {fnName required reached rounds} {r : Outcome Fault (ℕ × ℕ)},
      doPhase fnName required rounds reached ec = (r, ec') → r ≠ .panic → required ≠ .newBorn →
        ec'.schemeContext.isSome = true → ec'.Holds InOwnSeat := by
    intro fnName required reached rounds r h hr hne hsome
    obtain ⟨rfl, -⟩ | ⟨hstate, -⟩ := doPhase_cases h
    · exact hec hsome
    · have hsome := hl.initialised.mpr (by rw [hstate]; exact hne)
      exact ((doPhase_stays (fun scheme => seated_callInvariant hid scheme) fnName required reached rounds).of_eq h
        (hec hsome) hr).1
  cases i with
  | handshake rng =>
      obtain ⟨r₁, h1, -, -, hpanic⟩ := forget_cases h
      intro hsome
      by_cases hstate : ec.executionState = .newBorn
      · obtain ⟨hec', -, -⟩ | ⟨lens, context, -, rfl, -⟩ := handshake_cases h1 (fun hp => hr (hpanic.mp hp))
        · rw [NetworkOnly] at hec'
          rw [hec'] at hsome
          exact absurd hstate (hl.initialised.mp hsome)
        · exact handshake_inOwnSeat h1
      · have hec' : ec' = ec := by
          simp only [handshake, Act.bind, assertState, if_neg hstate] at h1
          exact (Prod.mk.inj h1).2.symm
        rw [hec'] at hsome ⊢
        exact hec hsome
  | doOffline =>
      obtain ⟨r₁, h1, -, -, hpanic⟩ := forget_cases h
      exact hphase h1 (fun hp => hr (hpanic.mp hp)) (by simp)
  | prepareInput userInputs =>
      intro hsome
      rcases prepareInput_cases h fun hstate => hl.initialised.mpr (by rw [hstate]; simp) with
        ⟨rfl, -, -⟩ | ⟨-, hstate, rfl, -⟩
      · exact hec hsome
      · obtain ⟨context, hctx, hseat⟩ := hec (hl.initialised.mpr (by rw [hstate]; simp))
        obtain ⟨-, -, rfl⟩ := prepareInput_eq_ok hctx h
        exact ⟨_, rfl, (additivePrepare_sameSeat userInputs context).1.trans hseat⟩
  | doOnline =>
      obtain ⟨r₁, h1, -, -, hpanic⟩ := forget_cases h
      exact hphase h1 (fun hp => hr (hpanic.mp hp)) (by simp)

theorem inOwnSeat_of_reachable (hid : KeepsId N) {digest : AdditiveCircuit M → Outcome String (List UInt8)}
    {circuit : AdditiveCircuit M} {ec : AdditivePartyOn M N} (h : Reachable digest circuit ec) :
    ec.schemeContext.isSome = true → ec.Holds InOwnSeat := by
  induction h with
  | new network => simp [new]
  | ok i hreach h ih => exact perform_inOwnSeat hid (lifecycle_of_reachable hreach) ih h (by simp)
  | err i hreach h ih => exact perform_inOwnSeat hid (lifecycle_of_reachable hreach) ih h (by simp)

/-! ### Calls of the online phase -/

/-- A call that fails has run all network phases of the first round. -/
theorem doOnline_err_called {circuit : AdditiveCircuit M} {ec ec' : AdditivePartyOn M N} {context : AdditiveContext}
    (hctx : ec.schemeContext = some context) (hcirc : ec.circuit = circuit)
    (hstate : ec.executionState = .readyOnline) {f : Fault} (h : doOnline ec = (.err f, ec'))
    {round : Round AdditiveOperation} {rest : List (Round AdditiveOperation)}
    (hrounds : circuit.onlineRounds = round :: rest) :
    ∃ new, ec'.calls = ec.calls ++ new ∧
      ∀ op ∈ round.networkOperations, ∃ ins r, Call.networkPhase op ins r ∈ new := by
  subst hcirc
  obtain ⟨-, -, -, hne⟩ | ⟨-, ⟨r₁, hrun, hf⟩ | ⟨lens, ec₁, -, hlens, -⟩⟩ := doPhase_cases h
  · exact absurd hstate hne
  · obtain rfl := hf.eq_err
    rw [hrounds] at hrun
    obtain ⟨_, ec₁, h1, hrun⟩ | ⟨r₂, h1, hf⟩ := Act.bind_cases hrun
    · obtain ⟨s₁, hs₁, hctx₁, hcalls₁⟩ := withContext_run hctx h1
      obtain ⟨⟨new₁, hnew₁⟩, -⟩ := ((log_callInvariant ec.circuit.scheme ec.calls).doLocalOperations round).of_eq hs₁
        (List.prefix_refl _) (by simp)
      obtain ⟨lens, ec₂, h2, h3⟩ | ⟨r₂, h2, hf⟩ := Act.bind_cases hrun
      · obtain ⟨s₂, hs₂, hctx₂, hcalls₂⟩ := withContext_run hctx₁ h2
        obtain ⟨new₂, hnew₂, hcalled⟩ := doNetworkOperations_called hs₂ (.inl ⟨lens, rfl⟩)
        obtain ⟨⟨_, -, new₃, hnew₃⟩, -⟩ :=
          (doRounds_stays (log_callInvariant ec.circuit.scheme ec₂.calls) rest _ _).of_eq
          h3 ⟨_, hctx₂, List.prefix_refl _⟩ (by simp)
        refine ⟨new₁ ++ new₂ ++ new₃, hnew₃.symm.trans ?_, fun op hop => ?_⟩
        · rw [hcalls₂, hnew₂, hcalls₁, ← hnew₁]
          simp
        · obtain ⟨ins, r, hmem⟩ := hcalled op hop
          exact ⟨ins, r, by simp [hmem]⟩
      · obtain ⟨s₂, hs₂, -, hcalls₂⟩ := withContext_run hctx₁ h2
        obtain ⟨new₂, hnew₂, hcalled⟩ := doNetworkOperations_called hs₂ (.inr ⟨f, hf.eq_err⟩)
        refine ⟨new₁ ++ new₂, ?_, fun op hop => ?_⟩
        · rw [hcalls₂, hnew₂, hcalls₁, ← hnew₁]
          simp
        · obtain ⟨ins, r, hmem⟩ := hcalled op hop
          exact ⟨ins, r, by simp [hmem]⟩
    · obtain rfl := hf.eq_err
      obtain ⟨s₁, hs₁, -⟩ := withContext_run hctx h1
      refine absurd ?_ (doLocalOperations_ne_err ec.circuit.scheme f round
        ⟨context, ec.wireContents, ec.network, ec.calls⟩ trivial).1
      rw [hs₁]
  · cases hlens

/-- Calls of `do_online` that fail, one after the other. -/
inductive FailedCalls : ℕ → AdditivePartyOn M N → AdditivePartyOn M N → Prop where
  | zero (ec : AdditivePartyOn M N) : FailedCalls 0 ec ec
  | succ {k : ℕ} {ec ec' ec'' : AdditivePartyOn M N} {e : ExecutionContextError} :
      FailedCalls k ec ec' → doOnline ec' = (.err (.error e), ec'') → FailedCalls (k + 1) ec ec''

section

variable {digest : AdditiveCircuit M → Outcome String (List UInt8)} {circuit : AdditiveCircuit M} {k : ℕ}
  {ec ec' : AdditivePartyOn M N}

/-- What a failed call leaves: the state is the same, and every statement about the calls stays. -/
theorem FailedCalls.keeps (h : FailedCalls k ec ec') (hreach : Reachable digest circuit ec)
    (hstate : ec.executionState = .readyOnline) :
    Reachable digest circuit ec' ∧ ec'.executionState = .readyOnline ∧
      ∀ {I H : AdditiveExec N → Prop}, (∀ scheme : AdditiveScheme M, CallInvariant scheme I H) →
        ec.Holds I → ec'.Holds I := by
  induction h with
  | zero ec => exact ⟨hreach, hstate, fun _ hI => hI⟩
  | @succ _ ec ec' ec'' e _ hcall ih =>
      obtain ⟨h1, h2, h3⟩ := ih hreach hstate
      have hperform : perform digest .doOnline ec' = (.err (.error e), ec'') := by
        simp only [perform, Act.bind, hcall]
      refine ⟨.err .doOnline h1 hperform, ?_, fun hI hec => ?_⟩
      · exact (((lifecycle_of_reachable h1).step hperform (by simp)).1.fails (by simp)).trans h2
      · exact ((doPhase_stays hI _ _ _ _).of_eq hcall (h3 hI hec) (by simp)).1

/-- After a failed call every operation of the first round has had its network phase. -/
theorem FailedCalls.called (h : FailedCalls (k + 1) ec ec') (hreach : Reachable digest circuit ec)
    (hstate : ec.executionState = .readyOnline) {round : Round AdditiveOperation}
    {rest : List (Round AdditiveOperation)} (hrounds : circuit.onlineRounds = round :: rest) :
    ∃ new, ec'.calls = ec.calls ++ new ∧
      ∀ op ∈ round.networkOperations, ∃ ins r, Call.networkPhase op ins r ∈ new := by
  cases h with
  | succ h hcall =>
      obtain ⟨h1, h2, h3⟩ := h.keeps hreach hstate
      have hsome := (lifecycle_of_reachable hreach).initialised.mpr (by rw [hstate]; simp)
      obtain ⟨context, hctx⟩ := Option.isSome_iff_exists.mp hsome
      obtain ⟨context', hctx', before, hbefore⟩ :=
        h3 (fun scheme => log_callInvariant scheme ec.calls) ⟨context, hctx, List.prefix_refl _⟩
      obtain ⟨new, hnew, hcalled⟩ :=
        doOnline_err_called hctx' (lifecycle_of_reachable h1).circuit_eq h2 hcall hrounds
      refine ⟨before ++ new, by rw [hnew, ← List.append_assoc, hbefore], fun op hop => ?_⟩
      obtain ⟨ins, r, hmem⟩ := hcalled op hop
      exact ⟨ins, r, List.mem_append_right _ hmem⟩

end

/-! ### The inputs of the call that succeeds -/

/-- Every input of the party has its network phase among the calls, and it shares the value that was
supplied for its wire. -/
def SharesInputs (circuit : AdditiveCircuit M) (me : ℕ) (userInputs : List (WireId × ℕ))
    (calls : List AdditiveCall) : Prop :=
  ∀ w, .input me w ∈ circuit.onlineOperations → ∃ v, (w, v) ∈ userInputs ∧ Dealt me w calls ∧
    ∀ ins r, .networkPhase (.input me w) ins r ∈ calls → ∃ out, r = .ok out ∧ Shares M out v

end ExecutionContext

theorem Shares.mod_eq {out : NetworkPhaseOutput AdditivePending ℕ} {v v' : ℕ} (h : Shares M out v)
    (h' : Shares M out v') : v % M = v' % M := by
  obtain ⟨share, hout, hsum⟩ := h
  obtain ⟨share', hout', hsum'⟩ := h'
  obtain rfl : share = share' := by simpa using hout.symm.trans hout'
  exact hsum.symm.trans hsum'

theorem Shares.congr {out : NetworkPhaseOutput AdditivePending ℕ} {v v' : ℕ} (h : Shares M out v)
    (hv : v % M = v' % M) : Shares M out v' := by
  obtain ⟨share, hout, hsum⟩ := h
  exact ⟨share, hout, hsum.trans hv⟩

theorem nodup_of_uniqueProducers {ops : List AdditiveOperation} (h : (producedWires ops).Nodup) : ops.Nodup := by
  rw [producedWires_eq] at h
  exact h.of_map _

namespace ExecutionContext

variable {digest : AdditiveCircuit M → Outcome String (List UInt8)} {circuit : AdditiveCircuit M} {k : ℕ}

/-- What the network phases of this party's inputs share, in the call that succeeds after `k` calls that
fail: the values prepared if `k = 0`, and zero otherwise. -/
theorem shares_after_failures {operations : List AdditiveOperation} (hnew : MpcCircuit.new ⟨⟩ operations = .ok circuit)
    (hst : circuit.StoresBeforeUse) {ec₁ ec₂ ec₃ : AdditivePartyOn M N} {lens : ℕ × ℕ} {context : AdditiveContext}
    (hreach : Reachable digest circuit ec₁) (hstate : ec₁.executionState = .readyOnline)
    (hctx : ec₁.schemeContext = some context) (hfail : FailedCalls k ec₁ ec₂)
    (hok : doOnline ec₂ = (.ok lens, ec₃)) :
    ∃ calls, ec₃.calls = ec₂.calls ++ calls ∧ ∀ w, .input context.myId w ∈ circuit.onlineOperations →
      Dealt context.myId w calls ∧ ∀ ins r, .networkPhase (.input context.myId w) ins r ∈ calls →
        ∃ out, r = .ok out ∧ Shares M out (if k = 0 then (context.userInputs.get w).getD 0 else 0) := by
  obtain ⟨hreach₂, hstate₂, hkeeps⟩ := hfail.keeps hreach hstate
  have hl₂ := lifecycle_of_reachable hreach₂
  have hu := MpcCircuit.uniqueProducers_of_new hnew
  have hc : Contract circuit.scheme circuit :=
    additive_contract (fun round hround => (MpcCircuit.classified_of_new hnew round hround).1) _
  obtain ⟨calls, hcalls, hops, hall⟩ := Phase.call_ok_calls hc hu hst hl₂
    (show _ = Phase.online.required from hstate₂) (show Phase.online.call ec₂ = _ from hok)
  have hstart : ec₁.Holds fun s => ∃ calls, s.calls = ec₁.calls ++ calls ∧
      Consumption M context.myId context.userInputs calls s.context :=
    ⟨context, hctx, [], by simp, .start rfl rfl⟩
  have hI := fun scheme : AdditiveScheme M =>
    consumption_callInvariant (N := N) scheme ec₁.calls context.myId context.userInputs
  have h₂ := hkeeps hI hstart
  obtain ⟨_, -, calls₃, hcalls₃, hcons⟩ := ((doPhase_stays hI _ _ _ _).of_eq hok h₂ (by simp)).1
  obtain ⟨_, -, calls₂, hcalls₂, -⟩ := h₂
  obtain rfl : calls₃ = calls₂ ++ calls := by
    have hall : ec₁.calls ++ calls₃ = ec₁.calls ++ (calls₂ ++ calls) := by
      rw [← hcalls₃, ← List.append_assoc, ← hcalls₂]
      exact hcalls
    exact List.append_cancel_left hall
  change calls.filterMap Call.networkOp = circuit.onlineOperations at hops
  refine ⟨calls, hcalls, fun w hw => ⟨dealt_iff.mpr (hops ▸ hw), fun ins r hmem => ?_⟩⟩
  obtain ⟨out, rfl⟩ := hall _ _ _ hmem
  obtain ⟨before, after, rfl⟩ := List.append_of_mem hmem
  have hsplit : calls₂ ++ (before ++ .networkPhase (.input context.myId w) ins (.ok out) :: after) =
      (calls₂ ++ before) ++ .networkPhase (.input context.myId w) ins (.ok out) :: after := by simp
  refine ⟨out, rfl, ?_⟩
  split
  · next hk =>
      -- nothing was called before, and the operation is called once
      subst hk
      cases hfail
      obtain rfl : calls₂ = [] := by simpa using hcalls₂
      refine hcons.first _ _ _ _ _ hsplit fun hd => ?_
      have hnd := nodup_of_uniqueProducers hu
      rw [MpcCircuit.operations, ← hops, List.filterMap_append] at hnd
      refine (List.nodup_append.mp (List.nodup_append.mp hnd).2.1).2.2 _ (dealt_iff.mp hd) _ ?_ rfl
      exact mem_networkOps.mpr ⟨ins, .ok out, by simp⟩
  · next hk =>
      obtain ⟨k, rfl⟩ := Nat.exists_eq_succ_of_ne_zero hk
      obtain ⟨round, rest, hrounds, hround⟩ := MpcCircuit.input_first hnew hw rfl rfl
      obtain ⟨new, hnew₂, hcalled⟩ := hfail.called hreach hstate hrounds
      obtain rfl : new = calls₂ := List.append_cancel_left (hnew₂.symm.trans hcalls₂)
      obtain ⟨ins', r', hmem'⟩ := hcalled _ hround
      exact hcons.again _ _ _ _ _ hsplit ⟨ins', r', List.mem_append_left _ hmem'⟩

theorem mem_inputWires_iff {operations : List AdditiveOperation} (hnew : MpcCircuit.new ⟨⟩ operations = .ok circuit)
    {me : ℕ} {w : WireId} : w ∈ inputWires circuit me ↔ .input me w ∈ circuit.onlineOperations := by
  rw [inputWires, List.mem_map]
  constructor
  · rintro ⟨op, hop, rfl⟩
    obtain ⟨hmem, howner⟩ := List.mem_filter.mp hop
    obtain ⟨round, hround, hnet⟩ := List.mem_flatMap.mp hmem
    cases op with
    | input partyId output =>
        obtain rfl : partyId = me := by simpa [getInputPartyId] using howner
        exact List.mem_flatMap.mpr ⟨round, hround, List.mem_append_right _ hnet⟩
    | genRandom => simp [getInputPartyId] at howner
    | add => simp [getInputPartyId] at howner
    | reveal => simp [getInputPartyId] at howner
  · intro hop
    obtain ⟨round, rest, hrounds, hround⟩ := MpcCircuit.input_first hnew hop rfl rfl
    refine ⟨_, List.mem_filter.mpr ⟨List.mem_flatMap.mpr ⟨round, by rw [hrounds]; simp, hround⟩, ?_⟩, rfl⟩
    simp [getInputPartyId]

/-- **The inputs of a repeated online phase.**  After `k` calls of `do_online` that fail, the call that
succeeds shares the values supplied exactly if `k = 0`, or all of them are zero. -/
theorem sharesInputs_iff {operations : List AdditiveOperation} (hnew : MpcCircuit.new ⟨⟩ operations = .ok circuit)
    (hst : circuit.StoresBeforeUse) (hid : KeepsId N) {ec₀ ec₁ ec₂ ec₃ : AdditivePartyOn M N} {lens : ℕ × ℕ}
    {userInputs : List (WireId × ℕ)} (hreach : Reachable digest circuit ec₀)
    (hprep : prepareInput userInputs ec₀ = (.ok (), ec₁)) (hfail : FailedCalls k ec₁ ec₂)
    (hok : doOnline ec₂ = (.ok lens, ec₃)) :
    ∃ calls, ec₃.calls = ec₂.calls ++ calls ∧
      (SharesInputs circuit (Network.myId ℕ ec₀.network) userInputs calls ↔
        k = 0 ∨ ∀ input ∈ userInputs, input.2 % M = 0) := by
  have hl := lifecycle_of_reachable hreach
  have hreach₁ : Reachable digest circuit ec₁ := .ok (.prepareInput userInputs) hreach hprep
  obtain ⟨-, hne, -⟩ | ⟨-, hstate, -, -⟩ :=
    prepareInput_cases hprep fun hstate => hl.initialised.mpr (by rw [hstate]; simp)
  · exact absurd rfl hne
  obtain ⟨context, hctx, hseat⟩ := inOwnSeat_of_reachable hid hreach (hl.initialised.mpr (by rw [hstate]; simp))
  obtain ⟨hnd, hcover, hec₁⟩ := prepareInput_eq_ok hctx hprep
  have hme : (additivePrepare M userInputs context).myId = Network.myId ℕ ec₀.network :=
    (additivePrepare_sameSeat userInputs context).1.trans hseat
  obtain ⟨calls, hcalls, hshares⟩ := shares_after_failures hnew hst hreach₁ (by rw [hec₁]) (by rw [hec₁]) hfail hok
  rw [hme] at hshares
  have hwires : ∀ w, .input (Network.myId ℕ ec₀.network) w ∈ circuit.onlineOperations ↔
      w ∈ userInputs.map Prod.fst := by
    intro w
    rw [← mem_inputWires_iff hnew, ← hcover, hl.circuit_eq]
  refine ⟨calls, hcalls, fun hall => ?_, fun hzero w hw => ?_⟩
  · refine or_iff_not_imp_left.mpr fun hk input hinput => ?_
    obtain ⟨w, v⟩ := input
    have hw := (hwires w).mpr (List.mem_map_of_mem hinput)
    obtain ⟨v', hv', ⟨ins, r, hmem⟩, hval⟩ := hall w hw
    obtain ⟨out, rfl, hout⟩ := hval ins r hmem
    obtain ⟨out', heq, hout'⟩ := (hshares w hw).2 ins _ hmem
    obtain rfl := Outcome.ok.inj heq
    rw [if_neg hk] at hout'
    obtain ⟨-, rfl⟩ : w = w ∧ v = v' := Prod.mk.inj (List.inj_on_of_nodup_map hnd hinput hv' rfl)
    simpa using hout.mod_eq hout'
  · obtain ⟨⟨w', v⟩, hinput, rfl⟩ := List.mem_map.mp ((hwires w).mp hw)
    obtain ⟨hdealt, hval⟩ := hshares w' hw
    refine ⟨v, hinput, hdealt, fun ins r hmem => ?_⟩
    obtain ⟨out, hr, hout⟩ := hval ins r hmem
    refine ⟨out, hr, hout.congr ?_⟩
    by_cases hk : k = 0
    · rw [if_pos hk, additivePrepare_mem hnd context hinput]
      simp
    · rw [if_neg hk, (hzero.resolve_left hk) _ hinput]
      simp

/-! ### A value that is lost -/

theorem keepsId_flaky : KeepsId Flaky where
  broadcast _ _ := rfl
  recvHashes _ _ := rfl
  send requests network := by
    obtain ⟨_ | failures⟩ := network <;> cases requests <;> rfl
  recv _ _ := rfl

theorem new_inputCircuit :
    MpcCircuit.new (⟨⟩ : AdditiveScheme 100) [.input 0 ⟨0⟩] = .ok inputCircuit := by
  decide +kernel

theorem failedCalls_flaky : FailedCalls 1 inputReady inputFailed :=
  .succ (e := .schemeError "scheme phase" "broken pipe") (.zero _) doOnline_inputReady

theorem sharesInputs_flaky : ∃ calls, inputFinished.calls = inputFailed.calls ++ calls ∧
    (SharesInputs inputCircuit 0 [(⟨0⟩, 5)] calls ↔ 1 = 0 ∨ ∀ input ∈ [((⟨0⟩ : WireId), 5)], input.2 % 100 = 0) :=
  sharesInputs_iff new_inputCircuit (by decide) keepsId_flaky reachable_inputOffline prepareInput_flaky
    failedCalls_flaky doOnline_inputFailed

/-- The call that succeeds does not share the value 5. -/
theorem input_lost : MpcCircuit.new (⟨⟩ : AdditiveScheme 100) [.input 0 ⟨0⟩] = .ok inputCircuit ∧
    inputCircuit.StoresBeforeUse ∧ Reachable (fun _ => .ok []) inputCircuit inputOffline ∧
    prepareInput [(⟨0⟩, 5)] inputOffline = (.ok (), inputReady) ∧ FailedCalls 1 inputReady inputFailed ∧
    doOnline inputFailed = (.ok (0, 0), inputFinished) ∧
    ∃ calls, inputFinished.calls = inputFailed.calls ++ calls ∧
      ¬ SharesInputs inputCircuit 0 [(⟨0⟩, 5)] calls := by
  refine ⟨new_inputCircuit, by decide, reachable_inputOffline, prepareInput_flaky, failedCalls_flaky, doOnline_inputFailed,
    ?_⟩
  obtain ⟨context, hctx⟩ := Option.isSome_iff_exists.mp (show inputReady.schemeContext.isSome = true by decide +kernel)
  have hme : context.myId = 0 := by
    have : inputReady.schemeContext.map AdditiveContext.myId = some 0 := by decide +kernel
    simpa [hctx] using this
  obtain ⟨calls, hcalls, hshares⟩ := shares_after_failures new_inputCircuit (by decide)
    (.ok (.prepareInput [(⟨0⟩, 5)]) reachable_inputOffline prepareInput_flaky) (by decide +kernel) hctx failedCalls_flaky
    doOnline_inputFailed
  refine ⟨calls, hcalls, fun hall => ?_⟩
  rw [hme] at hshares
  have hw : AdditiveOperation.input 0 ⟨0⟩ ∈ inputCircuit.onlineOperations := by decide
  obtain ⟨v, hv, ⟨ins, r, hmem⟩, hval⟩ := hall ⟨0⟩ hw
  obtain rfl : v = 5 := by simpa using hv
  obtain ⟨out, rfl, hout⟩ := hval ins r hmem
  obtain ⟨out', heq, hout'⟩ := (hshares ⟨0⟩ hw).2 ins _ hmem
  obtain rfl := Outcome.ok.inj heq
  exact absurd (hout.mod_eq hout') (by rw [if_neg one_ne_zero]; decide)

end ExecutionContext

end MpcCore
