import MpcCore.CircuitSchedule
import MpcCore.ExecutionLifecycle

/-! # The range of the sums

The `u64` additions of the additive scheme in an execution whose draws, wires and received elements
are below the modulus.

* `HonestCall`: what such an execution gives to a network phase.
* `additiveNetworkPhase_range`, `additiveFinalizePhase_range`: for a modulus up to `2 ^ 63` both
  phases succeed, and all they keep, send and return is below the modulus again.
* `opensModularSum_iff`: the received elements of any size for which an opening is the modular sum.
* `noOverflow_iff`: beyond `2 ^ 63` some addition leaves the range of `u64`. -/

namespace MpcCore

open Operation

variable {M : ℕ}

/-- The arguments of a network phase in an honest execution: the contents of the input wires, and
a context whose draws are below the modulus. -/
structure HonestCall (M : ℕ) (op : AdditiveOperation) (ins : List ℕ) (context : AdditiveContext) : Prop where
  length : ins.length = (inputs op).length
  ins_lt : ∀ v ∈ ins, v < M
  draws_lt : ∀ k, context.rng k < M

/-- No addition of an honest execution overflows: the network phase succeeds, and so does the
finalize phase on the elements that answer the requests. -/
def NoOverflow (M : ℕ) : Prop :=
  ∀ op ins context, HonestCall M op ins context →
    ∃ out context', additiveNetworkPhase M op ins context = (.ok out, context') ∧
      ∀ data : List ℕ, data.length = out.receiveRequest.length → (∀ v ∈ data, v < M) →
        ∃ ws, additiveFinalizePhase M out.pending data = .ok ws

theorem u64Add_eq {a b : ℕ} (h : a + b < 2 ^ 64) : u64Add a b = .ok (a + b) := if_pos h

theorem u64Sub_eq {a b : ℕ} (h : b ≤ a) : u64Sub a b = .ok (a - b) := if_pos h

theorem u64Add_overflow {a b : ℕ} (h : 2 ^ 64 ≤ a + b) : u64Add a b = .panic := if_neg (by omega)

/-! ### The network phase -/

theorem dealShares_range (hpos : 0 < M) (hle : M ≤ 2 ^ 63) (me : ℕ) :
    ∀ (is : List ℕ) (sum : ℕ) (sent : List (SendRequest ℕ)) (c : AdditiveContext), sum < M →
      (∀ k, c.rng k < M) → (∀ r ∈ sent, r.data < M) →
      ∃ sum' sent' c', dealShares M me is sum sent c = (.ok (sum', sent'), c') ∧ sum' < M ∧
        (∀ k, c'.rng k < M) ∧ ∀ r ∈ sent', r.data < M
  | [], sum, sent, c, hsum, hdraws, hsent => ⟨sum, sent, c, rfl, hsum, hdraws, hsent⟩
  | i :: is, sum, sent, c, hsum, hdraws, hsent => by
      unfold dealShares
      by_cases hi : i = me
      · rw [if_pos hi]
        exact dealShares_range hpos hle me is sum sent c hsum hdraws hsent
      · rw [if_neg hi]
        have h0 := hdraws 0
        have hadd : u64Add sum (c.rng 0) = .ok (sum + c.rng 0) := u64Add_eq (by omega)
        have hsent' : ∀ r ∈ sent ++ [⟨i, c.rng 0⟩], r.data < M := by
          intro r hr
          obtain hr | hr := List.mem_append.mp hr
          · exact hsent r hr
          · obtain rfl := List.mem_singleton.mp hr
            exact h0
        obtain ⟨sum', sent', c', h, hrest⟩ := dealShares_range hpos hle me is ((sum + c.rng 0) % M)
          (sent ++ [⟨i, c.rng 0⟩]) { c with rng := fun k => c.rng (k + 1) } (Nat.mod_lt _ hpos)
          (fun k => hdraws (k + 1)) hsent'
        refine ⟨sum', sent', c', ?_, hrest⟩
        simp only [Act.bind, genRange, Act.ret_apply, hadd, h]

/-- What a pending operation keeps is below the modulus. -/
def AdditivePending.Below (M : ℕ) : AdditivePending → Prop
  | .input isInputter myShare => isInputter = true → ∃ share, myShare = some share ∧ share < M
  | .genRandom myShare => myShare < M
  | .add myShare => myShare < M
  | .reveal myShare => myShare < M

/-- What a network phase returns in an honest execution: only what waits for the share of another
party keeps none, and it asks for it. -/
structure HonestOutput (M : ℕ) (out : NetworkPhaseOutput AdditivePending ℕ) : Prop where
  pending : out.pending.Below M
  asks : ∀ myShare, out.pending = .input false myShare → out.receiveRequest ≠ []
  sent_lt : ∀ r ∈ out.sendRequest, r.data < M

theorem dealInput_range (hpos : 0 < M) (hle : M ≤ 2 ^ 63) (output : WireId) {c : AdditiveContext}
    (hdraws : ∀ k, c.rng k < M) :
    ∃ out c', dealInput M output c = (.ok out, c') ∧ HonestOutput M out ∧ ∀ k, c'.rng k < M := by
  obtain ⟨sum, sent, c', h, hsum, hdraws', hsent⟩ := dealShares_range hpos hle c.myId
    (List.range c.nPlayers) 0 [] { c with userInputs := c.userInputs.erase output } hpos hdraws (by simp)
  have hinput := Nat.mod_lt ((c.userInputs.get output).getD 0) hpos
  have hadd := u64Add_eq (a := (c.userInputs.get output).getD 0 % M) (b := M) (by omega)
  have hsub := u64Sub_eq (a := (c.userInputs.get output).getD 0 % M + M) (b := sum) (by omega)
  refine ⟨⟨.input true (some (((c.userInputs.get output).getD 0 % M + M - sum) % M)), sent, []⟩, c', ?_, ?_, hdraws'⟩
  · simp only [dealInput, removeInput, Act.bind, Act.read_apply, h, Act.ret_apply, hadd, Outcome.ok_bind, hsub]
  · refine ⟨fun _ => ⟨_, rfl, Nat.mod_lt _ hpos⟩, fun myShare he => ?_, hsent⟩
    exact absurd he (by simp)

/-- **The network phase** keeps and sends values below the modulus. -/
theorem additiveNetworkPhase_range (hpos : 0 < M) (hle : M ≤ 2 ^ 63) {op : AdditiveOperation}
    {ins : List ℕ} {context : AdditiveContext} (h : HonestCall M op ins context) :
    ∃ out context', additiveNetworkPhase M op ins context = (.ok out, context') ∧ HonestOutput M out ∧
      ∀ k, context'.rng k < M := by
  obtain ⟨hlen, hins, hdraws⟩ := h
  cases op with
  | input partyId output =>
      by_cases hme : context.myId = partyId
      · obtain ⟨out, c', hdeal, hout⟩ := dealInput_range hpos hle output hdraws
        refine ⟨out, c', ?_, hout⟩
        simp only [additiveNetworkPhase, Act.read_bind, if_pos hme, hdeal]
      · refine ⟨⟨.input false none, [], [ReceiveRequest.new partyId 1]⟩, context, ?_, ?_, hdraws⟩
        · simp only [additiveNetworkPhase, Act.read_bind, if_neg hme, Act.ret_apply]
        · exact ⟨by simp [AdditivePending.Below], by simp, by simp⟩
  | genRandom output =>
      refine ⟨⟨.genRandom (context.rng 0), [], []⟩, _, rfl, ?_, fun k => hdraws (k + 1)⟩
      exact ⟨hdraws 0, by simp, by simp⟩
  | add left right output =>
      obtain ⟨a, b, rfl⟩ := List.length_eq_two.mp hlen
      have ha := hins a (by simp)
      have hb := hins b (by simp)
      have hadd : u64Add a b = .ok (a + b) := u64Add_eq (by omega)
      refine ⟨⟨.add ((a + b) % M), [], []⟩, context, ?_, ?_, hdraws⟩
      · simp only [additiveNetworkPhase, hadd, Outcome.ok_bind, Act.ret_apply]
      · exact ⟨Nat.mod_lt _ hpos, by simp, by simp⟩
  | reveal inp output =>
      obtain ⟨a, rfl⟩ := List.length_eq_one_iff.mp hlen
      have ha := hins a (by simp)
      refine ⟨_, context, rfl, ⟨ha, by simp, ?_⟩, hdraws⟩
      intro r hr
      obtain ⟨i, -, rfl⟩ := List.mem_map.mp hr
      exact ha

/-! ### The finalize phase -/

theorem sumShares_range (hpos : 0 < M) (hle : M ≤ 2 ^ 63) : ∀ (data : List ℕ) (total : ℕ), total < M →
    (∀ v ∈ data, v < M) → ∃ total', sumShares M total data = .ok total' ∧ total' < M
  | [], total, h, _ => ⟨total, rfl, h⟩
  | v :: data, total, h, hdata => by
      have hv := hdata v (by simp)
      have hadd : u64Add total v = .ok (total + v) := u64Add_eq (by omega)
      rw [sumShares, hadd, Outcome.ok_bind]
      exact sumShares_range hpos hle data _ (Nat.mod_lt _ hpos) fun a ha => hdata a (by simp [ha])

/-- **The finalize phase** returns wires below the modulus. -/
theorem additiveFinalizePhase_range (hpos : 0 < M) (hle : M ≤ 2 ^ 63)
    {out : NetworkPhaseOutput AdditivePending ℕ} (h : HonestOutput M out) {data : List ℕ}
    (hlen : data.length = out.receiveRequest.length) (hdata : ∀ v ∈ data, v < M) :
    ∃ ws, additiveFinalizePhase M out.pending data = .ok ws ∧ ∀ w ∈ ws, w < M := by
  obtain ⟨hbelow, hasks, -⟩ := h
  cases hp : out.pending with
  | input isInputter myShare =>
      rw [hp] at hbelow hasks
      cases isInputter with
      | true =>
          obtain ⟨share, rfl, hlt⟩ := hbelow rfl
          exact ⟨[share], rfl, by simpa using hlt⟩
      | false =>
          have hne := hasks myShare rfl
          cases data with
          | nil => exact absurd (List.length_eq_zero_iff.mp hlen.symm) hne
          | cons v data => exact ⟨[v % M], rfl, by simpa using Nat.mod_lt v hpos⟩
  | genRandom myShare =>
      have hlt : myShare < M := by rwa [hp] at hbelow
      exact ⟨[myShare], rfl, by simpa using hlt⟩
  | add myShare =>
      have hlt : myShare < M := by rwa [hp] at hbelow
      exact ⟨[myShare], rfl, by simpa using hlt⟩
  | reveal myShare =>
      rw [hp] at hbelow
      obtain ⟨total, hsum, hlt⟩ := sumShares_range hpos hle data myShare hbelow hdata
      refine ⟨[total], ?_, by simpa using hlt⟩
      rw [additiveFinalizePhase, hsum]
      rfl

/-! ### Elements of any size -/

/-- No addition of the loop over the received elements leaves the range of `u64`. -/
def SumsInRange (M myShare : ℕ) (data : List ℕ) : Prop :=
  ∀ before received after, data = before ++ received :: after →
    (myShare + before.sum) % M + received < 2 ^ 64

theorem sumsInRange_cons {total : ℕ} (ht : total < M) (v : ℕ) (data : List ℕ) :
    SumsInRange M total (v :: data) ↔ total + v < 2 ^ 64 ∧ SumsInRange M ((total + v) % M) data := by
  constructor
  · intro h
    constructor
    · have hv := h [] v data rfl
      rwa [List.sum_nil, Nat.add_zero, Nat.mod_eq_of_lt ht] at hv
    · intro before received after hd
      have hr := h (v :: before) received after (by rw [hd, List.cons_append])
      rwa [List.sum_cons, ← Nat.add_assoc, ← Nat.mod_add_mod (total + v)] at hr
  · rintro ⟨hv, h⟩ before received after hd
    cases before with
    | nil =>
        obtain ⟨rfl, rfl⟩ := List.cons.inj hd
        rwa [List.sum_nil, Nat.add_zero, Nat.mod_eq_of_lt ht]
    | cons b before =>
        obtain ⟨rfl, htail⟩ := List.cons.inj hd
        have hr := h before received after htail
        rwa [Nat.mod_add_mod, Nat.add_assoc, ← List.sum_cons] at hr

/-- The loop over elements of any size: the sum modulo `M`, or a panic. -/
theorem sumShares_cases (hpos : 0 < M) : ∀ (data : List ℕ) (total : ℕ), total < M →
    SumsInRange M total data ∧ sumShares M total data = .ok ((total + data.sum) % M) ∨
      ¬ SumsInRange M total data ∧ sumShares M total data = .panic
  | [], total, ht => by
      left
      constructor
      · intro before received after hd
        exact absurd hd.symm (by simp)
      · rw [sumShares, List.sum_nil, Nat.add_zero, Nat.mod_eq_of_lt ht]
  | v :: data, total, ht => by
      rw [sumsInRange_cons ht, sumShares]
      by_cases hv : total + v < 2 ^ 64
      · rw [u64Add_eq hv, Outcome.ok_bind, List.sum_cons, ← Nat.add_assoc, ← Nat.mod_add_mod (total + v)]
        obtain ⟨hs, h⟩ | ⟨hs, h⟩ := sumShares_cases hpos data ((total + v) % M) (Nat.mod_lt _ hpos)
        · exact .inl ⟨⟨hv, hs⟩, h⟩
        · exact .inr ⟨fun h' => hs h'.2, h⟩
      · rw [u64Add_overflow (by omega)]
        exact .inr ⟨fun h' => hv h'.1, rfl⟩

theorem sumShares_reduced (hpos : 0 < M) (hle : M ≤ 2 ^ 63) (data : List ℕ) {total : ℕ} (ht : total < M) :
    sumShares M total (data.map fun v => v % M) = .ok ((total + data.sum) % M) := by
  obtain ⟨-, h⟩ | ⟨hs, -⟩ := sumShares_cases hpos (data.map fun v => v % M) total ht
  · rw [h, Nat.add_mod, ← List.sum_nat_mod, ← Nat.add_mod]
  · apply absurd _ hs
    intro before received after hd
    have hmem : received ∈ data.map fun v => v % M := by rw [hd]; simp
    obtain ⟨v, -, rfl⟩ := List.mem_map.mp hmem
    have h1 := Nat.mod_lt (total + before.sum) hpos
    have h2 := Nat.mod_lt v hpos
    omega

/-- Opening returns the sum of the own share and the received elements modulo `M`, and treats an
element as its remainder. -/
def OpensModularSum (M myShare : ℕ) (data : List ℕ) : Prop :=
  additiveFinalizePhase M (.reveal myShare) data = .ok [(myShare + data.sum) % M] ∧
    additiveFinalizePhase M (.reveal myShare) data =
      additiveFinalizePhase M (.reveal myShare) (data.map fun v => v % M)

/-- **The elements that open correctly**, among all that peers may send. -/
theorem opensModularSum_iff (hpos : 0 < M) (hle : M ≤ 2 ^ 63) {myShare : ℕ} (hshare : myShare < M)
    (data : List ℕ) :
    OpensModularSum M myShare data ↔ SumsInRange M myShare data := by
  unfold OpensModularSum
  simp only [additiveFinalizePhase, sumShares_reduced hpos hle data hshare]
  obtain ⟨hs, h⟩ | ⟨hs, h⟩ := sumShares_cases hpos data myShare hshare
  · simp only [h, hs, Outcome.ok_bind, and_self]
  · simp only [h, hs, Outcome.panic_bind, reduceCtorEq, false_and]

theorem opensModularSum_hundred : OpensModularSum 100 1 [250] ↔ SumsInRange 100 1 [250] := by
  exact opensModularSum_iff (by decide) (by decide) (by decide) [250]

/-- One peer sends the largest `u64`. -/
theorem opensModularSum_largest : (∀ v ∈ [2 ^ 64 - 1], v < 2 ^ 64) ∧
    additiveFinalizePhase 100 (.reveal 1) [2 ^ 64 - 1] = .panic ∧ ¬ OpensModularSum 100 1 [2 ^ 64 - 1] := by
  have hpanic : additiveFinalizePhase 100 (.reveal 1) [2 ^ 64 - 1] = .panic := by decide
  refine ⟨by decide, hpanic, fun h => ?_⟩
  rw [OpensModularSum, hpanic] at h
  exact absurd h.1 (by simp)

/-! ### The moduli without an overflow -/

theorem add_overflow (hgt : 2 ^ 63 < M) (context : AdditiveContext) (left right output : WireId) :
    additiveNetworkPhase M (.add left right output) [M - 1, M - 1] context = (.panic, context) := by
  have hadd : u64Add (M - 1) (M - 1) = .panic := u64Add_overflow (by omega)
  simp only [additiveNetworkPhase, hadd, Outcome.panic_bind, Act.ret_apply]

theorem not_noOverflow (hgt : 2 ^ 63 < M) : ¬ NoOverflow M := by
  intro h
  have hins : ∀ v ∈ [M - 1, M - 1], v < M := by
    intro v hv
    have : v = M - 1 := by simpa using hv
    omega
  obtain ⟨out, c', hout, -⟩ := h (.add ⟨0⟩ ⟨1⟩ ⟨2⟩) [M - 1, M - 1] ⟨0, 1, .empty, fun _ => 0⟩
    ⟨rfl, hins, fun _ => show 0 < M by omega⟩
  rw [add_overflow hgt] at hout
  exact absurd (congrArg Prod.fst hout) (by simp)

/-- **The moduli without an overflow**, among those that the scheme accepts. -/
theorem noOverflow_iff {ops : List AdditiveOperation}
    (hs : CircuitScheme.isCircuitSound (⟨⟩ : AdditiveScheme M) ops = some true) :
    NoOverflow M ↔ M ≤ 2 ^ 63 := by
  have hpos : 0 < M := by
    apply Nat.pos_of_ne_zero
    rintro rfl
    exact absurd hs (by simp [CircuitScheme.isCircuitSound, additiveSound])
  constructor
  · intro h
    by_contra hgt
    exact not_noOverflow (by omega) h
  · intro hle op ins context hcall
    obtain ⟨out, c', hout, hrange, -⟩ := additiveNetworkPhase_range hpos hle hcall
    refine ⟨out, c', hout, fun data hlen hdata => ?_⟩
    obtain ⟨ws, hws, -⟩ := additiveFinalizePhase_range hpos hle hrange hlen hdata
    exact ⟨ws, hws⟩

theorem noOverflow_hundred : CircuitScheme.isCircuitSound (⟨⟩ : AdditiveScheme 100) [.genRandom ⟨0⟩] = some true ∧
    (NoOverflow 100 ↔ 100 ≤ 2 ^ 63) := by
  have hsound : CircuitScheme.isCircuitSound (⟨⟩ : AdditiveScheme 100) [.genRandom ⟨0⟩] = some true := by decide
  exact ⟨hsound, noOverflow_iff hsound⟩

/-! ### A party alone -/

/-- The sum of two random values. -/
def randomSum : List AdditiveOperation := [.genRandom ⟨0⟩, .genRandom ⟨1⟩, .add ⟨0⟩ ⟨1⟩ ⟨2⟩]

/-- The plan of `randomSum` under the first modulus that is too large. -/
def randomSumCircuit : MpcCircuit (AdditiveScheme (2 ^ 63 + 1)) AdditiveOperation :=
  ⟨⟨⟩, [⟨randomSum, []⟩], []⟩

/-- A party alone that ran its offline rounds, where each draw was the largest there is. -/
def randomSumOffline : Outcome Fault (ℕ × ℕ) ×
    ExecutionContext (AdditiveScheme (2 ^ 63 + 1)) AdditiveOperation ℕ ℕ AdditiveContext AdditivePending
      ExecutionContext.Solo :=
  ExecutionContext.doOffline
    (ExecutionContext.handshake (fun _ => .ok []) (fun _ => 2 ^ 63) (.new randomSumCircuit ⟨⟩)).2

theorem randomSum_overflow : MpcCircuit.new (⟨⟩ : AdditiveScheme (2 ^ 63 + 1)) randomSum = .ok randomSumCircuit ∧
    randomSumOffline.1 = .panic ∧ randomSumOffline.2.wireContents.get ⟨0⟩ = some (2 ^ 63) ∧
    randomSumOffline.2.wireContents.get ⟨1⟩ = some (2 ^ 63) ∧ ¬ NoOverflow (2 ^ 63 + 1) := by
  exact ⟨by decide +kernel, by decide +kernel, by decide +kernel, by decide +kernel, not_noOverflow (by decide)⟩

end MpcCore
