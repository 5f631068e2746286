import MpcCore.ClusterShares

/-! # What an additive computation computes

* `Cluster.correctness`: in every finished net the shares of a wire without a `Reveal` above it sum to
  its plaintext, and a `Reveal` of such a wire yields the plaintext at all parties.
* `Cluster.reopened_iff`: all openings yield the plaintexts in all finished nets exactly when, for
  every opening and every source, the paths from the source count the same with a factor `n` for each
  opening on the path as without, modulo `M`. -/

namespace MpcCore

open Operation

variable {M n : ℕ}

/-- An operation at or above the producer of a wire is a `Reveal`. -/
inductive RevealAbove (ops : List AdditiveOperation) : WireId → Prop where
  | reveal {inp output : WireId} (h : .reveal inp output ∈ ops) : RevealAbove ops output
  | through {op : AdditiveOperation} {w : WireId} (h : op ∈ ops) (hw : w ∈ inputs op) (hr : RevealAbove ops w) :
      RevealAbove ops op.output

theorem RevealAbove.mono {ops ops' : List AdditiveOperation} (hsub : ∀ op ∈ ops, op ∈ ops') {w : WireId}
    (h : RevealAbove ops w) : RevealAbove ops' w := by
  induction h with
  | reveal h => exact .reveal (hsub _ h)
  | through h hw _ ih => exact .through (hsub _ h) hw ih

theorem sum_shareTable_of_not_revealAbove {x : Fin n → WireId → ℕ} {draws : Fin n → Draws}
    {ops : List AdditiveOperation} (h : OrderedOperations ops) (hM : 0 < M) (hown : ∀ op ∈ ops, op.Owned n)
    {w : WireId} (hw : w ∈ ops.map AdditiveOperation.output) (hr : ¬RevealAbove ops w) :
    ((∑ p, shareTable M x draws ops w p : ℕ) : ZMod M) = plaintext M x draws ops w := by
  refine h.induction (motive := fun w => ¬RevealAbove ops w →
    ((∑ p, shareTable M x draws ops w p : ℕ) : ZMod M) = plaintext M x draws ops w)
    (fun done op rest he hreads hr => ?_) w hw hr
  have hmem : op ∈ ops := by simp [he]
  have hreads : ∀ v ∈ inputs op, ((∑ p, shareTable M x draws ops v p : ℕ) : ZMod M) = plaintext M x draws ops v :=
    fun v hv => hreads v hv fun hv' => hr (.through hmem hv hv')
  rw [shareTable_eq h he, plaintext_eq h he, sum_shareOf hM (hown op hmem) _ (plaintext M x draws ops), plainOf_eq]
  cases op with
  | input partyId output => rfl
  | genRandom output => rfl
  | add left right output =>
      simp only [AdditiveOperation.linear]
      rw [hreads left (by simp [inputs]), hreads right (by simp [inputs])]
  | reveal inp output => exact absurd (.reveal hmem) hr

namespace Cluster

variable {circuit : AdditiveCircuit M} {operations : List AdditiveOperation}

/-- What a party at rest holds of a wire. -/
def wireAt (net : AdditiveNet M n) (p : Fin n) (w : WireId) : Option ℕ :=
  match net.proc p with
  | .idle party => party.context.wireContents.get w
  | _ => none

/-- The plaintexts of the wires, for the inputs the parties supply. -/
abbrev plaintexts (circuit : AdditiveCircuit M) (inputs : Fin n → List (WireId × ℕ)) (draws : Fin n → Draws) :
    WireId → ℕ :=
  plaintext M (fun p => suppliedValue (inputs p)) draws circuit.operations

theorem wireAt_finished {size : Message ℕ → ℕ} {inputs : Fin n → List (WireId × ℕ)} {draws : Fin n → Draws}
    (hx : Executable n circuit) (hr : Regular M draws circuit.operations) {net : AdditiveNet M n}
    (hreach : (program inputs).Reachable (RoundProgram.initial (additiveParties circuit size draws)) net) {p : Fin n}
    (hf : Finished net p) {w : WireId} (hw : w ∈ circuit.operations.map AdditiveOperation.output) :
    wireAt net p w = some (shares circuit inputs draws w p) := by
  obtain ⟨party, hp, hvalues⟩ := finished_values hx hr hreach hf
  obtain ⟨context, -, hfollows⟩ := hvalues.follows
  rw [wireAt, hp]
  simp only
  rw [hfollows.wires, doneAt_length, if_pos hw]

theorem read_mem (hx : Executable n circuit) {op : AdditiveOperation}
    (hop : op ∈ circuit.operations) {w : WireId} (hw : w ∈ inputs op) :
    w ∈ circuit.operations.map AdditiveOperation.output := by
  obtain ⟨done, rest, he⟩ := List.append_of_mem hop
  rw [he, List.map_append]
  exact List.mem_append_left _ (hx.ordered.ordered done op rest he w hw)

/-- What a `Reveal` yields at the parties of a finished net. -/
theorem reveal_finished {size : Message ℕ → ℕ} {inputs : Fin n → List (WireId × ℕ)} {draws : Fin n → Draws}
    (hx : Executable n circuit) (hr : Regular M draws circuit.operations) {net : AdditiveNet M n}
    (hreach : (program inputs).Reachable (RoundProgram.initial (additiveParties circuit size draws)) net) {p : Fin n}
    (hf : Finished net p) {inp output : WireId} (hop : .reveal inp output ∈ circuit.operations) :
    wireAt net p output = some ((∑ q, shares circuit inputs draws inp q) % M) ∧
      plaintexts circuit inputs draws output = plaintexts circuit inputs draws inp := by
  obtain ⟨done, rest, he⟩ := List.append_of_mem hop
  have hval : shares circuit inputs draws output p = (∑ q, shares circuit inputs draws inp q) % M :=
    congrFun (shareTable_eq hx.ordered he) p
  refine ⟨?_, plaintext_eq hx.ordered he⟩
  rw [← hval]
  exact wireAt_finished hx hr hreach hf (List.mem_map.mpr ⟨_, hop, rfl⟩)

/-- The shares of a wire without a `Reveal` above it sum to its plaintext. -/
theorem sum_shares_modEq {inputs : Fin n → List (WireId × ℕ)} {draws : Fin n → Draws} (hx : Executable n circuit)
    (hM : 0 < M) {w : WireId} (hw : w ∈ circuit.operations.map AdditiveOperation.output)
    (hno : ¬RevealAbove circuit.operations w) :
    ∑ p, shares circuit inputs draws w p ≡ plaintexts circuit inputs draws w [MOD M] :=
  (ZMod.natCast_eq_natCast_iff _ _ _).mp (sum_shareTable_of_not_revealAbove hx.ordered hM hx.owned hw hno)

theorem reveal_plaintext {size : Message ℕ → ℕ} {inputs : Fin n → List (WireId × ℕ)} {draws : Fin n → Draws}
    (hx : Executable n circuit) (hr : Regular M draws circuit.operations) (hM : 0 < M) {net : AdditiveNet M n}
    (hreach : (program inputs).Reachable (RoundProgram.initial (additiveParties circuit size draws)) net) {p : Fin n}
    (hf : Finished net p) {inp output : WireId} (hop : .reveal inp output ∈ circuit.operations)
    (hno : ¬RevealAbove circuit.operations inp) :
    wireAt net p output = some (plaintexts circuit inputs draws inp) := by
  have hinp := read_mem hx hop (w := inp) (by simp [Operation.inputs])
  have hmod : (∑ q, shares circuit inputs draws inp q) % M = plaintexts circuit inputs draws inp % M :=
    sum_shares_modEq hx hM hinp hno
  rw [(reveal_finished hx hr hreach hf hop).1, hmod, Nat.mod_eq_of_lt (plaintext_lt hx.ordered hM hinp)]

/-- **End-to-end correctness.**  In every finished net of an accepted plan, the parties' values of a
wire without a `Reveal` above it sum to its plaintext modulo `M`, and a `Reveal` of such a wire yields
its plaintext at every party. -/
theorem correctness (hpos : 1 ≤ M) (hle : M ≤ 2 ^ 63) (hnew : MpcCircuit.new ⟨⟩ operations = .ok circuit)
    (hstored : circuit.StoresBeforeUse) (hown : ∀ op ∈ operations, op.Owned n) (size : Message ℕ → ℕ)
    (inputs : Fin n → List (WireId × ℕ)) (draws : Fin n → Draws) (hdraws : ∀ p k, draws p k < M)
    (net : AdditiveNet M n)
    (hreach : (program inputs).Reachable (RoundProgram.initial (additiveParties circuit size draws)) net)
    (hfinished : ∀ p, Finished net p) :
    (∀ w ∈ producedWires operations, ¬RevealAbove operations w → ∃ share : Fin n → ℕ,
      (∀ p, wireAt net p w = some (share p)) ∧ ∑ p, share p ≡ plaintexts circuit inputs draws w [MOD M]) ∧
    ∀ inp output, .reveal inp output ∈ operations → ¬RevealAbove operations inp →
      ∀ p, wireAt net p output = some (plaintexts circuit inputs draws inp) := by
  have hx := executable_of_new hnew hstored hown
  have hr := hx.regular hpos hle hdraws
  have hperm := MpcCircuit.perm_of_new hnew
  refine ⟨fun w hw hno => ?_, fun inp output hop hno p => ?_⟩
  · have hw : w ∈ circuit.operations.map AdditiveOperation.output := by
      rw [← producedWires_eq]
      exact (producedWires_perm hperm).mem_iff.mpr hw
    have hno : ¬RevealAbove circuit.operations w := fun h => hno (h.mono fun op hop => hperm.mem_iff.mp hop)
    exact ⟨shares circuit inputs draws w, fun p => wireAt_finished hx hr hreach (hfinished p) hw,
      sum_shares_modEq hx hpos hw hno⟩
  · have hno : ¬RevealAbove circuit.operations inp := fun h => hno (h.mono fun op hop => hperm.mem_iff.mp hop)
    exact reveal_plaintext hx hr hpos hreach (hfinished p) (hperm.mem_iff.mpr hop) hno

/-- The operations of `openedSum`. -/
def openedSumOperations : List AdditiveOperation :=
  [.input 0 ⟨0⟩, .input 1 ⟨1⟩, .add ⟨0⟩ ⟨1⟩ ⟨2⟩, .reveal ⟨2⟩ ⟨3⟩]

theorem new_openedSum : MpcCircuit.new ⟨⟩ openedSumOperations = .ok openedSum := by decide

theorem not_revealAbove_openedSum : ¬RevealAbove openedSumOperations ⟨2⟩ := by
  have hgen : ∀ w, RevealAbove openedSumOperations w → w = ⟨3⟩ := by
    intro w h
    induction h with
    | reveal h =>
        simp only [openedSumOperations, List.mem_cons, List.not_mem_nil, or_false, reduceCtorEq, false_or] at h
        exact (AdditiveOperation.reveal.inj h).2
    | @through op w h hw _ ih =>
        subst ih
        simp only [openedSumOperations, List.mem_cons, List.not_mem_nil, or_false] at h
        obtain rfl | rfl | rfl | rfl := h
        all_goals exact absurd hw (by decide)
  exact fun h => absurd (hgen _ h) (by decide)

theorem correctness_openedSum : ∃ net, (program openedSumInputs).run openedSumStart openedSumEvents = some net ∧
    ∀ p, wireAt net p ⟨3⟩ = some 65 := by
  have hsome : ((program openedSumInputs).run openedSumStart openedSumEvents).isSome = true := by decide +kernel
  have hfin : ∀ net ∈ (program openedSumInputs).run openedSumStart openedSumEvents, ∀ p, Finished net p := by
    decide +kernel
  obtain ⟨net, hnet⟩ := Option.isSome_iff_exists.mp hsome
  have hcorrect := correctness (by decide) (by decide) new_openedSum (by decide) (by decide) (fun _ => 1)
    openedSumInputs openedSumDraws (fun p k => Nat.mod_lt _ (by decide)) net (RoundProgram.Reachable.refl.run hnet)
    (hfin net hnet)
  have hplain : plaintexts openedSum openedSumInputs openedSumDraws ⟨2⟩ = 65 := by decide
  refine ⟨net, hnet, fun p => ?_⟩
  rw [← hplain]
  exact hcorrect.2 ⟨2⟩ ⟨3⟩ (by decide) not_revealAbove_openedSum p

/-! ### Opened wires used again -/

/-- One for the input wire `source`, zero for the other input wires of a party. -/
def unitInputs (circuit : AdditiveCircuit M) (source : WireId) (p : Fin n) : List (WireId × ℕ) :=
  (inputWires circuit p).map fun w => (w, if w = source then 1 else 0)

/-- One from party 0 for the common random value `source`, zero for everything else. -/
def unitDraw (source : WireId) (p : Fin n) : AdditiveOperation → List ℕ
  | .genRandom output => [if (p : ℕ) = 0 ∧ output = source then 1 else 0]
  | op => List.replicate (op.drawCount n p) 0

/-- The draws of all operations. -/
def unitDraws (circuit : AdditiveCircuit M) (source : WireId) : Fin n → Draws :=
  tapeOf (unitDraw source) circuit.operations

theorem length_unitDraw (source : WireId) (p : Fin n) (op : AdditiveOperation) :
    (unitDraw source p op).length = op.drawCount n p := by
  cases op <;> simp [unitDraw, AdditiveOperation.drawCount]

theorem unitDraws_le (circuit : AdditiveCircuit M) (source : WireId) (p : Fin n) (k : ℕ) :
    unitDraws circuit source p k ≤ 1 := by
  have hmem : ∀ a ∈ circuit.operations.flatMap (unitDraw source p), a ≤ 1 := by
    intro a ha
    obtain ⟨op, -, ha⟩ := List.mem_flatMap.mp ha
    unfold unitDraw at ha
    split at ha
    · rw [List.mem_singleton.mp ha]
      split <;> omega
    · rw [List.eq_of_mem_replicate ha]
      omega
  unfold unitDraws tapeOf
  cases hget : (circuit.operations.flatMap (unitDraw source p))[k]? with
  | none => simp
  | some a => simpa using hmem a (List.mem_of_getElem? hget)

theorem mem_inputWires (hx : Executable n circuit) {partyId : ℕ} {output : WireId}
    (hop : .input partyId output ∈ circuit.operations) : output ∈ inputWires circuit partyId := by
  have hnoff : .input partyId output ∉ circuit.offlineOperations := fun hmem =>
    absurd (hx.offline _ hmem) (by simp [isInput, getInputPartyId])
  obtain ⟨round, hround, hmem⟩ := List.mem_flatMap.mp ((List.mem_append.mp hop).resolve_left hnoff)
  have hnlocal : .input partyId output ∉ round.localOperations := fun hmem =>
    absurd (hx.locals round (List.mem_append_right _ hround) _ hmem) (by simp [additiveLocal])
  refine List.mem_map.mpr ⟨.input partyId output,
    List.mem_filter.mpr ⟨List.mem_flatMap.mpr ⟨round, hround, ?_⟩, ?_⟩, rfl⟩
  · exact (List.mem_append.mp hmem).resolve_left hnlocal
  · simp [getInputPartyId]

theorem nodup_inputWires (hx : Executable n circuit) (partyId : ℕ) : (inputWires circuit partyId).Nodup := by
  have hsub : (circuit.onlineRounds.flatMap Round.networkOperations).Sublist circuit.operations := by
    refine List.Sublist.trans ?_ (List.sublist_append_right _ _)
    exact List.Sublist.flatMap_right _ fun round _ => List.sublist_append_right _ _
  exact ((List.filter_sublist.trans hsub).map _).nodup hx.ordered.nodup

theorem accepts_values (hx : Executable n circuit) (p : Fin n) (value : WireId → ℕ) :
    Accepts circuit p ((inputWires circuit p).map fun w => (w, value w)) ∧
      ∀ w ∈ inputWires circuit p, suppliedValue ((inputWires circuit p).map fun w => (w, value w)) w = value w := by
  refine ⟨accepts_of_perm (nodup_inputWires hx p) (by simp [Function.comp_def]), fun w hw => ?_⟩
  generalize inputWires circuit p = ws at hw
  induction ws with
  | nil => exact absurd hw (by simp)
  | cons w' ws ih =>
      by_cases hww : w' = w
      · simp [suppliedValue, hww]
      · have hw : w ∈ ws := (List.mem_cons.mp hw).resolve_left fun h => hww h.symm
        have := ih hw
        rw [suppliedValue] at this ⊢
        rw [List.map_cons, List.find?_cons_of_neg (by simpa using hww), this]

/-- With the unit inputs and draws, the plaintext of a source is one at `source` only. -/
theorem plaintexts_unit (hn : 0 < n) (hM : 1 < M) (hx : Executable n circuit) (source : WireId) {s : WireId}
    (hs : s ∈ sourceWires circuit.operations) :
    plaintexts circuit (unitInputs circuit source) (unitDraws circuit source : Fin n → Draws) s =
      if s = source then 1 else 0 := by
  obtain ⟨op, hop, rfl⟩ := List.mem_map.mp (List.mem_toFinset.mp hs)
  obtain ⟨hop, hsource⟩ := List.mem_filter.mp hop
  obtain ⟨done, rest, he⟩ := List.append_of_mem hop
  rw [plaintexts, plaintext_eq hx.ordered he]
  have hlt : (if op.output = source then 1 else 0) < M := by split <;> omega
  cases op with
  | input partyId output =>
      have hp : partyId < n := hx.owned _ hop partyId rfl
      have hsupplied := (accepts_values hx (⟨partyId, hp⟩ : Fin n) fun w => if w = source then 1 else 0).2 output
        (mem_inputWires hx hop)
      simp only [plainOf, valueAt, hp, dif_pos]
      rw [unitInputs, hsupplied]
      exact Nat.mod_eq_of_lt hlt
  | genRandom output =>
      have hdraw : ∀ p : Fin n, unitDraws circuit source p (drawn n p done) =
          if (p : ℕ) = 0 ∧ output = source then 1 else 0 := fun p => by
        exact tapeOf_eq (j := 0) (fun o _ => length_unitDraw source p o) he (by simp [AdditiveOperation.drawCount])
      have hsum : ∑ p : Fin n, unitDraws circuit source p (drawn n p done) = if output = source then 1 else 0 := by
        rw [Finset.sum_congr rfl fun p _ => hdraw p, Finset.sum_eq_single (⟨0, hn⟩ : Fin n)]
        · simp
        · intro p _ hp
          rw [if_neg]
          exact fun h => hp (Fin.ext h.1)
        · intro h
          exact absurd (Finset.mem_univ _) h
      rw [plainOf, hsum]
      exact Nat.mod_eq_of_lt hlt
  | add left right output => exact absurd hsource (by simp [AdditiveOperation.isSource])
  | reveal inp output => exact absurd hsource (by simp [AdditiveOperation.isSource])

/-- With the unit inputs and draws, a linear form of the sources is its coefficient of `source`. -/
theorem sum_plaintexts_unit (hn : 0 < n) (hM : 1 < M) (hx : Executable n circuit) {source : WireId}
    (hsource : source ∈ sourceWires circuit.operations) (c : WireId → ZMod M) :
    (∑ s ∈ sourceWires circuit.operations, c s *
      (plaintexts circuit (unitInputs circuit source) (unitDraws circuit source : Fin n → Draws) s : ℕ)) = c source := by
  rw [Finset.sum_eq_single source]
  · rw [plaintexts_unit hn hM hx source hsource]
    simp
  · intro s hs hne
    rw [plaintexts_unit hn hM hx source hs, if_neg hne]
    simp
  · intro h
    exact absurd hsource h

/-- **Opened wires used again.**  In all finished nets every `Reveal` yields the plaintext, with a
`Reveal` as the identity, exactly when for each `Reveal` and each source the paths from the source to
what is opened count the same with a factor `n` for each opening on the path as without. -/
theorem reopened_iff (hn : 1 ≤ n) (hpos : 1 ≤ M) (hle : M ≤ 2 ^ 63)
    (hnew : MpcCircuit.new ⟨⟩ operations = .ok circuit) (hstored : circuit.StoresBeforeUse)
    (hown : ∀ op ∈ operations, op.Owned n) :
    (∀ (size : Message ℕ → ℕ) (inputs : Fin n → List (WireId × ℕ)) (draws : Fin n → Draws) (net : AdditiveNet M n),
      (∀ p k, draws p k < M) →
      (program inputs).Reachable (RoundProgram.initial (additiveParties circuit size draws)) net →
      (∀ p, Finished net p) → ∀ inp output, .reveal inp output ∈ operations →
        ∀ p, wireAt net p output = some (plaintexts circuit inputs draws output)) ↔
    ∀ inp output, .reveal inp output ∈ operations → ∀ source ∈ sourceWires operations,
      coefficient n circuit.operations inp source ≡ coefficient 1 circuit.operations inp source [MOD M] := by
  have hx := executable_of_new hnew hstored hown
  have hperm := MpcCircuit.perm_of_new hnew
  have hsources : sourceWires circuit.operations = sourceWires operations :=
    List.toFinset_eq_of_perm _ _ ((hperm.filter _).map _)
  constructor
  · intro hcorrect inp output hop source hsource
    obtain hM | hM := Nat.lt_or_ge 1 M
    swap
    · obtain rfl : M = 1 := by omega
      exact Nat.modEq_one
    have hdraws : ∀ (p : Fin n) k, unitDraws circuit source p k < M := fun p k =>
      lt_of_le_of_lt (unitDraws_le circuit source p k) hM
    have hr := hx.regular hpos hle hdraws
    have hstart : (program (unitInputs circuit source)).Reachable
        (RoundProgram.initial (additiveParties circuit (fun _ => 0) (unitDraws circuit source : Fin n → Draws)))
        (RoundProgram.initial (additiveParties circuit (fun _ => 0) (unitDraws circuit source))) := .refl
    obtain ⟨net, hreach, hfin⟩ := exists_finished hx hr (fun p => (accepts_values hx p _).1) (fun _ => 0) hstart
    have hop' := hperm.mem_iff.mpr hop
    have hinp := read_mem hx hop' (w := inp) (by simp [Operation.inputs])
    obtain ⟨hwire, hplain⟩ := reveal_finished hx hr hreach (hfin ⟨0, hn⟩) hop'
    have heq := hcorrect _ _ _ net hdraws hreach hfin inp output hop ⟨0, hn⟩
    rw [hwire, hplain, Option.some.injEq] at heq
    -- both sides are the coefficients of the one source that is not zero
    have hleft : ((∑ q : Fin n, shares circuit (unitInputs circuit source) (unitDraws circuit source) inp q : ℕ) :
        ZMod M) = _ := sum_shareTable hx.ordered hpos hx.owned hinp
    have hright : (plaintexts circuit (unitInputs circuit source) (unitDraws circuit source : Fin n → Draws) inp :
        ZMod M) = _ := plaintext_eq_sum hx.ordered hinp
    rw [sum_plaintexts_unit hn hM hx (hsources ▸ hsource)] at hleft hright
    rw [← ZMod.natCast_eq_natCast_iff, ← hleft, ← hright, ← ZMod.natCast_mod]
    exact congrArg _ heq
  · intro hcoefficient size inputs draws net hdraws hreach hfin inp output hop p
    have hr := hx.regular hpos hle hdraws
    have hop' := hperm.mem_iff.mpr hop
    have hinp := read_mem hx hop' (w := inp) (by simp [Operation.inputs])
    obtain ⟨hwire, hplain⟩ := reveal_finished hx hr hreach (hfin p) hop'
    have hsum : ((∑ q, shares circuit inputs draws inp q : ℕ) : ZMod M) = plaintexts circuit inputs draws inp := by
      rw [sum_shareTable hx.ordered hpos hx.owned hinp, plaintext_eq_sum hx.ordered hinp]
      refine Finset.sum_congr rfl fun s hs => ?_
      rw [(ZMod.natCast_eq_natCast_iff _ _ _).mpr (hcoefficient inp output hop s (hsources ▸ hs))]
    have hmod : (∑ q, shares circuit inputs draws inp q) % M = plaintexts circuit inputs draws inp % M :=
      (ZMod.natCast_eq_natCast_iff _ _ _).mp hsum
    rw [hwire, hplain, hmod, Nat.mod_eq_of_lt (plaintext_lt hx.ordered hpos hinp)]

/-- Party 0's input is opened, added to party 1's input, and the sum is opened. -/
def reopenedOperations : List AdditiveOperation :=
  [.input 0 ⟨0⟩, .input 1 ⟨1⟩, .reveal ⟨0⟩ ⟨2⟩, .add ⟨2⟩ ⟨1⟩ ⟨3⟩, .reveal ⟨3⟩ ⟨4⟩]

/-- Its plan. -/
def reopened : AdditiveCircuit 100 :=
  ⟨⟨⟩, [⟨[], []⟩], [⟨[], [.input 0 ⟨0⟩, .input 1 ⟨1⟩]⟩, ⟨[], [.reveal ⟨0⟩ ⟨2⟩]⟩,
    ⟨[.add ⟨2⟩ ⟨1⟩ ⟨3⟩], [.reveal ⟨3⟩ ⟨4⟩]⟩]⟩

theorem new_reopened : MpcCircuit.new ⟨⟩ reopenedOperations = .ok reopened := by decide

/-- Both parties in turns. -/
def reopenedEvents : List (RoundProgram.Event (Fin 2)) :=
  let parties := List.finRange 2
  let tasks : List (RoundProgram.Event (Fin 2)) := parties.flatMap fun p => [.start p, .finish p]
  let exchange : List (RoundProgram.Event (Fin 2)) :=
    (parties.flatMap fun p => [.start p, .send p p.rev]) ++ parties.flatMap fun p => [.recv p p.rev, .finish p]
  (List.replicate 5 tasks).flatten ++ exchange ++ exchange ++ exchange ++ tasks

/-- With 30 from party 0 and 35 from party 1 the sum is opened as 95: the public 30 is added twice. -/
theorem reopened_twice : reopened.StoresBeforeUse ∧ (∀ op ∈ reopenedOperations, op.Owned 2) ∧
    MpcCircuit.new ⟨⟩ reopenedOperations = .ok reopened ∧
    plaintexts reopened openedSumInputs openedSumDraws ⟨4⟩ = 65 ∧
    ∃ net, (program openedSumInputs).Reachable
        (RoundProgram.initial (additiveParties reopened (fun _ => 1) openedSumDraws)) net ∧
      (∀ p, Finished net p) ∧ ∀ p, wireAt net p ⟨4⟩ = some 95 := by
  refine ⟨by decide, by decide, new_reopened, by decide, ?_⟩
  have hsome : ((program openedSumInputs).run
    (RoundProgram.initial (additiveParties reopened (fun _ => 1) openedSumDraws)) reopenedEvents).isSome = true := by
    decide +kernel
  have hend : ∀ net ∈ (program openedSumInputs).run
      (RoundProgram.initial (additiveParties reopened (fun _ => 1) openedSumDraws)) reopenedEvents,
      ∀ p, Finished net p ∧ wireAt net p ⟨4⟩ = some 95 := by decide +kernel
  obtain ⟨net, hnet⟩ := Option.isSome_iff_exists.mp hsome
  exact ⟨net, RoundProgram.Reachable.refl.run hnet, fun p => (hend net hnet p).1, fun p => (hend net hnet p).2⟩

theorem reopened_iff_reopened :
    ¬∀ (size : Message ℕ → ℕ) (inputs : Fin 2 → List (WireId × ℕ)) (draws : Fin 2 → Draws) (net : AdditiveNet 100 2),
      (∀ p k, draws p k < 100) →
      (program inputs).Reachable (RoundProgram.initial (additiveParties reopened size draws)) net →
      (∀ p, Finished net p) → ∀ inp output, .reveal inp output ∈ reopenedOperations →
        ∀ p, wireAt net p output = some (plaintexts reopened inputs draws output) := by
  intro hcorrect
  have hcoefficient :=
    (reopened_iff (by decide) (by decide) (by decide) new_reopened (by decide) (by decide)).mp hcorrect
  exact absurd (hcoefficient ⟨3⟩ ⟨4⟩ (by decide) ⟨0⟩ (by decide)) (by decide)

end Cluster

end MpcCore
