import MpcCore.CircuitAccept
import MpcCore.ExecutionLifecycle

/-! # The inputs of a party

`prepare_input` takes the wires that need an input from the network operations of the online
rounds, and counts the pairs it was given.

* `InputFault`: what is wrong with a list of pairs, the first pair that does not fit or a missing
  wire.
* `MpcCircuit.mem_inputWireIds_iff`: the wires found are the outputs of the party's inputs.
* `ExecutionContext.prepareInput_exact`: exactly one value for each of these wires is accepted, and
  every other list is reported and changes nothing. -/

namespace MpcCore

open Operation CircuitScheme

variable {S Op Wire Elem Input Ctx Pending N : Type}

/-! ### Fitting pairs -/

/-- The pairs are for distinct wires, all of them expected. -/
structure Fits (expected : WireId → Prop) (inputs : List (WireId × Input)) : Prop where
  nodup : (inputs.map Prod.fst).Nodup
  expected : ∀ w ∈ inputs.map Prod.fst, expected w

/-- The pairs are for the expected wires, one for each. -/
structure Supplies (expected : WireId → Prop) (inputs : List (WireId × Input)) : Prop where
  nodup : (inputs.map Prod.fst).Nodup
  mem_iff : ∀ w, w ∈ inputs.map Prod.fst ↔ expected w

/-- What is wrong with a list of pairs: the first that does not fit, or a wire without a pair. -/
inductive InputFault (expected : WireId → Prop) : List (WireId × Input) → ExecutionContextError → Prop where
  | invalid {before after : List (WireId × Input)} {w : WireId} {v : Input} :
      Fits expected before → ¬ expected w →
      InputFault expected (before ++ (w, v) :: after) (.invalidInputWire w)
  | duplicate {before after : List (WireId × Input)} {w : WireId} {v : Input} :
      Fits expected before → w ∈ before.map Prod.fst →
      InputFault expected (before ++ (w, v) :: after) (.duplicateInput w)
  | missing {inputs : List (WireId × Input)} {w : WireId} :
      Fits expected inputs → expected w → w ∉ inputs.map Prod.fst → InputFault expected inputs .notEnoughInputs

variable {expected : WireId → Prop}

theorem InputFault.not_supplies {inputs : List (WireId × Input)} {e : ExecutionContextError}
    (h : InputFault expected inputs e) : ¬ Supplies expected inputs := by
  intro hs
  cases h with
  | invalid _ hw => exact hw ((hs.mem_iff _).mp (by simp))
  | duplicate _ hmem =>
      have hnd := hs.nodup
      rw [List.map_append, List.nodup_append] at hnd
      exact hnd.2.2 _ hmem _ (by simp) rfl
  | missing _ hw hmem => exact hmem ((hs.mem_iff _).mpr hw)

theorem get_foldl_insert : ∀ (ws : List WireId) (m : PMap WireId Bool) (w : WireId),
    (ws.foldl (fun m w => m.insert w false) m).get w = if w ∈ ws then some false else m.get w
  | [], _, _ => rfl
  | w' :: ws, m, w => by
      rw [List.foldl_cons, get_foldl_insert ws, PMap.get_insert]
      by_cases h1 : w ∈ ws <;> by_cases h2 : w = w' <;> simp [h1, h2]

/-- The loop over the pairs, after those in `ins`: it takes all, or stops at the first that does not
fit. -/
theorem takeInputs_cases : ∀ (inputs : List (WireId × Input)) (wires : PMap WireId Bool) (ins : List (WireId × Input)),
    (∀ w, wires.get w = some true ↔ w ∈ ins.map Prod.fst) →
    Fits (fun w => wires.get w ≠ none) ins →
    (takeInputs inputs wires ins = .ok (ins ++ inputs) ∧ Fits (fun w => wires.get w ≠ none) (ins ++ inputs)) ∨
    ∃ e, takeInputs inputs wires ins = .err (.error e) ∧
      InputFault (fun w => wires.get w ≠ none) (ins ++ inputs) e
  | [], wires, ins, _, hfit => by
      rw [List.append_nil]
      exact .inl ⟨rfl, hfit⟩
  | (w, v) :: inputs, wires, ins, htrue, hfit => by
      unfold takeInputs
      split
      · next hget =>
          have hnew : w ∉ ins.map Prod.fst := fun hmem => by
            rw [(htrue w).mpr hmem] at hget
            cases hget
          -- the pair marks its wire, and the same wires stay expected
          have hsame : (fun u => (wires.insert w true).get u ≠ none) = fun u => wires.get u ≠ none := by
            funext u
            rw [PMap.get_insert]
            by_cases hu : u = w <;> simp [hu, hget]
          have htrue' : ∀ u, (wires.insert w true).get u = some true ↔ u ∈ (ins ++ [(w, v)]).map Prod.fst := by
            intro u
            rw [PMap.get_insert, List.map_append, List.mem_append, ← htrue u]
            by_cases hu : u = w <;> simp [hu]
          have hfit' : Fits (fun u => (wires.insert w true).get u ≠ none) (ins ++ [(w, v)]) := by
            rw [hsame]
            constructor
            · rw [List.map_append, List.nodup_append]
              exact ⟨hfit.nodup, by simp, fun a ha b hb => by
                obtain rfl : b = w := by simpa using hb
                rintro rfl
                exact hnew ha⟩
            · intro u hu
              rw [List.map_append, List.mem_append] at hu
              obtain hu | hu := hu
              · exact hfit.expected u hu
              · obtain rfl : u = w := by simpa using hu
                simp [hget]
          have hrest := takeInputs_cases inputs (wires.insert w true) (ins ++ [(w, v)]) htrue' hfit'
          rw [hsame, List.append_assoc, List.singleton_append] at hrest
          exact hrest
      · next hget => exact .inr ⟨_, rfl, .duplicate hfit ((htrue w).mp hget)⟩
      · next hget => exact .inr ⟨_, rfl, .invalid hfit (by simp [hget])⟩

theorem takeInputs_spec (wireIds : List WireId) (inputs : List (WireId × Input)) :
    (takeInputs inputs (wireIds.foldl (fun m w => m.insert w false) .empty) [] = .ok inputs ∧
      (¬ inputs.length < wireIds.dedup.length ∧ Supplies (· ∈ wireIds) inputs ∨
        inputs.length < wireIds.dedup.length ∧ InputFault (· ∈ wireIds) inputs .notEnoughInputs)) ∨
    ∃ e, takeInputs inputs (wireIds.foldl (fun m w => m.insert w false) .empty) [] = .err (.error e) ∧
      InputFault (· ∈ wireIds) inputs e := by
  have hexpected : (fun w => (wireIds.foldl (fun m w => m.insert w false) .empty : PMap WireId Bool).get w ≠ none) =
      (· ∈ wireIds) := by
    funext w
    rw [get_foldl_insert]
    by_cases hw : w ∈ wireIds <;> simp [hw]
  have hfalse : ∀ w, (wireIds.foldl (fun m w => m.insert w false) .empty : PMap WireId Bool).get w = some true ↔
      w ∈ ([] : List (WireId × Input)).map Prod.fst := by
    intro w
    rw [get_foldl_insert]
    by_cases hw : w ∈ wireIds <;> simp [hw]
  have hcases := takeInputs_cases inputs _ [] hfalse ⟨by simp, by simp⟩
  rw [hexpected, List.nil_append] at hcases
  obtain ⟨htake, hfit⟩ | hfault := hcases
  · refine .inl ⟨htake, ?_⟩
    have hsub : inputs.map Prod.fst ⊆ wireIds.dedup := fun w hw => List.mem_dedup.mpr (hfit.expected w hw)
    by_cases hlen : inputs.length < wireIds.dedup.length
    · -- some wire has no pair, for there are fewer pairs than wires
      obtain ⟨w, hw, hmem⟩ : ∃ w ∈ wireIds.dedup, w ∉ inputs.map Prod.fst := by
        by_contra hall
        push Not at hall
        have hle := ((wireIds.nodup_dedup).subperm hall).length_le
        rw [List.length_map] at hle
        omega
      exact .inr ⟨hlen, .missing hfit (List.mem_dedup.mp hw) hmem⟩
    · have hperm := (List.subperm_of_subset hfit.nodup hsub).perm_of_length_le (by simpa using hlen)
      exact .inl ⟨hlen, hfit.nodup, fun w => hperm.mem_iff.trans List.mem_dedup⟩
  · exact .inr hfault

/-! ### The wires of a party -/

variable [Operation Op]

/-- The wire is an output of one of the inputs of the party. -/
def IsInputWire (operations : List Op) (partyId : ℕ) (w : WireId) : Prop :=
  ∃ op ∈ operations, getInputPartyId op = some partyId ∧ w ∈ outputs op

variable {scheme : S} {operations : List Op} {circuit : MpcCircuit S Op}

/-- **The wires that the circuit reports** for a party. -/
theorem MpcCircuit.mem_inputWireIds_iff [CircuitScheme S Op] (hnew : MpcCircuit.new scheme operations = .ok circuit)
    (hone : ∀ op ∈ operations, isInput op = true → (outputs op).length = 1) (partyId : ℕ) :
    ∃ wireIds, (∀ ε, (circuit.getInputOperationWireIdsOfParty partyId : Outcome ε _) = .ok wireIds) ∧
      ∀ w, w ∈ wireIds ↔ IsInputWire operations partyId w := by
  have hperm := MpcCircuit.perm_of_new hnew
  have hkinds := MpcCircuit.classified_of_new hnew
  have hnetwork := (MpcCircuit.acceptable_of_new hnew).input_network
  have howner : ∀ {op : Op}, getInputPartyId op = some partyId → isInput op = true := by
    intro op ho
    rw [isInput, ho, Option.isSome_some]
  have hmem : ∀ op, getInputPartyId op = some partyId →
      (op ∈ circuit.onlineRounds.flatMap Round.networkOperations ↔ op ∈ operations) := by
    intro op ho
    constructor
    · intro hop
      obtain ⟨round, hround, hop⟩ := List.mem_flatMap.mp hop
      apply hperm.mem_iff.mp
      exact List.mem_append_right _ (List.mem_flatMap.mpr ⟨round, hround, List.mem_append_right _ hop⟩)
    · intro hop
      -- an input depends on itself, so it is online, and it is no local operation
      obtain ⟨i, hi⟩ := List.getElem?_of_mem hop
      have hdep : InputDependent operations i :=
        ⟨i, .refl, by rw [isInputAt_of_getElem? hi]; exact howner ho⟩
      obtain ⟨round, hround, hmem⟩ := List.mem_flatMap.mp ((MpcCircuit.mem_online_iff hnew hi).mpr hdep)
      obtain hlocal | hnet := List.mem_append.mp hmem
      · have hl := (hkinds round (List.mem_append_right _ hround)).1 op hlocal
        rw [hnetwork op hop (howner ho)] at hl
        cases hl
      · exact List.mem_flatMap.mpr ⟨round, hround, hnet⟩
  refine ⟨_, fun ε => firstOutputs_eq _ fun op hop => ?_, fun w => ?_⟩
  · obtain ⟨hop, ho⟩ := List.mem_filter.mp hop
    have ho := of_decide_eq_true ho
    exact hone op ((hmem op ho).mp hop) (howner ho)
  · rw [List.mem_flatMap]
    constructor
    · rintro ⟨op, hop, hw⟩
      obtain ⟨hop, ho⟩ := List.mem_filter.mp hop
      have ho := of_decide_eq_true ho
      exact ⟨op, (hmem op ho).mp hop, ho, hw⟩
    · rintro ⟨op, hop, ho, hw⟩
      exact ⟨op, List.mem_filter.mpr ⟨(hmem op ho).mpr hop, decide_eq_true ho⟩, hw⟩

/-! ### The call -/

namespace ExecutionContext

variable [MpcScheme S Op Wire Elem Input Ctx Pending] [Network N Elem]
  {ec : ExecutionContext S Op Wire Elem Ctx Pending N}

theorem prepareInput_of_wireIds (hstate : ec.executionState = .finishedOffline) {context : Ctx}
    (hctx : ec.schemeContext = some context) {wireIds : List WireId}
    (hwires : (ec.circuit.getInputOperationWireIdsOfParty (@Network.myId N Elem _ ec.network) : Outcome Fault _) =
      .ok wireIds) (userInputs : List (WireId × Input)) :
    (Supplies (· ∈ wireIds) userInputs ∧ prepareInput userInputs ec =
      (.ok (), { ec with
        schemeContext := some (MpcScheme.prepareUserInput ec.circuit.scheme userInputs context)
        executionState := .readyOnline })) ∨
    ∃ e, InputFault (· ∈ wireIds) userInputs e ∧ prepareInput userInputs ec = (.err (.error e), ec) := by
  have hrun : prepareInput userInputs ec = ((Act.ret
      (takeInputs userInputs (wireIds.foldl (fun m w => m.insert w false) .empty) [])).bind fun inputs =>
        if inputs.length < wireIds.dedup.length then .ret (.err (.error .notEnoughInputs))
        else (prepareUserInput inputs).bind fun _ => setState .readyOnline) ec := by
    simp only [prepareInput, Act.bind, assertState, hstate, if_true, Act.read_apply, hwires, Act.ret_apply]
  obtain ⟨htake, ⟨hlen, hs⟩ | ⟨hlen, hf⟩⟩ | ⟨e, htake, hf⟩ := takeInputs_spec wireIds userInputs
  · refine .inl ⟨hs, ?_⟩
    rw [hrun]
    simp only [htake, Act.bind, Act.ret_apply, if_neg hlen, prepareUserInput, hctx, setState, Act.modify_apply]
  · refine .inr ⟨_, hf, ?_⟩
    rw [hrun]
    simp only [htake, Act.bind, Act.ret_apply, if_pos hlen]
  · refine .inr ⟨e, hf, ?_⟩
    rw [hrun]
    simp only [htake, Act.bind, Act.ret_apply]

/-- **Exact and atomic input validation.** -/
theorem prepareInput_exact (hnew : MpcCircuit.new scheme operations = .ok circuit)
    (hone : ∀ op ∈ operations, isInput op = true → (outputs op).length = 1)
    {digest : MpcCircuit S Op → Outcome String (List UInt8)} (hreach : Reachable digest circuit ec)
    (hstate : ec.executionState = .finishedOffline) (userInputs : List (WireId × Input)) :
    ((prepareInput userInputs ec).1 = .ok () ↔
      Supplies (IsInputWire operations (@Network.myId N Elem _ ec.network)) userInputs) ∧
    (Supplies (IsInputWire operations (@Network.myId N Elem _ ec.network)) userInputs →
      ∃ context, ec.schemeContext = some context ∧ prepareInput userInputs ec =
        (.ok (), { ec with
          schemeContext := some (MpcScheme.prepareUserInput scheme userInputs context)
          executionState := .readyOnline })) ∧
    (¬ Supplies (IsInputWire operations (@Network.myId N Elem _ ec.network)) userInputs →
      ∃ e, InputFault (IsInputWire operations (@Network.myId N Elem _ ec.network)) userInputs e ∧
        prepareInput userInputs ec = (.err (.error e), ec)) := by
  have hl := lifecycle_of_reachable hreach
  obtain ⟨context, hctx⟩ := Option.isSome_iff_exists.mp (hl.initialised.mpr (by rw [hstate]; simp))
  obtain ⟨wireIds, hwires, hmem⟩ :=
    MpcCircuit.mem_inputWireIds_iff hnew hone (@Network.myId N Elem _ ec.network)
  rw [← hl.circuit_eq] at hwires
  have hscheme : ec.circuit.scheme = scheme := by
    obtain ⟨_, _, _, _, _, rfl, -⟩ := MpcCircuit.new_ok hnew
    rw [hl.circuit_eq]
    rfl
  have hsame : IsInputWire operations (@Network.myId N Elem _ ec.network) = (· ∈ wireIds) :=
    funext fun w => propext (hmem w).symm
  rw [hsame]
  obtain ⟨hs, hrun⟩ | ⟨e, hf, hrun⟩ := prepareInput_of_wireIds hstate hctx (hwires _) userInputs
  · rw [hscheme] at hrun
    refine ⟨⟨fun _ => hs, fun _ => by rw [hrun]⟩, fun _ => ⟨context, hctx, hrun⟩, fun hns => absurd hs hns⟩
  · refine ⟨⟨fun hok => ?_, fun hs => absurd hs hf.not_supplies⟩, fun hs => absurd hs hf.not_supplies,
      fun _ => ⟨e, hf, hrun⟩⟩
    rw [hrun] at hok
    cases hok

/-- A random value that is opened, and an input. -/
def soloOperations : List AdditiveOperation := [.genRandom ⟨0⟩, .reveal ⟨0⟩ ⟨1⟩, .input 0 ⟨2⟩]

theorem prepareInput_exact_solo : (prepareInput [(⟨2⟩, 7)] soloOffline).1 = .ok () ↔
    Supplies (IsInputWire soloOperations 0) [(⟨2⟩, 7)] := by
  have hnew : MpcCircuit.new (⟨⟩ : AdditiveScheme 100) soloOperations = .ok soloCircuit := by decide
  have hreach : Reachable (fun _ => .ok []) soloCircuit soloOffline :=
    ((Reachable.new Solo.mk).handshake handshake_solo).doOffline doOffline_solo
  exact (prepareInput_exact hnew (by decide) hreach (by decide +kernel) [(⟨2⟩, 7)]).1

end ExecutionContext

end MpcCore
