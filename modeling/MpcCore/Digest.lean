import MpcCore.CircuitAccept
import MpcCore.Lib.PrefixCode

/-! # The bytes behind the digest

What the handshake hashes: the serialised circuit.

* A unit struct has no bytes, a struct is its fields in order, an enum the index of its variant and
  the fields, a `Vec` its length and the elements, and a `usize` a base-128 integer.
* `toStdvec_eq_iff`: the bytes determine the rounds of a plan, and nothing else.  The modulus is a
  parameter of the type of the scheme, and no byte depends on it. -/

namespace MpcCore

/-! ### Serialisation -/

/-- The index of the variant. -/
def AdditiveOperation.variant : AdditiveOperation → ℕ
  | .input .. => 0
  | .genRandom .. => 1
  | .add .. => 2
  | .reveal .. => 3

/-- The fields of the variant; a `WireId` is transparent over its `usize`. -/
def AdditiveOperation.fields : AdditiveOperation → List ℕ
  | .input partyId output => [partyId, output.id]
  | .genRandom output => [output.id]
  | .add left right output => [left.id, right.id, output.id]
  | .reveal inp output => [inp.id, output.id]

/-- An `AdditiveOperation`. -/
def AdditiveOperation.serialize (op : AdditiveOperation) : List UInt8 := varint op.variant ++ op.fields.flatMap varint

/-- An `AdditiveScheme<M>`, a unit struct. -/
def AdditiveScheme.serialize {M : ℕ} (_ : AdditiveScheme M) : List UInt8 := []

/-- A `Round`. -/
def Round.serialize (round : Round AdditiveOperation) : List UInt8 :=
  encodeSeq AdditiveOperation.serialize round.localOperations ++
    encodeSeq AdditiveOperation.serialize round.networkOperations

/-- `postcard::to_stdvec(&circuit)` -/
def MpcCircuit.toStdvec {M : ℕ} (circuit : MpcCircuit (AdditiveScheme M) AdditiveOperation) : List UInt8 :=
  circuit.scheme.serialize ++
    (encodeSeq Round.serialize circuit.offlineRounds ++ encodeSeq Round.serialize circuit.onlineRounds)

/-! ### What the bytes determine -/

theorem AdditiveOperation.fields_length {op op' : AdditiveOperation} (h : op.variant = op'.variant) :
    op.fields.length = op'.fields.length := by
  cases op <;> cases op' <;> first | rfl | exact absurd h (by simp [variant])

theorem AdditiveOperation.eq_of_fields {op op' : AdditiveOperation} (h : op.variant = op'.variant)
    (hfields : op.fields = op'.fields) : op = op' := by
  have hid : ∀ w w' : WireId, w.id = w'.id → w = w' := fun w w' he => by cases w; cases w'; simpa using he
  cases op with
  | input partyId output =>
      cases op' with
      | input partyId' output' =>
          obtain ⟨rfl, ho⟩ : partyId = partyId' ∧ output.id = output'.id := by simpa [fields] using hfields
          rw [hid _ _ ho]
      | _ => exact absurd h (by simp [variant])
  | genRandom output =>
      cases op' with
      | genRandom output' =>
          have ho : output.id = output'.id := by simpa [fields] using hfields
          rw [hid _ _ ho]
      | _ => exact absurd h (by simp [variant])
  | add left right output =>
      cases op' with
      | add left' right' output' =>
          obtain ⟨hl, hr, ho⟩ : left.id = left'.id ∧ right.id = right'.id ∧ output.id = output'.id := by
            simpa [fields] using hfields
          rw [hid _ _ hl, hid _ _ hr, hid _ _ ho]
      | _ => exact absurd h (by simp [variant])
  | reveal inp output =>
      cases op' with
      | reveal inp' output' =>
          obtain ⟨hi, ho⟩ : inp.id = inp'.id ∧ output.id = output'.id := by simpa [fields] using hfields
          rw [hid _ _ hi, hid _ _ ho]
      | _ => exact absurd h (by simp [variant])

/-- **The operations** are told apart by the index of the variant, which gives the number of the fields, and
then field by field. -/
theorem isPrefixCode_operation : IsPrefixCode AdditiveOperation.serialize := by
  intro op op' r s h
  simp only [AdditiveOperation.serialize, List.append_assoc] at h
  obtain ⟨hvariant, h1⟩ := isPrefixCode_varint _ _ _ _ h
  obtain ⟨hfields, h2⟩ := isPrefixCode_varint.flatMap _ _ r s (AdditiveOperation.fields_length hvariant) h1
  exact ⟨AdditiveOperation.eq_of_fields hvariant hfields, h2⟩

theorem isPrefixCode_round : IsPrefixCode Round.serialize := by
  have hops := isPrefixCode_operation.seq
  have hinj : Function.Injective fun round : Round AdditiveOperation =>
      (round.localOperations, round.networkOperations) := by
    rintro ⟨l, n⟩ ⟨l', n'⟩ h
    simpa using h
  exact (hops.pair hops).comp hinj

theorem rounds_eq_of_toStdvec {M₁ M₂ : ℕ} {c₁ : MpcCircuit (AdditiveScheme M₁) AdditiveOperation}
    {c₂ : MpcCircuit (AdditiveScheme M₂) AdditiveOperation} (h : c₁.toStdvec = c₂.toStdvec) :
    c₁.offlineRounds = c₂.offlineRounds ∧ c₁.onlineRounds = c₂.onlineRounds := by
  have hrounds := isPrefixCode_round.seq
  have he : (c₁.offlineRounds, c₁.onlineRounds) = (c₂.offlineRounds, c₂.onlineRounds) :=
    (hrounds.pair hrounds).injective h
  exact Prod.mk.inj he

/-- **What the digest fixes**: the offline and the online rounds. -/
theorem toStdvec_eq_iff {M₁ M₂ : ℕ} (c₁ : MpcCircuit (AdditiveScheme M₁) AdditiveOperation)
    (c₂ : MpcCircuit (AdditiveScheme M₂) AdditiveOperation) :
    c₁.toStdvec = c₂.toStdvec ↔ c₁.offlineRounds = c₂.offlineRounds ∧ c₁.onlineRounds = c₂.onlineRounds := by
  refine ⟨rounds_eq_of_toStdvec, ?_⟩
  rintro ⟨h1, h2⟩
  simp only [MpcCircuit.toStdvec, AdditiveScheme.serialize, h1, h2]

theorem toStdvec_sum :
    MpcCircuit.new (⟨⟩ : AdditiveScheme 100) sumOperations = .ok ⟨⟨⟩, sumCircuit.offlineRounds, sumCircuit.onlineRounds⟩ ∧
    MpcCircuit.new (⟨⟩ : AdditiveScheme 101) sumOperations = .ok ⟨⟨⟩, sumCircuit.offlineRounds, sumCircuit.onlineRounds⟩ ∧
    MpcCircuit.toStdvec (M := 100) ⟨⟨⟩, sumCircuit.offlineRounds, sumCircuit.onlineRounds⟩ =
      MpcCircuit.toStdvec (M := 101) ⟨⟨⟩, sumCircuit.offlineRounds, sumCircuit.onlineRounds⟩ ∧
    100 ≠ 101 :=
  ⟨by decide, by decide, rfl, by decide⟩

end MpcCore
