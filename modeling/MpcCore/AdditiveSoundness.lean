import MpcCore.CircuitAccept
import Mathlib.Data.Finset.Card

/-! # The fixpoint loop of the soundness check

When the loop of `is_circuit_sound` ends, on operations that nothing has validated yet.

* `Typed`: the types that the operations give to a wire, whatever the order they are visited in.
* `UniquelyTyped`: no wire is given two types.
* `validates_iff`: the loop ends, and `MpcCircuit::new` returns, exactly if no wire is given two
  types.  A wire with two types is overwritten in every pass, so every pass changes the map. -/

namespace MpcCore

open Operation

variable {M : ℕ} {ops rest : List AdditiveOperation} {m m' : PMap WireId WireType}

/-! ### Types -/

/-- The type of a sum. -/
def sumType : WireType → WireType → WireType
  | .opened, .opened => .opened
  | _, _ => .shared

/-- The operations give this type to this wire. -/
inductive Typed (ops : List AdditiveOperation) : WireId → WireType → Prop where
  | input {partyId : ℕ} {w : WireId} : .input partyId w ∈ ops → Typed ops w .shared
  | genRandom {w : WireId} : .genRandom w ∈ ops → Typed ops w .shared
  | add {left right w : WireId} {a b : WireType} : .add left right w ∈ ops → Typed ops left a →
      Typed ops right b → Typed ops w (sumType a b)
  | reveal {inp w : WireId} : .reveal inp w ∈ ops → Typed ops w .opened

/-- No wire is given two types. -/
def UniquelyTyped (ops : List AdditiveOperation) : Prop :=
  ∀ w a b, Typed ops w a → Typed ops w b → a = b

/-- The map has only types that the operations give. -/
def Justified (ops : List AdditiveOperation) (m : PMap WireId WireType) : Prop :=
  ∀ w a, m.get w = some a → Typed ops w a

/-- The map has every type that an operation gives under it. -/
def Closed (ops : List AdditiveOperation) (m : PMap WireId WireType) : Prop :=
  ∀ op ∈ ops, ∀ a, newType m op = some a → m.get op.output = some a

theorem justified_empty : Justified ops .empty := fun w a h => absurd h (by simp)

theorem newType_add (left right output : WireId) {a : WireType} :
    newType m (.add left right output) = some a ↔
      ∃ b c, m.get left = some b ∧ m.get right = some c ∧ a = sumType b c := by
  cases hl : m.get left with
  | none => simp [newType, hl]
  | some b =>
      cases hr : m.get right with
      | none => cases b <;> simp [newType, hl, hr]
      | some c => cases b <;> cases c <;> simp [newType, hl, hr, sumType, eq_comm]

theorem Justified.newType (h : Justified ops m) {op : AdditiveOperation} (hop : op ∈ ops) {a : WireType}
    (ha : newType m op = some a) : Typed ops op.output a := by
  cases op with
  | input partyId output =>
      obtain rfl : WireType.shared = a := by simpa [MpcCore.newType] using ha
      exact .input hop
  | genRandom output =>
      obtain rfl : WireType.shared = a := by simpa [MpcCore.newType] using ha
      exact .genRandom hop
  | add left right output =>
      obtain ⟨b, c, hb, hc, rfl⟩ := (newType_add left right output).mp ha
      exact .add hop (h left b hb) (h right c hc)
  | reveal inp output =>
      obtain rfl : WireType.opened = a := by simpa [MpcCore.newType] using ha
      exact .reveal hop

theorem Justified.insert (h : Justified ops m) {w : WireId} {a : WireType} (ha : Typed ops w a) :
    Justified ops (m.insert w a) := by
  intro w' b hb
  rw [PMap.get_insert] at hb
  by_cases hw : w' = w
  · subst hw
    rw [if_pos rfl] at hb
    obtain rfl := Option.some.inj hb
    exact ha
  · rw [if_neg hw] at hb
    exact h w' b hb

/-- A closed map has every type of every wire, so there is one type for each. -/
theorem Closed.get (h : Closed ops m) {w : WireId} {a : WireType} (ha : Typed ops w a) : m.get w = some a := by
  induction ha with
  | input hop => exact h _ hop _ rfl
  | genRandom hop => exact h _ hop _ rfl
  | add hop _ _ ihl ihr => exact h _ hop _ ((newType_add _ _ _).mpr ⟨_, _, ihl, ihr, rfl⟩)
  | reveal hop => exact h _ hop _ rfl

theorem Closed.uniquelyTyped (h : Closed ops m) : UniquelyTyped ops := by
  intro w a b ha hb
  have := h.get ha
  rw [h.get hb] at this
  exact (Option.some.inj this).symm

/-! ### One pass -/

theorem insert_self {w : WireId} {a : WireType} (h : m.get w = some a) : m.insert w a = m := by
  ext w' : 1
  rw [PMap.get_insert]
  split
  · rename_i hw
    rw [hw, h]
  · rfl

theorem soundPass_unchanged : ∀ {rest : List AdditiveOperation} {m m' : PMap WireId WireType} {changed : Bool},
    soundPass rest (m, changed) = (m', false) → changed = false ∧ m' = m ∧ Closed rest m
  | [], m, m', changed, h => by
      obtain ⟨rfl, rfl⟩ := Prod.mk.inj h
      exact ⟨rfl, rfl, fun op hop => absurd hop (by simp)⟩
  | op :: rest, m, m', changed, h => by
      unfold soundPass at h
      cases hty : newType m op with
      | none =>
          simp only [hty] at h
          obtain ⟨hc, hm, hrest⟩ := soundPass_unchanged h
          refine ⟨hc, hm, fun o ho a ha => ?_⟩
          obtain rfl | ho := List.mem_cons.mp ho
          · exact absurd ha (by simp [hty])
          · exact hrest o ho a ha
      | some ty =>
          simp only [hty] at h
          obtain ⟨hc, hm, hrest⟩ := soundPass_unchanged h
          obtain ⟨hc, hget⟩ : changed = false ∧ m.get op.output = some ty := by simpa using hc
          rw [insert_self hget] at hm hrest
          refine ⟨hc, hm, fun o ho a ha => ?_⟩
          obtain rfl | ho := List.mem_cons.mp ho
          · rw [hget, ← ha, hty]
          · exact hrest o ho a ha

/-- **A pass without conflicts** keeps what is in the map, and changes the map only where it had
nothing. -/
theorem soundPass_grows (hu : UniquelyTyped ops) :
    ∀ (rest : List AdditiveOperation) (m : PMap WireId WireType) (changed : Bool), (∀ op ∈ rest, op ∈ ops) →
      Justified ops m →
      Justified ops (soundPass rest (m, changed)).1 ∧
      (∀ w a, m.get w = some a → (soundPass rest (m, changed)).1.get w = some a) ∧
      ((soundPass rest (m, changed)).2 = true → changed = true ∨
        ∃ op ∈ rest, m.get op.output = none ∧ (soundPass rest (m, changed)).1.get op.output ≠ none)
  | [], m, changed, _, h => ⟨h, fun _ _ ha => ha, fun hc => .inl hc⟩
  | op :: rest, m, changed, hsub, h => by
      have hsub' : ∀ o ∈ rest, o ∈ ops := fun o ho => hsub o (by simp [ho])
      unfold soundPass
      cases hty : newType m op with
      | none =>
          obtain ⟨h1, h2, h3⟩ := soundPass_grows hu rest m changed hsub' h
          refine ⟨h1, h2, fun hc => (h3 hc).imp_right ?_⟩
          rintro ⟨o, ho, hnone, hsome⟩
          exact ⟨o, by simp [ho], hnone, hsome⟩
      | some ty =>
          have htyped := h.newType (hsub op (by simp)) hty
          simp only
          cases hget : m.get op.output with
          | some ty' =>
              obtain rfl := hu _ _ _ (h _ _ hget) htyped
              rw [insert_self hget]
              obtain ⟨h1, h2, h3⟩ := soundPass_grows hu rest m changed hsub' h
              simp only [bne_self_eq_false, Bool.or_false]
              refine ⟨h1, h2, fun hc => (h3 hc).imp_right ?_⟩
              rintro ⟨o, ho, hnone, hsome⟩
              exact ⟨o, by simp [ho], hnone, hsome⟩
          | none =>
              obtain ⟨h1, h2, -⟩ := soundPass_grows hu rest (m.insert op.output ty)
                (changed || none != some ty) hsub' (h.insert htyped)
              refine ⟨h1, fun w a ha => h2 w a ?_, fun _ => .inr ⟨op, by simp, hget, ?_⟩⟩
              · have hw : w ≠ op.output := by
                  rintro rfl
                  exact absurd ha (by simp [hget])
                rw [PMap.get_insert_ne _ _ hw]
                exact ha
              · rw [h2 op.output ty (PMap.get_insert_self m op.output ty)]
                simp

/-! ### The loop -/

/-- The output wires that have no type yet. -/
def untyped (ops : List AdditiveOperation) (m : PMap WireId WireType) : Finset WireId :=
  (ops.map AdditiveOperation.output).toFinset.filter fun w => m.get w = none

theorem untyped_card_le : (untyped ops m).card ≤ ops.length := by
  calc (untyped ops m).card
      ≤ (ops.map AdditiveOperation.output).toFinset.card := Finset.card_filter_le _ _
    _ ≤ (ops.map AdditiveOperation.output).length := List.toFinset_card_le _
    _ = ops.length := List.length_map _

theorem untyped_lt (hkeep : ∀ w a, m.get w = some a → m'.get w = some a)
    (hnew : ∃ op ∈ ops, m.get op.output = none ∧ m'.get op.output ≠ none) :
    (untyped ops m').card < (untyped ops m).card := by
  obtain ⟨op, hop, hnone, hsome⟩ := hnew
  apply Finset.card_lt_card
  rw [Finset.ssubset_iff_of_subset]
  · refine ⟨op.output, ?_, ?_⟩
    · simp only [untyped, Finset.mem_filter, List.mem_toFinset]
      exact ⟨List.mem_map_of_mem hop, hnone⟩
    · simp [untyped, hsome]
  · intro w hw
    simp only [untyped, Finset.mem_filter] at hw ⊢
    refine ⟨hw.1, ?_⟩
    cases hget : m.get w with
    | none => rfl
    | some a => exact absurd (hkeep w a hget) (by simp [hw.2])

theorem soundLoop_ok (hu : UniquelyTyped ops) : ∀ (passes : ℕ) (m : PMap WireId WireType), Justified ops m →
    (untyped ops m).card < passes → soundLoop ops passes m = some true
  | 0, _, _, h => absurd h (by omega)
  | passes + 1, m, hm, h => by
      obtain ⟨h1, h2, h3⟩ := soundPass_grows hu ops m false (fun _ ho => ho) hm
      unfold soundLoop
      rcases hpass : soundPass ops (m, false) with ⟨m', changed⟩
      rw [hpass] at h1 h2 h3
      cases changed with
      | false => rfl
      | true =>
          have hlt : (untyped ops m').card < (untyped ops m).card :=
            untyped_lt h2 ((h3 rfl).resolve_left (by simp))
          exact soundLoop_ok hu passes m' h1 (by omega)

theorem soundLoop_closed : ∀ {passes : ℕ} {m : PMap WireId WireType} {b : Bool},
    soundLoop ops passes m = some b → ∃ m', Closed ops m'
  | 0, _, _, h => absurd h (by simp [soundLoop])
  | passes + 1, m, b, h => by
      unfold soundLoop at h
      rcases hpass : soundPass ops (m, false) with ⟨m', changed⟩
      rw [hpass] at h
      cases changed with
      | true => exact soundLoop_closed h
      | false => exact ⟨m, (soundPass_unchanged hpass).2.2⟩

/-- The loop ends if and only if no wire is given two types. -/
theorem soundLoop_iff : (∃ passes, soundLoop ops passes .empty = some true) ↔ UniquelyTyped ops := by
  constructor
  · rintro ⟨passes, h⟩
    obtain ⟨m, hm⟩ := soundLoop_closed h
    exact hm.uniquelyTyped
  · exact fun hu => ⟨_, soundLoop_ok hu _ _ justified_empty (Nat.lt_succ_self _)⟩

/-- The passes that the model grants are enough. -/
theorem additiveSound_eq (hM : M ≠ 0) (hu : UniquelyTyped ops) : additiveSound M ops = some true := by
  have hle : (untyped ops .empty).card ≤ ops.length := untyped_card_le
  have hpow : ops.length < 3 ^ ops.length := Nat.lt_pow_self (by omega)
  rw [additiveSound, if_neg hM]
  exact soundLoop_ok hu _ _ justified_empty (by omega)

/-! ### The constructor -/

/-- The validation of a list of operations comes to an end: the loop does, for a modulus for which
it is entered, and the constructor returns a plan or an error. -/
structure Validates (M : ℕ) (ops : List AdditiveOperation) : Prop where
  loop : M ≠ 0 → ∃ passes, soundLoop ops passes .empty = some true
  returns : (∃ circuit, MpcCircuit.new (⟨⟩ : AdditiveScheme M) ops = .ok circuit) ∨
    ∃ e, MpcCircuit.new (⟨⟩ : AdditiveScheme M) ops = .err e

/-- **Termination of the validation.** -/
theorem validates_iff (M : ℕ) (ops : List AdditiveOperation) :
    Validates M ops ↔ M = 0 ∨ UniquelyTyped ops := by
  constructor
  · intro h
    by_cases hM : M = 0
    · exact .inl hM
    · exact .inr (soundLoop_iff.mp (h.loop hM))
  · intro h
    refine ⟨fun hM => soundLoop_iff.mpr (h.resolve_left hM), ?_⟩
    rcases MpcCircuit.new_cases (⟨⟩ : AdditiveScheme M) ops with
      ⟨_, _, _, _, _, hok, -⟩ | ⟨e, herr, -⟩ | ⟨-, hnone⟩
    · exact .inl ⟨_, hok⟩
    · exact .inr ⟨e, herr⟩
    · have hsound : additiveSound M ops = none := hnone
      by_cases hM : M = 0
      · exact absurd hsound (by simp [additiveSound, hM])
      · rw [additiveSound_eq hM (h.resolve_left hM)] at hsound
        exact absurd hsound (by simp)

/-- A wire that is drawn after it was opened from another one. -/
def redrawn : List AdditiveOperation := [.genRandom ⟨0⟩, .reveal ⟨0⟩ ⟨1⟩, .genRandom ⟨1⟩]

theorem redrawn_hangs : MpcCircuit.new (⟨⟩ : AdditiveScheme 100) redrawn = .hang ∧ ¬ Validates 100 redrawn := by
  refine ⟨by decide +kernel, fun h => ?_⟩
  have hu := soundLoop_iff.mp (h.loop (by decide))
  have hshared : Typed redrawn ⟨1⟩ .shared := .genRandom (by decide)
  have hopened : Typed redrawn ⟨1⟩ .opened := @Typed.reveal _ ⟨0⟩ _ (by decide)
  exact absurd (hu _ _ _ hshared hopened) (by decide)

end MpcCore
