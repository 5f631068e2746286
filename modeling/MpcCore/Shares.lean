import MpcCore.AdditiveExchange
import MpcCore.Lib.StraightLine
import MpcCore.Plan
import Mathlib.Algebra.BigOperators.Fin
import Mathlib.Algebra.BigOperators.Ring.Finset
import Mathlib.Data.Fintype.BigOperators
import Mathlib.Data.ZMod.Basic

/-! # Shares and plaintexts

What the parties hold of each wire when a plan runs without a failure, as a table computed from the
inputs and the draws alone, and what the wires stand for.

* `shareTable`: the shares of all parties, operation after operation.
* `plaintext`: the value of each wire, with addition and opening as they are meant.
* `coefficient`: how often each source enters a wire, when every opening multiplies by a given factor.
* `sum_shareTable`: the shares of a wire sum to the linear form in which an opening multiplies by the
  number of parties; `plaintext_eq_sum`: the plaintext is the one in which it multiplies by one. -/

namespace MpcCore

open Operation

variable {M n : ℕ}

/-- The value of party `i`, and zero for a number that is no party. -/
def valueAt (f : Fin n → ℕ) (i : ℕ) : ℕ := if h : i < n then f ⟨i, h⟩ else 0

@[simp] theorem valueAt_fin (f : Fin n → ℕ) (p : Fin n) : valueAt f p = f p := by simp [valueAt]

/-! ### Draws -/

/-- The draws a party makes in an operation. -/
def AdditiveOperation.drawCount (n me : ℕ) : AdditiveOperation → ℕ
  | input partyId _ => if me = partyId then (others n me).length else 0
  | genRandom _ => 1
  | _ => 0

/-- The draws a party makes in a list of operations. -/
def drawn (n me : ℕ) (ops : List AdditiveOperation) : ℕ := (ops.map (AdditiveOperation.drawCount n me)).sum

theorem drawn_snoc (me : ℕ) (ops : List AdditiveOperation) (op : AdditiveOperation) :
    drawn n me (ops ++ [op]) = drawn n me ops + op.drawCount n me := by
  simp [drawn]

theorem drawn_append (me : ℕ) (ops ops' : List AdditiveOperation) :
    drawn n me (ops ++ ops') = drawn n me ops + drawn n me ops' := by
  simp [drawn]

/-- The draws that put the given values where each operation draws. -/
def tapeOf (values : Fin n → AdditiveOperation → List ℕ) (ops : List AdditiveOperation) (p : Fin n) : Draws :=
  fun k => ((ops.flatMap (values p))[k]?).getD 0

theorem tapeOf_eq {values : Fin n → AdditiveOperation → List ℕ} {ops done rest : List AdditiveOperation}
    {op : AdditiveOperation} {p : Fin n} (hlen : ∀ o ∈ ops, (values p o).length = o.drawCount n p)
    (he : ops = done ++ op :: rest) {j : ℕ} (hj : j < op.drawCount n p) :
    tapeOf values ops p (drawn n p done + j) = ((values p op)[j]?).getD 0 := by
  have hdone : (done.flatMap (values p)).length = drawn n p done := by
    rw [List.length_flatMap, drawn]
    exact congrArg List.sum (List.map_congr_left fun o ho => hlen o (by simp [he, ho]))
  rw [tapeOf, he, List.flatMap_append, List.flatMap_cons, ← hdone, List.getElem?_append_right (by omega),
    Nat.add_sub_cancel_left, List.getElem?_append_left (by rw [hlen op (by simp [he])]; exact hj)]

/-- The share that the owner of an input deals to party `i`, when it has drawn for `done` before. -/
def dealt (draws : Fin n → Draws) (done : List AdditiveOperation) (owner i : ℕ) : ℕ :=
  valueAt (fun o => draws o (drawn n owner done + (others n owner).idxOf i)) owner

/-! ### The shares -/

/-- What party `p` holds of the output of an operation. -/
def shareOf (M : ℕ) (x : Fin n → WireId → ℕ) (draws : Fin n → Draws) (done : List AdditiveOperation) :
    AdditiveOperation → (WireId → Fin n → ℕ) → Fin n → ℕ
  | .input partyId output, _, p =>
      if (p : ℕ) = partyId then
        (x p output % M + M - ((others n partyId).map (dealt draws done partyId)).sum % M) % M
      else dealt draws done partyId p
  | .genRandom _, _, p => draws p (drawn n p done)
  | .add left right _, table, p => (table left p + table right p) % M
  | .reveal input _, table, _ => (∑ q, table input q) % M

/-- The shares as a straight-line program. -/
def shareSemantics (M : ℕ) (x : Fin n → WireId → ℕ) (draws : Fin n → Draws) :
    StraightLine.Semantics AdditiveOperation WireId (Fin n → ℕ) where
  out := AdditiveOperation.output
  reads := inputs
  value := shareOf M x draws
  value_congr done op table table' h := by
    funext p
    cases op with
    | input partyId output => rfl
    | genRandom output => rfl
    | add left right output =>
        simp only [shareOf]
        rw [h left (by simp [inputs]), h right (by simp [inputs])]
    | reveal inp output =>
        simp only [shareOf]
        rw [h inp (by simp [inputs])]

/-- What each party holds of each wire. -/
def shareTable (M : ℕ) (x : Fin n → WireId → ℕ) (draws : Fin n → Draws) (ops : List AdditiveOperation) :
    WireId → Fin n → ℕ :=
  StraightLine.eval (shareSemantics M x draws) ops fun _ _ => 0

/-! ### The plaintexts -/

/-- What the output of an operation stands for. -/
def plainOf (M : ℕ) (x : Fin n → WireId → ℕ) (draws : Fin n → Draws) (done : List AdditiveOperation) :
    AdditiveOperation → (WireId → ℕ) → ℕ
  | .input partyId output, _ => valueAt (fun p => x p output) partyId % M
  | .genRandom _, _ => (∑ p, draws p (drawn n p done)) % M
  | .add left right _, values => (values left + values right) % M
  | .reveal input _, values => values input

/-- The plaintexts as a straight-line program. -/
def plainSemantics (M : ℕ) (x : Fin n → WireId → ℕ) (draws : Fin n → Draws) :
    StraightLine.Semantics AdditiveOperation WireId ℕ where
  out := AdditiveOperation.output
  reads := inputs
  value := plainOf M x draws
  value_congr done op values values' h := by
    cases op with
    | input partyId output => rfl
    | genRandom output => rfl
    | add left right output =>
        simp only [plainOf]
        rw [h left (by simp [inputs]), h right (by simp [inputs])]
    | reveal inp output => exact h inp (by simp [inputs])

/-- The plaintext of each wire. -/
def plaintext (M : ℕ) (x : Fin n → WireId → ℕ) (draws : Fin n → Draws) (ops : List AdditiveOperation) :
    WireId → ℕ :=
  StraightLine.eval (plainSemantics M x draws) ops fun _ => 0

/-! ### Linear forms -/

/-- How often each source enters the output of an operation: an opening multiplies by `factor`. -/
def coefficientOf (factor : ℕ) (_ : List AdditiveOperation) :
    AdditiveOperation → (WireId → WireId → ℕ) → WireId → ℕ
  | .input _ output, _, source => if source = output then 1 else 0
  | .genRandom output, _, source => if source = output then 1 else 0
  | .add left right _, forms, source => forms left source + forms right source
  | .reveal input _, forms, source => factor * forms input source

/-- The linear forms as a straight-line program. -/
def coefficientSemantics (factor : ℕ) : StraightLine.Semantics AdditiveOperation WireId (WireId → ℕ) where
  out := AdditiveOperation.output
  reads := inputs
  value := coefficientOf factor
  value_congr done op forms forms' h := by
    funext source
    cases op with
    | input partyId output => rfl
    | genRandom output => rfl
    | add left right output =>
        simp only [coefficientOf]
        rw [h left (by simp [inputs]), h right (by simp [inputs])]
    | reveal inp output =>
        simp only [coefficientOf]
        rw [h inp (by simp [inputs])]

/-- The sum over the paths from `source` to a wire of `factor ^ k`, with `k` the openings on the path. -/
def coefficient (factor : ℕ) (ops : List AdditiveOperation) : WireId → WireId → ℕ :=
  StraightLine.eval (coefficientSemantics factor) ops fun _ _ => 0

/-- Operations without inputs: an input of a party, or a common random value. -/
def AdditiveOperation.isSource : AdditiveOperation → Bool
  | input .. => true
  | genRandom _ => true
  | _ => false

/-- The wires of the sources. -/
def sourceWires (ops : List AdditiveOperation) : Finset WireId :=
  ((ops.filter AdditiveOperation.isSource).map AdditiveOperation.output).toFinset

/-- Every wire is produced once, and consumed only by later operations. -/
abbrev OrderedOperations (ops : List AdditiveOperation) : Prop :=
  StraightLine.Ordered AdditiveOperation.output inputs ops

/-! ### What the tables satisfy -/

section

variable {x : Fin n → WireId → ℕ} {draws : Fin n → Draws} {ops done rest : List AdditiveOperation}
  {op : AdditiveOperation}

theorem shareTable_eq (h : OrderedOperations ops) (he : ops = done ++ op :: rest) :
    shareTable M x draws ops op.output = shareOf M x draws done op (shareTable M x draws ops) :=
  StraightLine.eval_eq (shareSemantics M x draws) h _ done op rest he

theorem plaintext_eq (h : OrderedOperations ops) (he : ops = done ++ op :: rest) :
    plaintext M x draws ops op.output = plainOf M x draws done op (plaintext M x draws ops) :=
  StraightLine.eval_eq (plainSemantics M x draws) h _ done op rest he

theorem coefficient_eq (factor : ℕ) (h : OrderedOperations ops) (he : ops = done ++ op :: rest) :
    coefficient factor ops op.output = coefficientOf factor done op (coefficient factor ops) :=
  StraightLine.eval_eq (coefficientSemantics factor) h _ done op rest he

theorem dealt_lt (hdraws : ∀ p k, draws p k < M) (hM : 0 < M) (done : List AdditiveOperation) (owner i : ℕ) :
    dealt draws done owner i < M := by
  unfold dealt valueAt
  split
  · exact hdraws _ _
  · exact hM

theorem shareOf_lt (hdraws : ∀ p k, draws p k < M) (hM : 0 < M) (table : WireId → Fin n → ℕ) (p : Fin n) :
    shareOf M x draws done op table p < M := by
  cases op with
  | input partyId output =>
      simp only [shareOf]
      split
      · exact Nat.mod_lt _ hM
      · exact dealt_lt hdraws hM _ _ _
  | genRandom output => exact hdraws p _
  | add left right output => exact Nat.mod_lt _ hM
  | reveal inp output => exact Nat.mod_lt _ hM

theorem shareTable_lt (h : OrderedOperations ops) (hdraws : ∀ p k, draws p k < M) (hM : 0 < M) {w : WireId}
    (hw : w ∈ ops.map AdditiveOperation.output) (p : Fin n) : shareTable M x draws ops w p < M := by
  obtain ⟨op, hop, rfl⟩ := List.mem_map.mp hw
  obtain ⟨done, rest, he⟩ := List.append_of_mem hop
  rw [shareTable_eq h he]
  exact shareOf_lt hdraws hM _ p

theorem plaintext_lt (h : OrderedOperations ops) (hM : 0 < M) {w : WireId}
    (hw : w ∈ ops.map AdditiveOperation.output) : plaintext M x draws ops w < M := by
  refine h.induction (motive := fun w => plaintext M x draws ops w < M) (fun done op rest he hreads => ?_) w hw
  rw [plaintext_eq h he]
  cases op with
  | input partyId output => exact Nat.mod_lt _ hM
  | genRandom output => exact Nat.mod_lt _ hM
  | add left right output => exact Nat.mod_lt _ hM
  | reveal inp output => exact hreads inp (by simp [inputs])

/-! ### Sums of shares -/

theorem sum_others (f : Fin n → ℕ) (p : Fin n) : ((others n p).map (valueAt f)).sum + f p = ∑ q, f q := by
  have hall : ((List.range n).map (valueAt f)).sum = ∑ q, f q := by
    rw [← List.map_coe_finRange_eq_range, List.map_map, ← Fin.sum_univ_def]
    simp
  have hsplit : ∀ l : List ℕ, l.Nodup → (p : ℕ) ∈ l →
      ((l.filter fun i : ℕ => i ≠ p).map (valueAt f)).sum + f p = (l.map (valueAt f)).sum := by
    intro l hl hp
    have herase : l.filter (fun i : ℕ => i ≠ p) = l.erase p := by
      rw [hl.erase_eq_filter]
      exact List.filter_congr fun i _ => by by_cases hi : i = p <;> simp [hi]
    have hperm := (List.perm_cons_erase hp).map (valueAt f)
    rw [herase, hperm.sum_eq, List.map_cons, List.sum_cons, valueAt_fin]
    omega
  rw [← hall]
  exact hsplit _ List.nodup_range (by simp)

/-- **The shares of an input sum to the input**. -/
theorem sum_input (hM : 0 < M) {owner : Fin n} {output : WireId} (table : WireId → Fin n → ℕ) :
    ((∑ p, shareOf M x draws done (.input owner output) table p : ℕ) : ZMod M) = x owner output := by
  set share := shareOf M x draws done (.input owner output) table with hshare
  have hdealt : (others n owner).map (dealt draws done owner) = (others n owner).map (valueAt share) := by
    refine List.map_congr_left fun i hi => ?_
    obtain ⟨hlt, hne⟩ := mem_others.mp hi
    simp [valueAt, hlt, hshare, shareOf, hne]
  rw [← sum_others share owner]
  have hown : share owner =
      (x owner output % M + M - ((others n owner).map (valueAt share)).sum % M) % M := by
    rw [hshare, shareOf, if_pos rfl, hdealt]
  generalize ((others n owner).map (valueAt share)).sum = total at hown ⊢
  have hle : total % M ≤ x owner output % M + M := by
    have := Nat.mod_lt total hM
    omega
  rw [hown, Nat.cast_add, ZMod.natCast_mod, Nat.cast_sub hle, Nat.cast_add, ZMod.natCast_mod, ZMod.natCast_mod,
    ZMod.natCast_self, add_zero, add_sub_cancel]

/-! ### Linear forms -/

/-- A value that is linear in those of the wires read: an opening multiplies by `factor`. -/
def AdditiveOperation.linear (factor : ℕ) (source : ZMod M) (V : WireId → ZMod M) : AdditiveOperation → ZMod M
  | input _ _ => source
  | genRandom _ => source
  | add left right _ => V left + V right
  | reveal inp _ => factor * V inp

/-- The sum of the shares is linear, with the number of parties as the factor of an opening. -/
theorem sum_shareOf (hM : 0 < M) (hop : op.Owned n) (table : WireId → Fin n → ℕ) (values : WireId → ℕ) :
    ((∑ p, shareOf M x draws done op table p : ℕ) : ZMod M) =
      op.linear n (plainOf M x draws done op values : ℕ) fun w => (∑ p, table w p : ℕ) := by
  cases op with
  | input partyId output =>
      obtain ⟨owner, rfl⟩ : ∃ owner : Fin n, (owner : ℕ) = partyId := ⟨⟨partyId, hop partyId rfl⟩, rfl⟩
      rw [sum_input hM table]
      simp [AdditiveOperation.linear, plainOf]
  | genRandom output => simp [AdditiveOperation.linear, shareOf, plainOf]
  | add left right output => simp [AdditiveOperation.linear, shareOf, Finset.sum_add_distrib]
  | reveal inp output => simp [AdditiveOperation.linear, shareOf]

theorem plainOf_eq (values : WireId → ℕ) :
    ((plainOf M x draws done op values : ℕ) : ZMod M) =
      op.linear 1 (plainOf M x draws done op values : ℕ) fun w => (values w : ZMod M) := by
  cases op with
  | input partyId output => rfl
  | genRandom output => rfl
  | add left right output => simp [AdditiveOperation.linear, plainOf]
  | reveal inp output => simp [AdditiveOperation.linear, plainOf]

/-- What is linear in every operation is the linear form of the sources. -/
theorem eq_linearForm (h : OrderedOperations ops) (factor : ℕ) {V v : WireId → ZMod M}
    (hV : ∀ done op rest, ops = done ++ op :: rest → V op.output = op.linear factor (v op.output) V) :
    ∀ w ∈ ops.map AdditiveOperation.output,
      V w = ∑ s ∈ sourceWires ops, (coefficient factor ops w s : ZMod M) * v s := by
  refine h.induction fun done op rest he hreads => ?_
  have hform := coefficient_eq factor h he
  have hsource : op.isSource = true →
      ∑ s ∈ sourceWires ops, ((if s = op.output then 1 else 0 : ℕ) : ZMod M) * v s = v op.output := fun hs => by
    have hmem : op.output ∈ sourceWires ops := by
      simp only [sourceWires, List.mem_toFinset, List.mem_map, List.mem_filter]
      exact ⟨op, ⟨by simp [he], hs⟩, rfl⟩
    simp [hmem]
  rw [hV done op rest he, hform]
  cases op with
  | input partyId output => exact (hsource rfl).symm
  | genRandom output => exact (hsource rfl).symm
  | add left right output =>
      simp only [AdditiveOperation.linear, coefficientOf, Nat.cast_add, add_mul, Finset.sum_add_distrib]
      rw [hreads left (by simp [inputs]), hreads right (by simp [inputs])]
  | reveal inp output =>
      simp only [AdditiveOperation.linear, coefficientOf, Nat.cast_mul, mul_assoc, ← Finset.mul_sum]
      rw [hreads inp (by simp [inputs])]

/-- **The shares of a wire sum to the linear form in which an opening multiplies by the number of
parties.** -/
theorem sum_shareTable (h : OrderedOperations ops) (hM : 0 < M) (hown : ∀ op ∈ ops, op.Owned n) {w : WireId}
    (hw : w ∈ ops.map AdditiveOperation.output) :
    ((∑ p, shareTable M x draws ops w p : ℕ) : ZMod M) =
      ∑ s ∈ sourceWires ops, (coefficient n ops w s : ZMod M) * (plaintext M x draws ops s : ℕ) := by
  refine eq_linearForm h n (V := fun w => ((∑ p, shareTable M x draws ops w p : ℕ) : ZMod M))
    (v := fun w => (plaintext M x draws ops w : ZMod M)) (fun done op rest he => ?_) w hw
  simp only [shareTable_eq h he, plaintext_eq h he]
  exact sum_shareOf hM (hown op (by simp [he])) _ _

/-- **The plaintext of a wire is the linear form in which an opening multiplies by one.** -/
theorem plaintext_eq_sum (h : OrderedOperations ops) {w : WireId} (hw : w ∈ ops.map AdditiveOperation.output) :
    (plaintext M x draws ops w : ZMod M) =
      ∑ s ∈ sourceWires ops, (coefficient 1 ops w s : ZMod M) * (plaintext M x draws ops s : ℕ) := by
  refine eq_linearForm h 1 (V := fun w => (plaintext M x draws ops w : ZMod M))
    (v := fun w => (plaintext M x draws ops w : ZMod M)) (fun done op rest he => ?_) w hw
  simp only [plaintext_eq h he]
  exact plainOf_eq _

end

end MpcCore
