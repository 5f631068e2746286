import MpcCore.Shares
import Mathlib.Algebra.Group.Fin.Basic
import Mathlib.Tactic.LinearCombination
import Mathlib.Tactic.Ring

/-! # Tapes that hide the inputs

How the draws make up for other inputs of the honest parties, so that all parties but one honest one
hold the same shares.

* `Tape`: all draws of all parties.
* `shift`: the change of a tape that turns the inputs `x` into `x'`.  The owner of an input draws
  another share for the party `honest`; when `honest` owns the input, its own share makes up for it.
* `shareTable_shift`: when the openings agree, all parties but `honest` hold the same shares, and what
  is opened has the same shares at all parties (`opened_shift`). -/

namespace MpcCore

open Operation

variable {M n : ℕ}

/-- All draws of all parties, each below the modulus. -/
abbrev Tape (n M : ℕ) (ops : List AdditiveOperation) : Type := (p : Fin n) → Fin (drawn n p ops) → Fin M

/-- The draws of a tape, and zeros after its end. -/
def Tape.draws {ops : List AdditiveOperation} (tape : Tape n M ops) (p : Fin n) : Draws :=
  fun k => if h : k < drawn n p ops then tape p ⟨k, h⟩ else 0

/-- How far the draws of an operation move. -/
def shiftOf (M : ℕ) (x x' : Fin n → WireId → ℕ) (honest p : Fin n) : AdditiveOperation → List ℕ
  | .input partyId output =>
      if (p : ℕ) = partyId then
        (others n p).map fun i : ℕ => if i = honest then x' p output % M + (M - x p output % M) else 0
      else []
  | op => List.replicate (op.drawCount n p) 0

/-- How far the draws of all operations move. -/
def shift [NeZero M] (x x' : Fin n → WireId → ℕ) (honest : Fin n) (ops : List AdditiveOperation) : Tape n M ops :=
  fun p k => Fin.ofNat M (tapeOf (shiftOf M x x' honest) ops p k)

theorem Tape.draws_lt {ops : List AdditiveOperation} (tape : Tape n M ops) (hM : 0 < M) (p : Fin n) (k : ℕ) :
    tape.draws p k < M := by
  unfold draws
  split
  · exact (tape p _).2
  · exact hM

theorem length_shiftOf (x x' : Fin n → WireId → ℕ) (honest p : Fin n) (op : AdditiveOperation) :
    (shiftOf M x x' honest p op).length = op.drawCount n p := by
  cases op with
  | input partyId output =>
      simp only [shiftOf, AdditiveOperation.drawCount]
      split <;> simp
  | genRandom output => simp [shiftOf]
  | add left right output => simp [shiftOf]
  | reveal inp output => simp [shiftOf]

section

variable [NeZero M] {x x' : Fin n → WireId → ℕ} {honest p q : Fin n} {ops done rest : List AdditiveOperation}
  {op : AdditiveOperation} {output : WireId} (tape : Tape n M ops)

theorem draws_shift (he : ops = done ++ op :: rest) {j : ℕ} (hj : j < op.drawCount n p) :
    Tape.draws (tape + shift x x' honest ops) p (drawn n p done + j) =
      (tape.draws p (drawn n p done + j) + ((shiftOf M x x' honest p op)[j]?).getD 0) % M := by
  have hlt : drawn n p done + j < drawn n p ops := by
    rw [he, drawn_append, show op :: rest = [op] ++ rest from rfl, drawn_append]
    simp only [drawn, List.map_cons, List.map_nil, List.sum_singleton]
    omega
  rw [← tapeOf_eq (fun o _ => length_shiftOf x x' honest p o) he hj]
  simp only [Tape.draws, hlt, dif_pos, Pi.add_apply, Fin.val_add, shift, Fin.val_ofNat, Nat.add_mod_mod]

theorem genRandom_shift (he : ops = done ++ .genRandom output :: rest) :
    Tape.draws (tape + shift x x' honest ops) p (drawn n p done) = tape.draws p (drawn n p done) := by
  have hdraw : Tape.draws (tape + shift x x' honest ops) p (drawn n p done + 0) = _ :=
    draws_shift tape he (by simp [AdditiveOperation.drawCount])
  have hlt := tape.draws_lt (Nat.pos_of_neZero M) p (drawn n p done)
  simpa [shiftOf, AdditiveOperation.drawCount, Nat.mod_eq_of_lt hlt] using hdraw

theorem dealt_shift (he : ops = done ++ .input p output :: rest) (hq : q ≠ p) :
    dealt (Tape.draws (tape + shift x x' honest ops)) done p q =
      (dealt tape.draws done p q + if q = honest then x' p output % M + (M - x p output % M) else 0) % M := by
  have hmem : (q : ℕ) ∈ others n p := mem_others.mpr ⟨q.2, fun h => hq (Fin.ext h)⟩
  have hidx : (others n p).idxOf (q : ℕ) < (others n p).length := List.idxOf_lt_length_iff.mpr hmem
  have hcount : (others n p).idxOf (q : ℕ) < AdditiveOperation.drawCount n p (.input p output) := by
    rwa [AdditiveOperation.drawCount, if_pos rfl]
  have hdraw : Tape.draws (tape + shift x x' honest ops) p (drawn n p done + (others n p).idxOf (q : ℕ)) = _ :=
    draws_shift tape he hcount
  simp only [dealt, valueAt_fin]
  rw [hdraw]
  congr 2
  simp [shiftOf, hidx, Fin.ext_iff]

/-- The shares of an input, at all parties but `honest`. -/
theorem input_shift (he : ops = done ++ .input p output :: rest) (hq : q ≠ honest) (table table' : WireId → Fin n → ℕ) :
    shareOf M x' (Tape.draws (tape + shift x x' honest ops)) done (.input p output) table' q =
      shareOf M x tape.draws done (.input p output) table q := by
  have hM := Nat.pos_of_neZero M
  set share := shareOf M x tape.draws done (.input p output) table with hshare
  set share' := shareOf M x' (Tape.draws (tape + shift x x' honest ops)) done (.input p output) table' with hshare'
  have hlt : ∀ q, share q < M := shareOf_lt (fun p k => tape.draws_lt hM p k) hM table
  have hlt' : ∀ q, share' q < M := shareOf_lt (fun p k => Tape.draws_lt _ hM p k) hM table'
  have hdealt : ∀ q, q ≠ p → share' q =
      (share q + if q = honest then x' p output % M + (M - x p output % M) else 0) % M := fun q hqp => by
    have hne : ¬(q : ℕ) = p := fun h => hqp (Fin.ext h)
    simp only [hshare, hshare', shareOf, if_neg hne]
    exact dealt_shift tape he hqp
  by_cases hqp : q = p
  · -- the owner's own share is what is missing from its input
    subst hqp
    have hsum : ((∑ q, share q : ℕ) : ZMod M) = x q output := sum_input hM table
    have hsum' : ((∑ q, share' q : ℕ) : ZMod M) = x' q output := sum_input hM table'
    have hxle : x q output % M ≤ M := le_of_lt (Nat.mod_lt _ hM)
    have hcast : ∀ i ∈ Finset.univ.erase q, (share' i : ZMod M) =
        share i + if i = honest then (x' q output : ZMod M) - x q output else 0 := fun i hi => by
      rw [hdealt i (Finset.ne_of_mem_erase hi), ZMod.natCast_mod, Nat.cast_add]
      congr 1
      split
      · rw [Nat.cast_add, Nat.cast_sub hxle, ZMod.natCast_mod, ZMod.natCast_mod, ZMod.natCast_self]
        ring
      · simp
    have hhonest : honest ∈ Finset.univ.erase q := Finset.mem_erase.mpr ⟨fun h => hq h.symm, Finset.mem_univ _⟩
    rw [Nat.cast_sum, ← Finset.add_sum_erase _ _ (Finset.mem_univ q)] at hsum hsum'
    rw [Finset.sum_congr rfl hcast, Finset.sum_add_distrib, Finset.sum_ite_eq' , if_pos hhonest] at hsum'
    have heq : (share' q : ZMod M) = share q := by
      linear_combination hsum' - hsum
    have hmod := (ZMod.natCast_eq_natCast_iff _ _ _).mp heq
    rwa [Nat.ModEq, Nat.mod_eq_of_lt (hlt' q), Nat.mod_eq_of_lt (hlt q)] at hmod
  · rw [hdealt q hqp, if_neg hq, add_zero, Nat.mod_eq_of_lt (hlt q)]

/-- The sums of the shares depend on the inputs and the common random values only. -/
theorem sum_shift (h : OrderedOperations ops) (hown : ∀ op ∈ ops, op.Owned n) {w : WireId}
    (hw : w ∈ ops.map AdditiveOperation.output) :
    ((∑ q, shareTable M x' (Tape.draws (tape + shift x x' honest ops)) ops w q : ℕ) : ZMod M) =
      (∑ q, shareTable M x' tape.draws ops w q : ℕ) := by
  have hM := Nat.pos_of_neZero M
  rw [sum_shareTable h hM hown hw, sum_shareTable h hM hown hw]
  refine Finset.sum_congr rfl fun s hs => ?_
  congr 2
  obtain ⟨op, hop, rfl⟩ := List.mem_map.mp (List.mem_toFinset.mp hs)
  obtain ⟨hop, hsource⟩ := List.mem_filter.mp hop
  obtain ⟨done, rest, he⟩ := List.append_of_mem hop
  rw [plaintext_eq h he, plaintext_eq h he]
  cases op with
  | input partyId output => rfl
  | genRandom output =>
      simp only [plainOf]
      rw [Finset.sum_congr rfl fun p _ => genRandom_shift tape he]
  | add left right output => exact absurd hsource (by simp [AdditiveOperation.isSource])
  | reveal inp output => exact absurd hsource (by simp [AdditiveOperation.isSource])

/-- The openings are the same for both inputs, on a tape. -/
def SameOpenings (x x' : Fin n → WireId → ℕ) (ops : List AdditiveOperation) (tape : Tape n M ops) : Prop :=
  ∀ inp output, .reveal inp output ∈ ops →
    (∑ q, shareTable M x tape.draws ops inp q) % M = (∑ q, shareTable M x' tape.draws ops inp q) % M

theorem opening_shift (h : OrderedOperations ops) (hown : ∀ op ∈ ops, op.Owned n)
    (hopen : SameOpenings x x' ops tape) {inp : WireId} (hop : .reveal inp output ∈ ops) :
    (∑ q, shareTable M x' (Tape.draws (tape + shift x x' honest ops)) ops inp q) % M =
      (∑ q, shareTable M x tape.draws ops inp q) % M := by
  obtain ⟨done, rest, he⟩ := List.append_of_mem hop
  have hinp : inp ∈ ops.map AdditiveOperation.output := by
    rw [he, List.map_append]
    exact List.mem_append_left _ (h.ordered done _ rest he inp (by simp [inputs]))
  exact ((ZMod.natCast_eq_natCast_iff _ _ _).mp (sum_shift tape h hown hinp)).trans (hopen inp output hop).symm

/-- **All parties but `honest` hold the same shares** for the other inputs on the shifted tape. -/
theorem shareTable_shift (h : OrderedOperations ops) (hown : ∀ op ∈ ops, op.Owned n)
    (hopen : SameOpenings x x' ops tape) :
    ∀ w ∈ ops.map AdditiveOperation.output, ∀ q, q ≠ honest →
      shareTable M x' (Tape.draws (tape + shift x x' honest ops)) ops w q = shareTable M x tape.draws ops w q := by
  refine h.induction fun done op rest he hreads q hq => ?_
  have hmem : op ∈ ops := by simp [he]
  rw [shareTable_eq h he, shareTable_eq h he]
  cases op with
  | input partyId output =>
      obtain ⟨owner, rfl⟩ : ∃ owner : Fin n, (owner : ℕ) = partyId := ⟨⟨partyId, hown _ hmem partyId rfl⟩, rfl⟩
      exact input_shift tape he hq _ _
  | genRandom output => exact genRandom_shift tape he
  | add left right output =>
      simp only [shareOf]
      rw [hreads left (by simp [inputs]) q hq, hreads right (by simp [inputs]) q hq]
  | reveal inp output => exact opening_shift tape h hown hopen hmem

/-- **What is opened has the same shares at all parties.** -/
theorem opened_shift (h : OrderedOperations ops) (hown : ∀ op ∈ ops, op.Owned n)
    (hopen : SameOpenings x x' ops tape) {inp : WireId} (hop : .reveal inp output ∈ ops) (q : Fin n) :
    shareTable M x' (Tape.draws (tape + shift x x' honest ops)) ops inp q = shareTable M x tape.draws ops inp q := by
  have hM := Nat.pos_of_neZero M
  have hinp : inp ∈ ops.map AdditiveOperation.output := by
    obtain ⟨done, rest, he⟩ := List.append_of_mem hop
    rw [he, List.map_append]
    exact List.mem_append_left _ (h.ordered done _ rest he inp (by simp [inputs]))
  by_cases hq : q = honest
  · subst hq
    -- the sums agree, and so do the shares of the others
    have hsum : ∑ i, shareTable M x' (Tape.draws (tape + shift x x' q ops)) ops inp i ≡
      ∑ i, shareTable M x tape.draws ops inp i [MOD M] := opening_shift tape h hown hopen hop
    rw [← Finset.add_sum_erase _ _ (Finset.mem_univ q), ← Finset.add_sum_erase _ _ (Finset.mem_univ q),
      Finset.sum_congr rfl fun i hi => shareTable_shift tape h hown hopen inp hinp i (Finset.ne_of_mem_erase hi)] at hsum
    have hmod := Nat.ModEq.add_right_cancel' _ hsum
    have hlt' := shareTable_lt (x := x') h (fun p k => Tape.draws_lt (tape + shift x x' q ops) hM p k) hM hinp q
    have hlt := shareTable_lt (x := x) h (fun p k => tape.draws_lt hM p k) hM hinp q
    rwa [Nat.ModEq, Nat.mod_eq_of_lt hlt', Nat.mod_eq_of_lt hlt] at hmod
  · exact shareTable_shift tape h hown hopen inp hinp q hq

theorem shift_eq_zero (hx : x p = x' p) : (shift x x' honest ops : Tape n M ops) p = 0 := by
  have hM := Nat.pos_of_neZero M
  have hzero : ∀ a ∈ ops.flatMap (shiftOf M x x' honest p), a % M = 0 := fun a ha => by
    obtain ⟨op, -, ha⟩ := List.mem_flatMap.mp ha
    unfold shiftOf at ha
    split at ha
    · next partyId output =>
        split at ha
        · obtain ⟨i, -, rfl⟩ := List.mem_map.mp ha
          have hle := Nat.mod_lt (x' p output) hM
          split
          · rw [hx, Nat.add_sub_cancel' (le_of_lt hle), Nat.mod_self]
          · exact Nat.zero_mod M
        · exact absurd ha (by simp)
    · rw [List.eq_of_mem_replicate ha, Nat.zero_mod]
  funext k
  apply Fin.ext
  rw [shift, Fin.val_ofNat, tapeOf, Pi.zero_apply, Fin.val_zero]
  cases hget : (ops.flatMap (shiftOf M x x' honest p))[(k : ℕ)]? with
  | none => exact Nat.zero_mod M
  | some a => exact hzero a (List.mem_of_getElem? hget)

end

end MpcCore
