import MpcCore.CircuitOrder

/-! # The number of rounds of a schedule

The level of an operation is the number of network operations of its phase that have to finish
before it, along the longest chain of producers.

* `MpcCircuit.asSoonAsPossible`: the scheduler places no operation after its level.  A plan that
  stores every wire before it is consumed has every operation at its level, and no other plan with
  the same phases that does so has fewer online rounds.
* `StoredFrom.producer`: in such a plan the producer of what an operation consumes is in an
  earlier round, or a local operation of the same one. -/

namespace MpcCore

open Operation CircuitScheme EdgeList ServiceOrder

variable {S Op : Type} [Operation Op]

/-- The operation is in the round with this number. -/
def Placed (rounds : List (Round Op)) (op : Op) (q : ℕ) : Prop :=
  ∃ round, rounds[q]? = some round ∧ op ∈ round.operations

variable [CircuitScheme S Op]

section levels

variable (scheme : S) (operations : List Op)

/-- The level of an operation that depends on no input, among such operations. -/
noncomputable def offlineLevel (i : ℕ) : ℕ := level (OfflineFeeds operations) (delayAt scheme operations) i

/-- The level of an operation that depends on an input, among such operations. -/
noncomputable def onlineLevel (i : ℕ) : ℕ := level (OnlineFeeds operations) (delayAt scheme operations) i

end levels

/-- Another plan with the same operations in each phase, local and network operations as the
scheme has them. -/
structure SameSplit (circuit plan : MpcCircuit S Op) : Prop where
  offline : plan.offlineOperations.Perm circuit.offlineOperations
  online : plan.onlineOperations.Perm circuit.onlineOperations
  kinds : ∀ round ∈ plan.offlineRounds ++ plan.onlineRounds,
    (∀ op ∈ round.localOperations, isOperationLocal circuit.scheme op = true) ∧
    (∀ op ∈ round.networkOperations, isOperationLocal circuit.scheme op = false)

/-- Every operation is in the round of its level, and the online phase has no more rounds than the
levels need. -/
structure RoundsAreLevels (scheme : S) (operations : List Op) (circuit : MpcCircuit S Op) : Prop where
  offline : ∀ i op q, operations[i]? = some op → Placed circuit.offlineRounds op q →
    q = offlineLevel scheme operations i
  online : ∀ i op q, operations[i]? = some op → Placed circuit.onlineRounds op q →
    q = onlineLevel scheme operations i
  bound : ∀ i < operations.length, InputDependent operations i →
    1 + onlineLevel scheme operations i ≤ circuit.numOnlineRounds
  reached : circuit.numOnlineRounds = 0 ∨ ∃ i < operations.length, InputDependent operations i ∧
    circuit.numOnlineRounds = 1 + onlineLevel scheme operations i
  fewest : ∀ plan, SameSplit circuit plan → plan.StoresBeforeUse →
    circuit.numOnlineRounds ≤ plan.numOnlineRounds

variable {scheme : S} {operations : List Op} {target : Bool} {E : List (ℕ × ℕ)}
  {T₀ init : List ℕ} {D D₁ D₂ : List Entry} {R R₁ R₂ : ℕ}

/-! ### Plans that store before use -/

omit [Operation Op] in
theorem Placed.mem {rounds : List (Round Op)} {op : Op} {q : ℕ} (h : Placed rounds op q) :
    op ∈ rounds.flatMap Round.operations := by
  obtain ⟨round, hr, hop⟩ := h
  exact List.mem_flatMap.mpr ⟨round, List.mem_of_getElem? hr, hop⟩

omit [Operation Op] in
theorem exists_placed {rounds : List (Round Op)} {op : Op} (h : op ∈ rounds.flatMap Round.operations) :
    ∃ q < rounds.length, Placed rounds op q := by
  obtain ⟨round, hr, hop⟩ := List.mem_flatMap.mp h
  obtain ⟨q, hq⟩ := List.getElem?_of_mem hr
  exact ⟨q, (List.getElem?_eq_some_iff.mp hq).1, round, hq, hop⟩

omit [CircuitScheme S Op] in
theorem mem_producedWires_take {rounds : List (Round Op)} {q : ℕ} {w : WireId}
    (h : w ∈ producedWires ((rounds.take q).flatMap Round.operations)) :
    ∃ j < q, ∃ op, Placed rounds op j ∧ w ∈ outputs op := by
  obtain ⟨op, hop, hw⟩ := mem_producedWires.mp h
  obtain ⟨j, hj, round, hr, hop⟩ := exists_placed hop
  have hjq : j < q := hj.trans_le (List.length_take_le _ _)
  rw [List.getElem?_take_of_lt hjq] at hr
  exact ⟨j, hjq, op, ⟨round, hr, hop⟩, hw⟩

omit [CircuitScheme S Op] in
/-- The producer of a consumed wire is in an earlier round, or a local operation of the same one. -/
theorem StoredFrom.producer {rounds : List (Round Op)} (h : StoredFrom [] rounds) {op : Op} {q : ℕ} {w : WireId}
    (hop : Placed rounds op q) (hw : w ∈ inputs op) :
    ∃ j op', Placed rounds op' j ∧ w ∈ outputs op' ∧
      (j < q ∨ j = q ∧ ∃ round ∈ rounds, op' ∈ round.localOperations) := by
  obtain ⟨round, hr, hop⟩ := hop
  obtain ⟨hq, rfl⟩ := List.getElem?_eq_some_iff.mp hr
  have hsplit : rounds = rounds.take q ++ rounds[q] :: rounds.drop (q + 1) := by
    rw [List.getElem_cons_drop, List.take_append_drop]
  have hround := h _ _ _ hsplit
  rw [List.nil_append] at hround
  have hlocal : ∀ op' ∈ rounds[q].localOperations, w ∈ outputs op' →
      ∃ j op', Placed rounds op' j ∧ w ∈ outputs op' ∧
        (j < q ∨ j = q ∧ ∃ round ∈ rounds, op' ∈ round.localOperations) := fun op' hop' hw' =>
    ⟨q, op', ⟨_, hr, List.mem_append_left _ hop'⟩, hw', .inr ⟨rfl, _, List.getElem_mem hq, hop'⟩⟩
  have hearlier : w ∈ producedWires ((rounds.take q).flatMap Round.operations) →
      ∃ j op', Placed rounds op' j ∧ w ∈ outputs op' ∧
        (j < q ∨ j = q ∧ ∃ round ∈ rounds, op' ∈ round.localOperations) := by
    intro hmem
    obtain ⟨j, hj, op', hop', hw'⟩ := mem_producedWires_take hmem
    exact ⟨j, op', hop', hw', .inl hj⟩
  obtain hop | hop := List.mem_append.mp hop
  · obtain ⟨done, rest, hdone⟩ := List.append_of_mem hop
    obtain hmem | hmem := List.mem_append.mp (hround.localOps done op rest hdone w hw)
    · exact hearlier hmem
    · obtain ⟨op', hop', hw'⟩ := mem_producedWires.mp hmem
      exact hlocal op' (by rw [hdone]; simp [hop']) hw'
  · obtain hmem | hmem := List.mem_append.mp (hround.networkOps op hop w hw)
    · exact hearlier hmem
    · obtain ⟨op', hop', hw'⟩ := mem_producedWires.mp hmem
      exact hlocal op' hop' hw'

omit [CircuitScheme S Op] in
/-- With unique producers a wire has one producer. -/
theorem eq_of_mem_outputs {ops : List Op} (hnd : (producedWires ops).Nodup) {op op' : Op} (hop : op ∈ ops)
    (hop' : op' ∈ ops) {w : WireId} (hw : w ∈ outputs op) (hw' : w ∈ outputs op') : op = op' := by
  obtain ⟨l₁, l₂, rfl⟩ := List.append_of_mem hop
  rw [producedWires_append, producedWires, producedWires, List.flatMap_cons, List.nodup_append] at hnd
  obtain ⟨-, h2, h3⟩ := hnd
  rw [List.nodup_append] at h2
  obtain hl | hl := List.mem_append.mp hop'
  · exact absurd rfl (h3 w (List.mem_flatMap.mpr ⟨op', hl, hw'⟩) w (List.mem_append_left _ hw))
  obtain rfl | hl := List.mem_cons.mp hl
  · rfl
  · exact absurd rfl (h2.2.2 w hw w (List.mem_flatMap.mpr ⟨op', hl, hw'⟩))

section plans

variable {circuit plan : MpcCircuit S Op} (h : MpcCircuit.new scheme operations = .ok circuit)
include h

theorem MpcCircuit.scheme_of_new : circuit.scheme = scheme := by
  obtain ⟨_, _, _, _, _, rfl, -⟩ := MpcCircuit.new_ok h
  rfl

omit h [Operation Op] in
theorem SameSplit.operations_perm (hsame : SameSplit circuit plan) : plan.operations.Perm circuit.operations :=
  hsame.offline.append hsame.online

/-- What feeds an operation is placed before it in every plan that stores before use: in an earlier
online round, or in its own when it is local. -/
theorem SameSplit.placed_before (hsame : SameSplit circuit plan) (hstored : plan.StoresBeforeUse) {p c : ℕ}
    (hfeeds : OnlineFeeds operations p c) {op : Op} (hop : operations[c]? = some op) {q : ℕ}
    (hq : Placed plan.onlineRounds op q) :
    ∃ op' j, operations[p]? = some op' ∧ Placed plan.onlineRounds op' j ∧
      j + delayAt scheme operations p ≤ q := by
  obtain ⟨⟨op', op₂, w, hp, hc, hw', hw⟩, hdep⟩ := hfeeds
  obtain rfl : op = op₂ := Option.some.inj (hop.symm.trans hc)
  have hperm : plan.operations.Perm operations :=
    hsame.operations_perm.trans (MpcCircuit.perm_of_new h)
  have hnd : (producedWires plan.operations).Nodup :=
    (producedWires_perm hsame.operations_perm).nodup_iff.mpr (MpcCircuit.uniqueProducers_of_new h)
  have hround : ∀ {o : Op} {k : ℕ}, Placed plan.onlineRounds o k ↔
      Placed (plan.offlineRounds ++ plan.onlineRounds) o (plan.offlineRounds.length + k) := by
    intro o k
    simp only [Placed, List.getElem?_append_right (Nat.le_add_right _ _), Nat.add_sub_cancel_left]
  obtain ⟨j, op₂, hj, hw₂, horder⟩ := StoredFrom.producer hstored (hround.mp hq) hw
  have hall : op₂ ∈ plan.operations := by simpa [MpcCircuit.operations, MpcCircuit.offlineOperations,
    MpcCircuit.onlineOperations] using hj.mem
  obtain rfl : op' = op₂ :=
    eq_of_mem_outputs hnd (hperm.mem_iff.mpr (List.mem_of_getElem? hp)) hall hw' hw₂
  have hge : plan.offlineRounds.length ≤ j := by
    by_contra hlt
    obtain ⟨round, hr, hmem⟩ := hj
    rw [List.getElem?_append_left (not_le.mp hlt)] at hr
    exact (MpcCircuit.mem_offline_iff h hp).mp (hsame.offline.mem_iff.mp (Placed.mem ⟨round, hr, hmem⟩)) hdep
  obtain ⟨k, rfl⟩ := Nat.exists_eq_add_of_le hge
  refine ⟨op', k, hp, hround.mpr hj, ?_⟩
  obtain hlt | ⟨heq, round, hr, hmem⟩ := horder
  · unfold delayAt
    split <;> omega
  · have hlocal := (hsame.kinds round hr).1 op' hmem
    rw [MpcCircuit.scheme_of_new h] at hlocal
    rw [delayAt, isLocalAt_of_getElem? scheme hp, hlocal, if_pos rfl]
    omega

/-- In every plan that stores before use, no operation is placed before its level. -/
theorem SameSplit.weight_le (hsame : SameSplit circuit plan) (hstored : plan.StoresBeforeUse) {c n : ℕ}
    (hpath : PathWeight (OnlineFeeds operations) (delayAt scheme operations) c n) :
    ∀ op q, operations[c]? = some op → Placed plan.onlineRounds op q → n ≤ q := by
  induction hpath with
  | nil => exact fun _ _ _ _ => Nat.zero_le _
  | snoc _ hfeeds ih =>
      intro op q hop hq
      obtain ⟨op', j, hop', hj, hle⟩ := hsame.placed_before h hstored hfeeds hop hq
      have hn := ih op' j hop' hj
      omega

end plans

/-! ### The rounds of a run -/

omit [Operation Op] in
theorem delayAt_le_one (i : ℕ) : delayAt scheme operations i ≤ 1 := by
  unfold delayAt
  split <;> omega

theorem placed_iff {op : Op} {q : ℕ} : Placed ((List.range R).map (roundAt scheme operations target D)) op q ↔
    q < R ∧ ∃ e ∈ scheduled operations target D, e.round = q ∧ operations[e.idx]? = some op := by
  have hround : op ∈ (roundAt scheme operations target D q).operations ↔
      ∃ e ∈ scheduled operations target D, e.round = q ∧ operations[e.idx]? = some op := by
    rw [(operations_roundAt_perm D q).mem_iff, mem_opsAt]
    simp [and_assoc]
  rw [← hround]
  constructor
  · rintro ⟨round, hr, hop⟩
    obtain ⟨hq, rfl⟩ := List.getElem?_eq_some_iff.mp hr
    rw [List.length_map, List.length_range] at hq
    exact ⟨hq, by simpa using hop⟩
  · rintro ⟨hq, hop⟩
    exact ⟨_, by simp [hq], hop⟩

omit [Operation Op] in
/-- What feeds an operation only depends on the operation, so the levels do. -/
theorem level_congr_of_op {P : ℕ → ℕ → Prop} (hP : ∀ p i j, operations[i]? = operations[j]? → P p i → P p j)
    {delay : ℕ → ℕ} {i j : ℕ} (hij : operations[i]? = operations[j]?) : level P delay i = level P delay j := by
  have hsub : ∀ a b, operations[a]? = operations[b]? → ∀ n, PathWeight P delay a n → PathWeight P delay b n := by
    intro a b hab n hn
    cases hn with
    | nil => exact .nil b
    | snoc hw hp => exact .snoc hw (hP _ a b hab hp)
  unfold level
  congr 1
  ext n
  exact ⟨hsub i j hij n, hsub j i hij.symm n⟩

namespace PhaseLog

variable {P first : ℕ → ℕ → Prop} (h : PhaseLog scheme operations target E T₀ init D R)
  (hP : ∀ p i j, operations[i]? = operations[j]? → P p i → P p j)
  (log : ServiceLog P (delayAt scheme operations) first {c | c ∈ D.map Entry.idx}
    {c | c ∈ (scheduled operations target D).map Entry.idx} (posOf D) (roundOf D))
include h hP log

theorem placed_le_level {i : ℕ} {op : Op} {q : ℕ} (hop : operations[i]? = some op)
    (hq : Placed ((List.range R).map (roundAt scheme operations target D)) op q) :
    q ≤ level P (delayAt scheme operations) i := by
  obtain ⟨-, e, he, rfl, heop⟩ := placed_iff.mp hq
  have heD := (mem_scheduled.mp he).1
  have hle := log.round_le_level delayAt_le_one (List.mem_map_of_mem heD)
  rwa [h.roundOf_eq heD, level_congr_of_op hP (heop.trans hop.symm)] at hle

theorem placed_eq_level (hin : InTime P (delayAt scheme operations)
    {c | c ∈ (scheduled operations target D).map Entry.idx} (roundOf D)) {i : ℕ} {op : Op} {q : ℕ}
    (hop : operations[i]? = some op) (hq : Placed ((List.range R).map (roundAt scheme operations target D)) op q) :
    q = level P (delayAt scheme operations) i := by
  obtain ⟨-, e, he, rfl, heop⟩ := placed_iff.mp hq
  have heq := log.level_eq_of_inTime hin (List.mem_map_of_mem he)
  rw [h.roundOf_eq (mem_scheduled.mp he).1, level_congr_of_op hP (heop.trans hop.symm)] at heq
  exact heq.symm

end PhaseLog

namespace BuildLog

variable {producer : PMap WireId ℕ} (b : BuildLog scheme operations producer D₁ D₂ R₁ R₂)
include b

/-- The online rounds are those of the levels, up to the last one there is. -/
theorem numOnlineRounds_cases : (planOf scheme operations D₁ D₂ R₁ R₂).numOnlineRounds = R₂ ∧
    (R₂ = 0 ∨ ∃ i op, operations[i]? = some op ∧ InputDependent operations i ∧ i ∈ D₂.map Entry.idx ∧
      R₂ = 1 + roundOf D₂ i) := by
  refine ⟨by simp [MpcCircuit.numOnlineRounds, planOf], ?_⟩
  obtain h0 | hpos := Nat.eq_zero_or_pos R₂
  · exact .inl h0
  · obtain ⟨e, he, hround⟩ := b.log.online.round_ex (R₂ - 1) (by omega)
    have hsched : e.idx ∈ (scheduled operations false D₂).map Entry.idx :=
      List.mem_map_of_mem (mem_scheduled.mpr ⟨he, rfl⟩)
    have hdep : e.idx ∈ {c | c < operations.length ∧ InputDependent operations c} := by
      rw [← b.scheduled_online]
      exact hsched
    have hlt : e.idx < operations.length := hdep.1
    refine .inr ⟨e.idx, operations[e.idx], List.getElem?_eq_getElem hlt, hdep.2, List.mem_map_of_mem he, ?_⟩
    rw [b.log.online.roundOf_eq he]
    omega

theorem roundsAreLevels (h : MpcCircuit.new scheme operations = .ok (planOf scheme operations D₁ D₂ R₁ R₂))
    (hstored : (planOf scheme operations D₁ D₂ R₁ R₂).StoresBeforeUse) :
    RoundsAreLevels scheme operations (planOf scheme operations D₁ D₂ R₁ R₂) := by
  obtain ⟨hin₁, hin₂⟩ := b.storesBeforeUse_planOf.mp hstored
  obtain ⟨hnum, hlast⟩ := b.numOnlineRounds_cases
  have hlevel : ∀ i < operations.length, InputDependent operations i →
      i ∈ (scheduled operations false D₂).map Entry.idx ∧ onlineLevel scheme operations i = roundOf D₂ i := by
    intro i hi hdep
    have hmem : i ∈ {c | c ∈ (scheduled operations false D₂).map Entry.idx} := by
      rw [b.scheduled_online]
      exact ⟨hi, hdep⟩
    exact ⟨hmem, b.serviceLog_online.level_eq_of_inTime hin₂ hmem⟩
  constructor
  case offline =>
    exact fun i op q hop hq => b.log.offline.placed_eq_level (fun p i j hij hp => ⟨hp.1.congr_right hij, hp.2⟩)
      b.serviceLog_offline hin₁ hop hq
  case online =>
    exact fun i op q hop hq => b.log.online.placed_eq_level (fun p i j hij hp => ⟨hp.1.congr_right hij, hp.2⟩)
      b.serviceLog_online hin₂ hop hq
  case bound =>
    intro i hi hdep
    obtain ⟨hmem, heq⟩ := hlevel i hi hdep
    obtain ⟨e, he, rfl⟩ := List.mem_map.mp hmem
    have heD := (mem_scheduled.mp he).1
    have hlt := b.log.online.round_lt e heD
    rw [heq, hnum, b.log.online.roundOf_eq heD]
    omega
  case reached =>
    rw [hnum]
    obtain h0 | ⟨i, op, hop, hdep, -, hr⟩ := hlast
    · exact .inl h0
    · have hi := (List.getElem?_eq_some_iff.mp hop).1
      exact .inr ⟨i, hi, hdep, by rw [(hlevel i hi hdep).2]; exact hr⟩
  case fewest =>
    intro plan hsame hplan
    rw [hnum]
    obtain rfl | ⟨i, op, hop, hdep, hmem, hr⟩ := hlast
    · exact Nat.zero_le _
    -- the operation of the last round is in the other plan as well, and not earlier there
    have honline : op ∈ plan.onlineOperations :=
      hsame.online.mem_iff.mpr ((MpcCircuit.mem_online_iff h hop).mpr hdep)
    obtain ⟨q, hq, hplaced⟩ := exists_placed honline
    have hle := hsame.weight_le h hplan (b.serviceLog_online.pathWeight_round i hmem) op q hop hplaced
    rw [hr]
    exact (Nat.add_le_add_left hle 1).trans (by unfold MpcCircuit.numOnlineRounds; omega)

end BuildLog

/-- **As soon as possible.** -/
theorem MpcCircuit.asSoonAsPossible {circuit : MpcCircuit S Op}
    (h : MpcCircuit.new scheme operations = .ok circuit) :
    (∀ i < operations.length, ¬ InputDependent operations i →
      IsLevelAt (OfflineFeeds operations) (delayAt scheme operations) (offlineLevel scheme operations) i) ∧
    (∀ i < operations.length, InputDependent operations i →
      IsLevelAt (OnlineFeeds operations) (delayAt scheme operations) (onlineLevel scheme operations) i) ∧
    (∀ i op, operations[i]? = some op →
      (∃ q, Placed circuit.offlineRounds op q ∨ Placed circuit.onlineRounds op q) ∧
      (∀ q, Placed circuit.offlineRounds op q → q ≤ offlineLevel scheme operations i) ∧
      (∀ q, Placed circuit.onlineRounds op q → q ≤ onlineLevel scheme operations i)) ∧
    (circuit.StoresBeforeUse → RoundsAreLevels scheme operations circuit) := by
  have hperm := MpcCircuit.perm_of_new h
  obtain ⟨producer, D₁, D₂, R₁, R₂, rfl, -, b⟩ := MpcCircuit.new_ok h
  refine ⟨?_, ?_, ?_, b.roundsAreLevels h⟩
  · intro i hi hdep
    have hmem : i ∈ {c | c ∈ (scheduled operations true D₁).map Entry.idx} := by
      rw [b.scheduled_offline]
      exact ⟨hi, hdep⟩
    exact b.serviceLog_offline.isLevelAt delayAt_le_one (b.serviceLog_offline.sub i hmem)
  · intro i hi hdep
    have hmem : i ∈ {c | c ∈ (scheduled operations false D₂).map Entry.idx} := by
      rw [b.scheduled_online]
      exact ⟨hi, hdep⟩
    exact b.serviceLog_online.isLevelAt delayAt_le_one (b.serviceLog_online.sub i hmem)
  · intro i op hop
    refine ⟨?_, fun q hq => ?_, fun q hq => ?_⟩
    · obtain hmem | hmem := List.mem_append.mp (hperm.mem_iff.mpr (List.mem_of_getElem? hop))
      · obtain ⟨q, -, hq⟩ := exists_placed hmem
        exact ⟨q, .inl hq⟩
      · obtain ⟨q, -, hq⟩ := exists_placed hmem
        exact ⟨q, .inr hq⟩
    · exact b.log.offline.placed_le_level (fun p i j hij hp => ⟨hp.1.congr_right hij, hp.2⟩)
        b.serviceLog_offline hop hq
    · exact b.log.online.placed_le_level (fun p i j hij hp => ⟨hp.1.congr_right hij, hp.2⟩)
        b.serviceLog_online hop hq

theorem MpcCircuit.asSoonAsPossible_sum : sumCircuit.StoresBeforeUse ∧
    RoundsAreLevels sumCircuit.scheme sumOperations sumCircuit := by
  have hstored : sumCircuit.StoresBeforeUse := by decide
  exact ⟨hstored, (MpcCircuit.asSoonAsPossible new_sumOperations).2.2.2 hstored⟩

end MpcCore
