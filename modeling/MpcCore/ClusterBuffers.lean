import MpcCore.ClusterShares
import MpcCore.SecureStream
import MpcCore.Lib.BoundedChannels
import MpcCore.Lib.PrefixCode

/-! # Additive plans over connections of bounded capacity

The parties of an additive computation when a connection holds at most `B` undelivered bytes, and a
bulk send returns only once the connections have accepted all its bytes.

* `Packet.wireSize`: the bytes of a message on a `SecureStream`.
* `Cluster.deadlockFree`: no run gets stuck when in no round there is a cycle of parties, each with a
  message of more than `B` bytes for the next.
* `Cluster.stuck_iff`: with such a cycle some run does.
* `Cluster.swap_stuck`: two parties that exchange inputs of one byte more than fits wait for each other
  for ever, since each receives only after its send has returned. -/

namespace MpcCore

open Operation

/-! ### Bytes on the wire -/

/-- `postcard::to_stdvec` of what is sent to a peer: the bytes of the digests, or the `u64` values. -/
def Message.toStdvec : Message ℕ → List UInt8
  | digests hashes => encodeSeq (encodeSeq fun byte => [byte]) hashes
  | objects elems => encodeSeq varint elems

/-- What `SecureStream::send` writes: the length, the encrypted bytes and the tag. -/
def Message.wireSize (message : Message ℕ) : ℕ :=
  SecureStream.u32Len + (message.toStdvec.length + SecureStream.tagLen)

def Packet.wireSize (packet : Packet ℕ) : ℕ := packet.message.wireSize

theorem Packet.wireSize_pos (packet : Packet ℕ) : 0 < packet.wireSize :=
  Nat.lt_of_lt_of_le (by decide) (Nat.le_add_right SecureStream.u32Len _)

namespace Cluster

variable {M n : ℕ} {circuit : AdditiveCircuit M} {operations : List AdditiveOperation}
  {inputs : Fin n → List (WireId × ℕ)} {draws : Fin n → Draws} {size : Message ℕ → ℕ} {p q : Fin n} {k : ℕ}

abbrev AdditiveByteNet (M n : ℕ) :=
  RoundProgram.ByteNet (Fin n) (AdditiveParty M n) (AdditiveStage M n) (Packet ℕ)

/-- A call of the party has not succeeded. -/
def Failed (net : AdditiveNet M n) (p : Fin n) : Prop :=
  match net.proc p with
  | .idle party => party.outcome ≠ .ok ()
  | .stopped _ => True
  | .busy .. => False

theorem finished_of_count {count : Fin n → ℕ} {net : AdditiveNet M n}
    (hown : ∀ task ∈ circuit.tasks, ∀ op ∈ task.networkOperations, op.Owned n)
    (h : (program inputs).Synced (additiveParties circuit size draws) count net) (hfail : ¬Failed net p)
    (hcount : circuit.tasks.length ≤ count p) : Finished net p := by
  cases hp : net.proc p with
  | stopped party => exact absurd (by rw [Failed, hp]; trivial) hfail
  | idle party =>
      have hstate := (partyAt hown _ p party (h.lock_idle hp)).state
      rw [List.take_of_length_le hcount, stateAfter_tasks] at hstate
      rw [Finished, hp]
      exact hstate
  | busy stage outbox inbox =>
      have htask := (stageAt hown (h.staged hp)).task
      rw [List.getElem?_eq_none hcount] at htask
      exact absurd htask (by simp)

theorem length_le_of_resting {count : Fin n → ℕ} {net : AdditiveNet M n}
    (hown : ∀ task ∈ circuit.tasks, ∀ op ∈ task.networkOperations, op.Owned n)
    (h : (program inputs).Synced (additiveParties circuit size draws) count net) (hfail : ¬Failed net p)
    (hrest : net.Resting (program inputs) p) : circuit.tasks.length ≤ count p := by
  obtain ⟨party, hp⟩ | ⟨party, hp, hstart⟩ := hrest
  · exact absurd (by rw [Failed, hp]; trivial) hfail
  · have hok : party.outcome = .ok () := by
      by_contra hne
      exact hfail (by rw [Failed, hp]; exact hne)
    have htodo := (partyAt hown _ p party (h.lock_idle hp)).todo
    cases hrest : party.todo with
    | nil => exact List.drop_eq_nil_iff.mp (htodo.symm.trans hrest)
    | cons task todo =>
        simp only [program, hok, hrest] at hstart
        split at hstart <;> exact absurd hstart (by simp)

theorem not_failed (hx : Executable n circuit) (hr : Regular M draws circuit.operations)
    (haccept : ∀ p, Accepts circuit p (inputs p)) {net : AdditiveNet M n}
    (hreach : (program inputs).Reachable (RoundProgram.initial (additiveParties circuit size draws)) net) (p : Fin n) :
    ¬Failed net p := by
  have hown := owned_tasks hx.owned
  obtain ⟨count, hsync⟩ := hreach.synced (matched hown)
  intro hfail
  cases hp : net.proc p with
  | busy stage outbox inbox => rw [Failed, hp] at hfail; exact hfail
  | idle party =>
      rw [Failed, hp] at hfail
      exact hfail (valuesAt hx hr _ p party (hsync.lock_idle hp)).ok
  | stopped party =>
      have hat := hsync.proc p
      rw [hp] at hat
      cases hat with
      | @stopped before _ hlock hstop =>
          -- the task it fails to start is one that the lockstep run starts
          obtain ⟨task, todo, _, _, _, htodo, _, _, _⟩ := start_eq_inl hstop
          have hlt : count p < circuit.tasks.length := by
            have hdrop := (partyAt hown _ p before hlock).todo
            rw [htodo] at hdrop
            by_contra hge
            rw [List.drop_of_length_le (Nat.le_of_not_lt hge)] at hdrop
            exact absurd hdrop (by simp)
          obtain ⟨party', hparty'⟩ : ∃ party', (program inputs).lock (additiveParties circuit size draws)
              circuit.tasks.length p = some party' := exists_lock hx hr haccept _ le_rfl p
          obtain ⟨stage, hstage⟩ := RoundProgram.staged_of_lt hparty' hlt
          obtain ⟨before', hbefore', hstart⟩ := RoundProgram.staged_eq_some.mp hstage
          obtain rfl : before = before' := by simpa [hlock] using hbefore'
          rw [hstop] at hstart
          exact absurd hstart (by simp)

theorem exists_step {B : ℕ} (hB : 1 ≤ B) (hown : ∀ task ∈ circuit.tasks, ∀ op ∈ task.networkOperations, op.Owned n)
    (hacyclic : ∀ k p, ¬Relation.TransGen ((program inputs).Oversized Packet.wireSize B
      (additiveParties circuit size draws) k) p p)
    {s : AdditiveByteNet M n}
    (hreach : (program inputs).ByteReachable Packet.wireSize B
      (RoundProgram.byteInitial (additiveParties circuit size draws)) s)
    (hunfinished : ∃ p, ¬Finished s.net p) (hfail : ∀ p, ¬Failed s.net p) :
    ∃ ev s', (program inputs).byteStep Packet.wireSize B s ev = some s' := by
  obtain ⟨count, hsync⟩ := hreach.reachable.synced (matched hown)
  obtain ⟨p₀, hp₀⟩ := hunfinished
  have : Nonempty (Fin n) := ⟨p₀⟩
  obtain hstep | ⟨p, hmin, hrest⟩ :=
    hsync.byteProgress (matched hown) Packet.wireSize_pos hB (hreach.valid Packet.wireSize_pos) hacyclic
  · exact hstep
  · have hlen := length_le_of_resting hown hsync (hfail p) hrest
    exact absurd (finished_of_count hown hsync (hfail p₀) (hlen.trans (hmin p₀))) hp₀

/-- A party on a cycle of oversized messages never finishes. -/
theorem not_finished_of_cycle {B : ℕ}
    (hown : ∀ task ∈ circuit.tasks, ∀ op ∈ task.networkOperations, op.Owned n) {s : AdditiveByteNet M n}
    (hreach : (program inputs).ByteReachable Packet.wireSize B
      (RoundProgram.byteInitial (additiveParties circuit size draws)) s)
    (hcycle : Relation.TransGen ((program inputs).Oversized Packet.wireSize B
      (additiveParties circuit size draws) k) p p) : ¬Finished s.net p := by
  intro hf
  obtain ⟨count, hsync, hbehind⟩ := hreach.behind_of_cycle (matched hown) Packet.wireSize_pos
  obtain ⟨q, hpost, hle⟩ := hbehind p hcycle
  obtain ⟨m, hpost⟩ := Option.isSome_iff_exists.mp hpost
  obtain ⟨stage, hstage, -⟩ := RoundProgram.posted_eq_some.mp hpost
  have hlt := (List.getElem?_eq_some_iff.mp (stageAt hown hstage).task).1
  have hcount := count_of_finished hown hsync hf
  unfold RoundProgram.Net.written at hle
  omega

/-- **Deadlock freedom with bounded connections.**  When in no round the messages of more than `B` bytes
form a cycle of parties, then in every reachable state in which some party has not finished and no
call has failed, some party can take a step; and no call fails when the draws are reduced, the
inputs are accepted and `M` is at most `2 ^ 63`. -/
theorem deadlockFree (hnew : MpcCircuit.new ⟨⟩ operations = .ok circuit) (hstored : circuit.StoresBeforeUse)
    (hown : ∀ op ∈ operations, op.Owned n) (inputs : Fin n → List (WireId × ℕ)) (draws : Fin n → Draws) (B : ℕ)
    (hB : 1 ≤ B)
    (hacyclic : ∀ k p, ¬Relation.TransGen ((program inputs).Oversized Packet.wireSize B
      (additiveParties circuit Message.wireSize draws) k) p p)
    (s : AdditiveByteNet M n)
    (hreach : (program inputs).ByteReachable Packet.wireSize B
      (RoundProgram.byteInitial (additiveParties circuit Message.wireSize draws)) s) :
    ((∃ p, ¬Finished s.net p) → (∀ p, ¬Failed s.net p) →
      ∃ ev s', (program inputs).byteStep Packet.wireSize B s ev = some s') ∧
    (1 ≤ M → M ≤ 2 ^ 63 → (∀ p k, draws p k < M) → (∀ p, Accepts circuit p (inputs p)) →
      ∀ p, ¬Failed s.net p) := by
  have hx := executable_of_new hnew hstored hown
  have hown := owned_tasks hx.owned
  refine ⟨exists_step hB hown hacyclic hreach, fun hpos hle hdraws haccept p => ?_⟩
  exact not_failed hx (hx.regular hpos hle hdraws) haccept hreach.reachable p

/-- Party 0 gives its input to party 1. -/
def handover : AdditiveCircuit 100 := ⟨⟨⟩, [⟨[], []⟩], [⟨[], [.input 0 ⟨0⟩]⟩]⟩

theorem new_handover : MpcCircuit.new ⟨⟩ [AdditiveOperation.input 0 ⟨0⟩] = .ok handover := by decide

/-- Party 0 gives 30. -/
def handoverInputs : Fin 2 → List (WireId × ℕ)
  | 0 => [(⟨0⟩, 30)]
  | 1 => []

/-- Both parties up to the round of the inputs. -/
def toInputs : List (RoundProgram.ByteEvent (Fin 2)) :=
  (List.replicate 5 ((List.finRange 2).flatMap fun p => [.start p, .finish p])).flatten ++
    (List.finRange 2).map .start

theorem deadlockFree_handover : ∃ s,
    (program handoverInputs).byteRun Packet.wireSize 1
      (RoundProgram.byteInitial (additiveParties handover Message.wireSize openedSumDraws))
      (toInputs ++ [.push 0 1]) = some s ∧
    ∃ ev s', (program handoverInputs).byteStep Packet.wireSize 1 s ev = some s' := by
  have hsome : ((program handoverInputs).byteRun Packet.wireSize 1
      (RoundProgram.byteInitial (additiveParties handover Message.wireSize openedSumDraws))
      (toInputs ++ [.push 0 1])).isSome = true := by decide +kernel
  have hunfinished : ∀ s ∈ (program handoverInputs).byteRun Packet.wireSize 1
      (RoundProgram.byteInitial (additiveParties handover Message.wireSize openedSumDraws))
      (toInputs ++ [.push 0 1]), ∃ p, ¬Finished s.net p := by decide +kernel
  obtain ⟨s, hs⟩ := Option.isSome_iff_exists.mp hsome
  have hedge : ∀ k p q, (program handoverInputs).Oversized Packet.wireSize 1
      (additiveParties handover Message.wireSize openedSumDraws) k p q → p = 0 ∧ q = 1 := by
    rintro k p q ⟨m, hposted, -⟩
    obtain ⟨stage, hstage, -⟩ := RoundProgram.posted_eq_some.mp hposted
    have hk : k < 7 := by
      have htask := (stageAt (by decide) hstage).task
      exact (List.getElem?_eq_some_iff.mp htask).1
    have hall : ∀ k < 7, ∀ p q, ((program handoverInputs).posted ((program handoverInputs).lock
        (additiveParties handover Message.wireSize openedSumDraws) k) p q).isSome = true → p = 0 ∧ q = 1 := by
      decide +kernel
    exact hall k hk p q (by rw [hposted]; rfl)
  have hpath : ∀ k p q, Relation.TransGen ((program handoverInputs).Oversized Packet.wireSize 1
      (additiveParties handover Message.wireSize openedSumDraws) k) p q → p = 0 ∧ q = 1 := by
    intro k p q h
    induction h with
    | single h => exact hedge k _ _ h
    | tail _ h ih => exact ⟨ih.1, (hedge k _ _ h).2⟩
  have hfree := deadlockFree new_handover (by decide) (by decide) handoverInputs openedSumDraws 1 le_rfl
    (fun k p h => absurd ((hpath k p p h).1.symm.trans (hpath k p p h).2) (by decide)) s
    (RoundProgram.ByteReachable.refl.run hs)
  refine ⟨s, hs, hfree.1 (hunfinished s hs) ?_⟩
  refine hfree.2 (by decide) (by decide) (fun p k => Nat.mod_lt _ (by decide)) fun p => ?_
  have hperm : ∀ p : Fin 2, (handoverInputs p).map Prod.fst = inputWires handover p := by decide
  exact accepts_of_perm (by revert p; decide) (.of_eq (hperm p))

/-- **When a run can get stuck**: with accepted inputs, exactly when in some round there is a cycle of parties, each
with a message of more than `B` bytes for the next. -/
theorem stuck_iff (hpos : 1 ≤ M) (hle : M ≤ 2 ^ 63) (hnew : MpcCircuit.new ⟨⟩ operations = .ok circuit)
    (hstored : circuit.StoresBeforeUse) (hown : ∀ op ∈ operations, op.Owned n) (inputs : Fin n → List (WireId × ℕ))
    (draws : Fin n → Draws) (hdraws : ∀ p k, draws p k < M) (haccept : ∀ p, Accepts circuit p (inputs p)) (B : ℕ)
    (hB : 1 ≤ B) :
    (∃ s, (program inputs).ByteReachable Packet.wireSize B
        (RoundProgram.byteInitial (additiveParties circuit Message.wireSize draws)) s ∧
      (∃ p, ¬Finished s.net p) ∧ (program inputs).Stuck Packet.wireSize B s) ↔
    ∃ k p, Relation.TransGen ((program inputs).Oversized Packet.wireSize B
      (additiveParties circuit Message.wireSize draws) k) p p := by
  have hx := executable_of_new hnew hstored hown
  have hown := owned_tasks hx.owned
  constructor
  · rintro ⟨s, hreach, hunfinished, hstuck⟩
    by_contra hcycle
    have hacyclic := fun k p hp => hcycle ⟨k, p, hp⟩
    have hfail := not_failed hx (hx.regular hpos hle hdraws) haccept hreach.reachable
    obtain ⟨ev, s', hs⟩ := exists_step hB hown hacyclic hreach hunfinished hfail
    rw [hstuck ev] at hs
    cases hs
  · rintro ⟨k, p, hcycle⟩
    obtain ⟨s, hreach, hstuck⟩ := RoundProgram.ByteReachable.exists_stuck (B := B) (matched hown) Packet.wireSize_pos
      (fun net count hsync => count_le_length hown hsync) .refl
    exact ⟨s, hreach, ⟨p, not_finished_of_cycle hown hreach hcycle⟩, hstuck⟩

/-- Both parties give each other an input. -/
def swapOperations : List AdditiveOperation := [.input 0 ⟨0⟩, .input 1 ⟨1⟩]

/-- Their plan. -/
def swap : AdditiveCircuit 100 := ⟨⟨⟩, [⟨[], []⟩], [⟨[], swapOperations⟩]⟩

/-- Over connections of 21 bytes two parties that exchange shares of 22 bytes on the wire get stuck. -/
theorem swap_stuck : MpcCircuit.new ⟨⟩ swapOperations = .ok swap ∧ swap.StoresBeforeUse ∧
    (∀ op ∈ swapOperations, op.Owned 2) ∧ (∀ p, Accepts swap p (openedSumInputs p)) ∧
    ∃ s, (program openedSumInputs).ByteReachable Packet.wireSize 21
        (RoundProgram.byteInitial (additiveParties swap Message.wireSize openedSumDraws)) s ∧
      (∀ p, ¬Finished s.net p) ∧ (program openedSumInputs).Stuck Packet.wireSize 21 s := by
  refine ⟨by decide, by decide, by decide, fun p => ?_, ?_⟩
  · have hperm : ∀ p : Fin 2, (openedSumInputs p).map Prod.fst = inputWires swap p := by decide
    exact accepts_of_perm (by revert p; decide) (.of_eq (hperm p))
  let events := toInputs ++ List.replicate 21 (.push 0 1) ++ List.replicate 21 (.push 1 0)
  have hsome : ((program openedSumInputs).byteRun Packet.wireSize 21
      (RoundProgram.byteInitial (additiveParties swap Message.wireSize openedSumDraws)) events).isSome = true := by
    decide +kernel
  have hend : ∀ s ∈ (program openedSumInputs).byteRun Packet.wireSize 21
      (RoundProgram.byteInitial (additiveParties swap Message.wireSize openedSumDraws)) events,
      ∀ p, ¬Finished s.net p ∧ ((program openedSumInputs).byteStep Packet.wireSize 21 s (.start p)).isNone ∧
        ((program openedSumInputs).byteStep Packet.wireSize 21 s (.finish p)).isNone ∧
        ∀ q, ((program openedSumInputs).byteStep Packet.wireSize 21 s (.push p q)).isNone ∧
          ((program openedSumInputs).byteStep Packet.wireSize 21 s (.pop p q)).isNone := by
    decide +kernel
  obtain ⟨s, hs⟩ := Option.isSome_iff_exists.mp hsome
  refine ⟨s, RoundProgram.ByteReachable.refl.run hs, fun p => (hend s hs p).1, fun ev => ?_⟩
  cases ev with
  | start p => exact Option.isNone_iff_eq_none.mp (hend s hs p).2.1
  | finish p => exact Option.isNone_iff_eq_none.mp (hend s hs p).2.2.1
  | push p q => exact Option.isNone_iff_eq_none.mp ((hend s hs p).2.2.2 q).1
  | pop p q => exact Option.isNone_iff_eq_none.mp ((hend s hs p).2.2.2 q).2

end Cluster

end MpcCore
