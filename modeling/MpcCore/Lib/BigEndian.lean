import Mathlib.Tactic.Common
import Mathlib.Algebra.GroupWithZero.Nat
import Mathlib.Data.List.Basic

/-! # Big-endian integers

The big-endian bytes of a natural number on a fixed number of bytes, as `to_be_bytes` writes them,
and their injectivity on the numbers that fit (`beBytes_inj`). -/

/-- The last `k` base-256 digits of `n`, the most significant first. -/
def beBytes : ℕ → ℕ → List UInt8
  | 0, _ => []
  | k + 1, n => beBytes k (n / 256) ++ [UInt8.ofNat n]

theorem beBytes_length : ∀ k n : ℕ, (beBytes k n).length = k
  | 0, _ => rfl
  | k + 1, n => by simp [beBytes, beBytes_length k]

theorem toNat_ofNat_mod (n : ℕ) : (UInt8.ofNat n).toNat = n % 256 := by
  simp

/-- Numbers that fit are told apart by their bytes. -/
theorem beBytes_inj : ∀ {k m n : ℕ}, m < 256 ^ k → n < 256 ^ k → beBytes k m = beBytes k n → m = n
  | 0, m, n, hm, hn, _ => by
      simp at hm hn
      omega
  | k + 1, m, n, hm, hn, h => by
      obtain ⟨h1, h2⟩ := List.append_inj' h rfl
      have hlow : m % 256 = n % 256 := by
        rw [← toNat_ofNat_mod m, ← toNat_ofNat_mod n, (List.cons.inj h2).1]
      have hhigh : m / 256 = n / 256 := by
        refine beBytes_inj ?_ ?_ h1
        · rw [Nat.pow_succ] at hm
          exact Nat.div_lt_of_lt_mul (by omega)
        · rw [Nat.pow_succ] at hn
          exact Nat.div_lt_of_lt_mul (by omega)
      omega
