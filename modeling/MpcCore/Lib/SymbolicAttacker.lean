import Mathlib.Data.Multiset.Count
import Mathlib.Data.Set.Basic

/-! # What a network attacker can derive

Ideal signatures and ideal Diffie-Hellman exchanges over terms.  A power is the generator raised to a
product of secrets, so the order of the exponents does not matter, and no secret can be divided out.

* `Derives`: an attacker signs with the keys it has, and raises powers to the secrets it has.
* `Derives.signature_mem`: signatures under a key it does not have are those it has seen.
* `Derives.countP_le_one`: from powers with at most one hidden exponent each, only such powers. -/

/-- What is sent, and what an attacker may know. -/
inductive Term (Secret Key : Type) where
  | secret (x : Secret)
  | power (exponents : Multiset Secret)
  | signingKey (k : Key)
  | signature (k : Key) (payload : List (Multiset Secret))

variable {Secret Key : Type} {known known' : Set (Term Secret Key)}

/-- The terms an attacker can derive.  A signature shows what it signs. -/
inductive Derives (known : Set (Term Secret Key)) : Term Secret Key → Prop where
  | known {t : Term Secret Key} (h : t ∈ known) : Derives known t
  | generator : Derives known (.power 0)
  | raise {x : Secret} {exponents : Multiset Secret} (hx : Derives known (.secret x))
      (h : Derives known (.power exponents)) : Derives known (.power (x ::ₘ exponents))
  | sign {k : Key} {payload : List (Multiset Secret)} (hk : Derives known (.signingKey k))
      (h : ∀ exponents ∈ payload, Derives known (.power exponents)) : Derives known (.signature k payload)
  | read {k : Key} {payload : List (Multiset Secret)} {exponents : Multiset Secret}
      (h : Derives known (.signature k payload)) (hmem : exponents ∈ payload) : Derives known (.power exponents)

namespace Derives

theorem mono (hsub : known ⊆ known') {t : Term Secret Key} (h : Derives known t) : Derives known' t := by
  induction h with
  | known h => exact .known (hsub h)
  | generator => exact .generator
  | raise _ _ ihx ih => exact .raise ihx ih
  | sign _ _ ihk ih => exact .sign ihk ih
  | read _ hmem ih => exact .read ih hmem

theorem signingKey_mem {k : Key} (h : Derives known (.signingKey k)) : .signingKey k ∈ known := by
  cases h with
  | known h => exact h

/-- **Unforgeability**: a signature under a key that the attacker does not have is one it has seen. -/
theorem signature_mem {k : Key} {payload : List (Multiset Secret)} (hk : .signingKey k ∉ known)
    (h : Derives known (.signature k payload)) : .signature k payload ∈ known := by
  cases h with
  | known h => exact h
  | sign hkey _ => exact absurd hkey.signingKey_mem hk

variable (hidden : Secret → Prop) [DecidablePred hidden]

/-- The term shows no hidden secret, and no power of two hidden exponents. -/
def Shows : Term Secret Key → Prop
  | .secret x => ¬hidden x
  | .power exponents => exponents.countP hidden ≤ 1
  | .signingKey _ => True
  | .signature _ payload => ∀ exponents ∈ payload, exponents.countP hidden ≤ 1

theorem shows (hknown : ∀ t ∈ known, Shows hidden t) {t : Term Secret Key} (h : Derives known t) :
    Shows hidden t := by
  induction h with
  | known h => exact hknown _ h
  | generator => exact Nat.zero_le 1
  | raise _ _ hx ih =>
      have hx : ¬hidden _ := hx
      have ih : Multiset.countP hidden _ ≤ 1 := ih
      rwa [Shows, Multiset.countP_cons_of_neg _ hx]
  | sign _ _ _ ih => exact ih
  | read _ hmem ih => exact ih _ hmem

/-- **Diffie-Hellman secrecy**: no power with two hidden exponents can be derived. -/
theorem countP_le_one (hknown : ∀ t ∈ known, Shows hidden t) {exponents : Multiset Secret}
    (h : Derives known (.power exponents)) : exponents.countP hidden ≤ 1 :=
  shows hidden hknown h

end Derives
