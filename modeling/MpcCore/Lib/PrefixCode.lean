import MpcCore.Lib.BigEndian

/-! # Prefix codes

Encodings that can be read off the front of any byte string: base-128 integers with a continuation
bit, and lists behind their length.

* `IsPrefixCode f`: what is encoded, and what follows it, are determined by the bytes.
* `IsPrefixCode.pair`, `IsPrefixCode.seq`: fields in order, and lists behind their length.
* `Reads`: a reader of what is encoded at the front.  `reads_varint`, `Reads.seq`: 64-bit integers and lists.
* `length_varint_le`, `length_encodeSeq_le`: how long they get. -/

universe u v

variable {α : Type u} {β : Type v}

/-- Two encodings with anything behind them agree only if the values and what follows agree. -/
def IsPrefixCode (f : α → List UInt8) : Prop := ∀ a b r s, f a ++ r = f b ++ s → a = b ∧ r = s

namespace IsPrefixCode

variable {f : α → List UInt8} {g : β → List UInt8}

theorem injective (hf : IsPrefixCode f) : Function.Injective f :=
  fun a b h => (hf a b [] [] (by rw [h])).1

/-- One field after the other. -/
theorem pair (hf : IsPrefixCode f) (hg : IsPrefixCode g) : IsPrefixCode fun p : α × β => f p.1 ++ g p.2 := by
  rintro ⟨a, a'⟩ ⟨b, b'⟩ r s h
  simp only [List.append_assoc] at h
  obtain ⟨rfl, h1⟩ := hf _ _ _ _ h
  obtain ⟨rfl, h2⟩ := hg _ _ _ _ h1
  exact ⟨rfl, h2⟩

/-- The encoding of a part that determines the whole. -/
theorem comp (hf : IsPrefixCode f) {φ : β → α} (hφ : Function.Injective φ) : IsPrefixCode fun b => f (φ b) := by
  intro a b r s h
  obtain ⟨hab, h⟩ := hf _ _ _ _ h
  exact ⟨hφ hab, h⟩

theorem flatMap (hf : IsPrefixCode f) : ∀ (as bs : List α) (r s : List UInt8), as.length = bs.length →
    as.flatMap f ++ r = bs.flatMap f ++ s → as = bs ∧ r = s
  | [], [], r, s, _, h => ⟨rfl, h⟩
  | a :: as, b :: bs, r, s, hlen, h => by
      simp only [List.flatMap_cons, List.append_assoc] at h
      obtain ⟨rfl, h1⟩ := hf _ _ _ _ h
      obtain ⟨rfl, h2⟩ := flatMap hf as bs r s (by simpa using hlen) h1
      exact ⟨rfl, h2⟩

end IsPrefixCode

/-! ### Integers -/

/-- The base-128 digits of `n`, the least significant first, all but the last with the high bit, for
at most the given number of digits. -/
def varintDigits : ℕ → ℕ → List UInt8
  | 0, _ => []
  | fuel + 1, n =>
      if n < 128 then [UInt8.ofNat n] else UInt8.ofNat (n % 128 + 128) :: varintDigits fuel (n / 128)

/-- The base-128 encoding of `n`. -/
def varint (n : ℕ) : List UInt8 := varintDigits (n + 1) n

theorem varintDigits_eq : ∀ {fuel fuel' n : ℕ}, n < fuel → n < fuel' → varintDigits fuel n = varintDigits fuel' n
  | fuel + 1, fuel' + 1, n, h, h' => by
      unfold varintDigits
      by_cases hn : n < 128
      · rw [if_pos hn, if_pos hn]
      · have hlt : n / 128 < n := Nat.div_lt_self (by omega) (by omega)
        rw [if_neg hn, if_neg hn, @varintDigits_eq fuel fuel' _ (by omega) (by omega)]

theorem varint_of_lt {n : ℕ} (h : n < 128) : varint n = [UInt8.ofNat n] := if_pos h

theorem varint_of_le {n : ℕ} (h : 128 ≤ n) :
    varint n = UInt8.ofNat (n % 128 + 128) :: varint (n / 128) := by
  have hlt : n / 128 < n := Nat.div_lt_self (by omega) (by omega)
  unfold varint
  rw [@varintDigits_eq (n / 128 + 1) n _ (by omega) hlt]
  exact if_neg (by omega)

theorem ofNat_inj_of_lt {m n : ℕ} (hm : m < 256) (hn : n < 256) (h : UInt8.ofNat m = UInt8.ofNat n) : m = n := by
  have := congrArg UInt8.toNat h
  rw [toNat_ofNat_mod, toNat_ofNat_mod] at this
  omega

/-- **Integers** are told apart whatever follows them. -/
theorem isPrefixCode_varint : IsPrefixCode varint := by
  intro m
  induction m using Nat.strongRecOn with
  | ind m ih =>
      intro n r s h
      by_cases hm : m < 128
      · rw [varint_of_lt hm] at h
        by_cases hn : n < 128
        · rw [varint_of_lt hn] at h
          obtain ⟨h1, h2⟩ := List.cons.inj h
          exact ⟨ofNat_inj_of_lt (by omega) (by omega) h1, h2⟩
        · rw [varint_of_le (by omega)] at h
          have := ofNat_inj_of_lt (by omega) (by omega) (List.cons.inj h).1
          omega
      · rw [varint_of_le (by omega)] at h
        by_cases hn : n < 128
        · rw [varint_of_lt hn] at h
          have := ofNat_inj_of_lt (by omega) (by omega) (List.cons.inj h).1
          omega
        · rw [varint_of_le (n := n) (by omega)] at h
          obtain ⟨h1, h2⟩ := List.cons.inj h
          have hlow := ofNat_inj_of_lt (by omega) (by omega) h1
          obtain ⟨hhigh, hrest⟩ := ih (m / 128) (by omega) (n / 128) r s h2
          exact ⟨by omega, hrest⟩

/-! ### Lists -/

/-- A list behind its length. -/
def encodeSeq (f : α → List UInt8) (as : List α) : List UInt8 := varint as.length ++ as.flatMap f

/-- **Lists** behind their length. -/
theorem IsPrefixCode.seq {f : α → List UInt8} (hf : IsPrefixCode f) : IsPrefixCode (encodeSeq f) := by
  intro as bs r s h
  simp only [encodeSeq, List.append_assoc] at h
  obtain ⟨hlen, h⟩ := isPrefixCode_varint _ _ _ _ h
  exact hf.flatMap as bs r s hlen h

/-! ### Reading back -/

/-- The reader takes what is encoded off the front, for values of one kind. -/
def Reads (good : α → Prop) (read : List UInt8 → Option (α × List UInt8)) (f : α → List UInt8) : Prop :=
  ∀ a, good a → ∀ rest, read (f a ++ rest) = some (a, rest)

/-- An integer of at most the given number of bytes, the last of which is no more than `last` when all are used:
the low seven bits of each byte, up to the first one without the high bit. -/
def readDigits (last : ℕ) : ℕ → List UInt8 → Option (ℕ × List UInt8)
  | 0, _ | _, [] => none
  | fuel + 1, b :: bytes =>
      if b.toNat < 128 then if fuel = 0 ∧ last < b.toNat then none else some (b.toNat, bytes)
      else (readDigits last fuel bytes).map fun (high, rest) => (b.toNat - 128 + 128 * high, rest)

theorem reads_digits {last : ℕ} (hlast : last < 128) :
    ∀ fuel : ℕ, Reads (· < 128 ^ fuel * (last + 1)) (readDigits last (fuel + 1)) varint := by
  intro fuel
  induction fuel with
  | zero =>
      intro n hn rest
      have hb : (UInt8.ofNat n).toNat = n := by
        rw [toNat_ofNat_mod]
        omega
      rw [varint_of_lt (by omega), List.singleton_append, readDigits, hb, if_pos (by omega), if_neg (by omega)]
  | succ fuel ih =>
      intro n hn rest
      by_cases hlow : n < 128
      · have hb : (UInt8.ofNat n).toNat = n := by
          rw [toNat_ofNat_mod]
          omega
        rw [varint_of_lt hlow, List.singleton_append, readDigits, hb, if_pos hlow, if_neg (by omega)]
      · have hb : (UInt8.ofNat (n % 128 + 128)).toNat = n % 128 + 128 := by
          rw [toNat_ofNat_mod]
          omega
        have hhigh : n / 128 < 128 ^ fuel * (last + 1) :=
          Nat.div_lt_of_lt_mul (by rwa [← Nat.mul_assoc, ← pow_succ'])
        have hsum : n % 128 + 128 - 128 + 128 * (n / 128) = n := by omega
        rw [varint_of_le (by omega), List.cons_append, readDigits, hb, if_neg (by omega), ih _ hhigh]
        simp only [Option.map_some, hsum]

/-- A `u64`: ten bytes at most, and the tenth is 0 or 1. -/
def readVarint : List UInt8 → Option (ℕ × List UInt8) := readDigits 1 10

theorem reads_varint : Reads (· < 2 ^ 64) readVarint varint :=
  fun n hn => reads_digits (by decide) 9 n (by omega)

/-- As many values as are asked for. -/
def readMany (read : List UInt8 → Option (α × List UInt8)) : ℕ → List UInt8 → Option (List α × List UInt8)
  | 0, bytes => some ([], bytes)
  | n + 1, bytes =>
      (read bytes).bind fun (a, rest) => (readMany read n rest).map fun (as, rest) => (a :: as, rest)

theorem Reads.many {good : α → Prop} {read : List UInt8 → Option (α × List UInt8)} {f : α → List UInt8}
    (h : Reads good read f) : ∀ (as : List α) (rest : List UInt8), (∀ a ∈ as, good a) →
      readMany read as.length (as.flatMap f ++ rest) = some (as, rest)
  | [], _, _ => rfl
  | a :: as, rest, hgood => by
      have ih := Reads.many h as rest fun x hx => hgood x (List.mem_cons_of_mem _ hx)
      simp only [List.flatMap_cons, List.append_assoc, List.length_cons, readMany, h a (hgood a List.mem_cons_self),
        Option.bind_some, ih, Option.map_some]

/-- A list behind its length. -/
def readSeq (read : List UInt8 → Option (α × List UInt8)) (bytes : List UInt8) : Option (List α × List UInt8) :=
  (readVarint bytes).bind fun (length, rest) => readMany read length rest

/-- A list whose length is a `u64`, of values of one kind. -/
def ShortSeq (good : α → Prop) (as : List α) : Prop := as.length < 2 ^ 64 ∧ ∀ a ∈ as, good a

instance (good : α → Prop) [DecidablePred good] : DecidablePred (ShortSeq good) :=
  fun as => inferInstanceAs (Decidable (as.length < 2 ^ 64 ∧ ∀ a ∈ as, good a))

/-- **Lists** are read back. -/
theorem Reads.seq {good : α → Prop} {read : List UInt8 → Option (α × List UInt8)} {f : α → List UInt8}
    (h : Reads good read f) : Reads (ShortSeq good) (readSeq read) (encodeSeq f) := by
  intro as hshort rest
  have hlength := reads_varint as.length hshort.1 (as.flatMap f ++ rest)
  simp only [encodeSeq, List.append_assoc, readSeq, hlength, Option.bind_some]
  exact h.many as rest hshort.2

/-! ### Lengths -/

theorem length_varint_le : ∀ {k n : ℕ}, n < 128 ^ (k + 1) → (varint n).length ≤ k + 1
  | 0, n, h => by
      rw [varint_of_lt (by omega)]
      simp
  | k + 1, n, h => by
      by_cases hn : n < 128
      · rw [varint_of_lt hn]
        simp
      · have hlt : n / 128 < 128 ^ (k + 1) := Nat.div_lt_of_lt_mul (by rwa [← pow_succ'])
        rw [varint_of_le (by omega), List.length_cons]
        have := length_varint_le hlt
        omega

theorem length_flatMap_le {β : Type} {f : α → List β} {l : ℕ} : ∀ {as : List α}, (∀ a ∈ as, (f a).length ≤ l) →
    (as.flatMap f).length ≤ as.length * l
  | [], _ => by simp
  | a :: as, h => by
      have ih := length_flatMap_le fun x hx => h x (List.mem_cons_of_mem _ hx)
      have ha := h a List.mem_cons_self
      rw [List.flatMap_cons, List.length_append, List.length_cons, Nat.succ_mul]
      omega

theorem length_encodeSeq_le {f : α → List UInt8} {as : List α} {k l : ℕ} (hlen : as.length < 128 ^ (k + 1))
    (hle : ∀ a ∈ as, (f a).length ≤ l) : (encodeSeq f as).length ≤ k + 1 + as.length * l := by
  have hcount := length_varint_le hlen
  have hrest := length_flatMap_le hle
  rw [encodeSeq, List.length_append]
  omega
