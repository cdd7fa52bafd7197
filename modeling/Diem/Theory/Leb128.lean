import Mathlib
import Diem.Theory.Bytes

/-!
# Unsigned LEB128

A number as bytes of seven bits each, lowest first, every byte but the last
with its high bit set. `encode` is the canonical encoding, with no group of
zeros after the last non-zero one; a number below `2 ^ (7 * k)` takes at most
`k` bytes (`length_encode_le`).

The byte-level facts a reader of such bytes needs, that the low seven bits of a
byte are its value mod `128`, that its high bit is clear exactly below `128`
and what setting it adds, are stated for `UInt8` at the end, with the
arithmetic of putting a group above the ones read before it.
-/

namespace Leb128

/-- The unsigned LEB128 encoding of `n`. -/
def encode (n : ℕ) : List UInt8 :=
  if n < 128 then [n.toUInt8] else (n % 128 + 128).toUInt8 :: encode (n / 128)
termination_by n
decreasing_by omega

theorem encode_of_lt {n : ℕ} (h : n < 128) : encode n = [n.toUInt8] := by
  rw [encode, if_pos h]

theorem encode_of_le {n : ℕ} (h : 128 ≤ n) : encode n = (n % 128 + 128).toUInt8 :: encode (n / 128) := by
  rw [encode, if_neg (by omega)]

/-- At most `k` bytes for a number below `2 ^ (7 * k)`. -/
theorem length_encode_le {n k : ℕ} (hk : 0 < k) (hn : n < 2 ^ (7 * k)) : (encode n).length ≤ k := by
  induction n using Nat.strong_induction_on generalizing k with
  | _ n ih =>
    rcases Nat.lt_or_ge n 128 with hlt | hge
    · simp [encode_of_lt hlt]
      omega
    · obtain ⟨k, rfl⟩ : ∃ j, k = j + 1 := ⟨k - 1, by omega⟩
      have hk' : 0 < k := by
        rcases Nat.eq_zero_or_pos k with rfl | h
        · simp at hn
          omega
        · exact h
      have hdiv : n / 128 < 2 ^ (7 * k) := by
        rw [Nat.div_lt_iff_lt_mul (by norm_num)]
        calc n < 2 ^ (7 * (k + 1)) := hn
          _ = 2 ^ (7 * k) * 128 := by rw [Nat.mul_succ, pow_add]; norm_num
      rw [encode_of_le hge, List.length_cons]
      have := ih (n / 128) (by omega) hk' hdiv
      omega

end Leb128

/-- A group shifted above the bits read so far adds to them. -/
theorem Nat.or_shiftLeft_eq_add {acc k : ℕ} (b : ℕ) (hacc : acc < 2 ^ k) : acc ||| b <<< k = acc + 2 ^ k * b := by
  rw [Nat.or_comm, ← Nat.shiftLeft_add_eq_or_of_lt hacc, Nat.shiftLeft_eq, Nat.mul_comm, Nat.add_comm]

namespace UInt8

/-- Setting the high bit of a byte below `128`. -/
theorem toNat_or_0x80 {b : UInt8} (hb : b.toNat < 128) : (b ||| 0x80).toNat = b.toNat + 128 := by
  rw [UInt8.toNat_or, show (0x80 : UInt8).toNat = 2 ^ 7 from rfl, Nat.or_two_pow_eq_add_of_lt hb]

/-- The low seven bits of a byte. -/
theorem toNat_and_0x7f (b : UInt8) : (b &&& 0x7f).toNat = b.toNat % 128 := by
  rw [UInt8.toNat_and]
  exact Nat.and_two_pow_sub_one_eq_mod b.toNat 7

/-- The low seven bits of a number, as a byte. -/
theorem toNat_ofNat_and_0x7f (n : ℕ) : (UInt8.ofNat n &&& 0x7f).toNat = n % 128 := by
  rw [toNat_and_0x7f, UInt8.toNat_ofNat', Nat.mod_mod_of_dvd n (by norm_num)]

/-- A byte's high bit is clear exactly below `128`. -/
theorem and_0x80_eq_zero_iff (b : UInt8) : b &&& 0x80 = 0 ↔ b.toNat < 128 := by
  have hlt := b.toNat_lt
  have hbit : b.toNat &&& 128 = (b.toNat.testBit 7).toNat * 128 := Nat.and_two_pow b.toNat 7
  have htest : b.toNat.testBit 7 = false ↔ b.toNat < 128 := by
    constructor
    · intro h
      by_contra hge
      have h' := Nat.testBit_two_pow_add_eq (b.toNat - 128) 7
      rw [Nat.testBit_lt_two_pow (by omega : b.toNat - 128 < 2 ^ 7),
        show 2 ^ 7 + (b.toNat - 128) = b.toNat by omega, h] at h'
      simp at h'
    · exact fun h => Nat.testBit_lt_two_pow (by omega : b.toNat < 2 ^ 7)
  rw [← htest, ← UInt8.toNat_inj, UInt8.toNat_and, show (0x80 : UInt8).toNat = 128 from rfl, hbit]
  cases b.toNat.testBit 7 <;> simp

end UInt8
