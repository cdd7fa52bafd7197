import Mathlib

/-!
# Fixed-width integers as bytes

`toBe w n` is the `w` bytes of `n`, most significant first, as
`to_be_bytes` writes an unsigned integer of `w` bytes, and `ofBe` reads them
back. Over `w` bytes the two are inverse (`ofBe_toBe`, `toBe_ofBe`), and
the byte-lexicographic order of the bytes is the order of the numbers
(`toBe_lt_toBe_iff`): a big-endian key sorts as its number does. Byte strings
compare as lists, `List.lt`, which is how `Vec<u8>` and `&[u8]` compare in
Rust; `append_lt_append_iff` reads such a comparison of two concatenations off
their first parts when those have one length.
-/

namespace Bytes

/-- The `w` bytes of `n`, most significant first. -/
def toBe : ℕ → ℕ → List UInt8
  | 0, _ => []
  | w + 1, n => (n / 256 ^ w).toUInt8 :: toBe w (n % 256 ^ w)

/-- The number bytes hold, most significant first. -/
def ofBe : List UInt8 → ℕ
  | [] => 0
  | b :: bs => b.toNat * 256 ^ bs.length + ofBe bs

theorem toNat_toUInt8 {n : ℕ} (h : n < 256) : n.toUInt8.toNat = n := by
  simp [Nat.mod_eq_of_lt h]

theorem toUInt8_toNat (b : UInt8) : b.toNat.toUInt8 = b := UInt8.ofNat_toNat

@[simp] theorem length_toBe (w n : ℕ) : (toBe w n).length = w := by
  induction w generalizing n with
  | zero => rfl
  | succ w ih => simp [toBe, ih]

theorem ofBe_lt (bs : List UInt8) : ofBe bs < 256 ^ bs.length := by
  induction bs with
  | nil => simp [ofBe]
  | cons b bs ih =>
    have hb := b.toNat_lt
    rw [ofBe, List.length_cons, pow_succ]
    calc b.toNat * 256 ^ bs.length + ofBe bs < b.toNat * 256 ^ bs.length + 256 ^ bs.length := by omega
      _ = (b.toNat + 1) * 256 ^ bs.length := by ring
      _ ≤ 256 * 256 ^ bs.length := Nat.mul_le_mul_right _ (by simpa using hb)
      _ = 256 ^ bs.length * 256 := Nat.mul_comm _ _

/-- The leading byte of a number of `w + 1` bytes. -/
theorem toNat_div_toUInt8 {w n : ℕ} (hn : n < 256 ^ (w + 1)) : (n / 256 ^ w).toUInt8.toNat = n / 256 ^ w := by
  have : n / 256 ^ w < 256 := by
    rw [Nat.div_lt_iff_lt_mul (by positivity)]
    simpa [pow_succ, Nat.mul_comm] using hn
  exact toNat_toUInt8 this

theorem ofBe_toBe {w n : ℕ} (hn : n < 256 ^ w) : ofBe (toBe w n) = n := by
  induction w generalizing n with
  | zero => simp_all [toBe, ofBe]
  | succ w ih =>
    rw [toBe, ofBe, toNat_div_toUInt8 hn, length_toBe, ih (Nat.mod_lt _ (by positivity))]
    exact Nat.div_add_mod' n (256 ^ w)

theorem toBe_ofBe (bs : List UInt8) : toBe bs.length (ofBe bs) = bs := by
  induction bs with
  | nil => rfl
  | cons b bs ih =>
    have hlt := ofBe_lt bs
    have hdiv : (b.toNat * 256 ^ bs.length + ofBe bs) / 256 ^ bs.length = b.toNat := by
      rw [Nat.add_comm, Nat.add_mul_div_right _ _ (by positivity), Nat.div_eq_of_lt hlt, Nat.zero_add]
    have hmod : (b.toNat * 256 ^ bs.length + ofBe bs) % 256 ^ bs.length = ofBe bs := by
      rw [Nat.add_comm, Nat.add_mul_mod_self_right, Nat.mod_eq_of_lt hlt]
    rw [List.length_cons, ofBe, toBe, hdiv, hmod, ih, toUInt8_toNat]

theorem toBe_injective {w a b : ℕ} (ha : a < 256 ^ w) (hb : b < 256 ^ w) (h : toBe w a = toBe w b) : a = b := by
  rw [← ofBe_toBe ha, ← ofBe_toBe hb, h]

/-- Byte `j` of the `w` bytes of `n`. -/
theorem getElem?_toBe {w n j : ℕ} (hj : j < w) :
    (toBe w n)[j]?.map UInt8.toNat = some (n / 256 ^ (w - 1 - j) % 256) := by
  induction w generalizing n j with
  | zero => exact absurd hj (Nat.not_lt_zero j)
  | succ w ih =>
    cases j with
    | zero => simp [toBe]
    | succ j =>
      rw [toBe, List.getElem?_cons_succ, ih (by omega), show w + 1 - 1 - (j + 1) = w - 1 - j by omega]
      -- the bytes below the leading one are those of `n % 256 ^ w`
      have hsplit : 256 ^ w = 256 ^ (w - 1 - j) * 256 ^ (j + 1) := by
        rw [← pow_add, show w - 1 - j + (j + 1) = w by omega]
      rw [hsplit, Nat.mod_mul_right_div_self, Nat.mod_mod_of_dvd _ (dvd_pow_self 256 (by omega))]

/-- Big-endian bytes sort as their numbers. -/
theorem toBe_lt_toBe_iff {w a b : ℕ} (ha : a < 256 ^ w) (hb : b < 256 ^ w) : toBe w a < toBe w b ↔ a < b := by
  induction w generalizing a b with
  | zero => simp_all
  | succ w ih =>
    have hpos : 0 < 256 ^ w := by positivity
    rw [toBe, toBe, List.cons_lt_cons_iff, UInt8.lt_iff_toNat_lt, toNat_div_toUInt8 ha, toNat_div_toUInt8 hb,
      ih (Nat.mod_lt _ hpos) (Nat.mod_lt _ hpos)]
    constructor
    · rintro (h | ⟨h, hmod⟩)
      · exact Nat.lt_of_div_lt_div h
      · have hq : a / 256 ^ w = b / 256 ^ w := by
          have := congrArg UInt8.toNat h
          rwa [toNat_div_toUInt8 ha, toNat_div_toUInt8 hb] at this
        rw [← Nat.div_add_mod a (256 ^ w), ← Nat.div_add_mod b (256 ^ w), hq]
        omega
    · intro hab
      by_cases hq : a / 256 ^ w = b / 256 ^ w
      · right
        refine ⟨by rw [hq], ?_⟩
        rw [← Nat.div_add_mod a (256 ^ w), ← Nat.div_add_mod b (256 ^ w), hq] at hab
        omega
      · left
        exact lt_of_le_of_ne (Nat.div_le_div_right hab.le) hq

/-- Two concatenations compare on their first parts, when those have one
length, and on the rest when the first parts are equal. -/
theorem append_lt_append_iff {xs ys as bs : List UInt8} (hlen : xs.length = ys.length) :
    xs ++ as < ys ++ bs ↔ xs < ys ∨ xs = ys ∧ as < bs := by
  induction xs generalizing ys with
  | nil =>
    rw [List.length_nil, eq_comm, List.length_eq_zero_iff] at hlen
    subst hlen
    simp [List.not_lt_nil]
  | cons x xs ih =>
    obtain ⟨y, ys, rfl⟩ := List.exists_cons_of_length_eq_add_one hlen.symm
    rw [List.length_cons, List.length_cons, Nat.add_right_cancel_iff] at hlen
    rw [List.cons_append, List.cons_append, List.cons_lt_cons_iff, List.cons_lt_cons_iff, ih hlen,
      List.cons.injEq]
    constructor
    · rintro (h | ⟨rfl, h | ⟨rfl, h⟩⟩)
      · exact .inl (.inl h)
      · exact .inl (.inr ⟨rfl, h⟩)
      · exact .inr ⟨⟨rfl, rfl⟩, h⟩
    · rintro ((h | ⟨rfl, h⟩) | ⟨⟨rfl, rfl⟩, h⟩)
      · exact .inl h
      · exact .inr ⟨rfl, .inl h⟩
      · exact .inr ⟨rfl, .inr ⟨rfl, h⟩⟩

end Bytes
