import Mathlib
import Diem.Theory.Leb128

/-!
# ULEB128 in the Move binary format

`write_u64_as_uleb128` and `read_uleb128_as_u64` of
`language/move-binary-format/src/file_format_common.rs`: every count and index
of a Move binary is written as ULEB128, and read back with a check that rejects
bits beyond 64 and a last group of zero.

A `u64` is a number below `2 ^ 64`, and `cur << shift` is
`(cur <<< shift) % 2 ^ 64`. `BinaryData` is its byte list, whose `push` fails
when the length would overflow `usize`, and a `Cursor` is the list of the bytes
not yet read. The bounds the writers and readers of types check, and the tags
of the nodes of a type, `SerializedType`, close the module.

The writer appends `Leb128.encode` of its value (`writeU64AsUleb128_eq`), the
reader reads back every value so written and stops right after it
(`readUleb128AsU64_encode`), and every value it accepts is read from exactly its
encoding (`eq_encode_of_readUleb128AsU64`). So the two are inverse bijections
between the `u64`s and their canonical encodings (**`uleb128_bijective`**).
-/

namespace Diem.Move

/-- `BINARY_SIZE_LIMIT`, `usize::max_value()`. -/
def BINARY_SIZE_LIMIT : ℕ := 2 ^ 64 - 1

/-- `BinaryData`. -/
structure BinaryData where
  /-- `_binary`. -/
  binary : List UInt8
  deriving DecidableEq, Repr

namespace BinaryData

/-- `BinaryData::new`. -/
def new : BinaryData := ⟨[]⟩

/-- `BinaryData::len`. -/
def len (b : BinaryData) : ℕ := b.binary.length

/-- `BinaryData::push`: `len().checked_add(1)` in `usize`. -/
def push (b : BinaryData) (item : UInt8) : Except String BinaryData :=
  let len := b.len
  if len + 1 ≤ BINARY_SIZE_LIMIT then .ok ⟨b.binary ++ [item]⟩
  else .error s!"binary size ({len}) + 1 is greater than limit ({BINARY_SIZE_LIMIT})"

theorem push_eq_ok {b : BinaryData} {item : UInt8} (h : b.len + 1 ≤ BINARY_SIZE_LIMIT) :
    b.push item = .ok ⟨b.binary ++ [item]⟩ := by
  simp [push, h]

end BinaryData

/-- `write_u64_as_uleb128`. -/
def writeU64AsUleb128 (binary : BinaryData) (val : ℕ) : Except String BinaryData :=
  let cur := val &&& 0x7f
  if cur ≠ val then
    match binary.push (UInt8.ofNat (cur ||| 0x80)) with
    | .ok binary => writeU64AsUleb128 binary (val >>> 7)
    | .error e => .error e
  else binary.push (UInt8.ofNat cur)
termination_by val
decreasing_by
  rw [Nat.shiftRight_eq_div_pow]
  have : val &&& 2 ^ 7 - 1 ≠ val := by assumption
  rw [Nat.and_two_pow_sub_one_eq_mod] at this
  omega

/-- `read_uleb128_as_u64` from the accumulated `value` and `shift`: one byte
per round of its `while let`, which `read_u8` ends at the end of the bytes. -/
def readUleb128AsU64Loop (value shift : ℕ) : List UInt8 → Except String (ℕ × List UInt8)
  | [] => .error "invalid ULEB128 repr for usize"
  | byte :: cursor =>
    let cur := (byte &&& 0x7f).toNat
    if ((cur <<< shift) % 2 ^ 64) >>> shift ≠ cur then .error "invalid ULEB128 repr for usize"
    else
      let value := value ||| (cur <<< shift) % 2 ^ 64
      if byte &&& 0x80 = 0 then
        if shift > 0 ∧ cur = 0 then .error "invalid ULEB128 repr for usize"
        else .ok (value, cursor)
      else if shift + 7 > 64 then .error "invalid ULEB128 repr for usize"
      else readUleb128AsU64Loop value (shift + 7) cursor

/-- `read_uleb128_as_u64`: the value and the bytes after it. -/
def readUleb128AsU64 (cursor : List UInt8) : Except String (ℕ × List UInt8) :=
  readUleb128AsU64Loop 0 0 cursor

/-! ## The writer -/

/-- The writer's two branches, in arithmetic. -/
theorem writeU64AsUleb128_unfold (binary : BinaryData) (val : ℕ) :
    writeU64AsUleb128 binary val =
      if val < 128 then binary.push val.toUInt8
      else match binary.push (val % 128 + 128).toUInt8 with
        | .ok binary => writeU64AsUleb128 binary (val / 128)
        | .error e => .error e := by
  rw [writeU64AsUleb128]
  have hcur : val &&& 0x7f = val % 128 := Nat.and_two_pow_sub_one_eq_mod val 7
  have hor : val % 128 ||| 0x80 = val % 128 + 128 := by
    have := Nat.two_pow_add_eq_or_of_lt (i := 7) (Nat.mod_lt val (by norm_num)) 1
    rw [Nat.mul_one, Nat.or_comm] at this
    rw [← this, Nat.add_comm]
  simp only [hcur, hor, Nat.shiftRight_eq_div_pow]
  by_cases h : val < 128
  · rw [if_neg (by omega), if_pos h, Nat.mod_eq_of_lt h]
  · rw [if_pos (by omega), if_neg h]

/-- The writer appends the encoding of its value, when the binary has room. -/
theorem writeU64AsUleb128_eq (binary : BinaryData) (val : ℕ)
    (hroom : binary.len + (Leb128.encode val).length ≤ BINARY_SIZE_LIMIT) :
    writeU64AsUleb128 binary val = .ok ⟨binary.binary ++ Leb128.encode val⟩ := by
  induction val using Nat.strong_induction_on generalizing binary with
  | _ val ih =>
    rw [writeU64AsUleb128_unfold]
    by_cases h : val < 128
    · rw [Leb128.encode_of_lt h] at hroom ⊢
      rw [if_pos h, BinaryData.push_eq_ok (by simpa using hroom)]
    · rw [Leb128.encode_of_le (by omega), List.length_cons] at hroom
      rw [if_neg h, BinaryData.push_eq_ok (by omega), Leb128.encode_of_le (by omega)]
      have hroom' : (⟨binary.binary ++ [(val % 128 + 128).toUInt8]⟩ : BinaryData).len +
          (Leb128.encode (val / 128)).length ≤ BINARY_SIZE_LIMIT := by
        simp only [BinaryData.len, List.length_append, List.length_singleton] at hroom ⊢
        omega
      simp only [ih (val / 128) (by omega) _ hroom', List.append_assoc, List.singleton_append]

/-! ## The reader -/

/-- The overflow test passes exactly when `cur << shift` loses no bit. -/
theorem shiftLeft_shiftRight_eq_iff {cur shift : ℕ} :
    ((cur <<< shift) % 2 ^ 64) >>> shift = cur ↔ 2 ^ shift * cur < 2 ^ 64 := by
  rw [Nat.shiftLeft_eq, Nat.shiftRight_eq_div_pow, Nat.mul_comm]
  constructor
  · intro h
    by_contra hge
    have hle : 2 ^ shift * ((2 ^ shift * cur) % 2 ^ 64 / 2 ^ shift) ≤ (2 ^ shift * cur) % 2 ^ 64 :=
      Nat.mul_div_le _ _
    rw [h] at hle
    have := Nat.mod_lt (2 ^ shift * cur) (by positivity : 0 < 2 ^ 64)
    omega
  · intro h
    rw [Nat.mod_eq_of_lt h, Nat.mul_div_cancel_left _ (by positivity)]

/-- The next value of the reader, below `2 ^ (shift + 7)` and still a `u64`. -/
theorem or_shiftLeft_eq {value cur shift : ℕ} (hvalue : value < 2 ^ shift) (hcur : 2 ^ shift * cur < 2 ^ 64) :
    value ||| (cur <<< shift) % 2 ^ 64 = value + 2 ^ shift * cur := by
  rw [Nat.shiftLeft_eq, Nat.mul_comm, Nat.mod_eq_of_lt hcur, Nat.or_comm,
    ← Nat.two_pow_add_eq_or_of_lt hvalue]
  omega

/-- Reading an encoding: from `value` below `2 ^ shift`, the bytes of `y`
followed by anything give `value + 2 ^ shift * y` and what follows, as long as
that is a `u64` and, after the first byte, `y` is not zero. -/
theorem readUleb128AsU64Loop_encode {value shift y : ℕ} (rest : List UInt8) (hvalue : value < 2 ^ shift)
    (hy : value + 2 ^ shift * y < 2 ^ 64) (hpos : 0 < shift → 0 < y) :
    readUleb128AsU64Loop value shift (Leb128.encode y ++ rest) = .ok (value + 2 ^ shift * y, rest) := by
  induction y using Nat.strong_induction_on generalizing value shift with
  | _ y ih =>
    have hshift : shift < 64 := by
      rcases Nat.eq_zero_or_pos shift with h | h
      · omega
      · have : 2 ^ shift ≤ 2 ^ shift * y := Nat.le_mul_of_pos_right _ (hpos h)
        have h64 : 2 ^ shift < 2 ^ 64 := by omega
        exact (Nat.pow_lt_pow_iff_right (by norm_num)).mp h64
    by_cases hlt : y < 128
    · have hbyte : (y.toUInt8).toNat = y := Bytes.toNat_toUInt8 (by omega)
      have hcur : (y.toUInt8 &&& 0x7f).toNat = y := by rw [UInt8.toNat_and_0x7f, hbyte, Nat.mod_eq_of_lt hlt]
      have hfit : 2 ^ shift * y < 2 ^ 64 := by omega
      rw [Leb128.encode_of_lt hlt, List.singleton_append, readUleb128AsU64Loop]
      dsimp only
      rw [hcur, if_neg (not_not.mpr (shiftLeft_shiftRight_eq_iff.mpr hfit)), or_shiftLeft_eq hvalue hfit,
        if_pos ((UInt8.and_0x80_eq_zero_iff y.toUInt8).mpr (by omega)), if_neg (by omega)]
    · have hbyte : ((y % 128 + 128).toUInt8).toNat = y % 128 + 128 := Bytes.toNat_toUInt8 (by omega)
      have hcur : ((y % 128 + 128).toUInt8 &&& 0x7f).toNat = y % 128 := by
        rw [UInt8.toNat_and_0x7f, hbyte]
        omega
      have hy' : 2 ^ shift * y = 2 ^ shift * (y % 128) + 2 ^ (shift + 7) * (y / 128) := by
        rw [pow_add]
        have := Nat.mod_add_div y 128
        calc 2 ^ shift * y = 2 ^ shift * (y % 128 + 128 * (y / 128)) := by rw [this]
          _ = _ := by ring
      have hfit : 2 ^ shift * (y % 128) < 2 ^ 64 := by
        have : 2 ^ shift * (y % 128) ≤ 2 ^ shift * y := Nat.mul_le_mul_left _ (Nat.mod_le _ _)
        omega
      have hnext : shift + 7 ≤ 64 := by
        have h1 : 2 ^ (shift + 7) ≤ 2 ^ (shift + 7) * (y / 128) := Nat.le_mul_of_pos_right _ (by omega)
        have h2 : 2 ^ (shift + 7) < 2 ^ 64 := by omega
        exact ((Nat.pow_lt_pow_iff_right (by norm_num)).mp h2).le
      have hvalue' : value + 2 ^ shift * (y % 128) < 2 ^ (shift + 7) := by
        have : 2 ^ shift * (y % 128) ≤ 2 ^ shift * 127 := Nat.mul_le_mul_left _ (by omega)
        rw [pow_add]
        omega
      rw [Leb128.encode_of_le (by omega), List.cons_append, readUleb128AsU64Loop]
      dsimp only
      rw [hcur, if_neg (not_not.mpr (shiftLeft_shiftRight_eq_iff.mpr hfit)), or_shiftLeft_eq hvalue hfit,
        if_neg (by rw [UInt8.and_0x80_eq_zero_iff, hbyte]; omega), if_neg (by omega),
        ih (y / 128) (by omega) hvalue' (by omega) (fun _ => by omega), hy', Nat.add_assoc]

/-- A `u64` below `2 ^ shift` plus a `u64` multiple of `2 ^ shift` is a `u64`. -/
theorem add_two_pow_mul_lt {value shift cur : ℕ} (hshift : shift ≤ 64) (hvalue : value < 2 ^ shift)
    (hcur : 2 ^ shift * cur < 2 ^ 64) : value + 2 ^ shift * cur < 2 ^ 64 := by
  have h64 : 2 ^ 64 = 2 ^ shift * 2 ^ (64 - shift) := by
    rw [← pow_add]
    congr 1
    omega
  rw [h64] at hcur ⊢
  have hlt : cur < 2 ^ (64 - shift) := Nat.lt_of_mul_lt_mul_left hcur
  calc value + 2 ^ shift * cur < 2 ^ shift * (cur + 1) := by rw [Nat.mul_succ]; omega
    _ ≤ 2 ^ shift * 2 ^ (64 - shift) := Nat.mul_le_mul_left _ hlt

/-- What the reader accepts from `value` below `2 ^ shift` is the encoding of
some `y`, not zero after the first byte, followed by the bytes it leaves; its
value is `value + 2 ^ shift * y`, a `u64`. -/
theorem eq_encode_of_readUleb128AsU64Loop {value shift v : ℕ} {cursor rest : List UInt8}
    (hshift : shift ≤ 64) (hvalue : value < 2 ^ shift)
    (h : readUleb128AsU64Loop value shift cursor = .ok (v, rest)) :
    ∃ y, v = value + 2 ^ shift * y ∧ v < 2 ^ 64 ∧ (0 < shift → 0 < y) ∧ cursor = Leb128.encode y ++ rest := by
  induction cursor generalizing value shift with
  | nil => simp [readUleb128AsU64Loop] at h
  | cons byte cursor ih =>
    rw [readUleb128AsU64Loop] at h
    dsimp only at h
    have hbyte := byte.toNat_lt
    by_cases hover : (((byte &&& 0x7f).toNat <<< shift) % 2 ^ 64) >>> shift = (byte &&& 0x7f).toNat
    case neg => rw [if_pos hover] at h; cases h
    rw [if_neg (not_not.mpr hover)] at h
    have hfit := shiftLeft_shiftRight_eq_iff.mp hover
    by_cases hlast : byte &&& 0x80 = 0
    · -- the last byte: its high bit is clear, so it is its own seven bits
      have hlt := (UInt8.and_0x80_eq_zero_iff byte).mp hlast
      have hcur : (byte &&& 0x7f).toNat = byte.toNat := by rw [UInt8.toNat_and_0x7f, Nat.mod_eq_of_lt hlt]
      rw [if_pos hlast, hcur] at h
      rw [hcur] at hfit
      by_cases hzero : shift > 0 ∧ byte.toNat = 0
      case pos => rw [if_pos hzero] at h; cases h
      rw [if_neg hzero] at h
      obtain ⟨rfl, rfl⟩ := Prod.mk.inj (Except.ok.inj h).symm
      refine ⟨byte.toNat, or_shiftLeft_eq hvalue hfit, ?_, fun hs => by omega, ?_⟩
      · rw [or_shiftLeft_eq hvalue hfit]
        exact add_two_pow_mul_lt hshift hvalue hfit
      · rw [Leb128.encode_of_lt hlt, List.singleton_append, Bytes.toUInt8_toNat]
    · -- seven bits and the high bit: the rest is read from `shift + 7`
      have hge : 128 ≤ byte.toNat := by
        by_contra hlt
        exact hlast ((UInt8.and_0x80_eq_zero_iff byte).mpr (by omega))
      have hcur : (byte &&& 0x7f).toNat = byte.toNat % 128 := UInt8.toNat_and_0x7f byte
      rw [if_neg hlast] at h
      by_cases hmax : shift + 7 > 64
      case pos => rw [if_pos hmax] at h; cases h
      rw [if_neg hmax, hcur] at h
      rw [hcur] at hfit
      rw [or_shiftLeft_eq hvalue hfit] at h
      have hvalue' : value + 2 ^ shift * (byte.toNat % 128) < 2 ^ (shift + 7) := by
        have : 2 ^ shift * (byte.toNat % 128) ≤ 2 ^ shift * 127 := Nat.mul_le_mul_left _ (by omega)
        rw [pow_add]
        omega
      obtain ⟨y, rfl, hv, hy, rfl⟩ := ih (by omega) hvalue' h
      have hy0 := hy (by omega)
      refine ⟨byte.toNat % 128 + 128 * y, by rw [pow_add]; ring, hv, fun _ => by omega, ?_⟩
      have hdiv : (byte.toNat % 128 + 128 * y) / 128 = y := by omega
      have hmod : (byte.toNat % 128 + 128 * y) % 128 + 128 = byte.toNat := by omega
      rw [Leb128.encode_of_le (show 128 ≤ byte.toNat % 128 + 128 * y by omega), hdiv, hmod, Bytes.toUInt8_toNat,
        List.cons_append]

/-! ## Both directions -/

/-- The reader reads back what the writer wrote and stops right after it. -/
theorem readUleb128AsU64_encode {x : ℕ} (hx : x < 2 ^ 64) (rest : List UInt8) :
    readUleb128AsU64 (Leb128.encode x ++ rest) = .ok (x, rest) := by
  have h := @readUleb128AsU64Loop_encode 0 0 x rest (by norm_num) (by simpa using hx)
    (fun h => absurd h (by norm_num))
  simpa [readUleb128AsU64] using h

/-- Every value the reader accepts is a `u64` read from exactly its encoding. -/
theorem eq_encode_of_readUleb128AsU64 {cursor rest : List UInt8} {x : ℕ}
    (h : readUleb128AsU64 cursor = .ok (x, rest)) : x < 2 ^ 64 ∧ cursor = Leb128.encode x ++ rest := by
  obtain ⟨y, rfl, hx, -, rfl⟩ := eq_encode_of_readUleb128AsU64Loop (by norm_num) (by norm_num) h
  simpa using hx

/-- The writer, on a new binary, writes the encoding of a `u64`. -/
theorem writeU64AsUleb128_new {x : ℕ} (hx : x < 2 ^ 64) :
    writeU64AsUleb128 .new x = .ok ⟨Leb128.encode x⟩ := by
  have hlen : (Leb128.encode x).length ≤ 10 := Leb128.length_encode_le (by norm_num) (by omega)
  simpa [BinaryData.new] using
    writeU64AsUleb128_eq BinaryData.new x (by simp [BinaryData.new, BinaryData.len, BINARY_SIZE_LIMIT]; omega)

/-- ULEB128 is a bijection between the `u64`s and their encodings: the
reader reads back what the writer writes and consumes exactly it, and the
prefix it consumes of anything it accepts is what the writer writes of the
value. -/
theorem uleb128_bijective :
    (∀ x < 2 ^ 64, ∀ rest, ∃ binary, writeU64AsUleb128 .new x = .ok binary ∧
      readUleb128AsU64 (binary.binary ++ rest) = .ok (x, rest)) ∧
    (∀ cursor x rest, readUleb128AsU64 cursor = .ok (x, rest) →
      x < 2 ^ 64 ∧ ∃ binary, writeU64AsUleb128 .new x = .ok binary ∧ cursor = binary.binary ++ rest) := by
  refine ⟨fun x hx rest => ⟨_, writeU64AsUleb128_new hx, readUleb128AsU64_encode hx rest⟩, ?_⟩
  intro cursor x rest h
  obtain ⟨hx, rfl⟩ := eq_encode_of_readUleb128AsU64 h
  exact ⟨hx, _, writeU64AsUleb128_new hx, rfl⟩

/-! ## Bounds and tags of types -/

/-- `STRUCT_HANDLE_INDEX_MAX`, `TABLE_INDEX_MAX`. -/
def STRUCT_HANDLE_INDEX_MAX : ℕ := 65535

/-- `SIGNATURE_SIZE_MAX`. -/
def SIGNATURE_SIZE_MAX : ℕ := 255

/-- `TYPE_PARAMETER_COUNT_MAX`. -/
def TYPE_PARAMETER_COUNT_MAX : ℕ := 255

/-- `TYPE_PARAMETER_INDEX_MAX`. -/
def TYPE_PARAMETER_INDEX_MAX : ℕ := 65536

/-- `SIGNATURE_TOKEN_DEPTH_MAX`. -/
def SIGNATURE_TOKEN_DEPTH_MAX : ℕ := 256

/-- `SerializedType`: the tag a node of a type is written with. -/
inductive SerializedType where
  | BOOL
  | U8
  | U64
  | U128
  | ADDRESS
  | REFERENCE
  | MUTABLE_REFERENCE
  | STRUCT
  | TYPE_PARAMETER
  | VECTOR
  | STRUCT_INST
  | SIGNER
  deriving DecidableEq, Repr

/-- `SerializedType as u8`. -/
def SerializedType.toU8 : SerializedType → UInt8
  | .BOOL => 0x1
  | .U8 => 0x2
  | .U64 => 0x3
  | .U128 => 0x4
  | .ADDRESS => 0x5
  | .REFERENCE => 0x6
  | .MUTABLE_REFERENCE => 0x7
  | .STRUCT => 0x8
  | .TYPE_PARAMETER => 0x9
  | .VECTOR => 0xA
  | .STRUCT_INST => 0xB
  | .SIGNER => 0xC

end Diem.Move
