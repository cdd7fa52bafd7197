import Mathlib

/-!
# Nibble paths

`NibblePath` of `types/src/nibble/nibble_path/mod.rs`: a path of at most
`ROOT_NIBBLE_HEIGHT` nibbles of a Jellyfish Merkle tree, packed two to a byte,
high nibble first. An odd path has one byte more than its pairs of nibbles, and
the low nibble of that byte is zero.

The invariant of the struct's comment, and of the checks of its constructors,
is carried as fields, so that a path that breaks it cannot be built. `push` and
`pop` mutate the two fields in place, so the operations are translated on the
bare pair `Raw`, with a panic as `none`, and `Raw.WellFormed` is the invariant.
A `Nibble` is a `Fin 16`; the `assert!` of `Nibble::from(u8)` is proved where it
is called (`nibbleFrom`). `BitIterator` and `get_bit` are not modelled.

Every path built by `new`, `new_odd`, `push`, `pop`, `collect` or
`get_nibble_path` is well formed (`Built.wellFormed`). On a well-formed path
`push` appends a nibble and `pop` removes the last (`push_spec`, `pop_spec`), and
a well-formed path is determined by its nibbles (`eq_of_getNibble`), so the
derived `Eq`, `Ord` and `Hash` see it through them and push then pop gives the
path back field for field (**`pop_push`**).
-/

namespace Diem

/-- `ROOT_NIBBLE_HEIGHT`. -/
def ROOT_NIBBLE_HEIGHT : ℕ := 64

/-- `NibblePath`. -/
structure NibblePath where
  /-- `num_nibbles`. -/
  numNibbles : ℕ
  /-- `bytes`. -/
  bytes : List UInt8
  /-- `num_nibbles <= ROOT_NIBBLE_HEIGHT`. -/
  numNibbles_le : numNibbles ≤ ROOT_NIBBLE_HEIGHT
  /-- Either `bytes.len() * 2 - 1` or `bytes.len() * 2` nibbles. -/
  length_bytes : bytes.length = (numNibbles + 1) / 2
  /-- "If the number of nibbles is odd, the second half of the last byte must be 0." -/
  padding : numNibbles % 2 = 1 → ∀ b ∈ bytes.getLast?, b &&& 0x0f = 0

namespace NibblePath

@[ext] theorem ext {p q : NibblePath} (hn : p.numNibbles = q.numNibbles) (hb : p.bytes = q.bytes) : p = q := by
  cases p
  cases q
  cases hn
  cases hb
  rfl

/-- `NibblePath::new`: two nibbles a byte. -/
def new (bytes : List UInt8) (h : bytes.length ≤ ROOT_NIBBLE_HEIGHT / 2) : NibblePath where
  numNibbles := bytes.length * 2
  bytes := bytes
  numNibbles_le := by unfold ROOT_NIBBLE_HEIGHT at *; omega
  length_bytes := by omega
  padding := fun h => by omega

@[simp] theorem numNibbles_new (bytes : List UInt8) (h) : (new bytes h).numNibbles = bytes.length * 2 := rfl

@[simp] theorem bytes_new (bytes : List UInt8) (h) : (new bytes h).bytes = bytes := rfl

/-- `NibblePath::new_odd`: one nibble less, the last byte's low nibble zero. -/
def newOdd (bytes : List UInt8) (h : bytes.length ≤ ROOT_NIBBLE_HEIGHT / 2) (hne : bytes ≠ [])
    (hlast : bytes.getLast hne &&& 0x0f = 0) : NibblePath where
  numNibbles := bytes.length * 2 - 1
  bytes := bytes
  numNibbles_le := by unfold ROOT_NIBBLE_HEIGHT at *; omega
  length_bytes := by
    have := List.length_pos_of_ne_nil hne
    omega
  padding := fun _ b hb => by
    rw [List.getLast?_eq_some_getLast hne, Option.mem_some_iff] at hb
    rw [← hb, hlast]

@[simp] theorem numNibbles_newOdd (bytes : List UInt8) (h hne hlast) :
    (newOdd bytes h hne hlast).numNibbles = bytes.length * 2 - 1 := rfl

@[simp] theorem bytes_newOdd (bytes : List UInt8) (h hne hlast) : (newOdd bytes h hne hlast).bytes = bytes := rfl

/-- The derived `Ord`: `num_nibbles`, then `bytes`. -/
def Lt (p q : NibblePath) : Prop :=
  p.numNibbles < q.numNibbles ∨ p.numNibbles = q.numNibbles ∧ p.bytes < q.bytes

/-- The fields `num_nibbles` and `bytes`, as `push` and `pop` mutate them. -/
structure Raw where
  /-- `num_nibbles`. -/
  numNibbles : ℕ
  /-- `bytes`. -/
  bytes : List UInt8
  deriving DecidableEq, Repr

/-- The invariant of `NibblePath`: the conditions its fields carry. -/
structure Raw.WellFormed (p : Raw) : Prop where
  numNibbles_le : p.numNibbles ≤ ROOT_NIBBLE_HEIGHT
  length_bytes : p.bytes.length = (p.numNibbles + 1) / 2
  padding : p.numNibbles % 2 = 1 → ∀ b ∈ p.bytes.getLast?, b &&& 0x0f = 0

instance (p : Raw) : Decidable p.WellFormed :=
  decidable_of_iff (p.numNibbles ≤ ROOT_NIBBLE_HEIGHT ∧ p.bytes.length = (p.numNibbles + 1) / 2 ∧
      (p.numNibbles % 2 = 1 → ∀ b ∈ p.bytes.getLast?, b &&& 0x0f = 0))
    ⟨fun ⟨h1, h2, h3⟩ => ⟨h1, h2, h3⟩, fun ⟨h1, h2, h3⟩ => ⟨h1, h2, h3⟩⟩

/-- The fields of a path. -/
def toRaw (p : NibblePath) : Raw := ⟨p.numNibbles, p.bytes⟩

theorem wellFormed_toRaw (p : NibblePath) : p.toRaw.WellFormed :=
  ⟨p.numNibbles_le, p.length_bytes, p.padding⟩

/-! ## The nibbles of a byte -/

section Byte

@[simp] theorem toNat_and_low (b : UInt8) : (b &&& 0x0f).toNat = b.toNat % 16 := by
  rw [UInt8.toNat_and]
  exact Nat.and_two_pow_sub_one_eq_mod b.toNat 4

@[simp] theorem toNat_shiftRight_four (b : UInt8) : (b >>> 4).toNat = b.toNat / 16 := by
  rw [UInt8.toNat_shiftRight]
  exact Nat.shiftRight_eq_div_pow b.toNat 4

@[simp] theorem toNat_shiftLeft_four (b : UInt8) : (b <<< 4).toNat = b.toNat * 16 % 256 := by
  rw [UInt8.toNat_shiftLeft]
  exact congrArg (· % 256) (Nat.shiftLeft_eq b.toNat 4)

theorem and_high_eq : ∀ n < 256, n &&& 240 = n / 16 * 16 := by decide +kernel

@[simp] theorem toNat_and_high (b : UInt8) : (b &&& 0xf0).toNat = b.toNat / 16 * 16 := by
  rw [UInt8.toNat_and]
  exact and_high_eq b.toNat b.toNat_lt

/-- Or-ing a nibble into a byte whose low half is zero adds it. -/
theorem toNat_or_low {b y : UInt8} (hb : b.toNat % 16 = 0) (hy : y.toNat < 16) :
    (b ||| y).toNat = b.toNat + y.toNat := by
  have hsplit : b.toNat = 2 ^ 4 * (b.toNat / 16) := by omega
  rw [UInt8.toNat_or, hsplit, ← Nat.two_pow_add_eq_or_of_lt hy]

/-- `u8::from(nibble)`. -/
@[simp] theorem toNat_ofNat_val (x : Fin 16) : (UInt8.ofNat x.val).toNat = x.val := by
  rw [UInt8.toNat_ofNat']
  exact Nat.mod_eq_of_lt (by omega)

theorem toNat_or_ofNat {b : UInt8} (hb : b.toNat % 16 = 0) (x : Fin 16) :
    (b ||| UInt8.ofNat x.val).toNat = b.toNat + x.val := by
  rw [toNat_or_low hb (by rw [toNat_ofNat_val]; exact x.isLt), toNat_ofNat_val]

theorem and_low_eq_zero_iff (b : UInt8) : b &&& 0x0f = 0 ↔ b.toNat % 16 = 0 := by
  rw [← UInt8.toNat_inj, toNat_and_low, UInt8.toNat_zero]

theorem toNat_and_low_lt (b : UInt8) : (b &&& 0x0f).toNat < 16 := by
  rw [toNat_and_low]
  omega

theorem toNat_shiftRight_four_lt (b : UInt8) : (b >>> 4).toNat < 16 := by
  have := b.toNat_lt
  rw [toNat_shiftRight_four]
  omega

/-- `Nibble::from(u8)`; its `assert!(nibble < 16)` is proved at each call,
where the byte has been masked or shifted first. -/
def nibbleFrom (b : UInt8) (h : b.toNat < 16) : Fin 16 := ⟨b.toNat, h⟩

@[simp] theorem val_nibbleFrom (b : UInt8) (h) : (nibbleFrom b h).val = b.toNat := rfl

/-- The nibble `get_nibble(i)` reads from the byte `bytes[i / 2]`: the low half
for an odd `i`, the high half for an even one. -/
def byteNibble (b : UInt8) (i : ℕ) : Fin 16 :=
  nibbleFrom ((b >>> (if i % 2 = 1 then 0 else 4)) &&& 0xf) (toNat_and_low_lt _)

@[simp] theorem val_byteNibble (b : UInt8) (i : ℕ) :
    (byteNibble b i).val = if i % 2 = 1 then b.toNat % 16 else b.toNat / 16 := by
  have := b.toNat_lt
  rw [byteNibble, val_nibbleFrom, toNat_and_low]
  split_ifs
  · simp
  · rw [toNat_shiftRight_four]
    omega

end Byte

/-! ## The operations -/

namespace Raw

/-- `NibblePath::new`; `none` where `checked_precondition!` fails. -/
def new (bytes : List UInt8) : Option Raw :=
  if bytes.length ≤ ROOT_NIBBLE_HEIGHT / 2 then some ⟨bytes.length * 2, bytes⟩ else none

/-- `NibblePath::new_odd`; `none` where `checked_precondition!`, the `expect`
on the last byte or the `assert_eq!` on its low half fails. -/
def newOdd (bytes : List UInt8) : Option Raw :=
  if bytes.length ≤ ROOT_NIBBLE_HEIGHT / 2 then
    match bytes.getLast? with
    | some last => if last &&& 0x0f = 0 then some ⟨bytes.length * 2 - 1, bytes⟩ else none
    | none => none
  else none

/-- `NibblePath::push`; `none` where the `assert!` or the index
`bytes[num_nibbles / 2]` fails. -/
def push (p : Raw) (nibble : Fin 16) : Option Raw :=
  if ROOT_NIBBLE_HEIGHT > p.numNibbles then
    if p.numNibbles % 2 = 0 then
      some ⟨p.numNibbles + 1, p.bytes ++ [UInt8.ofNat nibble.val <<< 4]⟩
    else if h : p.numNibbles / 2 < p.bytes.length then
      some ⟨p.numNibbles + 1,
        p.bytes.set (p.numNibbles / 2) (p.bytes[p.numNibbles / 2] ||| UInt8.ofNat nibble.val)⟩
    else none
  else none

/-- `NibblePath::pop`: the nibble popped and the path after. On an even
length it clears the low half of the last byte in place (`last_mut`), on an
odd one it drops the last byte. -/
def pop (p : Raw) : Option (Fin 16) × Raw :=
  -- `num_nibbles -= 1` follows a popped nibble only: on a well-formed path a
  -- last byte means at least one nibble, so it cannot go below zero
  if p.numNibbles % 2 = 0 then
    match p.bytes.getLast? with
    | some last =>
      (some (nibbleFrom (last &&& 0x0f) (toNat_and_low_lt last)),
        ⟨p.numNibbles - 1, p.bytes.dropLast ++ [last &&& 0xf0]⟩)
    | none => (none, p)
  else
    match p.bytes.getLast? with
    | some byte => (some (nibbleFrom (byte >>> 4) (toNat_shiftRight_four_lt byte)), ⟨p.numNibbles - 1, p.bytes.dropLast⟩)
    | none => (none, p)

/-- `NibblePath::last`; the outer `none` is the panic of its `expect` on an
odd path with no bytes. -/
def last (p : Raw) : Option (Option (Fin 16)) :=
  if p.numNibbles % 2 = 0 then
    some (p.bytes.getLast?.map fun (lastByte : UInt8) =>
      nibbleFrom (lastByte &&& 0x0f) (toNat_and_low_lt lastByte))
  else
    p.bytes.getLast?.map fun (lastByte : UInt8) =>
      some (nibbleFrom (lastByte >>> 4) (toNat_shiftRight_four_lt lastByte))

/-- `NibblePath::get_nibble`; `none` where its `assert!` or the index fails. -/
def getNibble (p : Raw) (i : ℕ) : Option (Fin 16) :=
  if i < p.numNibbles then p.bytes[i / 2]?.map (byteNibble · i) else none

/-- `FromIterator::from_iter`: each nibble pushed in turn onto
`NibblePath::new(vec![])`. -/
def fromIter (nibbles : List (Fin 16)) : Option Raw := do
  let nibblePath ← new []
  nibbles.foldlM push nibblePath

end Raw

/-- `NibbleIterator`: the path, the range `pos` of the indices still to yield,
and the `start` of the range it covers. -/
structure NibbleIterator where
  /-- `nibble_path`. -/
  nibblePath : Raw
  /-- `pos.start`. -/
  posStart : ℕ
  /-- `pos.end`. -/
  posEnd : ℕ
  /-- `start`. -/
  start : ℕ

namespace NibbleIterator

/-- `NibbleIterator::new`. -/
def new (nibblePath : Raw) (start «end» : ℕ) : NibbleIterator := ⟨nibblePath, start, «end», start⟩

/-- What `next` yields until it returns `None`: `get_nibble(i)` for each `i` of
`pos` in turn; `none` if one of them panics. -/
def toList (it : NibbleIterator) : Option (List (Fin 16)) :=
  (List.range' it.posStart (it.posEnd - it.posStart)).mapM it.nibblePath.getNibble

/-- `NibbleIterator::visited_nibbles`. -/
def visitedNibbles (it : NibbleIterator) : NibbleIterator := new it.nibblePath it.start it.posStart

/-- `NibbleIterator::remaining_nibbles`. -/
def remainingNibbles (it : NibbleIterator) : NibbleIterator := new it.nibblePath it.posStart it.posEnd

/-- `NibbleIterator::get_nibble_path`: the visited and the remaining nibbles,
chained and collected. -/
def getNibblePath (it : NibbleIterator) : Option Raw := do
  let visited ← it.visitedNibbles.toList
  let remaining ← it.remainingNibbles.toList
  Raw.fromIter (visited ++ remaining)

end NibbleIterator

/-- `NibblePath::nibbles`. -/
def Raw.nibbles (p : Raw) : NibbleIterator := NibbleIterator.new p 0 p.numNibbles

/-! ## What each operation does to the nibbles -/

section Nibbles

/-- The high half of a pushed nibble's byte is the nibble. -/
theorem byteNibble_shiftLeft (x : Fin 16) {i : ℕ} (hi : i % 2 = 0) :
    byteNibble (UInt8.ofNat x.val <<< 4) i = x := by
  ext
  simp only [val_byteNibble, hi, Nat.zero_ne_one, if_false, toNat_shiftLeft_four, toNat_ofNat_val]
  omega

theorem byteNibble_or_of_odd {b : UInt8} (hb : b.toNat % 16 = 0) (x : Fin 16) {i : ℕ} (hi : i % 2 = 1) :
    byteNibble (b ||| UInt8.ofNat x.val) i = x := by
  ext
  simp only [val_byteNibble, hi, if_true, toNat_or_ofNat hb]
  omega

theorem byteNibble_or_of_even {b : UInt8} (hb : b.toNat % 16 = 0) (x : Fin 16) {i : ℕ} (hi : i % 2 = 0) :
    byteNibble (b ||| UInt8.ofNat x.val) i = byteNibble b i := by
  ext
  simp only [val_byteNibble, hi, Nat.zero_ne_one, if_false, toNat_or_ofNat hb]
  omega

theorem byteNibble_and_high_of_even (b : UInt8) {i : ℕ} (hi : i % 2 = 0) :
    byteNibble (b &&& 0xf0) i = byteNibble b i := by
  ext
  simp only [val_byteNibble, hi, Nat.zero_ne_one, if_false, toNat_and_high]
  omega

end Nibbles

namespace Raw

variable {p q : Raw}

theorem getNibble_of_lt {i : ℕ} (hi : i < p.numNibbles) :
    p.getNibble i = p.bytes[i / 2]?.map (byteNibble · i) := if_pos hi

@[simp] theorem getNibble_of_le {i : ℕ} (hi : p.numNibbles ≤ i) : p.getNibble i = none :=
  if_neg (Nat.not_lt.2 hi)

/-- `get_nibble` on a path whose bytes end in `b`. -/
theorem getNibble_of_bytes_eq {init : List UInt8} {b : UInt8} (h : p.bytes = init ++ [b]) {i : ℕ}
    (hi : i < p.numNibbles) :
    p.getNibble i = if i / 2 < init.length then init[i / 2]?.map (byteNibble · i)
      else if i / 2 = init.length then some (byteNibble b i) else none := by
  rw [getNibble_of_lt hi, h, List.getElem?_append]
  split_ifs with h1 h2
  · rfl
  · simp [h2]
  · rw [List.getElem?_singleton, if_neg (by omega), Option.map_none]

namespace WellFormed

/-- A non-empty well-formed path ends in a byte, after the bytes of its first
pairs of nibbles. -/
theorem exists_last (hp : p.WellFormed) (hpos : 0 < p.numNibbles) :
    ∃ init b, p.bytes = init ++ [b] ∧ init.length = (p.numNibbles - 1) / 2 := by
  have hlen := hp.length_bytes
  rcases List.eq_nil_or_concat p.bytes with h | ⟨init, b, h⟩
  · rw [h, List.length_nil] at hlen
    omega
  · rw [List.concat_eq_append] at h
    rw [h, List.length_append, List.length_singleton] at hlen
    exact ⟨init, b, h, by omega⟩

/-- The last byte of an odd path has a zero low half. -/
theorem low_last (hp : p.WellFormed) (hodd : p.numNibbles % 2 = 1) {init : List UInt8} {b : UInt8}
    (h : p.bytes = init ++ [b]) : b.toNat % 16 = 0 :=
  (and_low_eq_zero_iff b).1 (hp.padding hodd b (by simp [h]))

/-- The byte that ends an odd path has a zero low half. -/
theorem low_getElem (hp : p.WellFormed) {k : ℕ} {hk : k < p.bytes.length} (hodd : p.numNibbles = 2 * k + 1) :
    p.bytes[k].toNat % 16 = 0 := by
  have hlen := hp.length_bytes
  have hlast : p.bytes.getLast? = some p.bytes[k] := by
    rw [List.getLast?_eq_getElem?, List.getElem?_eq_getElem (by omega)]
    congr 2
    omega
  exact (and_low_eq_zero_iff _).1 (hp.padding (by omega) _ hlast)

theorem isSome_getNibble_iff (hp : p.WellFormed) {i : ℕ} : (p.getNibble i).isSome ↔ i < p.numNibbles := by
  constructor
  · intro h
    by_contra hi
    rw [getNibble_of_le (Nat.le_of_not_lt hi)] at h
    exact Bool.false_ne_true h
  · intro hi
    simp only [getNibble_of_lt hi, Option.isSome_map, List.getElem?_eq_getElem (show i / 2 < p.bytes.length by rw [hp.length_bytes]; omega), Option.isSome_some]

end WellFormed

theorem push_of_even (hn : p.numNibbles < ROOT_NIBBLE_HEIGHT) (he : p.numNibbles % 2 = 0) (x : Fin 16) :
    p.push x = some ⟨p.numNibbles + 1, p.bytes ++ [UInt8.ofNat x.val <<< 4]⟩ := by
  rw [push, if_pos hn, if_pos he]

theorem push_of_odd (hn : p.numNibbles < ROOT_NIBBLE_HEIGHT) (ho : p.numNibbles % 2 = 1) {init : List UInt8}
    {b : UInt8} (h : p.bytes = init ++ [b]) (hlen : init.length = p.numNibbles / 2) (x : Fin 16) :
    p.push x = some ⟨p.numNibbles + 1, init ++ [b ||| UInt8.ofNat x.val]⟩ := by
  have hidx : p.numNibbles / 2 < p.bytes.length := by
    rw [h, List.length_append, List.length_singleton]
    omega
  rw [push, if_pos hn, if_neg (by omega), dif_pos hidx]
  simp [h, ← hlen]

theorem push_of_le (hn : ROOT_NIBBLE_HEIGHT ≤ p.numNibbles) (x : Fin 16) : p.push x = none := by
  rw [push, if_neg (Nat.not_lt.2 hn)]

theorem pop_of_even (he : p.numNibbles % 2 = 0) {init : List UInt8} {b : UInt8} (h : p.bytes = init ++ [b]) :
    p.pop = (some (nibbleFrom (b &&& 0x0f) (toNat_and_low_lt b)), ⟨p.numNibbles - 1, init ++ [b &&& 0xf0]⟩) := by
  simp [pop, he, h]

theorem pop_of_odd (ho : p.numNibbles % 2 = 1) {init : List UInt8} {b : UInt8} (h : p.bytes = init ++ [b]) :
    p.pop = (some (nibbleFrom (b >>> 4) (toNat_shiftRight_four_lt b)), ⟨p.numNibbles - 1, init⟩) := by
  simp [pop, ho, h]

theorem pop_of_bytes_eq_nil (h : p.bytes = []) : p.pop = (none, p) := by
  unfold pop
  split_ifs <;> simp [h]

/-- The padding condition on bytes that end in `b`. -/
theorem padding_append_singleton_iff {init : List UInt8} {b : UInt8} :
    (∀ c ∈ (init ++ [b]).getLast?, c &&& 0x0f = 0) ↔ b.toNat % 16 = 0 := by
  rw [List.getLast?_concat, ← and_low_eq_zero_iff]
  simp

namespace WellFormed

/-- **`push` appends**: on a well-formed path below the height it does not
panic, and the path it returns is well formed, one nibble longer, and reads
the nibbles of `p` and then `x`. -/
theorem push_spec (hp : p.WellFormed) (hn : p.numNibbles < ROOT_NIBBLE_HEIGHT) (x : Fin 16) :
    ∃ q, p.push x = some q ∧ q.WellFormed ∧ q.numNibbles = p.numNibbles + 1 ∧
      ∀ i, q.getNibble i = if i < p.numNibbles then p.getNibble i
        else if i = p.numNibbles then some x else none := by
  rcases Nat.mod_two_eq_zero_or_one p.numNibbles with he | ho
  · -- an even path gets a new byte, with the nibble in its high half
    have hlen := hp.length_bytes
    refine ⟨_, push_of_even hn he x, ⟨by dsimp only; omega, by simp [hlen]; omega, fun _ => ?_⟩, rfl, fun i => ?_⟩
    · rw [padding_append_singleton_iff, toNat_shiftLeft_four]
      omega
    rcases lt_trichotomy i p.numNibbles with hi | rfl | hi
    · rw [getNibble_of_bytes_eq rfl (by dsimp only; omega), if_pos (by omega), if_pos hi, getNibble_of_lt hi]
    · rw [getNibble_of_bytes_eq rfl (by dsimp only; omega), if_neg (by omega), if_pos (by omega),
        if_neg (lt_irrefl _), if_pos rfl, byteNibble_shiftLeft x he]
    · rw [getNibble_of_le (by dsimp only; omega), if_neg (by omega), if_neg (by omega)]
  · -- an odd path gets the nibble in the low half of its last byte
    obtain ⟨init, b, h, hlen⟩ := hp.exists_last (by omega)
    have hb := hp.low_last ho h
    refine ⟨_, push_of_odd hn ho h (by omega) x, ⟨by dsimp only; omega, by simp; omega, fun _ => by dsimp only at *; omega⟩,
      rfl, fun i => ?_⟩
    rcases lt_trichotomy i p.numNibbles with hi | rfl | hi
    · rw [getNibble_of_bytes_eq rfl (by dsimp only; omega), if_pos hi, getNibble_of_bytes_eq h hi]
      split_ifs with h1 h2
      · rfl
      · rw [byteNibble_or_of_even hb x (by omega)]
      · rfl
    · rw [getNibble_of_bytes_eq rfl (by dsimp only; omega), if_neg (by omega), if_pos (by omega),
        if_neg (lt_irrefl _), if_pos rfl, byteNibble_or_of_odd hb x ho]
    · rw [getNibble_of_le (by dsimp only; omega), if_neg (by omega), if_neg (by omega)]

/-- A byte is its two nibbles. -/
theorem byte_eq_of_nibbles {b c : UInt8} (hhigh : b.toNat / 16 = c.toNat / 16)
    (hlow : b.toNat % 16 = c.toNat % 16) : b = c :=
  UInt8.toNat_inj.1 (by omega)

/-- **A path is its nibbles**: two well-formed paths that read the same nibbles
have the same fields. The derived `Eq`, `Ord` and `Hash` compare the fields,
so they see a well-formed path through its nibbles alone. -/
theorem eq_of_getNibble (hp : p.WellFormed) (hq : q.WellFormed) (h : ∀ i, p.getNibble i = q.getNibble i) :
    p = q := by
  have hn : p.numNibbles = q.numNibbles :=
    eq_of_forall_lt_iff fun i => by rw [← hp.isSome_getNibble_iff, h, hq.isSome_getNibble_iff]
  have hlp := hp.length_bytes
  have hlq := hq.length_bytes
  have hlen : p.bytes.length = q.bytes.length := by rw [hlp, hlq, hn]
  -- byte `k` is read back from nibble `2k` and, unless it is the padding, `2k + 1`
  have hbytes : p.bytes = q.bytes := by
    refine List.ext_getElem hlen fun k hk hk' => ?_
    have hread : ∀ j < 2, 2 * k + j < p.numNibbles →
        byteNibble p.bytes[k] j = byteNibble q.bytes[k] j := by
      intro j hj hi
      have hk2 : (2 * k + j) / 2 = k := by omega
      have hij := h (2 * k + j)
      rw [getNibble_of_lt hi, getNibble_of_lt (hn ▸ hi), hk2, List.getElem?_eq_getElem hk,
        List.getElem?_eq_getElem hk', Option.map_some, Option.map_some, Option.some_inj] at hij
      ext
      have hv := congrArg Fin.val hij
      simp only [val_byteNibble] at hv ⊢
      split_ifs at hv ⊢ <;> omega
    have hhigh := congrArg Fin.val (hread 0 (by omega) (by omega))
    simp at hhigh
    refine byte_eq_of_nibbles hhigh ?_
    by_cases hodd : 2 * k + 1 < p.numNibbles
    · have hlow := congrArg Fin.val (hread 1 (by omega) hodd)
      simpa using hlow
    · -- the last byte of an odd path: both low halves are the zero padding
      rw [hp.low_getElem (by omega), hq.low_getElem (by omega)]
  cases p
  cases q
  simp only at hn hbytes
  rw [hn, hbytes]

/-- **`pop` removes the last nibble**: on a non-empty well-formed path it
returns the last nibble, and a well-formed path one nibble shorter that reads
the others. -/
theorem pop_spec (hq : q.WellFormed) (hpos : 0 < q.numNibbles) :
    ∃ x p, q.pop = (some x, p) ∧ q.getNibble (q.numNibbles - 1) = some x ∧ p.WellFormed ∧
      p.numNibbles = q.numNibbles - 1 ∧
      ∀ i, p.getNibble i = if i < q.numNibbles - 1 then q.getNibble i else none := by
  obtain ⟨init, b, h, hlen⟩ := hq.exists_last hpos
  have hle := hq.numNibbles_le
  have hlast : q.getNibble (q.numNibbles - 1) = some (byteNibble b (q.numNibbles - 1)) := by
    rw [getNibble_of_bytes_eq h (by omega), if_neg (by omega), if_pos (by omega)]
  rcases Nat.mod_two_eq_zero_or_one q.numNibbles with he | ho
  · -- the low half of the last byte is read and cleared
    refine ⟨_, _, pop_of_even he h, ?_, ⟨by dsimp only; omega, by simp; omega, fun _ => ?_⟩, rfl, fun i => ?_⟩
    · rw [hlast, Option.some_inj]
      ext
      simp only [val_byteNibble, val_nibbleFrom, toNat_and_low]
      rw [if_pos (by omega)]
    · rw [padding_append_singleton_iff, toNat_and_high]
      omega
    by_cases hi : i < q.numNibbles - 1
    · rw [getNibble_of_bytes_eq rfl hi, if_pos hi, getNibble_of_bytes_eq h (by omega)]
      split_ifs with h1 h2
      · rfl
      · rw [byteNibble_and_high_of_even b (by omega)]
      · rfl
    · rw [getNibble_of_le (by dsimp only; omega), if_neg hi]
  · -- the last byte is dropped, with the high half read
    refine ⟨_, _, pop_of_odd ho h, ?_, ⟨by dsimp only; omega, by dsimp only; omega, fun _ => by dsimp only at *; omega⟩,
      rfl, fun i => ?_⟩
    · rw [hlast, Option.some_inj]
      ext
      simp only [val_byteNibble, val_nibbleFrom, toNat_shiftRight_four]
      rw [if_neg (by omega)]
    by_cases hi : i < q.numNibbles - 1
    · rw [getNibble_of_lt hi, if_pos hi, getNibble_of_bytes_eq h (by omega), if_pos (by omega)]
    · rw [getNibble_of_le (by dsimp only; omega), if_neg hi]

/-- `push` keeps a path well formed wherever it does not panic. -/
theorem of_push (hp : p.WellFormed) {x : Fin 16} (h : p.push x = some q) : q.WellFormed := by
  by_cases hn : p.numNibbles < ROOT_NIBBLE_HEIGHT
  · obtain ⟨q', hq', hwf, -⟩ := hp.push_spec hn x
    rw [hq', Option.some_inj] at h
    exact h ▸ hwf
  · rw [push_of_le (Nat.le_of_not_lt hn)] at h
    cases h

/-- `pop` keeps a path well formed; on the empty path it changes nothing. -/
theorem pop_snd (hq : q.WellFormed) : q.pop.2.WellFormed := by
  rcases Nat.eq_zero_or_pos q.numNibbles with h0 | hpos
  · have hnil : q.bytes = [] := List.eq_nil_of_length_eq_zero (by rw [hq.length_bytes, h0])
    rw [pop_of_bytes_eq_nil hnil]
    exact hq
  · obtain ⟨x, p, hpop, -, hp, -⟩ := hq.pop_spec hpos
    rw [hpop]
    exact hp

/-- **Push, then pop, gives the path back**: the nibble pushed, and the very
fields of `p`. -/
theorem pop_push (hp : p.WellFormed) (hn : p.numNibbles < ROOT_NIBBLE_HEIGHT) (x : Fin 16) :
    ∃ q, p.push x = some q ∧ q.pop = (some x, p) := by
  obtain ⟨q, hpush, hq, hqn, hqget⟩ := hp.push_spec hn x
  obtain ⟨y, p', hpop, hy, hp', hpn, hpget⟩ := hq.pop_spec (by omega)
  have hxy : y = x := by
    rw [hqget, hqn, Nat.add_sub_cancel, if_neg (lt_irrefl _), if_pos rfl, Option.some_inj] at hy
    exact hy.symm
  -- `p'` reads what `p` reads, so it is `p`
  have hpp : p' = p := by
    refine hp'.eq_of_getNibble hp fun i => ?_
    rw [hpget, hqn, Nat.add_sub_cancel, hqget]
    split_ifs with hi
    · rfl
    · rw [getNibble_of_le (Nat.le_of_not_lt hi)]
  exact ⟨q, hpush, by rw [hpop, hxy, hpp]⟩

/-- `last` is the nibble `pop` would return. -/
theorem last_eq (hp : p.WellFormed) : p.last = some p.pop.1 := by
  rcases Nat.eq_zero_or_pos p.numNibbles with h0 | hpos
  · have hnil : p.bytes = [] := List.eq_nil_of_length_eq_zero (by rw [hp.length_bytes, h0])
    simp [last, pop, hnil, h0]
  · obtain ⟨init, b, h, -⟩ := hp.exists_last hpos
    rcases Nat.mod_two_eq_zero_or_one p.numNibbles with he | ho
    · simp [last, pop_of_even he h, he, h]
    · simp [last, pop_of_odd ho h, ho, h]

end WellFormed

/-- A well-formed path as a `NibblePath`. -/
def toNibblePath (p : Raw) (hp : p.WellFormed) : NibblePath :=
  ⟨p.numNibbles, p.bytes, hp.numNibbles_le, hp.length_bytes, hp.padding⟩

end Raw

/-- `NibblePath::push` on a `NibblePath`; `none` where it panics. -/
def push (p : NibblePath) (nibble : Fin 16) : Option NibblePath :=
  match h : p.toRaw.push nibble with
  | some q => some (q.toNibblePath (p.wellFormed_toRaw.of_push h))
  | none => none

/-- `push` panics exactly at the height. -/
theorem isSome_push_iff (p : NibblePath) (nibble : Fin 16) :
    (p.push nibble).isSome ↔ p.numNibbles < ROOT_NIBBLE_HEIGHT := by
  have hraw : (p.toRaw.push nibble).isSome ↔ p.numNibbles < ROOT_NIBBLE_HEIGHT := by
    constructor
    · intro h
      by_contra hn
      rw [Raw.push_of_le (Nat.le_of_not_lt hn)] at h
      exact Bool.false_ne_true h
    · intro hn
      obtain ⟨q, hq, -⟩ := p.wellFormed_toRaw.push_spec hn nibble
      rw [hq]
      rfl
  unfold push
  split <;> simp_all

/-! ## Collecting nibbles into a path -/

namespace Raw

variable {p q : Raw}

theorem wellFormed_of_new {bytes : List UInt8} (h : new bytes = some p) : p.WellFormed := by
  unfold new at h
  split_ifs at h with hlen
  cases h
  exact ⟨by unfold ROOT_NIBBLE_HEIGHT at *; dsimp only; omega, by dsimp only; omega,
    fun hodd => by dsimp only at hodd; omega⟩

theorem wellFormed_of_newOdd {bytes : List UInt8} (h : newOdd bytes = some p) : p.WellFormed := by
  unfold newOdd at h
  split_ifs at h with hlen
  split at h
  · rename_i last hlast
    split_ifs at h with hpad
    cases h
    have hpos : 0 < bytes.length := List.length_pos_of_ne_nil (by rintro rfl; cases hlast)
    refine ⟨by unfold ROOT_NIBBLE_HEIGHT at *; dsimp only; omega, by dsimp only; omega, fun _ => ?_⟩
    intro c hc
    rw [Option.mem_def, hlast, Option.some_inj] at hc
    exact hc ▸ hpad
  · cases h

/-- Pushing nibbles in turn keeps a path well formed. -/
theorem WellFormed.foldlM_push (hp : p.WellFormed) {l : List (Fin 16)} (h : l.foldlM push p = some q) :
    q.WellFormed := by
  induction l generalizing p with
  | nil =>
    rw [List.foldlM_nil, Option.pure_def, Option.some_inj] at h
    exact h ▸ hp
  | cons x l ih =>
    rw [List.foldlM_cons, Option.bind_eq_bind, Option.bind_eq_some_iff] at h
    obtain ⟨p', hpush, hrest⟩ := h
    exact ih (hp.of_push hpush) hrest

/-- **Pushing a list of nibbles** onto a well-formed path with room for them
does not panic, and the path reads the nibbles of `p` and then the list. -/
theorem WellFormed.foldlM_push_spec (hp : p.WellFormed) (l : List (Fin 16))
    (hl : p.numNibbles + l.length ≤ ROOT_NIBBLE_HEIGHT) :
    ∃ q, l.foldlM push p = some q ∧
      ∀ i, q.getNibble i = if i < p.numNibbles then p.getNibble i else l[i - p.numNibbles]? := by
  induction l generalizing p with
  | nil =>
    refine ⟨p, rfl, fun i => ?_⟩
    split_ifs with hi
    · rfl
    · rw [getNibble_of_le (Nat.le_of_not_lt hi), List.getElem?_nil]
  | cons x l ih =>
    rw [List.length_cons] at hl
    obtain ⟨p', hpush, hp', hn', hget'⟩ := hp.push_spec (by omega) x
    obtain ⟨q, hfold, hget⟩ := ih hp' (by omega)
    refine ⟨q, by rw [List.foldlM_cons, hpush]; exact hfold, fun i => ?_⟩
    rw [hget, hget', hn']
    rcases lt_trichotomy i p.numNibbles with hi | rfl | hi
    · rw [if_pos (by omega), if_pos hi, if_pos hi]
    · rw [if_pos (by omega), if_neg (lt_irrefl _), if_pos rfl, if_neg (lt_irrefl _), Nat.sub_self,
        List.getElem?_cons_zero]
    · rw [if_neg (by omega), if_neg (by omega), show i - p.numNibbles = i - (p.numNibbles + 1) + 1 by omega,
        List.getElem?_cons_succ]

theorem new_nil : new [] = some ⟨0, []⟩ := rfl

theorem wellFormed_of_fromIter {nibbles : List (Fin 16)} (h : fromIter nibbles = some p) : p.WellFormed := by
  have hfold : nibbles.foldlM push ⟨0, []⟩ = some p := h
  exact WellFormed.foldlM_push (by decide) hfold

/-- **A collected path reads the nibbles collected**: for at most
`ROOT_NIBBLE_HEIGHT` of them `collect` does not panic, and `get_nibble(i)` of
the path is the `i`-th nibble. -/
theorem fromIter_spec (nibbles : List (Fin 16)) (hl : nibbles.length ≤ ROOT_NIBBLE_HEIGHT) :
    ∃ p, fromIter nibbles = some p ∧ ∀ i, p.getNibble i = nibbles[i]? := by
  have hempty : (⟨0, []⟩ : Raw).WellFormed := by decide
  obtain ⟨p, hfold, hget⟩ := hempty.foldlM_push_spec nibbles (by dsimp only; omega)
  refine ⟨p, by rw [fromIter, new_nil]; exact hfold, fun i => ?_⟩
  rw [hget, if_neg (Nat.not_lt_zero i), Nat.sub_zero]

/-- The nibbles `s, …, s + k - 1` of a well-formed path, read in turn. -/
theorem WellFormed.mapM_getNibble (hp : p.WellFormed) (s k : ℕ) (h : s + k ≤ p.numNibbles) :
    ∃ ns, (List.range' s k).mapM p.getNibble = some ns ∧ ns.length = k ∧
      ∀ i, ns[i]? = if i < k then p.getNibble (s + i) else none := by
  induction k generalizing s with
  | zero => exact ⟨[], rfl, rfl, fun i => by simp⟩
  | succ k ih =>
    obtain ⟨x, hx⟩ := Option.isSome_iff_exists.1 ((hp.isSome_getNibble_iff (i := s)).2 (by omega))
    obtain ⟨ns, hns, hlen, hget⟩ := ih (s + 1) (by omega)
    refine ⟨x :: ns, by simp [List.range'_succ, hx, hns], by rw [List.length_cons, hlen], fun i => ?_⟩
    cases i with
    | zero => simp [hx]
    | succ i =>
      rw [List.getElem?_cons_succ, hget, show s + 1 + i = s + (i + 1) by omega]
      split_ifs <;> first | rfl | omega

end Raw

namespace NibbleIterator

variable {it : NibbleIterator}

theorem wellFormed_of_getNibblePath {p : Raw} (h : it.getNibblePath = some p) : p.WellFormed := by
  simp only [getNibblePath, Option.bind_eq_bind, Option.bind_eq_some_iff] at h
  obtain ⟨_, _, _, _, h⟩ := h
  exact Raw.wellFormed_of_fromIter h

/-- **`get_nibble_path` cuts the range the iterator covers**: on a
well-formed path, with `start ≤ pos.start ≤ pos.end` within it, it does not
panic, and the path it returns reads the nibbles `start, …, pos.end - 1`. -/
theorem getNibblePath_spec (hp : it.nibblePath.WellFormed) (h1 : it.start ≤ it.posStart)
    (h2 : it.posStart ≤ it.posEnd) (h3 : it.posEnd ≤ it.nibblePath.numNibbles) :
    ∃ q, it.getNibblePath = some q ∧
      ∀ i, q.getNibble i = if i < it.posEnd - it.start then it.nibblePath.getNibble (it.start + i) else none := by
  obtain ⟨vs, hvs, hvlen, hvget⟩ := hp.mapM_getNibble it.start (it.posStart - it.start) (by omega)
  obtain ⟨rs, hrs, hrlen, hrget⟩ := hp.mapM_getNibble it.posStart (it.posEnd - it.posStart) (by omega)
  have hle := hp.numNibbles_le
  obtain ⟨q, hq, hget⟩ := Raw.fromIter_spec (vs ++ rs) (by rw [List.length_append]; omega)
  have hvisited : it.visitedNibbles.toList = some vs := hvs
  have hremaining : it.remainingNibbles.toList = some rs := hrs
  refine ⟨q, by rw [getNibblePath, hvisited, hremaining]; exact hq, fun i => ?_⟩
  rw [hget, List.getElem?_append, hvlen]
  split_ifs with hv hr hr
  · rw [hvget, if_pos hv]
  · omega
  · rw [hrget, if_pos (by omega), show it.posStart + (i - (it.posStart - it.start)) = it.start + i by omega]
  · rw [hrget, if_neg (by omega)]

end NibbleIterator

/-! ## The paths the code builds -/

/-- The paths the code builds: by `new`, `new_odd` and `collect`, and by
`push`, `pop` and `get_nibble_path` from a path it built. -/
inductive Built : Raw → Prop
  /-- `NibblePath::new`. -/
  | new {bytes : List UInt8} {p : Raw} : Raw.new bytes = some p → Built p
  /-- `NibblePath::new_odd`. -/
  | newOdd {bytes : List UInt8} {p : Raw} : Raw.newOdd bytes = some p → Built p
  /-- `FromIterator::from_iter`. -/
  | fromIter {nibbles : List (Fin 16)} {p : Raw} : Raw.fromIter nibbles = some p → Built p
  /-- `NibblePath::push`. -/
  | push {p q : Raw} {x : Fin 16} : Built p → p.push x = some q → Built q
  /-- `NibblePath::pop`. -/
  | pop {p : Raw} : Built p → Built p.pop.2
  /-- `NibbleIterator::get_nibble_path`, of an iterator over a path built. -/
  | getNibblePath {it : NibbleIterator} {p : Raw} : Built it.nibblePath → it.getNibblePath = some p → Built p

/-- Every path the code builds is well formed: each constructor of `Built` is
one of the preservation lemmas. -/
theorem Built.wellFormed {p : Raw} (h : Built p) : p.WellFormed := by
  induction h with
  | new h => exact Raw.wellFormed_of_new h
  | newOdd h => exact Raw.wellFormed_of_newOdd h
  | fromIter h => exact Raw.wellFormed_of_fromIter h
  | push _ h ih => exact ih.of_push h
  | pop _ ih => exact ih.pop_snd
  | getNibblePath _ h _ => exact NibbleIterator.wellFormed_of_getNibblePath h

/-- **The representation invariant of `NibblePath`.** Every path the code
builds is well formed. On every path below the height, pushing a nibble and
popping gives back the nibble and the path, field for field; and two paths
that read the same nibbles are equal, so the derived `Eq`, `Ord` and `Hash`
see a path through its nibbles. `get_nibble(i)` of a collected path is the
`i`-th nibble collected, and the path `get_nibble_path` cuts reads the
nibbles its iterator covers. -/
theorem nibblePath_representation :
    (∀ p, Built p → p.WellFormed) ∧
    (∀ p : NibblePath, p.numNibbles < ROOT_NIBBLE_HEIGHT → ∀ x,
      ∃ q, p.toRaw.push x = some q ∧ q.pop = (some x, p.toRaw)) ∧
    (∀ p q : NibblePath, (∀ i, p.toRaw.getNibble i = q.toRaw.getNibble i) → p = q) ∧
    (∀ nibbles : List (Fin 16), nibbles.length ≤ ROOT_NIBBLE_HEIGHT →
      ∃ q, Raw.fromIter nibbles = some q ∧ ∀ i, q.getNibble i = nibbles[i]?) ∧
    (∀ it : NibbleIterator, it.nibblePath.WellFormed → it.start ≤ it.posStart → it.posStart ≤ it.posEnd →
      it.posEnd ≤ it.nibblePath.numNibbles →
      ∃ q, it.getNibblePath = some q ∧
        ∀ i, q.getNibble i = if i < it.posEnd - it.start then it.nibblePath.getNibble (it.start + i) else none) := by
  refine ⟨fun _ h => h.wellFormed, fun p hn x => (wellFormed_toRaw p).pop_push hn x, fun p q h => ?_,
    Raw.fromIter_spec, fun _ hp h1 h2 h3 => NibbleIterator.getNibblePath_spec hp h1 h2 h3⟩
  have hraw := (wellFormed_toRaw p).eq_of_getNibble (wellFormed_toRaw q) h
  exact NibblePath.ext (congrArg Raw.numNibbles hraw) (congrArg Raw.bytes hraw)

/-- The path `3` of `new_odd`; `5` pushed onto it and popped; `[3, 5]`
collected; and the nibbles `1` and `2` of `1234` cut by `get_nibble_path`. -/
theorem nibblePath_representation_threeFive :
    Raw.WellFormed ⟨1, [0x30]⟩ ∧
    (∃ q, (NibblePath.newOdd [0x30] (by decide) (by simp) (by decide)).toRaw.push 5 = some q ∧
      q.pop = (some 5, (NibblePath.newOdd [0x30] (by decide) (by simp) (by decide)).toRaw)) ∧
    (∃ q, Raw.fromIter [3, 5] = some q ∧ ∀ i, q.getNibble i = [3, 5][i]?) ∧
    (∃ q, NibbleIterator.getNibblePath ⟨⟨4, [0x12, 0x34]⟩, 2, 3, 1⟩ = some q ∧
      ∀ i, q.getNibble i = if i < 2 then Raw.getNibble ⟨4, [0x12, 0x34]⟩ (1 + i) else none) :=
  ⟨nibblePath_representation.1 _ (Built.newOdd (by decide : Raw.newOdd [0x30] = some ⟨1, [0x30]⟩)),
    nibblePath_representation.2.1 _ (by decide) 5,
    nibblePath_representation.2.2.2.1 [3, 5] (by decide),
    nibblePath_representation.2.2.2.2 ⟨⟨4, [0x12, 0x34]⟩, 2, 3, 1⟩ (by decide) (by decide) (by decide) (by decide)⟩

end NibblePath

end Diem
