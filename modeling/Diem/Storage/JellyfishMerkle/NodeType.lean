import Mathlib.Data.List.AList
import Mathlib.Data.Nat.Bitwise
import Diem.Theory.Bits
import Diem.Theory.Monads
import Diem.Types.SparseMerkleProof

/-!
# Jellyfish Merkle tree nodes

The node types of `storage/jellyfish-merkle/src/node_type/mod.rs` and their
encoding: `Child`, `InternalNode` with `new_migration` and `sum_leaf_count`,
`LeafNode`, `Node`, and the decoder `Node::decode` with
`InternalNode::deserialize` and `deserialize_u64_varint`.

A `Cursor` over the bytes is the list of the bytes not yet read. The two bitmaps
are `UInt16`s, as in the source. A `HashMap<Nibble, Child>` is an `AList`:
`deserialize` inserts each nibble once, and the one reader of the iteration
order, `sum_leaf_count`, adds modulo `2 ^ 64` and stops at the first unknown
count, so its result does not depend on the order. `+=` on `usize` wraps, as in
the workspace's release profile. A call returns, returns an `anyhow` error
(`Failure.error`), or panics (`Failure.panic`, with the text of the failed
`assert!`); `bcs::from_bytes` of a leaf is the parameter `leafFromBytes`.

The fields of `InternalNode` are private and `new_migration` is its only
constructor, so the model's structure carries what its two `assert!`s establish:
there is a child, and a single child is not a leaf. Its `leaf_count` field, set
once to `sum_leaf_count(&children)`, is the function `InternalNode.leafCount`.
-/

namespace UInt16

/-- `u16::count_ones`. -/
def countOnes (b : UInt16) : ℕ := b.toNat.countOnes

/-- `u16::trailing_zeros`: 16 for the empty bitmap. -/
def trailingZeros (b : UInt16) : ℕ := if b = 0 then 16 else b.toNat.trailingZeros

theorem toNat_pos_of_ne_zero {b : UInt16} (hb : b ≠ 0) : 0 < b.toNat := by
  rcases Nat.eq_zero_or_pos b.toNat with h | h
  · exact absurd (UInt16.toNat_inj.mp (by simpa using h)) hb
  · exact h

theorem trailingZeros_of_ne_zero {b : UInt16} (hb : b ≠ 0) : b.trailingZeros = b.toNat.trailingZeros := by
  simp [trailingZeros, hb]

theorem trailingZeros_lt_of_ne_zero {b : UInt16} (hb : b ≠ 0) : b.trailingZeros < 16 := by
  rw [trailingZeros_of_ne_zero hb]
  exact Nat.trailingZeros_lt (toNat_pos_of_ne_zero hb) b.toNat_lt

theorem toNat_one_shiftLeft {t : ℕ} (ht : t < 16) : ((1 : UInt16) <<< t.toUInt16).toNat = 2 ^ t := by
  have hpow : 2 ^ t < 2 ^ 16 := Nat.pow_lt_pow_right (by decide) ht
  have hshift : t.toUInt16.toNat = t := by
    rw [Nat.toUInt16, UInt16.toNat_ofNat']
    omega
  rw [UInt16.toNat_shiftLeft, hshift, Nat.mod_eq_of_lt ht, UInt16.toNat_one, Nat.one_shiftLeft,
    Nat.mod_eq_of_lt hpow]

theorem toNat_and_not_one_shiftLeft (b : UInt16) {t : ℕ} (ht : t < 16) :
    (b &&& ~~~((1 : UInt16) <<< t.toUInt16)).toNat = b.toNat &&& (2 ^ 16 - (2 ^ t + 1)) := by
  rw [UInt16.toNat_and, UInt16.toNat_not, toNat_one_shiftLeft ht]
  congr 1
  simp only [UInt16.size]
  omega

theorem and_one_shiftLeft_ne_zero_iff (l : UInt16) {t : ℕ} (ht : t < 16) :
    l &&& (1 : UInt16) <<< t.toUInt16 ≠ 0 ↔ l.toNat.testBit t = true := by
  rw [ne_eq, ← UInt16.toNat_inj, UInt16.toNat_and, toNat_one_shiftLeft ht, UInt16.toNat_zero,
    Nat.and_comm, Nat.two_pow_and]
  cases l.toNat.testBit t <;> simp

end UInt16

namespace Diem.JellyfishMerkle

/-- `HashValue::LENGTH`, also `size_of::<HashValue>()`. -/
def HashValue.LENGTH : ℕ := 32

/-- `NodeDecodeError`. -/
inductive NodeDecodeError where
  /-- `Missing tag due to empty input`. -/
  | EmptyInput
  /-- `lead tag byte is unknown`. -/
  | UnknownTag (unknownTag : UInt8)
  /-- `No children found in internal node`. -/
  | NoChildren
  /-- `Non-existent leaf bits set`. -/
  | ExtraLeaves (existing leaves : UInt16)
  deriving DecidableEq, Repr

/-- The `anyhow::Error`s of the tree's functions. -/
inductive Error where
  /-- A `NodeDecodeError`. -/
  | nodeDecode (e : NodeDecodeError)
  /-- `io::ErrorKind::UnexpectedEof`: a `read_u8` or `read_u16` past the end. -/
  | unexpectedEof
  /-- `not enough bytes left, children: {}, bytes: {}`. -/
  | notEnoughBytes (children bytes : ℕ)
  /-- An error of `bcs::from_bytes`. -/
  | bcs (message : String)
  /-- The text of any other `ensure!` or `bail!`. -/
  | message (text : String)
  deriving DecidableEq, Repr

/-- How a call ends when it does not return `Ok`. -/
inductive Failure where
  /-- An `Err` returned to the caller. -/
  | error (e : Error)
  /-- A failed `assert!`, `expect` or `unwrap`, with its text. -/
  | panic (message : String)
  deriving DecidableEq, Repr

/-- A failure that is a panic. -/
def Failure.IsPanic : Failure → Prop
  | .error _ => False
  | .panic _ => True

@[simp] theorem Failure.isPanic_error (e : Error) : ¬ (Failure.error e).IsPanic := id

@[simp] theorem Failure.isPanic_panic (message : String) : (Failure.panic message).IsPanic := trivial

/-- A call that may fail but never panics. -/
abbrev NoPanic {α : Type} (x : Except Failure α) : Prop := Except.ErrorsAvoid Failure.IsPanic x

/-- `Nibble`: four bits. -/
abbrev Nibble := Fin 16

/-- `impl From<u8> for Nibble`: `assert!(nibble < 16, "Nibble out of range: {}", nibble)`. -/
def Nibble.fromU8 (nibble : ℕ) : Except Failure Nibble :=
  if h : nibble < 16 then .ok ⟨nibble, h⟩ else .error (.panic "Nibble out of range")

@[simp] theorem Nibble.fromU8_of_lt {nibble : ℕ} (h : nibble < 16) : Nibble.fromU8 nibble = .ok ⟨nibble, h⟩ := by
  simp [Nibble.fromU8, h]

/-- `HashValue::from_slice`: 32 bytes, read as a big-endian number. -/
def HashValue.fromSlice (bytes : List UInt8) : Except Failure HashValue :=
  if bytes.length = HashValue.LENGTH then .ok ⟨bytes.foldl (fun acc b => 256 * acc + b.toNat) 0⟩
  else .error (.error (.message "HashValueParseError"))

theorem HashValue.fromSlice_eq_ok {bytes : List UInt8} (h : bytes.length = HashValue.LENGTH) :
    ∃ hash, HashValue.fromSlice bytes = .ok hash := by
  simp [HashValue.fromSlice, h]

theorem HashValue.fromSlice_noPanic (bytes : List UInt8) : NoPanic (HashValue.fromSlice bytes) := by
  unfold HashValue.fromSlice
  split_ifs <;> simp

/-! ## Nodes -/

/-- `NodeType`. -/
inductive NodeType where
  /-- A leaf. -/
  | Leaf
  /-- An internal node whose leaf count is not known. -/
  | InternalLegacy
  /-- An internal node with `leaf_count` leaves below it. -/
  | Internal (leafCount : ℕ)
  deriving DecidableEq, Repr

/-- `Child`. -/
structure Child where
  /-- `hash`. -/
  hash : HashValue
  /-- `version`. -/
  version : ℕ
  /-- `node_type`. -/
  nodeType : NodeType
  deriving DecidableEq, Repr

/-- `Child::is_leaf`. -/
def Child.isLeaf (child : Child) : Bool :=
  match child.nodeType with
  | .Leaf => true
  | _ => false

theorem Child.isLeaf_iff {child : Child} : child.isLeaf = true ↔ child.nodeType = .Leaf := by
  unfold Child.isLeaf
  split <;> simp_all

/-- `Child::leaf_count`. -/
def Child.leafCount (child : Child) : Option ℕ :=
  match child.nodeType with
  | .Leaf => some 1
  | .InternalLegacy => none
  | .Internal leafCount => some leafCount

/-- `Children`: `HashMap<Nibble, Child>`. -/
abbrev Children := AList fun _ : Nibble => Child

/-- The loop of `sum_leaf_count` over `children.values()`: `leaf_count += n`
on a `usize`, or `None` at the first child of unknown count. -/
def sumLeafCountLoop : List Child → ℕ → Option ℕ
  | [], leafCount => some leafCount
  | child :: rest, leafCount =>
    match child.leafCount with
    | some n => sumLeafCountLoop rest ((leafCount + n) % 2 ^ 64)
    | none => none

/-- `InternalNode::sum_leaf_count`. -/
def sumLeafCount (children : Children) : Option ℕ := sumLeafCountLoop (children.entries.map Sigma.snd) 0

/-- The children are a single leaf: what the second `assert!` of
`new_migration` rules out. -/
def Children.isSingleLeaf (children : Children) : Bool :=
  match children.entries with
  | [⟨_, child⟩] => child.isLeaf
  | _ => false

theorem Children.isSingleLeaf_iff {children : Children} :
    children.isSingleLeaf = true ↔ ∃ n child, children.entries = [⟨n, child⟩] ∧ child.isLeaf = true := by
  unfold Children.isSingleLeaf
  split
  · next n child h => simp [h]
  · next h => simpa using fun n child heq => absurd heq (h n child)

/-- `InternalNode`, as `new_migration` builds it. -/
structure InternalNode where
  /-- `children`. -/
  children : Children
  /-- `leaf_count_migration`: write the leaf counts. -/
  leafCountMigration : Bool
  /-- `assert!(!children.is_empty())`. -/
  children_ne_nil : children.entries ≠ []
  /-- A single child is not a leaf. -/
  not_isSingleLeaf : children.isSingleLeaf = false
  deriving DecidableEq

/-- The field `leaf_count`. -/
def InternalNode.leafCount (node : InternalNode) : Option ℕ := sumLeafCount node.children

/-- `InternalNode::new_migration`. -/
def InternalNode.newMigration (children : Children) (leafCountMigration : Bool) : Except Failure InternalNode :=
  if h₀ : children.entries = [] then .error (.panic "assertion failed: !children.is_empty()")
  else if h₁ : children.isSingleLeaf then
    .error (.panic "assertion failed: !children.values().next().expect(\"Must have 1 element\").is_leaf()")
  else .ok ⟨children, leafCountMigration, h₀, by simpa using h₁⟩

/-- `InternalNode::node_type`: `Internal` with the leaf count when it is known. -/
def InternalNode.nodeType (n : InternalNode) : NodeType :=
  match n.leafCount with
  | some leafCount => .Internal leafCount
  | none => .InternalLegacy

/-- `LeafNode`. -/
structure LeafNode (V : Type) where
  /-- `account_key`. -/
  accountKey : HashValue
  /-- `value_hash`. -/
  valueHash : HashValue
  /-- `value`. -/
  value : V
  deriving DecidableEq, Repr

/-- `Node`. -/
inductive Node (V : Type) where
  /-- `Null`. -/
  | Null
  /-- `Internal`. -/
  | Internal (node : InternalNode)
  /-- `Leaf`. -/
  | Leaf (node : LeafNode V)
  deriving DecidableEq

/-- `Node::node_type`, with the `unreachable!` of `Null`. -/
def Node.nodeType {V : Type} : Node V → Except Failure NodeType
  | .Null => .error (.panic "internal error: entered unreachable code")
  | .Leaf _ => .ok .Leaf
  | .Internal n => .ok n.nodeType

/-- `Node::is_leaf`. -/
def Node.isLeaf {V : Type} : Node V → Bool
  | .Leaf _ => true
  | _ => false

/-! ## Hashing -/

section Hashing

variable {V : Type} (valueHash : V → HashValue) (leafHash node : HashValue → HashValue → HashValue)
  (placeholder : HashValue)

/-- `LeafNode::new`. -/
def LeafNode.new (accountKey : HashValue) (value : V) : LeafNode V := ⟨accountKey, valueHash value, value⟩

/-- `LeafNode::hash`: the hash of its `SparseMerkleLeafNode`. -/
def LeafNode.hash (leaf : LeafNode V) : HashValue := leafHash leaf.accountKey leaf.valueHash

/-- `InternalNode::child`. -/
def InternalNode.child (n : InternalNode) (nibble : Nibble) : Option Child := n.children.lookup nibble

/-- `InternalNode::generate_bitmaps`. -/
def InternalNode.generateBitmaps (n : InternalNode) : Except Failure (UInt16 × UInt16) :=
  let (existenceBitmap, leafBitmap) := n.children.entries.foldl (fun (bitmaps : UInt16 × UInt16) entry =>
    let bit : UInt16 := (1 : UInt16) <<< entry.1.val.toUInt16
    (bitmaps.1 ||| bit, if entry.2.isLeaf then bitmaps.2 ||| bit else bitmaps.2)) (0, 0)
  if existenceBitmap ||| leafBitmap = existenceBitmap then .ok (existenceBitmap, leafBitmap)
  else .error (.panic "assertion failed: existence_bitmap | leaf_bitmap == existence_bitmap")

/-- `InternalNode::range_bitmaps`: the bits of `[start, start + width)`. -/
def rangeBitmaps (start width : ℕ) (bitmaps : UInt16 × UInt16) : Except Failure (UInt16 × UInt16) :=
  if ¬ (start < 16 ∧ width.countOnes = 1 ∧ start % width = 0) then
    .error (.panic "assertion failed: start < 16 && width.count_ones() == 1 && start % width == 0")
  else if ¬ (width ≤ 16 ∧ start + width ≤ 16) then
    .error (.panic "assertion failed: width <= 16 && (start + width) <= 16")
  else
    let mask : UInt16 := UInt16.ofNat (((1 <<< width) - 1) <<< start)
    .ok (bitmaps.1 &&& mask, bitmaps.2 &&& mask)

/-- The child at the lowest bit of `rangeExistenceBitmap`, with the `unwrap` of
`merkle_hash` on a child the bitmap names but the node lacks. -/
def InternalNode.onlyChildHash (n : InternalNode) (rangeExistenceBitmap : UInt16) : Except Failure HashValue := do
  let onlyChildIndex ← Nibble.fromU8 rangeExistenceBitmap.trailingZeros
  match n.child onlyChildIndex with
  | some child => .ok child.hash
  | none => .error (.panic "Corrupted internal node: existence_bitmap indicates the existence of a non-exist child")

/-- `InternalNode::merkle_hash` of the subtree of width `2 ^ height` at
`start`; the recursion halves the width down to a single child. -/
def InternalNode.merkleHash (n : InternalNode) : ℕ → ℕ → UInt16 × UInt16 → Except Failure HashValue
  | height, start, bitmaps => do
    let (rangeExistenceBitmap, rangeLeafBitmap) ← rangeBitmaps start (2 ^ height) bitmaps
    if rangeExistenceBitmap = 0 then .ok placeholder
    else if 2 ^ height = 1 ∨ (rangeExistenceBitmap.countOnes = 1 ∧ rangeLeafBitmap ≠ 0) then
      n.onlyChildHash rangeExistenceBitmap
    else
      match height with
      | 0 => n.onlyChildHash rangeExistenceBitmap
      | height + 1 => do
        let leftChild ← n.merkleHash height start (rangeExistenceBitmap, rangeLeafBitmap)
        let rightChild ← n.merkleHash height (start + 2 ^ height) (rangeExistenceBitmap, rangeLeafBitmap)
        .ok (node leftChild rightChild)

/-- `InternalNode::hash`: `merkle_hash(0, 16, generate_bitmaps())`. -/
def InternalNode.hash (n : InternalNode) : Except Failure HashValue := do
  let bitmaps ← n.generateBitmaps
  n.merkleHash node placeholder 4 0 bitmaps

/-- `Node::hash`: the placeholder for `Null`. -/
def Node.hash : Node V → Except Failure HashValue
  | .Null => .ok placeholder
  | .Internal n => n.hash node placeholder
  | .Leaf l => .ok (l.hash leafHash)

/-- `get_child_and_sibling_half_start`: the first child of the subtree of
height `height` holding `n`, and of its sibling. -/
def getChildAndSiblingHalfStart (n : Nibble) (height : ℕ) : UInt8 × UInt8 :=
  let childHalfStart : UInt8 := ((0xff : UInt8) <<< height.toUInt8) &&& n.val.toUInt8
  (childHalfStart, childHalfStart ^^^ ((1 : UInt8) <<< height.toUInt8))

end Hashing

/-- `NodeTag`, the first byte of an encoded node. -/
inductive NodeTag where
  | Null
  | InternalLegacy
  | Leaf
  | Internal
  deriving DecidableEq, Repr

/-- `NodeTag::from_u8`. -/
def NodeTag.fromU8 (tag : UInt8) : Option NodeTag :=
  match tag.toNat with
  | 0 => some .Null
  | 1 => some .InternalLegacy
  | 2 => some .Leaf
  | 3 => some .Internal
  | _ => none

/-- `NodeTag as u8`. -/
def NodeTag.toU8 : NodeTag → UInt8
  | .Null => 0
  | .InternalLegacy => 1
  | .Leaf => 2
  | .Internal => 3

theorem NodeTag.fromU8_eq_some {tag : UInt8} {t : NodeTag} : NodeTag.fromU8 tag = some t ↔ tag = t.toU8 := by
  unfold NodeTag.fromU8
  split
  all_goals
    rename_i heq
    cases t <;> simp [NodeTag.toU8, ← UInt8.toNat_inj, heq]
  all_goals omega

/-! ## Decoding -/

/-- `Cursor::read_u8`. -/
def readU8 : List UInt8 → Except Failure (UInt8 × List UInt8)
  | [] => .error (.error .unexpectedEof)
  | byte :: reader => .ok (byte, reader)

theorem readU8_noPanic (reader : List UInt8) : NoPanic (readU8 reader) := by
  cases reader <;> simp [readU8]

/-- `Cursor::read_u16::<LittleEndian>`. -/
def readU16 : List UInt8 → Except Failure (UInt16 × List UInt8)
  | lo :: hi :: reader => .ok (UInt16.ofNat (lo.toNat + 256 * hi.toNat), reader)
  | _ => .error (.error .unexpectedEof)

theorem readU16_noPanic (reader : List UInt8) : NoPanic (readU16 reader) := by
  rcases reader with _ | ⟨lo, _ | ⟨hi, reader⟩⟩ <;> simp [readU16]

/-- The loop `for i in 0..8` of `deserialize_u64_varint` from round `i` on,
with `n` rounds left, and the raw last byte after it. -/
def deserializeU64VarintLoop : ℕ → ℕ → ℕ → List UInt8 → Except Failure (ℕ × List UInt8)
  | 0, _, num, reader => do
    let (byte, reader) ← readU8 reader
    .ok (num ||| byte.toNat <<< 56, reader)
  | n + 1, i, num, reader => do
    let (byte, reader) ← readU8 reader
    let num := num ||| (byte &&& 0x7f).toNat <<< (i * 7)
    if byte &&& 0x80 = 0 then .ok (num, reader) else deserializeU64VarintLoop n (i + 1) num reader

/-- `deserialize_u64_varint`: seven bits a byte, the high bit set while more
follow, and a ninth byte taken whole. -/
def deserializeU64Varint (reader : List UInt8) : Except Failure (ℕ × List UInt8) :=
  deserializeU64VarintLoop 8 0 0 reader

theorem deserializeU64VarintLoop_noPanic : ∀ n i num reader, NoPanic (deserializeU64VarintLoop n i num reader)
  | 0, i, num, reader => by
    simp only [deserializeU64VarintLoop]
    refine (readU8_noPanic reader).bind fun _ _ => by simp
  | n + 1, i, num, reader => by
    simp only [deserializeU64VarintLoop]
    refine (readU8_noPanic reader).bind fun _ _ => ?_
    split_ifs
    · simp
    · exact deserializeU64VarintLoop_noPanic n _ _ _

theorem deserializeU64Varint_noPanic (reader : List UInt8) : NoPanic (deserializeU64Varint reader) :=
  deserializeU64VarintLoop_noPanic 8 0 0 reader

/-- The `node_type` of a child in `deserialize`: a leaf by the leaf bitmap,
else a varint leaf count when the node has them, `0` meaning unknown. -/
def readNodeType (readLeafCounts isLeaf : Bool) (reader : List UInt8) : Except Failure (NodeType × List UInt8) :=
  if isLeaf then .ok (.Leaf, reader)
  else if readLeafCounts then do
    let (leafCount, reader) ← deserializeU64Varint reader
    .ok (if leafCount = 0 then .InternalLegacy else .Internal leafCount, reader)
  else .ok (.InternalLegacy, reader)

theorem readNodeType_noPanic (readLeafCounts isLeaf : Bool) (reader : List UInt8) :
    NoPanic (readNodeType readLeafCounts isLeaf reader) := by
  unfold readNodeType
  split_ifs
  · simp
  · exact (deserializeU64Varint_noPanic reader).bind fun _ _ => by simp
  · simp

theorem readNodeType_leaf {readLeafCounts isLeaf : Bool} {reader r : List UInt8}
    (h : readNodeType readLeafCounts isLeaf reader = .ok (.Leaf, r)) : isLeaf = true := by
  unfold readNodeType at h
  split_ifs at h with hleaf hcounts
  · exact hleaf
  · simp only [Except.bind_eq_ok, Except.ok.injEq, Prod.mk.injEq] at h
    obtain ⟨_, _, h, _⟩ := h
    split_ifs at h
  · simp at h

/-- One round of the loop of `InternalNode::deserialize`: the child at the
lowest bit left in `existenceBitmap`, which the round then clears. -/
def deserializeChild (readLeafCounts : Bool) (leafBitmap existenceBitmap : UInt16) (children : Children)
    (reader : List UInt8) : Except Failure (UInt16 × Children × List UInt8) := do
  let nextChild := existenceBitmap.trailingZeros
  let (version, reader) ← deserializeU64Varint reader
  let remaining := reader.length
  if remaining < HashValue.LENGTH then .error (.error (.notEnoughBytes existenceBitmap.countOnes remaining))
  else do
    let hash ← HashValue.fromSlice (reader.take HashValue.LENGTH)
    let reader := reader.drop HashValue.LENGTH
    let childBit : UInt16 := (1 : UInt16) <<< nextChild.toUInt16
    let (nodeType, reader) ← readNodeType readLeafCounts (leafBitmap &&& childBit ≠ 0) reader
    let nibble ← Nibble.fromU8 nextChild
    .ok (existenceBitmap &&& ~~~childBit, children.insert nibble ⟨hash, version, nodeType⟩, reader)

/-- The loop `for _ in 0..existence_bitmap.count_ones()` of `deserialize`,
with `n` rounds left. -/
def deserializeChildren (readLeafCounts : Bool) (leafBitmap : UInt16) :
    ℕ → UInt16 → Children → List UInt8 → Except Failure (UInt16 × Children × List UInt8)
  | 0, existenceBitmap, children, reader => .ok (existenceBitmap, children, reader)
  | n + 1, existenceBitmap, children, reader => do
    let (existenceBitmap, children, reader) ← deserializeChild readLeafCounts leafBitmap existenceBitmap children reader
    deserializeChildren readLeafCounts leafBitmap n existenceBitmap children reader

theorem deserializeChildren_one {readLeafCounts : Bool} {leafBitmap existenceBitmap : UInt16} {children : Children}
    {reader : List UInt8} :
    deserializeChildren readLeafCounts leafBitmap 1 existenceBitmap children reader =
      deserializeChild readLeafCounts leafBitmap existenceBitmap children reader := by
  simp only [deserializeChildren]
  cases deserializeChild readLeafCounts leafBitmap existenceBitmap children reader <;> rfl

/-- `InternalNode::deserialize`. -/
def InternalNode.deserialize (data : List UInt8) (readLeafCounts : Bool) : Except Failure InternalNode := do
  let (existenceBitmap, reader) ← readU16 data
  let (leafBitmap, reader) ← readU16 reader
  if existenceBitmap = 0 then .error (.error (.nodeDecode .NoChildren))
  else if existenceBitmap &&& leafBitmap ≠ leafBitmap then
    .error (.error (.nodeDecode (.ExtraLeaves existenceBitmap leafBitmap)))
  else do
    let (existenceBitmap, children, _) ←
      deserializeChildren readLeafCounts leafBitmap existenceBitmap.countOnes existenceBitmap ∅ reader
    if existenceBitmap ≠ 0 then .error (.panic "assertion failed: existence_bitmap == 0")
    else InternalNode.newMigration children readLeafCounts

section Decode

variable {V : Type} (leafFromBytes : List UInt8 → Except String (LeafNode V))

/-- `Node::decode`. -/
def Node.decode : List UInt8 → Except Failure (Node V)
  | [] => .error (.error (.nodeDecode .EmptyInput))
  | tag :: rest =>
    match NodeTag.fromU8 tag with
    | some .Null => .ok .Null
    | some .InternalLegacy => Node.Internal <$> InternalNode.deserialize rest false
    | some .Internal => Node.Internal <$> InternalNode.deserialize rest true
    | some .Leaf =>
      match leafFromBytes rest with
      | .ok leaf => .ok (.Leaf leaf)
      | .error message => .error (.error (.bcs message))
    | none => .error (.error (.nodeDecode (.UnknownTag tag)))

end Decode

end Diem.JellyfishMerkle
