import Diem.Storage.JellyfishMerkle.Decode
import Diem.Theory.Bytes
import Diem.Theory.Leb128

/-!
# Encoding a node, and reading it back

`Node::encode`, `InternalNode::serialize` and `serialize_u64_varint` of
`storage/jellyfish-merkle/src/node_type/mod.rs`, against the decoder of
`Diem.Storage.JellyfishMerkle.NodeType`.

`serialize` and `serialize_u64_varint` push to a `Vec<u8>`; the model returns
the bytes they push. The two `assert!`s after the varint loop are panics, which
never fire below `u64`. `bcs::to_bytes` of a leaf is the parameter
`leafToBytes`, and the round trip assumes `leafFromBytes` reads back what it
writes. An `InternalNode` keeps its children in a `HashMap`, which compares as
a map: `InternalNode.Eqv` and `Node.Eqv` are the derived `PartialEq`, the same
child at every nibble and the same counts. Decoding inserts the children in
nibble order, so the node it returns equals the encoded one in this sense.

Every `u64` reads back from its varint, and the reader stops right after it
(`deserializeU64Varint_serializeU64Varint`); the loop of `deserialize` reads,
round by round, the child the loop of `serialize` wrote at the same bit of the
existence bitmap (`serializeChildren_roundTrip`). So **`decode_encode_eqv`**:
`Node::decode` of `Node::encode` of a node the tree writes (`Node.Written`) is
that node.
-/

namespace Diem.JellyfishMerkle

open Except

/-! ## Writing -/

/-- `HashValue::to_vec`: the 32 bytes, most significant first. -/
def HashValue.toVec (hash : HashValue) : List UInt8 := Bytes.toBe HashValue.LENGTH hash.val

/-- The loop `for _ in 0..8` of `serialize_u64_varint` with `n` rounds left,
the bytes it pushes: seven bits a byte, lowest first, the high bit set while
more follow. After the eighth round what is left is pushed raw. -/
def serializeU64VarintLoop : ℕ → ℕ → Except Failure (List UInt8)
  | 0, num =>
    if num = 0 then .error (.panic "assertion `left != right` failed")
    else if num ≤ 0xff then .ok [UInt8.ofNat num]
    else .error (.panic "assertion failed: num <= 0xff")
  | n + 1, num => do
    let lowBits := UInt8.ofNat num &&& 0x7f
    let num := num >>> 7
    let more : UInt8 := if num = 0 then 0 else 0x80
    if more = 0 then .ok [lowBits ||| more]
    else
      let rest ← serializeU64VarintLoop n num
      .ok ((lowBits ||| more) :: rest)

/-- `serialize_u64_varint`. -/
def serializeU64Varint (num : ℕ) : Except Failure (List UInt8) := serializeU64VarintLoop 8 num

/-- `write_u16::<LittleEndian>`. -/
def writeU16 (v : UInt16) : List UInt8 := [v.toUInt8, (v >>> 8).toUInt8]

/-- What the loop of `serialize` writes after a child's hash: nothing for a
leaf, and with `persist_leaf_counts` the leaf count, `0` for an unknown one. -/
def serializeNodeType (persistLeafCounts : Bool) : NodeType → Except Failure (List UInt8)
  | .Leaf => .ok []
  | .InternalLegacy => if persistLeafCounts then serializeU64Varint 0 else .ok []
  | .Internal leafCount => if persistLeafCounts then serializeU64Varint leafCount else .ok []

/-- One round of the loop of `InternalNode::serialize`: the child at the
lowest bit left in `existenceBitmap`, which the round then clears. -/
def InternalNode.serializeChild (n : InternalNode) (persistLeafCounts : Bool) (existenceBitmap : UInt16) :
    Except Failure (UInt16 × List UInt8) := do
  let nextChild := existenceBitmap.trailingZeros
  let nibble ← Nibble.fromU8 nextChild
  let child ← match n.child nibble with
    | some child => .ok child
    | none => .error (.panic "no entry found for key")
  let version ← serializeU64Varint child.version
  let nodeType ← serializeNodeType persistLeafCounts child.nodeType
  .ok (existenceBitmap &&& ~~~((1 : UInt16) <<< nextChild.toUInt16), version ++ HashValue.toVec child.hash ++ nodeType)

/-- The loop `for _ in 0..existence_bitmap.count_ones()` of `serialize`, with
`k` rounds left. -/
def InternalNode.serializeChildren (n : InternalNode) (persistLeafCounts : Bool) :
    ℕ → UInt16 → Except Failure (List UInt8)
  | 0, _ => .ok []
  | k + 1, existenceBitmap => do
    let (existenceBitmap, bytes) ← n.serializeChild persistLeafCounts existenceBitmap
    let rest ← n.serializeChildren persistLeafCounts k existenceBitmap
    .ok (bytes ++ rest)

/-- `InternalNode::serialize`, the bytes it writes. -/
def InternalNode.serialize (n : InternalNode) (persistLeafCounts : Bool) : Except Failure (List UInt8) := do
  let (existenceBitmap, leafBitmap) ← n.generateBitmaps
  let children ← n.serializeChildren persistLeafCounts existenceBitmap.countOnes existenceBitmap
  .ok (writeU16 existenceBitmap ++ writeU16 leafBitmap ++ children)

section Encode

variable {V : Type} (leafToBytes : LeafNode V → List UInt8)

/-- `Node::encode`. -/
def Node.encode : Node V → Except Failure (List UInt8)
  | .Null => .ok [NodeTag.Null.toU8]
  | .Internal internalNode => do
    let persistLeafCount := internalNode.leafCountMigration
    let tag := if persistLeafCount then NodeTag.Internal else NodeTag.InternalLegacy
    let bytes ← internalNode.serialize persistLeafCount
    .ok (tag.toU8 :: bytes)
  | .Leaf leafNode => .ok (NodeTag.Leaf.toU8 :: leafToBytes leafNode)

end Encode

/-! ## Equality of nodes -/

/-- `PartialEq` of `InternalNode`: the children compare as a map. -/
def InternalNode.Eqv (a b : InternalNode) : Prop :=
  (∀ nibble, a.child nibble = b.child nibble) ∧ a.leafCount = b.leafCount ∧
    a.leafCountMigration = b.leafCountMigration

/-- `PartialEq` of `Node`. -/
def Node.Eqv {V : Type} : Node V → Node V → Prop
  | .Null, .Null => True
  | .Internal a, .Internal b => a.Eqv b
  | .Leaf a, .Leaf b => a = b
  | _, _ => False

/-- A child as the tree writes it: its version a `u64`, its hash 32 bytes,
and the leaf count of an internal child a `usize` of at least one. -/
def Child.Fits (child : Child) : Prop :=
  child.version < 2 ^ 64 ∧ child.hash.val < 2 ^ 256 ∧
    ∀ leafCount, child.nodeType = .Internal leafCount → 0 < leafCount ∧ leafCount < 2 ^ 64

/-! ## The varint -/

/-- **One round of the varint**: reading what `serialize_u64_varint` pushes from
round `i`, over the `acc` of the rounds before, adds `num` at bit `7 * i`. -/
theorem deserializeU64VarintLoop_serialize : ∀ (n i acc num : ℕ) (bytes rest : List UInt8), i + n = 8 →
    acc < 2 ^ (i * 7) → serializeU64VarintLoop n num = .ok bytes →
    deserializeU64VarintLoop n i acc (bytes ++ rest) = .ok (acc + 2 ^ (i * 7) * num, rest)
  | 0, i, acc, num, bytes, rest, hi, hacc, h => by
    -- the ninth byte, taken whole at bit 56
    obtain rfl : i = 8 := by omega
    simp only [serializeU64VarintLoop] at h
    split_ifs at h with h0 hff
    simp only [ok.injEq] at h
    subst h
    have hnum : (UInt8.ofNat num).toNat = num := by rw [UInt8.toNat_ofNat']; omega
    simp only [deserializeU64VarintLoop, readU8, List.singleton_append, ok_bind, hnum]
    rw [Nat.or_shiftLeft_eq_add num hacc]
  | n + 1, i, acc, num, bytes, rest, hi, hacc, h => by
    have hlow := UInt8.toNat_ofNat_and_0x7f num
    have hfirst : acc ||| (UInt8.ofNat num &&& 0x7f).toNat <<< (i * 7) = acc + 2 ^ (i * 7) * (num % 128) := by
      rw [hlow, Nat.or_shiftLeft_eq_add _ hacc]
    simp only [serializeU64VarintLoop] at h
    by_cases hmore : num >>> 7 = 0
    · -- the last byte: its high bit is clear
      simp only [hmore, if_true, UInt8.or_zero, ok.injEq] at h
      subst h
      have hsmall : num < 128 := by rw [Nat.shiftRight_eq_div_pow] at hmore; omega
      have hclear : UInt8.ofNat num &&& 0x7f &&& 0x80 = 0 :=
        (UInt8.and_0x80_eq_zero_iff _).2 (by rw [hlow]; omega)
      simp only [deserializeU64VarintLoop, readU8, List.singleton_append, ok_bind, hclear, if_true,
        UInt8.and_assoc, UInt8.and_self]
      rw [hfirst, Nat.mod_eq_of_lt hsmall]
    · -- a byte with its high bit set, then the rounds after it
      have hne : ((if num >>> 7 = 0 then 0 else 0x80 : UInt8)) = 0x80 := if_neg hmore
      simp only [hne, show (0x80 : UInt8) ≠ 0 by decide, if_false, bind_eq_ok, ok.injEq] at h
      obtain ⟨rest', hrest, rfl⟩ := h
      have hlt : (UInt8.ofNat num &&& 0x7f).toNat < 128 := by rw [hlow]; omega
      have hbyte : (UInt8.ofNat num &&& 0x7f ||| 0x80).toNat = num % 128 + 128 := by
        rw [UInt8.toNat_or_0x80 hlt, hlow]
      have hset : ¬ (UInt8.ofNat num &&& 0x7f ||| 0x80) &&& 0x80 = 0 := by
        rw [UInt8.and_0x80_eq_zero_iff, hbyte]
        omega
      have hkeep : (UInt8.ofNat num &&& 0x7f ||| 0x80) &&& 0x7f = UInt8.ofNat num &&& 0x7f := by
        apply UInt8.toNat_inj.mp
        rw [UInt8.toNat_and_0x7f, hbyte, hlow]
        omega
      have hsplit : 2 ^ ((i + 1) * 7) = 2 ^ (i * 7) * 128 := by rw [Nat.succ_mul, Nat.pow_add]
      have hacc' : acc + 2 ^ (i * 7) * (num % 128) < 2 ^ ((i + 1) * 7) := by
        have := Nat.mod_lt num (show 128 > 0 by norm_num)
        rw [hsplit]
        nlinarith
      have hnext := deserializeU64VarintLoop_serialize n (i + 1) _ (num >>> 7) rest' rest (by omega) hacc' hrest
      simp only [deserializeU64VarintLoop, readU8, List.cons_append, ok_bind, hset, if_false, hkeep]
      rw [hfirst, hnext, Nat.shiftRight_eq_div_pow, hsplit]
      have hnum := Nat.div_add_mod num 128
      congr 2
      calc acc + 2 ^ (i * 7) * (num % 128) + 2 ^ (i * 7) * 128 * (num / 2 ^ 7)
          = acc + 2 ^ (i * 7) * (128 * (num / 128) + num % 128) := by norm_num; ring
        _ = acc + 2 ^ (i * 7) * num := by rw [hnum]

/-- The varint of a number below `2 ^ (7 * n + 8)`, positive if it comes
after the eighth round, is written without a panic. -/
theorem serializeU64VarintLoop_isOk : ∀ (n num : ℕ), (n = 0 → num ≠ 0) → num < 2 ^ (7 * n + 8) →
    ∃ bytes, serializeU64VarintLoop n num = .ok bytes
  | 0, num, h0, hnum => ⟨[UInt8.ofNat num], by simp [serializeU64VarintLoop, h0 rfl]; omega⟩
  | n + 1, num, _, hnum => by
    simp only [serializeU64VarintLoop]
    by_cases hmore : num >>> 7 = 0
    · simp [hmore]
    · have hnext : num >>> 7 < 2 ^ (7 * n + 8) := by
        rw [Nat.shiftRight_eq_div_pow, Nat.div_lt_iff_lt_mul (by norm_num), ← Nat.pow_add]
        calc num < 2 ^ (7 * (n + 1) + 8) := hnum
          _ = 2 ^ (7 * n + 8 + 7) := by ring_nf
      obtain ⟨rest, hrest⟩ := serializeU64VarintLoop_isOk n (num >>> 7) (fun _ => hmore) hnext
      simp [hmore, hrest]

/-- **The varint round trip**: every `u64` is written, and read back from
what is written, the reader left right after it. -/
theorem deserializeU64Varint_serializeU64Varint {x : ℕ} (hx : x < 2 ^ 64) :
    ∃ bytes, serializeU64Varint x = .ok bytes ∧ ∀ rest, deserializeU64Varint (bytes ++ rest) = .ok (x, rest) := by
  obtain ⟨bytes, h⟩ := serializeU64VarintLoop_isOk 8 x (by omega) (by simpa using hx)
  refine ⟨bytes, h, fun rest => ?_⟩
  have := deserializeU64VarintLoop_serialize 8 0 0 x bytes rest rfl (by norm_num) h
  simpa [deserializeU64Varint] using this

/-! ## The fixed-size fields -/

/-- The loop of `from_slice` is `Bytes.ofBe`, over what it has read before. -/
theorem foldl_fromSlice (bytes : List UInt8) (acc : ℕ) :
    bytes.foldl (fun acc b => 256 * acc + b.toNat) acc = acc * 256 ^ bytes.length + Bytes.ofBe bytes := by
  induction bytes generalizing acc with
  | nil => simp [Bytes.ofBe]
  | cons b bytes ih =>
    rw [List.foldl_cons, ih, Bytes.ofBe, List.length_cons, Nat.pow_succ]
    ring

/-- A hash reads back from its 32 bytes. -/
theorem fromSlice_toVec {hash : HashValue} (h : hash.val < 2 ^ 256) :
    HashValue.fromSlice (HashValue.toVec hash) = .ok hash := by
  have hlen : (HashValue.toVec hash).length = HashValue.LENGTH := Bytes.length_toBe _ _
  have hfit : hash.val < 256 ^ HashValue.LENGTH := lt_of_lt_of_eq h (by norm_num [HashValue.LENGTH])
  rw [HashValue.fromSlice, if_pos hlen, foldl_fromSlice, HashValue.toVec, Bytes.ofBe_toBe hfit]
  simp

/-- `read_u16` reads back what `write_u16` writes. -/
theorem readU16_writeU16 (v : UInt16) (rest : List UInt8) : readU16 (writeU16 v ++ rest) = .ok (v, rest) := by
  have hv := v.toNat_lt
  simp only [writeU16, readU16, List.cons_append, List.nil_append, ok.injEq, Prod.mk.injEq, and_true]
  have h8 : (8 : UInt16).toNat % 16 = 8 := rfl
  apply UInt16.toNat_inj.mp
  simp only [UInt16.toNat_ofNat', UInt16.toNat_toUInt8, UInt16.toNat_shiftRight, h8, Nat.shiftRight_eq_div_pow]
  omega

/-! ## The bitmaps -/

/-- The loop of `generate_bitmaps` over some entries sets the bit of each of
their nibbles, and in the leaf bitmap the bit of each leaf among them. -/
theorem testBit_foldl_bitmaps (l : List (Σ _ : Nibble, Child)) (bitmaps : UInt16 × UInt16) (i : ℕ) :
    (l.foldl (fun (bitmaps : UInt16 × UInt16) entry =>
        let bit : UInt16 := (1 : UInt16) <<< entry.1.val.toUInt16
        (bitmaps.1 ||| bit, if entry.2.isLeaf then bitmaps.2 ||| bit else bitmaps.2)) bitmaps).1.toNat.testBit i =
      (bitmaps.1.toNat.testBit i || l.any fun entry => entry.1.val = i) ∧
    (l.foldl (fun (bitmaps : UInt16 × UInt16) entry =>
        let bit : UInt16 := (1 : UInt16) <<< entry.1.val.toUInt16
        (bitmaps.1 ||| bit, if entry.2.isLeaf then bitmaps.2 ||| bit else bitmaps.2)) bitmaps).2.toNat.testBit i =
      (bitmaps.2.toNat.testBit i || l.any fun entry => entry.1.val = i && entry.2.isLeaf) := by
  induction l generalizing bitmaps with
  | nil => simp
  | cons entry l ih =>
    have hbit : ∀ b : UInt16, (b ||| (1 : UInt16) <<< entry.1.val.toUInt16).toNat.testBit i =
        (b.toNat.testBit i || decide (entry.1.val = i)) := by
      intro b
      rw [UInt16.toNat_or, Nat.testBit_or, UInt16.toNat_one_shiftLeft entry.1.isLt, Nat.testBit_two_pow]
    obtain ⟨ih₁, ih₂⟩ := ih (bitmaps.1 ||| (1 : UInt16) <<< entry.1.val.toUInt16,
      if entry.2.isLeaf then bitmaps.2 ||| (1 : UInt16) <<< entry.1.val.toUInt16 else bitmaps.2)
    simp only [List.foldl_cons]
    refine ⟨?_, ?_⟩
    · rw [ih₁, hbit, List.any_cons, Bool.or_assoc]
    · rw [ih₂, List.any_cons]
      cases entry.2.isLeaf
      · simp
      · simp only [if_true, hbit, Bool.and_true, Bool.or_assoc]

/-- What `generate_bitmaps` computes: a bit for each child, and in the leaf
bitmap a bit for each leaf child; its `assert!` holds. -/
theorem generateBitmaps_eq (n : InternalNode) :
    ∃ existenceBitmap leafBitmap, n.generateBitmaps = .ok (existenceBitmap, leafBitmap) ∧
      (∀ i, existenceBitmap.toNat.testBit i = n.children.entries.any fun entry => entry.1.val = i) ∧
      (∀ i, leafBitmap.toNat.testBit i = n.children.entries.any fun entry => entry.1.val = i && entry.2.isLeaf) := by
  have hfold := testBit_foldl_bitmaps n.children.entries (0, 0)
  simp only [UInt16.toNat_zero, Nat.zero_testBit, Bool.false_or] at hfold
  simp only [InternalNode.generateBitmaps]
  refine ⟨_, _, if_pos ?_, fun i => (hfold i).1, fun i => (hfold i).2⟩
  apply UInt16.toNat_inj.mp
  apply Nat.eq_of_testBit_eq
  intro i
  rw [UInt16.toNat_or, Nat.testBit_or, (hfold i).1, (hfold i).2]
  cases h : n.children.entries.any fun entry => entry.1.val = i
  · have hleaf : (n.children.entries.any fun entry => entry.1.val = i && entry.2.isLeaf) = false := by
      simp only [List.any_eq_false, Bool.and_eq_true, decide_eq_true_eq, not_and] at h ⊢
      exact fun entry hmem hi => absurd hi (h entry hmem)
    rw [hleaf, Bool.or_false]
  · rfl

/-- The existence bit of a nibble is whether it has a child. -/
theorem any_entries_eq_isSome (n : InternalNode) (i : Nibble) :
    (n.children.entries.any fun entry => entry.1.val = i.val) = (n.child i).isSome := by
  rw [Bool.eq_iff_iff, List.any_eq_true, InternalNode.child, AList.lookup_isSome, AList.mem_keys, AList.keys,
    List.keys, List.mem_map]
  constructor
  · rintro ⟨entry, hmem, hi⟩
    exact ⟨entry, hmem, Fin.ext (of_decide_eq_true hi)⟩
  · rintro ⟨entry, hmem, rfl⟩
    exact ⟨entry, hmem, by simp⟩

/-- The leaf bit of a nibble is whether its child is a leaf. -/
theorem any_entries_isLeaf_eq (n : InternalNode) (i : Nibble) :
    (n.children.entries.any fun entry => entry.1.val = i.val && entry.2.isLeaf) = (n.child i).any Child.isLeaf := by
  rw [Bool.eq_iff_iff, List.any_eq_true, Option.any_eq_true]
  constructor
  · rintro ⟨⟨j, child⟩, hmem, h⟩
    simp only [Bool.and_eq_true, decide_eq_true_eq] at h
    obtain rfl : j = i := Fin.ext h.1
    exact ⟨child, AList.mem_lookup_iff.2 hmem, h.2⟩
  · rintro ⟨child, hchild, hleaf⟩
    exact ⟨⟨i, child⟩, AList.mem_lookup_iff.1 hchild, by simp [hleaf]⟩

/-! ## A round of the children -/

/-- A child's node type reads back from what `serialize` writes after its
hash, with the leaf counts persisted. -/
theorem readNodeType_serializeNodeType {child : Child} (hfits : child.Fits) :
    ∃ bytes, serializeNodeType true child.nodeType = .ok bytes ∧
      ∀ rest, readNodeType true child.isLeaf (bytes ++ rest) = .ok (child.nodeType, rest) := by
  obtain ⟨-, -, hcount⟩ := hfits
  rcases child with ⟨hash, version, _ | _ | leafCount⟩
  · exact ⟨[], rfl, fun rest => rfl⟩
  · -- an unknown count is written as zero
    obtain ⟨bytes, h, hread⟩ := @deserializeU64Varint_serializeU64Varint 0 (by norm_num)
    refine ⟨bytes, by simpa [serializeNodeType] using h, fun rest => ?_⟩
    simp [readNodeType, Child.isLeaf, hread]
  · obtain ⟨hpos, hlt⟩ := hcount leafCount rfl
    obtain ⟨bytes, h, hread⟩ := deserializeU64Varint_serializeU64Varint hlt
    refine ⟨bytes, by simpa [serializeNodeType] using h, fun rest => ?_⟩
    simp [readNodeType, Child.isLeaf, hread, Nat.pos_iff_ne_zero.1 hpos]

section Children

variable {n : InternalNode} {leafBitmap : UInt16}

/-- **One round**: the child at the lowest bit of `b`, as `serialize` writes
it, is what `deserialize` reads, and both clear that bit. -/
theorem serializeChild_roundTrip (hleaf : ∀ i : Nibble, leafBitmap.toNat.testBit i = (n.child i).any Child.isLeaf)
    {b : UInt16} (hb : b ≠ 0) {j : Nibble} (hj : j.val = b.toNat.trailingZeros) {child : Child}
    (hchild : n.child j = some child) (hfits : child.Fits) :
    ∃ bytes, n.serializeChild true b = .ok (b &&& ~~~((1 : UInt16) <<< b.trailingZeros.toUInt16), bytes) ∧
      ∀ acc rest, deserializeChild true leafBitmap b acc (bytes ++ rest) =
        .ok (b &&& ~~~((1 : UInt16) <<< b.trailingZeros.toUInt16), acc.insert j child, rest) := by
  obtain ⟨nodeType, hn, hreadn⟩ := readNodeType_serializeNodeType hfits
  obtain ⟨hversion, hhash, -⟩ := hfits
  obtain ⟨version, hv, hreadv⟩ := deserializeU64Varint_serializeU64Varint hversion
  have htz := UInt16.trailingZeros_of_ne_zero hb
  have hnib : Nibble.fromU8 b.trailingZeros = .ok j := by
    rw [htz, ← hj, Nibble.fromU8_of_lt j.isLt]
  refine ⟨version ++ HashValue.toVec child.hash ++ nodeType, ?_, fun acc rest => ?_⟩
  · simp only [InternalNode.serializeChild, hnib, ok_bind, hchild, hv, hn]
  · -- the version, the 32 bytes of the hash, and the node type the leaf bit says
    have hleafIff : (leafBitmap &&& (1 : UInt16) <<< b.trailingZeros.toUInt16 ≠ 0) ↔ child.isLeaf = true := by
      rw [htz, ← hj, UInt16.and_one_shiftLeft_ne_zero_iff leafBitmap j.isLt, hleaf j, hchild, Option.any_some]
    have hleafBit : decide (leafBitmap &&& (1 : UInt16) <<< b.trailingZeros.toUInt16 ≠ 0) = child.isLeaf := by
      rw [Bool.eq_iff_iff, decide_eq_true_iff]
      exact hleafIff
    have hhashLen : (HashValue.toVec child.hash).length = HashValue.LENGTH := Bytes.length_toBe _ _
    have hlen : ¬ (HashValue.toVec child.hash ++ (nodeType ++ rest)).length < HashValue.LENGTH := by
      rw [List.length_append, hhashLen]
      omega
    simp only [deserializeChild, List.append_assoc, hreadv, ok_bind, if_neg hlen, List.take_left' hhashLen,
      List.drop_left' hhashLen, fromSlice_toVec hhash, hleafBit, hreadn, hnib]

/-- **The loop**: when every bit of `b` names a child that fits, `serialize`
writes them all, lowest bit first, and `deserialize` reads them all back into
its map, ending with the bitmap cleared. -/
theorem serializeChildren_roundTrip (hleaf : ∀ i : Nibble, leafBitmap.toNat.testBit i = (n.child i).any Child.isLeaf)
    (hfits : ∀ i child, n.child i = some child → child.Fits) :
    ∀ (k : ℕ) (b : UInt16), b.countOnes = k → (∀ i : Nibble, b.toNat.testBit i = true → (n.child i).isSome) →
      ∃ bytes, n.serializeChildren true k b = .ok bytes ∧ ∀ acc rest, ∃ children,
        deserializeChildren true leafBitmap k b acc (bytes ++ rest) = .ok (0, children, rest) ∧
        ∀ i : Nibble, children.lookup i = if b.toNat.testBit i then n.child i else acc.lookup i := by
  intro k
  induction k with
  | zero =>
    intro b hcount _
    obtain rfl : b = 0 := UInt16.toNat_inj.mp (by simpa using Nat.countOnes_eq_zero_iff.1 hcount)
    exact ⟨[], rfl, fun acc rest => ⟨acc, rfl, fun i => by simp⟩⟩
  | succ k ih =>
    intro b hcount hchildren
    have hb : b ≠ 0 := by
      rintro rfl
      simp [UInt16.countOnes] at hcount
    have hpos := UInt16.toNat_pos_of_ne_zero hb
    have ht : b.toNat.trailingZeros < 16 := Nat.trailingZeros_lt hpos b.toNat_lt
    obtain ⟨child, hchild⟩ := Option.isSome_iff_exists.1 (hchildren ⟨_, ht⟩ (Nat.testBit_trailingZeros hpos))
    obtain ⟨bytes, hser, hdes⟩ := serializeChild_roundTrip hleaf hb rfl hchild (hfits _ _ hchild)
    set b' := b &&& ~~~((1 : UInt16) <<< b.trailingZeros.toUInt16) with hb'
    have hb'nat : b'.toNat = b.toNat &&& (2 ^ 16 - (2 ^ b.toNat.trailingZeros + 1)) := by
      rw [hb', UInt16.trailingZeros_of_ne_zero hb, UInt16.toNat_and_not_one_shiftLeft _ ht]
    have hbit : ∀ i : Nibble, b'.toNat.testBit i = (b.toNat.testBit i && decide (b.toNat.trailingZeros ≠ i)) := by
      intro i
      rw [hb'nat, Nat.testBit_and_clear ht]
      simp [i.isLt]
    have hcount' : b'.countOnes = k := by
      have := Nat.countOnes_and_clear_trailingZeros hpos b.toNat_lt
      rw [UInt16.countOnes] at hcount ⊢
      rw [hb'nat]
      omega
    obtain ⟨rest, hrest, hrt⟩ := ih b' hcount' fun i hi => hchildren i (by rw [hbit] at hi; simp_all)
    refine ⟨bytes ++ rest, by simp [InternalNode.serializeChildren, hser, hrest], fun acc r => ?_⟩
    obtain ⟨children, hloop, hlookup⟩ := hrt (acc.insert ⟨_, ht⟩ child) r
    refine ⟨children, ?_, fun i => ?_⟩
    · simp only [deserializeChildren, List.append_assoc, hdes, ok_bind, hloop]
    · rw [hlookup i, hbit i]
      by_cases hi : b.toNat.trailingZeros = i.val
      · -- the nibble of this round
        obtain rfl : i = ⟨_, ht⟩ := Fin.ext hi.symm
        simp [Nat.testBit_trailingZeros hpos, AList.lookup_insert, hchild]
      · have hne : i ≠ ⟨_, ht⟩ := fun h => hi (by rw [h])
        simp [hi, AList.lookup_insert_ne hne]

end Children

/-! ## The node -/

/-- `sum_leaf_count` does not depend on the order the children come in. -/
theorem sumLeafCountLoop_perm {l₁ l₂ : List Child} (h : l₁.Perm l₂) (leafCount : ℕ) :
    sumLeafCountLoop l₁ leafCount = sumLeafCountLoop l₂ leafCount := by
  induction h generalizing leafCount with
  | nil => rfl
  | cons child _ ih =>
    simp only [sumLeafCountLoop]
    cases child.leafCount <;> simp [ih]
  | swap a b l =>
    simp only [sumLeafCountLoop]
    cases a.leafCount <;> cases b.leafCount <;> simp [Nat.mod_add_mod, Nat.add_right_comm]
  | trans _ _ ih₁ ih₂ => rw [ih₁, ih₂]

/-- Whether the children are a single leaf does not depend on their order. -/
theorem isSingleLeaf_eq_of_perm {a b : Children} (h : a.entries.Perm b.entries) : a.isSingleLeaf = b.isSingleLeaf := by
  rw [Bool.eq_iff_iff, Children.isSingleLeaf_iff, Children.isSingleLeaf_iff]
  constructor
  · rintro ⟨nibble, child, ha, hleaf⟩
    rw [ha] at h
    exact ⟨nibble, child, List.perm_singleton.1 h.symm, hleaf⟩
  · rintro ⟨nibble, child, hb, hleaf⟩
    rw [hb] at h
    exact ⟨nibble, child, List.perm_singleton.1 h, hleaf⟩

/-- Two maps with the same child at every nibble hold the same entries. -/
theorem entries_perm_of_lookup {a b : Children} (h : ∀ i, a.lookup i = b.lookup i) : a.entries.Perm b.entries :=
  List.lookup_ext a.nodupKeys b.nodupKeys fun i child => by
    rw [show a.entries.dlookup i = b.entries.dlookup i from h i]

/-- **`deserialize` reads back what `serialize` writes** with the leaf counts,
for a node whose children fit: a node with the same child at every nibble,
the same leaf count, and the flag to persist the counts. -/
theorem deserialize_serialize {n : InternalNode} (hfits : ∀ i child, n.child i = some child → child.Fits) :
    ∃ bytes, n.serialize true = .ok bytes ∧ ∃ n', InternalNode.deserialize bytes true = .ok n' ∧
      (∀ i, n'.child i = n.child i) ∧ n'.leafCount = n.leafCount ∧ n'.leafCountMigration = true := by
  obtain ⟨existenceBitmap, leafBitmap, hgen, hE, hL⟩ := generateBitmaps_eq n
  have hEnib : ∀ i : Nibble, existenceBitmap.toNat.testBit i = (n.child i).isSome := fun i => by
    rw [hE, any_entries_eq_isSome]
  have hLnib : ∀ i : Nibble, leafBitmap.toNat.testBit i = (n.child i).any Child.isLeaf := fun i => by
    rw [hL, any_entries_isLeaf_eq]
  obtain ⟨bytes, hser, hrt⟩ := serializeChildren_roundTrip hLnib hfits existenceBitmap.countOnes existenceBitmap rfl
    fun i hi => by rwa [hEnib] at hi
  obtain ⟨children, hloop, hlookup⟩ := hrt ∅ []
  have hchildren : ∀ i, children.lookup i = n.child i := fun i => by
    rw [hlookup i, hEnib i]
    cases n.child i <;> simp
  have hperm := entries_perm_of_lookup hchildren
  -- the checks of `deserialize` on the two bitmaps pass
  have hne : existenceBitmap ≠ 0 := by
    obtain ⟨⟨i, child⟩, hmem⟩ := List.exists_mem_of_ne_nil _ n.children_ne_nil
    have hany : (n.children.entries.any fun entry => entry.1.val = i.val) = true :=
      List.any_eq_true.2 ⟨_, hmem, decide_eq_true rfl⟩
    intro h0
    rw [← hE, h0] at hany
    simp at hany
  have hsub : existenceBitmap &&& leafBitmap = leafBitmap := by
    apply UInt16.toNat_inj.mp
    apply Nat.eq_of_testBit_eq
    intro i
    rw [UInt16.toNat_and, Nat.testBit_and, hE, hL]
    cases h : n.children.entries.any fun entry => entry.1.val = i && entry.2.isLeaf
    · simp
    · -- a leaf's nibble is a child's nibble
      obtain ⟨entry, hmem, hentry⟩ := List.any_eq_true.1 h
      simp only [Bool.and_eq_true, decide_eq_true_eq] at hentry
      simp only [Bool.and_true]
      exact List.any_eq_true.2 ⟨entry, hmem, by simp [hentry.1]⟩
  have h₀ : children.entries ≠ [] := fun h => n.children_ne_nil (List.Perm.eq_nil (h ▸ hperm).symm)
  have h₁ : children.isSingleLeaf = false := (isSingleLeaf_eq_of_perm hperm).trans n.not_isSingleLeaf
  refine ⟨writeU16 existenceBitmap ++ writeU16 leafBitmap ++ bytes, ?_, ⟨children, true, h₀, h₁⟩, ?_,
    hchildren, ?_, rfl⟩
  · simp only [InternalNode.serialize, hgen, ok_bind, hser]
  · have hbytes : writeU16 existenceBitmap ++ writeU16 leafBitmap ++ bytes =
        writeU16 existenceBitmap ++ (writeU16 leafBitmap ++ (bytes ++ [])) := by simp
    simp only [InternalNode.deserialize, hbytes, readU16_writeU16, ok_bind, hne, if_false, hsub, ne_eq,
      not_true_eq_false, hloop, InternalNode.newMigration, h₀, h₁]
    rfl
  · exact sumLeafCountLoop_perm (hperm.map Sigma.snd) 0

/-- A node as the tree writes it: an internal node persists its leaf counts
and its children fit. -/
def Node.Written {V : Type} : Node V → Prop
  | .Internal n => n.leafCountMigration = true ∧ ∀ i child, n.child i = some child → child.Fits
  | _ => True

section RoundTrip

variable {V : Type} (leafToBytes : LeafNode V → List UInt8) (leafFromBytes : List UInt8 → Except String (LeafNode V))

/-- **`Node::decode` of `Node::encode`** of a node the tree writes is that
node, a leaf when `bcs` reads it back. -/
theorem decode_encode_eqv {node : Node V} (hwritten : node.Written)
    (hbcs : ∀ leaf, node = .Leaf leaf → leafFromBytes (leafToBytes leaf) = .ok leaf) :
    ∃ bytes node', Node.encode leafToBytes node = .ok bytes ∧ Node.decode leafFromBytes bytes = .ok node' ∧
      node'.Eqv node := by
  cases node with
  | Null => exact ⟨_, _, rfl, rfl, trivial⟩
  | Internal n =>
    obtain ⟨hmigration, hfits⟩ := hwritten
    obtain ⟨bytes, hser, n', hdes, hchild, hcount, hmigration'⟩ := deserialize_serialize hfits
    refine ⟨NodeTag.Internal.toU8 :: bytes, .Internal n', ?_, ?_, hchild, hcount, hmigration'.trans hmigration.symm⟩
    · simp only [Node.encode, hmigration, if_true, hser, ok_bind]
    · simp [Node.decode, NodeTag.toU8, NodeTag.fromU8, hdes]
  | Leaf leaf =>
    refine ⟨NodeTag.Leaf.toU8 :: leafToBytes leaf, .Leaf leaf, rfl, ?_, rfl⟩
    simp [Node.decode, NodeTag.toU8, NodeTag.fromU8, hbcs leaf rfl]

end RoundTrip

/-- `Node::encode` and `Node::decode` round-trip every node the tree writes,
up to the `PartialEq` of `Node`, and `deserialize_u64_varint` reads every
`u64` back from `serialize_u64_varint`, consuming exactly what it wrote. -/
theorem node_encoding_roundTrip {V : Type} (leafToBytes : LeafNode V → List UInt8)
    (leafFromBytes : List UInt8 → Except String (LeafNode V)) :
    (∀ node : Node V, node.Written → (∀ leaf, node = .Leaf leaf → leafFromBytes (leafToBytes leaf) = .ok leaf) →
      ∃ bytes node', Node.encode leafToBytes node = .ok bytes ∧ Node.decode leafFromBytes bytes = .ok node' ∧
        node'.Eqv node) ∧
    ∀ x, x < 2 ^ 64 →
      ∃ bytes, serializeU64Varint x = .ok bytes ∧ ∀ rest, deserializeU64Varint (bytes ++ rest) = .ok (x, rest) :=
  ⟨fun _ hwritten hbcs => decode_encode_eqv leafToBytes leafFromBytes hwritten hbcs,
    fun _ hx => deserializeU64Varint_serializeU64Varint hx⟩

/-- An internal node with two leaf children, at nibbles 0 and 1. -/
def twoLeavesNode : InternalNode where
  children := ((∅ : Children).insert 0 ⟨⟨5⟩, 7, .Leaf⟩).insert 1 ⟨⟨5⟩, 7, .Leaf⟩
  leafCountMigration := true
  children_ne_nil := by decide
  not_isSingleLeaf := by decide

/-- The node of two leaves, with leaves written as their account key and read
by a decoder that never succeeds: the leaf premise holds vacuously. -/
theorem node_encoding_roundTrip_twoLeaves :
    (Node.Internal twoLeavesNode : Node Unit).Written ∧
    (∀ leaf, (Node.Internal twoLeavesNode : Node Unit) = .Leaf leaf →
      (fun _ => .error "unexpected end of input" : List UInt8 → Except String (LeafNode Unit))
        (HashValue.toVec leaf.accountKey) = .ok leaf) ∧
    ∃ bytes node', Node.encode (fun leaf : LeafNode Unit => HashValue.toVec leaf.accountKey)
        (Node.Internal twoLeavesNode) = .ok bytes ∧
      Node.decode (fun _ => .error "unexpected end of input") bytes = .ok node' ∧
      node'.Eqv (.Internal twoLeavesNode : Node Unit) := by
  have hwritten : (Node.Internal twoLeavesNode : Node Unit).Written := by
    refine ⟨rfl, fun i child h => ?_⟩
    have hmem := AList.mem_lookup_iff.1 h
    have hchild : child = ⟨⟨5⟩, 7, .Leaf⟩ := by
      simp [twoLeavesNode, AList.entries_insert] at hmem
      rcases hmem with ⟨-, rfl⟩ | ⟨-, rfl⟩ <;> rfl
    subst hchild
    exact ⟨by norm_num, by norm_num, fun _ h => by cases h⟩
  have hbcs : ∀ leaf, (Node.Internal twoLeavesNode : Node Unit) = .Leaf leaf →
      (fun _ => .error "unexpected end of input" : List UInt8 → Except String (LeafNode Unit))
        (HashValue.toVec leaf.accountKey) = .ok leaf := fun _ h => by cases h
  exact ⟨hwritten, hbcs, (node_encoding_roundTrip (fun leaf => HashValue.toVec leaf.accountKey)
    (fun _ => .error "unexpected end of input")).1 _ hwritten hbcs⟩

end Diem.JellyfishMerkle
