import Diem.Storage.JellyfishMerkle.NodeType

/-!
# Decoding a node: where it panics

`Node::decode` reads a node that the tree itself wrote, but it takes any bytes,
so it is asked to end in `Ok` or `Err` on every input. This module follows its
internal-node branch through the loop of `InternalNode::deserialize` and into
`new_migration`.

The loop runs once for each bit of the existence bitmap, reads each child at a
nibble not read before, and never panics (`deserializeChildren_spec`). So
`Node::decode` panics exactly when its input is an internal node whose two
bitmaps are the same single bit: a single leaf child, which the second `assert!`
of `new_migration` rejects after all the checks of `deserialize` have passed
(**`decode_panics_iff`**, `decode_singleLeaf_panics`). An input whose two
internal children claim `u64::MAX` and `2` leaves decodes with a leaf count of
`1`, since the `usize` sum wraps in a release build (`decode_leafCount_wraps`).
-/

namespace Diem.JellyfishMerkle

open Except

theorem deserializeChild_eq_ok {readLeafCounts : Bool} {leafBitmap existenceBitmap : UInt16} {children : Children}
    {reader : List UInt8} {result : UInt16 × Children × List UInt8} (hb : existenceBitmap ≠ 0) :
    deserializeChild readLeafCounts leafBitmap existenceBitmap children reader = .ok result ↔
      ∃ n : Nibble, ∃ version r hash nodeType, n.val = existenceBitmap.toNat.trailingZeros ∧
        deserializeU64Varint reader = .ok (version, r) ∧ HashValue.LENGTH ≤ r.length ∧
        HashValue.fromSlice (r.take HashValue.LENGTH) = .ok hash ∧
        readNodeType readLeafCounts (leafBitmap.toNat.testBit n) (r.drop HashValue.LENGTH) = .ok (nodeType, result.2.2) ∧
        result.1.toNat = existenceBitmap.toNat &&& (2 ^ 16 - (2 ^ n.val + 1)) ∧
        result.2.1 = children.insert n ⟨hash, version, nodeType⟩ := by
  have ht := UInt16.trailingZeros_lt_of_ne_zero hb
  rw [UInt16.trailingZeros_of_ne_zero hb] at ht
  have hleaf := UInt16.and_one_shiftLeft_ne_zero_iff leafBitmap ht
  simp only [deserializeChild, UInt16.trailingZeros_of_ne_zero hb, Nibble.fromU8_of_lt ht, bind_eq_ok,
    decide_eq_decide.mpr hleaf, Bool.decide_eq_true]
  constructor
  · rintro ⟨⟨version, r⟩, hv, h⟩
    split_ifs at h with hlen
    simp only [bind_eq_ok, ok.injEq] at h
    obtain ⟨hash, hh, ⟨nodeType, r'⟩, hn, _, rfl, rfl⟩ := h
    exact ⟨⟨_, ht⟩, version, r, hash, nodeType, rfl, hv, Nat.not_lt.mp hlen, hh, hn,
      UInt16.toNat_and_not_one_shiftLeft _ ht, rfl⟩
  · rintro ⟨⟨t, ht'⟩, version, r, hash, nodeType, rfl, hv, hlen, hh, hn, h1, h2⟩
    refine ⟨(version, r), hv, ?_⟩
    rw [if_neg (Nat.not_lt.mpr hlen)]
    simp only [bind_eq_ok, ok.injEq]
    refine ⟨hash, hh, (nodeType, result.2.2), hn, _, rfl, ?_⟩
    obtain ⟨b', children', r'⟩ := result
    simp only at h1 h2 ⊢
    rw [h2, ← UInt16.toNat_inj.mp (h1.trans (UInt16.toNat_and_not_one_shiftLeft _ ht).symm)]

theorem deserializeChild_noPanic {readLeafCounts : Bool} {leafBitmap existenceBitmap : UInt16} {children : Children}
    {reader : List UInt8} (hb : existenceBitmap ≠ 0) :
    NoPanic (deserializeChild readLeafCounts leafBitmap existenceBitmap children reader) := by
  have ht := UInt16.trailingZeros_lt_of_ne_zero hb
  unfold deserializeChild
  refine (deserializeU64Varint_noPanic reader).bind fun ⟨version, r⟩ _ => ?_
  dsimp only
  split_ifs
  · simp
  · refine (HashValue.fromSlice_noPanic _).bind fun hash _ => ?_
    refine (readNodeType_noPanic _ _ _).bind fun ⟨nodeType, r'⟩ _ => ?_
    simp [Nibble.fromU8_of_lt ht]

/-- The nibbles already read are clear in the bitmap. -/
def Unread (existenceBitmap : UInt16) (children : Children) : Prop :=
  ∀ k ∈ children.keys, existenceBitmap.toNat.testBit k = false

/-- A round reads one child, at a nibble not read before, and clears its bit. -/
theorem deserializeChild_unread {readLeafCounts : Bool} {leafBitmap existenceBitmap : UInt16} {children : Children}
    {reader : List UInt8} {result : UInt16 × Children × List UInt8} (hb : existenceBitmap ≠ 0)
    (hunread : Unread existenceBitmap children)
    (h : deserializeChild readLeafCounts leafBitmap existenceBitmap children reader = .ok result) :
    result.1.countOnes + 1 = existenceBitmap.countOnes ∧ Unread result.1 result.2.1 ∧
      result.2.1.entries.length = children.entries.length + 1 := by
  obtain ⟨n, version, r, hash, nodeType, hn, -, -, -, -, h1, h2⟩ := (deserializeChild_eq_ok hb).1 h
  have hpos := UInt16.toNat_pos_of_ne_zero hb
  have hbit : existenceBitmap.toNat.testBit n = true := hn ▸ Nat.testBit_trailingZeros hpos
  have hnew : n ∉ children := fun hmem => by
    rw [hunread n (AList.mem_keys.1 hmem)] at hbit
    exact Bool.false_ne_true hbit
  refine ⟨?_, ?_, ?_⟩
  · rw [UInt16.countOnes, h1, hn]
    exact Nat.countOnes_and_clear_trailingZeros hpos existenceBitmap.toNat_lt
  · intro k hk
    rw [h2, AList.keys_insert, List.mem_cons] at hk
    rw [h1, Nat.testBit_and_clear n.isLt]
    rcases hk with rfl | hk
    · simp
    · simp [hunread k (List.mem_of_mem_erase hk)]
  · rw [h2, AList.entries_insert, List.length_cons, List.kerase_of_notMem_keys hnew]

/-- The loop reads one child for each bit of the existence bitmap and ends
with the bitmap cleared, and it never panics. -/
theorem deserializeChildren_spec (readLeafCounts : Bool) (leafBitmap : UInt16) :
    ∀ n existenceBitmap children reader, existenceBitmap.countOnes = n → Unread existenceBitmap children →
      NoPanic (deserializeChildren readLeafCounts leafBitmap n existenceBitmap children reader) ∧
      ∀ result, deserializeChildren readLeafCounts leafBitmap n existenceBitmap children reader = .ok result →
        result.1 = 0 ∧ result.2.1.entries.length = children.entries.length + n
  | 0, existenceBitmap, children, reader, hcount, _ => by
    refine ⟨by simp [deserializeChildren], fun result h => ?_⟩
    simp only [deserializeChildren, ok.injEq] at h
    subst h
    refine ⟨UInt16.toNat_inj.mp ?_, rfl⟩
    exact Nat.countOnes_eq_zero_iff.mp hcount
  | n + 1, existenceBitmap, children, reader, hcount, hunread => by
    have hb : existenceBitmap ≠ 0 := by
      rintro rfl
      simp [UInt16.countOnes] at hcount
    constructor
    · simp only [deserializeChildren]
      refine (deserializeChild_noPanic hb).bind fun next h => ?_
      obtain ⟨b, children', r⟩ := next
      obtain ⟨hcount', hunread', -⟩ := deserializeChild_unread hb hunread h
      exact (deserializeChildren_spec readLeafCounts leafBitmap n b children' r (by simp at hcount'; omega)
        hunread').1
    · intro result h
      simp only [deserializeChildren, bind_eq_ok] at h
      obtain ⟨⟨b, children', r⟩, h, hrest⟩ := h
      obtain ⟨hcount', hunread', hlen⟩ := deserializeChild_unread hb hunread h
      obtain ⟨h0, hlen'⟩ := (deserializeChildren_spec readLeafCounts leafBitmap n b children' r
        (by simp at hcount'; omega) hunread').2 result hrest
      exact ⟨h0, by simp at hlen; omega⟩

/-- An encoded internal node with one child, a leaf: the same single bit in
both bitmaps, then the child's version and at least a hash. -/
def SingleLeafPayload (data : List UInt8) : Prop :=
  ∃ existenceBitmap r₁ r₂ version r₃, existenceBitmap.countOnes = 1 ∧
    readU16 data = .ok (existenceBitmap, r₁) ∧ readU16 r₁ = .ok (existenceBitmap, r₂) ∧
    deserializeU64Varint r₂ = .ok (version, r₃) ∧ HashValue.LENGTH ≤ r₃.length

/-- `InternalNode::deserialize` panics exactly on a single leaf child, in the
second `assert!` of `new_migration`; the loop's `Nibble::from` and its closing
`assert_eq!` never fire. -/
theorem deserialize_panics_iff (data : List UInt8) (readLeafCounts : Bool) :
    (∃ m, InternalNode.deserialize data readLeafCounts = .error (.panic m)) ↔ SingleLeafPayload data := by
  constructor
  · rintro ⟨m, h⟩
    unfold InternalNode.deserialize at h
    rcases bind_eq_error.1 h with h | ⟨⟨existenceBitmap, r₁⟩, h₁, h⟩
    · exact absurd trivial (readU16_noPanic data _ h)
    rcases bind_eq_error.1 h with h | ⟨⟨leafBitmap, r₂⟩, h₂, h⟩
    · exact absurd trivial (readU16_noPanic r₁ _ h)
    dsimp only at h
    split_ifs at h with he0 hextra
    · simp at h
    · simp at h
    rcases bind_eq_error.1 h with h | ⟨⟨b, children, r⟩, hloop, h⟩
    · exact absurd trivial ((deserializeChildren_spec readLeafCounts leafBitmap _ existenceBitmap ∅ r₂ rfl
        (by simp [Unread])).1 _ h)
    obtain ⟨hb0, hlen⟩ := (deserializeChildren_spec readLeafCounts leafBitmap _ existenceBitmap ∅ r₂ rfl
      (by simp [Unread])).2 _ hloop
    simp only at hb0 hlen
    subst hb0
    simp only [ne_eq, not_true_eq_false, if_false, InternalNode.newMigration] at h
    split_ifs at h with hnil hsingle
    · rw [hnil] at hlen
      have := Nat.countOnes_pos (UInt16.toNat_pos_of_ne_zero he0)
      simp [UInt16.countOnes] at hlen
      omega
    · obtain ⟨n, child, hentries, hleafChild⟩ := Children.isSingleLeaf_iff.1 hsingle
      have hcount : existenceBitmap.countOnes = 1 := by simp [hentries] at hlen; omega
      rw [hcount, deserializeChildren_one, deserializeChild_eq_ok he0] at hloop
      obtain ⟨n', version, r₃, hash, nodeType, hn', hv, hlen₃, -, hread, -, hchildren⟩ := hloop
      simp only at hchildren
      have hchild : child = ⟨hash, version, nodeType⟩ := by
        rw [hchildren, AList.entries_insert] at hentries
        simp at hentries
        exact (hentries.2).symm
      rw [hchild, Child.isLeaf_iff] at hleafChild
      simp only at hleafChild
      rw [hleafChild] at hread
      have hbit := readNodeType_leaf hread
      have htwo := Nat.eq_two_pow_of_countOnes_eq_one hcount
      have hsub : leafBitmap.toNat &&& 2 ^ existenceBitmap.toNat.trailingZeros = leafBitmap.toNat := by
        have := congrArg UInt16.toNat (not_not.mp hextra)
        rwa [UInt16.toNat_and, htwo, Nat.and_comm] at this
      have hleaf : leafBitmap = existenceBitmap := by
        apply UInt16.toNat_inj.mp
        rw [Nat.eq_two_pow_of_and_two_pow hsub (hn' ▸ hbit), ← htwo]
      subst hleaf
      exact ⟨leafBitmap, r₁, r₂, version, r₃, hcount, h₁, h₂, hv, hlen₃⟩
  · rintro ⟨existenceBitmap, r₁, r₂, version, r₃, hcount, h₁, h₂, hv, hlen⟩
    have he0 : existenceBitmap ≠ 0 := by
      rintro rfl
      simp [UInt16.countOnes] at hcount
    have hpos := UInt16.toNat_pos_of_ne_zero he0
    have htlt : existenceBitmap.toNat.trailingZeros < 16 := Nat.trailingZeros_lt hpos existenceBitmap.toNat_lt
    obtain ⟨hash, hh⟩ := HashValue.fromSlice_eq_ok
      (show (r₃.take HashValue.LENGTH).length = HashValue.LENGTH by simp [hlen])
    have hclear : (0 : UInt16).toNat =
        existenceBitmap.toNat &&& (2 ^ 16 - (2 ^ existenceBitmap.toNat.trailingZeros + 1)) := by
      have := Nat.countOnes_and_clear_trailingZeros hpos existenceBitmap.toNat_lt
      rw [UInt16.countOnes] at hcount
      rw [UInt16.toNat_zero, eq_comm, ← Nat.countOnes_eq_zero_iff]
      omega
    have hchild : deserializeChild readLeafCounts existenceBitmap existenceBitmap ∅ r₂ =
        .ok (0, (∅ : Children).insert ⟨_, htlt⟩ ⟨hash, version, .Leaf⟩, r₃.drop HashValue.LENGTH) :=
      (deserializeChild_eq_ok he0).2 ⟨⟨_, htlt⟩, version, r₃, hash, .Leaf, rfl, hv, hlen, hh,
        by simp [readNodeType, Nat.testBit_trailingZeros hpos], hclear, rfl⟩
    refine ⟨"assertion failed: !children.values().next().expect(\"Must have 1 element\").is_leaf()", ?_⟩
    simp only [InternalNode.deserialize, h₁, h₂, ok_bind, he0, if_false, UInt16.and_self,
      ne_eq, not_true_eq_false, hcount, deserializeChildren_one, hchild, InternalNode.newMigration]
    rfl

section Decode

variable {V : Type} (leafFromBytes : List UInt8 → Except String (LeafNode V))

/-- `Node::decode` panics exactly on an internal node, of either tag, whose
single child is a leaf. -/
theorem decode_panics_iff (b : List UInt8) :
    (∃ m, Node.decode leafFromBytes b = .error (.panic m)) ↔
      ∃ tag rest, b = tag :: rest ∧ (tag = 1 ∨ tag = 3) ∧ SingleLeafPayload rest := by
  rcases b with _ | ⟨tag, rest⟩
  · simp [Node.decode]
  · have hrhs : (∃ tag' rest', tag :: rest = tag' :: rest' ∧ (tag' = 1 ∨ tag' = 3) ∧ SingleLeafPayload rest') ↔
        (tag = 1 ∨ tag = 3) ∧ SingleLeafPayload rest := by
      simp
    rw [hrhs]
    simp only [Node.decode]
    rcases htag : NodeTag.fromU8 tag with _ | _ | _ | _ | _
    · have h1 : tag ≠ 1 := fun h => by simp [h, NodeTag.fromU8] at htag
      have h3 : tag ≠ 3 := fun h => by simp [h, NodeTag.fromU8] at htag
      simp [h1, h3]
    all_goals obtain rfl := NodeTag.fromU8_eq_some.1 htag
    · simp [NodeTag.toU8]
    · simp [NodeTag.toU8, Except.map_eq_error, deserialize_panics_iff]
    · cases leafFromBytes rest <;> simp [NodeTag.toU8]
    · simp [NodeTag.toU8, Except.map_eq_error, deserialize_panics_iff]

/-- An internal node whose only child, at nibble 0, is a leaf. -/
theorem decode_singleLeaf_panics :
    Node.decode leafFromBytes ([3, 1, 0, 1, 0, 0] ++ List.replicate 32 0) =
      .error (.panic "assertion failed: !children.values().next().expect(\"Must have 1 element\").is_leaf()") := by
  rfl

/-- Two internal children of `u64::MAX` and `2` leaves: the node decodes, with
`leaf_count` the sum modulo `2 ^ 64`. -/
theorem decode_leafCount_wraps :
    ∃ node, Node.decode leafFromBytes ([3, 3, 0, 0, 0] ++ (0 :: List.replicate 32 0 ++ List.replicate 9 255) ++
      (0 :: List.replicate 32 0 ++ [2])) = .ok (.Internal node) ∧ node.leafCount = some 1 := by
  refine ⟨_, rfl, ?_⟩
  rfl

end Decode

end Diem.JellyfishMerkle
