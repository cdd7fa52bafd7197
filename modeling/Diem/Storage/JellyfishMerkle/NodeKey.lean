import Mathlib
import Diem.Theory.Bytes
import Diem.Types.NibblePath
import Diem.Types.NibblePath.Iterator
import Diem.Storage.JellyfishMerkle.NodeType

/-!
# Node keys as stored

`NodeKey::encode` and `NodeKey::decode` of
`storage/jellyfish-merkle/src/node_type/mod.rs`: a node is stored under its
version, eight bytes big-endian, then the number of nibbles of its path in one
byte, then the path's bytes. The comment on `encode` asks for "the same order as
that in memory": the bytes of two keys compare as the derived `Ord` of the keys
does.

`NodeKey` is the struct with its `NibblePath`; the restore of
`Diem.JellyfishMerkle.Restore` keys its nodes by the list of nibbles instead.
`encode` writes into a `Vec`, which does not fail, and `decode` reads through a
`Cursor`, the bytes not yet read.

`decode` inverts `encode` on every key (`decode_encode`), `encode` inverts
`decode` on every byte string it accepts (`encode_of_decode`), and the
byte-lexicographic order of encodings is the order of keys
(`encode_lt_encode_iff`); **`nodeKey_encoding_orderIso`** puts the three
together.
-/

namespace Diem.JellyfishMerkle.NodeType

/-- `NodeKey`. -/
structure NodeKey where
  /-- `version`. -/
  version : UInt64
  /-- `nibble_path`. -/
  nibblePath : NibblePath

namespace NodeKey

@[ext] theorem ext {a b : NodeKey} (hv : a.version = b.version) (hp : a.nibblePath = b.nibblePath) : a = b := by
  cases a
  cases b
  cases hv
  cases hp
  rfl

instance : DecidableEq NodeKey := fun a b =>
  decidable_of_iff (a.version = b.version ∧ a.nibblePath = b.nibblePath)
    ⟨fun ⟨hv, hp⟩ => NodeKey.ext hv hp, fun h => h ▸ ⟨rfl, rfl⟩⟩

/-- `NodeKey::new_empty_path`. -/
def newEmptyPath (version : UInt64) : NodeKey := ⟨version, NibblePath.new [] (by decide)⟩

/-- The derived `Ord`: `version`, then `nibble_path`. -/
def Lt (a b : NodeKey) : Prop := a.version < b.version ∨ a.version = b.version ∧ a.nibblePath.Lt b.nibblePath

/-- `NodeKey::gen_child_node_key`: the key of child `n` at `version`, one
nibble below. -/
def genChildNodeKey (k : NodeKey) (version : UInt64) (n : Nibble) : Except Failure NodeKey :=
  match k.nibblePath.push n with
  | some nodeNibblePath => .ok ⟨version, nodeNibblePath⟩
  | none => .error (.panic "assertion failed: ROOT_NIBBLE_HEIGHT > self.num_nibbles")

/-- `gen_child_node_key` panics only on a key at the height. -/
theorem exists_genChildNodeKey_iff (k : NodeKey) (version : UInt64) (n : Nibble) :
    (∃ child, k.genChildNodeKey version n = .ok child) ↔ k.nibblePath.numNibbles < Diem.ROOT_NIBBLE_HEIGHT := by
  rw [← NibblePath.isSome_push_iff k.nibblePath n, genChildNodeKey]
  cases k.nibblePath.push n <;> simp

theorem genChildNodeKey_eq_ok_iff {k child : NodeKey} {version : UInt64} {n : Nibble} :
    k.genChildNodeKey version n = .ok child ↔ child.version = version ∧ k.nibblePath.push n = some child.nibblePath := by
  unfold genChildNodeKey
  split
  · next p hp =>
    rw [hp, Except.ok.injEq, Option.some_inj]
    constructor
    · rintro rfl
      exact ⟨rfl, rfl⟩
    · rintro ⟨hv, hpath⟩
      exact NodeKey.ext hv.symm hpath
  · next hp =>
    rw [hp]
    simp

/-- The key of a child is one nibble below its parent, at the version asked for. -/
theorem genChildNodeKey_spec {k child : NodeKey} {version : UInt64} {n : Nibble}
    (h : k.genChildNodeKey version n = .ok child) :
    child.version = version ∧ child.nibblePath.nibbleList = k.nibblePath.nibbleList ++ [n] := by
  obtain ⟨hv, hpush⟩ := genChildNodeKey_eq_ok_iff.1 h
  exact ⟨hv, NibblePath.nibbleList_push hpush⟩

/-- The child key of a key on the same path, at another version, is on the
same path. -/
theorem genChildNodeKey_of_nibblePath_eq {k k' child : NodeKey} {version : UInt64} {n : Nibble}
    (h : k.genChildNodeKey version n = .ok child) (hpath : k'.nibblePath = k.nibblePath) (version' : UInt64) :
    k'.genChildNodeKey version' n = .ok ⟨version', child.nibblePath⟩ :=
  genChildNodeKey_eq_ok_iff.2 ⟨rfl, hpath ▸ (genChildNodeKey_eq_ok_iff.1 h).2⟩

/-- Below the height, `gen_child_node_key` returns the key one nibble below. -/
theorem genChildNodeKey_of_lt {k : NodeKey} (hlt : k.nibblePath.nibbleList.length < Diem.ROOT_NIBBLE_HEIGHT)
    (version : UInt64) (n : Nibble) :
    ∃ child, k.genChildNodeKey version n = .ok child ∧ child.version = version ∧
      child.nibblePath.nibbleList = k.nibblePath.nibbleList ++ [n] := by
  rw [NibblePath.length_nibbleList] at hlt
  obtain ⟨child, hchild⟩ := (exists_genChildNodeKey_iff k version n).2 hlt
  exact ⟨child, hchild, genChildNodeKey_spec hchild⟩

/-- `NodeKey::encode`. -/
def encode (k : NodeKey) : List UInt8 :=
  Bytes.toBe 8 k.version.toNat ++ [UInt8.ofNat k.nibblePath.numNibbles] ++ k.nibblePath.bytes

/-- `Cursor::read_u64::<BigEndian>`. -/
def readU64BigEndian (reader : List UInt8) : Except Failure (UInt64 × List UInt8) :=
  if reader.length < 8 then .error (.error .unexpectedEof)
  else .ok (UInt64.ofNat (Bytes.ofBe (reader.take 8)), reader.drop 8)

/-- A count of nibbles within the height fills at most half as many bytes. -/
theorem length_le_of_numNibbles {n : ℕ} {bytes : List UInt8} (hle : n ≤ Diem.ROOT_NIBBLE_HEIGHT)
    (hlen : (n + 1) / 2 = bytes.length) : bytes.length ≤ Diem.ROOT_NIBBLE_HEIGHT / 2 := by
  unfold Diem.ROOT_NIBBLE_HEIGHT at *
  omega

theorem ne_nil_of_odd_numNibbles {n : ℕ} {bytes : List UInt8} (hlen : (n + 1) / 2 = bytes.length)
    (hodd : ¬n % 2 = 0) : bytes ≠ [] :=
  List.ne_nil_of_length_pos (by omega)

/-- `NodeKey::decode`. -/
def decode (val : List UInt8) : Except Failure NodeKey := do
  let (version, reader) ← readU64BigEndian val
  let (numNibbles, reader) ← readU8 reader
  let numNibbles := numNibbles.toNat
  if hle : numNibbles ≤ Diem.ROOT_NIBBLE_HEIGHT then
    let nibbleBytes := reader
    if hlen : (numNibbles + 1) / 2 = nibbleBytes.length then
      if heven : numNibbles % 2 = 0 then
        .ok ⟨version, .new nibbleBytes (length_le_of_numNibbles hle hlen)⟩
      else
        have hne : nibbleBytes ≠ [] := ne_nil_of_odd_numNibbles hlen heven
        let padding := nibbleBytes.getLast hne &&& 0x0f
        if hpad : padding = 0 then
          .ok ⟨version, .newOdd nibbleBytes (length_le_of_numNibbles hle hlen) hne hpad⟩
        else .error (.error (.message s!"Padding nibble expected to be 0, got: {padding}"))
    else .error (.error (.message s!"encoded num_nibbles {numNibbles} mismatches nibble path bytes {nibbleBytes}"))
  else .error (.error (.message s!"Invalid number of nibbles: {numNibbles}"))

/-! ## Reading back what was written -/

theorem toNat_lt_two_pow_64 (v : UInt64) : v.toNat < 256 ^ 8 := by
  simpa using v.toNat_lt

theorem readU64BigEndian_toBe (v : UInt64) (rest : List UInt8) :
    readU64BigEndian (Bytes.toBe 8 v.toNat ++ rest) = .ok (v, rest) := by
  have htake : (Bytes.toBe 8 v.toNat ++ rest).take 8 = Bytes.toBe 8 v.toNat := by
    simp [List.take_left']
  have hdrop : (Bytes.toBe 8 v.toNat ++ rest).drop 8 = rest := by
    simp [List.drop_left']
  simp only [readU64BigEndian, List.length_append, Bytes.length_toBe, htake, hdrop,
    Bytes.ofBe_toBe (toNat_lt_two_pow_64 v), UInt64.ofNat_toNat]
  simp

/-- The count of nibbles fits its byte. -/
theorem toNat_ofNat_numNibbles (p : NibblePath) : (UInt8.ofNat p.numNibbles).toNat = p.numNibbles := by
  have := p.numNibbles_le
  unfold Diem.ROOT_NIBBLE_HEIGHT at this
  simp [Nat.mod_eq_of_lt (by omega : p.numNibbles < 256)]

/-- `new` and `new_odd` rebuild a path from its bytes. -/
theorem new_of_bytes (p : NibblePath) (h : p.bytes.length ≤ Diem.ROOT_NIBBLE_HEIGHT / 2) (heven : p.numNibbles % 2 = 0) :
    NibblePath.new p.bytes h = p := by
  have := p.length_bytes
  ext
  · rw [NibblePath.numNibbles_new]
    omega
  · rfl

theorem newOdd_of_bytes (p : NibblePath) (h : p.bytes.length ≤ Diem.ROOT_NIBBLE_HEIGHT / 2) (hne : p.bytes ≠ [])
    (hpad : p.bytes.getLast hne &&& 0x0f = 0) (hodd : p.numNibbles % 2 = 1) : NibblePath.newOdd p.bytes h hne hpad = p := by
  have := p.length_bytes
  ext
  · rw [NibblePath.numNibbles_newOdd]
    omega
  · rfl

theorem decode_encode (k : NodeKey) : decode k.encode = .ok k := by
  have hle := k.nibblePath.numNibbles_le
  have hlen := k.nibblePath.length_bytes
  simp only [decode, encode, List.append_assoc, readU64BigEndian_toBe, List.singleton_append, readU8,
    toNat_ofNat_numNibbles, Except.bind, bind]
  rw [dif_pos hle, dif_pos hlen.symm]
  by_cases heven : k.nibblePath.numNibbles % 2 = 0
  · rw [dif_pos heven, new_of_bytes]
    exact heven
  · have hodd : k.nibblePath.numNibbles % 2 = 1 := by omega
    have hne : k.nibblePath.bytes ≠ [] := List.ne_nil_of_length_pos (by omega)
    have hpad := k.nibblePath.padding hodd _ (List.getLast?_eq_some_getLast hne)
    rw [dif_neg heven, dif_pos hpad, newOdd_of_bytes _ _ _ _ hodd]

/-! ## Writing back what was read -/

theorem eq_toBe_of_readU64BigEndian {val reader : List UInt8} {v : UInt64}
    (h : readU64BigEndian val = .ok (v, reader)) : val = Bytes.toBe 8 v.toNat ++ reader := by
  unfold readU64BigEndian at h
  split at h
  · cases h
  · obtain ⟨rfl, rfl⟩ := Prod.mk.inj (Except.ok.inj h)
    have hlen : (val.take 8).length = 8 := List.length_take_of_le (by omega)
    have hlt : Bytes.ofBe (val.take 8) < 2 ^ 64 := by
      simpa [hlen] using Bytes.ofBe_lt (val.take 8)
    have hbytes := Bytes.toBe_ofBe (val.take 8)
    rw [hlen] at hbytes
    rw [UInt64.toNat_ofNat_of_lt' hlt, hbytes, List.take_append_drop]

theorem eq_cons_of_readU8 {reader rest : List UInt8} {b : UInt8} (h : readU8 reader = .ok (b, rest)) :
    reader = b :: rest := by
  cases reader with
  | nil => cases h
  | cons b' reader => cases h; rfl

theorem encode_of_decode {val : List UInt8} {k : NodeKey} (h : decode val = .ok k) : k.encode = val := by
  obtain ⟨⟨version, reader⟩, hversion, h⟩ := Except.bind_eq_ok.mp h
  obtain ⟨⟨numNibbles, nibbleBytes⟩, hnum, h⟩ := Except.bind_eq_ok.mp h
  rw [eq_toBe_of_readU64BigEndian hversion, eq_cons_of_readU8 hnum]
  dsimp only at h
  split_ifs at h with hle hlen heven hpad
  -- the `ensure!`s that fail contradict `h`; the two others name `k`
  all_goals cases h
  · have hn : nibbleBytes.length * 2 = numNibbles.toNat := by omega
    rw [encode, NibblePath.numNibbles_new, NibblePath.bytes_new, hn, UInt8.ofNat_toNat, List.append_assoc,
      List.singleton_append]
  · have hn : nibbleBytes.length * 2 - 1 = numNibbles.toNat := by omega
    rw [encode, NibblePath.numNibbles_newOdd, NibblePath.bytes_newOdd, hn, UInt8.ofNat_toNat, List.append_assoc,
      List.singleton_append]

/-! ## The order -/

theorem toBe_version_eq_iff (a b : NodeKey) :
    Bytes.toBe 8 a.version.toNat = Bytes.toBe 8 b.version.toNat ↔ a.version = b.version := by
  constructor
  · intro h
    exact UInt64.toNat_inj.mp (Bytes.toBe_injective (toNat_lt_two_pow_64 _) (toNat_lt_two_pow_64 _) h)
  · intro h
    rw [h]

theorem ofNat_numNibbles_eq_iff (p q : NibblePath) :
    UInt8.ofNat p.numNibbles = UInt8.ofNat q.numNibbles ↔ p.numNibbles = q.numNibbles := by
  rw [← UInt8.toNat_inj, toNat_ofNat_numNibbles, toNat_ofNat_numNibbles]

/-- The bytes of two keys compare as the keys do. -/
theorem encode_lt_encode_iff (a b : NodeKey) : a.encode < b.encode ↔ a.Lt b := by
  rw [encode, encode, List.append_assoc, List.append_assoc, Bytes.append_lt_append_iff (by simp),
    Bytes.toBe_lt_toBe_iff (toNat_lt_two_pow_64 _) (toNat_lt_two_pow_64 _), toBe_version_eq_iff,
    List.singleton_append, List.singleton_append, List.cons_lt_cons_iff, UInt8.lt_iff_toNat_lt,
    toNat_ofNat_numNibbles, toNat_ofNat_numNibbles, ofNat_numNibbles_eq_iff, Lt, NibblePath.Lt,
    UInt64.lt_iff_toNat_lt]

end NodeKey

/-- `NodeKey::encode` and `NodeKey::decode` are inverse bijections between the
keys and the byte strings `decode` accepts, and the bytes sort as the keys. -/
theorem nodeKey_encoding_orderIso :
    (∀ k : NodeKey, NodeKey.decode k.encode = .ok k) ∧
    (∀ (val : List UInt8) (k : NodeKey), NodeKey.decode val = .ok k → k.encode = val) ∧
    (∀ a b : NodeKey, a.Lt b ↔ a.encode < b.encode) :=
  ⟨NodeKey.decode_encode, fun _ _ h => NodeKey.encode_of_decode h, fun a b => (NodeKey.encode_lt_encode_iff a b).symm⟩

end Diem.JellyfishMerkle.NodeType
