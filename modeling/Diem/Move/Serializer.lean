import Diem.Move.FileFormat
import Diem.Move.FileFormatCommon
import Diem.Theory.Monads

/-!
# Writing types

`serialize_signature_token` of `language/move-binary-format/src/serializer.rs`
writes a type node by node in pre-order, each node as its tag and then its
struct handle index, its count of type arguments or its type parameter index,
as ULEB128; a node deeper than `SIGNATURE_TOKEN_DEPTH_MAX` stops the writer.

The walk is `SignatureTokenPreorderTraversalIterWithDepth` of `file_format.rs`
run to its end: `next` pops the top of its stack and pushes the node's children
one level deeper, the first on top. The `for` loop with `?` inside is a `foldlM`
over what the walk yields. The test-only `serialize_signature_token_unchecked`
walks with `SignatureTokenPreorderTraversalIter` and checks no depth.

Both walks are the recursive pre-order (`preorderTraversalWithDepth_eq`,
`preorderTraversal_eq`). On a type whose nodes are `writable` and a binary with
room for it, the writer appends `encode` of the type when no node is deeper than
the bound (**`serializeSignatureToken_eq_ok`**) and fails otherwise, while the
unchecked writer appends `encode` in either case.
-/

namespace Diem.Move

/-- `write_as_uleb128`: a value checked against its bound, then written. -/
def writeAsUleb128 (binary : BinaryData) (x max : ℕ) : Except String BinaryData :=
  if x > max then .error s!"value ({x}) cannot exceed ({max})"
  else writeU64AsUleb128 binary x

/-- `serialize_struct_handle_index`. -/
def serializeStructHandleIndex (binary : BinaryData) (idx : ℕ) : Except String BinaryData :=
  writeAsUleb128 binary idx STRUCT_HANDLE_INDEX_MAX

/-- `serialize_signature_size`. -/
def serializeSignatureSize (binary : BinaryData) (len : ℕ) : Except String BinaryData :=
  writeAsUleb128 binary len SIGNATURE_SIZE_MAX

/-- `serialize_type_parameter_index`. -/
def serializeTypeParameterIndex (binary : BinaryData) (idx : ℕ) : Except String BinaryData :=
  writeAsUleb128 binary idx TYPE_PARAMETER_INDEX_MAX

/-- `serialize_signature_token_single_node_impl`. -/
def serializeSignatureTokenSingleNodeImpl (binary : BinaryData) : SignatureToken → Except String BinaryData
  | .bool => binary.push SerializedType.BOOL.toU8
  | .u8 => binary.push SerializedType.U8.toU8
  | .u64 => binary.push SerializedType.U64.toU8
  | .u128 => binary.push SerializedType.U128.toU8
  | .address => binary.push SerializedType.ADDRESS.toU8
  | .signer => binary.push SerializedType.SIGNER.toU8
  | .vector _ => binary.push SerializedType.VECTOR.toU8
  | .struct idx => do
    let binary ← binary.push SerializedType.STRUCT.toU8
    serializeStructHandleIndex binary idx
  | .structInstantiation idx typeParams => do
    let binary ← binary.push SerializedType.STRUCT_INST.toU8
    let binary ← serializeStructHandleIndex binary idx
    serializeSignatureSize binary typeParams.length
  | .reference _ => binary.push SerializedType.REFERENCE.toU8
  | .mutableReference _ => binary.push SerializedType.MUTABLE_REFERENCE.toU8
  | .typeParameter idx => do
    let binary ← binary.push SerializedType.TYPE_PARAMETER.toU8
    serializeTypeParameterIndex binary idx

namespace SignatureToken

/-- What `next` pushes after it pops `tok`: its children, the first on top. -/
def children : SignatureToken → List SignatureToken
  | .reference innerTok | .mutableReference innerTok | .vector innerTok => [innerTok]
  | .structInstantiation _ innerToks => innerToks
  | .signer | .bool | .address | .u8 | .u64 | .u128 | .struct _ | .typeParameter _ => []

/-- What `next` of the walk with depths pushes after it pops `tok` at
`depth`: its children one level deeper. -/
def childrenWithDepth (tok : SignatureToken) (depth : ℕ) : List (SignatureToken × ℕ) :=
  tok.children.map fun innerTok => (innerTok, depth + 1)

theorem sum_sizeOf_le (toks : List SignatureToken) : (toks.map sizeOf).sum ≤ sizeOf toks := by
  induction toks with
  | nil => simp
  | cons tok toks ih =>
    simp only [List.map_cons, List.sum_cons, List.cons.sizeOf_spec]
    omega

/-- A node's children are smaller than it: the walks end. -/
theorem sum_sizeOf_children_lt (tok : SignatureToken) : (tok.children.map sizeOf).sum < sizeOf tok := by
  cases tok with
  | structInstantiation idx innerToks =>
    have := sum_sizeOf_le innerToks
    simp only [children, structInstantiation.sizeOf_spec]
    omega
  | reference innerTok | mutableReference innerTok | vector innerTok => simp [children]
  | _ => simp [children]

/-- `SignatureTokenPreorderTraversalIter`, run to its end from `stack`, its
top first. -/
def preorderTraversalIter (stack : List SignatureToken) : List SignatureToken :=
  match stack with
  | [] => []
  | tok :: stack => tok :: preorderTraversalIter (tok.children ++ stack)
termination_by (stack.map sizeOf).sum
decreasing_by
  have := sum_sizeOf_children_lt tok
  simp only [List.map_append, List.sum_append, List.map_cons, List.sum_cons]
  omega

/-- `SignatureTokenPreorderTraversalIterWithDepth`, run to its end from
`stack`, its top first. -/
def preorderTraversalWithDepthIter (stack : List (SignatureToken × ℕ)) : List (SignatureToken × ℕ) :=
  match stack with
  | [] => []
  | (tok, depth) :: stack => (tok, depth) :: preorderTraversalWithDepthIter (tok.childrenWithDepth depth ++ stack)
termination_by (stack.map fun p => sizeOf p.1).sum
decreasing_by
  have := sum_sizeOf_children_lt tok
  simp only [childrenWithDepth, List.map_append, List.map_map, List.sum_append, List.map_cons,
    List.sum_cons]
  exact Nat.add_lt_add_right this _

/-- `preorder_traversal`. -/
def preorderTraversal (tok : SignatureToken) : List SignatureToken := preorderTraversalIter [tok]

/-- `preorder_traversal_with_depth`. -/
def preorderTraversalWithDepth (tok : SignatureToken) : List (SignatureToken × ℕ) :=
  preorderTraversalWithDepthIter [(tok, 1)]

/-- The indices of a node fit the `u16`s of its fields. -/
def indicesFit : SignatureToken → Bool
  | .struct idx | .structInstantiation idx _ | .typeParameter idx => idx < 2 ^ 16
  | _ => true

/-- A node `serialize_signature_token_single_node_impl` writes: its indices
fit, and an instantiation has at most `SIGNATURE_SIZE_MAX` type arguments. -/
def writable (tok : SignatureToken) : Bool :=
  tok.indicesFit && match tok with
    | .structInstantiation _ typeParams => typeParams.length ≤ SIGNATURE_SIZE_MAX
    | _ => true

end SignatureToken

open SignatureToken

/-- `serialize_signature_token`. -/
def serializeSignatureToken (binary : BinaryData) (token : SignatureToken) : Except String BinaryData :=
  List.foldlM (fun binary (token, depth) =>
    if depth > SIGNATURE_TOKEN_DEPTH_MAX then .error "max recursion depth reached"
    else serializeSignatureTokenSingleNodeImpl binary token) binary token.preorderTraversalWithDepth

/-- `serialize_signature_token_unchecked`, of the tests. -/
def serializeSignatureTokenUnchecked (binary : BinaryData) (token : SignatureToken) : Except String BinaryData :=
  List.foldlM serializeSignatureTokenSingleNodeImpl binary token.preorderTraversal

/-! ## The pre-order -/

namespace SignatureToken

theorem sizeOf_lt_of_mem_children {c t : SignatureToken} (hc : c ∈ t.children) : sizeOf c < sizeOf t :=
  lt_of_le_of_lt (List.le_sum_of_mem (List.mem_map_of_mem hc)) (sum_sizeOf_children_lt t)

/-- Induction over a type from its children, the order both walks follow. -/
theorem induction_children {motive : SignatureToken → Prop}
    (step : ∀ t, (∀ c ∈ t.children, motive c) → motive t) (t : SignatureToken) : motive t := by
  induction hn : sizeOf t using Nat.strong_induction_on generalizing t with
  | _ n ih => exact step t fun c hc => ih (sizeOf c) (hn ▸ sizeOf_lt_of_mem_children hc) c rfl

mutual
/-- The nodes of `t` in pre-order with their depths, `t` at depth `d`. -/
def preorder : SignatureToken → ℕ → List (SignatureToken × ℕ)
  | .reference inner, d => (.reference inner, d) :: preorder inner (d + 1)
  | .mutableReference inner, d => (.mutableReference inner, d) :: preorder inner (d + 1)
  | .vector inner, d => (.vector inner, d) :: preorder inner (d + 1)
  | .structInstantiation idx args, d => (.structInstantiation idx args, d) :: preorderList args (d + 1)
  | t, d => [(t, d)]

/-- The pre-orders of `ts`, one after another, all at depth `d`. -/
def preorderList : List SignatureToken → ℕ → List (SignatureToken × ℕ)
  | [], _ => []
  | t :: ts, d => preorder t d ++ preorderList ts d
end

theorem preorder_eq (t : SignatureToken) (d : ℕ) : preorder t d = (t, d) :: preorderList t.children (d + 1) := by
  cases t <;> simp [preorder, preorderList, children]

theorem mem_preorderList {p : SignatureToken × ℕ} {ts : List SignatureToken} {d : ℕ} :
    p ∈ preorderList ts d ↔ ∃ c ∈ ts, p ∈ preorder c d := by
  induction ts with
  | nil => simp [preorderList]
  | cons t ts ih => simp [preorderList, ih]

/-- A node of a child, one level down, is a node of the parent. -/
theorem mem_preorder_of_child {p : SignatureToken × ℕ} {c t : SignatureToken} {d : ℕ} (hc : c ∈ t.children)
    (hp : p ∈ preorder c (d + 1)) : p ∈ preorder t d := by
  rw [preorder_eq, List.mem_cons, mem_preorderList]
  exact .inr ⟨c, hc, hp⟩

/-- The walk with depths yields the pre-order of what is on its stack, from
the top. -/
theorem preorderTraversalWithDepthIter_cons (t : SignatureToken) :
    ∀ d stack, preorderTraversalWithDepthIter ((t, d) :: stack) = preorder t d ++ preorderTraversalWithDepthIter stack := by
  induction t using induction_children with
  | step t ih =>
    intro d stack
    -- the children are pushed together: the walk takes them one after another
    have hchildren : ∀ ts : List SignatureToken, (∀ c ∈ ts, ∀ d stack, preorderTraversalWithDepthIter ((c, d) :: stack) =
        preorder c d ++ preorderTraversalWithDepthIter stack) → ∀ stack,
        preorderTraversalWithDepthIter (ts.map (fun c => (c, d + 1)) ++ stack) =
          preorderList ts (d + 1) ++ preorderTraversalWithDepthIter stack := by
      intro ts hts stack
      induction ts with
      | nil => rfl
      | cons c ts ihts =>
        rw [List.map_cons, List.cons_append, hts c List.mem_cons_self, preorderList, List.append_assoc,
          ihts fun c hc => hts c (List.mem_cons_of_mem _ hc)]
    rw [preorderTraversalWithDepthIter, childrenWithDepth, hchildren _ ih, preorder_eq, List.cons_append]

theorem preorderTraversalWithDepth_eq (t : SignatureToken) : t.preorderTraversalWithDepth = preorder t 1 := by
  rw [preorderTraversalWithDepth, preorderTraversalWithDepthIter_cons]
  simp [preorderTraversalWithDepthIter]

/-- The walk without depths yields the nodes of the same pre-order. -/
theorem preorderTraversalIter_cons (t : SignatureToken) :
    ∀ d stack, preorderTraversalIter (t :: stack) = (preorder t d).map Prod.fst ++ preorderTraversalIter stack := by
  induction t using induction_children with
  | step t ih =>
    intro d stack
    have hchildren : ∀ ts : List SignatureToken, (∀ c ∈ ts, ∀ d stack, preorderTraversalIter (c :: stack) =
        (preorder c d).map Prod.fst ++ preorderTraversalIter stack) → ∀ stack,
        preorderTraversalIter (ts ++ stack) = (preorderList ts (d + 1)).map Prod.fst ++ preorderTraversalIter stack := by
      intro ts hts stack
      induction ts with
      | nil => rfl
      | cons c ts ihts =>
        rw [List.cons_append, hts c List.mem_cons_self (d + 1), preorderList, List.map_append, List.append_assoc,
          ihts fun c hc => hts c (List.mem_cons_of_mem _ hc)]
    rw [preorderTraversalIter, hchildren _ ih, preorder_eq, List.map_cons, List.cons_append]

theorem preorderTraversal_eq (t : SignatureToken) : t.preorderTraversal = (preorder t 1).map Prod.fst := by
  rw [preorderTraversal, preorderTraversalIter_cons t 1]
  simp [preorderTraversalIter]

/-! ## The bytes of a type -/

/-- The bytes `serialize_signature_token_single_node_impl` writes for a node. -/
def nodeBytes : SignatureToken → List UInt8
  | .bool => [SerializedType.BOOL.toU8]
  | .u8 => [SerializedType.U8.toU8]
  | .u64 => [SerializedType.U64.toU8]
  | .u128 => [SerializedType.U128.toU8]
  | .address => [SerializedType.ADDRESS.toU8]
  | .signer => [SerializedType.SIGNER.toU8]
  | .vector _ => [SerializedType.VECTOR.toU8]
  | .struct idx => SerializedType.STRUCT.toU8 :: Leb128.encode idx
  | .structInstantiation idx typeParams =>
    SerializedType.STRUCT_INST.toU8 :: (Leb128.encode idx ++ Leb128.encode typeParams.length)
  | .reference _ => [SerializedType.REFERENCE.toU8]
  | .mutableReference _ => [SerializedType.MUTABLE_REFERENCE.toU8]
  | .typeParameter idx => SerializedType.TYPE_PARAMETER.toU8 :: Leb128.encode idx

mutual
/-- The pre-order encoding of a type: the bytes of its nodes in pre-order. -/
def encode : SignatureToken → List UInt8
  | .reference inner => nodeBytes (.reference inner) ++ encode inner
  | .mutableReference inner => nodeBytes (.mutableReference inner) ++ encode inner
  | .vector inner => nodeBytes (.vector inner) ++ encode inner
  | .structInstantiation idx args => nodeBytes (.structInstantiation idx args) ++ encodeList args
  | t => nodeBytes t

/-- The encodings of `ts`, one after another. -/
def encodeList : List SignatureToken → List UInt8
  | [] => []
  | t :: ts => encode t ++ encodeList ts
end

theorem encode_eq (t : SignatureToken) : encode t = nodeBytes t ++ encodeList t.children := by
  cases t <;> simp [encode, encodeList, children]

theorem flatMap_preorder (t : SignatureToken) : ∀ d, (preorder t d).flatMap (fun p => nodeBytes p.1) = encode t := by
  induction t using induction_children with
  | step t ih =>
    intro d
    have hchildren : ∀ ts : List SignatureToken, (∀ c ∈ ts, ∀ d, (preorder c d).flatMap (fun p => nodeBytes p.1) = encode c) →
        (preorderList ts (d + 1)).flatMap (fun p => nodeBytes p.1) = encodeList ts := by
      intro ts hts
      induction ts with
      | nil => rfl
      | cons c ts ihts =>
        rw [preorderList, List.flatMap_append, hts c List.mem_cons_self, encodeList,
          ihts fun c hc => hts c (List.mem_cons_of_mem _ hc)]
    rw [preorder_eq, List.flatMap_cons, hchildren _ ih, encode_eq]

end SignatureToken

/-! ## The writers -/

/-- The members of the `write_as_uleb128` family append the encoding of a
value within their bound, when the binary has room. -/
theorem writeAsUleb128_eq {binary : BinaryData} {x max : ℕ} (hx : x ≤ max)
    (hroom : binary.len + (Leb128.encode x).length ≤ BINARY_SIZE_LIMIT) :
    writeAsUleb128 binary x max = .ok ⟨binary.binary ++ Leb128.encode x⟩ := by
  rw [writeAsUleb128, if_neg (by omega), writeU64AsUleb128_eq binary x hroom]

theorem len_push_ok (binary : BinaryData) (bytes : List UInt8) :
    (⟨binary.binary ++ bytes⟩ : BinaryData).len = binary.len + bytes.length := by
  simp [BinaryData.len]

/-- One node, when it is writable and the binary has room, is written as its bytes. -/
theorem serializeSignatureTokenSingleNodeImpl_eq {binary : BinaryData} {tok : SignatureToken} (hw : tok.writable)
    (hroom : binary.len + tok.nodeBytes.length ≤ BINARY_SIZE_LIMIT) :
    serializeSignatureTokenSingleNodeImpl binary tok = .ok ⟨binary.binary ++ tok.nodeBytes⟩ := by
  have hpush : ∀ b, binary.push b = .ok ⟨binary.binary ++ [b]⟩ := fun b =>
    BinaryData.push_eq_ok (by cases tok <;> simp [nodeBytes] at hroom <;> omega)
  cases tok with
  | struct idx =>
    simp only [writable, indicesFit, Bool.and_true, decide_eq_true_eq] at hw
    simp only [nodeBytes, List.length_cons] at hroom
    rw [serializeSignatureTokenSingleNodeImpl, hpush, Except.ok_bind, serializeStructHandleIndex,
      writeAsUleb128_eq (by unfold STRUCT_HANDLE_INDEX_MAX; omega) (by rw [len_push_ok]; simp; omega)]
    simp [nodeBytes]
  | structInstantiation idx typeParams =>
    simp only [writable, indicesFit, Bool.and_eq_true, decide_eq_true_eq] at hw
    simp only [nodeBytes, List.length_cons, List.length_append] at hroom
    rw [serializeSignatureTokenSingleNodeImpl, hpush, Except.ok_bind, serializeStructHandleIndex,
      writeAsUleb128_eq (by unfold STRUCT_HANDLE_INDEX_MAX; omega) (by rw [len_push_ok]; simp; omega),
      Except.ok_bind, serializeSignatureSize, writeAsUleb128_eq hw.2 (by rw [len_push_ok, len_push_ok]; simp; omega)]
    simp [nodeBytes]
  | typeParameter idx =>
    simp only [writable, indicesFit, Bool.and_true, decide_eq_true_eq] at hw
    simp only [nodeBytes, List.length_cons] at hroom
    rw [serializeSignatureTokenSingleNodeImpl, hpush, Except.ok_bind, serializeTypeParameterIndex,
      writeAsUleb128_eq (by unfold TYPE_PARAMETER_INDEX_MAX; omega) (by rw [len_push_ok]; simp; omega)]
    simp [nodeBytes]
  | _ => exact hpush _

/-- Nodes that are all writable, into a binary with room for them, are
written one after another. -/
theorem foldlM_serializeSignatureTokenSingleNodeImpl (toks : List SignatureToken) :
    ∀ binary : BinaryData, (∀ tok ∈ toks, tok.writable) →
      binary.len + (toks.flatMap nodeBytes).length ≤ BINARY_SIZE_LIMIT →
      toks.foldlM serializeSignatureTokenSingleNodeImpl binary = .ok ⟨binary.binary ++ toks.flatMap nodeBytes⟩ := by
  induction toks with
  | nil => intro binary _ _; simp
  | cons tok toks ih =>
    intro binary hw hroom
    simp only [List.flatMap_cons, List.length_append] at hroom
    rw [List.foldlM_cons, serializeSignatureTokenSingleNodeImpl_eq (hw tok List.mem_cons_self) (by omega),
      Except.ok_bind, ih _ (fun tok htok => hw tok (List.mem_cons_of_mem _ htok)) (by rw [len_push_ok]; omega)]
    simp

/-- With no node too deep, the checked loop is the unchecked one. -/
theorem foldlM_checked_eq (nodes : List (SignatureToken × ℕ)) (hdepth : ∀ p ∈ nodes, p.2 ≤ SIGNATURE_TOKEN_DEPTH_MAX) :
    ∀ binary : BinaryData, List.foldlM (fun binary (p : SignatureToken × ℕ) =>
        if p.2 > SIGNATURE_TOKEN_DEPTH_MAX then .error "max recursion depth reached"
        else serializeSignatureTokenSingleNodeImpl binary p.1) binary nodes =
      (nodes.map Prod.fst).foldlM serializeSignatureTokenSingleNodeImpl binary := by
  induction nodes with
  | nil => intro binary; rfl
  | cons p nodes ih =>
    intro binary
    rw [List.foldlM_cons, List.map_cons, List.foldlM_cons, if_neg (by have := hdepth p List.mem_cons_self; omega)]
    cases serializeSignatureTokenSingleNodeImpl binary p.1 with
    | error e => rfl
    | ok binary => exact ih (fun p hp => hdepth p (List.mem_cons_of_mem _ hp)) binary

/-- A node too deep stops the checked loop, whatever comes before it. -/
theorem foldlM_checked_eq_error (nodes : List (SignatureToken × ℕ)) (hdeep : ∃ p ∈ nodes, SIGNATURE_TOKEN_DEPTH_MAX < p.2) :
    ∀ binary : BinaryData, ∃ e, List.foldlM (fun binary (p : SignatureToken × ℕ) =>
        if p.2 > SIGNATURE_TOKEN_DEPTH_MAX then .error "max recursion depth reached"
        else serializeSignatureTokenSingleNodeImpl binary p.1) binary nodes = .error e := by
  induction nodes with
  | nil => simp at hdeep
  | cons p nodes ih =>
    intro binary
    rw [List.foldlM_cons]
    by_cases hp : p.2 > SIGNATURE_TOKEN_DEPTH_MAX
    · exact ⟨_, by rw [if_pos hp]; rfl⟩
    · obtain ⟨q, hq, hqdeep⟩ := hdeep
      have hq' : q ∈ nodes := by
        rcases List.mem_cons.mp hq with rfl | hq'
        · omega
        · exact hq'
      rw [if_neg hp]
      cases serializeSignatureTokenSingleNodeImpl binary p.1 with
      | error e => exact ⟨e, rfl⟩
      | ok binary => exact ih ⟨q, hq', hqdeep⟩ binary

theorem flatMap_map_fst (nodes : List (SignatureToken × ℕ)) :
    (nodes.map Prod.fst).flatMap nodeBytes = nodes.flatMap fun p => nodeBytes p.1 := by
  simp [List.flatMap_map]

section Writers

variable {binary : BinaryData} {t : SignatureToken}

/-- The writer appends the encoding of a type whose nodes are writable and
no deeper than `SIGNATURE_TOKEN_DEPTH_MAX`, into a binary with room. -/
theorem serializeSignatureToken_eq_ok (hw : ∀ p ∈ t.preorderTraversalWithDepth, p.1.writable)
    (hdepth : ∀ p ∈ t.preorderTraversalWithDepth, p.2 ≤ SIGNATURE_TOKEN_DEPTH_MAX)
    (hroom : binary.len + (encode t).length ≤ BINARY_SIZE_LIMIT) :
    serializeSignatureToken binary t = .ok ⟨binary.binary ++ encode t⟩ := by
  rw [preorderTraversalWithDepth_eq] at hw hdepth
  rw [serializeSignatureToken, preorderTraversalWithDepth_eq, foldlM_checked_eq _ hdepth,
    ← flatMap_preorder t 1, ← flatMap_map_fst]
  rw [← flatMap_preorder t 1, ← flatMap_map_fst] at hroom
  exact foldlM_serializeSignatureTokenSingleNodeImpl _ binary (by simpa using hw) hroom

/-- A node deeper than `SIGNATURE_TOKEN_DEPTH_MAX` makes the writer fail. -/
theorem serializeSignatureToken_eq_error (hdeep : ∃ p ∈ t.preorderTraversalWithDepth, SIGNATURE_TOKEN_DEPTH_MAX < p.2) :
    ∃ e, serializeSignatureToken binary t = .error e :=
  foldlM_checked_eq_error _ hdeep binary

/-- The unchecked writer appends the encoding of any type whose nodes are
writable, into a binary with room. -/
theorem serializeSignatureTokenUnchecked_eq_ok (hw : ∀ p ∈ t.preorderTraversalWithDepth, p.1.writable)
    (hroom : binary.len + (encode t).length ≤ BINARY_SIZE_LIMIT) :
    serializeSignatureTokenUnchecked binary t = .ok ⟨binary.binary ++ encode t⟩ := by
  rw [preorderTraversalWithDepth_eq] at hw
  rw [serializeSignatureTokenUnchecked, preorderTraversal_eq, ← flatMap_preorder t 1, ← flatMap_map_fst]
  rw [← flatMap_preorder t 1, ← flatMap_map_fst] at hroom
  exact foldlM_serializeSignatureTokenSingleNodeImpl _ binary (by simpa using hw) hroom

end Writers

end Diem.Move
