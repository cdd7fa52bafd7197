import Diem.Move.Serializer

/-!
# Reading types

`load_signature_token` of `language/move-binary-format/src/deserializer.rs`
reads a type node by node onto a stack of partly built types; a complete node
is popped and given to the one below it as its next argument, and a stack
taller than `SIGNATURE_TOKEN_DEPTH_MAX` is rejected. An instantiation is
complete once it holds as many type arguments as its count says, checked after
each argument is added.

A `VersionedCursor` is the list of the bytes not yet read, and the stack is a
list, its top first. A panic (`unreachable!`, or `unwrap` of an empty stack) is
a `LoadFailure.panic`; an error is the status code and message of the
`PartialVMError` the loader builds. `read_uleb_internal` is generic over the
integer it converts to, whose width is a parameter here.

Onto a stack of types waiting for arguments, the loop reads a whole type from
its encoding and leaves it complete on top (`loop_encode`), or rejects it when
a node is too deep (`loop_encode_error`). So `load_signature_token` reads back
every type whose nodes are `readable` and no deeper than the bound
(**`loadSignatureToken_encode`**). An instantiation written with no type
arguments is not complete when it is read: it takes the next type as its
argument, and no type the loader returns has such a node
(`loadSignatureToken_hasTypeArguments`).
-/

namespace Diem.Move

/-- The `StatusCode`s the loader of types reports. -/
inductive LoaderStatusCode where
  | MALFORMED
  | UNKNOWN_INVARIANT_VIOLATION_ERROR
  | UNKNOWN_SERIALIZED_TYPE
  deriving DecidableEq, Repr

/-- `PartialVMError` as the loader builds it: a status code and its message. -/
structure BinaryLoaderError where
  /-- `major_status`. -/
  majorStatus : LoaderStatusCode
  /-- `with_message`. -/
  message : Option String
  deriving DecidableEq, Repr

/-- How loading a type fails: an error, or a panic. -/
inductive LoadFailure where
  | error (e : BinaryLoaderError)
  | panic (msg : String)
  deriving DecidableEq, Repr

/-- `read_uleb_internal::<T>`, for a `T` of `bits` bits. -/
def readUlebInternal (cursor : List UInt8) (max bits : ℕ) : Except BinaryLoaderError (ℕ × List UInt8) :=
  match readUleb128AsU64 cursor with
  | .error _ => .error ⟨.MALFORMED, some "Bad Uleb"⟩
  | .ok (x, cursor) =>
    if x > max then .error ⟨.MALFORMED, some "Uleb greater than max requested"⟩
    else if x < 2 ^ bits then .ok (x, cursor)
    else .error ⟨.UNKNOWN_INVARIANT_VIOLATION_ERROR,
      some "Failed to convert u64 to target integer type. This should not happen. Is the maximum value correct?"⟩

/-- `load_struct_handle_index`, into a `u16`. -/
def loadStructHandleIndex (cursor : List UInt8) : Except BinaryLoaderError (ℕ × List UInt8) :=
  readUlebInternal cursor STRUCT_HANDLE_INDEX_MAX 16

/-- `load_type_parameter_count`, into a `usize`. -/
def loadTypeParameterCount (cursor : List UInt8) : Except BinaryLoaderError (ℕ × List UInt8) :=
  readUlebInternal cursor TYPE_PARAMETER_COUNT_MAX 64

/-- `load_type_parameter_index`, into a `u16`. -/
def loadTypeParameterIndex (cursor : List UInt8) : Except BinaryLoaderError (ℕ × List UInt8) :=
  readUlebInternal cursor TYPE_PARAMETER_INDEX_MAX 16

/-- `SerializedType::from_u8`. -/
def SerializedType.fromU8 (value : UInt8) : Except BinaryLoaderError SerializedType :=
  match value.toNat with
  | 0x1 => .ok .BOOL
  | 0x2 => .ok .U8
  | 0x3 => .ok .U64
  | 0x4 => .ok .U128
  | 0x5 => .ok .ADDRESS
  | 0x6 => .ok .REFERENCE
  | 0x7 => .ok .MUTABLE_REFERENCE
  | 0x8 => .ok .STRUCT
  | 0x9 => .ok .TYPE_PARAMETER
  | 0xA => .ok .VECTOR
  | 0xB => .ok .STRUCT_INST
  | 0xC => .ok .SIGNER
  | _ => .error ⟨.UNKNOWN_SERIALIZED_TYPE, none⟩

/-- `TypeBuilder`: a type on the loader's stack, complete or waiting for
arguments. -/
inductive TypeBuilder where
  | saturated (tok : SignatureToken)
  | vector
  | reference
  | mutableReference
  | structInst (shIdx : ℕ) (arity : ℕ) (tyArgs : List SignatureToken)

namespace TypeBuilder

/-- `TypeBuilder::apply`: the next argument of a type waiting for one. -/
def apply : TypeBuilder → SignatureToken → Except LoadFailure TypeBuilder
  | .vector, tok => .ok (.saturated (.vector tok))
  | .reference, tok => .ok (.saturated (.reference tok))
  | .mutableReference, tok => .ok (.saturated (.mutableReference tok))
  | .structInst shIdx arity tyArgs, tok =>
    let tyArgs := tyArgs ++ [tok]
    if tyArgs.length ≥ arity then .ok (.saturated (.structInstantiation shIdx tyArgs))
    else .ok (.structInst shIdx arity tyArgs)
  | .saturated _, _ => .error (.panic "internal error: entered unreachable code: invalid type constructor application")

/-- `TypeBuilder::is_saturated`. -/
def isSaturated : TypeBuilder → Bool
  | .saturated _ => true
  | _ => false

end TypeBuilder

open TypeBuilder

/-- `read_next`: one node, complete or waiting for its arguments. -/
def readNext (cursor : List UInt8) : Except BinaryLoaderError (TypeBuilder × List UInt8) :=
  match cursor with
  | [] => .error ⟨.MALFORMED, some "Unexpected EOF"⟩
  | byte :: cursor => do
    match ← SerializedType.fromU8 byte with
    | .BOOL => pure (.saturated .bool, cursor)
    | .U8 => pure (.saturated .u8, cursor)
    | .U64 => pure (.saturated .u64, cursor)
    | .U128 => pure (.saturated .u128, cursor)
    | .ADDRESS => pure (.saturated .address, cursor)
    | .SIGNER => pure (.saturated .signer, cursor)
    | .VECTOR => pure (.vector, cursor)
    | .REFERENCE => pure (.reference, cursor)
    | .MUTABLE_REFERENCE => pure (.mutableReference, cursor)
    | .STRUCT => do
      let (shIdx, cursor) ← loadStructHandleIndex cursor
      pure (.saturated (.struct shIdx), cursor)
    | .STRUCT_INST => do
      let (shIdx, cursor) ← loadStructHandleIndex cursor
      let (arity, cursor) ← loadTypeParameterCount cursor
      pure (.structInst shIdx arity [], cursor)
    | .TYPE_PARAMETER => do
      let (idx, cursor) ← loadTypeParameterIndex cursor
      pure (.saturated (.typeParameter idx), cursor)

/-! ## One node -/

/-- An instantiation has type arguments. -/
def SignatureToken.hasTypeArguments : SignatureToken → Bool
  | .structInstantiation _ typeParams => !typeParams.isEmpty
  | _ => true

theorem readUlebInternal_length_le {cursor rest : List UInt8} {max bits x : ℕ}
    (h : readUlebInternal cursor max bits = .ok (x, rest)) : rest.length ≤ cursor.length := by
  unfold readUlebInternal at h
  split at h
  · cases h
  · rename_i y cursor' hread
    obtain ⟨-, rfl⟩ := eq_encode_of_readUleb128AsU64 hread
    split_ifs at h
    cases h
    simp

/-- What `read_next` can return: after the tag and the numbers it reads, a
complete node with no children, or a type waiting for arguments with none
yet. -/
theorem readNext_cases {cursor rest : List UInt8} {b : TypeBuilder} (h : readNext cursor = .ok (b, rest)) :
    rest.length < cursor.length ∧
      ((∃ tok, b = .saturated tok ∧ tok.children = [] ∧ tok.hasTypeArguments) ∨ b = .vector ∨ b = .reference ∨ b = .mutableReference ∨
        ∃ shIdx arity, b = .structInst shIdx arity []) := by
  match cursor, h with
  | byte :: cursor, h =>
    obtain ⟨tag, -, h⟩ := Except.bind_eq_ok.mp h
    have hlen : ∀ {rest' : List UInt8}, rest'.length ≤ cursor.length → rest'.length < (byte :: cursor).length :=
      fun h => by simp; omega
    cases tag with
    | STRUCT =>
      obtain ⟨⟨shIdx, cursor'⟩, hidx, h⟩ := Except.bind_eq_ok.mp h
      cases h
      exact ⟨hlen (readUlebInternal_length_le hidx), .inl ⟨_, rfl, rfl, rfl⟩⟩
    | STRUCT_INST =>
      obtain ⟨⟨shIdx, cursor'⟩, hidx, h⟩ := Except.bind_eq_ok.mp h
      obtain ⟨⟨arity, cursor''⟩, harity, h⟩ := Except.bind_eq_ok.mp h
      cases h
      exact ⟨hlen ((readUlebInternal_length_le harity).trans (readUlebInternal_length_le hidx)),
        .inr (.inr (.inr (.inr ⟨_, _, rfl⟩)))⟩
    | TYPE_PARAMETER =>
      obtain ⟨⟨idx, cursor'⟩, hidx, h⟩ := Except.bind_eq_ok.mp h
      cases h
      exact ⟨hlen (readUlebInternal_length_le hidx), .inl ⟨_, rfl, rfl, rfl⟩⟩
    | VECTOR => cases h; exact ⟨hlen le_rfl, .inr (.inl rfl)⟩
    | REFERENCE => cases h; exact ⟨hlen le_rfl, .inr (.inr (.inl rfl))⟩
    | MUTABLE_REFERENCE => cases h; exact ⟨hlen le_rfl, .inr (.inr (.inr (.inl rfl)))⟩
    | _ => cases h; exact ⟨hlen le_rfl, .inl ⟨_, rfl, rfl, rfl⟩⟩

theorem readNext_length_lt {cursor rest : List UInt8} {b : TypeBuilder} (h : readNext cursor = .ok (b, rest)) :
    rest.length < cursor.length :=
  (readNext_cases h).1

/-- The loop of `load_signature_token`, from the bytes not yet read and the
stack, its top first. -/
def loadSignatureTokenLoop (cursor : List UInt8) (stack : List TypeBuilder) :
    Except LoadFailure (SignatureToken × List UInt8) :=
  if stack.length > SIGNATURE_TOKEN_DEPTH_MAX then
    .error (.error ⟨.MALFORMED, some "Maximum recursion depth reached"⟩)
  else
    match stack with
    | [] => .error (.panic "called Option::unwrap() on a None value")
    -- `is_saturated`, and the `unwrap_saturated` it guards
    | .saturated tok :: below =>
      match below with
      | [] => .ok (tok, cursor)
      | t :: below =>
        match t.apply tok with
        | .ok t => loadSignatureTokenLoop cursor (t :: below)
        | .error e => .error e
    | top :: below =>
      match hread : readNext cursor with
      | .ok (t, rest) => loadSignatureTokenLoop rest (t :: top :: below)
      | .error e => .error (.error e)
termination_by (cursor.length, stack.length)
decreasing_by
  · exact Prod.Lex.right _ (by simp)
  · exact Prod.Lex.left _ _ (readNext_length_lt hread)

/-- `load_signature_token`: the type, and the bytes after it. -/
def loadSignatureToken (cursor : List UInt8) : Except LoadFailure (SignatureToken × List UInt8) :=
  match readNext cursor with
  | .error e => .error (.error e)
  | .ok (.saturated tok, cursor) => .ok (tok, cursor)
  | .ok (t, cursor) => loadSignatureTokenLoop cursor [t]

/-! ## Reading a node -/

namespace SignatureToken

/-- A node the loader reads back as it was written: it is writable, and an
instantiation has type arguments. -/
def readable (tok : SignatureToken) : Bool := tok.writable && tok.hasTypeArguments

/-- What `read_next` makes of a node: a leaf complete, a type with children
waiting for them. -/
def builder : SignatureToken → TypeBuilder
  | .vector _ => .vector
  | .reference _ => .reference
  | .mutableReference _ => .mutableReference
  | .structInstantiation idx typeParams => .structInst idx typeParams.length []
  | tok => .saturated tok

end SignatureToken

open SignatureToken

theorem fromU8_toU8 (tag : SerializedType) : SerializedType.fromU8 tag.toU8 = .ok tag := by
  cases tag <;> rfl

theorem readUlebInternal_encode {x max bits : ℕ} (hmax : x ≤ max) (hbits : x < 2 ^ bits) (h64 : x < 2 ^ 64)
    (rest : List UInt8) : readUlebInternal (Leb128.encode x ++ rest) max bits = .ok (x, rest) := by
  rw [readUlebInternal, readUleb128AsU64_encode h64]
  dsimp only
  rw [if_neg (by omega), if_pos hbits]

/-- `read_next` reads a writable node back from its bytes. -/
theorem readNext_nodeBytes {tok : SignatureToken} (hw : tok.writable) (rest : List UInt8) :
    readNext (tok.nodeBytes ++ rest) = .ok (tok.builder, rest) := by
  cases tok with
  | struct idx =>
    simp only [writable, indicesFit, Bool.and_true, decide_eq_true_eq] at hw
    have hidx : idx ≤ STRUCT_HANDLE_INDEX_MAX := by unfold STRUCT_HANDLE_INDEX_MAX; omega
    simp only [nodeBytes, List.cons_append, readNext, fromU8_toU8, Except.ok_bind, loadStructHandleIndex,
      readUlebInternal_encode hidx hw (by omega)]
    rfl
  | structInstantiation idx typeParams =>
    simp only [writable, indicesFit, Bool.and_eq_true, decide_eq_true_eq] at hw
    have hidx : idx ≤ STRUCT_HANDLE_INDEX_MAX := by unfold STRUCT_HANDLE_INDEX_MAX; omega
    have harity : typeParams.length ≤ TYPE_PARAMETER_COUNT_MAX := hw.2
    have harity64 : typeParams.length < 2 ^ 64 := by unfold SIGNATURE_SIZE_MAX at hw; omega
    simp only [nodeBytes, List.cons_append, List.append_assoc, readNext, fromU8_toU8, Except.ok_bind,
      loadStructHandleIndex, loadTypeParameterCount, readUlebInternal_encode hidx hw.1 (by omega),
      readUlebInternal_encode harity harity64 harity64]
    rfl
  | typeParameter idx =>
    simp only [writable, indicesFit, Bool.and_true, decide_eq_true_eq] at hw
    have hidx : idx ≤ TYPE_PARAMETER_INDEX_MAX := by unfold TYPE_PARAMETER_INDEX_MAX; omega
    simp only [nodeBytes, List.cons_append, readNext, fromU8_toU8, Except.ok_bind, loadTypeParameterIndex,
      readUlebInternal_encode hidx hw (by omega)]
    rfl
  | _ => rfl

/-! ## The steps of the loop -/

section Steps

variable {cursor rest : List UInt8} {below : List TypeBuilder}

/-- A stack too tall is rejected. -/
theorem loop_tooDeep {stack : List TypeBuilder} (h : SIGNATURE_TOKEN_DEPTH_MAX < stack.length) :
    loadSignatureTokenLoop cursor stack = .error (.error ⟨.MALFORMED, some "Maximum recursion depth reached"⟩) := by
  rw [loadSignatureTokenLoop.eq_def, if_pos h]

/-- Below a type waiting for arguments, the loop reads the next node. -/
theorem loop_read {top b : TypeBuilder} (hlen : below.length + 1 ≤ SIGNATURE_TOKEN_DEPTH_MAX)
    (htop : top.isSaturated = false) (hread : readNext cursor = .ok (b, rest)) :
    loadSignatureTokenLoop cursor (top :: below) = loadSignatureTokenLoop rest (b :: top :: below) := by
  rw [loadSignatureTokenLoop.eq_def, if_neg (by simp; omega)]
  cases top with
  | saturated tok => cases htop
  | vector | reference | mutableReference | structInst _ _ _ =>
    dsimp only
    split
    · rename_i t rest' heq
      rw [hread] at heq
      cases heq
      rfl
    · rename_i e heq
      rw [hread] at heq
      cases heq

/-- A complete type on top is given to the one below it. -/
theorem loop_apply {tok : SignatureToken} {t t' : TypeBuilder} (hlen : below.length + 2 ≤ SIGNATURE_TOKEN_DEPTH_MAX)
    (happly : t.apply tok = .ok t') :
    loadSignatureTokenLoop cursor (.saturated tok :: t :: below) = loadSignatureTokenLoop cursor (t' :: below) := by
  rw [loadSignatureTokenLoop.eq_def, if_neg (by simp; omega)]
  simp only [happly]

/-- A complete type alone on the stack is the result. -/
theorem loop_done (tok : SignatureToken) : loadSignatureTokenLoop cursor [.saturated tok] = .ok (tok, cursor) := by
  rw [loadSignatureTokenLoop.eq_def, if_neg (by simp [SIGNATURE_TOKEN_DEPTH_MAX])]

end Steps

/-! ## Reading a whole type -/

/-- From depth `d` on, the nodes of `t` are readable and no deeper than
`SIGNATURE_TOKEN_DEPTH_MAX`. -/
def Fits (t : SignatureToken) (d : ℕ) : Prop :=
  ∀ p ∈ preorder t d, p.1.readable ∧ p.2 ≤ SIGNATURE_TOKEN_DEPTH_MAX

theorem Fits.root {t : SignatureToken} {d : ℕ} (h : Fits t d) : t.readable ∧ d ≤ SIGNATURE_TOKEN_DEPTH_MAX :=
  h (t, d) (by rw [preorder_eq]; exact List.mem_cons_self)

theorem Fits.child {t c : SignatureToken} {d : ℕ} (h : Fits t d) (hc : c ∈ t.children) : Fits c (d + 1) :=
  fun p hp => h p (mem_preorder_of_child hc hp)

theorem writable_of_readable {tok : SignatureToken} (h : tok.readable) : tok.writable := by
  simp only [readable, Bool.and_eq_true] at h
  exact h.1

/-- Onto a stack whose top waits for an argument, the loop reads `t` from its
encoding and leaves it complete on top. -/
def ReadsBack (t : SignatureToken) : Prop :=
  ∀ (top : TypeBuilder) (below : List TypeBuilder) (rest : List UInt8), top.isSaturated = false →
    Fits t (below.length + 2) →
    loadSignatureTokenLoop (encode t ++ rest) (top :: below) = loadSignatureTokenLoop rest (.saturated t :: top :: below)

/-- A node of one child is complete once the child is read. -/
theorem loop_oneChild {inner t : SignatureToken} {b : TypeBuilder} {below : List TypeBuilder} {rest : List UInt8}
    (hb : b.isSaturated = false) (happly : b.apply inner = .ok (.saturated t)) (hin : ReadsBack inner)
    (hfit : Fits inner (below.length + 2)) :
    loadSignatureTokenLoop (encode inner ++ rest) (b :: below) = loadSignatureTokenLoop rest (.saturated t :: below) := by
  rw [hin b below rest hb hfit, loop_apply hfit.root.2 happly]

/-- The arguments of an instantiation are read one after another; it is
complete after the last. -/
theorem loop_encodeList (idx : ℕ) (args : List SignatureToken) (hargs : ∀ c ∈ args, ReadsBack c) (hne : args ≠ []) :
    ∀ (acc : List SignatureToken) (arity : ℕ) (below : List TypeBuilder) (rest : List UInt8),
      acc.length + args.length = arity → (∀ c ∈ args, Fits c (below.length + 2)) →
      loadSignatureTokenLoop (encodeList args ++ rest) (.structInst idx arity acc :: below) =
        loadSignatureTokenLoop rest (.saturated (.structInstantiation idx (acc ++ args)) :: below) := by
  induction args with
  | nil => exact absurd rfl hne
  | cons a as ih =>
    intro acc arity below rest harity hfit
    have ha := hfit a List.mem_cons_self
    have hdepth := ha.root.2
    simp only [List.length_cons] at harity
    rw [encodeList, List.append_assoc, hargs a List.mem_cons_self _ below _ rfl ha]
    by_cases has : as = []
    · -- the last argument completes the instantiation
      subst has
      have happly : (structInst idx arity acc).apply a = .ok (.saturated (.structInstantiation idx (acc ++ [a]))) := by
        rw [apply, if_pos (by simp at harity ⊢; omega)]
      rw [loop_apply hdepth happly, encodeList, List.nil_append]
    · -- more arguments to come: the instantiation waits for them
      have hlen := List.length_pos_of_ne_nil has
      have happly : (structInst idx arity acc).apply a = .ok (.structInst idx arity (acc ++ [a])) := by
        rw [apply, if_neg (by simp; omega)]
      rw [loop_apply hdepth happly,
        ih (fun c hc => hargs c (List.mem_cons_of_mem _ hc)) has (acc ++ [a]) arity below rest (by simp; omega)
          (fun c hc => hfit c (List.mem_cons_of_mem _ hc))]
      simp

theorem loop_encode (t : SignatureToken) : ReadsBack t := by
  induction t using induction_children with
  | step t ih =>
    intro top below rest htop ht
    obtain ⟨hroot, hdepth⟩ := ht.root
    rw [encode_eq, List.append_assoc, loop_read (by omega) htop (readNext_nodeBytes (writable_of_readable hroot) _)]
    -- each child is one level deeper, above `top`
    have hchild : ∀ c ∈ t.children, Fits c ((top :: below).length + 2) := fun c hc => by
      simpa using ht.child hc
    cases t with
    | vector inner | reference inner | mutableReference inner =>
      simp only [children, encodeList, List.append_nil]
      exact loop_oneChild rfl rfl (ih inner (by simp [children])) (hchild inner (by simp [children]))
    | structInstantiation idx args =>
      have hne : args ≠ [] := by simp [readable, hasTypeArguments] at hroot; exact hroot.2
      simpa [children, builder] using loop_encodeList idx args ih hne [] args.length (top :: below) rest (by simp) hchild
    | _ => rfl

/-! ## Rejecting a type too deep -/

/-- Onto a stack whose top waits for an argument, the loop rejects the
encoding of `t` when a node of `t` is too deep. -/
def RejectsDeep (t : SignatureToken) : Prop :=
  ∀ (top : TypeBuilder) (below : List TypeBuilder) (rest : List UInt8), top.isSaturated = false →
    below.length + 1 ≤ SIGNATURE_TOKEN_DEPTH_MAX → (∀ p ∈ preorder t (below.length + 2), p.1.readable) →
    (∃ p ∈ preorder t (below.length + 2), SIGNATURE_TOKEN_DEPTH_MAX < p.2) →
    loadSignatureTokenLoop (encode t ++ rest) (top :: below) =
      .error (.error ⟨.MALFORMED, some "Maximum recursion depth reached"⟩)

/-- The arguments before the first one with a node too deep are read; that
one is rejected. -/
theorem loop_encodeList_error (idx : ℕ) (args : List SignatureToken) (hargs : ∀ c ∈ args, RejectsDeep c) :
    ∀ (acc : List SignatureToken) (arity : ℕ) (below : List TypeBuilder) (rest : List UInt8),
      acc.length + args.length = arity → below.length + 1 ≤ SIGNATURE_TOKEN_DEPTH_MAX →
      (∀ c ∈ args, ∀ p ∈ preorder c (below.length + 2), p.1.readable) →
      (∃ c ∈ args, ∃ p ∈ preorder c (below.length + 2), SIGNATURE_TOKEN_DEPTH_MAX < p.2) →
      loadSignatureTokenLoop (encodeList args ++ rest) (.structInst idx arity acc :: below) =
        .error (.error ⟨.MALFORMED, some "Maximum recursion depth reached"⟩) := by
  induction args with
  | nil => intro _ _ _ _ _ _ _ hdeep; simp at hdeep
  | cons a as ih =>
    intro acc arity below rest harity hlen hread hdeep
    simp only [List.length_cons] at harity
    rw [encodeList, List.append_assoc]
    by_cases ha : ∃ p ∈ preorder a (below.length + 2), SIGNATURE_TOKEN_DEPTH_MAX < p.2
    · exact hargs a List.mem_cons_self _ below _ rfl hlen (hread a List.mem_cons_self) ha
    · -- `a` is read whole, and the node too deep is in a later argument
      have hfit : Fits a (below.length + 2) := fun p hp => ⟨hread a List.mem_cons_self p hp, by
        by_contra h
        exact ha ⟨p, hp, by omega⟩⟩
      obtain ⟨c, hc, hcdeep⟩ := hdeep
      have hc' : c ∈ as := by
        rcases List.mem_cons.mp hc with rfl | hc'
        · exact absurd hcdeep ha
        · exact hc'
      have hlenas := List.length_pos_of_mem hc'
      have happly : (structInst idx arity acc).apply a = .ok (.structInst idx arity (acc ++ [a])) := by
        rw [apply, if_neg (by simp; omega)]
      rw [loop_encode a _ below _ rfl hfit, loop_apply hfit.root.2 happly]
      exact ih (fun c hc => hargs c (List.mem_cons_of_mem _ hc)) (acc ++ [a]) arity below rest (by simp; omega) hlen
        (fun c hc => hread c (List.mem_cons_of_mem _ hc)) ⟨c, hc', hcdeep⟩

theorem loop_encode_error (t : SignatureToken) : RejectsDeep t := by
  induction t using induction_children with
  | step t ih =>
    intro top below rest htop hlen hread hdeep
    have hroot := hread (t, below.length + 2) (by rw [preorder_eq]; exact List.mem_cons_self)
    rw [encode_eq, List.append_assoc, loop_read hlen htop (readNext_nodeBytes (writable_of_readable hroot) _)]
    by_cases hd : SIGNATURE_TOKEN_DEPTH_MAX < below.length + 2
    · -- the root itself is too deep
      exact loop_tooDeep (by simp; omega)
    · -- else the node too deep is below a child
      obtain ⟨p, hp, hpdeep⟩ := hdeep
      rw [preorder_eq, List.mem_cons, mem_preorderList] at hp
      rcases hp with rfl | ⟨c, hc, hpc⟩
      · exact absurd hpdeep hd
      have hchild : ∀ c ∈ t.children, ∀ p ∈ preorder c ((top :: below).length + 2), p.1.readable :=
        fun c hc p hp => hread p (mem_preorder_of_child hc (by simpa using hp))
      have hpc' : p ∈ preorder c ((top :: below).length + 2) := by simpa using hpc
      cases t with
      | vector inner | reference inner | mutableReference inner =>
        obtain rfl : c = inner := by simpa [children] using hc
        simp only [children, encodeList, List.append_nil]
        exact ih c (by simp [children]) _ (top :: below) rest rfl (by simp; omega) (hchild c (by simp [children]))
          ⟨p, hpc', hpdeep⟩
      | structInstantiation idx args =>
        simpa [children, builder] using loop_encodeList_error idx args ih [] args.length (top :: below) rest (by simp)
          (by simp; omega) hchild ⟨c, hc, p, hpc', hpdeep⟩
      | _ => simp [children] at hc

/-! ## `load_signature_token` -/

section Load

variable {t : SignatureToken}

/-- `load_signature_token` reads back every type whose nodes are readable and
no deeper than `SIGNATURE_TOKEN_DEPTH_MAX`, and stops right after it. -/
theorem loadSignatureToken_encode
    (ht : ∀ p ∈ t.preorderTraversalWithDepth, p.1.readable ∧ p.2 ≤ SIGNATURE_TOKEN_DEPTH_MAX) (rest : List UInt8) :
    loadSignatureToken (encode t ++ rest) = .ok (t, rest) := by
  rw [preorderTraversalWithDepth_eq] at ht
  have hfit : Fits t 1 := ht
  have hchild : ∀ c ∈ t.children, Fits c (([] : List TypeBuilder).length + 2) := fun c hc => hfit.child hc
  rw [loadSignatureToken, encode_eq, List.append_assoc, readNext_nodeBytes (writable_of_readable hfit.root.1)]
  cases t with
  | vector inner | reference inner | mutableReference inner =>
    simp only [children, encodeList, List.append_nil, builder]
    rw [loop_oneChild rfl rfl (loop_encode inner) (hchild inner (by simp [children])), loop_done]
  | structInstantiation idx args =>
    have hne : args ≠ [] := by have := hfit.root.1; simp [readable, hasTypeArguments] at this; exact this.2
    simp only [children, builder]
    rw [loop_encodeList idx args (fun c _ => loop_encode c) hne [] args.length [] rest (by simp) hchild, loop_done]
    simp
  | _ => rfl

/-- `load_signature_token` rejects the encoding of a type with readable nodes
one of which is deeper than `SIGNATURE_TOKEN_DEPTH_MAX`. -/
theorem loadSignatureToken_encode_error (hread : ∀ p ∈ t.preorderTraversalWithDepth, p.1.readable)
    (hdeep : ∃ p ∈ t.preorderTraversalWithDepth, SIGNATURE_TOKEN_DEPTH_MAX < p.2) (rest : List UInt8) :
    loadSignatureToken (encode t ++ rest) = .error (.error ⟨.MALFORMED, some "Maximum recursion depth reached"⟩) := by
  rw [preorderTraversalWithDepth_eq] at hread hdeep
  have hroot := hread (t, 1) (by rw [preorder_eq]; exact List.mem_cons_self)
  rw [loadSignatureToken, encode_eq, List.append_assoc, readNext_nodeBytes (writable_of_readable hroot)]
  -- the root is at depth `1`: the node too deep is below a child
  obtain ⟨p, hp, hpdeep⟩ := hdeep
  rw [preorder_eq, List.mem_cons, mem_preorderList] at hp
  rcases hp with rfl | ⟨c, hc, hpc⟩
  · simp [SIGNATURE_TOKEN_DEPTH_MAX] at hpdeep
  have hchild : ∀ c ∈ t.children, ∀ p ∈ preorder c (([] : List TypeBuilder).length + 2), p.1.readable :=
    fun c hc p hp => hread p (mem_preorder_of_child hc hp)
  cases t with
  | vector inner | reference inner | mutableReference inner =>
    obtain rfl : c = inner := by simpa [children] using hc
    simp only [children, encodeList, List.append_nil, builder]
    exact loop_encode_error c _ [] rest rfl (by simp [SIGNATURE_TOKEN_DEPTH_MAX]) (hchild c (by simp [children]))
      ⟨p, hpc, hpdeep⟩
  | structInstantiation idx args =>
    simp only [children, builder]
    exact loop_encodeList_error idx args (fun c _ => loop_encode_error c) [] args.length [] rest (by simp)
      (by simp [SIGNATURE_TOKEN_DEPTH_MAX]) hchild ⟨c, hc, p, hpc, hpdeep⟩
  | _ => simp [children] at hc

end Load

/-! ## What the loader never returns -/

/-- Every instantiation in `t` has type arguments. -/
def AllHaveTypeArguments (t : SignatureToken) : Prop := ∀ d, ∀ p ∈ preorder t d, p.1.hasTypeArguments

/-- What the loop keeps of the types on its stack: the complete ones, and the
arguments the others hold, have no instantiation without type arguments. -/
def TypeBuilder.Good : TypeBuilder → Prop
  | .saturated t => AllHaveTypeArguments t
  | .structInst _ _ tyArgs => ∀ c ∈ tyArgs, AllHaveTypeArguments c
  | _ => True

/-- A node with the given children has all its instantiations with type
arguments when it has type arguments and its children do. -/
theorem allHaveTypeArguments_of_children {t : SignatureToken} (ht : t.hasTypeArguments)
    (hchildren : ∀ c ∈ t.children, AllHaveTypeArguments c) : AllHaveTypeArguments t := by
  intro d p hp
  rw [preorder_eq, List.mem_cons, mem_preorderList] at hp
  rcases hp with rfl | ⟨c, hc, hpc⟩
  · exact ht
  · exact hchildren c hc _ p hpc

theorem apply_good {b b' : TypeBuilder} {tok : SignatureToken} (hb : b.Good) (htok : AllHaveTypeArguments tok)
    (h : b.apply tok = .ok b') : b'.Good := by
  cases b with
  | saturated _ => cases h
  | vector | reference | mutableReference =>
    cases h
    exact allHaveTypeArguments_of_children rfl (by simpa [children] using htok)
  | structInst idx arity tyArgs =>
    -- the arguments held so far, and the new one
    have hargs : ∀ c ∈ tyArgs ++ [tok], AllHaveTypeArguments c := by
      intro c hc
      rcases List.mem_append.mp hc with hc | hc
      · exact hb c hc
      · obtain rfl := List.mem_singleton.mp hc
        exact htok
    simp only [apply] at h
    split_ifs at h
    · cases h
      exact allHaveTypeArguments_of_children (by simp [hasTypeArguments]) hargs
    · cases h
      exact hargs

theorem readNext_good {cursor rest : List UInt8} {b : TypeBuilder} (h : readNext cursor = .ok (b, rest)) : b.Good := by
  obtain ⟨-, ⟨tok, rfl, hchildren, hta⟩ | rfl | rfl | rfl | ⟨shIdx, arity, rfl⟩⟩ := readNext_cases h
  · exact allHaveTypeArguments_of_children hta (by simp [hchildren])
  all_goals simp [TypeBuilder.Good]

/-- What a round of the loop that ends in a type can do: return the one
complete type on the stack, give the complete type on top to the one below
it, or read a node onto a type waiting for arguments. -/
theorem loop_cases {cursor rest : List UInt8} {stack : List TypeBuilder} {t : SignatureToken}
    (h : loadSignatureTokenLoop cursor stack = .ok (t, rest)) :
    (stack = [.saturated t] ∧ rest = cursor) ∨
    (∃ tok b below b', stack = .saturated tok :: b :: below ∧ b.apply tok = .ok b' ∧
      loadSignatureTokenLoop cursor (b' :: below) = .ok (t, rest)) ∨
    (∃ top below b cursor', stack = top :: below ∧ readNext cursor = .ok (b, cursor') ∧
      loadSignatureTokenLoop cursor' (b :: top :: below) = .ok (t, rest)) := by
  rw [loadSignatureTokenLoop.eq_def] at h
  split_ifs at h
  split at h
  · cases h
  · split at h
    · cases h
      exact .inl ⟨rfl, rfl⟩
    · split at h
      · exact .inr (.inl ⟨_, _, _, _, rfl, ‹_›, h⟩)
      · cases h
  · split at h
    · exact .inr (.inr ⟨_, _, _, _, rfl, ‹_›, h⟩)
    · cases h

/-- The loop keeps `Good` on its stack, so what it returns is `Good`. -/
theorem loop_good {t : SignatureToken} {rest : List UInt8} (cursor : List UInt8) (stack : List TypeBuilder)
    (hs : ∀ b ∈ stack, b.Good) (h : loadSignatureTokenLoop cursor stack = .ok (t, rest)) : AllHaveTypeArguments t := by
  -- a read takes a byte and pushes one type; giving a type to the one below pops one
  induction hm : 2 * cursor.length + stack.length using Nat.strong_induction_on generalizing cursor stack with
  | _ m ih =>
    rcases loop_cases h with ⟨rfl, -⟩ | ⟨tok, b, below, b', rfl, happly, h'⟩ | ⟨top, below, b, cursor', rfl, hread, h'⟩
    · exact hs _ List.mem_cons_self
    · refine ih _ (by simp at hm ⊢; omega) cursor _ (fun c hc => ?_) h' rfl
      rcases List.mem_cons.mp hc with rfl | hc
      · exact apply_good (hs _ (by simp)) (hs _ List.mem_cons_self) happly
      · exact hs c (by simp [hc])
    · have hlen := readNext_length_lt hread
      refine ih _ (by simp at hm ⊢; omega) cursor' _ (fun c hc => ?_) h' rfl
      rcases List.mem_cons.mp hc with rfl | hc
      · exact readNext_good hread
      · exact hs c hc

/-- No type `load_signature_token` returns has an instantiation without type
arguments. -/
theorem loadSignatureToken_hasTypeArguments {cursor rest : List UInt8} {t : SignatureToken}
    (h : loadSignatureToken cursor = .ok (t, rest)) : ∀ p ∈ t.preorderTraversalWithDepth, p.1.hasTypeArguments := by
  rw [preorderTraversalWithDepth_eq]
  unfold loadSignatureToken at h
  split at h
  · cases h
  · rename_i tok cursor' hread
    cases h
    exact readNext_good hread 1
  · rename_i b cursor' _ hread
    exact loop_good cursor' [b] (by simpa using readNext_good hread) h 1

/-! ## The round trip -/

/-- Types are written and read back exactly, up to the depth bound, when
every instantiation has type arguments: the writer succeeds exactly when no
node is too deep, the loader then reads back the type and stops right after
it, and otherwise rejects the unchecked encoding. An instantiation with none
is written all the same, as `[0xB, 0, 0]` for the first handle, but no bytes
load as it. -/
theorem signatureToken_roundTrip_loses_emptyInstantiation :
    serializeSignatureToken .new (.structInstantiation 0 []) = .ok ⟨[0xB, 0, 0]⟩ ∧
    (∀ cursor rest, loadSignatureToken cursor ≠ .ok (.structInstantiation 0 [], rest)) ∧
    ∀ (t : SignatureToken) (binary : BinaryData), (∀ p ∈ t.preorderTraversalWithDepth, p.1.readable) →
      binary.len + (encode t).length ≤ BINARY_SIZE_LIMIT →
      ((∃ binary', serializeSignatureToken binary t = .ok binary') ↔
        ∀ p ∈ t.preorderTraversalWithDepth, p.2 ≤ SIGNATURE_TOKEN_DEPTH_MAX) ∧
      (∀ binary', serializeSignatureToken binary t = .ok binary' →
        binary'.binary = binary.binary ++ encode t ∧ ∀ rest, loadSignatureToken (encode t ++ rest) = .ok (t, rest)) ∧
      ((∃ e, serializeSignatureToken binary t = .error e) →
        serializeSignatureTokenUnchecked binary t = .ok ⟨binary.binary ++ encode t⟩ ∧
        ∀ rest, loadSignatureToken (encode t ++ rest) =
          .error (.error ⟨.MALFORMED, some "Maximum recursion depth reached"⟩)) := by
  have hempty : (structInstantiation 0 []).preorderTraversalWithDepth = [(structInstantiation 0 [], 1)] := by
    rw [preorderTraversalWithDepth_eq, preorder_eq]
    rfl
  refine ⟨?_, ?_, ?_⟩
  · -- the writer writes the tag, the handle and the count `0`
    have hw : ∀ p ∈ (structInstantiation 0 []).preorderTraversalWithDepth, p.1.writable := by
      rw [hempty]
      decide
    have hdepth : ∀ p ∈ (structInstantiation 0 []).preorderTraversalWithDepth, p.2 ≤ SIGNATURE_TOKEN_DEPTH_MAX := by
      rw [hempty]
      decide
    have hencode : encode (structInstantiation 0 []) = [0xB, 0, 0] := by
      rw [encode_eq]
      simp [nodeBytes, children, encodeList, Leb128.encode_of_lt, SerializedType.toU8]
    rw [serializeSignatureToken_eq_ok hw hdepth (by simp [hencode, BinaryData.new, BinaryData.len, BINARY_SIZE_LIMIT]),
      hencode]
    rfl
  · -- what the loader returns has no instantiation without arguments
    intro cursor rest h
    have := loadSignatureToken_hasTypeArguments h (structInstantiation 0 [], 1) (by rw [hempty]; simp)
    simp [hasTypeArguments] at this
  · intro t binary hread hroom
    have hw : ∀ p ∈ t.preorderTraversalWithDepth, p.1.writable := fun p hp => writable_of_readable (hread p hp)
    refine ⟨⟨?_, fun hdepth => ⟨_, serializeSignatureToken_eq_ok hw hdepth hroom⟩⟩, ?_, ?_⟩
    · rintro ⟨binary', hok⟩ p hp
      by_contra hdeep
      obtain ⟨e, herr⟩ := @serializeSignatureToken_eq_error binary t ⟨p, hp, by omega⟩
      rw [herr] at hok
      cases hok
    · intro binary' hok
      by_cases hdepth : ∀ p ∈ t.preorderTraversalWithDepth, p.2 ≤ SIGNATURE_TOKEN_DEPTH_MAX
      · rw [serializeSignatureToken_eq_ok hw hdepth hroom] at hok
        cases hok
        exact ⟨rfl, loadSignatureToken_encode fun p hp => ⟨hread p hp, hdepth p hp⟩⟩
      · push Not at hdepth
        obtain ⟨e, herr⟩ := @serializeSignatureToken_eq_error binary t hdepth
        rw [herr] at hok
        cases hok
    · rintro ⟨e, herr⟩
      have hdeep : ∃ p ∈ t.preorderTraversalWithDepth, SIGNATURE_TOKEN_DEPTH_MAX < p.2 := by
        by_contra hdeep
        push Not at hdeep
        rw [serializeSignatureToken_eq_ok hw hdeep hroom] at herr
        cases herr
      exact ⟨serializeSignatureTokenUnchecked_eq_ok hw hroom, loadSignatureToken_encode_error hread hdeep⟩

end Diem.Move
