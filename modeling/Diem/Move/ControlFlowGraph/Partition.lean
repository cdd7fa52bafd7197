import Diem.Move.ControlFlowGraph

/-!
# The basic blocks of a code unit

`VMControlFlowGraph::new` of
`language/move-binary-format/src/control_flow_graph.rs` makes two passes. The
first records the offsets that start a block: `0`, every jump target, and the
offset after every branch but the last instruction. The second closes a block
at every instruction followed by a recorded offset or by the end of the code.

`newChecked` is `new` of `Diem.Move.ControlFlowGraph` with its panics: the
`checked_precondition!` of `get_successors`, an `assert!` outside verification
builds, and the final `assert_eq!(entry, code.len())`. For code of at most
`u16::max_value()` instructions, as the deserializer admits, no `u16`
computation of `new` wraps.

The blocks of `new` are exactly the intervals that start at `0` or after the end
of a block and end at the first end after that (`find?_new`). From
`u16::max_value()` instructions on, `new` panics, since the offset of the last
instruction leaves no room for two more (`newChecked_eq_none`). Below that
bound, for code whose jump targets are offsets of the code,
**`new_basicBlocks`**: `new` does not panic, its blocks cut the code into
contiguous, disjoint intervals that cover it, a block starts exactly at `0`, at
a jump target or after a branch, only its last instruction branches, and every
successor of a block is the start of a block.
-/

namespace Diem.Move

namespace Bytecode

/-- `get_successors` with its `checked_precondition!`: `none` where the
assertion fails. -/
def getSuccessorsChecked (pc : ℕ) (code : List Bytecode) : Option (List ℕ) :=
  if pc ≤ 65535 - 2 ∧ pc < code.length then some (getSuccessors pc code) else none

/-- A successor is the jump target or the next offset, inside the code. -/
theorem mem_getSuccessors {pc s : ℕ} {code : List Bytecode} (h : s ∈ getSuccessors pc code) :
    (∃ bytecode, code[pc]? = some bytecode ∧ bytecode.offset = some s) ∨ (s = pc + 1 ∧ pc + 1 < code.length) := by
  unfold getSuccessors at h
  cases hpc : code[pc]? with
  | none => simp [hpc] at h
  | some bytecode =>
    simp only [hpc] at h
    cases hoff : bytecode.offset with
    | none =>
      simp only [hoff, Option.toList] at h
      split_ifs at h with hend hnext
      · simp at h
      · simp at h
        exact .inr ⟨h, by omega⟩
      · simp at h
    | some t =>
      simp only [hoff, Option.toList] at h
      split_ifs at h with hend hnext
      · simp at h
        exact .inl ⟨bytecode, rfl, by rw [hoff, h]⟩
      · -- the target and the next offset, in increasing order
        have h' : s = t ∨ s = pc + 1 := by
          simp only [List.singleton_append] at h
          split_ifs at h <;> simp at h <;> omega
        rcases h' with rfl | rfl
        · exact .inl ⟨bytecode, rfl, hoff⟩
        · exact .inr ⟨rfl, by omega⟩
      · simp at h
        exact .inl ⟨bytecode, rfl, by rw [hoff, h]⟩

end Bytecode

namespace VMControlFlowGraph

/-- The first loop of `new`: the offsets that start a block. -/
def collectBlockIds (code : List Bytecode) : OrdMap ℕ Unit :=
  (List.range code.length).foldl (fun ids pc => recordBlockIds pc code ids) ((∅ : OrdMap ℕ Unit).insert 0 ())

theorem new_eq (code : List Bytecode) :
    new code = ⟨(cutBlocks code (collectBlockIds code) (List.range code.length) (∅, 0)).1⟩ := rfl

/-- The second loop of `new`, with the precondition of `get_successors`. -/
def cutBlocksChecked (code : List Bytecode) (blockIds : OrdMap ℕ Unit) :
    List ℕ → OrdMap ℕ BasicBlock × ℕ → Option (OrdMap ℕ BasicBlock × ℕ)
  | [], acc => some acc
  | pc :: pcs, (blocks, entry) =>
    if isEndOfBlock pc code blockIds then
      match Bytecode.getSuccessorsChecked pc code with
      | some successors => cutBlocksChecked code blockIds pcs (blocks.insert entry ⟨entry, pc, successors⟩, pc + 1)
      | none => none
    else cutBlocksChecked code blockIds pcs (blocks, entry)

/-- `VMControlFlowGraph::new` with its assertions: `none` where one fails. -/
def newChecked (code : List Bytecode) : Option VMControlFlowGraph :=
  match cutBlocksChecked code (collectBlockIds code) (List.range code.length) (∅, 0) with
  | some acc => if acc.2 = code.length then some ⟨acc.1⟩ else none
  | none => none

/-! ### The recorded offsets -/

/-- `record_block_ids` at `pc` records `b`: the target of the jump there, or
the offset after a branch that is not the last instruction. -/
def RecordedAt (code : List Bytecode) (pc b : ℕ) : Prop :=
  ∃ bytecode, code[pc]? = some bytecode ∧
    (bytecode.offset = some b ∨ (bytecode.isBranch = true ∧ pc + 1 < code.length ∧ b = pc + 1))

/-- `b` starts a block: it is `0`, or recorded at some offset. -/
def IsBlockStart (code : List Bytecode) (b : ℕ) : Prop := b = 0 ∨ ∃ pc, RecordedAt code pc b

theorem lt_length_of_recordedAt {code : List Bytecode} {pc b : ℕ} (h : RecordedAt code pc b) : pc < code.length := by
  obtain ⟨bytecode, hpc, -⟩ := h
  exact (List.getElem?_eq_some_iff.1 hpc).1

theorem find?_recordBlockIds (pc : ℕ) (code : List Bytecode) (ids : OrdMap ℕ Unit) (b : ℕ) :
    ((recordBlockIds pc code ids).find? b).isSome ↔ (ids.find? b).isSome ∨ RecordedAt code pc b := by
  unfold recordBlockIds RecordedAt
  cases hpc : code[pc]? with
  | none => simp
  | some bytecode =>
    simp only [Option.some.injEq, exists_eq_left']
    cases hoff : bytecode.offset with
    | none =>
      simp only []
      split_ifs with hbr
      · by_cases hb : b = pc + 1 <;> simp_all
      · simp_all
    | some t =>
      simp only []
      rcases eq_or_ne b t with rfl | ht
      · split_ifs <;> simp_all
      · have ht' : t ≠ b := ht.symm
        split_ifs with hbr
        · by_cases hb : b = pc + 1 <;> simp_all
        · simp_all

theorem find?_foldl_recordBlockIds (code : List Bytecode) (ids : OrdMap ℕ Unit) (b : ℕ) (n : ℕ) :
    (((List.range n).foldl (fun ids pc => recordBlockIds pc code ids) ids).find? b).isSome ↔
      (ids.find? b).isSome ∨ ∃ pc < n, RecordedAt code pc b := by
  induction n with
  | zero => simp
  | succ n ih =>
    rw [List.range_succ, List.foldl_append, List.foldl_cons, List.foldl_nil, find?_recordBlockIds, ih]
    constructor
    · rintro ((h | ⟨pc, hpc, h⟩) | h)
      · exact .inl h
      · exact .inr ⟨pc, by omega, h⟩
      · exact .inr ⟨n, by omega, h⟩
    · rintro (h | ⟨pc, hpc, h⟩)
      · exact .inl (.inl h)
      · rcases Nat.lt_succ_iff_lt_or_eq.1 hpc with hlt | rfl
        · exact .inl (.inr ⟨pc, hlt, h⟩)
        · exact .inr h

/-- **The first loop records exactly the block starts.** -/
theorem find?_collectBlockIds (code : List Bytecode) (b : ℕ) :
    ((collectBlockIds code).find? b).isSome ↔ IsBlockStart code b := by
  rw [collectBlockIds, find?_foldl_recordBlockIds, OrdMap.find?_insert, OrdMap.find?_empty, IsBlockStart]
  constructor
  · rintro (h | ⟨pc, -, h⟩)
    · by_cases hb : b = 0
      · exact .inl hb
      · simp [hb] at h
    · exact .inr ⟨pc, h⟩
  · rintro (rfl | ⟨pc, h⟩)
    · exact .inl (by simp)
    · exact .inr ⟨pc, lt_length_of_recordedAt h, h⟩

/-- An instruction ends a block when it is the last, or a block starts after it. -/
theorem isEndOfBlock_iff (pc : ℕ) (code : List Bytecode) :
    isEndOfBlock pc code (collectBlockIds code) = true ↔ pc + 1 = code.length ∨ IsBlockStart code (pc + 1) := by
  rw [isEndOfBlock, Bool.or_eq_true, beq_iff_eq, find?_collectBlockIds]

theorem isEndOfBlock_last {code : List Bytecode} (ids : OrdMap ℕ Unit) (hne : 0 < code.length) :
    isEndOfBlock (code.length - 1) code ids = true := by
  simp [isEndOfBlock, Nat.sub_add_cancel hne]

/-! ### Blocks -/

/-- `[entry, exit]` is a block of the code cut at the ends `isEndOfBlock`
marks: it starts at `0` or after an end, ends at an end, and contains no
other. -/
structure IsBlock (code : List Bytecode) (ids : OrdMap ℕ Unit) (entry exit : ℕ) : Prop where
  entry_le_exit : entry ≤ exit
  exit_lt : exit < code.length
  starts : entry = 0 ∨ isEndOfBlock (entry - 1) code ids = true
  ends : isEndOfBlock exit code ids = true
  inner : ∀ pc, entry ≤ pc → pc < exit → isEndOfBlock pc code ids = false

section Blocks

variable {code : List Bytecode} {ids : OrdMap ℕ Unit}

/-- A block that starts inside another starts no later. -/
theorem IsBlock.le_entry {e x e' x' : ℕ} (h : IsBlock code ids e x) (h' : IsBlock code ids e' x') (hle : e' ≤ x) :
    e' ≤ e := by
  by_contra hlt
  rcases h'.starts with h0 | hend
  · omega
  · rw [h.inner (e' - 1) (by omega) (by omega)] at hend
    cases hend

/-- A block that starts inside another ends no later. -/
theorem IsBlock.exit_le {e x e' x' : ℕ} (h : IsBlock code ids e x) (h' : IsBlock code ids e' x') (hle : e' ≤ x) :
    x' ≤ x := by
  by_contra hlt
  have hend := h.ends
  rw [h'.inner x hle (by omega)] at hend
  cases hend

/-- Two blocks that share an offset are one. -/
theorem IsBlock.eq_of_mem {e x e' x' pc : ℕ} (h : IsBlock code ids e x) (h' : IsBlock code ids e' x')
    (hpc : e ≤ pc ∧ pc ≤ x) (hpc' : e' ≤ pc ∧ pc ≤ x') : e = e' ∧ x = x' := by
  have h1 := h.le_entry h' (by omega)
  have h2 := h'.le_entry h (by omega)
  have h3 := h.exit_le h' (by omega)
  have h4 := h'.exit_le h (by omega)
  omega

/-- From every start inside the code, the first end after it closes a block. -/
theorem exists_isBlock {b : ℕ} (hb : b < code.length) (hstart : b = 0 ∨ isEndOfBlock (b - 1) code ids = true) :
    ∃ x, IsBlock code ids b x := by
  have hex : ∃ x, b ≤ x ∧ isEndOfBlock x code ids = true :=
    ⟨code.length - 1, by omega, isEndOfBlock_last ids (by omega)⟩
  have hspec := Nat.find_spec hex
  have hlast := Nat.find_min' hex ⟨show b ≤ code.length - 1 by omega, isEndOfBlock_last ids (by omega)⟩
  refine ⟨Nat.find hex, hspec.1, by omega, hstart, hspec.2, fun pc hbpc hpc => ?_⟩
  have hnot := Nat.find_min hex hpc
  simp only [not_and, Bool.not_eq_true] at hnot
  exact hnot hbpc

/-- What the second loop of `new` keeps after the offsets below `k`: the open
block starts at `0` or after an end and contains no end yet, and the blocks
closed are the blocks that end before it. -/
structure CutInv (code : List Bytecode) (ids : OrdMap ℕ Unit) (k : ℕ) (acc : OrdMap ℕ BasicBlock × ℕ) : Prop where
  entry_le : acc.2 ≤ k
  starts : acc.2 = 0 ∨ isEndOfBlock (acc.2 - 1) code ids = true
  noEnd : ∀ pc, acc.2 ≤ pc → pc < k → isEndOfBlock pc code ids = false
  closed : ∀ b bb, acc.1.find? b = some bb ↔
    ∃ x, bb = ⟨b, x, Bytecode.getSuccessors x code⟩ ∧ IsBlock code ids b x ∧ x < acc.2

theorem cutInv_zero : CutInv code ids 0 (∅, 0) :=
  ⟨le_rfl, .inl rfl, fun _ _ h => absurd h (Nat.not_lt_zero _), fun b bb => by simp⟩

/-- An instruction that ends no block leaves the closed blocks. -/
theorem CutInv.extend {k : ℕ} {blocks : OrdMap ℕ BasicBlock} {entry : ℕ} (h : CutInv code ids k (blocks, entry))
    (hend : isEndOfBlock k code ids = false) : CutInv code ids (k + 1) (blocks, entry) := by
  refine ⟨by have := h.entry_le; dsimp only at this ⊢; omega, h.starts, fun pc hpc hk => ?_, h.closed⟩
  rcases Nat.lt_succ_iff_lt_or_eq.1 hk with hk | rfl
  · exact h.noEnd pc hpc hk
  · exact hend

/-- An instruction that ends a block closes the open one. -/
theorem CutInv.close {k : ℕ} {blocks : OrdMap ℕ BasicBlock} {entry : ℕ} (h : CutInv code ids k (blocks, entry))
    (hk : k < code.length) (hend : isEndOfBlock k code ids = true) :
    CutInv code ids (k + 1) (blocks.insert entry ⟨entry, k, Bytecode.getSuccessors k code⟩, k + 1) := by
  have hek : entry ≤ k := h.entry_le
  have hblock : IsBlock code ids entry k := ⟨hek, hk, h.starts, hend, h.noEnd⟩
  refine ⟨le_rfl, .inr hend, fun pc hpc hk' => absurd hk' (by omega), fun b bb => ?_⟩
  dsimp only
  rw [OrdMap.find?_insert]
  by_cases hb : b = entry
  · -- the block closed now: its end is the first end from `entry` on
    subst hb
    rw [if_pos rfl]
    constructor
    · rintro ⟨⟩
      exact ⟨k, rfl, hblock, by omega⟩
    · rintro ⟨x, rfl, hx, hxk⟩
      obtain ⟨-, rfl⟩ := hx.eq_of_mem hblock ⟨hx.entry_le_exit, le_rfl⟩ ⟨hx.entry_le_exit, by omega⟩
      rfl
  · -- a block closed before: it ends before `entry`
    rw [if_neg hb, h.closed b bb]
    constructor
    · rintro ⟨x, rfl, hx, hxe⟩
      exact ⟨x, rfl, hx, by omega⟩
    · rintro ⟨x, rfl, hx, hxk⟩
      refine ⟨x, rfl, hx, ?_⟩
      by_contra hxe
      have h1 := hx.le_entry hblock (by omega)
      have h2 := hblock.le_entry hx (by have := hx.entry_le_exit; omega)
      exact hb (by omega)

theorem cutInv_cutBlocks : ∀ n k acc, k + n = code.length → CutInv code ids k acc →
    CutInv code ids code.length (cutBlocks code ids (List.range' k n) acc) := by
  intro n
  induction n with
  | zero =>
    intro k acc hk h
    rw [Nat.add_zero] at hk
    subst hk
    exact h
  | succ n ih =>
    intro k ⟨blocks, entry⟩ hk h
    rw [List.range'_succ, cutBlocks]
    by_cases hend : isEndOfBlock k code ids = true
    · rw [if_pos hend]
      exact ih (k + 1) _ (by omega) (h.close (by omega) hend)
    · rw [if_neg hend]
      exact ih (k + 1) _ (by omega) (h.extend (by simpa using hend))

/-- At the end of the code the open block starts at its end: every block is
closed, as the closing `assert_eq!` checks. -/
theorem CutInv.entry_eq_length {acc : OrdMap ℕ BasicBlock × ℕ} (h : CutInv code ids code.length acc) :
    acc.2 = code.length := by
  have hle := h.entry_le
  by_contra hne
  have hlast := h.noEnd (code.length - 1) (by omega) (by omega)
  rw [isEndOfBlock_last ids (by omega)] at hlast
  cases hlast

end Blocks

theorem cutInv_new (code : List Bytecode) :
    CutInv code (collectBlockIds code) code.length
      (cutBlocks code (collectBlockIds code) (List.range code.length) (∅, 0)) := by
  rw [List.range_eq_range']
  exact cutInv_cutBlocks code.length 0 _ (Nat.zero_add _) cutInv_zero

/-- **The blocks of `new`** are the blocks of the code, each with the
successors of its last instruction. -/
theorem find?_new (code : List Bytecode) (b : ℕ) (bb : BasicBlock) :
    (new code).blocks.find? b = some bb ↔
      ∃ x, bb = ⟨b, x, Bytecode.getSuccessors x code⟩ ∧ IsBlock code (collectBlockIds code) b x := by
  have h := cutInv_new code
  rw [new_eq, h.closed b bb]
  constructor
  · rintro ⟨x, rfl, hx, -⟩
    exact ⟨x, rfl, hx⟩
  · rintro ⟨x, rfl, hx⟩
    exact ⟨x, rfl, hx, by rw [h.entry_eq_length]; exact hx.exit_lt⟩

/-! ### Where `new` panics -/

theorem cutBlocksChecked_eq_some {code : List Bytecode} {ids : OrdMap ℕ Unit} :
    ∀ pcs acc, (∀ pc ∈ pcs, pc ≤ 65535 - 2 ∧ pc < code.length) →
      cutBlocksChecked code ids pcs acc = some (cutBlocks code ids pcs acc) := by
  intro pcs
  induction pcs with
  | nil => intro acc _; rfl
  | cons pc pcs ih =>
    intro ⟨blocks, entry⟩ hpcs
    have hrest : ∀ pc ∈ pcs, pc ≤ 65535 - 2 ∧ pc < code.length := fun p hp => hpcs p (List.mem_cons_of_mem _ hp)
    rw [cutBlocksChecked, cutBlocks]
    by_cases hend : isEndOfBlock pc code ids = true
    · rw [if_pos hend, if_pos hend, Bytecode.getSuccessorsChecked, if_pos (hpcs pc List.mem_cons_self)]
      exact ih _ hrest
    · rw [if_neg hend, if_neg hend]
      exact ih _ hrest

theorem cutBlocksChecked_append_eq_none {code : List Bytecode} {ids : OrdMap ℕ Unit} {p : ℕ}
    (hend : isEndOfBlock p code ids = true) (hp : ¬ (p ≤ 65535 - 2 ∧ p < code.length)) :
    ∀ pcs acc, cutBlocksChecked code ids (pcs ++ [p]) acc = none := by
  intro pcs
  induction pcs with
  | nil =>
    intro ⟨blocks, entry⟩
    rw [List.nil_append, cutBlocksChecked, if_pos hend, Bytecode.getSuccessorsChecked, if_neg hp]
  | cons pc pcs ih =>
    intro ⟨blocks, entry⟩
    rw [List.cons_append, cutBlocksChecked]
    split_ifs
    · split
      · exact ih _
      · rfl
    · exact ih _

/-- Below `u16::max_value()` instructions no assertion of `new` fails. -/
theorem newChecked_eq_some {code : List Bytecode} (hlen : code.length ≤ 65535 - 1) :
    newChecked code = some (new code) := by
  rw [newChecked, cutBlocksChecked_eq_some _ _ fun pc hpc => by rw [List.mem_range] at hpc; omega]
  dsimp only
  rw [if_pos (cutInv_new code).entry_eq_length]
  rfl

/-- **From `u16::max_value()` instructions on, `new` panics**: the last
instruction ends a block, and `get_successors` asserts that its offset leaves
room for two more. -/
theorem newChecked_eq_none {code : List Bytecode} (hlen : 65535 ≤ code.length) : newChecked code = none := by
  have hrange : List.range code.length = List.range (code.length - 1) ++ [code.length - 1] := by
    obtain ⟨n, hn⟩ : ∃ n, code.length = n + 1 := ⟨code.length - 1, by omega⟩
    rw [hn, List.range_succ, Nat.add_sub_cancel]
  rw [newChecked, hrange,
    cutBlocksChecked_append_eq_none (isEndOfBlock_last _ (by omega)) (by omega)]

/-- The `65535` instructions the deserializer admits (`BYTECODE_COUNT_MAX`)
make `new` panic. -/
theorem newChecked_maxBytecodeCount_panics : newChecked (List.replicate 65535 Bytecode.Pop) = none :=
  newChecked_eq_none (by rw [List.length_replicate])

/-! ### The partition -/

section Partition

variable {code : List Bytecode}

/-- **The blocks start at the block starts** inside the code. -/
theorem find?_new_isSome (b : ℕ) : ((new code).blocks.find? b).isSome ↔ b < code.length ∧ IsBlockStart code b := by
  rw [Option.isSome_iff_exists]
  constructor
  · rintro ⟨bb, hbb⟩
    obtain ⟨x, -, hx⟩ := (find?_new code b bb).1 hbb
    refine ⟨by have := hx.exit_lt; have := hx.entry_le_exit; omega, ?_⟩
    by_cases h0 : b = 0
    · exact .inl h0
    · have hend := hx.starts.resolve_left h0
      rw [isEndOfBlock_iff, Nat.sub_add_cancel (Nat.pos_of_ne_zero h0)] at hend
      rcases hend with hlen | hstart
      · have := hx.exit_lt; have := hx.entry_le_exit; omega
      · exact hstart
  · rintro ⟨hb, hstart⟩
    have hstart' : b = 0 ∨ isEndOfBlock (b - 1) code (collectBlockIds code) = true := by
      by_cases h0 : b = 0
      · exact .inl h0
      · exact .inr ((isEndOfBlock_iff _ _).2 (.inr (by rw [Nat.sub_add_cancel (by omega)]; exact hstart)))
    obtain ⟨x, hx⟩ := exists_isBlock hb hstart'
    exact ⟨_, (find?_new code b _).2 ⟨x, rfl, hx⟩⟩

/-- The offset after the end of a block inside the code starts a block. -/
theorem find?_new_succ {x : ℕ} (hend : isEndOfBlock x code (collectBlockIds code) = true) (hx : x + 1 < code.length) :
    ((new code).blocks.find? (x + 1)).isSome := by
  rw [isEndOfBlock_iff] at hend
  rcases hend with hlen | hstart
  · omega
  · exact (find?_new_isSome _).2 ⟨hx, hstart⟩

/-- Every offset of the code lies in a block. -/
theorem exists_block_of_lt {pc : ℕ} (hpc : pc < code.length) :
    ∃ b bb, (new code).blocks.find? b = some bb ∧ bb.entry ≤ pc ∧ pc ≤ bb.exit := by
  -- the last start up to `pc`, and the block from it
  let P : ℕ → Prop := fun b => b = 0 ∨ isEndOfBlock (b - 1) code (collectBlockIds code) = true
  have hb := Nat.findGreatest_le (P := P) pc
  obtain ⟨x, hx⟩ := exists_isBlock (show Nat.findGreatest P pc < code.length by omega)
    (Nat.findGreatest_spec (P := P) (Nat.zero_le pc) (.inl rfl))
  refine ⟨_, _, (find?_new code _ _).2 ⟨x, rfl, hx⟩, hb, show pc ≤ x from ?_⟩
  by_contra hxpc
  have hnot := Nat.findGreatest_is_greatest (P := P) (show Nat.findGreatest P pc < x + 1 by
    have := hx.entry_le_exit; omega) (show x + 1 ≤ pc by omega)
  exact hnot (.inr (by rw [Nat.add_sub_cancel]; exact hx.ends))

/-- Inside a block no instruction branches. -/
theorem isBranch_of_lt_exit {b x pc : ℕ} (hx : IsBlock code (collectBlockIds code) b x) (hpc : b ≤ pc) (hpcx : pc < x)
    {bytecode : Bytecode} (hcode : code[pc]? = some bytecode) : bytecode.isBranch = false := by
  have hinner := hx.inner pc hpc hpcx
  by_contra hbranch
  have hend : isEndOfBlock pc code (collectBlockIds code) = true :=
    (isEndOfBlock_iff _ _).2 (.inr (.inr ⟨pc, bytecode, hcode, .inr ⟨by simpa using hbranch, by
      have := hx.exit_lt; omega, rfl⟩⟩))
  rw [hinner] at hend
  cases hend

/-- The successors of a block start blocks, when the code jumps inside itself. -/
theorem find?_new_successor {b x s : ℕ} (hx : IsBlock code (collectBlockIds code) b x)
    (hoffsets : ∀ bytecode ∈ code, ∀ offset, bytecode.offset = some offset → offset < code.length)
    (hs : s ∈ Bytecode.getSuccessors x code) : ((new code).blocks.find? s).isSome := by
  rcases Bytecode.mem_getSuccessors hs with ⟨bytecode, hcode, hoff⟩ | ⟨rfl, hnext⟩
  · exact (find?_new_isSome s).2
      ⟨hoffsets bytecode (List.mem_of_getElem? hcode) s hoff, .inr ⟨x, bytecode, hcode, .inl hoff⟩⟩
  · exact find?_new_succ hx.ends hnext

end Partition

/-- **`VMControlFlowGraph::new` partitions the code into basic blocks**, for
non-empty code of fewer than `u16::max_value()` instructions whose jump
targets are offsets of the code. `new` does not panic. The blocks start
exactly at the block starts: `0`, the jump targets and the offsets after a
branch. Every offset lies in one block, and the blocks are the intervals from
their entry to their exit, each followed by the next block. Only the last
instruction of a block branches, and the entry block and every successor have
a block. -/
theorem new_basicBlocks (code : List Bytecode) (hne : code ≠ []) (hlen : code.length ≤ 65535 - 1)
    (hoffsets : ∀ bytecode ∈ code, ∀ offset, bytecode.offset = some offset → offset < code.length) :
    newChecked code = some (new code) ∧
      ((new code).blocks.find? 0).isSome ∧
      (∀ b, ((new code).blocks.find? b).isSome ↔ b < code.length ∧ IsBlockStart code b) ∧
      (∀ pc < code.length, ∃ b bb, (new code).blocks.find? b = some bb ∧ bb.entry ≤ pc ∧ pc ≤ bb.exit) ∧
      (∀ b b' bb bb' pc, (new code).blocks.find? b = some bb → (new code).blocks.find? b' = some bb' →
        bb.entry ≤ pc → pc ≤ bb.exit → bb'.entry ≤ pc → pc ≤ bb'.exit → b = b') ∧
      ∀ b bb, (new code).blocks.find? b = some bb →
        bb.entry = b ∧ bb.entry ≤ bb.exit ∧ bb.exit < code.length ∧
        (bb.exit + 1 < code.length → ((new code).blocks.find? (bb.exit + 1)).isSome) ∧
        (∀ pc bytecode, bb.entry ≤ pc → pc < bb.exit → code[pc]? = some bytecode → bytecode.isBranch = false) ∧
        ∀ s ∈ bb.successors, ((new code).blocks.find? s).isSome := by
  have hpos : 0 < code.length := List.length_pos_iff.2 hne
  refine ⟨newChecked_eq_some hlen, (find?_new_isSome 0).2 ⟨hpos, .inl rfl⟩, find?_new_isSome,
    fun pc hpc => exists_block_of_lt hpc, fun b b' bb bb' pc hb hb' h1 h2 h3 h4 => ?_, fun b bb hb => ?_⟩
  · obtain ⟨x, rfl, hx⟩ := (find?_new code b bb).1 hb
    obtain ⟨x', rfl, hx'⟩ := (find?_new code b' bb').1 hb'
    exact (hx.eq_of_mem hx' ⟨h1, h2⟩ ⟨h3, h4⟩).1
  · obtain ⟨x, rfl, hx⟩ := (find?_new code b bb).1 hb
    exact ⟨rfl, hx.entry_le_exit, hx.exit_lt, find?_new_succ hx.ends,
      fun pc bytecode hpc hpcx hcode => isBranch_of_lt_exit hx hpc hpcx hcode,
      fun s hs => find?_new_successor hx hoffsets hs⟩

/-- Code that branches over a `Ret` to the last one. -/
example :
    newChecked [.BrTrue 2, .Ret, .Ret] = some (new [.BrTrue 2, .Ret, .Ret]) :=
  (new_basicBlocks [.BrTrue 2, .Ret, .Ret] (by decide) (by decide) fun bytecode hmem offset hoff => by
    simp only [List.mem_cons, List.not_mem_nil, or_false] at hmem
    rcases hmem with rfl | rfl | rfl <;> simp [Bytecode.offset] at hoff ⊢
    omega).1

end VMControlFlowGraph

end Diem.Move
