import Mathlib
import Diem.Types.NibblePath

/-!
# Walking a nibble path

The rest of `NibbleIterator` of `types/src/nibble/nibble_path/mod.rs`, as the
writer of the Jellyfish Merkle tree uses it: `peek`, `next`, `is_finished`,
`skip_common_prefix` and `collect`, and `NibblePath::pop` on a path. A call that
can panic returns `none` for the panic, as the operations of
`Diem.NibblePath.Raw` do, and `skip_common_prefix` is its `loop`, one round per
nibble skipped.

A well-formed path is read through the list of its nibbles (`Raw.Reads`), and a
path is determined by that list (`eq_of_nibbleList_eq`). An iterator over a path
yields the nibbles of the list from its position (`next_of_reads`), and
`skip_common_prefix` advances two iterators by the length of the common prefix
of what they have left (`skipCommonPrefix_spec`).
-/

namespace Diem.NibblePath

instance : DecidableEq NibblePath := fun p q =>
  decidable_of_iff (p.numNibbles = q.numNibbles ∧ p.bytes = q.bytes)
    ⟨fun ⟨hn, hb⟩ => NibblePath.ext hn hb, fun h => h ▸ ⟨rfl, rfl⟩⟩

namespace NibbleIterator

/-- The iterator one nibble on: `pos.next()`. -/
def advance (it : NibbleIterator) : NibbleIterator := { it with posStart := it.posStart + 1 }

@[simp] theorem advance_nibblePath (it : NibbleIterator) : it.advance.nibblePath = it.nibblePath := rfl

@[simp] theorem advance_posStart (it : NibbleIterator) : it.advance.posStart = it.posStart + 1 := rfl

@[simp] theorem advance_posEnd (it : NibbleIterator) : it.advance.posEnd = it.posEnd := rfl

@[simp] theorem advance_start (it : NibbleIterator) : it.advance.start = it.start := rfl

/-- `Peekable::peek`: `get_nibble(pos.start)` while `pos` is not empty. -/
def peek (it : NibbleIterator) : Option (Option (Fin 16)) :=
  if it.posStart < it.posEnd then (it.nibblePath.getNibble it.posStart).map some else some none

/-- `Iterator::next`: the nibble `peek` reads, and the iterator after it. -/
def next (it : NibbleIterator) : Option (Option (Fin 16) × NibbleIterator) :=
  if it.posStart < it.posEnd then (it.nibblePath.getNibble it.posStart).map fun x => (some x, it.advance)
  else some (none, it)

/-- `NibbleIterator::is_finished`: `peek().is_none()`. -/
def isFinished (it : NibbleIterator) : Option Bool := it.peek.map Option.isNone

/-- `collect::<NibblePath>()`: the nibbles `next` yields, pushed in turn onto
an empty path. -/
def collect (it : NibbleIterator) : Option NibblePath := do
  let nibbles ← it.toList
  match h : Raw.fromIter nibbles with
  | some p => some (p.toNibblePath (Raw.wellFormed_of_fromIter h))
  | none => none

theorem posStart_lt_of_peek {it : NibbleIterator} {a : Fin 16} (h : it.peek = some (some a)) :
    it.posStart < it.posEnd := by
  unfold peek at h
  split_ifs at h with hlt
  · exact hlt
  · simp at h

/-- `next` yields a nibble only before the end: the one at the position, and
the iterator one on. -/
theorem eq_advance_of_next {it it' : NibbleIterator} {x : Fin 16} (h : it.next = some (some x, it')) :
    it' = it.advance ∧ it.posStart < it.posEnd ∧ it.nibblePath.getNibble it.posStart = some x := by
  unfold next at h
  split_ifs at h with hlt
  · cases hget : it.nibblePath.getNibble it.posStart with
    | none => rw [hget] at h; cases h
    | some y =>
      rw [hget, Option.map_some, Option.some_inj, Prod.mk.injEq, Option.some_inj] at h
      exact ⟨h.2.symm, hlt, by rw [h.1]⟩
  · cases h

end NibbleIterator

/-- `skip_common_prefix`: both iterators advanced while their next nibbles are
equal; the count of the nibbles skipped and the two iterators after. `none`
where a `peek` panics. -/
def skipCommonPrefix (x y : NibbleIterator) : Option (ℕ × NibbleIterator × NibbleIterator) :=
  match hx : x.peek, y.peek with
  | some (some a), some (some b) =>
    if a = b then (skipCommonPrefix x.advance y.advance).map fun r => (r.1 + 1, r.2) else some (0, x, y)
  | some _, some _ => some (0, x, y)
  | _, _ => none
termination_by x.posEnd - x.posStart
decreasing_by
  have := NibbleIterator.posStart_lt_of_peek hx
  simp only [NibbleIterator.advance]
  omega

/-- `NibblePath::pop` on a path: the nibble popped, and the path after it. -/
def pop (p : NibblePath) : Option (Fin 16) × NibblePath :=
  (p.toRaw.pop.1, p.toRaw.pop.2.toNibblePath p.wellFormed_toRaw.pop_snd)

/-- `NibblePath::is_empty`. -/
def isEmpty (p : NibblePath) : Bool := p.numNibbles == 0

/-! ## Paths as lists of nibbles -/

/-- The path reads the nibbles of `l`, and no more. -/
def Raw.Reads (p : Raw) (l : List (Fin 16)) : Prop := ∀ i, p.getNibble i = l[i]?

/-- The nibbles of a path, in order. -/
def nibbleList (p : NibblePath) : List (Fin 16) := ((List.range p.numNibbles).mapM p.toRaw.getNibble).getD []

namespace Raw

variable {p q : Raw} {l : List (Fin 16)}

theorem Reads.numNibbles_eq (hp : p.WellFormed) (h : p.Reads l) : p.numNibbles = l.length :=
  eq_of_forall_lt_iff fun i => by rw [← hp.isSome_getNibble_iff, h]; simp

theorem Reads.eq (hp : p.WellFormed) (hq : q.WellFormed) (h : p.Reads l) (h' : q.Reads l) : p = q :=
  hp.eq_of_getNibble hq fun i => by rw [h, h']

theorem Reads.push (hp : p.WellFormed) (h : p.Reads l) (hl : l.length < ROOT_NIBBLE_HEIGHT) (x : Fin 16) :
    ∃ q, p.push x = some q ∧ q.WellFormed ∧ q.Reads (l ++ [x]) := by
  obtain ⟨q, hpush, hq, -, hget⟩ := hp.push_spec (by rw [h.numNibbles_eq hp]; exact hl) x
  refine ⟨q, hpush, hq, fun i => ?_⟩
  rw [hget, h.numNibbles_eq hp, List.getElem?_append]
  split_ifs with hi hi'
  · rw [h]
  · subst hi'
    simp
  · rw [List.getElem?_singleton, if_neg (by omega)]

theorem Reads.pop (hq : q.WellFormed) {x : Fin 16} (h : q.Reads (l ++ [x])) :
    q.pop.1 = some x ∧ q.pop.2.Reads l := by
  have hn := h.numNibbles_eq hq
  rw [List.length_append, List.length_singleton] at hn
  obtain ⟨y, p, hpop, hy, -, -, hget⟩ := hq.pop_spec (by omega)
  rw [h, hn, Nat.add_sub_cancel, List.getElem?_concat_length, Option.some_inj] at hy
  refine ⟨by rw [hpop, hy], fun i => ?_⟩
  rw [hpop, hget, hn, Nat.add_sub_cancel]
  split_ifs with hi
  · rw [h, List.getElem?_append_left hi]
  · rw [List.getElem?_eq_none (by omega)]

theorem reads_fromIter (hl : l.length ≤ ROOT_NIBBLE_HEIGHT) : ∃ p, fromIter l = some p ∧ p.Reads l :=
  fromIter_spec l hl

theorem WellFormed.reads_mapM (hp : p.WellFormed) :
    ∃ l, (List.range p.numNibbles).mapM p.getNibble = some l ∧ p.Reads l := by
  obtain ⟨l, hl, -, hget⟩ := hp.mapM_getNibble 0 p.numNibbles (by omega)
  refine ⟨l, by rw [List.range_eq_range']; exact hl, fun i => ?_⟩
  rw [hget, Nat.zero_add]
  split_ifs with hi
  · rfl
  · rw [getNibble_of_le (Nat.le_of_not_lt hi)]

end Raw

theorem reads_nibbleList (p : NibblePath) : p.toRaw.Reads p.nibbleList := by
  obtain ⟨l, hl, hreads⟩ := p.wellFormed_toRaw.reads_mapM
  have hnl : p.nibbleList = l := by
    rw [nibbleList, show p.numNibbles = p.toRaw.numNibbles from rfl, hl, Option.getD_some]
  rw [hnl]
  exact hreads

/-- A path is the list of its nibbles. -/
theorem eq_of_nibbleList_eq {p q : NibblePath} (h : p.nibbleList = q.nibbleList) : p = q := by
  have hraw : p.toRaw = q.toRaw :=
    (reads_nibbleList p).eq p.wellFormed_toRaw q.wellFormed_toRaw (h ▸ reads_nibbleList q)
  exact NibblePath.ext (congrArg Raw.numNibbles hraw) (congrArg Raw.bytes hraw)

theorem nibbleList_eq_of_reads {p : NibblePath} {l : List (Fin 16)} (h : p.toRaw.Reads l) : p.nibbleList = l :=
  List.ext_getElem? fun i => by rw [← reads_nibbleList p i, h i]

theorem length_nibbleList (p : NibblePath) : p.nibbleList.length = p.numNibbles :=
  ((reads_nibbleList p).numNibbles_eq p.wellFormed_toRaw).symm

@[simp] theorem nibbleList_new_nil (h) : (NibblePath.new [] h).nibbleList = [] :=
  List.eq_nil_of_length_eq_zero (by rw [length_nibbleList]; rfl)

/-- `push` on a path is `push` on its fields. -/
theorem toRaw_of_push {p q : NibblePath} {x : Fin 16} (h : p.push x = some q) : p.toRaw.push x = some q.toRaw := by
  unfold push at h
  split at h
  · next q' hq' =>
    cases h
    exact hq'
  · cases h

/-- `push` appends its nibble, below the height. -/
theorem nibbleList_push {p q : NibblePath} {x : Fin 16} (h : p.push x = some q) :
    q.nibbleList = p.nibbleList ++ [x] := by
  have hlen : p.nibbleList.length < ROOT_NIBBLE_HEIGHT := by
    rw [length_nibbleList]
    exact (isSome_push_iff p x).1 (by rw [h]; rfl)
  obtain ⟨q', hpush, -, hreads⟩ := (reads_nibbleList p).push p.wellFormed_toRaw hlen x
  have hq : q.toRaw = q' := by
    have hraw := toRaw_of_push h
    rw [hpush, Option.some_inj] at hraw
    exact hraw.symm
  exact nibbleList_eq_of_reads (hq ▸ hreads)

/-- `push` succeeds below the height. -/
theorem exists_push {p : NibblePath} (hp : p.nibbleList.length < ROOT_NIBBLE_HEIGHT) (x : Fin 16) :
    ∃ q, p.push x = some q ∧ q.nibbleList = p.nibbleList ++ [x] := by
  rw [length_nibbleList] at hp
  obtain ⟨q, hq⟩ := Option.isSome_iff_exists.1 ((isSome_push_iff p x).2 hp)
  exact ⟨q, hq, nibbleList_push hq⟩

/-- `pop` drops the last nibble and returns it. -/
theorem pop_of_nibbleList {p : NibblePath} {l : List (Fin 16)} {x : Fin 16} (h : p.nibbleList = l ++ [x]) :
    p.pop.1 = some x ∧ p.pop.2.nibbleList = l := by
  obtain ⟨h1, h2⟩ := Raw.Reads.pop p.wellFormed_toRaw (h ▸ reads_nibbleList p)
  exact ⟨h1, nibbleList_eq_of_reads h2⟩

/-! ## Iterators over a path -/

namespace NibbleIterator

variable {it : NibbleIterator} {l : List (Fin 16)}

theorem peek_of_reads (h : it.nibblePath.Reads l) (hend : it.posEnd ≤ l.length) :
    it.peek = some (if it.posStart < it.posEnd then l[it.posStart]? else none) := by
  unfold peek
  split_ifs with hlt
  · rw [h, List.getElem?_eq_getElem (by omega)]
    rfl
  · rfl

theorem next_of_reads (h : it.nibblePath.Reads l) (hend : it.posEnd ≤ l.length) :
    it.next = some (if it.posStart < it.posEnd then (l[it.posStart]?, it.advance) else (none, it)) := by
  unfold next
  split_ifs with hlt
  · rw [h, List.getElem?_eq_getElem (by omega)]
    rfl
  · rfl

theorem isFinished_of_reads (h : it.nibblePath.Reads l) (hend : it.posEnd ≤ l.length) :
    it.isFinished = some (decide (it.posEnd ≤ it.posStart)) := by
  rw [isFinished, peek_of_reads h hend]
  split_ifs with hlt
  · rw [List.getElem?_eq_getElem (by omega)]
    simp only [Option.map_some, Option.isNone_some, Option.some_inj]
    exact (decide_eq_false (Nat.not_le.2 hlt)).symm
  · simp only [Option.map_some, Option.isNone_none, Option.some_inj]
    exact (decide_eq_true (Nat.le_of_not_lt hlt)).symm

theorem toList_of_reads (h : it.nibblePath.Reads l) (hle : it.posStart ≤ it.posEnd) (hend : it.posEnd ≤ l.length) :
    it.toList = some ((l.drop it.posStart).take (it.posEnd - it.posStart)) := by
  rw [toList]
  generalize hk : it.posEnd - it.posStart = k
  have hlen : it.posStart + k ≤ l.length := by omega
  clear hle
  induction k generalizing it with
  | zero => rfl
  | succ k ih =>
    have hrest := ih (show it.advance.nibblePath.Reads l from h) (by simp only [advance_posEnd]; omega)
      (by simp only [advance_posEnd, advance_posStart]; omega) (by simp only [advance_posStart]; omega)
    simp only [advance_nibblePath, advance_posStart] at hrest
    rw [List.range'_succ, List.mapM_cons, h, List.getElem?_eq_getElem (by omega), hrest]
    simp only [Option.pure_def, Option.bind_eq_bind, Option.bind_some]
    have hlt : it.posStart < l.length := by omega
    rw [List.drop_eq_getElem_cons hlt, List.take_succ_cons, ← List.drop_drop, List.drop_one]

theorem collect_of_reads (h : it.nibblePath.Reads l) (hle : it.posStart ≤ it.posEnd) (hend : it.posEnd ≤ l.length)
    (hk : it.posEnd - it.posStart ≤ ROOT_NIBBLE_HEIGHT) :
    ∃ q, it.collect = some q ∧ q.nibbleList = (l.drop it.posStart).take (it.posEnd - it.posStart) := by
  obtain ⟨p, hp, hreads⟩ := Raw.reads_fromIter (l := (l.drop it.posStart).take (it.posEnd - it.posStart))
    (by rw [List.length_take]; omega)
  refine ⟨p.toNibblePath (Raw.wellFormed_of_fromIter hp), ?_, nibbleList_eq_of_reads hreads⟩
  simp only [collect, toList_of_reads h hle hend, Option.bind_eq_bind, Option.bind_some]
  split
  · next q hq =>
    rw [hp, Option.some_inj] at hq
    subst hq
    rfl
  · next hq => rw [hp] at hq; cases hq

/-- `get_nibble_path` of an iterator over a whole path, from its first
nibble, gives the path back. -/
theorem getNibblePath_of_whole (hp : it.nibblePath.WellFormed) (hstart : it.start = 0)
    (hle : it.posStart ≤ it.posEnd) (hend : it.posEnd = it.nibblePath.numNibbles) :
    it.getNibblePath = some it.nibblePath := by
  obtain ⟨q, hq, hget⟩ := getNibblePath_spec hp (by omega) hle (by omega)
  rw [hq, (NibbleIterator.wellFormed_of_getNibblePath hq).eq_of_getNibble hp fun i => ?_]
  rw [hget, hstart, Nat.sub_zero, Nat.zero_add]
  split_ifs with hi
  · rfl
  · rw [Raw.getNibble_of_le (by omega)]

end NibbleIterator

/-- **`skip_common_prefix` skips the common prefix**: over two paths that read
`lx` and `ly`, it advances both iterators by `c` nibbles, where the nibbles
left agree on their first `c` and differ at the next one, unless one of the
iterators has reached its end. -/
theorem skipCommonPrefix_spec {lx ly : List (Fin 16)} :
    ∀ (x y : NibbleIterator), x.nibblePath.Reads lx → y.nibblePath.Reads ly → x.posEnd ≤ lx.length →
      y.posEnd ≤ ly.length → ∃ c, skipCommonPrefix x y = some (c, ⟨x.nibblePath, x.posStart + c, x.posEnd, x.start⟩,
        ⟨y.nibblePath, y.posStart + c, y.posEnd, y.start⟩) ∧
        c ≤ x.posEnd - x.posStart ∧ c ≤ y.posEnd - y.posStart ∧
        (∀ j < c, lx[x.posStart + j]? = ly[y.posStart + j]?) ∧
        (c < x.posEnd - x.posStart → c < y.posEnd - y.posStart → lx[x.posStart + c]? ≠ ly[y.posStart + c]?) := by
  intro x y hx hy hxe hye
  -- one round per nibble skipped, on the nibbles left in `x`
  induction hk : x.posEnd - x.posStart generalizing x y with
  | zero =>
    refine ⟨0, ?_, by omega, by omega, fun j hj => absurd hj (Nat.not_lt_zero j), fun h => absurd h (lt_irrefl 0)⟩
    rw [skipCommonPrefix, NibbleIterator.peek_of_reads hx hxe, if_neg (by omega)]
    rw [NibbleIterator.peek_of_reads hy hye]
    simp
  | succ k ih =>
    have hxlt : x.posStart < x.posEnd := by omega
    obtain ⟨a, ha⟩ : ∃ a, lx[x.posStart]? = some a := ⟨_, List.getElem?_eq_getElem (by omega)⟩
    by_cases hylt : y.posStart < y.posEnd
    · obtain ⟨b, hb⟩ : ∃ b, ly[y.posStart]? = some b := ⟨_, List.getElem?_eq_getElem (by omega)⟩
      by_cases hab : a = b
      · -- the nibbles agree: one round, and the rest from one nibble on
        subst hab
        have hk' : x.advance.posEnd - x.advance.posStart = k := by
          simp only [NibbleIterator.advance_posStart, NibbleIterator.advance_posEnd]
          omega
        have hrest := ih x.advance y.advance hx hy hxe hye hk'
        simp only [NibbleIterator.advance_nibblePath, NibbleIterator.advance_posStart, NibbleIterator.advance_posEnd,
          NibbleIterator.advance_start] at hrest
        obtain ⟨c, hc, hcx, hcy, hshared, hpart⟩ := hrest
        refine ⟨c + 1, ?_, by omega, by omega, fun j hj => ?_, fun h1 h2 => ?_⟩
        · rw [skipCommonPrefix, NibbleIterator.peek_of_reads hx hxe, if_pos hxlt, ha,
            NibbleIterator.peek_of_reads hy hye, if_pos hylt, hb]
          simp only [if_true, hc, Option.map_some, Nat.add_assoc, Nat.add_comm 1 c]
        · cases j with
          | zero => rw [Nat.add_zero, Nat.add_zero, ha, hb]
          | succ j =>
            have := hshared j (by omega)
            rwa [Nat.add_assoc, Nat.add_comm 1 j, Nat.add_assoc, Nat.add_comm 1 j] at this
        · have := hpart (by omega) (by omega)
          rwa [Nat.add_assoc, Nat.add_comm 1 c, Nat.add_assoc, Nat.add_comm 1 c] at this
      · -- they part here
        refine ⟨0, ?_, by omega, by omega, fun j hj => absurd hj (Nat.not_lt_zero j), fun _ _ => ?_⟩
        · rw [skipCommonPrefix, NibbleIterator.peek_of_reads hx hxe, if_pos hxlt, ha,
            NibbleIterator.peek_of_reads hy hye, if_pos hylt, hb]
          simp [hab]
        · rw [Nat.add_zero, Nat.add_zero, ha, hb]
          exact fun h => hab (Option.some_inj.1 h)
    · -- `y` is at its end
      refine ⟨0, ?_, by omega, by omega, fun j hj => absurd hj (Nat.not_lt_zero j), fun _ h => absurd h (by omega)⟩
      rw [skipCommonPrefix, NibbleIterator.peek_of_reads hx hxe, if_pos hxlt, ha,
        NibbleIterator.peek_of_reads hy hye, if_neg hylt]
      simp

end Diem.NibblePath
