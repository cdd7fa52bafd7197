import Diem.Storage.JellyfishMerkle.Restore
import Diem.Theory.BinarySearch
import Diem.Theory.Digits

/-!
# The nibble ranges of a sorted batch

`NibbleRangeIterator` of `storage/jellyfish-merkle/src/lib.rs`: the batch writer
of the Jellyfish Merkle tree groups the key-value pairs of a subtree at depth
`nibble_idx` by the nibble of their keys there. From its position, `next` reads
the nibble of the key there and searches, with `mid = j - (j - i) / 2`, for the
last key whose nibble is not above it.

`next` returns the item and the iterator after it, and `none` where the Rust
panics (`sorted_kvs[mid]` out of bounds). The search is
`BinarySearch.lastFalse`, and `ranges` collects what `next` yields, as a `for`
loop over the iterator does.

`next` reads only indices of the slice, so it never panics (`next_isSome`). The
search assumes that the nibble never goes down along the slice, which sorted
keys guarantee only when they share their first `nibble_idx` nibbles:
`nibbleRange_mixesNibbles` is a sorted slice of two keys without that prefix
whose first range takes both. With the prefix, **`nibbleRanges_spec`**: the
ranges cut the slice, in order, into the maximal runs of keys with one nibble
there, the nibble going up from each run to the next.
-/

namespace Diem.JellyfishMerkle

/-- **Along sorted keys that share their first `index` nibbles, nibble
`index` does not go down.** -/
theorem HashValue.nibble_le_of_shared {u v : HashValue} {index : ℕ} (hindex : index < ROOT_NIBBLE_HEIGHT)
    (hu : u.val < 2 ^ 256) (hv : v.val < 2 ^ 256) (huv : u.val ≤ v.val)
    (hshared : ∀ d < index, HashValue.nibble u d = HashValue.nibble v d) :
    HashValue.nibble u index ≤ HashValue.nibble v index := by
  -- 32 bytes are 64 digits in base 16, the nibbles from the top
  have hpow : (2 : ℕ) ^ 256 = 16 ^ (2 * HashValue.LENGTH) := by rw [HashValue.LENGTH]; norm_num
  have hdigits : ∀ d < index, u.val / 16 ^ (2 * HashValue.LENGTH - 1 - d) % 16 =
      v.val / 16 ^ (2 * HashValue.LENGTH - 1 - d) % 16 := fun d hd => congrArg Fin.val (hshared d hd)
  rw [Fin.le_iff_val_le_val]
  exact Nat.digit_le_of_digits_eq (hpow ▸ hu) (hpow ▸ hv) (by rw [HashValue.LENGTH]; exact hindex) huv hdigits

/-- `NibbleRangeIterator`: a slice of key-value pairs sorted by key, the
index of the nibble that groups them, and the position reached. -/
structure NibbleRangeIterator (V : Type) where
  /-- `sorted_kvs`. -/
  sortedKvs : List (HashValue × V)
  /-- `nibble_idx`. -/
  nibbleIdx : ℕ
  /-- `pos`. -/
  pos : ℕ

namespace NibbleRangeIterator

variable {V : Type}

/-- `new`; `none` where `assert!(nibble_idx < ROOT_NIBBLE_HEIGHT)` fails. -/
def new (sortedKvs : List (HashValue × V)) (nibbleIdx : ℕ) : Option (NibbleRangeIterator V) :=
  if nibbleIdx < ROOT_NIBBLE_HEIGHT then some ⟨sortedKvs, nibbleIdx, 0⟩ else none

/-- The test of the search in `next` at `mid`: the nibble of the key there is
above `curNibble`; `none` past the end of the slice. -/
def nibbleAbove (it : NibbleRangeIterator V) (curNibble : Nibble) (mid : ℕ) : Option Bool :=
  it.sortedKvs[mid]?.map fun kv => decide (HashValue.nibble kv.1 it.nibbleIdx > curNibble)

/-- `next`: the inclusive range of the keys from `pos` on with the nibble of
the key at `pos`, and the iterator past it. -/
def next (it : NibbleRangeIterator V) : Option (Option (ℕ × ℕ) × NibbleRangeIterator V) :=
  let left := it.pos
  if h : it.pos < it.sortedKvs.length then
    let curNibble := HashValue.nibble it.sortedKvs[it.pos].1 it.nibbleIdx
    match BinarySearch.lastFalse (it.nibbleAbove curNibble) left (it.sortedKvs.length - 1) with
    | some i => some (some (left, i), { it with pos := i + 1 })
    | none => none
  else some (none, it)

/-- The ranges `next` yields over at most `fuel` calls, until it yields
nothing. -/
def ranges : ℕ → NibbleRangeIterator V → Option (List (ℕ × ℕ))
  | 0, _ => some []
  | fuel + 1, it =>
    match it.next with
    | some (some range, it') => (ranges fuel it').map (range :: ·)
    | some (none, _) => some []
    | none => none

/-- **`next` never panics**, on every slice: its search reads only indices
up to the last one. -/
theorem next_isSome (it : NibbleRangeIterator V) : it.next.isSome := by
  by_cases hpos : it.pos < it.sortedKvs.length
  · have hsearch := @BinarySearch.lastFalse_isSome (it.nibbleAbove (HashValue.nibble it.sortedKvs[it.pos].1 it.nibbleIdx))
      it.pos (it.sortedKvs.length - 1) fun k _ hk => by
        rw [nibbleAbove, List.getElem?_eq_getElem (by omega)]
        rfl
    rw [next, dif_pos hpos]
    dsimp only
    split
    · rfl
    · next hnone => rw [hnone] at hsearch; cases hsearch
  · rw [next, dif_neg hpos]
    rfl

/-- Past the last key `next` yields nothing and leaves the iterator as it is. -/
theorem next_of_le {it : NibbleRangeIterator V} (hpos : it.sortedKvs.length ≤ it.pos) : it.next = some (none, it) := by
  rw [next, dif_neg (by omega)]

/-- A sorted slice of two keys without a common first nibble: at nibble `1`,
the first range `next` yields takes both keys, whose nibbles there differ. -/
theorem nibbleRange_mixesNibbles :
    [((⟨2 ^ 248⟩ : HashValue), ()), (⟨2 ^ 252⟩, ())].Pairwise (fun a b => a.1.val < b.1.val) ∧
      ((new [((⟨2 ^ 248⟩ : HashValue), ()), (⟨2 ^ 252⟩, ())] 1).bind next).map Prod.fst = some (some (0, 1)) ∧
      HashValue.nibble ⟨2 ^ 248⟩ 1 ≠ HashValue.nibble ⟨2 ^ 252⟩ 1 := by
  refine ⟨by decide, ?_, by decide⟩
  rw [new, if_pos (by decide), Option.bind_some, next, dif_pos (by decide)]
  -- one round of the search over `[0, 1]`: the nibble at `mid = 1` is `0`, not above `1`
  show Option.map Prod.fst (match BinarySearch.lastFalse (nibbleAbove ⟨[((⟨2 ^ 248⟩ : HashValue), ()), (⟨2 ^ 252⟩, ())], 1, 0⟩
      (HashValue.nibble ⟨2 ^ 248⟩ 1)) 0 1 with
    | some i => some (some (0, i), _)
    | none => none) = _
  have hmid : nibbleAbove ⟨[((⟨2 ^ 248⟩ : HashValue), ()), (⟨2 ^ 252⟩, ())], 1, 0⟩
      (HashValue.nibble ⟨2 ^ 248⟩ 1) (1 - (1 - 0) / 2) = some false := by decide
  rw [BinarySearch.lastFalse, if_pos (by decide)]
  dsimp only
  rw [hmid]
  dsimp only
  rw [BinarySearch.lastFalse, if_neg (by decide)]
  rfl

section Spec

/-! ### The ranges of a slice with a common prefix -/

/-- The nibble `nibbleIdx` of the key at `k`, as a number; `0` past the end. -/
def nibbleAt (sortedKvs : List (HashValue × V)) (nibbleIdx k : ℕ) : ℕ :=
  (sortedKvs[k]?.map fun kv => (HashValue.nibble kv.1 nibbleIdx).val).getD 0

theorem nibbleAt_of_lt {sortedKvs : List (HashValue × V)} {nibbleIdx k : ℕ} (hk : k < sortedKvs.length) :
    nibbleAt sortedKvs nibbleIdx k = (HashValue.nibble sortedKvs[k].1 nibbleIdx).val := by
  rw [nibbleAt, List.getElem?_eq_getElem hk]
  rfl

/-- `RunsOf f a n rs`: the inclusive ranges `rs` cut `[a, n)`, in order, into
the maximal runs of one value of `f`, the value going up from each run to the
next. -/
def RunsOf (f : ℕ → ℕ) : ℕ → ℕ → List (ℕ × ℕ) → Prop
  | a, n, [] => a = n
  | a, n, (l, r) :: rs =>
    l = a ∧ l ≤ r ∧ r < n ∧ (∀ k, l ≤ k → k ≤ r → f k = f l) ∧ (r + 1 < n → f l < f (r + 1)) ∧
      RunsOf f (r + 1) n rs

variable {sortedKvs : List (HashValue × V)} {nibbleIdx : ℕ} (hidx : nibbleIdx < ROOT_NIBBLE_HEIGHT)
  (hkeys : ∀ kv ∈ sortedKvs, kv.1.val < 2 ^ 256) (hsorted : sortedKvs.Pairwise fun a b => a.1.val ≤ b.1.val)
  (hshared : ∀ a ∈ sortedKvs, ∀ b ∈ sortedKvs, ∀ d < nibbleIdx, HashValue.nibble a.1 d = HashValue.nibble b.1 d)
include hidx hkeys hsorted hshared

/-- With the common prefix, the nibble never goes down along the slice. -/
theorem nibbleAt_mono {a b : ℕ} (hab : a ≤ b) (hb : b < sortedKvs.length) :
    nibbleAt sortedKvs nibbleIdx a ≤ nibbleAt sortedKvs nibbleIdx b := by
  rw [nibbleAt_of_lt (by omega), nibbleAt_of_lt hb]
  rcases Nat.eq_or_lt_of_le hab with rfl | hlt
  · exact le_rfl
  · exact HashValue.nibble_le_of_shared hidx (hkeys _ (List.getElem_mem _)) (hkeys _ (List.getElem_mem _))
      (List.pairwise_iff_getElem.1 hsorted a b (by omega) hb hlt)
      (hshared _ (List.getElem_mem _) _ (List.getElem_mem _))

/-- **One call of `next`** from a key of the slice yields the run of its
nibble: the keys up to the end of the range have that nibble, and the key
after it has a greater one. -/
theorem next_of_lt {pos : ℕ} (hpos : pos < sortedKvs.length) :
    ∃ r, (⟨sortedKvs, nibbleIdx, pos⟩ : NibbleRangeIterator V).next = some (some (pos, r), ⟨sortedKvs, nibbleIdx, r + 1⟩) ∧
      pos ≤ r ∧ r < sortedKvs.length ∧
      (∀ k, pos ≤ k → k ≤ r → nibbleAt sortedKvs nibbleIdx k = nibbleAt sortedKvs nibbleIdx pos) ∧
      (r + 1 < sortedKvs.length → nibbleAt sortedKvs nibbleIdx pos < nibbleAt sortedKvs nibbleIdx (r + 1)) := by
  -- the test of the search is `q`, which switches once by `nibbleAt_mono`
  let q : ℕ → Bool := fun k => decide (nibbleAt sortedKvs nibbleIdx k > nibbleAt sortedKvs nibbleIdx pos)
  have hprobe : ∀ k, pos ≤ k → k ≤ sortedKvs.length - 1 →
      nibbleAbove ⟨sortedKvs, nibbleIdx, pos⟩ (HashValue.nibble sortedKvs[pos].1 nibbleIdx) k = some (q k) := by
    intro k _ hk
    rw [nibbleAbove]
    dsimp only
    rw [List.getElem?_eq_getElem (show k < sortedKvs.length by omega), Option.map_some]
    simp only [q, nibbleAt_of_lt hpos, nibbleAt_of_lt (show k < sortedKvs.length by omega), Fin.lt_def]
  have hmono : ∀ a b, pos ≤ a → a ≤ b → b ≤ sortedKvs.length - 1 → q a = true → q b = true := by
    intro a b _ hab hb ha
    have hle := nibbleAt_mono hidx hkeys hsorted hshared hab (by omega)
    simp only [q, decide_eq_true_eq] at ha ⊢
    omega
  obtain ⟨r, hr, hpr, hrj, hbelow, habove⟩ :=
    @BinarySearch.lastFalse_spec _ q pos (sortedKvs.length - 1) (by omega) hprobe hmono (by simp [q])
  refine ⟨r, ?_, hpr, by omega, fun k hk hkr => ?_, fun hr1 => ?_⟩
  · rw [next, dif_pos hpos]
    dsimp only
    rw [hr]
  · -- not above the nibble at `pos`, and not below it by `nibbleAt_mono`
    have hnot := hbelow k hk hkr
    have hle := nibbleAt_mono hidx hkeys hsorted hshared hk (by omega)
    simp only [q, decide_eq_false_iff_not, not_lt] at hnot
    omega
  · have habove' := habove (r + 1) (by omega) (by omega)
    simp only [q, decide_eq_true_eq] at habove'
    exact habove'

/-- **A whole run**: with one call more than there are keys left, the ranges
from `pos` on are the runs of the rest of the slice. -/
theorem ranges_runsOf : ∀ fuel pos, pos ≤ sortedKvs.length → sortedKvs.length - pos < fuel →
    ∃ rs, (⟨sortedKvs, nibbleIdx, pos⟩ : NibbleRangeIterator V).ranges fuel = some rs ∧
      RunsOf (nibbleAt sortedKvs nibbleIdx) pos sortedKvs.length rs := by
  intro fuel
  induction fuel with
  | zero => intro pos _ hfuel; omega
  | succ fuel ih =>
    intro pos hpos hfuel
    rcases Nat.lt_or_ge pos sortedKvs.length with hlt | hge
    · -- a range, then the runs after it
      obtain ⟨r, hnext, hpr, hrn, hsame, hup⟩ := next_of_lt hidx hkeys hsorted hshared hlt
      obtain ⟨rs, hrs, hruns⟩ := ih (r + 1) (by omega) (by omega)
      refine ⟨(pos, r) :: rs, ?_, rfl, hpr, hrn, hsame, hup, hruns⟩
      rw [ranges, hnext]
      dsimp only
      rw [hrs]
      rfl
    · -- past the last key
      have hend : pos = sortedKvs.length := by omega
      refine ⟨[], ?_, hend⟩
      rw [ranges, next_of_le (show sortedKvs.length ≤ pos by omega)]

end Spec

/-- **The ranges of a batch.** `next` never panics, on every slice; and on a
slice of 32-byte keys sorted by key that share their first `nibbleIdx`
nibbles, the ranges it yields cut the slice, in order, into the maximal runs
of keys with one nibble `nibbleIdx`, the nibble going up from each run to the
next. -/
theorem nibbleRanges_spec (sortedKvs : List (HashValue × V)) (nibbleIdx : ℕ) (hidx : nibbleIdx < ROOT_NIBBLE_HEIGHT)
    (hkeys : ∀ kv ∈ sortedKvs, kv.1.val < 2 ^ 256) (hsorted : sortedKvs.Pairwise fun a b => a.1.val ≤ b.1.val)
    (hshared : ∀ a ∈ sortedKvs, ∀ b ∈ sortedKvs, ∀ d < nibbleIdx, HashValue.nibble a.1 d = HashValue.nibble b.1 d) :
    (∀ it : NibbleRangeIterator V, it.next.isSome) ∧
      ∃ it rs, new sortedKvs nibbleIdx = some it ∧ it.ranges (sortedKvs.length + 1) = some rs ∧
        RunsOf (nibbleAt sortedKvs nibbleIdx) 0 sortedKvs.length rs := by
  refine ⟨next_isSome, ⟨sortedKvs, nibbleIdx, 0⟩, ?_⟩
  obtain ⟨rs, hrs, hruns⟩ := ranges_runsOf hidx hkeys hsorted hshared (sortedKvs.length + 1) 0 (Nat.zero_le _) (by omega)
  exact ⟨rs, by rw [new, if_pos hidx], hrs, hruns⟩

/-- Three keys that share their first nibble, cut at the second, whose
nibbles `1`, `1` and `2` make two ranges. -/
theorem nibbleRanges_spec_sharedNibble :
    ∃ it rs, new [((⟨2 ^ 248⟩ : HashValue), ()), (⟨2 ^ 248 + 1⟩, ()), (⟨2 ^ 249⟩, ())] 1 = some it ∧
      it.ranges 4 = some rs ∧
      RunsOf (nibbleAt [((⟨2 ^ 248⟩ : HashValue), ()), (⟨2 ^ 248 + 1⟩, ()), (⟨2 ^ 249⟩, ())] 1) 0 3 rs :=
  (nibbleRanges_spec [((⟨2 ^ 248⟩ : HashValue), ()), (⟨2 ^ 248 + 1⟩, ()), (⟨2 ^ 249⟩, ())] 1 (by decide)
    (by decide) (by decide) (by decide)).2

end NibbleRangeIterator

end Diem.JellyfishMerkle
