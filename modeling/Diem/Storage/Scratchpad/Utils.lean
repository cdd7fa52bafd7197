import Diem.Types.SparseMerkleProof
import Diem.Theory.BinarySearch
import Diem.Theory.Digits

/-!
# Splitting a batch of updates at a bit

`partition` of `storage/scratchpad/src/sparse_merkle/utils.rs`: the updaters of
the scratchpad's sparse Merkle tree split the updates of a subtree at depth
`depth` by the bit `depth` of their keys, with a binary search for the first key
whose bit is set. `SubTreeUpdater::into_children` cuts the updates there and
recurses into both halves at `depth + 1`.

`HashValue::bit` reads bit `7 - index % 8` of byte `index / 8`, which is bit
`255 - index` of the hash read as a number. The search is
`BinarySearch.firstTrue` over the indices of the slice, reading `updates[mid]`,
which is `none` out of bounds where the Rust panics.

For updates sorted by key whose keys share their first `depth` bits, the search
reads only indices of the slice and returns the one index where bit `depth`
switches from `0` to `1` (**`partition_spec`**). The two halves around it then
share their first `depth + 1` bits, which is what the recursive calls assume, and
every updater the recursion reaches from a sorted batch is sorted in this sense
(`SubTreeUpdater.Reached.sorted`).
-/

namespace Diem

/-- `HashValue::bit`: bit `7 - index % 8` of byte `index / 8`. -/
def HashValue.bit (h : HashValue) (index : ℕ) : Bool := h.val.testBit (HashValue.LENGTH_IN_BITS - 1 - index)

namespace HashValue

/-- A bit of a hash is a digit of its number in base `2`, from the top. -/
theorem bit_eq_digit (h : HashValue) (index : ℕ) :
    h.bit index = decide (h.val / 2 ^ (256 - 1 - index) % 2 = 1) := by
  rw [bit, LENGTH_IN_BITS, Nat.testBit_eq_decide_div_mod_eq]

/-- **Along sorted keys that share their first `depth` bits, bit `depth` does
not go down.** -/
theorem bit_le_of_shared {u v : HashValue} {depth : ℕ} (hdepth : depth < 256) (hu : u.val < 2 ^ 256)
    (hv : v.val < 2 ^ 256) (huv : u.val ≤ v.val) (hshared : ∀ d < depth, u.bit d = v.bit d)
    (hbit : u.bit depth = true) : v.bit depth = true := by
  have hdigits : ∀ d < depth, u.val / 2 ^ (256 - 1 - d) % 2 = v.val / 2 ^ (256 - 1 - d) % 2 := by
    intro d hd
    have h := hshared d hd
    rw [bit_eq_digit, bit_eq_digit, decide_eq_decide] at h
    omega
  have hle := Nat.digit_le_of_digits_eq hu hv hdepth huv hdigits
  rw [bit_eq_digit, decide_eq_true_iff] at hbit ⊢
  omega

end HashValue

namespace Scratchpad

/-- `partition`: the first index of `updates` whose key has bit `depth` set,
by binary search; `none` where `updates[mid]` would panic. -/
def partition {T : Type} (updates : List (HashValue × T)) (depth : ℕ) : Option ℕ :=
  BinarySearch.firstTrue (fun mid => updates[mid]?.map fun u => u.1.bit depth) 0 updates.length

variable {T : Type} {updates : List (HashValue × T)} {depth : ℕ}

/-- The keys of a slice cut at the switch of bit `depth`: those before it
have the bit clear. -/
theorem bit_of_mem_take {i : ℕ} (hswitch : ∀ k (hk : k < updates.length), updates[k].1.bit depth = true ↔ i ≤ k)
    {u : HashValue × T} (hu : u ∈ updates.take i) : u.1.bit depth = false := by
  obtain ⟨k, hk, rfl⟩ := List.mem_iff_getElem.1 hu
  have hki : k < i := by rw [List.length_take] at hk; omega
  have hk' : k < updates.length := by rw [List.length_take] at hk; omega
  rw [List.getElem_take]
  cases hbit : updates[k].1.bit depth with
  | false => rfl
  | true => exact absurd ((hswitch k _).1 hbit) (by omega)

/-- Those from the switch on have it set. -/
theorem bit_of_mem_drop {i : ℕ} (hswitch : ∀ k (hk : k < updates.length), updates[k].1.bit depth = true ↔ i ≤ k)
    {u : HashValue × T} (hu : u ∈ updates.drop i) : u.1.bit depth = true := by
  obtain ⟨k, hk, rfl⟩ := List.mem_iff_getElem.1 hu
  rw [List.getElem_drop]
  exact (hswitch (i + k) _).2 (by omega)

/-- **`partition` finds the switch of bit `depth`** in updates sorted by key
that share their first `depth` bits: it reads only indices of the slice, the
bit is clear before the index found and set from it on, no other index is
such a switch, and the two halves share their first `depth + 1` bits. -/
theorem partition_spec (updates : List (HashValue × T)) (depth : ℕ) (hdepth : depth < 256)
    (hkeys : ∀ u ∈ updates, u.1.val < 2 ^ 256) (hsorted : updates.Pairwise fun u v => u.1.val ≤ v.1.val)
    (hshared : ∀ u ∈ updates, ∀ v ∈ updates, ∀ d < depth, u.1.bit d = v.1.bit d) :
    ∃ i, partition updates depth = some i ∧ i ≤ updates.length ∧
      (∀ k (hk : k < updates.length), updates[k].1.bit depth = true ↔ i ≤ k) ∧
      (∀ i' ≤ updates.length, (∀ k (hk : k < updates.length), updates[k].1.bit depth = true ↔ i' ≤ k) → i' = i) ∧
      (∀ u ∈ updates.take i, ∀ v ∈ updates.take i, ∀ d < depth + 1, u.1.bit d = v.1.bit d) ∧
      (∀ u ∈ updates.drop i, ∀ v ∈ updates.drop i, ∀ d < depth + 1, u.1.bit d = v.1.bit d) := by
  -- the bit along the slice: past the end it reads as set, which the search never looks at
  let q : ℕ → Bool := fun k => (updates[k]?.map fun u => u.1.bit depth).getD true
  have hq : ∀ k (hk : k < updates.length), q k = updates[k].1.bit depth := by
    intro k hk
    simp [q, List.getElem?_eq_getElem hk]
  have hmono : ∀ a b, 0 ≤ a → a ≤ b → b < updates.length → q a = true → q b = true := by
    intro a b _ hab hb ha
    rw [hq a (by omega)] at ha
    rw [hq b hb]
    rcases Nat.eq_or_lt_of_le hab with rfl | hlt
    · exact ha
    · exact HashValue.bit_le_of_shared hdepth (hkeys _ (List.getElem_mem _)) (hkeys _ (List.getElem_mem _))
        (List.pairwise_iff_getElem.1 hsorted a b (by omega) hb hlt)
        (hshared _ (List.getElem_mem _) _ (List.getElem_mem _)) ha
  obtain ⟨i, hi, -, hle, hbelow, habove⟩ :=
    @BinarySearch.firstTrue_spec (fun mid => updates[mid]?.map fun u => u.1.bit depth) q 0 updates.length
      (Nat.zero_le _) (fun k _ hk => by rw [List.getElem?_eq_getElem hk, hq k hk]; rfl) hmono
  have hswitch : ∀ k (hk : k < updates.length), updates[k].1.bit depth = true ↔ i ≤ k := by
    intro k hk
    rw [← hq k hk]
    constructor
    · intro hbit
      by_contra hki
      rw [hbelow k (Nat.zero_le _) (by omega)] at hbit
      cases hbit
    · intro hik
      exact habove k hik hk
  refine ⟨i, hi, hle, hswitch, fun i' hi' hswitch' => ?_, fun u hu v hv d hd => ?_, fun u hu v hv d hd => ?_⟩
  · -- two switches agree at every index of the slice, so they are equal
    by_contra hne
    rcases Nat.lt_or_gt_of_ne hne with hlt | hlt
    · exact absurd ((hswitch i' (by omega)).1 ((hswitch' i' (by omega)).2 le_rfl)) (by omega)
    · exact absurd ((hswitch' i (by omega)).1 ((hswitch i (by omega)).2 le_rfl)) (by omega)
  · rcases Nat.lt_succ_iff_lt_or_eq.1 hd with hd | rfl
    · exact hshared u (List.mem_of_mem_take hu) v (List.mem_of_mem_take hv) d hd
    · rw [bit_of_mem_take hswitch hu, bit_of_mem_take hswitch hv]
  · rcases Nat.lt_succ_iff_lt_or_eq.1 hd with hd | rfl
    · exact hshared u (List.mem_of_mem_drop hu) v (List.mem_of_mem_drop hv) d hd
    · rw [bit_of_mem_drop hswitch hu, bit_of_mem_drop hswitch hv]

/-- Three keys that share their first bit, split at the second, which only
the last one has set. -/
theorem partition_spec_sharedPrefix :
    partition [((⟨0⟩ : HashValue), ()), (⟨1⟩, ()), (⟨2 ^ 254⟩, ())] 1 = some 2 := by
  obtain ⟨i, hi, -, hsplit, -⟩ := partition_spec [((⟨0⟩ : HashValue), ()), (⟨1⟩, ()), (⟨2 ^ 254⟩, ())] 1
    (by decide) (by decide) (by decide) (by decide)
  have hle : i ≤ 2 := (hsplit 2 (by decide)).1 (by decide)
  have hgt : ¬ i ≤ 1 := fun h => absurd ((hsplit 1 (by decide)).2 h) (by decide)
  rw [hi, show i = 2 by omega]

/-! ### The recursion of `SubTreeUpdater`

`SubTreeUpdater::run` recurses through `into_children`, which cuts the updates
at `partition` and moves both halves one level down. Only the updates and the
depth are kept here; the subtree they go into (`info`) is left out. -/

/-- The updates a `SubTreeUpdater` applies, at its depth. -/
structure SubTreeUpdater (T : Type) where
  depth : ℕ
  updates : List (HashValue × T)

/-- `SubTreeUpdater::into_children`, on the updates: the slices before and from
the pivot, one level down; `none` where `partition` panics. -/
def SubTreeUpdater.intoChildren (u : SubTreeUpdater T) : Option (SubTreeUpdater T × SubTreeUpdater T) :=
  (partition u.updates u.depth).map fun pivot =>
    (⟨u.depth + 1, u.updates.take pivot⟩, ⟨u.depth + 1, u.updates.drop pivot⟩)

/-- The updaters `run` reaches from `SubTreeUpdater::update`: the root at depth
`0`, and both children of one above the leaves. -/
inductive SubTreeUpdater.Reached (updates : List (HashValue × T)) : SubTreeUpdater T → Prop
  | root : Reached updates ⟨0, updates⟩
  | left {u l r : SubTreeUpdater T} : Reached updates u → u.depth < 256 → u.intoChildren = some (l, r) →
      Reached updates l
  | right {u l r : SubTreeUpdater T} : Reached updates u → u.depth < 256 → u.intoChildren = some (l, r) →
      Reached updates r

/-- What `partition` needs of an updater: its updates are sorted by key and
share their first `depth` bits. -/
structure SubTreeUpdater.Sorted (u : SubTreeUpdater T) : Prop where
  keys : ∀ v ∈ u.updates, v.1.val < 2 ^ 256
  sorted : u.updates.Pairwise fun a b => a.1.val ≤ b.1.val
  shared : ∀ a ∈ u.updates, ∀ b ∈ u.updates, ∀ d < u.depth, a.1.bit d = b.1.bit d

/-- **`into_children` keeps the updates sorted and sharing a prefix one bit
longer**: above the leaves, `partition` does not panic, and the children split
the updates by bit `depth`. -/
theorem SubTreeUpdater.Sorted.intoChildren {u : SubTreeUpdater T} (h : u.Sorted) (hdepth : u.depth < 256) :
    ∃ l r, u.intoChildren = some (l, r) ∧ l.Sorted ∧ r.Sorted ∧ l.updates ++ r.updates = u.updates ∧
      (∀ v ∈ l.updates, v.1.bit u.depth = false) ∧ ∀ v ∈ r.updates, v.1.bit u.depth = true := by
  obtain ⟨i, hi, -, hswitch, -, htake, hdrop⟩ := partition_spec u.updates u.depth hdepth h.keys h.sorted h.shared
  refine ⟨⟨u.depth + 1, u.updates.take i⟩, ⟨u.depth + 1, u.updates.drop i⟩, by rw [SubTreeUpdater.intoChildren, hi]; rfl,
    ⟨fun v hv => h.keys v (List.mem_of_mem_take hv), h.sorted.sublist (List.take_sublist i _), htake⟩,
    ⟨fun v hv => h.keys v (List.mem_of_mem_drop hv), h.sorted.sublist (List.drop_sublist i _), hdrop⟩,
    List.take_append_drop i _, fun v hv => bit_of_mem_take hswitch hv, fun v hv => bit_of_mem_drop hswitch hv⟩

/-- **Every updater the recursion reaches is sorted**, from a batch sorted by
key: `partition` is only called where it finds the switch of its bit. -/
theorem SubTreeUpdater.Reached.sorted {updates : List (HashValue × T)} (hkeys : ∀ v ∈ updates, v.1.val < 2 ^ 256)
    (hsorted : updates.Pairwise fun a b => a.1.val ≤ b.1.val) {u : SubTreeUpdater T} (hu : Reached updates u) :
    u.Sorted := by
  induction hu with
  | root => exact ⟨hkeys, hsorted, fun _ _ _ _ d hd => absurd hd (Nat.not_lt_zero d)⟩
  | left _ hdepth hchildren ih =>
    obtain ⟨l, r, hlr, hl, -⟩ := ih.intoChildren hdepth
    rw [hchildren, Option.some.injEq, Prod.mk.injEq] at hlr
    exact hlr.1 ▸ hl
  | right _ hdepth hchildren ih =>
    obtain ⟨l, r, hlr, -, hr, -⟩ := ih.intoChildren hdepth
    rw [hchildren, Option.some.injEq, Prod.mk.injEq] at hlr
    exact hlr.2 ▸ hr

end Scratchpad

end Diem
