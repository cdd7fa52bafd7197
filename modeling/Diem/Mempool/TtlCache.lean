import Diem.Theory.OrdMap
import Diem.Theory.Maps
import Diem.Theory.Runs
import Mathlib

/-!
# The TTL cache of the mempool

`TtlCache` of `mempool/src/core_mempool/ttl_cache.rs` keeps each entry
`default_timeout` after it was written. `data` holds each value with its
expiration time, and `ttl_index` holds the keys by expiration time, for garbage
collection and for evicting the oldest entry of a full cache.

`data` is an `AList` and `ttl_index` an `OrdMap`. A `SystemTime` is a number of
nanoseconds, and `SystemTime::checked_add` fails past `SystemTime.MAX`.
`insert` is its two halves: `makeRoom` removes the old index entry of the key,
or evicts the oldest entry of a full cache, and the new entry is then written.
As a machine (`step`) the cache answers `insert`, `remove`, `gc` and `get`; the
clock readings never go down, and two may be equal.

`ttl_index` is keyed by expiration time alone, so two keys inserted at the same
clock reading share one index entry, and the first key is then never collected
(**`insert_sameReading_orphans`**). What does hold over every run from `new`
(`Inv`): every index entry names a key of `data` whose expiration time it is,
the cache never holds more than `capacity` entries (`size_le_capacity`), and
`gc(t)` removes exactly the keys with an index entry before `t` (`lookup_gc`).
-/

namespace Diem.Mempool

/-- The last instant a `SystemTime` holds, in nanoseconds from the first: its
`tv_sec` is an `i64` and its `tv_nsec` below `10 ^ 9`. -/
def SystemTime.MAX : ℕ := 2 ^ 64 * 10 ^ 9 - 1

/-- `SystemTime::checked_add`. -/
def SystemTime.checkedAdd (t d : ℕ) : Option ℕ := if t + d ≤ SystemTime.MAX then some (t + d) else none

/-- `ValueInfo`. -/
structure ValueInfo (V : Type) where
  /-- `value`. -/
  value : V
  /-- `ttl`: the expiration time. -/
  ttl : ℕ

/-- `TtlCache`. -/
structure TtlCache (K V : Type) [DecidableEq K] where
  /-- `capacity`. -/
  capacity : ℕ
  /-- `default_timeout`. -/
  defaultTimeout : ℕ
  /-- `data`. -/
  data : AList fun _ : K => ValueInfo V
  /-- `ttl_index`. -/
  ttlIndex : OrdMap ℕ K

namespace TtlCache

variable {K V : Type} [DecidableEq K]

/-- `new`. -/
def new (capacity defaultTimeout : ℕ) : TtlCache K V := ⟨capacity, defaultTimeout, ∅, ∅⟩

/-- `get`. -/
def get (c : TtlCache K V) (key : K) : Option V := (c.data.lookup key).map (·.value)

/-- The first half of `insert`: the old index entry of a key that is there
goes, or else, in a full cache, the oldest index entry and its key. -/
def makeRoom (c : TtlCache K V) (key : K) : TtlCache K V :=
  match c.data.lookup key with
  | some info => { c with ttlIndex := c.ttlIndex.erase info.ttl }
  | none =>
    if c.data.entries.length = c.capacity then
      match c.ttlIndex.keys.head? with
      | some tst =>
        -- `ttl_index.remove(&tst)`, then `data.remove(&key)` of the key it held
        match c.ttlIndex.find? tst with
        | some oldest => { c with ttlIndex := c.ttlIndex.erase tst, data := c.data.erase oldest }
        | none => { c with ttlIndex := c.ttlIndex.erase tst }
      | none => c
    else c

/-- `insert`, at the clock reading `now`. -/
def insert (c : TtlCache K V) (key : K) (value : V) (now : ℕ) : TtlCache K V :=
  let c := c.makeRoom key
  match SystemTime.checkedAdd now c.defaultTimeout with
  | some expirationTime =>
    { c with
      ttlIndex := c.ttlIndex.insert expirationTime key,
      data := c.data.insert key ⟨value, expirationTime⟩ }
  | none => c

/-- `remove`: the value removed, if any, and the cache without it. -/
def remove (c : TtlCache K V) (key : K) : Option V × TtlCache K V :=
  match c.data.lookup key with
  | some info => (some info.value, { c with data := c.data.erase key, ttlIndex := c.ttlIndex.erase info.ttl })
  | none => (none, c)

/-- `gc`: `split_off` leaves the entries before `gcTime` in `ttl_index`, their
keys leave `data`, and `ttl_index` becomes the entries from `gcTime` on. -/
def gc (c : TtlCache K V) (gcTime : ℕ) : TtlCache K V :=
  { c with
    data := (c.ttlIndex.splitOff gcTime).1.values.foldl (fun data key => data.erase key) c.data,
    ttlIndex := (c.ttlIndex.splitOff gcTime).2 }

/-! ### The cache as a machine -/

/-- The requests the cache answers; an `insert` reads the clock `elapsed`
after the last reading. -/
inductive Request (K V : Type)
  | insert (key : K) (value : V) (elapsed : ℕ)
  | remove (key : K)
  | gc (gcTime : ℕ)
  | get (key : K)

/-- The cache and the last clock reading. -/
structure Clocked (K V : Type) [DecidableEq K] where
  /-- The cache. -/
  cache : TtlCache K V
  /-- The last clock reading. -/
  now : ℕ

/-- One request, its answer and the state after it. -/
def step (s : Clocked K V) : Request K V → Option V × Clocked K V
  | .insert key value elapsed => (none, ⟨s.cache.insert key value (s.now + elapsed), s.now + elapsed⟩)
  | .remove key => ((s.cache.remove key).1, ⟨(s.cache.remove key).2, s.now⟩)
  | .gc gcTime => (none, ⟨s.cache.gc gcTime, s.now⟩)
  | .get key => (s.cache.get key, s)

/-! ### What each operation keeps -/

section Frame

variable (c : TtlCache K V)

@[simp] theorem capacity_makeRoom (key : K) : (c.makeRoom key).capacity = c.capacity := by
  unfold makeRoom
  split
  · rfl
  · split_ifs
    · split
      · split <;> rfl
      · rfl
    · rfl

@[simp] theorem defaultTimeout_makeRoom (key : K) : (c.makeRoom key).defaultTimeout = c.defaultTimeout := by
  unfold makeRoom
  split
  · rfl
  · split_ifs
    · split
      · split <;> rfl
      · rfl
    · rfl

@[simp] theorem capacity_insert (key : K) (value : V) (now : ℕ) : (c.insert key value now).capacity = c.capacity := by
  unfold insert
  dsimp only
  split <;> simp

@[simp] theorem defaultTimeout_insert (key : K) (value : V) (now : ℕ) :
    (c.insert key value now).defaultTimeout = c.defaultTimeout := by
  unfold insert
  dsimp only
  split <;> simp

@[simp] theorem capacity_remove (key : K) : (c.remove key).2.capacity = c.capacity := by
  unfold remove
  split <;> rfl

@[simp] theorem defaultTimeout_remove (key : K) : (c.remove key).2.defaultTimeout = c.defaultTimeout := by
  unfold remove
  split <;> rfl

end Frame

section MakeRoom

variable {c : TtlCache K V}

theorem makeRoom_of_lookup_some {key : K} {info : ValueInfo V} (hkey : c.data.lookup key = some info) :
    c.makeRoom key = { c with ttlIndex := c.ttlIndex.erase info.ttl } := by
  simp only [makeRoom, hkey]

theorem not_mem_of_lookup_none {key : K} (hkey : c.data.lookup key = none) : key ∉ c.data := fun hm => by
  rw [← AList.lookup_isSome, hkey] at hm
  cases hm

/-- The key is in `data` after `makeRoom` exactly when it was before. -/
theorem mem_makeRoom (key : K) : key ∈ (c.makeRoom key).data ↔ key ∈ c.data := by
  unfold makeRoom
  split
  · exact Iff.rfl
  · next hnone =>
    have hnot := not_mem_of_lookup_none hnone
    split_ifs
    · split
      · split
        · exact ⟨fun hm => absurd (AList.mem_erase.1 hm).2 hnot, fun hm => absurd hm hnot⟩
        · exact Iff.rfl
      · exact Iff.rfl
    · exact Iff.rfl

/-- `makeRoom` never adds an entry. -/
theorem length_keys_makeRoom_le (key : K) : (c.makeRoom key).data.keys.length ≤ c.data.keys.length := by
  unfold makeRoom
  split
  · exact le_rfl
  · split_ifs
    · split
      · split
        · dsimp only
          rw [AList.length_keys_erase]
          split_ifs <;> omega
        · exact le_rfl
      · exact le_rfl
    · exact le_rfl

end MakeRoom

/-! ### The index -/

/-- Every index entry names a key of `data` whose expiration time it is. -/
def Indexed (c : TtlCache K V) : Prop :=
  ∀ t key, c.ttlIndex.find? t = some key → ∃ info, c.data.lookup key = some info ∧ info.ttl = t

section Indexed

variable {c : TtlCache K V}

/-- A key has at most one index entry. -/
theorem Indexed.inj (h : Indexed c) {t t' : ℕ} {key : K} (ht : c.ttlIndex.find? t = some key)
    (ht' : c.ttlIndex.find? t' = some key) : t = t' := by
  obtain ⟨info, hinfo, rfl⟩ := h t key ht
  obtain ⟨info', hinfo', rfl⟩ := h t' key ht'
  rw [hinfo] at hinfo'
  cases hinfo'
  rfl

theorem Indexed.mem (h : Indexed c) {t : ℕ} {key : K} (ht : c.ttlIndex.find? t = some key) : key ∈ c.data := by
  obtain ⟨info, hinfo, -⟩ := h t key ht
  exact AList.lookup_isSome.1 (by rw [hinfo]; rfl)

/-- An index entry at another time than a key's names another key. -/
theorem Indexed.ne_of_lookup (h : Indexed c) {t : ℕ} {key key' : K} {info : ValueInfo V}
    (hkey : c.data.lookup key = some info) (ht : c.ttlIndex.find? t = some key') (hne : t ≠ info.ttl) : key' ≠ key := by
  rintro rfl
  obtain ⟨info', hinfo', rfl⟩ := h t key' ht
  rw [hkey] at hinfo'
  cases hinfo'
  exact hne rfl

theorem Indexed.makeRoom (h : Indexed c) (key : K) : Indexed (c.makeRoom key) := by
  unfold TtlCache.makeRoom
  split
  · next info hinfo =>
    intro t key' ht
    simp only [OrdMap.find?_erase] at ht
    split_ifs at ht
    exact h t key' ht
  · split_ifs
    · split
      · next tst _ =>
        split
        · next oldest hold =>
          intro t key' ht
          simp only [OrdMap.find?_erase] at ht
          split_ifs at ht with htst
          have hne : key' ≠ oldest := fun heq => htst (h.inj ht (heq ▸ hold))
          obtain ⟨info, hinfo, hinfo_ttl⟩ := h t key' ht
          exact ⟨info, by rw [AList.lookup_erase_ne hne]; exact hinfo, hinfo_ttl⟩
        · intro t key' ht
          simp only [OrdMap.find?_erase] at ht
          split_ifs at ht
          exact h t key' ht
      · exact h
    · exact h

/-- After `makeRoom key` no index entry names `key`. -/
theorem Indexed.makeRoom_find?_ne (h : Indexed c) (key : K) (t : ℕ) :
    (c.makeRoom key).ttlIndex.find? t ≠ some key := by
  intro ht
  cases hkey : c.data.lookup key with
  | some info =>
    rw [makeRoom_of_lookup_some hkey] at ht
    simp only [OrdMap.find?_erase] at ht
    split_ifs at ht with hne
    exact h.ne_of_lookup hkey ht hne rfl
  | none =>
    -- the key is not in `data`, which every entry names a key of
    exact not_mem_of_lookup_none hkey ((mem_makeRoom key).1 ((h.makeRoom key).mem ht))

theorem Indexed.insert (h : Indexed c) (key : K) (value : V) (now : ℕ) : Indexed (c.insert key value now) := by
  have h1 := h.makeRoom key
  unfold TtlCache.insert
  dsimp only
  split
  · next expirationTime _ =>
    intro t key' ht
    simp only [OrdMap.find?_insert] at ht
    split_ifs at ht with hT
    · cases ht
      exact ⟨⟨value, expirationTime⟩, AList.lookup_insert _, hT.symm⟩
    · -- an older entry names another key, which the write leaves
      have hne : key' ≠ key := fun heq => h.makeRoom_find?_ne key t (heq ▸ ht)
      obtain ⟨info, hinfo, hinfo_ttl⟩ := h1 t key' ht
      exact ⟨info, by rw [AList.lookup_insert_ne hne]; exact hinfo, hinfo_ttl⟩
  · exact h1

theorem Indexed.remove (h : Indexed c) (key : K) : Indexed (c.remove key).2 := by
  unfold TtlCache.remove
  split
  · next info hinfo =>
    intro t key' ht
    simp only [OrdMap.find?_erase] at ht
    split_ifs at ht with hne
    obtain ⟨info', hinfo', hinfo'_ttl⟩ := h t key' ht
    exact ⟨info', by rw [AList.lookup_erase_ne (h.ne_of_lookup hinfo ht hne)]; exact hinfo', hinfo'_ttl⟩
  · exact h

/-- The keys `gc` erases are those of the index entries before `gcTime`. -/
theorem mem_values_splitOff_fst {gcTime : ℕ} {key : K} :
    key ∈ (c.ttlIndex.splitOff gcTime).1.values ↔ ∃ t < gcTime, c.ttlIndex.find? t = some key := by
  rw [OrdMap.mem_values_iff]
  constructor
  · rintro ⟨t, ht⟩
    rw [OrdMap.find?_splitOff_fst] at ht
    split_ifs at ht with hlt
    exact ⟨t, hlt, ht⟩
  · rintro ⟨t, hlt, ht⟩
    exact ⟨t, by rw [OrdMap.find?_splitOff_fst, if_pos hlt, ht]⟩

/-- **`gc` removes exactly the keys with an index entry before `gcTime`.** -/
theorem lookup_gc (gcTime : ℕ) (key : K) :
    (c.gc gcTime).data.lookup key =
      if ∃ t < gcTime, c.ttlIndex.find? t = some key then none else c.data.lookup key := by
  rw [gc, AList.lookup_foldl_erase]
  simp only [mem_values_splitOff_fst]

theorem Indexed.gc (h : Indexed c) (gcTime : ℕ) : Indexed (c.gc gcTime) := by
  intro t key ht
  have ht' : c.ttlIndex.find? t = some key ∧ ¬ t < gcTime := by
    simp only [TtlCache.gc, OrdMap.find?_splitOff_snd] at ht
    split_ifs at ht with hlt
    exact ⟨ht, hlt⟩
  rw [lookup_gc, if_neg]
  · exact h t key ht'.1
  · rintro ⟨t', hlt, ht''⟩
    exact ht'.2 (h.inj ht'.1 ht'' ▸ hlt)

/-- The expired keys are distinct: each names one entry. -/
theorem Indexed.nodup_values_splitOff_fst (h : Indexed c) (gcTime : ℕ) :
    (c.ttlIndex.splitOff gcTime).1.values.Nodup := by
  have hkeys := (c.ttlIndex.splitOff gcTime).1.keys_nodup
  refine List.Nodup.map_on (fun e he e' he' hsnd => ?_) (hkeys.of_map Prod.fst)
  obtain ⟨t, key⟩ := e
  obtain ⟨t', key'⟩ := e'
  dsimp only at hsnd
  subst hsnd
  rw [← OrdMap.find?_eq_some_iff, OrdMap.find?_splitOff_fst] at he he'
  split_ifs at he he'
  obtain rfl := h.inj he he'
  rfl

end Indexed

/-! ### The size bound -/

/-- The invariant over runs: the index is right, the cache is within its
capacity, and unless the clock has passed the last time it can expire an entry
at, keys without an index entry are fewer than `capacity`. -/
structure Inv (s : Clocked K V) : Prop where
  indexed : Indexed s.cache
  size_le : s.cache.data.keys.length ≤ s.cache.capacity
  room : s.cache.data.keys.length + 1 ≤ s.cache.ttlIndex.keys.length + s.cache.capacity ∨
    SystemTime.MAX < s.now + s.cache.defaultTimeout

theorem inv_new {capacity : ℕ} (hcap : 1 ≤ capacity) (defaultTimeout now : ℕ) :
    Inv (⟨new capacity defaultTimeout, now⟩ : Clocked K V) :=
  ⟨fun t key ht => by simp [new] at ht, by simp [new], .inl (by simp [new]; omega)⟩

section Size

variable {c : TtlCache K V}

/-- `makeRoom` keeps the size of a cache with room, and takes one entry off a
full one, for the key to come. -/
theorem length_keys_makeRoom (h : Indexed c) (key : K) (hsize : c.data.keys.length ≤ c.capacity)
    (hroom : c.data.keys.length + 1 ≤ c.ttlIndex.keys.length + c.capacity) :
    (c.makeRoom key).data.keys.length + (if key ∈ c.data then 0 else 1) ≤ c.capacity := by
  unfold makeRoom
  split
  · next info hinfo =>
    rw [if_pos (AList.lookup_isSome.1 (by rw [hinfo]; rfl))]
    exact hsize
  · next hnone =>
    have hnot := not_mem_of_lookup_none hnone
    rw [if_neg hnot]
    split_ifs with hfull
    · rw [AList.length_entries] at hfull
      split
      · next tst htst =>
        -- a full cache has an index entry, whose key is evicted
        have hfind := (c.ttlIndex.mem_keys_iff tst).1 (List.mem_of_mem_head? htst)
        split
        · next oldest hold =>
          dsimp only
          have hpos := List.length_pos_of_mem (AList.mem_keys.2 (h.mem hold))
          rw [AList.length_keys_erase, if_pos (h.mem hold)]
          omega
        · next hnone' =>
          rw [hnone'] at hfind
          cases hfind
      · next hempty =>
        rw [List.head?_eq_none_iff] at hempty
        rw [hempty, List.length_nil] at hroom
        omega
    · rw [AList.length_entries] at hfull
      omega

/-- **`insert` keeps the cache within its capacity**, given room for a new
key when the expiration time does not overflow. -/
theorem length_keys_insert_le (h : Indexed c) (key : K) (value : V) (now : ℕ)
    (hsize : c.data.keys.length ≤ c.capacity)
    (hroom : SystemTime.checkedAdd now c.defaultTimeout ≠ none →
      c.data.keys.length + 1 ≤ c.ttlIndex.keys.length + c.capacity) :
    (c.insert key value now).data.keys.length ≤ c.capacity := by
  unfold insert
  dsimp only
  rw [defaultTimeout_makeRoom]
  split
  · next expirationTime hadd =>
    have hmake := length_keys_makeRoom h key hsize (hroom (by rw [hadd]; exact Option.some_ne_none _))
    dsimp only
    simp only [AList.length_keys_insert, mem_makeRoom]
    split_ifs at hmake ⊢ <;> omega
  · -- the expiration time overflows: nothing is written
    exact le_trans (length_keys_makeRoom_le key) hsize

/-- A write that does not overflow leaves an index entry. -/
theorem length_keys_ttlIndex_insert_pos (key : K) (value : V) {now expirationTime : ℕ}
    (hadd : SystemTime.checkedAdd now c.defaultTimeout = some expirationTime) :
    0 < (c.insert key value now).ttlIndex.keys.length := by
  unfold insert
  dsimp only
  rw [defaultTimeout_makeRoom, hadd]
  exact List.length_pos_of_mem ((OrdMap.mem_keys_iff _ expirationTime).2 (by simp))

theorem length_keys_remove_le (key : K) : (c.remove key).2.data.keys.length ≤ c.data.keys.length := by
  unfold remove
  split
  · dsimp only
    rw [AList.length_keys_erase]
    split_ifs <;> omega
  · exact le_rfl

/-- `remove` takes off the key's entry and at most one index entry. -/
theorem room_remove (key : K) (hroom : c.data.keys.length + 1 ≤ c.ttlIndex.keys.length + c.capacity) :
    (c.remove key).2.data.keys.length + 1 ≤ (c.remove key).2.ttlIndex.keys.length + c.capacity := by
  unfold remove
  split
  · next info hinfo =>
    have hmem : key ∈ c.data := AList.lookup_isSome.1 (by rw [hinfo]; rfl)
    have hpos := List.length_pos_of_mem (AList.mem_keys.2 hmem)
    dsimp only
    rw [AList.length_keys_erase, if_pos hmem, OrdMap.length_keys_erase]
    split_ifs <;> omega
  · exact hroom

/-- `gc` takes off as many entries of `data` as of the index. -/
theorem length_keys_gc (h : Indexed c) (gcTime : ℕ) :
    (c.gc gcTime).data.keys.length + (c.ttlIndex.splitOff gcTime).1.keys.length = c.data.keys.length ∧
      (c.gc gcTime).ttlIndex.keys.length + (c.ttlIndex.splitOff gcTime).1.keys.length = c.ttlIndex.keys.length := by
  have hnd := h.nodup_values_splitOff_fst gcTime
  have hmem : ∀ key ∈ (c.ttlIndex.splitOff gcTime).1.values, key ∈ c.data := fun key hkey => by
    obtain ⟨t, -, ht⟩ := mem_values_splitOff_fst.1 hkey
    exact h.mem ht
  have hle := hnd.length_le_of_subset fun key hkey => AList.mem_keys.2 (hmem key hkey)
  have hsplit := c.ttlIndex.length_keys_splitOff gcTime
  rw [OrdMap.length_values] at hle
  refine ⟨?_, by simp only [gc]; omega⟩
  simp only [gc]
  rw [AList.length_keys_foldl_erase _ _ hnd hmem, OrdMap.length_values]
  omega

end Size

theorem capacity_step (s : Clocked K V) (r : Request K V) : (step s r).2.cache.capacity = s.cache.capacity := by
  cases r <;> simp [step, gc]

theorem inv_step (s : Clocked K V) (r : Request K V) (hs : Inv s) : Inv (step s r).2 := by
  cases r with
  | insert key value elapsed =>
    -- once the clock is past the last time an entry can expire at, nothing is written any more
    have hnoOverflow : SystemTime.checkedAdd (s.now + elapsed) s.cache.defaultTimeout ≠ none →
        s.cache.data.keys.length + 1 ≤ s.cache.ttlIndex.keys.length + s.cache.capacity := fun hadd =>
      hs.room.resolve_right fun hpast => hadd (by unfold SystemTime.checkedAdd; rw [if_neg (by omega)])
    have hsize := length_keys_insert_le hs.indexed key value (s.now + elapsed) hs.size_le hnoOverflow
    refine ⟨hs.indexed.insert key value _, by simpa [step] using hsize, ?_⟩
    simp only [step, capacity_insert, defaultTimeout_insert]
    cases hadd : SystemTime.checkedAdd (s.now + elapsed) s.cache.defaultTimeout with
    | none =>
      right
      unfold SystemTime.checkedAdd at hadd
      split_ifs at hadd with hle
      omega
    | some expirationTime =>
      left
      have hpos := length_keys_ttlIndex_insert_pos key value hadd
      omega
  | remove key =>
    have hle := le_trans (length_keys_remove_le key) hs.size_le
    refine ⟨hs.indexed.remove key, by simpa [step] using hle, ?_⟩
    rcases hs.room with hroom | hpast
    · left
      simpa [step] using room_remove key hroom
    · right
      simpa [step] using hpast
  | gc gcTime =>
    have hgc := length_keys_gc hs.indexed gcTime
    have hsize := hs.size_le
    refine ⟨hs.indexed.gc gcTime, show (s.cache.gc gcTime).data.keys.length ≤ s.cache.capacity by omega, ?_⟩
    rcases hs.room with hroom | hpast
    · left
      simp only [step, gc] at hgc ⊢
      omega
    · right
      exact hpast
  | get key => exact hs

/-- **The cache never holds more than `capacity` entries**, over every run
from `new` with a capacity of at least one. -/
theorem size_le_capacity {capacity : ℕ} (hcap : 1 ≤ capacity) (defaultTimeout now : ℕ)
    (requests : List (Request K V)) :
    (Mealy.final step ⟨new capacity defaultTimeout, now⟩ requests).cache.data.entries.length ≤ capacity := by
  have hreach := Mealy.reachable_final step (⟨new capacity defaultTimeout, now⟩ : Clocked K V) requests
  have hinv := Mealy.reachable_inv step (fun s r hs => inv_step s r hs) hreach (inv_new hcap defaultTimeout now)
  have hcapEq := @Mealy.reachable_inv (Clocked K V) (Request K V) (Option V) step
    (fun s => s.cache.capacity = capacity) (fun s r hs => (capacity_step s r).trans hs) _ _ hreach rfl
  have hsize := hinv.size_le
  rw [hcapEq] at hsize
  rw [AList.length_entries]
  exact hsize

/-! ### Two keys at one clock reading -/

theorem makeRoom_of_room {c : TtlCache K V} {key : K} (hkey : c.data.lookup key = none) (hroom : c.data.entries.length ≠ c.capacity) :
    c.makeRoom key = c := by
  simp only [makeRoom, hkey, if_neg hroom]

theorem insert_of_checkedAdd {c : TtlCache K V} {key : K} {value : V} {now expirationTime : ℕ}
    (hadd : SystemTime.checkedAdd now c.defaultTimeout = some expirationTime) :
    c.insert key value now =
      { c.makeRoom key with
        ttlIndex := (c.makeRoom key).ttlIndex.insert expirationTime key,
        data := (c.makeRoom key).data.insert key ⟨value, expirationTime⟩ } := by
  unfold insert
  dsimp only
  rw [defaultTimeout_makeRoom, hadd]

/-- **Two keys inserted at one clock reading share an index entry.** In a
cache with room, the second key's entry overwrites the first's. The first key
then has no index entry, and `gc` keeps it at every time, also past its
expiration time. -/
theorem insert_sameReading_orphans (capacity defaultTimeout now : ℕ) (a b : K) (va vb : V)
    (hcap : 2 ≤ capacity) (hab : a ≠ b) (hnow : now + defaultTimeout ≤ SystemTime.MAX) :
    let c := ((new capacity defaultTimeout : TtlCache K V).insert a va now).insert b vb now
    c.get a = some va ∧ (c.data.lookup a).map ValueInfo.ttl = some (now + defaultTimeout) ∧
      (∀ t, c.ttlIndex.find? t ≠ some a) ∧ ∀ gcTime, (c.gc gcTime).get a = some va := by
  intro c
  have hadd : SystemTime.checkedAdd now defaultTimeout = some (now + defaultTimeout) := by
    rw [SystemTime.checkedAdd, if_pos hnow]
  have h1 : (new capacity defaultTimeout : TtlCache K V).insert a va now =
      ⟨capacity, defaultTimeout, (∅ : AList fun _ : K => ValueInfo V).insert a ⟨va, now + defaultTimeout⟩,
        (∅ : OrdMap ℕ K).insert (now + defaultTimeout) a⟩ := by
    rw [@insert_of_checkedAdd K V _ (new capacity defaultTimeout) a va now _ hadd,
      makeRoom_of_room (by rfl) (by simp [new]; omega)]
    rfl
  have h2 : c = ⟨capacity, defaultTimeout,
      ((∅ : AList fun _ : K => ValueInfo V).insert a ⟨va, now + defaultTimeout⟩).insert b ⟨vb, now + defaultTimeout⟩,
      ((∅ : OrdMap ℕ K).insert (now + defaultTimeout) a).insert (now + defaultTimeout) b⟩ := by
    show ((new capacity defaultTimeout).insert a va now).insert b vb now = _
    rw [@insert_of_checkedAdd K V _ ((new capacity defaultTimeout).insert a va now) b vb now _
      (by rw [defaultTimeout_insert]; exact hadd), h1,
      makeRoom_of_room (by rw [AList.lookup_insert_ne (Ne.symm hab)]; rfl) (by simp; omega)]
  have hlookup : c.data.lookup a = some ⟨va, now + defaultTimeout⟩ := by
    rw [h2]
    exact (AList.lookup_insert_ne hab).trans (AList.lookup_insert _)
  have hindex : ∀ t, c.ttlIndex.find? t ≠ some a := by
    intro t
    rw [h2]
    simp only [OrdMap.find?_insert, OrdMap.find?_empty]
    split_ifs <;> simp [Ne.symm hab]
  refine ⟨by simp [get, hlookup], by simp [hlookup], hindex, fun gcTime => ?_⟩
  rw [get, lookup_gc, if_neg fun ⟨t, _, ht⟩ => hindex t ht, hlookup]
  rfl

/-- Two senders whose sequence numbers the mempool caches at one reading, for
its `Duration::from_secs(100)`. -/
theorem insert_sameReading_orphans_twoSenders :
    2 ≤ 2 ∧ (0 : ℕ) ≠ 1 ∧ 0 + 100 * 10 ^ 9 ≤ SystemTime.MAX ∧
      ∀ gcTime, ((((new 2 (100 * 10 ^ 9) : TtlCache ℕ ℕ).insert 0 7 0).insert 1 8 0).gc gcTime).get 0 = some 7 :=
  ⟨by decide, by decide, by decide,
    (insert_sameReading_orphans 2 (100 * 10 ^ 9) 0 0 1 7 8 (by decide) (by decide) (by decide)).2.2.2⟩

end TtlCache

end Diem.Mempool
