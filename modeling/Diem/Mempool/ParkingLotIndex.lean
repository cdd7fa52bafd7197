import Diem.Theory.Maps
import Diem.Theory.Runs
import Diem.Theory.SetHistory
import Diem.Theory.SwapRemove
import Mathlib

/-!
# The parking lot index of the mempool

`ParkingLotIndex` of `mempool/src/core_mempool/index.rs` keeps the transactions
that cannot go into the next block yet, so that a full mempool can evict them.
`data` lists each account with the set of its parked sequence numbers,
`account_indices` says where in `data` each account is, and `size` counts the
numbers. `remove` of an account's last number takes its entry out by
`swap_remove`, and points the account moved into the hole at its new place.

`data` is a list of pairs with a `Finset ℕ` for the `BTreeSet<u64>`, and
`account_indices` an `AList`. A transaction is its sender and sequence number,
all that the index reads of it, and the random draw of `get_poppable` is an
argument. Where `insert` finds a lookup without an entry it logs the broken
invariant and returns, and so does the model.

`Inv` says no entry is empty, `account_indices` points each account at its entry
and at no other, and `size` counts the numbers stored; `insert_spec` and
`remove_spec` keep it. Over every run from `new` the index holds the set of pairs
that the same calls build in `SetHistory` (**`represents_final`**), so `contains`
answers for exactly the pairs inserted and not removed since.
-/
namespace Diem.Mempool

/-- `ParkingLotIndex`: the transactions that are not ready, by account. -/
structure ParkingLotIndex (A : Type) where
  /-- `data`: each account with the sequence numbers of its parked transactions. -/
  data : List (A × Finset ℕ)
  /-- `account_indices`: where in `data` each account's entry is. -/
  accountIndices : AList fun _ : A => ℕ
  /-- `size`. -/
  size : ℕ

namespace ParkingLotIndex

variable {A : Type} [DecidableEq A]

/-- `ParkingLotIndex::new`. -/
def new : ParkingLotIndex A := ⟨[], ∅, 0⟩

/-- `ParkingLotIndex::insert`, of a transaction from `sender` with
`sequence_number`. -/
def insert (idx : ParkingLotIndex A) (sender : A) (sequenceNumber : ℕ) : ParkingLotIndex A :=
  -- `is_new_entry`, with the index after the `match`; `none` is the early `return`
  let entered : Option (Bool × ParkingLotIndex A) :=
    match idx.accountIndices.lookup sender with
    | some index =>
      match idx.data[index]? with
      | some (account, seqNums) =>
        some (decide (sequenceNumber ∉ seqNums),
          { idx with data := idx.data.set index (account, Insert.insert sequenceNumber seqNums) })
      -- the invariant violation is counted and logged
      | none => none
    | none =>
      let data := idx.data ++ [(sender, {sequenceNumber})]
      some (true, { idx with data, accountIndices := idx.accountIndices.insert sender (data.length - 1) })
  match entered with
  | some (isNewEntry, idx') => if isNewEntry then { idx' with size := idx'.size + 1 } else idx'
  | none => idx

/-- `ParkingLotIndex::remove`, of a transaction from `sender` with
`sequence_number`. -/
def remove (idx : ParkingLotIndex A) (sender : A) (sequenceNumber : ℕ) : ParkingLotIndex A :=
  match idx.accountIndices.lookup sender with
  | none => idx
  | some index =>
    match h : idx.data[index]? with
    | none => idx
    | some (account, txns) =>
      -- `txns.remove(..)` is whether the number was there; on a well-formed
      -- index `size` counts it, so `size -= 1` does not underflow
      let size := if sequenceNumber ∈ txns then idx.size - 1 else idx.size
      let txns := txns.erase sequenceNumber
      let data := idx.data.set index (account, txns)
      if txns = ∅ then
        -- the account goes, and the one `swap_remove` moves into `index` is pointed at it
        let data := data.swapRemove index (by rw [List.length_set]; exact (List.getElem?_eq_some_iff.1 h).1)
        let accountIndices := idx.accountIndices.erase sender
        match data[index]? with
        | some (swappedAccount, _) => ⟨data, accountIndices.insert swappedAccount index, size⟩
        | none => ⟨data, accountIndices, size⟩
      else ⟨data, idx.accountIndices, size⟩

/-- `ParkingLotIndex::contains`. -/
def contains (idx : ParkingLotIndex A) (account : A) (seqNum : ℕ) : Bool :=
  ((idx.accountIndices.lookup account).bind fun i => idx.data[i]?).elim false fun (_, txns) => decide (seqNum ∈ txns)

/-- `ParkingLotIndex::get_poppable`: the highest sequence number of the entry
`choose` draws. The draw is `rand` reduced below the length of `data`, so
that every entry is drawn for some `rand`. -/
def getPoppable (idx : ParkingLotIndex A) (rand : ℕ) : Option (A × ℕ) :=
  idx.data[rand % idx.data.length]?.bind fun (sender, txns) =>
    ((txns.sort (· ≤ ·)).reverse.head?).map fun seqNum => (sender, seqNum)

/-- The requests: `insert` and `remove` of a transaction, named by its sender
and sequence number. -/
def step (idx : ParkingLotIndex A) : SetHistory.Op (A × ℕ) → Unit × ParkingLotIndex A
  | .insert (sender, sequenceNumber) => ((), idx.insert sender sequenceNumber)
  | .remove (sender, sequenceNumber) => ((), idx.remove sender sequenceNumber)

/-- The numbers `contains` looks in for `account`: those of the entry
`account_indices` points it at. -/
def seqNums (idx : ParkingLotIndex A) (account : A) : Finset ℕ :=
  ((idx.accountIndices.lookup account).bind fun i => idx.data[i]?).elim ∅ Prod.snd

theorem contains_eq (idx : ParkingLotIndex A) (account : A) (seqNum : ℕ) :
    idx.contains account seqNum = decide (seqNum ∈ idx.seqNums account) := by
  unfold contains seqNums
  cases (idx.accountIndices.lookup account).bind fun i => idx.data[i]? <;> rfl

section Calls

variable {idx : ParkingLotIndex A} {a b : A} {s i : ℕ} {T : Finset ℕ}

theorem insert_of_getElem? (hl : idx.accountIndices.lookup a = some i) (hd : idx.data[i]? = some (b, T)) :
    idx.insert a s = ⟨idx.data.set i (b, Insert.insert s T), idx.accountIndices, if s ∈ T then idx.size else idx.size + 1⟩ := by
  unfold insert
  simp only [hl, hd]
  split_ifs <;> simp_all

theorem insert_of_lookup_none (hl : idx.accountIndices.lookup a = none) :
    idx.insert a s = ⟨idx.data ++ [(a, {s})], idx.accountIndices.insert a idx.data.length, idx.size + 1⟩ := by
  unfold insert
  simp [hl]

theorem remove_of_lookup_none (hl : idx.accountIndices.lookup a = none) : idx.remove a s = idx := by
  unfold remove
  simp [hl]

theorem remove_of_erase_ne_empty (hl : idx.accountIndices.lookup a = some i) (hd : idx.data[i]? = some (b, T))
    (hne : T.erase s ≠ ∅) :
    idx.remove a s = ⟨idx.data.set i (b, T.erase s), idx.accountIndices, if s ∈ T then idx.size - 1 else idx.size⟩ := by
  unfold remove
  simp only [hl]
  split
  · simp_all
  · rename_i heq
    rw [hd, Option.some_inj, Prod.mk.injEq] at heq
    obtain ⟨rfl, rfl⟩ := heq
    rw [if_neg hne]

/-- `remove` of an account's last number: its entry is swap-removed, and the
account moved into its place, if any, is pointed there. -/
theorem remove_of_erase_eq_empty (hl : idx.accountIndices.lookup a = some i) (hd : idx.data[i]? = some (b, T))
    (he : T.erase s = ∅) :
    ∃ hi : i < idx.data.length, (idx.remove a s).data = idx.data.swapRemove i hi ∧
      (idx.remove a s).size = (if s ∈ T then idx.size - 1 else idx.size) ∧
      ∀ c, (idx.remove a s).accountIndices.lookup c =
        if ((idx.data.swapRemove i hi)[i]?).map Prod.fst = some c then some i
        else if c = a then none else idx.accountIndices.lookup c := by
  have hi : i < idx.data.length := (List.getElem?_eq_some_iff.1 hd).1
  refine ⟨hi, ?_⟩
  unfold remove
  simp only [hl]
  split
  · simp_all
  · rename_i heq
    rw [hd, Option.some_inj, Prod.mk.injEq] at heq
    obtain ⟨rfl, rfl⟩ := heq
    rw [if_pos he]
    simp only [List.swapRemove_set_self]
    split
    · rename_i c0 _ hc0
      refine ⟨rfl, rfl, fun c => ?_⟩
      rw [hc0, Option.map_some]
      by_cases hc : c0 = c
      · subst hc
        simp
      · rw [AList.lookup_insert_ne (Ne.symm hc), if_neg (by simpa using hc), AList.lookup_erase_eq_ite]
    · rename_i hnone
      refine ⟨rfl, rfl, fun c => ?_⟩
      rw [hnone, Option.map_none, if_neg (Option.some_ne_none c).symm, AList.lookup_erase_eq_ite]

end Calls

/-! ## The invariants -/

/-- The invariants of the index: the two of the struct's comment, and `size`
counting the numbers stored. -/
structure Inv (idx : ParkingLotIndex A) : Prop where
  /-- "for each entry (account, txns) in `data`, `txns` is never empty" -/
  nonempty : ∀ e ∈ idx.data, e.2.Nonempty
  /-- `account_indices` points each account at its entry in `data`, and
  there is no other. -/
  lookup_eq_some_iff : ∀ a i, idx.accountIndices.lookup a = some i ↔ idx.data[i]?.map Prod.fst = some a
  /-- `size` is the count of the sequence numbers stored. -/
  size_eq : idx.size = (idx.data.map fun e => e.2.card).sum

theorem inv_new : Inv (new : ParkingLotIndex A) :=
  ⟨fun _ he => absurd he List.not_mem_nil, fun a i => by simp [new], rfl⟩

namespace Inv

variable {idx : ParkingLotIndex A} (h : Inv idx) {a : A} {i : ℕ} {T : Finset ℕ}
include h

theorem lookup_of_getElem? (hd : idx.data[i]? = some (a, T)) : idx.accountIndices.lookup a = some i :=
  (h.lookup_eq_some_iff a i).2 (by rw [hd, Option.map_some])

theorem exists_getElem?_of_lookup (hl : idx.accountIndices.lookup a = some i) :
    ∃ T, idx.data[i]? = some (a, T) := by
  obtain ⟨⟨b, T⟩, hd, hb⟩ := Option.map_eq_some_iff.1 ((h.lookup_eq_some_iff a i).1 hl)
  cases hb
  exact ⟨T, hd⟩

/-- No account has two entries. -/
theorem nodup : (idx.data.map Prod.fst).Nodup := by
  refine List.nodup_iff_getElem?_ne_getElem?.2 fun j k hjk hk heq => ?_
  rw [List.length_map] at hk
  have hat : idx.data[k]?.map Prod.fst = some idx.data[k].1 := by rw [List.getElem?_eq_getElem hk]; rfl
  rw [List.getElem?_map, List.getElem?_map] at heq
  have hj := (h.lookup_eq_some_iff _ j).2 (heq.trans hat)
  rw [(h.lookup_eq_some_iff _ k).2 hat, Option.some_inj] at hj
  omega

theorem seqNums_of_getElem? (hd : idx.data[i]? = some (a, T)) : idx.seqNums a = T := by
  rw [seqNums, h.lookup_of_getElem? hd, Option.bind_some, hd]
  rfl

/-- Two positions of one account are one. -/
theorem eq_of_getElem? {j k : ℕ} (hj : idx.data[j]?.map Prod.fst = some a)
    (hk : idx.data[k]?.map Prod.fst = some a) : j = k := by
  have hj' := (h.lookup_eq_some_iff a j).2 hj
  rwa [(h.lookup_eq_some_iff a k).2 hk, Option.some_inj, eq_comm] at hj'

/-- The entry of `a` is not where another account's lookup points. -/
theorem ne_of_lookup {b : A} {j : ℕ} (hd : idx.data[i]? = some (a, T)) (hj : idx.accountIndices.lookup b = some j)
    (hb : b ≠ a) : i ≠ j := by
  rintro rfl
  have hfb := (h.lookup_eq_some_iff b i).1 hj
  rw [hd, Option.map_some, Option.some_inj] at hfb
  exact hb hfb.symm

/-- Writing a set into the entry of `a` changes the count by the sets' sizes. -/
theorem sum_set (hd : idx.data[i]? = some (a, T)) (T' : Finset ℕ) :
    ((idx.data.set i (a, T')).map fun e => e.2.card).sum + T.card = idx.size + T'.card := by
  have hsum := List.sum_map_set_add (fun e : A × Finset ℕ => e.2.card) (List.getElem?_eq_some_iff.1 hd).1 (a, T')
  rw [(List.getElem?_eq_some_iff.1 hd).2] at hsum
  rw [h.size_eq]
  exact hsum

end Inv

theorem seqNums_of_lookup_none {idx : ParkingLotIndex A} {a : A} (hl : idx.accountIndices.lookup a = none) :
    idx.seqNums a = ∅ := by
  rw [seqNums, hl]
  rfl

/-- Where an account's lookup and its entry stay, so do its numbers. -/
theorem seqNums_congr {idx idx' : ParkingLotIndex A} {a : A}
    (hl : idx'.accountIndices.lookup a = idx.accountIndices.lookup a)
    (hd : ∀ j, idx.accountIndices.lookup a = some j → idx'.data[j]? = idx.data[j]?) :
    idx'.seqNums a = idx.seqNums a := by
  unfold seqNums
  rw [hl]
  cases hj : idx.accountIndices.lookup a with
  | none => rfl
  | some j => rw [Option.bind_some, Option.bind_some, hd j hj]

namespace Inv

variable {idx : ParkingLotIndex A} (h : Inv idx) {a : A} {i : ℕ} {T : Finset ℕ}
include h

/-- Writing a nonempty set into the entry of `a`, the count moved by the
change of its size, keeps the invariants and changes the numbers of `a`
alone: the step `insert` and `remove` share while the entry stays. -/
theorem set_entry (hl : idx.accountIndices.lookup a = some i) (hd : idx.data[i]? = some (a, T))
    {T' : Finset ℕ} (hT' : T'.Nonempty) {size : ℕ} (hsize : size = idx.size + T'.card - T.card) :
    Inv (⟨idx.data.set i (a, T'), idx.accountIndices, size⟩ : ParkingLotIndex A) ∧
      ∀ b, seqNums ⟨idx.data.set i (a, T'), idx.accountIndices, size⟩ b = if b = a then T' else idx.seqNums b := by
  have hi : i < idx.data.length := (List.getElem?_eq_some_iff.1 hd).1
  have hfst := List.map_getElem?_set Prod.fst (x := (a, T')) (by rw [hd]; rfl)
  refine ⟨⟨fun e he => ?_, fun c j => ?_, ?_⟩, fun b => ?_⟩
  · rcases List.mem_or_eq_of_mem_set he with he | rfl
    · exact h.nonempty e he
    · exact hT'
  · rw [hfst]
    exact h.lookup_eq_some_iff c j
  · have hsum := h.sum_set hd T'
    dsimp only
    omega
  · by_cases hb : b = a
    · subst hb
      rw [if_pos rfl, seqNums, hl, Option.bind_some, List.getElem?_set_self hi]
      rfl
    · rw [if_neg hb]
      exact seqNums_congr rfl fun j hj => List.getElem?_set_ne (h.ne_of_lookup hd hj hb)

/-- `insert` for an account with an entry adds the number to it. -/
theorem insert_old (hl : idx.accountIndices.lookup a = some i) (hd : idx.data[i]? = some (a, T)) (s : ℕ) :
    Inv (idx.insert a s) ∧
      ∀ b, (idx.insert a s).seqNums b = if b = a then Insert.insert s (idx.seqNums a) else idx.seqNums b := by
  rw [insert_of_getElem? hl hd, h.seqNums_of_getElem? hd]
  refine h.set_entry hl hd (Finset.insert_nonempty s T) ?_
  by_cases hs : s ∈ T
  · rw [if_pos hs, Finset.insert_eq_of_mem hs, Nat.add_sub_cancel]
  · rw [if_neg hs, Finset.card_insert_of_notMem hs]
    omega

/-- `insert` for an account with no entry appends one, holding the number. -/
theorem insert_new (hl : idx.accountIndices.lookup a = none) (s : ℕ) :
    Inv (idx.insert a s) ∧
      ∀ b, (idx.insert a s).seqNums b = if b = a then Insert.insert s (idx.seqNums a) else idx.seqNums b := by
  have hnew : ∀ j, idx.data[j]?.map Prod.fst ≠ some a := fun j hj => by
    rw [(h.lookup_eq_some_iff a j).2 hj] at hl
    cases hl
  have hlt : ∀ c j, idx.accountIndices.lookup c = some j → j < idx.data.length := fun c j hj => by
    obtain ⟨T, hd⟩ := h.exists_getElem?_of_lookup hj
    exact (List.getElem?_eq_some_iff.1 hd).1
  rw [insert_of_lookup_none hl]
  refine ⟨⟨fun e he => ?_, fun c j => ?_, ?_⟩, fun b => ?_⟩
  · rcases List.mem_append.1 he with he | he
    · exact h.nonempty e he
    · rw [List.mem_singleton.1 he]
      exact Finset.singleton_nonempty s
  · dsimp only
    rw [List.getElem?_append]
    by_cases hc : c = a
    · subst hc
      rw [AList.lookup_insert, Option.some_inj]
      constructor
      · rintro rfl
        simp
      · intro hj
        split_ifs at hj with hjl
        · exact absurd hj (hnew j)
        · rw [List.getElem?_singleton] at hj
          split_ifs at hj with hj0
          · omega
          · cases hj
    · rw [AList.lookup_insert_ne hc, h.lookup_eq_some_iff c j]
      split_ifs with hjl
      · rfl
      · rw [List.getElem?_eq_none (by omega), List.getElem?_singleton]
        split_ifs
        · simp [Ne.symm hc]
        · rfl
  · dsimp only
    rw [List.map_append, List.sum_append, h.size_eq]
    simp
  · by_cases hb : b = a
    · subst hb
      rw [if_pos rfl, seqNums_of_lookup_none hl, seqNums, AList.lookup_insert, Option.bind_some,
        List.getElem?_append_right le_rfl, Nat.sub_self]
      rfl
    · rw [if_neg hb]
      exact seqNums_congr (AList.lookup_insert_ne hb) fun j hj => List.getElem?_append_left (hlt b j hj)

/-- `remove` that leaves the account numbers takes the number out of its
entry. -/
theorem remove_keep (hl : idx.accountIndices.lookup a = some i) (hd : idx.data[i]? = some (a, T)) {s : ℕ}
    (hne : T.erase s ≠ ∅) :
    Inv (idx.remove a s) ∧
      ∀ b, (idx.remove a s).seqNums b = if b = a then (idx.seqNums a).erase s else idx.seqNums b := by
  rw [remove_of_erase_ne_empty hl hd hne, h.seqNums_of_getElem? hd]
  refine h.set_entry hl hd (Finset.nonempty_iff_ne_empty.2 hne) ?_
  by_cases hs : s ∈ T
  · have hpos : 0 < T.card := Finset.card_pos.2 (h.nonempty _ (List.mem_of_getElem? hd))
    rw [if_pos hs, Finset.card_erase_of_mem hs]
    omega
  · rw [if_neg hs, Finset.erase_eq_of_notMem hs, Nat.add_sub_cancel]

/-- `remove` of an account's last number swap-removes its entry: the moved
account is found at its new place and the removed one nowhere. -/
theorem remove_swap (hl : idx.accountIndices.lookup a = some i) (hd : idx.data[i]? = some (a, T)) {s : ℕ}
    (he : T.erase s = ∅) :
    Inv (idx.remove a s) ∧
      ∀ b, (idx.remove a s).seqNums b = if b = a then (idx.seqNums a).erase s else idx.seqNums b := by
  obtain ⟨hi, hdata, hsize, hlookup⟩ := remove_of_erase_eq_empty hl hd he
  have hT : T.Nonempty := h.nonempty _ (List.mem_of_getElem? hd)
  have hs : s ∈ T := by
    by_contra hs
    rw [Finset.erase_eq_of_notMem hs] at he
    exact hT.ne_empty he
  have hcard : T.card = 1 := by
    have hc := Finset.card_erase_of_mem hs
    rw [he, Finset.card_empty] at hc
    have := Finset.card_pos.2 hT
    omega
  -- the accounts after the swap, where the position lemma applies
  have hiK : i < (idx.data.map Prod.fst).length := by rw [List.length_map]; exact hi
  have hK : ∀ j, (idx.data.swapRemove i hi)[j]?.map Prod.fst = ((idx.data.map Prod.fst).swapRemove i hiK)[j]? :=
    fun j => by rw [← List.getElem?_map, List.map_swapRemove]
  have hKi : (idx.data.map Prod.fst)[i]? = some a := by rw [List.getElem?_map, hd, Option.map_some]
  have hpos := List.getElem?_swapRemove_eq_some_iff h.nodup hiK
  refine ⟨⟨fun e he' => ?_, fun c j => ?_, ?_⟩, fun b => ?_⟩
  · rw [hdata] at he'
    exact h.nonempty e ((List.perm_swapRemove hi).subset (List.mem_cons_of_mem _ he'))
  · rw [hlookup, hdata, hK, hK, hpos c j]
    split_ifs with hP hca
    · simp [hP, eq_comm]
    · subst hca
      simp [hP, hKi]
    · rw [h.lookup_eq_some_iff, ← List.getElem?_map]
      simp [hP, hKi, Ne.symm hca]
  · -- the one number left is no longer counted
    have hsum := List.sum_map_swapRemove_add (fun e : A × Finset ℕ => e.2.card) hi
    rw [(List.getElem?_eq_some_iff.1 hd).2] at hsum
    rw [hsize, hdata, if_pos hs, h.size_eq]
    dsimp only at hsum
    omega
  · by_cases hb : b = a
    · subst hb
      have hnot : ¬((idx.data.map Prod.fst).swapRemove i hiK)[i]? = some b := by
        intro hP
        rw [List.getElem?_swapRemove] at hP
        split_ifs at hP with hin hii
        · rw [List.length_map] at hin hP
          rw [List.getElem?_map] at hP hKi
          exact absurd (h.eq_of_getElem? hP hKi) (by omega)
        · exact hii rfl
      rw [if_pos rfl, h.seqNums_of_getElem? hd, he, seqNums, hlookup, hK, if_neg hnot, if_pos rfl]
      rfl
    · rw [if_neg hb]
      by_cases hP : ((idx.data.map Prod.fst).swapRemove i hiK)[i]? = some b
      · -- `b` moved into `i`, with its entry
        obtain ⟨⟨b', Tb⟩, hdi, hb'⟩ := Option.map_eq_some_iff.1 ((hK i).trans hP)
        cases hb'
        have hlast : idx.data[idx.data.length - 1]? = some (b', Tb) := by
          rw [List.getElem?_swapRemove] at hdi
          split_ifs at hdi with hin hii
          · exact hdi
          · exact absurd rfl hii
        rw [h.seqNums_of_getElem? hlast, seqNums, hlookup, hK, if_pos hP, Option.bind_some, hdata, hdi]
        rfl
      · refine seqNums_congr (by rw [hlookup, hK, if_neg hP, if_neg hb]) fun j hj => ?_
        have hji : j ≠ i := (h.ne_of_lookup hd hj hb).symm
        have hfj := (h.lookup_eq_some_iff b j).1 hj
        have hjl : j < idx.data.length := by
          obtain ⟨e, hde, -⟩ := Option.map_eq_some_iff.1 hfj
          exact (List.getElem?_eq_some_iff.1 hde).1
        have hjn : j < idx.data.length - 1 := by
          by_contra hjn
          apply hP
          rw [List.getElem?_swapRemove, if_pos (by rw [List.length_map]; omega), if_pos rfl, List.length_map,
            show idx.data.length - 1 = j by omega, List.getElem?_map]
          exact hfj
        rw [hdata, List.getElem?_swapRemove, if_pos hjn, if_neg hji]

/-- **`insert`** keeps the invariants, and the account gains the number. -/
theorem insert_spec (a : A) (s : ℕ) :
    Inv (idx.insert a s) ∧
      ∀ b, (idx.insert a s).seqNums b = if b = a then Insert.insert s (idx.seqNums a) else idx.seqNums b := by
  cases hl : idx.accountIndices.lookup a with
  | none => exact h.insert_new hl s
  | some i =>
    obtain ⟨T, hd⟩ := h.exists_getElem?_of_lookup hl
    exact h.insert_old hl hd s

/-- **`remove`** keeps the invariants, and the account loses the number. -/
theorem remove_spec (a : A) (s : ℕ) :
    Inv (idx.remove a s) ∧
      ∀ b, (idx.remove a s).seqNums b = if b = a then (idx.seqNums a).erase s else idx.seqNums b := by
  cases hl : idx.accountIndices.lookup a with
  | none =>
    rw [remove_of_lookup_none hl]
    refine ⟨h, fun b => ?_⟩
    split_ifs with hb
    · rw [hb, seqNums_of_lookup_none hl, Finset.erase_empty]
    · rfl
  | some i =>
    obtain ⟨T, hd⟩ := h.exists_getElem?_of_lookup hl
    by_cases he : T.erase s = ∅
    · exact h.remove_swap hl hd he
    · exact h.remove_keep hl hd he

/-- The index is empty exactly when no account has a number. -/
theorem data_eq_nil_iff : idx.data = [] ↔ ∀ a, idx.seqNums a = ∅ := by
  constructor
  · intro hnil a
    cases hl : idx.accountIndices.lookup a with
    | none => exact seqNums_of_lookup_none hl
    | some i =>
      obtain ⟨T, hd⟩ := h.exists_getElem?_of_lookup hl
      rw [hnil, List.getElem?_nil] at hd
      cases hd
  · intro hempty
    cases hdata : idx.data with
    | nil => rfl
    | cons e rest =>
      have hd : idx.data[0]? = some (e.1, e.2) := by rw [hdata]; rfl
      have hT := h.nonempty e (by rw [hdata]; exact List.mem_cons_self)
      have hseq := h.seqNums_of_getElem? hd
      rw [hempty e.1] at hseq
      rw [← hseq] at hT
      exact absurd hT Finset.not_nonempty_empty

end Inv

/-- `iter().rev().next()` of a nonempty `BTreeSet` is its highest element. -/
theorem head?_reverse_sort {T : Finset ℕ} (hT : T.Nonempty) :
    (T.sort (· ≤ ·)).reverse.head? = some (T.max' hT) := by
  rw [List.head?_reverse, List.getLast?_eq_getElem?, Finset.max'_eq_sorted_last,
    List.getElem?_eq_getElem]

namespace Inv

variable {idx : ParkingLotIndex A} (h : Inv idx)
include h

/-- `get_poppable` finds nothing exactly on an empty index. -/
theorem getPoppable_eq_none_iff (rand : ℕ) : idx.getPoppable rand = none ↔ idx.data = [] := by
  constructor
  · intro hp
    by_contra hne
    have hk : rand % idx.data.length < idx.data.length := Nat.mod_lt _ (List.length_pos_of_ne_nil hne)
    have hT := h.nonempty _ (List.getElem_mem hk)
    rw [getPoppable, List.getElem?_eq_getElem hk, Option.bind_some] at hp
    dsimp only at hp
    rw [head?_reverse_sort hT, Option.map_some] at hp
    cases hp
  · intro hnil
    rw [getPoppable, hnil]
    rfl

/-- What `get_poppable` finds is the highest number of its account. -/
theorem getPoppable_eq_some {rand : ℕ} {a : A} {m : ℕ} (hp : idx.getPoppable rand = some (a, m)) :
    m ∈ idx.seqNums a ∧ ∀ t ∈ idx.seqNums a, t ≤ m := by
  rw [getPoppable, Option.bind_eq_some_iff] at hp
  obtain ⟨⟨b, T⟩, hd, hm⟩ := hp
  have hT : T.Nonempty := h.nonempty _ (List.mem_of_getElem? hd)
  dsimp only at hm
  rw [head?_reverse_sort hT, Option.map_some, Option.some_inj, Prod.mk.injEq] at hm
  obtain ⟨rfl, rfl⟩ := hm
  rw [h.seqNums_of_getElem? hd]
  exact ⟨T.max'_mem hT, fun t ht => T.le_max' t ht⟩

end Inv

/-! ## The index as a set of pairs -/

/-- The index stores the pairs of `S`: its invariants hold, and `contains`
looks where the numbers of `S` are. -/
structure Represents (idx : ParkingLotIndex A) (S : Set (A × ℕ)) : Prop where
  inv : Inv idx
  mem_seqNums_iff : ∀ a s, s ∈ idx.seqNums a ↔ (a, s) ∈ S

/-- Each call does to the index what `SetHistory.step` does to the set. -/
theorem Represents.step {idx : ParkingLotIndex A} {S : Set (A × ℕ)} (h : Represents idx S)
    (op : SetHistory.Op (A × ℕ)) : Represents (ParkingLotIndex.step idx op).2 (SetHistory.step S op).2 := by
  cases op with
  | insert p =>
    obtain ⟨a, s⟩ := p
    obtain ⟨hinv, hseq⟩ := h.inv.insert_spec a s
    refine ⟨hinv, fun b t => ?_⟩
    simp only [ParkingLotIndex.step, SetHistory.step, hseq, Set.mem_insert_iff, Prod.mk.injEq]
    split_ifs with hb
    · subst hb
      rw [Finset.mem_insert, h.mem_seqNums_iff]
      tauto
    · rw [h.mem_seqNums_iff]
      tauto
  | remove p =>
    obtain ⟨a, s⟩ := p
    obtain ⟨hinv, hseq⟩ := h.inv.remove_spec a s
    refine ⟨hinv, fun b t => ?_⟩
    simp only [ParkingLotIndex.step, SetHistory.step, hseq, Set.mem_sdiff, Set.mem_singleton_iff, Prod.mk.injEq]
    split_ifs with hb
    · subst hb
      rw [Finset.mem_erase, h.mem_seqNums_iff]
      tauto
    · rw [h.mem_seqNums_iff]
      tauto

/-- Over every run from `new`, the index stores the set the same calls build. -/
theorem represents_final (ops : List (SetHistory.Op (A × ℕ))) :
    Represents (Mealy.final step new ops) (Mealy.final SetHistory.step ∅ ops) :=
  Mealy.rel_final step SetHistory.step (fun _ _ op h => h.step op) ops
    ⟨inv_new, fun a s => by simp [seqNums, new]⟩

/-- **The parking lot index keeps its invariants** over every run of `insert`
and `remove` calls from `new`: no entry is empty; `account_indices` points
each account at its one entry; `size` counts the numbers stored; `contains`
holds of exactly the pairs inserted and not removed since; and `get_poppable`
finds nothing exactly on an empty index, and otherwise the highest number of
an account, whichever entry it draws. -/
theorem parkingLotIndex_invariants (ops : List (SetHistory.Op (A × ℕ))) :
    let idx := Mealy.final step (new : ParkingLotIndex A) ops
    (∀ e ∈ idx.data, e.2.Nonempty) ∧
    (idx.data.map Prod.fst).Nodup ∧
    (∀ a i, idx.accountIndices.lookup a = some i ↔ idx.data[i]?.map Prod.fst = some a) ∧
    idx.size = (idx.data.map fun e => e.2.card).sum ∧
    (∀ a s, idx.contains a s = true ↔
      ∃ pre post, ops = pre ++ .insert (a, s) :: post ∧ .remove (a, s) ∉ post) ∧
    ∀ rand, (idx.getPoppable rand = none ↔ ∀ a s, idx.contains a s = false) ∧
      ∀ a s, idx.getPoppable rand = some (a, s) →
        idx.contains a s = true ∧ ∀ t, idx.contains a t = true → t ≤ s := by
  intro idx
  have hinv : Inv idx := (represents_final ops).inv
  have hmem : ∀ a s, s ∈ idx.seqNums a ↔ (a, s) ∈ Mealy.final SetHistory.step ∅ ops :=
    (represents_final ops).mem_seqNums_iff
  refine ⟨hinv.nonempty, hinv.nodup, hinv.lookup_eq_some_iff, hinv.size_eq, fun a s => ?_, fun rand => ⟨?_, ?_⟩⟩
  · rw [contains_eq, decide_eq_true_iff, hmem, SetHistory.mem_final_iff]
  · simp only [hinv.getPoppable_eq_none_iff, hinv.data_eq_nil_iff, contains_eq, decide_eq_false_iff_not,
      Finset.eq_empty_iff_forall_notMem]
  · intro a s hp
    obtain ⟨hs, hmax⟩ := hinv.getPoppable_eq_some hp
    simp only [contains_eq, decide_eq_true_iff]
    exact ⟨hs, hmax⟩

/-- Two accounts, a number of the first removed: the first account's highest
number is the one left. -/
theorem parkingLotIndex_invariants_twoAccounts :
    (Mealy.final step (new : ParkingLotIndex ℕ) [.insert (1, 5), .insert (2, 7), .insert (1, 6), .remove (1, 5)]).contains 1 6 = true ∧
    ∀ t, (Mealy.final step (new : ParkingLotIndex ℕ) [.insert (1, 5), .insert (2, 7), .insert (1, 6), .remove (1, 5)]).contains 1 t = true → t ≤ 6 :=
  ((parkingLotIndex_invariants [.insert (1, 5), .insert (2, 7), .insert (1, 6), .remove (1, 5)]).2.2.2.2.2 0).2 1 6
    (by decide +kernel)

end ParkingLotIndex

end Diem.Mempool
