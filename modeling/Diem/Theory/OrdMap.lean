import Mathlib.Order.Basic
import Mathlib.Data.List.Pairwise
import Mathlib.Data.List.Find

/-!
# Ordered finite maps

An ordered map (a `BTreeMap`, or a `BTreeSet` as a map to `Unit`) is its list
of entries in strictly increasing key order; the order is a field of the
structure, so no map with a key twice or out of order can be built. Insertion
replaces, removal returns what it removed, and iteration is the entry list,
in key order.

`renameSeq` renames keys one pair at a time, in the order of a list of
renamings: remove the old key and insert its value at the new one. It is the
simultaneous renaming of the keys (`rename`) only when no pair writes to a key
a later pair still has to move: `find?_renameSeq_swap` is the swap of two keys,
which loses a value, and `renameSeq_eq_rename` is the positive side: an
injective renaming, applied in increasing key order, that moves every key down
or leaves it, and whose targets outside its domain are free, is simultaneous.
-/

/-- A finite map with its entries in strictly increasing key order. -/
structure OrdMap (κ : Type*) (ν : Type*) [LinearOrder κ] where
  /-- The entries, in increasing key order. -/
  entries : List (κ × ν)
  /-- Keys strictly increase. -/
  sorted : (entries.map Prod.fst).Pairwise (· < ·)

namespace OrdMap

variable {κ ν ν' : Type*} [LinearOrder κ]

/-- The empty map. -/
def empty : OrdMap κ ν := ⟨[], .nil⟩

instance : EmptyCollection (OrdMap κ ν) := ⟨empty⟩

/-- The value at `k`. -/
def find? (m : OrdMap κ ν) (k : κ) : Option ν := (m.entries.find? (·.1 = k)).map Prod.snd

/-- The keys, in increasing order. -/
def keys (m : OrdMap κ ν) : List κ := m.entries.map Prod.fst

/-- Insert into a sorted entry list, replacing the entry of the same key. -/
def insertList (k : κ) (v : ν) : List (κ × ν) → List (κ × ν)
  | [] => [(k, v)]
  | (k', v') :: rest =>
    if k < k' then (k, v) :: (k', v') :: rest
    else if k = k' then (k, v) :: rest
    else (k', v') :: insertList k v rest

/-- Remove the entry of a key from an entry list. -/
def eraseList (k : κ) : List (κ × ν) → List (κ × ν)
  | [] => []
  | (k', v') :: rest => if k' = k then rest else (k', v') :: eraseList k rest

theorem keys_insertList (k : κ) (v : ν) :
    ∀ l : List (κ × ν), ∀ x ∈ (insertList k v l).map Prod.fst, x = k ∨ x ∈ l.map Prod.fst := by
  intro l
  induction l with
  | nil => simp [insertList]
  | cons e rest ih =>
    obtain ⟨k', v'⟩ := e
    intro x hx
    by_cases hlt : k < k'
    · simpa [insertList, hlt] using hx
    · by_cases heq : k = k'
      · subst heq
        simp only [insertList, hlt, ↓reduceIte, List.map_cons, List.mem_cons] at hx
        simp only [List.map_cons, List.mem_cons]
        rcases hx with h | h
        · exact .inl h
        · exact .inr (.inr h)
      · simp only [insertList, hlt, heq, ↓reduceIte, List.map_cons, List.mem_cons] at hx
        simp only [List.map_cons, List.mem_cons]
        rcases hx with h | h
        · exact .inr (.inl h)
        · rcases ih x h with h' | h'
          · exact .inl h'
          · exact .inr (.inr h')

theorem sorted_insertList (k : κ) (v : ν) :
    ∀ l : List (κ × ν), (l.map Prod.fst).Pairwise (· < ·) → ((insertList k v l).map Prod.fst).Pairwise (· < ·) := by
  intro l
  induction l with
  | nil => intro _; simp [insertList]
  | cons e rest ih =>
    obtain ⟨k', v'⟩ := e
    intro h
    simp only [List.map_cons, List.pairwise_cons] at h
    obtain ⟨hlt', hrest⟩ := h
    simp only [insertList]
    split_ifs with hlt heq
    · simp only [List.map_cons, List.pairwise_cons, List.mem_cons]
      refine ⟨?_, hlt', hrest⟩
      rintro x (rfl | hx)
      · exact hlt
      · exact lt_trans hlt (hlt' x hx)
    · subst heq
      simp only [List.map_cons, List.pairwise_cons]
      exact ⟨hlt', hrest⟩
    · simp only [List.map_cons, List.pairwise_cons]
      refine ⟨?_, ih hrest⟩
      intro x hx
      rcases keys_insertList k v rest x hx with rfl | hx
      · exact lt_of_le_of_ne (not_lt.1 hlt) (Ne.symm heq)
      · exact hlt' x hx

theorem sublist_eraseList (k : κ) : ∀ l : List (κ × ν), (eraseList k l).Sublist l := by
  intro l
  induction l with
  | nil => exact .slnil
  | cons e rest ih =>
    simp only [eraseList]
    split_ifs
    · exact .cons _ (List.Sublist.refl _)
    · exact ih.cons_cons _

/-- `insert`: the value at `k` becomes `v`. -/
def insert (m : OrdMap κ ν) (k : κ) (v : ν) : OrdMap κ ν :=
  ⟨insertList k v m.entries, sorted_insertList k v m.entries m.sorted⟩

/-- The map without the entry of `k`. -/
def erase (m : OrdMap κ ν) (k : κ) : OrdMap κ ν :=
  ⟨eraseList k m.entries, m.sorted.sublist ((sublist_eraseList k m.entries).map Prod.fst)⟩

/-- `remove`: the value removed, if any, and the map without it. -/
def remove (m : OrdMap κ ν) (k : κ) : Option ν × OrdMap κ ν := (m.find? k, m.erase k)

/-- `values_mut` over the whole map: the same keys with new values. -/
def mapValues (f : ν → ν') (m : OrdMap κ ν) : OrdMap κ ν' :=
  ⟨m.entries.map fun e => (e.1, f e.2), by simpa [List.map_map, Function.comp_def] using m.sorted⟩

/-- `values`: the values, in increasing key order. -/
def values (m : OrdMap κ ν) : List ν := m.entries.map Prod.snd

/-- `split_off(k)`: the entries below `k`, which the map keeps, and those from
`k` on, which it returns. -/
def splitOff (m : OrdMap κ ν) (k : κ) : OrdMap κ ν × OrdMap κ ν :=
  (⟨m.entries.filter (·.1 < k), m.sorted.sublist ((List.filter_sublist).map Prod.fst)⟩,
    ⟨m.entries.filter (¬ ·.1 < k), m.sorted.sublist ((List.filter_sublist).map Prod.fst)⟩)

/-- Rename keys one pair `(old, new)` at a time, in the order given: a value
at `old` is removed and inserted at `new`. -/
def renameSeq (idMap : List (κ × κ)) (m : OrdMap κ ν) : OrdMap κ ν :=
  idMap.foldl (fun m p => match m.find? p.1 with
    | some v => (m.erase p.1).insert p.2 v
    | none => m) m

/-! ### Lookup -/

@[simp] theorem find?_empty (k : κ) : (∅ : OrdMap κ ν).find? k = none := rfl

theorem find?_insertList (k k' : κ) (v : ν) :
    ∀ l : List (κ × ν), (l.map Prod.fst).Pairwise (· < ·) →
      ((insertList k v l).find? (·.1 = k')).map Prod.snd =
        if k' = k then some v else (l.find? (·.1 = k')).map Prod.snd := by
  intro l
  induction l with
  | nil =>
    intro _
    by_cases h : k' = k
    · simp [insertList, h]
    · simp [insertList, h, Ne.symm h]
  | cons e rest ih =>
    obtain ⟨k'', v''⟩ := e
    intro hs
    simp only [List.map_cons, List.pairwise_cons] at hs
    by_cases hlt : k < k''
    · by_cases hk : k' = k
      · subst hk
        simp [insertList, hlt]
      · simp [insertList, hlt, hk, Ne.symm hk, List.find?_cons]
    · by_cases heq : k = k''
      · subst heq
        by_cases hk : k' = k
        · subst hk
          simp [insertList]
        · simp [insertList, hk, Ne.symm hk]
      · have hrest := ih hs.2
        by_cases hk : k' = k
        · subst hk
          have hne : k'' ≠ k' := Ne.symm heq
          simp only [insertList, hlt, heq, ↓reduceIte, List.find?_cons, hne, decide_false, hrest]
        · by_cases h'' : k'' = k'
          · subst h''
            simp [insertList, hlt, heq, hk]
          · simp only [insertList, hlt, heq, ↓reduceIte, List.find?_cons, h'', decide_false, hrest, hk]

@[simp] theorem find?_insert (m : OrdMap κ ν) (k k' : κ) (v : ν) :
    (m.insert k v).find? k' = if k' = k then some v else m.find? k' :=
  find?_insertList k k' v m.entries m.sorted

theorem find?_eraseList (k k' : κ) :
    ∀ l : List (κ × ν), (l.map Prod.fst).Pairwise (· < ·) →
      ((eraseList k l).find? (·.1 = k')).map Prod.snd =
        if k' = k then none else (l.find? (·.1 = k')).map Prod.snd := by
  intro l
  induction l with
  | nil => intro _; simp [eraseList]
  | cons e rest ih =>
    obtain ⟨k'', v''⟩ := e
    intro hs
    simp only [List.map_cons, List.pairwise_cons] at hs
    by_cases heq : k'' = k
    · subst heq
      by_cases hk : k' = k''
      · subst hk
        -- the key occurs once, so nothing of it is left in the rest
        have hnot : ∀ e ∈ rest, ¬e.1 = k' := by
          intro e he h
          exact lt_irrefl _ (h ▸ hs.1 e.1 (List.mem_map_of_mem he))
        have hnone : rest.find? (·.1 = k') = none :=
          List.find?_eq_none.2 (fun e he => by simpa using hnot e he)
        simp [eraseList, hnone]
      · simp [eraseList, hk, Ne.symm hk]
    · have hrest := ih hs.2
      by_cases hk : k' = k
      · subst hk
        simp only [eraseList, heq, ↓reduceIte, List.find?_cons, decide_false, hrest]
      · by_cases h'' : k'' = k'
        · subst h''
          simp [eraseList, heq]
        · simp only [eraseList, heq, ↓reduceIte, List.find?_cons, h'', decide_false, hrest, hk]

@[simp] theorem find?_erase (m : OrdMap κ ν) (k k' : κ) :
    (m.erase k).find? k' = if k' = k then none else m.find? k' :=
  find?_eraseList k k' m.entries m.sorted

@[simp] theorem remove_fst (m : OrdMap κ ν) (k : κ) : (m.remove k).1 = m.find? k := rfl

@[simp] theorem remove_snd (m : OrdMap κ ν) (k : κ) : (m.remove k).2 = m.erase k := rfl

@[simp] theorem find?_mapValues (f : ν → ν') (m : OrdMap κ ν) (k : κ) :
    (m.mapValues f).find? k = (m.find? k).map f := by
  simp only [find?, mapValues, List.find?_map, Function.comp_def, Option.map_map]

/-! ### Renaming one pair at a time -/

@[simp] theorem renameSeq_nil (m : OrdMap κ ν) : renameSeq [] m = m := rfl

/-- One renaming step, read at a key. -/
theorem find?_renameStep (m : OrdMap κ ν) (old new k : κ) :
    (match m.find? old with
      | some v => (m.erase old).insert new v
      | none => m).find? k =
      match m.find? old with
      | some v => if k = new then some v else if k = old then none else m.find? k
      | none => m.find? k := by
  cases m.find? old with
  | none => rfl
  | some v => simp

/-- **Renaming a swap one pair at a time loses a value**: moving `a` to `b`
first overwrites the value at `b`, which the pair `(b, a)` then moves back to
`a`. Nothing is left at `b`. -/
theorem find?_renameSeq_swap (m : OrdMap κ ν) {a b : κ} (hab : a ≠ b) {x : ν} (ha : m.find? a = some x) :
    (renameSeq [(a, b), (b, a)] m).find? a = some x ∧ (renameSeq [(a, b), (b, a)] m).find? b = none := by
  simp [renameSeq, ha, Ne.symm hab]

/-! ### Extensionality -/

theorem find?_cons_entries (k : κ) (v : ν) (rest : List (κ × ν)) (j : κ) :
    (((k, v) :: rest).find? (·.1 = j)).map Prod.snd =
      if k = j then some v else (rest.find? (·.1 = j)).map Prod.snd := by
  by_cases h : k = j <;> simp [h]

theorem find?_eq_none_of_forall_lt {l : List (κ × ν)} {j : κ} (h : ∀ a ∈ l.map Prod.fst, j < a) :
    (l.find? (·.1 = j)).map Prod.snd = none := by
  rw [Option.map_eq_none_iff, List.find?_eq_none]
  intro e he hj
  have hlt := h e.1 (List.mem_map_of_mem he)
  rw [decide_eq_true_iff] at hj
  rw [hj] at hlt
  exact lt_irrefl _ hlt

/-- A sorted entry list is determined by its lookups. -/
theorem entries_eq_of_find? :
    ∀ (l l' : List (κ × ν)), (l.map Prod.fst).Pairwise (· < ·) → (l'.map Prod.fst).Pairwise (· < ·) →
      (∀ k, (l.find? (·.1 = k)).map Prod.snd = (l'.find? (·.1 = k)).map Prod.snd) → l = l'
  | [], [], _, _, _ => rfl
  | [], (k, v) :: _, _, _, h => by simpa using h k
  | (k, v) :: _, [], _, _, h => by simpa using h k
  | (k, v) :: rest, (k', v') :: rest', hs, hs', h => by
    rw [List.map_cons, List.pairwise_cons] at hs hs'
    -- the least keys agree: the smaller one would be missing from the other list
    have hk : k = k' := by
      by_contra hne
      rcases lt_or_gt_of_ne hne with hlt | hgt
      · have h' := h k
        rw [find?_cons_entries, find?_cons_entries, if_pos rfl, if_neg (Ne.symm hne),
          find?_eq_none_of_forall_lt (fun a ha => lt_trans hlt (hs'.1 a ha))] at h'
        cases h'
      · have h' := h k'
        rw [find?_cons_entries, find?_cons_entries, if_pos rfl, if_neg hne,
          find?_eq_none_of_forall_lt (fun a ha => lt_trans hgt (hs.1 a ha))] at h'
        cases h'
    subst hk
    have hv : v = v' := by simpa [find?_cons_entries] using h k
    subst hv
    congr 1
    apply entries_eq_of_find? rest rest' hs.2 hs'.2
    intro j
    by_cases hj : k = j
    · subst hj
      rw [find?_eq_none_of_forall_lt hs.1, find?_eq_none_of_forall_lt hs'.1]
    · simpa [find?_cons_entries, hj] using h j

/-- Two maps with the same lookups are equal. -/
@[ext] theorem ext {m m' : OrdMap κ ν} (h : ∀ k, m.find? k = m'.find? k) : m = m' := by
  obtain ⟨l, hl⟩ := m
  obtain ⟨l', hl'⟩ := m'
  obtain rfl : l = l' := entries_eq_of_find? l l' hl hl' h
  rfl

/-- An entry is what lookup finds at its key. -/
theorem find?_eq_some_iff (m : OrdMap κ ν) (k : κ) (v : ν) : m.find? k = some v ↔ (k, v) ∈ m.entries := by
  obtain ⟨l, hl⟩ := m
  simp only [find?]
  induction l with
  | nil => simp
  | cons e rest ih =>
    obtain ⟨k', v'⟩ := e
    rw [List.map_cons, List.pairwise_cons] at hl
    rw [find?_cons_entries, List.mem_cons]
    by_cases hk : k' = k
    · subst hk
      -- the key occurs once, at the head
      have hnot : (k', v) ∉ rest := fun hmem => lt_irrefl _ (hl.1 k' (List.mem_map_of_mem hmem))
      rw [if_pos rfl, Option.some.injEq]
      constructor
      · rintro rfl
        exact .inl rfl
      · rintro (h | h)
        · exact (Prod.mk.inj h).2.symm
        · exact absurd h hnot
    · rw [if_neg hk, ih hl.2]
      constructor
      · exact .inr
      · rintro (h | h)
        · exact absurd (congrArg Prod.fst h).symm hk
        · exact h

/-- A key is a key of the map when lookup finds something at it. -/
theorem mem_keys_iff (m : OrdMap κ ν) (k : κ) : k ∈ m.keys ↔ (m.find? k).isSome := by
  simp only [keys, List.mem_map, Option.isSome_iff_exists, find?_eq_some_iff]
  constructor
  · rintro ⟨⟨k', v⟩, hmem, rfl⟩
    exact ⟨v, hmem⟩
  · rintro ⟨v, hmem⟩
    exact ⟨(k, v), hmem, rfl⟩

theorem mapValues_congr {f f' : ν → ν'} {m : OrdMap κ ν} (h : ∀ k v, m.find? k = some v → f v = f' v) :
    m.mapValues f = m.mapValues f' := by
  refine ext fun k => ?_
  rw [find?_mapValues, find?_mapValues]
  cases hk : m.find? k with
  | none => rfl
  | some v => simp [h k v hk]

/-! ### Simultaneous renaming -/

/-- Rename every key by `σ` at once; where two keys meet, the lesser one's value wins. -/
def rename (σ : κ → κ) (m : OrdMap κ ν) : OrdMap κ ν :=
  m.entries.foldr (fun e acc => acc.insert (σ e.1) e.2) ∅

/-- The value at `k` after renaming is that of the least key `σ` sends to `k`. -/
theorem find?_rename (σ : κ → κ) (m : OrdMap κ ν) (k : κ) :
    (m.rename σ).find? k = (m.entries.find? (σ ·.1 = k)).map Prod.snd := by
  unfold rename
  induction m.entries with
  | nil => rfl
  | cons e rest ih =>
    rw [List.foldr_cons, find?_insert, ih, List.find?_cons]
    by_cases h : σ e.1 = k
    · simp [h]
    · simp [h, Ne.symm h]

/-- The key a renaming map sends `k` to: its image, or `k` itself outside the domain. -/
def renameKey (idMap : OrdMap κ κ) (k : κ) : κ := (idMap.find? k).getD k

/-- A list of renamings that `renameSeq` applies as a simultaneous renaming: the sources
increase, every pair moves its key down or leaves it, no two pairs share a target, and a
target that no pair moves away is not a key of the map. -/
structure SeqSafe (ps : List (κ × κ)) (m : OrdMap κ ν) : Prop where
  sorted : (ps.map Prod.fst).Pairwise (· < ·)
  le : ∀ p ∈ ps, p.2 ≤ p.1
  injective : (ps.map Prod.snd).Pairwise (· ≠ ·)
  fresh : ∀ p ∈ ps, (∀ q ∈ ps, q.1 ≠ p.2) → m.find? p.2 = none

/-- What the simultaneous renaming by the pairs `ps` leaves at `k`. -/
def renameFind (ps : List (κ × κ)) (m : OrdMap κ ν) (k : κ) : Option ν :=
  match ps.find? (·.2 = k) with
  | some p => m.find? p.1
  | none => if ps.any (·.1 = k) then none else m.find? k

/-- One renaming step, as a map. -/
def renameStep (m : OrdMap κ ν) (p : κ × κ) : OrdMap κ ν :=
  match m.find? p.1 with
  | some v => (m.erase p.1).insert p.2 v
  | none => m

theorem renameSeq_cons_eq (p : κ × κ) (ps : List (κ × κ)) (m : OrdMap κ ν) :
    renameSeq (p :: ps) m = renameSeq ps (m.renameStep p) := rfl

theorem SeqSafe.step {p : κ × κ} {ps : List (κ × κ)} {m : OrdMap κ ν} (h : SeqSafe (p :: ps) m) :
    SeqSafe ps (m.renameStep p) := by
  obtain ⟨hsorted, hle, hinj, hfresh⟩ := h
  rw [List.map_cons, List.pairwise_cons] at hsorted hinj
  refine ⟨hsorted.2, fun q hq => hle q (.tail _ hq), hinj.2, ?_⟩
  intro q hq hfree
  have hq2 : q.2 ≠ p.2 := fun h => hinj.1 q.2 (List.mem_map_of_mem hq) h.symm
  rw [renameStep, find?_renameStep]
  by_cases hp : q.2 = p.1
  · cases hv : m.find? p.1 with
    | none => rw [hp, hv]
    | some v => simp [hp, hp ▸ hq2]
  · have hnone : m.find? q.2 = none := by
      apply hfresh q (.tail _ hq)
      intro r hr
      rcases List.mem_cons.1 hr with rfl | hr
      · exact Ne.symm hp
      · exact hfree r hr
    cases m.find? p.1 <;> simp [hq2, hp, hnone]

/-- One step of `renameSeq` keeps the simultaneous renaming of what is left. -/
theorem renameFind_step {p : κ × κ} {ps : List (κ × κ)} {m : OrdMap κ ν} (h : SeqSafe (p :: ps) m)
    (k : κ) : renameFind ps (m.renameStep p) k = renameFind (p :: ps) m k := by
  have hsorted := h.sorted
  rw [List.map_cons, List.pairwise_cons] at hsorted
  have hinj := h.injective
  rw [List.map_cons, List.pairwise_cons] at hinj
  have hle : p.2 ≤ p.1 := h.le p (.head _)
  -- every later source is above `p.1`, so above `p.2`
  have habove : ∀ q ∈ ps, p.1 < q.1 := fun q hq => hsorted.1 q.1 (List.mem_map_of_mem hq)
  by_cases hk2 : p.2 = k
  · subst hk2
    have hnone : ps.find? (·.2 = p.2) = none :=
      List.find?_eq_none.2 fun q hq hq2 => hinj.1 q.2 (List.mem_map_of_mem hq) (of_decide_eq_true hq2).symm
    have hany : ps.any (·.1 = p.2) = false :=
      List.any_eq_false.2 fun q hq hq1 => absurd (of_decide_eq_true hq1) (ne_of_gt (lt_of_le_of_lt hle (habove q hq)))
    simp only [renameFind, hnone, hany, List.find?_cons, decide_true, renameStep, find?_renameStep]
    cases hv : m.find? p.1 with
    | some v => simp
    | none =>
      have hp2 : m.find? p.2 = none := by
        by_cases heq : p.2 = p.1
        · rw [heq, hv]
        · apply h.fresh p (.head _)
          intro q hq
          rcases List.mem_cons.1 hq with rfl | hq
          · exact Ne.symm heq
          · exact ne_of_gt (lt_of_le_of_lt hle (habove q hq))
      simp [hp2]
  · have hfind : (p :: ps).find? (·.2 = k) = ps.find? (·.2 = k) := by simp [hk2]
    unfold renameFind
    rw [hfind]
    cases hq : ps.find? (·.2 = k) with
    | some q =>
      have hmem := List.mem_of_find?_eq_some hq
      have h1 : q.1 ≠ p.1 := ne_of_gt (habove q hmem)
      have h2 : q.1 ≠ p.2 := ne_of_gt (lt_of_le_of_lt hle (habove q hmem))
      simp only [renameStep, find?_renameStep]
      cases m.find? p.1 <;> simp [h1, h2]
    | none =>
      by_cases ha : ps.any (·.1 = k) = true
      · simp [ha]
      · have hany : (p :: ps).any (·.1 = k) = decide (p.1 = k) := by
          rw [List.any_cons, Bool.eq_false_iff.2 ha, Bool.or_false]
        rw [if_neg ha, hany]
        simp only [renameStep, find?_renameStep, Ne.symm hk2, if_false]
        by_cases hk1 : p.1 = k
        · subst hk1
          cases m.find? p.1 <;> simp
        · cases m.find? p.1 <;> simp [hk1, Ne.symm hk1]

/-- **Renaming one pair at a time is simultaneous on safe lists.** -/
theorem find?_renameSeq :
    ∀ (ps : List (κ × κ)) (m : OrdMap κ ν), SeqSafe ps m → ∀ k, (renameSeq ps m).find? k = renameFind ps m k
  | [], m, _, k => by simp [renameFind]
  | p :: ps, m, h, k => by
    rw [renameSeq_cons_eq, find?_renameSeq ps _ h.step k]
    exact renameFind_step h k

/-- The pairs of a renaming map in increasing order are safe to apply one at a time when the
map is injective, moves no key up, and sends no key to a free key that is taken in `m`. -/
theorem seqSafe_entries {idMap : OrdMap κ κ} {m : OrdMap κ ν}
    (hle : ∀ a b, idMap.find? a = some b → b ≤ a)
    (hinj : ∀ a a' b, idMap.find? a = some b → idMap.find? a' = some b → a = a')
    (hfresh : ∀ a b, idMap.find? a = some b → idMap.find? b = none → m.find? b = none) :
    SeqSafe idMap.entries m where
  sorted := idMap.sorted
  le := fun p hp => hle p.1 p.2 ((find?_eq_some_iff _ _ _).2 hp)
  injective := by
    have hkeys := idMap.sorted
    rw [List.pairwise_map] at hkeys ⊢
    refine hkeys.imp_of_mem fun {p q} hp hq hlt heq => ?_
    have := hinj p.1 q.1 p.2 ((find?_eq_some_iff _ _ _).2 hp) (heq ▸ (find?_eq_some_iff _ _ _).2 hq)
    exact ne_of_lt hlt this
  fresh := by
    intro p hp hfree
    apply hfresh p.1 p.2 ((find?_eq_some_iff _ _ _).2 hp)
    cases hb : idMap.find? p.2 with
    | none => rfl
    | some c => exact absurd rfl (hfree (p.2, c) ((find?_eq_some_iff _ _ _).1 hb))

/-- **`renameSeq` is the simultaneous renaming** for an injective renaming map, applied in
increasing key order, that moves no key up and whose targets outside its domain are free. -/
theorem renameSeq_eq_rename {idMap : OrdMap κ κ} {m : OrdMap κ ν}
    (hle : ∀ a b, idMap.find? a = some b → b ≤ a)
    (hinj : ∀ a a' b, idMap.find? a = some b → idMap.find? a' = some b → a = a')
    (hfresh : ∀ a b, idMap.find? a = some b → idMap.find? b = none → m.find? b = none) :
    renameSeq idMap.entries m = m.rename (renameKey idMap) := by
  refine ext fun k => ?_
  rw [find?_renameSeq _ _ (seqSafe_entries hle hinj hfresh), find?_rename, renameFind]
  cases hq : idMap.entries.find? (·.2 = k) with
  | some q =>
    -- the one key renamed to `k` is `q.1`
    have hq1 : idMap.find? q.1 = some k := by
      have hk : q.2 = k := by simpa using List.find?_some hq
      rw [← hk]
      exact (find?_eq_some_iff _ _ _).2 (List.mem_of_find?_eq_some hq)
    have hpred : ∀ e ∈ m.entries, decide (renameKey idMap e.1 = k) = decide (e.1 = q.1) := by
      intro e he
      simp only [renameKey]
      apply decide_eq_decide.2
      constructor
      · intro hek
        cases he1 : idMap.find? e.1 with
        | some b =>
          rw [he1, Option.getD_some] at hek
          subst hek
          exact hinj _ _ _ he1 hq1
        | none =>
          rw [he1, Option.getD_none] at hek
          subst hek
          have := hfresh q.1 e.1 hq1 he1
          rw [(find?_eq_some_iff _ _ _).2 he] at this
          cases this
      · intro he1
        rw [he1, hq1, Option.getD_some]
    rw [List.find?_congr hpred]
    rfl
  | none =>
    have hnot : ∀ a, idMap.find? a ≠ some k := fun a ha =>
      List.find?_eq_none.1 hq (a, k) ((find?_eq_some_iff _ _ _).1 ha) (by simp)
    have hpred : ∀ e ∈ m.entries,
        decide (renameKey idMap e.1 = k) = (decide (e.1 = k) && (idMap.find? e.1).isNone) := by
      intro e he
      cases he1 : idMap.find? e.1 with
      | some b =>
        have hb : b ≠ k := fun hbk => hnot e.1 (hbk ▸ he1)
        simp [renameKey, he1, hb]
      | none => simp [renameKey, he1]
    rw [List.find?_congr hpred]
    by_cases ha : idMap.entries.any (·.1 = k) = true
    · obtain ⟨p, hp, hpk⟩ := List.any_eq_true.1 ha
      have hk : idMap.find? k = some p.2 := by
        rw [← of_decide_eq_true hpk]
        exact (find?_eq_some_iff _ _ _).2 hp
      rw [if_pos ha, eq_comm, Option.map_eq_none_iff, List.find?_eq_none]
      intro e _ he
      simp only [Bool.and_eq_true, decide_eq_true_eq, Option.isNone_iff_eq_none] at he
      rw [he.1, hk] at he
      cases he.2
    · rw [if_neg ha]
      have hdom : idMap.find? k = none := by
        cases hk : idMap.find? k with
        | none => rfl
        | some b => exact absurd (List.any_eq_true.2 ⟨(k, b), (find?_eq_some_iff _ _ _).1 hk, by simp⟩) ha
      have hpred' : ∀ e ∈ m.entries, (decide (e.1 = k) && (idMap.find? e.1).isNone) = decide (e.1 = k) := by
        intro e _
        by_cases he : e.1 = k
        · simp [he, hdom]
        · simp [he]
      rw [List.find?_congr hpred']
      rfl

/-! ### Sizes and splitting -/

theorem keys_nodup (m : OrdMap κ ν) : m.keys.Nodup := m.sorted.imp ne_of_lt

theorem length_insertList (k : κ) (v : ν) :
    ∀ l : List (κ × ν), (l.map Prod.fst).Pairwise (· < ·) →
      (insertList k v l).length = if k ∈ l.map Prod.fst then l.length else l.length + 1 := by
  intro l
  induction l with
  | nil => intro _; simp [insertList]
  | cons e rest ih =>
    obtain ⟨k', v'⟩ := e
    intro hs
    rw [List.map_cons, List.pairwise_cons] at hs
    by_cases hlt : k < k'
    · -- `k` is below every key, so absent
      have hnot : k ∉ ((k', v') :: rest).map Prod.fst := by
        rw [List.map_cons, List.mem_cons, not_or]
        exact ⟨ne_of_lt hlt, fun hmem => lt_asymm hlt (hs.1 k hmem)⟩
      rw [insertList, if_pos hlt, if_neg hnot]
      rfl
    · by_cases heq : k = k'
      · subst heq
        simp [insertList]
      · rw [insertList, if_neg hlt, if_neg heq, List.length_cons, ih hs.2]
        simp only [List.map_cons, List.mem_cons, heq, false_or, List.length_cons]
        split_ifs <;> rfl

/-- Inserting adds an entry unless the key is there. -/
theorem length_keys_insert (m : OrdMap κ ν) (k : κ) (v : ν) :
    (m.insert k v).keys.length = if k ∈ m.keys then m.keys.length else m.keys.length + 1 := by
  simp only [keys, insert, List.length_map]
  exact length_insertList k v m.entries m.sorted

theorem length_eraseList (k : κ) :
    ∀ l : List (κ × ν), (eraseList k l).length = if k ∈ l.map Prod.fst then l.length - 1 else l.length := by
  intro l
  induction l with
  | nil => simp [eraseList]
  | cons e rest ih =>
    obtain ⟨k', v'⟩ := e
    by_cases heq : k' = k
    · subst heq
      simp [eraseList]
    · rw [eraseList, if_neg heq, List.length_cons, ih]
      simp only [List.map_cons, List.mem_cons, Ne.symm heq, false_or, List.length_cons]
      split_ifs with hmem
      · have := List.length_pos_of_mem hmem
        rw [List.length_map] at this
        omega
      · rfl

/-- Erasing removes the entry of the key, if there is one. -/
theorem length_keys_erase (m : OrdMap κ ν) (k : κ) :
    (m.erase k).keys.length = if k ∈ m.keys then m.keys.length - 1 else m.keys.length := by
  simp only [keys, erase, List.length_map]
  exact length_eraseList k m.entries

theorem find?_filter_fst (p : κ → Prop) [DecidablePred p] (j : κ) :
    ∀ l : List (κ × ν), ((l.filter (fun e => p e.1)).find? (·.1 = j)).map Prod.snd =
      if p j then (l.find? (·.1 = j)).map Prod.snd else none := by
  intro l
  rw [List.find?_filter]
  split_ifs with hp
  · -- below the split both tests agree
    congr 2
    funext e
    by_cases he : e.1 = j <;> simp [he, hp]
  · rw [List.find?_eq_none.2 fun e _ => by by_cases he : e.1 = j <;> simp [he, hp]]
    rfl

@[simp] theorem find?_splitOff_fst (m : OrdMap κ ν) (k j : κ) :
    (m.splitOff k).1.find? j = if j < k then m.find? j else none :=
  find?_filter_fst (· < k) j m.entries

@[simp] theorem find?_splitOff_snd (m : OrdMap κ ν) (k j : κ) :
    (m.splitOff k).2.find? j = if j < k then none else m.find? j := by
  have h := find?_filter_fst (fun a => ¬ a < k) j m.entries
  simp only [find?, splitOff] at h ⊢
  rw [h]
  split_ifs <;> rfl

/-- The two parts of a split share out the entries. -/
theorem length_keys_splitOff (m : OrdMap κ ν) (k : κ) :
    (m.splitOff k).1.keys.length + (m.splitOff k).2.keys.length = m.keys.length := by
  have h : m.entries.length = _ := List.length_eq_countP_add_countP fun e : κ × ν => decide (e.1 < k)
  simpa [keys, splitOff, List.countP_eq_length_filter] using h.symm

theorem mem_values_iff (m : OrdMap κ ν) (v : ν) : v ∈ m.values ↔ ∃ k, m.find? k = some v := by
  simp only [values, List.mem_map, find?_eq_some_iff]
  constructor
  · rintro ⟨⟨k, v'⟩, hmem, rfl⟩
    exact ⟨k, hmem⟩
  · rintro ⟨k, hmem⟩
    exact ⟨(k, v), hmem, rfl⟩

theorem length_values (m : OrdMap κ ν) : m.values.length = m.keys.length := by
  simp [values, keys]

end OrdMap
