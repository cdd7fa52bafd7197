import Mathlib

/-!
# Tries whose single-key subtrees are leaves

A map from keys to values, stored as a tree that reads one digit of a key per
level. A branch has a subtree for each value of the digit of its depth; a
subtree that holds a single key is a leaf with that key, at the depth where its
key parts from every other key. Keys have `L` digits, and keys of `P` with the
same `L` digits are equal (`DigitsDetermine`). `insert` replaces the leaf or the
empty subtree it reaches; at a leaf with another key it builds a branch for each
digit the two keys share and a branch where they part (`fork`).

After `insert k v`, `lookup` answers `v` at `k` and what it answered before at
every other key, in a trie whose branches sort their leaves by digit
(`WellFormed`) and whose keys are in `P` (`lookup_insert`); `insert` keeps both
(`wellFormed_insert`, `allLeaves_insert`), so the map laws hold along any
sequence of insertions.
-/

/-- A trie read one digit of a key per level, whose subtrees with a single key
are leaves. -/
inductive RadixTrie (α K V : Type*) where
  /-- No key. -/
  | empty
  /-- A single key, with its value. -/
  | leaf (key : K) (value : V)
  /-- A subtree for each value of the next digit. -/
  | branch (children : α → RadixTrie α K V)

namespace RadixTrie

variable {α K V : Type*} [DecidableEq α] [DecidableEq K] (digit : K → ℕ → α) (L : ℕ)

/-- The value of `key` in the subtree at depth `d`: the digits of `key` from
`d` on lead to a leaf, which holds the key or another one. -/
def lookup (key : K) : RadixTrie α K V → ℕ → Option V
  | empty, _ => none
  | leaf k v, _ => if k = key then some v else none
  | branch c, d => lookup key (c (digit key d)) (d + 1)

/-- A branch with the one subtree `t`, at digit `a`. -/
def single (a : α) (t : RadixTrie α K V) : RadixTrie α K V :=
  branch (Function.update (fun _ => empty) a t)

/-- A branch with the subtree `t` at digit `a` and `u` at digit `b`. -/
def pair (a : α) (t : RadixTrie α K V) (b : α) (u : RadixTrie α K V) : RadixTrie α K V :=
  branch (Function.update (Function.update (fun _ => empty) a t) b u)

/-- Branches with a single subtree along the digits `p`, above `t`. -/
def chain : List α → RadixTrie α K V → RadixTrie α K V
  | [], t => t
  | a :: p, t => single a (chain p t)

/-- How many digits from `d` on, at most `n`, the keys `k` and `k'` share
before they part. -/
def agreeLen (k k' : K) : ℕ → ℕ → ℕ
  | _, 0 => 0
  | d, n + 1 => if digit k d = digit k' d then agreeLen k k' (d + 1) n + 1 else 0

/-- The subtree at depth `d` that holds `t`, the leaf of `k'`, and a new leaf
for `k`: a branch for each digit the two keys share from `d` on, then a branch
where they part. -/
def fork (d : ℕ) (k' : K) (t : RadixTrie α K V) (k : K) (v : V) : RadixTrie α K V :=
  let c := agreeLen digit k k' d (L - d)
  chain ((List.range c).map fun j => digit k (d + j)) (pair (digit k' (d + c)) t (digit k (d + c)) (leaf k v))

/-- `insert key value` into the subtree at depth `d`. -/
def insert (key : K) (value : V) : RadixTrie α K V → ℕ → RadixTrie α K V
  | empty, _ => leaf key value
  | leaf k v, d => if k = key then leaf key value else fork digit L d k (leaf k v) key value
  | branch c, d => branch (Function.update c (digit key d) (insert key value (c (digit key d)) (d + 1)))

/-- The trie is a single key. -/
def isLeaf : RadixTrie α K V → Bool
  | leaf _ _ => true
  | _ => false

/-- Every key at a leaf of the trie satisfies `P`. -/
def AllLeaves (P : K → Prop) : RadixTrie α K V → Prop
  | empty => True
  | leaf k _ => P k
  | branch c => ∀ a, AllLeaves P (c a)

/-- The subtree at depth `d` is well formed: it branches only above depth `L`,
and under a branch at depth `d` the leaves below digit `a` have digit `d`
equal to `a`. -/
def WellFormed : RadixTrie α K V → ℕ → Prop
  | empty, _ => True
  | leaf _ _, _ => True
  | branch c, d => d < L ∧ ∀ a, AllLeaves (fun k => digit k d = a) (c a) ∧ WellFormed (c a) (d + 1)

/-- The leaves of the trie share the first `d` digits of `key`: what a subtree
at depth `d` on the path of `key` satisfies. -/
def Agrees (key : K) (d : ℕ) (t : RadixTrie α K V) : Prop :=
  AllLeaves (fun k => ∀ j < d, digit k j = digit key j) t

/-- Keys of `P` with the same first `L` digits are equal. -/
def DigitsDetermine (P : K → Prop) : Prop := ∀ k k' : K, P k → P k' → (∀ j < L, digit k j = digit k' j) → k = k'

/-! ## Leaves -/

section Leaves

variable {P Q : K → Prop}

omit [DecidableEq α] [DecidableEq K] in
@[simp] theorem allLeaves_empty : AllLeaves P (empty : RadixTrie α K V) := trivial

omit [DecidableEq α] [DecidableEq K] in
@[simp] theorem allLeaves_leaf {k : K} {v : V} : AllLeaves P (leaf k v : RadixTrie α K V) ↔ P k := Iff.rfl

omit [DecidableEq α] [DecidableEq K] in
theorem AllLeaves.mono (hPQ : ∀ k, P k → Q k) : ∀ {t : RadixTrie α K V}, AllLeaves P t → AllLeaves Q t
  | empty, _ => trivial
  | leaf k _, h => hPQ k h
  | branch _, h => fun a => AllLeaves.mono hPQ (h a)

omit [DecidableEq α] [DecidableEq K] in
theorem AllLeaves.and : ∀ {t : RadixTrie α K V}, AllLeaves P t → AllLeaves Q t → AllLeaves (fun k => P k ∧ Q k) t
  | empty, _, _ => trivial
  | leaf _ _, hP, hQ => ⟨hP, hQ⟩
  | branch _, hP, hQ => fun a => AllLeaves.and (hP a) (hQ a)

omit [DecidableEq K] in
@[simp] theorem allLeaves_single {a : α} {t : RadixTrie α K V} : AllLeaves P (single a t) ↔ AllLeaves P t := by
  constructor
  · intro h
    simpa using h a
  · intro h b
    by_cases hb : b = a
    · subst hb
      simpa using h
    · simp [Function.update_of_ne hb]

omit [DecidableEq K] in
@[simp] theorem allLeaves_pair {a b : α} {t u : RadixTrie α K V} (hab : a ≠ b) :
    AllLeaves P (pair a t b u) ↔ AllLeaves P t ∧ AllLeaves P u := by
  constructor
  · intro h
    have ht := h a
    have hu := h b
    rw [Function.update_of_ne hab, Function.update_self] at ht
    rw [Function.update_self] at hu
    exact ⟨ht, hu⟩
  · rintro ⟨ht, hu⟩ c
    by_cases hcb : c = b
    · subst hcb
      simpa using hu
    · rw [Function.update_of_ne hcb]
      by_cases hca : c = a
      · subst hca
        simpa using ht
      · simp [Function.update_of_ne hca]

omit [DecidableEq K] in
theorem allLeaves_chain {p : List α} {t : RadixTrie α K V} : AllLeaves P (chain p t) ↔ AllLeaves P t := by
  induction p with
  | nil => rfl
  | cons a p ih => rw [chain, allLeaves_single, ih]

end Leaves

/-! ## The builders -/

section Builders

omit [DecidableEq K] in
theorem chain_append (p q : List α) (t : RadixTrie α K V) : chain (p ++ q) t = chain p (chain q t) := by
  induction p with
  | nil => rfl
  | cons a p ih => rw [List.cons_append, chain, chain, ih]

omit [DecidableEq K] in
theorem chain_pair_ne_empty (p : List α) (a : α) (t : RadixTrie α K V) (b : α) (u : RadixTrie α K V) :
    chain p (pair a t b u) ≠ empty := by
  cases p <;> intro h <;> cases h

/-- `insert` never leaves a subtree empty. -/
theorem insert_ne_empty (key : K) (value : V) (t : RadixTrie α K V) (d : ℕ) : insert digit L key value t d ≠ empty := by
  cases t with
  | empty => intro h; cases h
  | leaf k v =>
    rw [insert]
    split_ifs
    · intro h; cases h
    · exact chain_pair_ne_empty _ _ _ _ _
  | branch c => intro h; cases h

end Builders

/-! ## Looking up through the builders -/

section Lookup

variable {key : K} {d : ℕ}

theorem lookup_single (a : α) (t : RadixTrie α K V) :
    lookup digit key (single a t) d = if digit key d = a then lookup digit key t (d + 1) else none := by
  rw [single, lookup]
  split_ifs with h
  · rw [h, Function.update_self]
  · rw [Function.update_of_ne h, lookup]

theorem lookup_pair {a b : α} (hab : a ≠ b) (t u : RadixTrie α K V) :
    lookup digit key (pair a t b u) d =
      if digit key d = a then lookup digit key t (d + 1)
      else if digit key d = b then lookup digit key u (d + 1) else none := by
  rw [pair, lookup]
  split_ifs with ha hb
  · rw [ha, Function.update_of_ne hab, Function.update_self]
  · rw [hb, Function.update_self]
  · rw [Function.update_of_ne hb, Function.update_of_ne ha, lookup]

/-- A chain is followed exactly by the keys that read its digits. -/
theorem lookup_chain (p : List α) (t : RadixTrie α K V) :
    lookup digit key (chain p t) d =
      if ∀ j < p.length, digit key (d + j) = p[j]? then lookup digit key t (d + p.length) else none := by
  induction p generalizing d with
  | nil => simp [chain]
  | cons a p ih =>
    rw [chain, lookup_single, ih]
    -- the first digit, then the others one level down
    by_cases ha : digit key d = a
    · rw [if_pos ha]
      have hiff : (∀ j < p.length, digit key (d + 1 + j) = p[j]?) ↔
          ∀ j < (a :: p).length, digit key (d + j) = (a :: p)[j]? := by
        constructor
        · intro h j hj
          cases j with
          | zero => simpa using ha
          | succ j =>
            rw [List.getElem?_cons_succ, show d + (j + 1) = d + 1 + j by omega]
            exact h j (by simpa using hj)
        · intro h j hj
          have := h (j + 1) (by simpa using hj)
          rwa [List.getElem?_cons_succ, show d + (j + 1) = d + 1 + j by omega] at this
      simp only [hiff, List.length_cons, show d + 1 + p.length = d + (p.length + 1) by omega]
    · rw [if_neg ha, if_neg]
      intro h
      exact ha (by simpa using h 0 (by simp))

/-- A chain along the digits of `k` from `d` on is followed by the keys that
share those digits. -/
theorem lookup_chain_digits (k : K) (n : ℕ) (t : RadixTrie α K V) :
    lookup digit key (chain ((List.range n).map fun j => digit k (d + j)) t) d =
      if ∀ j < n, digit key (d + j) = digit k (d + j) then lookup digit key t (d + n) else none := by
  rw [lookup_chain, List.length_map, List.length_range]
  have hiff : (∀ j < n, (digit key (d + j) : Option α) = ((List.range n).map fun j => digit k (d + j))[j]?) ↔
      ∀ j < n, digit key (d + j) = digit k (d + j) :=
    forall₂_congr fun j hj => by simp [hj]
  simp only [hiff]

end Lookup

/-! ## Where two keys part -/

section AgreeLen

variable {k k' : K}

omit [DecidableEq K] in
/-- `agreeLen` counts the digits the keys share, and they differ at the next
one unless the count reached its bound. -/
theorem agreeLen_spec : ∀ n d, agreeLen digit k k' d n ≤ n ∧
    (∀ j < agreeLen digit k k' d n, digit k (d + j) = digit k' (d + j)) ∧
    (agreeLen digit k k' d n < n → digit k (d + agreeLen digit k k' d n) ≠ digit k' (d + agreeLen digit k k' d n))
  | 0, d => ⟨le_rfl, fun j hj => absurd hj (Nat.not_lt_zero j), fun h => absurd h (lt_irrefl 0)⟩
  | n + 1, d => by
    obtain ⟨hle, hshared, hpart⟩ := agreeLen_spec n (d + 1)
    rw [agreeLen]
    split_ifs with h
    · refine ⟨by omega, fun j hj => ?_, fun hlt => ?_⟩
      · cases j with
        | zero => simpa using h
        | succ j =>
          have := hshared j (by omega)
          rwa [show d + 1 + j = d + (j + 1) by omega] at this
      · have := hpart (by omega)
        rwa [show d + 1 + agreeLen digit k k' (d + 1) n = d + (agreeLen digit k k' (d + 1) n + 1) by omega] at this
    · exact ⟨Nat.zero_le _, fun j hj => absurd hj (Nat.not_lt_zero j), fun _ => by simpa using h⟩

omit [DecidableEq K] in
/-- `agreeLen` is the one count with the properties of `agreeLen_spec`. -/
theorem eq_agreeLen {n d c : ℕ} (hc : c ≤ n) (hshared : ∀ j < c, digit k (d + j) = digit k' (d + j))
    (hpart : c < n → digit k (d + c) ≠ digit k' (d + c)) : c = agreeLen digit k k' d n := by
  obtain ⟨hle, hshared', hpart'⟩ := @agreeLen_spec _ _ _ digit k k' n d
  rcases lt_trichotomy c (agreeLen digit k k' d n) with hlt | heq | hgt
  · exact absurd (hshared' c hlt) (hpart (by omega))
  · exact heq
  · exact absurd (hshared _ hgt) (hpart' (by omega))

omit [DecidableEq K] in
/-- Two keys that share their first `d` digits but differ part before digit
`L`: at the end of `agreeLen` their digits differ. -/
theorem agreeLen_lt_of_ne {P : K → Prop} (hdet : DigitsDetermine digit L P) (hk : P k) (hk' : P k') (hne : k ≠ k')
    {d : ℕ} (hd : d ≤ L)
    (hbelow : ∀ j < d, digit k j = digit k' j) :
    agreeLen digit k k' d (L - d) < L - d ∧
      digit k (d + agreeLen digit k k' d (L - d)) ≠ digit k' (d + agreeLen digit k k' d (L - d)) := by
  obtain ⟨hle, hshared, hpart⟩ := @agreeLen_spec _ _ _ digit k k' (L - d) d
  have hlt : agreeLen digit k k' d (L - d) < L - d := by
    refine lt_of_le_of_ne hle fun heq => hne (hdet k k' hk hk' fun j hj => ?_)
    -- all `L` digits agree: those below `d`, and the ones `agreeLen` counted
    by_cases hjd : j < d
    · exact hbelow j hjd
    · have := hshared (j - d) (by omega)
      rwa [show d + (j - d) = j by omega] at this
  exact ⟨hlt, hpart hlt⟩

end AgreeLen

/-! ## Inserting -/

section Insert

variable {key : K} {value : V}

omit [DecidableEq α] [DecidableEq K] in
/-- The subtree of a branch on the path of `key`, whose leaves read its digit,
agrees with `key` one level down. -/
theorem agrees_child {c : α → RadixTrie α K V} {d : ℕ} (hagree : Agrees digit key d (branch c))
    (hdigit : AllLeaves (fun k => digit k d = digit key d) (c (digit key d))) :
    Agrees digit key (d + 1) (c (digit key d)) := by
  refine (hdigit.and (hagree (digit key d))).mono fun k hk j hj => ?_
  rcases Nat.lt_succ_iff_lt_or_eq.1 hj with hj | rfl
  · exact hk.2 j hj
  · exact hk.1

/-- **The fork holds both keys**: a key reaches the old leaf exactly when it is
the old leaf's key, and the new leaf when it is the new key. -/
theorem lookup_fork {P : K → Prop} (hdet : DigitsDetermine digit L P) (hkey : P key) {k' : K} {v' : V} (hk' : P k')
    (hne : k' ≠ key) {d : ℕ} (hd : d ≤ L)
    (hbelow : ∀ j < d, digit key j = digit k' j) (q : K) :
    lookup digit q (fork digit L d k' (leaf k' v') key value) d =
      if key = q then some value else if k' = q then some v' else none := by
  obtain ⟨hlt, hpart⟩ := agreeLen_lt_of_ne digit L hdet hkey hk' (Ne.symm hne) hd hbelow
  obtain ⟨-, hshared, -⟩ := @agreeLen_spec _ _ _ digit key k' (L - d) d
  set c := agreeLen digit key k' d (L - d) with hc
  rw [fork, ← hc, lookup_chain_digits, lookup_pair digit (Ne.symm hpart)]
  by_cases hq : key = q
  · -- the new key reads the chain, its own digits, and parts to its own leaf
    subst hq
    simp [lookup, hpart]
  · by_cases hq' : k' = q
    · -- the old key reads the same chain, and parts to its leaf
      subst hq'
      rw [if_pos fun j hj => (hshared j hj).symm]
      simp [lookup, hq]
    · -- any other key ends at no leaf of its own
      simp [lookup, hq, hq']

/-- **`insert` is a map update**: in a well-formed subtree whose leaves share
the digits of `key` above it, after `insert key value` a lookup answers
`value` at `key` and what it answered before at every other key. -/
theorem lookup_insert {P : K → Prop} (hdet : DigitsDetermine digit L P) (hkey : P key) :
    ∀ {t : RadixTrie α K V} {d : ℕ}, WellFormed digit L t d → AllLeaves P t → Agrees digit key d t → d ≤ L → ∀ q,
      lookup digit q (insert digit L key value t d) d = if key = q then some value else lookup digit q t d
  | empty, d, _, _, _, _, q => by
    rw [insert, lookup, lookup]
  | leaf k v, d, _, hP, hagree, hd, q => by
    rw [insert]
    split_ifs with hk hq hq
    · rw [lookup, if_pos hq]
    · rw [lookup, if_neg hq, lookup, hk, if_neg hq]
    · rw [lookup_fork digit L hdet hkey hP hk hd (fun j hj => (hagree j hj).symm), if_pos hq]
    · rw [lookup_fork digit L hdet hkey hP hk hd (fun j hj => (hagree j hj).symm), if_neg hq, lookup]
  | branch c, d, hwf, hP, hagree, hd, q => by
    obtain ⟨hdL, hchildren⟩ := hwf
    rw [insert, lookup, lookup]
    by_cases hq : digit q d = digit key d
    · -- the key's own subtree: it lies one level down on the key's path
      rw [hq, Function.update_self]
      have hagree' := agrees_child digit hagree (hchildren (digit key d)).1
      exact lookup_insert hdet hkey (hchildren _).2 (hP _) hagree' (by omega) q
    · -- another subtree: untouched, and `q` is not the key
      rw [Function.update_of_ne hq, if_neg fun hkq => hq (by rw [hkq])]

/-- `insert` leaves only keys that were there, and `key`. -/
theorem allLeaves_insert {P : K → Prop} (hkey : P key) :
    ∀ {t : RadixTrie α K V} {d : ℕ}, AllLeaves P t → AllLeaves P (insert digit L key value t d)
  | empty, _, _ => by
    rw [insert, AllLeaves]
    exact hkey
  | leaf k v, d, hk => by
    rw [insert]
    split_ifs
    · exact hkey
    · rw [fork, allLeaves_chain]
      intro a
      -- the two leaves of the final branch; every other digit is empty
      by_cases ha : a = digit key (d + agreeLen digit key k d (L - d))
      · subst ha
        simpa using hkey
      · rw [Function.update_of_ne ha]
        by_cases ha' : a = digit k (d + agreeLen digit key k d (L - d))
        · subst ha'
          simpa using hk
        · simp [Function.update_of_ne ha']
  | branch c, d, hc => by
    rw [insert]
    intro a
    by_cases ha : a = digit key d
    · subst ha
      rw [Function.update_self]
      exact allLeaves_insert hkey (hc _)
    · rw [Function.update_of_ne ha]
      exact hc a

omit [DecidableEq K] in
/-- A chain of single branches along the digits of `k` from `d`, above a
subtree that is well formed one level below them, is well formed. -/
theorem wellFormed_chain {k : K} {t : RadixTrie α K V} :
    ∀ (n d : ℕ), d + n ≤ L → AllLeaves (fun k' => ∀ j < n, digit k' (d + j) = digit k (d + j)) t →
      WellFormed digit L t (d + n) → WellFormed digit L (chain ((List.range n).map fun j => digit k (d + j)) t) d
  | 0, d, _, _, ht => by
    rw [List.range_zero, List.map_nil, chain]
    simpa using ht
  | n + 1, d, hn, hleaves, ht => by
    rw [List.range_succ_eq_map, List.map_cons, List.map_map, chain, Nat.add_zero]
    have hshift : (fun j => digit k (d + j)) ∘ Nat.succ = fun j => digit k (d + 1 + j) := by
      funext j
      simp only [Function.comp, show d + (j + 1) = d + 1 + j by omega]
    rw [hshift]
    refine ⟨by omega, fun a => ⟨?_, ?_⟩⟩
    · -- the leaves below read the digit of the chain
      by_cases ha : a = digit k d
      · subst ha
        rw [Function.update_self, allLeaves_chain]
        exact hleaves.mono fun k' hk' => hk' 0 (by omega)
      · simp [Function.update_of_ne ha]
    · by_cases ha : a = digit k d
      · subst ha
        rw [Function.update_self]
        refine wellFormed_chain n (d + 1) (by omega) (hleaves.mono fun k' hk' j hj => ?_) ?_
        · have := hk' (j + 1) (by omega)
          rwa [show d + (j + 1) = d + 1 + j by omega] at this
        · rwa [show d + 1 + n = d + (n + 1) by omega]
      · simp [Function.update_of_ne ha, WellFormed]

/-- **`insert` keeps a subtree well formed**, where the key agrees with its
leaves above it. -/
theorem wellFormed_insert {P : K → Prop} (hdet : DigitsDetermine digit L P) (hkey : P key) :
    ∀ {t : RadixTrie α K V} {d : ℕ}, WellFormed digit L t d → AllLeaves P t → Agrees digit key d t → d ≤ L →
      WellFormed digit L (insert digit L key value t d) d
  | empty, _, _, _, _, _ => trivial
  | leaf k v, d, _, hP, hagree, hd => by
    rw [insert]
    split_ifs with hk
    · trivial
    obtain ⟨hlt, hpart⟩ := agreeLen_lt_of_ne digit L hdet hkey hP (Ne.symm hk) hd fun j hj => (hagree j hj).symm
    obtain ⟨-, hshared, -⟩ := @agreeLen_spec _ _ _ digit key k (L - d) d
    set c := agreeLen digit key k d (L - d) with hc
    rw [fork, ← hc]
    -- the chain above the branch where the keys part
    refine wellFormed_chain digit L c d (by omega) ?_ ⟨by omega, fun a => ⟨?_, ?_⟩⟩
    · rw [allLeaves_pair (Ne.symm hpart)]
      exact ⟨fun j hj => (hshared j hj).symm, fun j _ => rfl⟩
    · by_cases ha : a = digit key (d + c)
      · subst ha
        rw [Function.update_self]
        rfl
      · rw [Function.update_of_ne ha]
        by_cases ha' : a = digit k (d + c)
        · subst ha'
          rw [Function.update_self]
          rfl
        · simp [Function.update_of_ne ha']
    · by_cases ha : a = digit key (d + c)
      · subst ha
        rw [Function.update_self]
        trivial
      · rw [Function.update_of_ne ha]
        by_cases ha' : a = digit k (d + c)
        · subst ha'
          rw [Function.update_self]
          trivial
        · simp [Function.update_of_ne ha', WellFormed]
  | branch c, d, hwf, hP, hagree, hd => by
    obtain ⟨hdL, hchildren⟩ := hwf
    rw [insert]
    refine ⟨hdL, fun a => ?_⟩
    by_cases ha : a = digit key d
    · subst ha
      rw [Function.update_self]
      have hagree' := agrees_child digit hagree (hchildren (digit key d)).1
      exact ⟨allLeaves_insert digit L (P := fun k => digit k d = digit key d) rfl (hchildren _).1,
        wellFormed_insert hdet hkey (hchildren _).2 (hP _) hagree' (by omega)⟩
    · rw [Function.update_of_ne ha]
      exact hchildren a

end Insert

/-! ## Runs of insertions -/

section Writes

/-- **A run of insertions is a run of map updates**: from the root of a
well-formed trie, `lookup` after inserting the writes in order answers what
the function updated by the same writes answers. The induction is on the
writes; each step is `lookup_insert`, and `wellFormed_insert` keeps the trie
well formed for the next one. -/
theorem lookup_foldl_insert {P : K → Prop} (hdet : DigitsDetermine digit L P) :
    ∀ (writes : List (K × V)) {t : RadixTrie α K V}, WellFormed digit L t 0 → AllLeaves P t → (∀ w ∈ writes, P w.1) →
      ∀ q : K, lookup digit q (writes.foldl (fun t w => insert digit L w.1 w.2 t 0) t) 0 =
        writes.foldl (fun (m : K → Option V) w => Function.update m w.1 (some w.2)) (fun q => lookup digit q t 0) q
  | [], _, _, _, _, _ => rfl
  | (k, v) :: writes, t, hwf, hP, hkeys, q => by
    have hk : P k := hkeys (k, v) List.mem_cons_self
    have hagree : Agrees digit k 0 t := hP.mono fun _ _ j hj => absurd hj (Nat.not_lt_zero j)
    -- the first write, as an update of the map
    have hfirst : (fun q => lookup digit q (insert digit L k v t 0) 0) = Function.update (fun q => lookup digit q t 0) k (some v) := by
      funext q'
      rw [lookup_insert digit L hdet hk hwf hP hagree (Nat.zero_le L) q', Function.update_apply]
      simp only [eq_comm]
    rw [List.foldl_cons, List.foldl_cons]
    rw [lookup_foldl_insert hdet writes (wellFormed_insert digit L hdet hk hwf hP hagree (Nat.zero_le L))
      (allLeaves_insert digit L hk hP) (fun w hw => hkeys w (List.mem_cons_of_mem _ hw)) q]
    exact congrArg (fun m => writes.foldl (fun (m : K → Option V) w => Function.update m w.1 (some w.2)) m q) hfirst

end Writes

end RadixTrie
