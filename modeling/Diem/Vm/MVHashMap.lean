import Mathlib.Data.List.AList
import Diem.Theory.OrdMap

/-!
# The multi-version hash map

`language/diem-vm/mvhashmap/src/lib.rs`: the placeholders the parallel executor
writes transaction outputs into. Before execution, each possible write of the
block (a key and the version of the transaction that may write it) becomes one
write-once cell. During execution the transaction at version `i` reads a key at
the highest version below `i` whose cell is not skipped, or learns which lower
version it has to wait for.

The `HashMap` is an `AList` and each `BTreeMap` an `OrdMap`. Rust mutates the
cells through shared references (`OnceCell`); here `write` and `skipIfNotSet`
return the new map, and a cell set twice is the failed `assert!` of
`WriteCell::write`, a `none`. `new_from_parallel` splits the writes at a pivot
key and merges the halves' maps, so it builds the map of `new_from` and is
modelled by `newFrom`. The largest number of versions of one key, which the
executor divides by, is positive whenever there is a write (`newFrom_snd_pos`).
-/

namespace Diem.Vm

/-- `Version`: the index of a transaction in its block. -/
abbrev Version := ℕ

/-- `WriteCell`, a `OnceCell<Option<V>>`: not yet set, set to `None` (the
transaction did not write the key after all), or set to a value. -/
inductive WriteCell (V : Type) where
  | unassigned
  | skipped
  | written (v : V)
  deriving DecidableEq, Repr

namespace WriteCell

variable {V : Type}

/-- `is_assigned`. -/
def isAssigned : WriteCell V → Bool
  | unassigned => false
  | _ => true

/-- `write`: `none` when the cell is already set (the `assert!`). -/
def write (cell : WriteCell V) (v : V) : Option (WriteCell V) :=
  if cell.isAssigned then none else some (written v)

/-- `skip`: `none` when the cell is already set (the `assert!`). -/
def skip (cell : WriteCell V) : Option (WriteCell V) :=
  if cell.isAssigned then none else some skipped

end WriteCell

/-- `MVHashMap`: the cells of each key, by version. -/
structure MVHashMap (K V : Type) where
  /-- The trees of cells. -/
  data : AList (fun _ : K => OrdMap Version (WriteCell V))

namespace MVHashMap

/-- `mvhashmap::Error`. -/
inductive Error where
  /-- A write to an entry that is not in the possible writes. -/
  | UnexpectedWrite
  /-- A query that matches no entry. -/
  | NotInMap
  deriving DecidableEq, Repr

variable {K V : Type} [DecidableEq K]

/-- One round of the loop of `new_from`:
`outer_map.entry(key).or_default().insert(version, WriteCell::new())`. -/
def insertPossibleWrite (outerMap : AList (fun _ : K => OrdMap Version (WriteCell V)))
    (write : K × Version) : AList (fun _ : K => OrdMap Version (WriteCell V)) :=
  outerMap.insert write.1 (((outerMap.lookup write.1).getD ∅).insert write.2 .unassigned)

/-- `new_from`: one unassigned cell per possible write, and the largest number
of versions of one key (`max_dependency_size`). -/
def newFrom (possibleWrites : List (K × Version)) : MVHashMap K V × ℕ :=
  let outerMap := possibleWrites.foldl insertPossibleWrite ∅
  (⟨outerMap⟩, outerMap.entries.foldl (fun maxDepth entry => max maxDepth entry.2.entries.length) 0)

/-- `get_entry`. -/
def getEntry (m : MVHashMap K V) (key : K) (version : Version) : Except Error (WriteCell V) :=
  match m.data.lookup key with
  | none => .error .UnexpectedWrite
  | some tree =>
    match tree.find? version with
    | none => .error .UnexpectedWrite
    | some cell => .ok cell

/-- The cell of `key` at `version` replaced (the `OnceCell` set in place). -/
def setCell (m : MVHashMap K V) (key : K) (version : Version) (cell : WriteCell V) : MVHashMap K V :=
  ⟨m.data.insert key (((m.data.lookup key).getD ∅).insert version cell)⟩

/-- `write`: an error when the entry is not a possible write, `none` when its
cell is already set. -/
def write (m : MVHashMap K V) (key : K) (version : Version) (data : V) :
    Except Error (Option (MVHashMap K V)) := do
  let entry ← m.getEntry key version
  pure ((entry.write data).map (m.setCell key version))

/-- `skip_if_not_set`. -/
def skipIfNotSet (m : MVHashMap K V) (key : K) (version : Version) : Except Error (MVHashMap K V) := do
  let entry ← m.getEntry key version
  if entry.isAssigned then pure m else pure (m.setCell key version .skipped)

/-- The loop of `read` over the cells below the version, highest first: an
unassigned cell names the version to wait for, a skipped one is passed over. -/
def readCells : List (Version × WriteCell V) → Except (Option Version) V
  | [] => .error none
  | (entryKey, .unassigned) :: _ => .error (some entryKey)
  | (_, .skipped) :: rest => readCells rest
  | (_, .written v) :: _ => .ok v

/-- `read`: the value of `key` written by the highest version below `version`
that wrote it, `Err(None)` when no such version may have written it, and
`Err(Some(v))` when version `v` has not yet set its cell. -/
def read (m : MVHashMap K V) (key : K) (version : Version) : Except (Option Version) V :=
  match m.data.lookup key with
  | none => .error none
  | some tree => readCells (tree.entries.filter (·.1 < version)).reverse

private theorem le_foldl_max {α : Type} (f : α → ℕ) :
    ∀ (l : List α) (m : ℕ), m ≤ l.foldl (fun acc x => max acc (f x)) m
  | [], _ => le_rfl
  | x :: l, m => le_trans (le_max_left m (f x)) (le_foldl_max f l _)

private theorem le_foldl_max_of_mem {α : Type} (f : α → ℕ) {x : α} :
    ∀ {l : List α}, x ∈ l → ∀ m, f x ≤ l.foldl (fun acc x => max acc (f x)) m
  | y :: l, hx, m => by
    rcases List.mem_cons.mp hx with rfl | hx
    · exact le_trans (le_max_right m (f x)) (le_foldl_max f l _)
    · exact le_foldl_max_of_mem f hx _

/-- The key written last has a tree with a cell in it. -/
theorem lookup_foldl_insertPossibleWrite (outerMap : AList (fun _ : K => OrdMap Version (WriteCell V)))
    (writes : List (K × Version)) (write : K × Version) :
    ∃ tree, ((writes ++ [write]).foldl insertPossibleWrite outerMap).lookup write.1 = some tree ∧
      tree.entries ≠ [] := by
  refine ⟨_, by rw [List.foldl_append, List.foldl_cons, List.foldl_nil, insertPossibleWrite, AList.lookup_insert], ?_⟩
  intro hnil
  have hfind := OrdMap.find?_insert (((writes.foldl insertPossibleWrite outerMap).lookup write.1).getD ∅)
    write.2 write.2 (.unassigned : WriteCell V)
  rw [if_pos rfl, OrdMap.find?, hnil] at hfind
  cases hfind

theorem newFrom_snd_pos {possibleWrites : List (K × Version)} (h : possibleWrites ≠ []) :
    0 < (newFrom possibleWrites : MVHashMap K V × ℕ).2 := by
  obtain ⟨tree, hlookup, hne⟩ := lookup_foldl_insertPossibleWrite (∅ : AList (fun _ : K => OrdMap Version (WriteCell V)))
    possibleWrites.dropLast (possibleWrites.getLast h)
  rw [List.dropLast_append_getLast h] at hlookup
  have hmem := AList.mem_lookup_iff.mp hlookup
  have hle := le_foldl_max_of_mem (fun entry : (Σ _ : K, OrdMap Version (WriteCell V)) => entry.2.entries.length) hmem 0
  have hpos : 0 < tree.entries.length := List.length_pos_of_ne_nil hne
  exact lt_of_lt_of_le hpos hle

end MVHashMap

end Diem.Vm
