/-
# StateDb.Backends.OrderedMap — the ordered byte-string map under every backend.

Keys and values of `abstract_backend` are `std::string`s (`backends/types.hpp`), and both
backends are ordered maps over them: `begin()`..`end()` walks the keys in the order
`std::string::operator<` gives, which compares bytes as `unsigned char`. This module fixes
that data once:

* `Bytes` is a byte string, with the byte-lexicographic `LinearOrder` of `List UInt8`;
* an `OrderedMap` is a finite map kept as its entries in STRICTLY increasing key order, and
  carries that order as a field, so no map with a repeated or misplaced key can be built;
* `get` / `put` / `erase` are the backend contract of the spec (§4.1): `put` overwrites or
  inserts, `erase` is idempotent; their `@[simp]` lemmas say what every later read sees;
* the fold lemmas `get_foldl_put` / `get_foldl_erase` are the write engine that `squash` and
  `commit` run (a loop of puts, a loop of erases), stated once here.

A `KeySet` (the tombstone set `_removed_objects`) is an `OrderedMap` to `Unit`.
-/
import Mathlib.Data.List.Sort
import Mathlib.Data.List.Lex

namespace StateDb.Backends

/-- Bytes compare as `unsigned char`, which is how `std::string` orders its characters. -/
instance byteOrder : LinearOrder UInt8 where
  le_refl := UInt8.le_refl
  le_trans _ _ _ := BitVec.le_trans
  le_antisymm _ _ h₁ h₂ := UInt8.eq_of_toBitVec_eq (BitVec.le_antisymm h₁ h₂)
  le_total := UInt8.le_total
  lt_iff_le_not_le _ _ := Nat.lt_iff_le_not_le
  decidableLE := inferInstance
  decidableLT := inferInstance
  decidableEq := inferInstance

/-- `key_type` and `value_type`: byte strings, ordered byte-lexicographically. -/
abbrev Bytes := List UInt8

/-! ## §1 — entry lists: lookup and ordered insertion -/

section Entries

variable {α : Type}

/-- The value stored under `k` in an entry list, if any. -/
def lookup (k : Bytes) : List (Bytes × α) → Option α
  | [] => none
  | e :: es => if e.1 = k then some e.2 else lookup k es

/-- Ordered insertion: place `(k, v)` before the first larger key, replacing an equal one. -/
def insertEntry (k : Bytes) (v : α) : List (Bytes × α) → List (Bytes × α)
  | [] => [(k, v)]
  | e :: es =>
    if k < e.1 then (k, v) :: e :: es
    else if k = e.1 then (k, v) :: es
    else e :: insertEntry k v es

theorem lookup_insertEntry (k k' : Bytes) (v : α) (es : List (Bytes × α)) :
    lookup k' (insertEntry k v es) = if k = k' then some v else lookup k' es := by
  induction es with
  | nil => rfl
  | cons e es ih =>
    by_cases h₁ : k < e.1
    · simp only [insertEntry, if_pos h₁]; rfl
    · by_cases h₂ : k = e.1
      · subst h₂
        simp only [insertEntry, if_neg h₁, if_true]
        by_cases hk : e.1 = k' <;> simp [lookup, hk]
      · simp only [insertEntry, if_neg h₁, if_neg h₂]
        by_cases hk : k = k'
        · subst hk; simp [lookup, Ne.symm h₂, ih]
        · simp [lookup, ih, hk]

theorem lookup_filter (k k' : Bytes) (es : List (Bytes × α)) :
    lookup k' (es.filter fun e => decide (e.1 ≠ k)) = if k = k' then none else lookup k' es := by
  induction es with
  | nil => simp [lookup]
  | cons e es ih =>
    by_cases he : e.1 = k <;> by_cases hk : k = k' <;> simp_all [lookup, List.filter_cons]

theorem isSome_lookup_iff (k : Bytes) (es : List (Bytes × α)) :
    (lookup k es).isSome ↔ k ∈ es.map Prod.fst := by
  induction es with
  | nil => simp [lookup]
  | cons e es ih =>
    simp only [lookup, List.map_cons, List.mem_cons]
    by_cases he : e.1 = k
    · rw [if_pos he]; exact iff_of_true rfl (.inl he.symm)
    · rw [if_neg he, ih]; exact (or_iff_right (Ne.symm he)).symm

theorem mem_insertEntry {k : Bytes} {v : α} {es : List (Bytes × α)} {x : Bytes × α}
    (hx : x ∈ insertEntry k v es) : x = (k, v) ∨ x ∈ es := by
  induction es with
  | nil => simpa [insertEntry] using hx
  | cons e es ih =>
    simp only [insertEntry] at hx
    split_ifs at hx
    · exact List.mem_cons.mp hx
    · exact (List.mem_cons.mp hx).imp_right (List.mem_cons_of_mem _)
    · rcases List.mem_cons.mp hx with rfl | hx
      · exact .inr (List.mem_cons_self _ _)
      · exact (ih hx).imp_right (List.mem_cons_of_mem _)

theorem sorted_insertEntry (k : Bytes) (v : α) {es : List (Bytes × α)}
    (h : es.Pairwise fun a b => a.1 < b.1) :
    (insertEntry k v es).Pairwise fun a b => a.1 < b.1 := by
  induction es with
  | nil => simp [insertEntry]
  | cons e es ih =>
    rw [List.pairwise_cons] at h
    simp only [insertEntry]
    split_ifs with hlt heq
    · exact List.Pairwise.cons (fun x hx => by
        rcases List.mem_cons.mp hx with rfl | hx
        · exact hlt
        · exact hlt.trans (h.1 x hx)) (List.Pairwise.cons h.1 h.2)
    · subst heq; exact List.Pairwise.cons h.1 h.2
    · refine List.Pairwise.cons (fun x hx => ?_) (ih h.2)
      rcases mem_insertEntry hx with rfl | hx
      · exact lt_of_le_of_ne (not_lt.mp hlt) (Ne.symm heq)
      · exact h.1 x hx

end Entries

/-! ## §2 — the ordered map -/

/-- A finite map from byte strings, kept as its entries in strictly increasing key order. -/
structure OrderedMap (α : Type) where
  entries : List (Bytes × α)
  sorted : entries.Pairwise fun a b => a.1 < b.1

namespace OrderedMap

variable {α : Type}

@[ext] theorem ext {m m' : OrderedMap α} (h : m.entries = m'.entries) : m = m' := by
  cases m; cases m'; cases h; rfl

instance [DecidableEq α] : DecidableEq (OrderedMap α) := fun m m' =>
  decidable_of_iff (m.entries = m'.entries) ⟨ext, congrArg _⟩

/-- The empty map: a fresh `map_backend`. -/
def empty : OrderedMap α := ⟨[], .nil⟩

/-- Modelled from the spec: `get(k)` of `map_backend` and `rocksdb_backend`, the value under
`k`, or nothing. -/
def get (m : OrderedMap α) (k : Bytes) : Option α := lookup k m.entries

/-- Modelled from the spec: `put(k, v)`, overwrite or insert. -/
def put (m : OrderedMap α) (k : Bytes) (v : α) : OrderedMap α :=
  ⟨insertEntry k v m.entries, sorted_insertEntry k v m.sorted⟩

/-- Modelled from the spec: `erase(k)`, remove if present; idempotent. -/
def erase (m : OrderedMap α) (k : Bytes) : OrderedMap α :=
  ⟨m.entries.filter fun e => decide (e.1 ≠ k), m.sorted.filter _⟩

/-- The keys in iteration order, `begin()` to `end()`. -/
def keys (m : OrderedMap α) : List Bytes := m.entries.map Prod.fst

@[simp] theorem lookup_entries (m : OrderedMap α) (k : Bytes) : lookup k m.entries = m.get k := rfl

@[simp] theorem get_empty (k : Bytes) : (empty : OrderedMap α).get k = none := rfl

@[simp] theorem get_put (m : OrderedMap α) (k k' : Bytes) (v : α) :
    (m.put k v).get k' = if k = k' then some v else m.get k' :=
  lookup_insertEntry k k' v m.entries

@[simp] theorem get_erase (m : OrderedMap α) (k k' : Bytes) :
    (m.erase k).get k' = if k = k' then none else m.get k' :=
  lookup_filter k k' m.entries

@[simp] theorem keys_empty : (empty : OrderedMap α).keys = [] := rfl

theorem mem_keys (m : OrderedMap α) (k : Bytes) : k ∈ m.keys ↔ (m.get k).isSome :=
  (isSome_lookup_iff k m.entries).symm

theorem keys_sorted (m : OrderedMap α) : m.keys.Sorted (· < ·) := by
  simpa [keys, List.Sorted, List.pairwise_map] using m.sorted

theorem keys_nodup (m : OrderedMap α) : m.keys.Nodup := m.keys_sorted.nodup

theorem mem_entries {m : OrderedMap α} {k : Bytes} {v : α} :
    (k, v) ∈ m.entries ↔ m.get k = some v := by
  obtain ⟨es, hs⟩ := m
  simp only [get]
  induction es with
  | nil => simp [lookup]
  | cons e es ih =>
    rw [List.pairwise_cons] at hs
    have hk : e.1 = k → k ∉ es.map Prod.fst := fun he hmem => by
      obtain ⟨x, hx, rfl⟩ := List.mem_map.mp hmem
      exact absurd (hs.1 x hx) (by rw [he]; exact lt_irrefl _)
    by_cases he : e.1 = k
    · have hnone : lookup k es = none :=
        Option.not_isSome_iff_eq_none.mp fun h => hk he ((isSome_lookup_iff k es).mp h)
      have hnv : (k, v) ∉ es := fun hmem => hk he (List.mem_map.mpr ⟨_, hmem, rfl⟩)
      obtain ⟨k₀, v₀⟩ := e
      simp only at he; subst he
      simp [lookup, hnv, eq_comm]
    · have hne : (k, v) ≠ e := fun h => he (by rw [← h])
      simp [lookup, he, hne, ih hs.2]

/-- **Extensionality by lookup.** Two maps that answer every key alike are equal: a strictly
sorted entry list is fixed by its answers. -/
theorem eq_of_get {m m' : OrderedMap α} (h : ∀ k, m.get k = m'.get k) : m = m' := by
  haveI : IsAntisymm (Bytes × α) fun a b => a.1 < b.1 :=
    ⟨fun _ _ h₁ h₂ => absurd (h₁.trans h₂) (lt_irrefl _)⟩
  have hnodup (m : OrderedMap α) : m.entries.Nodup :=
    m.sorted.imp fun hab => ne_of_apply_ne Prod.fst (ne_of_lt hab)
  ext1
  refine List.eq_of_perm_of_sorted ((List.perm_ext_iff_of_nodup (hnodup m) (hnodup m')).mpr
    fun ⟨k, v⟩ => ?_) m.sorted m'.sorted
  rw [mem_entries, mem_entries, h]

/-- `size()`: the number of entries. -/
def size (m : OrderedMap α) : Nat := m.entries.length

theorem get_of_size_eq_zero {m : OrderedMap α} (h : m.size = 0) (k : Bytes) : m.get k = none := by
  rw [size, List.length_eq_zero] at h
  rw [← lookup_entries, h]
  rfl

/-! ## §3 — the write engine: loops of puts and erases -/

/-- A loop `for (k, v) in es: put(k, v)` over an entry list whose keys strictly increase:
each key ends up with its value from `es`, every other key keeps its old one. -/
theorem get_foldl_put (es : List (Bytes × α)) (hes : es.Pairwise fun a b => a.1 < b.1)
    (m : OrderedMap α) (k : Bytes) :
    (es.foldl (fun m e => m.put e.1 e.2) m).get k = (lookup k es).or (m.get k) := by
  induction es generalizing m with
  | nil => simp [lookup]
  | cons e es ih =>
    rw [List.pairwise_cons] at hes
    rw [List.foldl_cons, ih hes.2, get_put]
    by_cases he : e.1 = k
    · have : lookup k es = none := by
        rw [← Option.not_isSome_iff_eq_none, isSome_lookup_iff]
        intro hmem
        obtain ⟨x, hx, rfl⟩ := List.mem_map.mp hmem
        exact absurd (hes.1 x hx) (by rw [he]; exact lt_irrefl _)
      simp [lookup, he, this]
    · simp [lookup, he]

/-- A loop `for r in ks: erase(r)`: exactly the keys of `ks` are gone. -/
theorem get_foldl_erase (ks : List Bytes) (m : OrderedMap α) (k : Bytes) :
    (ks.foldl (fun m r => m.erase r) m).get k = if k ∈ ks then none else m.get k := by
  induction ks generalizing m with
  | nil => simp
  | cons r ks ih =>
    rw [List.foldl_cons, ih, get_erase]
    by_cases h : k ∈ ks
    · simp [h]
    · by_cases hr : r = k
      · subst hr; simp
      · simp [h, hr, Ne.symm hr]

end OrderedMap

/-! ## §4 — membership and key sets -/

namespace OrderedMap

variable {α : Type}

/-- `get(k) != nullptr`, and `find(k) != end()` on a key set. -/
def contains (m : OrderedMap α) (k : Bytes) : Bool := (m.get k).isSome

/-- `insert(k)` on a key set. -/
def insert (m : OrderedMap Unit) (k : Bytes) : OrderedMap Unit := m.put k ()

@[simp] theorem contains_empty (k : Bytes) : (empty : OrderedMap α).contains k = false := rfl

@[simp] theorem contains_put (m : OrderedMap α) (k k' : Bytes) (v : α) :
    (m.put k v).contains k' = (k = k' || m.contains k') := by
  by_cases h : k = k' <;> simp [contains, h]

@[simp] theorem contains_erase (m : OrderedMap α) (k k' : Bytes) :
    (m.erase k).contains k' = (k ≠ k' && m.contains k') := by
  by_cases h : k = k' <;> simp [contains, h]

@[simp] theorem contains_insert (m : OrderedMap Unit) (k k' : Bytes) :
    (m.insert k).contains k' = (k = k' || m.contains k') :=
  contains_put m k k' ()

theorem mem_keys_iff_contains (m : OrderedMap α) (k : Bytes) :
    k ∈ m.keys ↔ m.contains k = true :=
  mem_keys m k

theorem contains_foldl_erase (ks : List Bytes) (m : OrderedMap α) (k : Bytes) :
    (ks.foldl (fun m r => m.erase r) m).contains k = (!decide (k ∈ ks) && m.contains k) := by
  by_cases h : k ∈ ks <;> simp [contains, get_foldl_erase, h]

theorem contains_foldl_insert (ks : List Bytes) (m : OrderedMap Unit) (k : Bytes) :
    (ks.foldl (fun m r => m.insert r) m).contains k = (decide (k ∈ ks) || m.contains k) := by
  induction ks generalizing m with
  | nil => simp
  | cons r ks ih =>
    rw [List.foldl_cons, ih, contains_insert]
    by_cases h : k = r
    · subst h; simp
    · simp [h, Ne.symm h]

end OrderedMap

/-- A set of keys, as a map to `Unit`: the tombstone set `_removed_objects`. -/
abbrev KeySet := OrderedMap Unit

/-- `std::sort` on a key vector. Keys that compare equal are equal, so every sorting
algorithm returns the same list; insertion sort is the one that computes in the kernel. -/
def sortKeys (ks : List Bytes) : List Bytes := ks.insertionSort (· ≤ ·)

theorem sortKeys_perm (ks : List Bytes) : (sortKeys ks).Perm ks := List.perm_insertionSort _ _

theorem sortKeys_sorted (ks : List Bytes) : (sortKeys ks).Sorted (· ≤ ·) :=
  List.sorted_insertionSort _ _

theorem mem_sortKeys {ks : List Bytes} {k : Bytes} : k ∈ sortKeys ks ↔ k ∈ ks :=
  (sortKeys_perm ks).mem_iff

end StateDb.Backends
