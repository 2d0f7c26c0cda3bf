/-
# StateDb.Detail.MerkleRoot — `merkle_root()`: the leaf list, the cache, and what a root binds.

`state_delta::merkle_root` collects the own-backend keys (in map order) and then the
tombstones into `object_keys`, `std::sort`s the vector WITHOUT removing duplicates, and for
each key emits `hash(key)` and `hash(value)`, an absent value read as `std::string()`. The
root of `crypto::merkle_tree` over those leaves is cached in the mutable `_merkle_root`; a
cached root is returned as it is, whatever has happened to the delta since.

`crypto::hash` and `crypto::merkle_tree` are koinos-crypto, not this repository: the model
takes them as the two fields of `Crypto`.

What the root binds (`computeMerkleRoot_binds_leafValue`): for injective primitives, two
deltas with the same computed root modify the same keys, and give each the same
value-or-empty. It does NOT tell a tombstone from a write of the empty string, since both
give the leaf `hash("")`.
-/
import StateDb.Detail.Operations
import Mathlib.Logic.Equiv.List

namespace StateDb.Detail

open StateDb.Backends

/-- The two koinos-crypto primitives `merkle_root` calls: `crypto::hash(sha2_256, ·)` and
`crypto::merkle_tree(sha2_256, ·).root()->hash()`. -/
structure Crypto where
  hash : Bytes → Multihash
  merkleTree : List Multihash → Multihash

/-! ## §1 — the computation and the cache -/

/-- `object_keys`, sorted: every own-backend key, then every tombstone. A key both written
and tombstoned appears twice. -/
def objectKeys (b : Backend) (removed : KeySet) : List Bytes :=
  sortKeys (b.map.keys ++ removed.keys)

/-- `merkle_leafs`: for each object key, `hash(key)` then `hash(value)`, where a key with no
own value hashes `std::string()`. -/
def merkleLeafs (c : Crypto) (b : Backend) (removed : KeySet) : List Multihash :=
  (objectKeys b removed).flatMap fun key => [c.hash key, c.hash ((b.map.get key).getD [])]

/-- The root `merkle_root()` computes when nothing is cached. -/
def computeMerkleRoot (c : Crypto) (b : Backend) (removed : KeySet) : Multihash :=
  c.merkleTree (merkleLeafs c b removed)

/-- `merkle_root()` on one delta: the cached root, else the computed one (which reads the
backend, so a NULL backend is `none`). -/
def merkleRootOf (c : Crypto) (δ : StateDelta) : Option Multihash :=
  match δ.merkleRoot with
  | some m => some m
  | none => δ.backend.map fun b => computeMerkleRoot c b δ.removedObjects

/-- `merkle_root()` on the delta at `d`. -/
def merkleRoot (c : Crypto) (s : State) (d : Nat) : Option Multihash :=
  s.nodes[d]?.bind (merkleRootOf c)

/-- The state after `merkle_root()`: its value cached. -/
def cacheMerkleRoot (c : Crypto) (s : State) (d : Nat) : Option State := do
  let δ ← s.nodes[d]?
  let m ← merkleRootOf c δ
  return s.modify d (fun δ => { δ with merkleRoot := some m }) fun _ _ h => h

theorem mem_objectKeys {b : Backend} {removed : KeySet} {k : Bytes} :
    k ∈ objectKeys b removed ↔ (b.map.contains k || removed.contains k) = true := by
  simp [objectKeys, mem_sortKeys, OrderedMap.mem_keys_iff_contains]

/-- The object keys have no duplicate exactly when no key is both written and tombstoned. -/
theorem objectKeys_nodup_iff {b : Backend} {removed : KeySet} :
    (objectKeys b removed).Nodup ↔
      ∀ k, ¬ (b.map.contains k = true ∧ removed.contains k = true) := by
  rw [objectKeys, (sortKeys_perm _).nodup_iff, List.nodup_append]
  simp only [b.map.keys_nodup, removed.keys_nodup, true_and, List.Disjoint,
    OrderedMap.mem_keys_iff_contains, not_and]

theorem merkleRootOf_cached {c : Crypto} {δ : StateDelta} {m : Multihash}
    (h : δ.merkleRoot = some m) : merkleRootOf c δ = some m := by
  simp [merkleRootOf, h]

theorem merkleRootOf_computed {c : Crypto} {δ : StateDelta} {b : Backend}
    (h : δ.merkleRoot = none) (hb : δ.backend = some b) :
    merkleRootOf c δ = some (computeMerkleRoot c b δ.removedObjects) := by
  simp [merkleRootOf, h, hb]

theorem merkleRootOf_isSome {c : Crypto} {δ : StateDelta} {b : Backend}
    (hb : δ.backend = some b) : ∃ m, merkleRootOf c δ = some m := by
  cases h : δ.merkleRoot with
  | some m => exact ⟨m, merkleRootOf_cached h⟩
  | none => exact ⟨_, merkleRootOf_computed h hb⟩

theorem cacheMerkleRoot_eq_some {c : Crypto} {s s' : State} {d : Nat}
    (h : cacheMerkleRoot c s d = some s') :
    ∃ δ m, s.nodes[d]? = some δ ∧ merkleRootOf c δ = some m ∧
      s' = s.modify d (fun δ => { δ with merkleRoot := some m }) fun _ _ h => h := by
  simp only [cacheMerkleRoot, Option.bind_eq_bind, Option.bind_eq_some, Option.pure_def,
    Option.some.injEq] at h
  obtain ⟨δ, hd, m, hm, rfl⟩ := h
  exact ⟨δ, m, hd, hm, rfl⟩

/-- Caching the merkle root changes no answer of `find`. -/
theorem find_cacheMerkleRoot {c : Crypto} {s s' : State} {d : Nat}
    (h : cacheMerkleRoot c s d = some s') (e : Nat) (k : Bytes) : find s' e k = find s e k := by
  obtain ⟨δ, m, -, -, rfl⟩ := cacheMerkleRoot_eq_some h
  exact find_modify_of_view (fun δ => { δ with merkleRoot := some m }) _ (fun _ => rfl) e k

/-! ## §2 — what a computed root binds -/

/-- What the leaves of a delta record about key `k`: nothing for a key it does not modify,
else its own value, a key that is only tombstoned reading as the empty string. -/
def leafValue (b : Backend) (removed : KeySet) (k : Bytes) : Option Bytes :=
  if b.map.contains k || removed.contains k then some ((b.map.get k).getD []) else none

/-- A list of keys is read back from its `[hash(k), hash(v k)]` leaves when `hash` is
injective: the keys, and every key's value. -/
theorem pairLeafs_inj {hash : Bytes → Multihash} (hh : Function.Injective hash)
    {v₁ v₂ : Bytes → Bytes} :
    ∀ {l₁ l₂ : List Bytes}, l₁.flatMap (fun k => [hash k, hash (v₁ k)]) =
      l₂.flatMap (fun k => [hash k, hash (v₂ k)]) →
        l₁ = l₂ ∧ ∀ k ∈ l₁, v₁ k = v₂ k
  | [], [], _ => ⟨rfl, by simp⟩
  | [], _ :: _, h => by simp at h
  | _ :: _, [], h => by simp at h
  | k₁ :: l₁, k₂ :: l₂, h => by
    simp only [List.flatMap_cons, List.cons_append, List.nil_append, List.cons.injEq] at h
    obtain ⟨hk, hv, hl⟩ := h
    obtain rfl := hh hk
    obtain ⟨rfl, hrest⟩ := pairLeafs_inj hh hl
    exact ⟨rfl, fun k hk' => (List.mem_cons.mp hk').elim (fun h => h ▸ hh hv) (hrest k)⟩

/-- **What a computed merkle root binds.** For an injective hash and merkle tree, two
deltas with the same computed root modify the same keys, and give each modified key the
same value, a tombstone reading as the empty string. -/
theorem computeMerkleRoot_binds_leafValue {c : Crypto} (hh : Function.Injective c.hash)
    (hm : Function.Injective c.merkleTree) {b₁ b₂ : Backend} {r₁ r₂ : KeySet}
    (h : computeMerkleRoot c b₁ r₁ = computeMerkleRoot c b₂ r₂) (k : Bytes) :
    leafValue b₁ r₁ k = leafValue b₂ r₂ k := by
  obtain ⟨hkeys, hvals⟩ := pairLeafs_inj hh (hm h)
  have hmem : (b₁.map.contains k || r₁.contains k) = true ↔
      (b₂.map.contains k || r₂.contains k) = true := by
    rw [← mem_objectKeys, ← mem_objectKeys, hkeys]
  unfold leafValue
  by_cases hk : (b₁.map.contains k || r₁.contains k) = true
  · rw [if_pos hk, if_pos (hmem.mp hk), hvals k (mem_objectKeys.mpr hk)]
  · rw [if_neg hk, if_neg (mt hmem.mpr hk)]

/-! ## §3 — a collision-free instance -/

/-- A multihash as a number, injectively. -/
def Multihash.toNat (m : Multihash) : Nat :=
  Nat.pair m.code.toNat (Encodable.encode (m.digest.map UInt8.toNat))

theorem Multihash.toNat_injective : Function.Injective Multihash.toNat := by
  rintro ⟨c₁, d₁⟩ ⟨c₂, d₂⟩ h
  obtain ⟨hc, hd⟩ := Nat.pair_eq_pair.mp h
  have hd' := List.map_injective_iff.mpr (fun _ _ h => UInt8.toNat.inj h)
    (Encodable.encode_injective hd)
  simp only [Multihash.mk.injEq]
  exact ⟨UInt64.toNat.inj hc, hd'⟩

/-- Crypto primitives that never collide: `hash` keeps its input as the digest, and the
merkle tree encodes its leaf list injectively. They witness that the injectivity
hypotheses on `Crypto` can be met. -/
def Crypto.collisionFree : Crypto where
  hash b := ⟨0x12, b⟩
  merkleTree l := ⟨0x12, List.replicate (Encodable.encode (l.map Multihash.toNat)) 0⟩

theorem Crypto.collisionFree_hash_injective : Function.Injective Crypto.collisionFree.hash :=
  fun _ _ h => (Multihash.mk.inj h).2

theorem Crypto.collisionFree_merkleTree_injective :
    Function.Injective Crypto.collisionFree.merkleTree := fun l₁ l₂ h => by
  have := congrArg List.length (Multihash.mk.inj h).2
  simp only [List.length_replicate] at this
  exact List.map_injective_iff.mpr Multihash.toNat_injective (Encodable.encode_injective this)

end StateDb.Detail
