/-
# StateDb.Laws.Merkle — what a delta's merkle root binds, and recomputing it from the export.

`merkle_root()` on a delta that holds its backend and has cached no merkle root computes the
tree over its current leaves: for each object key in increasing order, `hash(key)` then
`hash(value)`, a tombstone's value being the empty string. In every state that calls other
than `merkle_root()` and a throwing `commit` reach, every delta below a root is such a delta
(`NonRootsLiveUncached`, `merkleRoot_computed_below_root`); a root is not, since it caches the
merkle root it was opened or committed with (`Laws.Clear.RootsCached`).

* `merkleRoot_binds_changes`: with injective primitives, two such deltas of any states with
  equal merkle roots modify the same keys and give each the same own value, where a key that
  is only tombstoned reads as the empty string. The root does not tell a deletion from a
  write of the empty string (`merkleRoot_delete_eq_write_empty`).
* `merkleRoot_eq_entryRoot`: when every modified key of such a delta parses as a database key
  that serializes back to it, a peer that hashes the serialized keys and the values of
  `get_delta_entries()` gets the delta's merkle root. A root is different: its merkle root is
  the slot its backend was opened or committed with (`rootMerkleRoot_ne_entryRoot`).

The object keys are the own-backend keys followed by the tombstones, sorted, with no
duplicate removed; the spec lists each modified key once. The two agree exactly when no key
is both written and tombstoned (`merkleLeafs_eq_specMerkleLeafs_iff`,
`getDeltaEntries_length_eq_iff`). `state_delta::put` writes the own backend and leaves the
tombstone set alone, so a delta that erases `k` and writes it again holds `k` in both:
`merkle_root` then hashes `k` twice (`merkleRoot_counts_rewritten_key_twice`) and
`get_delta_entries` exports it twice (`deltaEntries_export_rewritten_key_twice`), on the run
`eraseThenPut`. The tombstone invariant that fails on the same run is in `Laws.Frames`.
-/

import StateDb.Detail.DeltaEntries
import StateDb.Detail.Run

namespace StateDb.Laws

open StateDb.Backends StateDb.Detail

/-- A serialized `chain::database_key` with the default object space and the user key `k`:
the tag of field 2, length 1, then `k`. -/
def keyK : Bytes := [0x12, 0x01, 0x6b]

/-- The serialized `chain::database_key` with the default object space and the user key `j`. -/
def keyJ : Bytes := [0x12, 0x01, 0x6a]

/-- The backend of the fresh root of the runs below. -/
def keyKBackend : Backend := { map := OrderedMap.empty.put keyK [1] }

/-- The run that erases `keyK` on a child of a root holding it, then writes it again. -/
def eraseThenPut : List Op := [.makeChild 0 default default, .erase 1 keyK, .put 1 keyK [2]]

/-- A run of every kind of call but `merkle_root()` and a throwing `commit`: the child `1` of
the root writes `[5] ↦ [6]`, is finalized and committed; its child `2` writes `[7] ↦ [8]`
and is cleared, takes `keyJ ↦ [4]` from its squashed child `3`, erases `keyK` (which the new
root shows), takes revision `9` and is cloned to `4`. -/
def commitThenErase : List Op :=
  [.makeChild 0 default default, .put 1 [5] [6], .finalize 1, .commit 1 none,
    .makeChild 1 default default, .put 2 [7] [8], .clear 2, .makeChild 2 default default,
    .put 3 keyJ [4], .squash 3, .erase 2 keyK, .setRevision 2 9, .clone 2 default default]

/-! ## §1 — no delta below a root caches its merkle root -/

/-- No delta below a root has lost its backend or cached a merkle root. -/
def NonRootsLiveUncached (s : State) : Prop :=
  ∀ (d : Nat) (δ : StateDelta), s.nodes[d]? = some δ → δ.isRoot = false →
    δ.backend.isSome ∧ δ.merkleRoot = none

/-- The calls that cache no merkle root below a root: every call but `merkle_root()` and a
`commit` told that one of its backend calls throws. -/
def nonCachingCall (_ : State) : Op → Bool
  | .merkleRoot _ | .commit _ (some _) => false
  | _ => true

section Uncached

variable {c : Crypto} {s s' : State}

/-- `merkle_root()` on a delta that holds its backend and has cached nothing computes the
tree over its current leaves. -/
theorem merkleRoot_of_uncached {d : Nat} {δ : StateDelta} {b : Backend}
    (hd : s.nodes[d]? = some δ) (hb : δ.backend = some b) (hc : δ.merkleRoot = none) :
    merkleRoot c s d = some (computeMerkleRoot c b δ.removedObjects) := by
  rw [merkleRoot, hd, Option.some_bind, merkleRootOf_computed hc hb]

theorem nonRootsLiveUncached_init (b : Backend) : NonRootsLiveUncached (State.init b) := by
  intro d δ hd hr
  match d with
  | 0 => cases hd; cases hr
  | _ + 1 => cases hd

/-- Changing one delta keeps every delta below a root live and uncached when the change keeps
its parent and its cache, and a live backend live. -/
theorem NonRootsLiveUncached.modify {d : Nat} {f : StateDelta → StateDelta} {hf}
    (h : NonRootsLiveUncached s)
    (hfc : ∀ δ, (f δ).parent = δ.parent ∧ (f δ).merkleRoot = δ.merkleRoot ∧
      (δ.backend.isSome → (f δ).backend.isSome)) :
    NonRootsLiveUncached (s.modify d f hf) := by
  intro e δ he hr
  obtain ⟨δ₀, he₀, ⟨-, rfl⟩ | rfl⟩ := State.exists_of_modify he
  · obtain ⟨hp, hm, hb⟩ := hfc δ₀
    obtain ⟨hl, hc⟩ := h e δ₀ he₀ (by simpa [StateDelta.isRoot, hp] using hr)
    exact ⟨hb hl, hm.trans hc⟩
  · exact h e _ he₀ hr

theorem NonRootsLiveUncached.alloc {ν : StateDelta} {hν} (h : NonRootsLiveUncached s)
    (hν' : ν.isRoot = false → ν.backend.isSome ∧ ν.merkleRoot = none) :
    NonRootsLiveUncached (s.alloc ν hν) := by
  intro e δ he hr
  rw [State.alloc_nodes] at he
  split at he
  · cases he; exact hν' hr
  · exact h e δ he hr

/-- A successful commit of `d` keeps every delta below a root live and uncached: the old root
that loses its backend is a root, `d` becomes one, and no other delta changes. -/
theorem NonRootsLiveUncached.becomeRoot {d : Nat} {m : Multihash} {B : Backend}
    (h : NonRootsLiveUncached s) (hd : d < s.nodes.length) :
    NonRootsLiveUncached (Detail.becomeRoot (cacheRoot (resetBackend s (rootOf s d)) d m) d B) := by
  obtain ⟨-, ρ, hρ, hρp⟩ := rootOf_spec s d hd
  intro e δ he hr
  simp only [becomeRoot_nodes, cacheRoot_nodes, resetBackend_nodes] at he
  by_cases hde : d = e
  · rw [if_pos hde] at he
    obtain ⟨_, -, rfl⟩ := Option.map_eq_some'.mp he
    cases hr
  by_cases hre : rootOf s d = e
  · subst hre
    simp only [hde, hρ, if_true, if_false, Option.map_some', Option.some.injEq] at he
    subst he
    simp [StateDelta.isRoot, hρp] at hr
  · simp only [hde, hre, if_false] at he
    exact h e δ he hr

/-- **Every call but `merkle_root()` and a throwing `commit` keeps every delta below a root
live and uncached.** -/
theorem NonRootsLiveUncached.step {op : Op} (h : NonRootsLiveUncached s)
    (ha : nonCachingCall s op = true) (hs : Detail.step c s op = some s') :
    NonRootsLiveUncached s' := by
  by_cases he : op.isEdit = true
  · rcases edit_cases he hs with
      rfl | ⟨d, f, hf, hk, rfl⟩ | ⟨d, δ, ν, hν, hd, rfl, hνl, hν'⟩
    · exact h
    · exact h.modify fun δ => ⟨hk.parent δ, hk.merkleRoot δ, fun _ => hk.live δ⟩
    · refine h.alloc fun hr => ⟨hνl, ?_⟩
      rcases hν' with ⟨-, -, hm⟩ | ⟨hp, -, hm⟩
      · exact hm
      · rw [hm]
        exact (h d δ hd (by rwa [StateDelta.isRoot, hp] at hr)).2
  cases op with
  | commit d failAt =>
    obtain ⟨⟨s', err⟩, hr, rfl⟩ := Option.map_eq_some'.mp hs
    obtain rfl : failAt = none := by cases failAt <;> simp_all [nonCachingCall]
    obtain ⟨δ, hd, ⟨-, rfl, -⟩ | ⟨-, ρ, ρb, merges, db, m, -, -, -, -, -, h'⟩⟩ :=
      commit_eq_some hr
    · exact h
    · simp only [commitOutcome, Prod.mk.injEq] at h'
      rw [← h'.1]
      exact h.becomeRoot (State.lt_length hd)
  | merkleRoot d => cases ha
  | finalize d =>
    rw [finalize_eq_some hs]
    exact h.modify fun _ => ⟨rfl, rfl, id⟩
  | clear d =>
    obtain ⟨δ, b, -, -, rfl⟩ := clear_eq_some hs
    exact h.modify fun _ => ⟨rfl, rfl, fun _ => rfl⟩
  | setRevision d r =>
    obtain ⟨δ, -, ⟨-, b, -, rfl⟩ | ⟨-, rfl⟩⟩ := setRevision_eq_some hs
    · exact h.modify fun _ => ⟨rfl, rfl, fun _ => rfl⟩
    · exact h.modify fun _ => ⟨rfl, rfl, id⟩
  | _ => exact absurd rfl he

end Uncached

/-- **Below a root, `merkle_root()` computes.** In every state that calls other than
`merkle_root()` and a throwing `commit` reach, every delta below a root holds its backend and
has cached no merkle root, so `merkle_root()` on it is the tree over its current leaves. -/
theorem merkleRoot_computed_below_root {c : Crypto} {s : State} {d : Nat} {δ : StateDelta}
    (hs : Reachable c nonCachingCall s) (hd : s.nodes[d]? = some δ) (hr : δ.isRoot = false) :
    ∃ b, δ.backend = some b ∧ δ.merkleRoot = none ∧
      merkleRoot c s d = some (computeMerkleRoot c b δ.removedObjects) := by
  obtain ⟨hl, hc⟩ :=
    hs.invariant nonRootsLiveUncached_init (fun _ _ _ h ha hs => h.step ha hs) d δ hd hr
  obtain ⟨b, hb⟩ := Option.isSome_iff_exists.mp hl
  exact ⟨b, hb, hc, merkleRoot_of_uncached hd hb hc⟩

unseal find nodeStack in
/-- The computed root of the grandchild `2` of `commitThenErase`, below the committed root. -/
theorem merkleRoot_computed_below_root_after_commit :
    let c : Crypto := Crypto.collisionFree
    let s := (replay c nonCachingCall (State.init keyKBackend) commitThenErase).getD
      (State.init keyKBackend)
    let δ := (s.nodes[2]?).getD (.ofBackend keyKBackend)
    Reachable c nonCachingCall s ∧ s.nodes[2]? = some δ ∧ δ.isRoot = false ∧
      ∃ b, δ.backend = some b ∧ δ.merkleRoot = none ∧
        merkleRoot c s 2 = some (computeMerkleRoot c b δ.removedObjects) := by
  intro c s δ
  have hs : Reachable c nonCachingCall s := Reachable.of_replay_getD _ (by decide)
  have hd : s.nodes[2]? = some δ := by decide
  have hr : δ.isRoot = false := by decide
  exact ⟨hs, hd, hr, merkleRoot_computed_below_root hs hd hr⟩

/-! ## §2 — what the root binds -/

/-- **What a merkle root binds.** With injective primitives, two deltas of any states that
hold their backends and have cached no merkle root, with equal merkle roots, give every key
the same leaf value: the same modified keys, each with the same own value or, when only
tombstoned, the empty string. -/
theorem merkleRoot_binds_changes {c : Crypto} (hh : Function.Injective c.hash)
    (hm : Function.Injective c.merkleTree) {s₁ s₂ : State} {d₁ d₂ : Nat}
    {δ₁ δ₂ : StateDelta} {b₁ b₂ : Backend}
    (hd₁ : s₁.nodes[d₁]? = some δ₁) (hd₂ : s₂.nodes[d₂]? = some δ₂)
    (hb₁ : δ₁.backend = some b₁) (hb₂ : δ₂.backend = some b₂)
    (hc₁ : δ₁.merkleRoot = none) (hc₂ : δ₂.merkleRoot = none)
    (h : merkleRoot c s₁ d₁ = merkleRoot c s₂ d₂) :
    ∀ k, leafValue b₁ δ₁.removedObjects k = leafValue b₂ δ₂.removedObjects k := by
  rw [merkleRoot_of_uncached hd₁ hb₁ hc₁, merkleRoot_of_uncached hd₂ hb₂ hc₂,
    Option.some.injEq] at h
  exact computeMerkleRoot_binds_leafValue hh hm h

unseal find nodeStack in
/-- The binding for the grandchild `2` of `commitThenErase` and its clone `4`. -/
theorem merkleRoot_binds_changes_after_commit :
    let c : Crypto := Crypto.collisionFree
    let s := (replay c nonCachingCall (State.init keyKBackend) commitThenErase).getD
      (State.init keyKBackend)
    let δ₁ := (s.nodes[2]?).getD (.ofBackend keyKBackend)
    let δ₂ := (s.nodes[4]?).getD (.ofBackend keyKBackend)
    let b₁ := δ₁.backend.getD Backend.mapBackend
    let b₂ := δ₂.backend.getD Backend.mapBackend
    s.nodes[2]? = some δ₁ ∧ s.nodes[4]? = some δ₂ ∧ δ₁.backend = some b₁ ∧
      δ₂.backend = some b₂ ∧ δ₁.merkleRoot = none ∧ δ₂.merkleRoot = none ∧
      merkleRoot c s 2 = merkleRoot c s 4 ∧
      ∀ k, leafValue b₁ δ₁.removedObjects k = leafValue b₂ δ₂.removedObjects k := by
  intro c s δ₁ δ₂ b₁ b₂
  have hd₁ : s.nodes[2]? = some δ₁ := by decide
  have hd₂ : s.nodes[4]? = some δ₂ := by decide
  have hb₁ : δ₁.backend = some b₁ := by decide
  have hb₂ : δ₂.backend = some b₂ := by decide
  have hc₁ : δ₁.merkleRoot = none := by decide
  have hc₂ : δ₂.merkleRoot = none := by decide
  have h : merkleRoot c s 2 = merkleRoot c s 4 := by
    rw [merkleRoot_of_uncached hd₁ hb₁ hc₁, merkleRoot_of_uncached hd₂ hb₂ hc₂,
      computeMerkleRoot, computeMerkleRoot]
    exact congrArg (some ∘ c.merkleTree) (by decide)
  exact ⟨hd₁, hd₂, hb₁, hb₂, hc₁, hc₂, h, merkleRoot_binds_changes
    Crypto.collisionFree_hash_injective Crypto.collisionFree_merkleTree_injective
    hd₁ hd₂ hb₁ hb₂ hc₁ hc₂ h⟩

unseal find in
/-- **A deletion and a write of the empty string share a merkle root.** Over a root holding
`keyK`, a child that erases `keyK` and a child that writes `keyK ↦ ""` have equal merkle
roots under collision-free primitives, though the first deletes the key and the second
writes it. -/
theorem merkleRoot_delete_eq_write_empty :
    let c : Crypto := Crypto.collisionFree
    let s₁ := (replay c (fun _ op => op.isEdit) (State.init keyKBackend)
      [.makeChild 0 default default, .erase 1 keyK]).getD (State.init keyKBackend)
    let s₂ := (replay c (fun _ op => op.isEdit) (State.init keyKBackend)
      [.makeChild 0 default default, .put 1 keyK []]).getD (State.init keyKBackend)
    Function.Injective c.hash ∧ Function.Injective c.merkleTree ∧
      Reachable c (fun _ op => op.isEdit) s₁ ∧ Reachable c (fun _ op => op.isEdit) s₂ ∧
      merkleRoot c s₁ 1 = merkleRoot c s₂ 1 ∧
      (s₁.nodes[1]?).map (fun δ => (δ.isRemoved keyK, δ.backend.bind (·.map.get keyK))) =
        some (true, none) ∧
      (s₂.nodes[1]?).map (fun δ => (δ.isRemoved keyK, δ.backend.bind (·.map.get keyK))) =
        some (false, some []) := by
  intro c s₁ s₂
  have hd₁ : s₁.nodes[1]? = some ((s₁.nodes[1]?).getD (.ofBackend keyKBackend)) := by decide
  have hd₂ : s₂.nodes[1]? = some ((s₂.nodes[1]?).getD (.ofBackend keyKBackend)) := by decide
  have hroot : merkleRoot c s₁ 1 = merkleRoot c s₂ 1 := by
    rw [merkleRoot_of_uncached hd₁ (Option.eq_some_of_isSome (by decide)) (by decide),
      merkleRoot_of_uncached hd₂ (Option.eq_some_of_isSome (by decide)) (by decide),
      computeMerkleRoot, computeMerkleRoot]
    exact congrArg (some ∘ c.merkleTree) (by decide)
  exact ⟨Crypto.collisionFree_hash_injective, Crypto.collisionFree_merkleTree_injective,
    Reachable.of_replay_getD _ (by decide), Reachable.of_replay_getD _ (by decide), hroot,
    by decide, by decide⟩

/-! ## §3 — the leaves, against the distinct modified keys -/

/-- The merkle leaves as the spec states them: the DISTINCT modified keys in increasing order,
each giving `hash(key)` then `hash(value or empty)`. -/
def specMerkleLeafs (c : Crypto) (b : Backend) (removed : KeySet) : List Multihash :=
  (sortKeys (b.map.keys ++ removed.keys).dedup).flatMap fun key =>
    [c.hash key, c.hash ((b.map.get key).getD [])]

theorem length_flatMap_pair {α β : Type} (f g : α → β) (l : List α) :
    (l.flatMap fun x => [f x, g x]).length = 2 * l.length := by
  simp [List.length_flatMap, Function.comp_def, mul_comm]

/-- Deduplicating the modified keys drops nothing exactly when no key is both written and
tombstoned. -/
theorem dedup_modifiedKeys_eq_iff {b : Backend} {removed : KeySet} :
    (b.map.keys ++ removed.keys).dedup = b.map.keys ++ removed.keys ↔
      ∀ k, ¬ (b.map.contains k = true ∧ removed.contains k = true) := by
  rw [List.dedup_eq_self, ← (sortKeys_perm _).nodup_iff]
  exact objectKeys_nodup_iff

/-- **The code's leaves are the spec's exactly when no key is both written and tombstoned.** -/
theorem merkleLeafs_eq_specMerkleLeafs_iff {c : Crypto} {b : Backend} {removed : KeySet} :
    merkleLeafs c b removed = specMerkleLeafs c b removed ↔
      ∀ k, ¬ (b.map.contains k = true ∧ removed.contains k = true) := by
  rw [← dedup_modifiedKeys_eq_iff]
  refine ⟨fun h => (List.dedup_sublist _).eq_of_length ?_, fun h => by
    rw [specMerkleLeafs, h]; rfl⟩
  have hl := congrArg List.length h
  simp only [merkleLeafs, specMerkleLeafs, objectKeys, length_flatMap_pair,
    (sortKeys_perm _).length_eq] at hl
  omega

unseal find in
/-- **The merkle root counts the rewritten key twice.** After `eraseThenPut`, the child's
merkle root is the tree over four leaves, not over the two of its one modified key, and
with collision-free primitives the two roots differ. -/
theorem merkleRoot_counts_rewritten_key_twice :
    let c : Crypto := Crypto.collisionFree
    let s := (replay c (fun _ op => op.isEdit) (State.init keyKBackend) eraseThenPut).getD
      (State.init keyKBackend)
    let δ := (s.nodes[1]?).getD (.ofBackend keyKBackend)
    let b := δ.backend.getD Backend.mapBackend
    Reachable c (fun _ op => op.isEdit) s ∧ s.nodes[1]? = some δ ∧ δ.backend = some b ∧
      merkleRoot c s 1 = some (c.merkleTree (merkleLeafs c b δ.removedObjects)) ∧
      merkleLeafs c b δ.removedObjects = [c.hash keyK, c.hash [2], c.hash keyK, c.hash [2]] ∧
      specMerkleLeafs c b δ.removedObjects = [c.hash keyK, c.hash [2]] ∧
      merkleRoot c s 1 ≠ some (c.merkleTree (specMerkleLeafs c b δ.removedObjects)) := by
  intro c s δ b
  have hd : s.nodes[1]? = some δ := by decide
  have hb : δ.backend = some b := by decide
  have hm : merkleRoot c s 1 = some (c.merkleTree (merkleLeafs c b δ.removedObjects)) := by
    rw [merkleRoot_of_uncached hd hb (by decide)]; rfl
  refine ⟨Reachable.of_replay_getD _ (by decide), hd, hb, hm, by decide, by decide, ?_⟩
  rw [hm, Ne, Option.some.injEq]
  intro h
  have := congrArg List.length (Crypto.collisionFree_merkleTree_injective h)
  revert this
  decide

/-! ## §4 — recomputing the root from the export -/

/-- The merkle leaves a peer computes from exported entries: for each entry, `hash` of the
serialized `database_key{object_space, key}`, then `hash` of the value or of the empty
string. -/
def entryLeafs (c : Crypto) (serialize : DatabaseKey → Bytes) (es : List StateDeltaEntry) :
    List Multihash :=
  es.flatMap fun e => [c.hash (serialize ⟨e.objectSpace, e.key⟩), c.hash (e.value.getD [])]

theorem entryLeafs_filterMap {c : Crypto} {parse : Bytes → Option DatabaseKey}
    {serialize : DatabaseKey → Bytes} {b : Backend} :
    ∀ {l : List Bytes}, (∀ key ∈ l, ∃ dk, parse key = some dk ∧ serialize dk = key) →
      entryLeafs c serialize (l.filterMap (deltaEntry parse b)) =
        l.flatMap fun key => [c.hash key, c.hash ((b.map.get key).getD [])]
  | [], _ => rfl
  | key :: l, h => by
    obtain ⟨⟨space, k⟩, hp, hs⟩ := h key (List.mem_cons_self _ _)
    have ih : entryLeafs c serialize (l.filterMap (deltaEntry parse b)) = _ :=
      entryLeafs_filterMap fun k hk => h k (List.mem_cons_of_mem _ hk)
    simp only [entryLeafs] at ih ⊢
    simp [List.filterMap_cons, deltaEntry, hp, hs, ih]

/-- When every modified key parses as a database key that serializes back to it, the
leaves recomputed from the export are the merkle leaves. -/
theorem entryLeafs_getDeltaEntries {c : Crypto} {parse : Bytes → Option DatabaseKey}
    {serialize : DatabaseKey → Bytes} {b : Backend} {removed : KeySet}
    (h : ∀ key, isModified b removed key = true →
      ∃ dk, parse key = some dk ∧ serialize dk = key) :
    entryLeafs c serialize (getDeltaEntries parse b removed) = merkleLeafs c b removed :=
  entryLeafs_filterMap fun key hk => h key (isModified_iff_mem_objectKeys.mpr hk)

/-- **The merkle root from the export.** For a delta of any state that holds its backend and
has cached no merkle root, whose modified keys all parse as database keys that serialize
back to them, the tree over the leaves recomputed from `get_delta_entries()` is its merkle
root. -/
theorem merkleRoot_eq_entryRoot {c : Crypto} {parse : Bytes → Option DatabaseKey}
    {serialize : DatabaseKey → Bytes} {s : State} {d : Nat} {δ : StateDelta} {b : Backend}
    (hd : s.nodes[d]? = some δ) (hb : δ.backend = some b) (hc : δ.merkleRoot = none)
    (hkeys : ∀ key, isModified b δ.removedObjects key = true →
      ∃ dk, parse key = some dk ∧ serialize dk = key) :
    merkleRoot c s d =
      some (c.merkleTree (entryLeafs c serialize (getDeltaEntries parse b δ.removedObjects))) := by
  rw [merkleRoot_of_uncached hd hb hc, entryLeafs_getDeltaEntries hkeys]
  rfl

/-- `chain::database_key` with the default object space and a one-byte user key `u`,
serialized: the tag of field 2, length 1, then `u`. -/
def parseShortKey : Bytes → Option DatabaseKey
  | [0x12, 0x01, u] => some ⟨⟨false, [], 0⟩, [u]⟩
  | _ => none

unseal find nodeStack in
/-- The recomputed root for the grandchild `2` of `commitThenErase`, whose modified keys
`keyJ` and `keyK` parse as one-byte user keys of the default object space. -/
theorem merkleRoot_eq_entryRoot_after_commit :
    let c : Crypto := Crypto.collisionFree
    let s := (replay c nonCachingCall (State.init keyKBackend) commitThenErase).getD
      (State.init keyKBackend)
    let δ := (s.nodes[2]?).getD (.ofBackend keyKBackend)
    let b := δ.backend.getD Backend.mapBackend
    let serialize : DatabaseKey → Bytes := fun dk => 0x12 :: 0x01 :: dk.key
    s.nodes[2]? = some δ ∧ δ.backend = some b ∧ δ.merkleRoot = none ∧
      (∀ key, isModified b δ.removedObjects key = true →
        ∃ dk, parseShortKey key = some dk ∧ serialize dk = key) ∧
      merkleRoot c s 2 =
        some (c.merkleTree
          (entryLeafs c serialize (getDeltaEntries parseShortKey b δ.removedObjects))) := by
  intro c s δ b serialize
  have hd : s.nodes[2]? = some δ := by decide
  have hb : δ.backend = some b := by decide
  have hc : δ.merkleRoot = none := by decide
  have hkeys : ∀ key, isModified b δ.removedObjects key = true →
      ∃ dk, parseShortKey key = some dk ∧ serialize dk = key := by
    intro key hk
    have hmod : objectKeys b δ.removedObjects = [keyJ, keyK] := by decide
    rw [isModified_iff_mem_objectKeys, hmod] at hk
    rcases List.mem_pair.mp hk with rfl | rfl <;> exact ⟨_, rfl, rfl⟩
  exact ⟨hd, hb, hc, hkeys, merkleRoot_eq_entryRoot hd hb hc hkeys⟩

/-- **A root's merkle root is its backend's slot.** A fresh root over an empty map backend
modifies no key, yet its merkle root is the backend's merkle-root slot and not the tree over
no leaves, whatever the parser and the serializer of database keys are. -/
theorem rootMerkleRoot_ne_entryRoot :
    let c : Crypto := Crypto.collisionFree
    let b := Backend.mapBackend
    Reachable c (fun _ op => op.isEdit) (State.init b) ∧
      (∀ key, isModified b .empty key = false) ∧
      ∀ (parse : Bytes → Option DatabaseKey) (serialize : DatabaseKey → Bytes),
        merkleRoot c (State.init b) 0 ≠
          some (c.merkleTree (entryLeafs c serialize (getDeltaEntries parse b .empty))) := by
  intro c b
  refine ⟨⟨b, [], .nil _⟩, fun _ => rfl, fun parse serialize h => ?_⟩
  rw [show getDeltaEntries parse b .empty = [] from rfl, entryLeafs, List.flatMap_nil] at h
  revert h
  decide

/-- **The export lists each modified key once exactly when no key is both written and
tombstoned**, when every modified key parses. -/
theorem getDeltaEntries_length_eq_iff {parse : Bytes → Option DatabaseKey} {b : Backend}
    {removed : KeySet} (h : ∀ k, isModified b removed k = true → (parse k).isSome) :
    (getDeltaEntries parse b removed).length = (b.map.keys ++ removed.keys).dedup.length ↔
      ∀ k, ¬ (b.map.contains k = true ∧ removed.contains k = true) := by
  rw [length_getDeltaEntries h, ← List.length_append, ← dedup_modifiedKeys_eq_iff]
  exact ⟨fun hl => (List.dedup_sublist _).eq_of_length hl.symm, fun hd => by rw [hd]⟩

unseal find in
/-- **The export lists the rewritten key twice.** After `eraseThenPut`, for every parser that
reads `keyK` as a database key, the child's `get_delta_entries()` has two equal entries for
its one modified key. -/
theorem deltaEntries_export_rewritten_key_twice :
    let c : Crypto := ⟨fun _ => default, fun _ => default⟩
    let s := (replay c (fun _ op => op.isEdit) (State.init keyKBackend) eraseThenPut).getD
      (State.init keyKBackend)
    let δ := (s.nodes[1]?).getD (.ofBackend keyKBackend)
    let b := δ.backend.getD Backend.mapBackend
    Reachable c (fun _ op => op.isEdit) s ∧ s.nodes[1]? = some δ ∧ δ.backend = some b ∧
      (∀ k, isModified b δ.removedObjects k = true ↔ k = keyK) ∧
      ∀ (parse : Bytes → Option DatabaseKey) (dk : DatabaseKey), parse keyK = some dk →
        getDeltaEntries parse b δ.removedObjects =
          [⟨dk.space, dk.key, some [2]⟩, ⟨dk.space, dk.key, some [2]⟩] := by
  intro c s δ b
  have hd : s.nodes[1]? = some δ := by decide
  have hkeys : objectKeys b δ.removedObjects = [keyK, keyK] := by decide
  refine ⟨Reachable.of_replay_getD _ (by decide), hd, by decide, fun k => ?_,
    fun parse dk hp => ?_⟩
  · rw [isModified_iff_mem_objectKeys, hkeys]; simp
  · have hv : b.map.get keyK = some [2] := by decide
    simp [getDeltaEntries, hkeys, deltaEntry, hp, hv]

end StateDb.Laws
