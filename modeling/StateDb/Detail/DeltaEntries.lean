/-
# StateDb.Detail.DeltaEntries — `get_delta_entries()`: the export of one delta's changes.

`state_delta::get_delta_entries` collects the same `object_keys` as `merkle_root` (the
own-backend keys, then the tombstones, sorted, a duplicate kept), parses each key as a
`chain::database_key` and, when parsing succeeds, emits a `protocol::state_delta_entry`
carrying the key's object space and user key, and the own backend's value when there is one.
A key that does not parse is skipped.

`database_key::ParseFromString` is protobuf code of koinos-proto, not of this repository: the
model takes it as the parameter `parse`.

`is_modified(k)` is the test the export is meant to enumerate: `k` is in the own backend or in
the tombstone set.
-/

import StateDb.Detail.MerkleRoot

namespace StateDb.Detail

open StateDb.Backends

/-- `chain::object_space`: the three fields `get_delta_entries` copies. -/
structure ObjectSpace where
  system : Bool
  zone : Bytes
  id : UInt32
deriving DecidableEq, Repr

/-- `chain::database_key`: an object space and a user key. -/
structure DatabaseKey where
  space : ObjectSpace
  key : Bytes
deriving DecidableEq, Repr

/-- `protocol::state_delta_entry`; an absent `value` marks a tombstone. -/
structure StateDeltaEntry where
  objectSpace : ObjectSpace
  key : Bytes
  value : Option Bytes
deriving DecidableEq, Repr

/-- `is_modified(k)` on a delta with backend `b` and tombstones `removed`. -/
def isModified (b : Backend) (removed : KeySet) (k : Bytes) : Bool :=
  (b.map.get k).isSome || removed.contains k

/-- The entry of one object key, when it parses as a database key. -/
def deltaEntry (parse : Bytes → Option DatabaseKey) (b : Backend) (key : Bytes) :
    Option StateDeltaEntry :=
  (parse key).map fun dk => { objectSpace := dk.space, key := dk.key, value := b.map.get key }

/-- `get_delta_entries()` on a delta with backend `b` and tombstones `removed`. -/
def getDeltaEntries (parse : Bytes → Option DatabaseKey) (b : Backend) (removed : KeySet) :
    List StateDeltaEntry :=
  (objectKeys b removed).filterMap (deltaEntry parse b)

theorem isModified_iff_mem_objectKeys {b : Backend} {removed : KeySet} {k : Bytes} :
    isModified b removed k = true ↔ k ∈ objectKeys b removed := by
  rw [mem_objectKeys]; rfl

/-- When every modified key parses, the export has one entry per object key: one per own
key and one per tombstone, so a key both written and tombstoned gives two. -/
theorem length_getDeltaEntries {parse : Bytes → Option DatabaseKey} {b : Backend}
    {removed : KeySet} (h : ∀ k, isModified b removed k = true → (parse k).isSome) :
    (getDeltaEntries parse b removed).length = b.map.keys.length + removed.keys.length := by
  rw [getDeltaEntries, List.filterMap_length_eq_length.mpr fun k hk =>
      by simpa [deltaEntry] using h k (isModified_iff_mem_objectKeys.mpr hk),
    objectKeys, (sortKeys_perm _).length_eq, List.length_append]

end StateDb.Detail
