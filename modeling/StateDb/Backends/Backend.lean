/-
# StateDb.Backends.Backend — `abstract_backend`: contents, metadata slots, and the calls made
on it.

`backends/backend.hpp` declares the backend interface and `backend.cpp` implements its four
metadata slots. A `Backend` is one backend object: its ordered contents (`OrderedMap Bytes`)
and the slots `revision`, `id`, `merkle_root`, `block_header`, each with the value the
`abstract_backend()` constructor gives it.

The bodies of `map_backend` and `rocksdb_backend` are not in this repository's sources (only
the RocksDB header is), so their contents operations follow the backend contract of the spec
(§4.1). Both behave alike at this layer: `put` overwrites, `erase` is idempotent, `clone` is an
independent copy, and `clear` empties the map and resets the slots.

`BackendCall` lists the calls `state_delta::commit` makes on the root's backend, and
`Backend.perform` runs one. The write batch buffers the mutating calls until
`end_write_batch`; that is what makes the durable store see all of a commit or none of it.
Nothing reads the backend between `start_write_batch` and `end_write_batch`, so on the
contents the batch hands on it is the same as applying each call when it is made.
-/
import StateDb.Backends.OrderedMap

namespace StateDb.Backends

/-- `crypto::multihash`: a multicodec hash-function code and a digest. -/
structure Multihash where
  code : UInt64
  digest : Bytes
deriving DecidableEq, Repr, Inhabited

/-- Modelled from the spec: `multihash::zero(multicodec::sha2_256)`, the all-zeros sentinel
id of genesis (the sha2-256 code `0x12` with a 32-byte zero digest). -/
def Multihash.zero : Multihash := ⟨0x12, List.replicate 32 0⟩

/-- `protocol::block_header`: a message this layer only stores and hands back, kept as its
serialized bytes. -/
structure BlockHeader where
  bytes : Bytes
deriving DecidableEq, Repr, Inhabited

/-- One backend object: its contents and the four metadata slots of `abstract_backend`,
with the defaults of its constructor (`_revision = 0`, `_id = zero(sha2_256)`). -/
structure Backend where
  map : OrderedMap Bytes
  revision : UInt64 := 0
  id : Multihash := Multihash.zero
  merkleRoot : Multihash := default
  blockHeader : BlockHeader := default
deriving DecidableEq

attribute [ext] Backend

namespace Backend

/-- A fresh `map_backend`: no entries, the constructor's metadata. -/
def mapBackend : Backend := { map := .empty }

/-- Modelled from the spec: `size()`, the number of objects. -/
def size (b : Backend) : Nat := b.map.size

/-- Modelled from the spec: `clone()`, an independent backend with the same contents and
metadata. -/
def clone (b : Backend) : Backend := b

/-- Modelled from the spec: `clear()` removes all entries and resets the metadata slots to
zero/empty. -/
def clear (_ : Backend) : Backend :=
  { map := .empty, revision := 0, id := Multihash.zero, merkleRoot := Multihash.zero }

/-- Modelled from the spec: `put(k, v)` on the contents. -/
def put (b : Backend) (k v : Bytes) : Backend := { b with map := b.map.put k v }

/-- Modelled from the spec: `erase(k)` on the contents. -/
def erase (b : Backend) (k : Bytes) : Backend := { b with map := b.map.erase k }

/-- `set_revision`. -/
def setRevision (b : Backend) (r : UInt64) : Backend := { b with revision := r }

/-- `set_id`. -/
def setId (b : Backend) (i : Multihash) : Backend := { b with id := i }

/-- `set_merkle_root`. -/
def setMerkleRoot (b : Backend) (m : Multihash) : Backend := { b with merkleRoot := m }

/-- `set_block_header`. -/
def setBlockHeader (b : Backend) (h : BlockHeader) : Backend := { b with blockHeader := h }

end Backend

/-! ## The calls `commit` makes, one at a time -/

/-- A call on a backend, as `state_delta::commit` makes them. -/
inductive BackendCall
  | startWriteBatch
  | erase (k : Bytes)
  | put (k v : Bytes)
  | setBlockHeader (h : BlockHeader)
  | setRevision (r : UInt64)
  | setId (i : Multihash)
  | setMerkleRoot (m : Multihash)
  | storeMetadata
  | endWriteBatch
deriving DecidableEq, Repr

namespace Backend

/-- Run one call. `store_metadata` writes the slots into the batch and the batch calls
flush it to the store; the in-memory view of the backend does not change. -/
def perform (b : Backend) : BackendCall → Backend
  | .startWriteBatch => b
  | .erase k => b.erase k
  | .put k v => b.put k v
  | .setBlockHeader h => b.setBlockHeader h
  | .setRevision r => b.setRevision r
  | .setId i => b.setId i
  | .setMerkleRoot m => b.setMerkleRoot m
  | .storeMetadata => b
  | .endWriteBatch => b

/-- Run calls in order. -/
def performAll (b : Backend) (calls : List BackendCall) : Backend := calls.foldl perform b

@[simp] theorem performAll_nil (b : Backend) : b.performAll [] = b := rfl

@[simp] theorem performAll_append (b : Backend) (c₁ c₂ : List BackendCall) :
    b.performAll (c₁ ++ c₂) = (b.performAll c₁).performAll c₂ := List.foldl_append _ _ _ _

@[simp] theorem performAll_cons (b : Backend) (c : BackendCall) (cs : List BackendCall) :
    b.performAll (c :: cs) = (b.perform c).performAll cs := rfl

/-- A loop of erases only touches the contents. -/
theorem performAll_erase (b : Backend) (ks : List Bytes) :
    b.performAll (ks.map .erase) = { b with map := ks.foldl (fun m r => m.erase r) b.map } := by
  induction ks generalizing b with
  | nil => rfl
  | cons k ks ih => exact ih (b.erase k)

/-- A loop of puts over entries only touches the contents. -/
theorem performAll_put (b : Backend) (es : List (Bytes × Bytes)) :
    b.performAll (es.map fun e => .put e.1 e.2) =
      { b with map := es.foldl (fun m e => m.put e.1 e.2) b.map } := by
  induction es generalizing b with
  | nil => rfl
  | cons e es ih => exact ih (b.put e.1 e.2)

end Backend

end StateDb.Backends
