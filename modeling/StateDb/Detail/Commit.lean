/-
# StateDb.Detail.Commit — `commit()`: the node stack, the write batch, and its two outcomes.

`state_delta::commit` works in the two phases its comment describes. It walks up from `this`
to the root pushing every delta on `node_stack`, takes the root's backend and RESETS the
root's pointer to it, and starts a write batch. Then it pops the stack from the oldest
delta to `this`, applying each delta's tombstones as erases and its entries as puts, writes
`this` delta's block header, revision, id and merkle root into the metadata slots, stores
the metadata and ends the batch. Only then does `this` take the backend, clear its
tombstones and drop its parent.

Every backend call may throw (a RocksDB write, the batch itself). The model numbers the
calls of one commit from `0` (`start_write_batch`) and takes the index of the failing one as
the argument `failAt`; `none` is a commit in which no call fails. What an exception leaves
behind is what the code has done before it: the old root has already lost its backend,
and, from `set_merkle_root` on, `this` has cached its merkle root.

The main lemma is `performAll_stackCalls`: the batch turns the root's contents into exactly
what `find` sees from `this`. It is proved by induction up the parent chain, one delta's
erases and puts at a time.
-/
import StateDb.Detail.MerkleRoot

namespace StateDb.Detail

open StateDb.Backends

/-- The exceptions `commit` throws: `KOINOS_ASSERT(..., internal_error, msg)`, and the
exception of a failing backend call. -/
inductive Error
  | internalError (msg : String)
  | backendFailure
deriving DecidableEq, Repr

/-! ## §1 — the node stack -/

/-- `node_stack`: `d`, its parent, and so on up to its root, `d` first. -/
def nodeStack (s : State) (d : Nat) : List Nat :=
  match hd : s.nodes[d]? with
  | none => [d]
  | some δ =>
    match hp : δ.parent with
    | none => [d]
    | some p =>
      have : p < d := s.parent_lt d δ p hd hp
      d :: nodeStack s p
termination_by d

section NodeStack

variable {s : State} {d : Nat} {δ : StateDelta}

/-- `nodeStack` by its one step: `d`, then the stack of its parent, if any. -/
theorem nodeStack_eq (hd : s.nodes[d]? = some δ) :
    nodeStack s d = d :: δ.parent.elim [] (nodeStack s) := by
  rw [nodeStack]
  split
  · simp_all
  · rename_i δ' hd'
    obtain rfl : δ' = δ := Option.some.inj (hd'.symm.trans hd)
    split <;> simp_all

theorem nodeStack_of_root (hd : s.nodes[d]? = some δ) (hp : δ.parent = none) :
    nodeStack s d = [d] := by
  simp [nodeStack_eq hd, hp]

theorem nodeStack_of_parent {p : Nat} (hd : s.nodes[d]? = some δ) (hp : δ.parent = some p) :
    nodeStack s d = d :: nodeStack s p := by
  simp [nodeStack_eq hd, hp]

theorem nodeStack_ne_nil (s : State) (d : Nat) : nodeStack s d ≠ [] := by
  rw [nodeStack]; split
  · simp
  · split <;> simp

end NodeStack

/-- `node_stack.back()`: the root `d` is committed into. -/
def rootOf (s : State) (d : Nat) : Nat := (nodeStack s d).getLast (nodeStack_ne_nil s d)

theorem rootOf_of_root {s : State} {d : Nat} {δ : StateDelta} (hd : s.nodes[d]? = some δ)
    (hp : δ.parent = none) : rootOf s d = d := by
  simp [rootOf, nodeStack_of_root hd hp]

theorem rootOf_of_parent {s : State} {d p : Nat} {δ : StateDelta} (hd : s.nodes[d]? = some δ)
    (hp : δ.parent = some p) : rootOf s d = rootOf s p := by
  simp only [rootOf, nodeStack_of_parent hd hp]
  exact List.getLast_cons (nodeStack_ne_nil s p)

/-- The root of `d` is on its parent chain and is a root. -/
theorem rootOf_spec (s : State) (d : Nat) (hd : d < s.nodes.length) :
    OnChain s d (rootOf s d) ∧ ∃ ρ, s.nodes[rootOf s d]? = some ρ ∧ ρ.parent = none := by
  induction d using Nat.strong_induction_on with
  | _ d ih =>
  obtain ⟨δ, hδ⟩ : ∃ δ, s.nodes[d]? = some δ :=
    ⟨s.nodes[d], List.getElem?_eq_getElem hd⟩
  cases hp : δ.parent with
  | none => rw [rootOf_of_root hδ hp]; exact ⟨.refl d, δ, hδ, hp⟩
  | some p =>
    have hlt := s.parent_lt d δ p hδ hp
    obtain ⟨hc, hρ⟩ := ih p hlt (by omega)
    rw [rootOf_of_parent hδ hp]
    exact ⟨.parent hδ hp hc, hρ⟩

/-- A non-root delta is not its own root. -/
theorem rootOf_ne_of_not_root {s : State} {d : Nat} {δ : StateDelta} (hd : s.nodes[d]? = some δ)
    (hnr : δ.isRoot = false) : rootOf s d ≠ d := fun h => by
  obtain ⟨-, ρ, hρ, hρroot⟩ := rootOf_spec s d (State.lt_length hd)
  rw [h, hd] at hρ; cases hρ; simp [StateDelta.isRoot, hρroot] at hnr

/-! ## §2 — the write batch -/

/-- One delta's share of the batch: its tombstones as erases, then its entries as puts. -/
def mergeCalls (ν : StateDelta) (b : Backend) : List BackendCall :=
  ν.removedObjects.keys.map .erase ++ b.map.entries.map fun e => .put e.1 e.2

/-- The merge calls of the given deltas in order, or `none` at a NULL backend. -/
def stackCalls (s : State) : List Nat → Option (List BackendCall)
  | [] => some []
  | h :: hs => do
    let ν ← s.nodes[h]?
    let b ← ν.backend
    let rest ← stackCalls s hs
    return mergeCalls ν b ++ rest

/-- The calls up to `set_id`: the batch opens, the deltas below the root merge oldest
first, then the block header, revision and id of the committed delta `δ`. -/
def batchPre (merges : List BackendCall) (δ : StateDelta) (db : Backend) : List BackendCall :=
  .startWriteBatch :: merges ++
    [.setBlockHeader db.blockHeader, .setRevision δ.revision, .setId δ.id]

/-- The calls from `set_merkle_root` on, once `merkle_root()` has given `m`. -/
def batchPost (m : Multihash) : List BackendCall :=
  [.setMerkleRoot m, .storeMetadata, .endWriteBatch]

/-- The state after `_backend.reset()` on the old root `r`. -/
def resetBackend (s : State) (r : Nat) : State :=
  s.modify r (fun ρ => { ρ with backend := none }) fun _ _ h => h

/-- The state once `merkle_root()` has cached `m` on `d`. -/
def cacheRoot (s : State) (d : Nat) (m : Multihash) : State :=
  s.modify d (fun δ => { δ with merkleRoot := some m }) fun _ _ h => h

/-- The end of a successful commit: `d` takes the backend `b`, no tombstones, no parent. -/
def becomeRoot (s : State) (d : Nat) (b : Backend) : State :=
  s.modify d (fun δ => { δ with removedObjects := .empty, backend := some b, parent := none })
    fun _ _ h => nomatch h

@[simp] theorem resetBackend_nodes (s : State) (r e : Nat) : (resetBackend s r).nodes[e]? =
    if r = e then s.nodes[e]?.map fun ρ => { ρ with backend := none } else s.nodes[e]? :=
  State.modify_nodes ..

@[simp] theorem cacheRoot_nodes (s : State) (d : Nat) (m : Multihash) (e : Nat) :
    (cacheRoot s d m).nodes[e]? =
      if d = e then s.nodes[e]?.map fun δ => { δ with merkleRoot := some m } else s.nodes[e]? :=
  State.modify_nodes ..

@[simp] theorem becomeRoot_nodes (s : State) (d : Nat) (b : Backend) (e : Nat) :
    (becomeRoot s d b).nodes[e]? = if d = e then s.nodes[e]?.map fun δ =>
      { δ with removedObjects := .empty, backend := some b, parent := none } else s.nodes[e]? :=
  State.modify_nodes ..

/-- What `commit` leaves once it holds the old root's `backend`: the batch `pre ++ post`
runs, and a failing call at `failAt` stops it where it stands. -/
def commitOutcome (s : State) (d r : Nat) (backend : Backend) (pre post : List BackendCall)
    (m : Multihash) (failAt : Option Nat) : State × Option Error :=
  let s₀ := resetBackend s r
  let s₁ := cacheRoot s₀ d m
  let done := (becomeRoot s₁ d (backend.performAll (pre ++ post)), none)
  match failAt with
  | some i =>
    if i < pre.length then (s₀, some .backendFailure)
    else if i < pre.length + post.length then (s₁, some .backendFailure)
    else done
  | none => done

/-- `commit()`, with the index of the backend call that throws, if any. -/
def commit (c : Crypto) (s : State) (d : Nat) (failAt : Option Nat) :
    Option (State × Option Error) := do
  let δ ← s.nodes[d]?
  if δ.isRoot then return (s, some (.internalError "cannot commit root"))
  let r := rootOf s d
  let ρ ← s.nodes[r]?
  let backend ← ρ.backend
  let merges ← stackCalls s (nodeStack s d).dropLast.reverse
  let db ← δ.backend
  let m ← merkleRootOf c δ
  return commitOutcome s d r backend (batchPre merges δ db) (batchPost m) m failAt

/-! ## §3 — what the batch leaves in the backend -/

/-- One delta's merge calls do to the root's backend what `squash` does to a parent's. -/
theorem performAll_mergeCalls (b₀ : Backend) (ν : StateDelta) (b : Backend) :
    b₀.performAll (mergeCalls ν b) = squashBackend b₀ ν b := by
  simp only [mergeCalls, Backend.performAll_append, Backend.performAll_erase,
    Backend.performAll_put, squashBackend]

theorem stackCalls_cons {s : State} {x : Nat} {l : List Nat} {calls : List BackendCall} :
    stackCalls s (x :: l) = some calls ↔
      ∃ ν, s.nodes[x]? = some ν ∧ ∃ b, ν.backend = some b ∧
        ∃ rest, stackCalls s l = some rest ∧ mergeCalls ν b ++ rest = calls := by
  simp only [stackCalls, Option.bind_eq_bind, Option.bind_eq_some, Option.pure_def,
    Option.some.injEq]

theorem stackCalls_append_single {s : State} {x : Nat} {ν : StateDelta} {b : Backend}
    (hx : s.nodes[x]? = some ν) (hb : ν.backend = some b) :
    ∀ {l : List Nat} {calls : List BackendCall}, stackCalls s l = some calls →
      stackCalls s (l ++ [x]) = some (calls ++ mergeCalls ν b)
  | [], _, h => by cases h; simp [stackCalls, hx, hb]
  | _ :: _, _, h => by
    obtain ⟨ν', hx', b', hb', rest, hl, rfl⟩ := stackCalls_cons.mp h
    exact stackCalls_cons.mpr ⟨ν', hx', b', hb', _, stackCalls_append_single hx hb hl, by simp⟩

/-- The merges touch the contents of the backend and no metadata slot. -/
theorem performAll_stackCalls_map {s : State} :
    ∀ {l : List Nat} {calls : List BackendCall}, stackCalls s l = some calls →
      ∀ b₀ : Backend, b₀.performAll calls = { b₀ with map := (b₀.performAll calls).map }
  | [], _, h, _ => by cases h; rfl
  | _ :: _, _, h, b₀ => by
    obtain ⟨ν, -, b, -, rest, hl, rfl⟩ := stackCalls_cons.mp h
    rw [Backend.performAll_append, performAll_mergeCalls, performAll_stackCalls_map hl]
    rfl

/-- A root answers every key from its own backend. -/
theorem find_of_root {s : State} {d : Nat} {δ : StateDelta} {b : Backend}
    (hd : s.nodes[d]? = some δ) (hb : δ.backend = some b) (hp : δ.parent = none) (k : Bytes) :
    find s d k = some (b.map.get k) := by
  rw [find_eq k hd]
  cases hg : b.map.get k with
  | some v => exact StateDelta.findLayer_of_get hb hg
  | none =>
    cases hr : δ.isRemoved k
    · exact StateDelta.findLayer_of_root hb hg hr hp
    · exact StateDelta.findLayer_of_removed hb hg hr

/-- Merging `δ` over a backend that answers as `δ`'s parent does answers as `δ` does. -/
theorem find_of_squashBackend {s : State} {d p : Nat} {δ : StateDelta} {b b₀ : Backend}
    {k : Bytes} (hd : s.nodes[d]? = some δ) (hb : δ.backend = some b)
    (hp : δ.parent = some p) (hup : some (b₀.map.get k) = find s p k) :
    some ((squashBackend b₀ δ b).map.get k) = find s d k := by
  rw [squashBackend_get, find_eq k hd]
  cases hg : b.map.get k with
  | some v => exact (StateDelta.findLayer_of_get hb hg).symm
  | none =>
    cases hr : δ.isRemoved k
    · rw [StateDelta.findLayer_of_parent hb hg hr hp]; exact hup
    · exact (StateDelta.findLayer_of_removed hb hg hr).symm

/-- Every delta on the parent chain of `d` still holds its backend. -/
def ChainLive (s : State) (d : Nat) : Prop :=
  ∀ x, OnChain s d x → ∃ ν b, s.nodes[x]? = some ν ∧ ν.backend = some b

/-- **What the batch leaves.** On a live chain the merges of the deltas below the root, run
oldest first over the root's backend, leave exactly the contents `find` sees from `d`. -/
theorem performAll_stackCalls {s : State} {d : Nat} (hl : ChainLive s d) :
    ∃ ρ ρb calls, s.nodes[rootOf s d]? = some ρ ∧ ρ.backend = some ρb ∧
      stackCalls s (nodeStack s d).dropLast.reverse = some calls ∧
      ∀ k, some ((ρb.performAll calls).map.get k) = find s d k := by
  induction d using Nat.strong_induction_on with
  | _ d ih =>
  obtain ⟨δ, b, hd, hb⟩ := hl d (.refl d)
  cases hp : δ.parent with
  | none =>
    rw [rootOf_of_root hd hp, nodeStack_of_root hd hp]
    exact ⟨δ, b, [], hd, hb, rfl, fun k => (find_of_root hd hb hp k).symm⟩
  | some p =>
    obtain ⟨ρ, ρb, calls, hρ, hρb, hc, hfind⟩ :=
      ih p (s.parent_lt d δ p hd hp) fun x hx => hl x (.parent hd hp hx)
    refine ⟨ρ, ρb, calls ++ mergeCalls δ b, by rwa [rootOf_of_parent hd hp], hρb, ?_,
      fun k => ?_⟩
    · rw [nodeStack_of_parent hd hp, List.dropLast_cons_of_ne_nil (nodeStack_ne_nil s p),
        List.reverse_cons]
      exact stackCalls_append_single hd hb hc
    · rw [Backend.performAll_append, performAll_mergeCalls]
      exact find_of_squashBackend hd hb hp (hfind k)

/-- The whole batch: the merges set the contents, then the metadata calls set every slot. -/
theorem performAll_batch {s : State} {l : List Nat} {merges : List BackendCall} {δ : StateDelta}
    {db : Backend} {m : Multihash} (hc : stackCalls s l = some merges) (b₀ : Backend) :
    b₀.performAll (batchPre merges δ db ++ batchPost m) =
      { map := (b₀.performAll merges).map, revision := δ.revision, id := δ.id,
        merkleRoot := m, blockHeader := db.blockHeader } := by
  simp only [batchPre, batchPost, List.cons_append, List.append_assoc, Backend.performAll_cons,
    Backend.performAll_append]
  rw [show b₀.perform .startWriteBatch = b₀ from rfl, performAll_stackCalls_map hc]
  rfl

/-! ## §4 — the outcomes of `commit` -/

section Outcome

variable {c : Crypto} {s : State} {d : Nat} {δ : StateDelta} {failAt : Option Nat}

theorem commit_of_root (hd : s.nodes[d]? = some δ) (hr : δ.isRoot = true) :
    commit c s d failAt = some (s, some (.internalError "cannot commit root")) := by
  simp [commit, hd, hr]

/-- On a non-root delta whose reads all succeed, `commit` is its outcome. -/
theorem commit_eq {ρ : StateDelta} {ρb db : Backend} {merges : List BackendCall}
    {m : Multihash} (hd : s.nodes[d]? = some δ) (hr : δ.isRoot = false)
    (hρ : s.nodes[rootOf s d]? = some ρ) (hρb : ρ.backend = some ρb)
    (hc : stackCalls s (nodeStack s d).dropLast.reverse = some merges)
    (hdb : δ.backend = some db) (hm : merkleRootOf c δ = some m) :
    commit c s d failAt = some (commitOutcome s d (rootOf s d) ρb (batchPre merges δ db)
      (batchPost m) m failAt) := by
  simp [commit, hd, hr, hρ, hρb, hc, hdb, hm]

/-- **Inversion of `commit`.** It asserts on a root, and otherwise reads the root's backend,
the merges, its own backend and its merkle root before the batch runs. -/
theorem commit_eq_some {s' : State} {err : Option Error}
    (h : commit c s d failAt = some (s', err)) :
    ∃ δ, s.nodes[d]? = some δ ∧
      ((δ.isRoot = true ∧ s' = s ∧ err = some (.internalError "cannot commit root")) ∨
       (δ.isRoot = false ∧ ∃ ρ ρb merges db m, s.nodes[rootOf s d]? = some ρ ∧
          ρ.backend = some ρb ∧ stackCalls s (nodeStack s d).dropLast.reverse = some merges ∧
          δ.backend = some db ∧ merkleRootOf c δ = some m ∧
          commitOutcome s d (rootOf s d) ρb (batchPre merges δ db) (batchPost m) m failAt =
            (s', err))) := by
  simp only [commit, Option.bind_eq_bind, Option.bind_eq_some, Option.pure_def] at h
  obtain ⟨δ, hd, h⟩ := h
  refine ⟨δ, hd, ?_⟩
  cases hr : δ.isRoot
  · simp only [hr, Bool.false_eq_true, ite_false, Option.bind_eq_some, Option.some.injEq] at h
    obtain ⟨-, -, ρ, hρ, ρb, hρb, merges, hc, db, hdb, m, hm, h⟩ := h
    exact .inr ⟨rfl, ρ, ρb, merges, db, m, hρ, hρb, hc, hdb, hm, h⟩
  · simp only [hr, ite_true, Option.some.injEq, Prod.mk.injEq] at h
    exact .inl ⟨rfl, h.1.symm, h.2.symm⟩

/-- The three states a batch can leave: the old root without its backend, then `d` with its
merkle root cached once the failure comes after `merkle_root()` has run, and on success
`d` a root holding the backend. -/
theorem commitOutcome_cases {r : Nat} {b : Backend} {pre post : List BackendCall}
    {m : Multihash} {s' : State} {err : Option Error}
    (h : commitOutcome s d r b pre post m failAt = (s', err)) :
    (err = some .backendFailure ∧
      (s' = resetBackend s r ∨ s' = cacheRoot (resetBackend s r) d m)) ∨
    (err = none ∧
      s' = becomeRoot (cacheRoot (resetBackend s r) d m) d (b.performAll (pre ++ post))) := by
  simp only [commitOutcome] at h
  split at h
  · split_ifs at h <;> simp_all
  · simp_all

theorem commitOutcome_of_fail {r : Nat} {b : Backend} {pre post : List BackendCall}
    {m : Multihash} {s' : State} (h : commitOutcome s d r b pre post m failAt =
      (s', some .backendFailure)) :
    s' = resetBackend s r ∨ s' = cacheRoot (resetBackend s r) d m := by
  rcases commitOutcome_cases h with ⟨-, h⟩ | ⟨h, -⟩
  · exact h
  · cases h

/-- **A commit on a live chain.** When every delta on the parent chain of the non-root `d`
holds its backend, `commit` succeeds: the old root loses its backend, and `d` becomes a root
caching its merkle root `m` and holding the backend `B`, whose contents are what `find` saw
from `d` and whose slots hold `d`'s revision, id, merkle root and block header. -/
theorem commit_of_chainLive (hd : s.nodes[d]? = some δ) (hnr : δ.isRoot = false)
    (hl : ChainLive s d) :
    ∃ m B, merkleRootOf c δ = some m ∧
      commit c s d none =
        some (becomeRoot (cacheRoot (resetBackend s (rootOf s d)) d m) d B, none) ∧
      (∀ k, some (B.map.get k) = find s d k) ∧ B.revision = δ.revision ∧ B.id = δ.id ∧
      B.merkleRoot = m ∧ δ.backend.map (·.blockHeader) = some B.blockHeader := by
  obtain ⟨ρ, ρb, calls, hρ, hρb, hc, hfind⟩ := performAll_stackCalls hl
  obtain ⟨ν, db, hν, hdb⟩ := hl d (.refl d)
  obtain rfl : ν = δ := Option.some.inj (hν.symm.trans hd)
  obtain ⟨m, hm⟩ := merkleRootOf_isSome (c := c) hdb
  have hB : ρb.performAll (batchPre calls ν db ++ batchPost m) =
      { map := (ρb.performAll calls).map, revision := ν.revision, id := ν.id,
        merkleRoot := m, blockHeader := db.blockHeader } := performAll_batch hc ρb
  refine ⟨m, _, hm, commit_eq hd hnr hρ hρb hc hdb hm, fun k => ?_, by rw [hB], by rw [hB],
    by rw [hB], by rw [hB, hdb]; rfl⟩
  rw [hB]
  exact hfind k

end Outcome

/-- A layer whose parent answers as before or faults answers as before or faults. -/
theorem StateDelta.findLayer_mono {δ : StateDelta} {k : Bytes}
    {up₁ up₂ : Nat → Option (Option Bytes)}
    (h : ∀ p, δ.parent = some p → up₁ p = up₂ p ∨ up₁ p = none) :
    δ.findLayer k up₁ = δ.findLayer k up₂ ∨ δ.findLayer k up₁ = none := by
  unfold StateDelta.findLayer
  split; · exact .inl rfl
  split; · exact .inl rfl
  split; · exact .inl rfl
  split
  · exact .inl rfl
  · exact h _ ‹_›

/-- Taking the backend out of `r` changes `find` only by making the lookups that reach `r`
fault. -/
theorem find_resetBackend (s : State) (r e : Nat) (k : Bytes) :
    find (resetBackend s r) e k = find s e k ∨ find (resetBackend s r) e k = none := by
  induction e using Nat.strong_induction_on with
  | _ e ih =>
  cases he : s.nodes[e]? with
  | none => exact .inl (by rw [find_of_none k he, find_of_none k (by simp [he])])
  | some δ =>
    by_cases hre : r = e
    · have he' : (resetBackend s r).nodes[e]? = some { δ with backend := none } := by
        simp [hre, he]
      exact .inr (by rw [find_eq k he']; rfl)
    · have he' : (resetBackend s r).nodes[e]? = some δ := by simp [hre, he]
      rw [find_eq k he', find_eq k he]
      exact StateDelta.findLayer_mono fun p hp => ih p (s.parent_lt e δ p he hp)

end StateDb.Detail
