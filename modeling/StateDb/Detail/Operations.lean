/-
# StateDb.Detail.Operations — `put`, `erase`, `squash`, `make_child`, `clone` and the setters.

Each method of `state_delta` that changes a delta becomes a function `State → Option State`
(`make_child` and `clone` also return the new handle). `none` is a NULL backend
dereference, and nothing else: every other path of these methods is total.

Every operation is stated ONCE as an inversion lemma (`put_eq_some`, `erase_eq_some`, ...):
what the state after it is, and on which guards. Later proofs start from those and never
unfold an operation again.

The one law proved here is the **squash law**, `squash_law`: after `C.squash()` the parent
answers every key as `C` did before, and `C` itself still answers as before. It holds in
EVERY state, whatever the parent is (the root, whose tombstones `squash` leaves alone, or not)
and whatever `C`'s own backend and tombstone set share; it needs only the case split over
where `C`'s answer for a key comes from.
-/
import StateDb.Detail.StateDelta

namespace StateDb.Detail

open StateDb.Backends

/-! ## §1 — the operations -/

/-- `put(k, v)`: write into the own backend. The tombstone set is not touched. -/
def put (s : State) (d : Nat) (k v : Bytes) : Option State := do
  let δ ← s.nodes[d]?
  let b ← δ.backend
  return s.modify d (fun δ => { δ with backend := some (b.put k v) }) fun _ _ h => h

/-- `erase(k)`: if `find(k)` sees a value, erase `k` from the own backend and tombstone it. -/
def erase (s : State) (d : Nat) (k : Bytes) : Option State := do
  let r ← find s d k
  if r.isSome then
    let δ ← s.nodes[d]?
    let b ← δ.backend
    return s.modify d
      (fun δ => { δ with
        backend := some (b.erase k), removedObjects := δ.removedObjects.insert k })
      fun _ _ h => h
  else return s

/-- The parent's backend after `squash`: the child's tombstones erased, then its entries put. -/
def squashBackend (pb : Backend) (δ : StateDelta) (b : Backend) : Backend :=
  let erased := δ.removedObjects.keys.foldl (fun m r => m.erase r) pb.map
  { pb with map := b.map.entries.foldl (fun m e => m.put e.1 e.2) erased }

/-- A non-root parent's tombstones after `squash`: the child's tombstones added, then every
key the child wrote removed. -/
def squashRemoved (pr : KeySet) (δ : StateDelta) (b : Backend) : KeySet :=
  b.map.entries.foldl (fun m e => m.erase e.1)
    (δ.removedObjects.keys.foldl (fun m r => m.insert r) pr)

/-- What `squash` makes of the parent `π` (with backend `pb`) of `δ` (with backend `b`): a
root parent keeps its tombstones. -/
def squashParent (pb : Backend) (δ : StateDelta) (b : Backend) (π : StateDelta) : StateDelta :=
  { π with
    backend := some (squashBackend pb δ b)
    removedObjects :=
      if π.isRoot then π.removedObjects else squashRemoved π.removedObjects δ b }

/-- `squash()`: merge this delta's tombstones and writes into its parent; a no-op on a root.
Both loops dereference the parent's backend once per key, so a NULL parent backend is only
reached when the child has something to merge. -/
def squash (s : State) (d : Nat) : Option State := do
  let δ ← s.nodes[d]?
  match δ.parent with
  | none => return s
  | some p =>
    let π ← s.nodes[p]?
    let b ← δ.backend
    match π.backend with
    | none => if δ.removedObjects.keys = [] ∧ b.map.keys = [] then return s else none
    | some pb => return s.modify p (squashParent pb δ b) fun _ _ h => h

/-- The delta `make_child(id, header)` creates under `d`. -/
def childOf (δ : StateDelta) (d : Nat) (id : Multihash) (header : BlockHeader) : StateDelta where
  parent := some d
  backend := some (Backend.mapBackend.setBlockHeader header)
  removedObjects := .empty
  id := id
  revision := δ.revision + 1
  merkleRoot := none
  finalized := false

/-- `make_child(id, header)`: a fresh child, with revision one above and an empty map
backend whose block-header slot is `header`. Returns the state and the child's handle. -/
def makeChild (s : State) (d : Nat) (id : Multihash) (header : BlockHeader) :
    Option (State × Nat) :=
  match hd : s.nodes[d]? with
  | none => none
  | some δ =>
    some (s.alloc (childOf δ d id header) (fun _ hp => by
      cases hp; exact State.lt_length hd), s.nodes.length)

/-- The backend `clone` gives the new delta: a copy of `b` with the new id, the source's
revision, `header`, and the source's cached merkle root when it has one. -/
def cloneBackend (δ : StateDelta) (b : Backend) (id : Multihash) (header : BlockHeader) :
    Backend :=
  let nb := ((b.clone.setId id).setRevision δ.revision).setBlockHeader header
  match δ.merkleRoot with
  | some m => nb.setMerkleRoot m
  | none => nb

/-- `clone(id, header)`: a sibling with the same parent, a copy of the backend and of the
tombstones, the same revision, finalized flag and cached merkle root, and the new id. -/
def clone (s : State) (d : Nat) (id : Multihash) (header : BlockHeader) :
    Option (State × Nat) :=
  match hd : s.nodes[d]? with
  | none => none
  | some δ =>
    match δ.backend with
    | none => none
    | some b =>
      some (s.alloc { δ with backend := some (cloneBackend δ b id header), id := id }
        (fun p hp => (s.parent_lt d δ p hd hp).trans (State.lt_length hd)), s.nodes.length)

/-- `clear()`: clear the backend and the tombstones, revision `0`, the zero id. The cached
merkle root is not reset. -/
def clear (s : State) (d : Nat) : Option State := do
  let δ ← s.nodes[d]?
  let b ← δ.backend
  return s.modify d (fun δ => { δ with
      backend := some b.clear, removedObjects := .empty, revision := 0, id := Multihash.zero })
    fun _ _ h => h

/-- `finalize()`. -/
def finalize (s : State) (d : Nat) : Option State := do
  let _ ← s.nodes[d]?
  return s.modify d (fun δ => { δ with finalized := true }) fun _ _ h => h

/-- `set_revision(r)`: on a root, also the backend's revision slot. -/
def setRevision (s : State) (d : Nat) (r : UInt64) : Option State := do
  let δ ← s.nodes[d]?
  if δ.isRoot then
    let b ← δ.backend
    return s.modify d (fun δ => { δ with revision := r, backend := some (b.setRevision r) })
      fun _ _ h => h
  else return s.modify d (fun δ => { δ with revision := r }) fun _ _ h => h

/-! ## §2 — one inversion lemma per operation -/

section Inversion

variable {s s' : State} {d : Nat} {k v : Bytes}

theorem put_eq_some (h : put s d k v = some s') :
    ∃ δ b, s.nodes[d]? = some δ ∧ δ.backend = some b ∧
      s' = s.modify d (fun δ => { δ with backend := some (b.put k v) }) fun _ _ h => h := by
  simp only [put, Option.bind_eq_bind, Option.bind_eq_some, Option.pure_def,
    Option.some.injEq] at h
  obtain ⟨δ, hd, b, hb, rfl⟩ := h
  exact ⟨δ, b, hd, hb, rfl⟩

theorem erase_eq_some (h : erase s d k = some s') :
    (∃ δ b, s.nodes[d]? = some δ ∧ δ.backend = some b ∧ (find s d k).bind id ≠ none ∧
      s' = s.modify d (fun δ =>
        { δ with backend := some (b.erase k), removedObjects := δ.removedObjects.insert k })
        fun _ _ h => h) ∨
    (find s d k = some none ∧ s' = s) := by
  simp only [erase, Option.bind_eq_bind, Option.bind_eq_some, Option.pure_def] at h
  obtain ⟨r, hr, h⟩ := h
  cases r with
  | none => exact .inr ⟨hr, by simpa using h.symm⟩
  | some w =>
    simp only [Option.isSome_some, ite_true, Option.bind_eq_some, Option.some.injEq] at h
    obtain ⟨δ, hd, b, hb, rfl⟩ := h
    exact .inl ⟨δ, b, hd, hb, by simp [hr], rfl⟩

theorem squash_eq_some {δ : StateDelta} {p : Nat} (h : squash s d = some s')
    (hd : s.nodes[d]? = some δ) (hp : δ.parent = some p) :
    ∃ π b, s.nodes[p]? = some π ∧ δ.backend = some b ∧
      ((π.backend = none ∧ δ.removedObjects.keys = [] ∧ b.map.keys = [] ∧ s' = s) ∨
       ∃ pb, π.backend = some pb ∧ s' = s.modify p (squashParent pb δ b) fun _ _ h => h) := by
  simp only [squash, hd, hp, Option.bind_eq_bind, Option.some_bind, Option.bind_eq_some] at h
  obtain ⟨π, hπ, b, hb, h⟩ := h
  refine ⟨π, b, hπ, hb, ?_⟩
  cases hpb : π.backend with
  | none =>
    simp only [hpb, Option.pure_def] at h
    by_cases hc : δ.removedObjects.keys = [] ∧ b.map.keys = []
    · rw [if_pos hc] at h; exact .inl ⟨rfl, hc.1, hc.2, (Option.some.inj h).symm⟩
    · rw [if_neg hc] at h; cases h
  | some pb =>
    simp only [hpb, Option.pure_def] at h
    exact .inr ⟨pb, rfl, (Option.some.inj h).symm⟩

/-- What `squash` can leave: the state as it was, or the parent rewritten by
`squashParent`. -/
theorem squash_cases (h : squash s d = some s') :
    s' = s ∨ ∃ p pb δ b, s' = s.modify p (squashParent pb δ b) fun _ _ h => h := by
  cases hd : s.nodes[d]? with
  | none => simp [squash, hd] at h
  | some δ =>
    cases hp : δ.parent with
    | none => simp [squash, hd, hp] at h; exact .inl h.symm
    | some p =>
      obtain ⟨π, b, -, -, ⟨-, -, -, rfl⟩ | ⟨pb, -, rfl⟩⟩ := squash_eq_some h hd hp
      · exact .inl rfl
      · exact .inr ⟨p, pb, δ, b, rfl⟩

theorem makeChild_eq_some {id : Multihash} {header : BlockHeader} {r : State × Nat}
    (h : makeChild s d id header = some r) :
    ∃ δ, s.nodes[d]? = some δ ∧
      ∃ hc, r = (s.alloc (childOf δ d id header) hc, s.nodes.length) := by
  unfold makeChild at h
  split at h
  · cases h
  · cases h; exact ⟨_, ‹_›, _, rfl⟩

theorem clone_eq_some {id : Multihash} {header : BlockHeader} {r : State × Nat}
    (h : clone s d id header = some r) :
    ∃ δ b, s.nodes[d]? = some δ ∧ δ.backend = some b ∧ ∃ hc,
      r = (s.alloc { δ with backend := some (cloneBackend δ b id header), id := id } hc,
        s.nodes.length) := by
  unfold clone at h
  split at h
  · cases h
  · split at h
    · cases h
    · cases h; exact ⟨_, _, ‹_›, ‹_›, _, rfl⟩

theorem clear_eq_some (h : clear s d = some s') :
    ∃ δ b, s.nodes[d]? = some δ ∧ δ.backend = some b ∧
      s' = s.modify d (fun δ => { δ with
        backend := some b.clear, removedObjects := .empty, revision := 0, id := Multihash.zero })
        fun _ _ h => h := by
  simp only [clear, Option.bind_eq_bind, Option.bind_eq_some, Option.pure_def,
    Option.some.injEq] at h
  obtain ⟨δ, hd, b, hb, rfl⟩ := h
  exact ⟨δ, b, hd, hb, rfl⟩

/-- `clear()` on a delta that holds its backend succeeds. -/
theorem clear_eq {δ : StateDelta} {b : Backend} (hd : s.nodes[d]? = some δ)
    (hb : δ.backend = some b) :
    clear s d = some (s.modify d (fun δ => { δ with
      backend := some b.clear, removedObjects := .empty, revision := 0, id := Multihash.zero })
      fun _ _ h => h) := by
  simp [clear, hd, hb]

theorem finalize_eq_some (h : finalize s d = some s') :
    s' = s.modify d (fun δ => { δ with finalized := true }) fun _ _ h => h := by
  simp only [finalize, Option.bind_eq_bind, Option.bind_eq_some, Option.pure_def,
    Option.some.injEq] at h
  obtain ⟨-, -, rfl⟩ := h
  rfl

theorem setRevision_eq_some {r : UInt64} (h : setRevision s d r = some s') :
    ∃ δ, s.nodes[d]? = some δ ∧
      ((δ.isRoot = true ∧ ∃ b, δ.backend = some b ∧
          s' = s.modify d (fun δ => { δ with revision := r, backend := some (b.setRevision r) })
            fun _ _ h => h) ∨
        (δ.isRoot = false ∧
          s' = s.modify d (fun δ => { δ with revision := r }) fun _ _ h => h)) := by
  simp only [setRevision, Option.bind_eq_bind, Option.bind_eq_some] at h
  obtain ⟨δ, hd, h⟩ := h
  refine ⟨δ, hd, ?_⟩
  cases hr : δ.isRoot
  · simp only [hr, Bool.false_eq_true, ite_false, Option.pure_def, Option.some.injEq] at h
    exact .inr ⟨rfl, h.symm⟩
  · simp only [hr, ite_true, Option.bind_eq_some, Option.pure_def, Option.some.injEq] at h
    obtain ⟨b, hb, rfl⟩ := h
    exact .inl ⟨rfl, b, hb, rfl⟩

end Inversion

/-! ## §3 — the squash law -/

theorem squashBackend_get (pb : Backend) (δ : StateDelta) (b : Backend) (k : Bytes) :
    (squashBackend pb δ b).map.get k =
      (b.map.get k).or (if δ.isRemoved k then none else pb.map.get k) := by
  simp only [squashBackend]
  rw [OrderedMap.get_foldl_put _ b.map.sorted, OrderedMap.get_foldl_erase,
    OrderedMap.lookup_entries]
  simp only [OrderedMap.mem_keys_iff_contains, StateDelta.isRemoved]

theorem squashRemoved_contains (pr : KeySet) (δ : StateDelta) (b : Backend) (k : Bytes) :
    (squashRemoved pr δ b).contains k =
      (!b.map.contains k && (δ.isRemoved k || pr.contains k)) := by
  simp only [squashRemoved]
  rw [← List.foldl_map Prod.fst (fun m r => OrderedMap.erase m r),
    OrderedMap.contains_foldl_erase, OrderedMap.contains_foldl_insert]
  have hb : decide (k ∈ b.map.entries.map Prod.fst) = b.map.contains k := by
    rw [Bool.eq_iff_iff, decide_eq_true_iff]; exact OrderedMap.mem_keys_iff_contains b.map k
  have hδ : decide (k ∈ δ.removedObjects.keys) = δ.isRemoved k := by
    rw [Bool.eq_iff_iff, decide_eq_true_iff]; exact OrderedMap.mem_keys_iff_contains _ k
  rw [hb, hδ]

theorem squashParent_isRemoved (pb : Backend) (δ : StateDelta) (b : Backend) (π : StateDelta)
    {k : Bytes} (hg : b.map.get k = none) :
    (squashParent pb δ b π).isRemoved k = (δ.isRemoved k && !π.isRoot || π.isRemoved k) := by
  have hc : b.map.contains k = false := by simp [OrderedMap.contains, hg]
  simp only [squashParent, StateDelta.isRemoved]
  cases π.isRoot <;> simp [squashRemoved_contains, hc, StateDelta.isRemoved]

/-- **Squash law.** After `C.squash()` succeeds, the parent `P` answers every key as `C`
answered it before, and `C` still answers as before. In every state, for a root parent as
for any other. -/
theorem squash_law {s s' : State} {d p : Nat} {δ : StateDelta} (h : squash s d = some s')
    (hd : s.nodes[d]? = some δ) (hp : δ.parent = some p) (k : Bytes) :
    find s' p k = find s d k ∧ find s' d k = find s d k := by
  have hpd : p < d := s.parent_lt d δ p hd hp
  obtain ⟨π, b, hπ, hb, ⟨-, hr, hk, rfl⟩ | ⟨pb, hpb, rfl⟩⟩ := squash_eq_some h hd hp
  · -- nothing to merge: `C` answers through its parent
    have hg : b.map.get k = none := Option.not_isSome_iff_eq_none.mp fun h => by
      simpa [hk] using (OrderedMap.mem_keys b.map k).mpr h
    have hr' : δ.isRemoved k = false := Bool.eq_false_iff.mpr fun h => by
      simpa [hr] using (OrderedMap.mem_keys_iff_contains δ.removedObjects k).mpr h
    simp [find_eq k hd, StateDelta.findLayer_of_parent hb hg hr' hp]
  · set π' := squashParent pb δ b π
    set s₁ := s.modify p (squashParent pb δ b) fun _ _ h => h
    have hπ' : s₁.nodes[p]? = some π' := by simp [s₁, hπ, π']
    have hd' : s₁.nodes[d]? = some δ := by simp [s₁, hd, hpd.ne]
    have hg' : (squashBackend pb δ b).map.get k =
        (b.map.get k).or (if δ.isRemoved k then none else pb.map.get k) :=
      squashBackend_get pb δ b k
    cases hg : b.map.get k with
    | some v =>
      replace hg' : (squashBackend pb δ b).map.get k = some v := by rw [hg', hg]; rfl
      rw [find_eq k hπ', find_eq k hd', find_eq k hd, StateDelta.findLayer_of_get rfl hg',
        StateDelta.findLayer_of_get hb hg, StateDelta.findLayer_of_get hb hg]
      exact ⟨rfl, rfl⟩
    | none =>
      have hrem := squashParent_isRemoved pb δ b π hg
      replace hg' : (squashBackend pb δ b).map.get k =
          (if δ.isRemoved k then none else pb.map.get k) := by rw [hg', hg]; rfl
      cases hr : δ.isRemoved k with
      | true =>
        rw [hr, if_pos rfl] at hg'
        rw [find_eq k hd, StateDelta.findLayer_of_removed hb hg hr, find_eq k hd',
          StateDelta.findLayer_of_removed hb hg hr, find_eq k hπ']
        refine ⟨?_, rfl⟩
        cases hroot : π.parent with
        | none =>
          cases hrem : π'.isRemoved k
          · exact StateDelta.findLayer_of_root rfl hg' hrem hroot
          · exact StateDelta.findLayer_of_removed rfl hg' hrem
        | some q =>
          exact StateDelta.findLayer_of_removed rfl hg'
            (by simp [hrem, hr, StateDelta.isRoot, hroot])
      | false =>
        rw [hr] at hg'
        have hup : find s₁ p k = find s p k := by
          rw [find_eq k hπ', find_eq k hπ]
          exact StateDelta.findLayer_eq rfl hpb (by simpa using hg') (by simp [hrem, hr]) rfl
            fun q hq => find_modify_of_lt _ _ (s.parent_lt p π q hπ hq) k
        rw [find_eq k hd, StateDelta.findLayer_of_parent hb hg hr hp, find_eq k hd',
          StateDelta.findLayer_of_parent hb hg hr hp, hup]
        exact ⟨rfl, rfl⟩

unseal find in
/-- The squash law for a child of a root holding `[1] ↦ [7]` that erased `[1]` and wrote
`[2] ↦ [9]`, squashed into the root. -/
theorem squash_law_into_genesis :
    let b : Backend := { map := OrderedMap.empty.put [1] [7] }
    let s₀ := ((makeChild (State.init b) 0 default default).map Prod.fst).getD (State.init b)
    let s := (((put s₀ 1 [2] [9]).bind fun s => erase s 1 [1])).getD s₀
    let δ := (s.nodes[1]?).getD (.ofBackend b)
    squash s 1 = some ((squash s 1).getD s) ∧ s.nodes[1]? = some δ ∧ δ.parent = some 0 ∧
      ∀ k, find ((squash s 1).getD s) 0 k = find s 1 k ∧
        find ((squash s 1).getD s) 1 k = find s 1 k := by
  intro b s₀ s δ
  have h : squash s 1 = some ((squash s 1).getD s) := by decide
  have hd : s.nodes[1]? = some δ := by decide
  have hp : δ.parent = some 0 := by decide
  exact ⟨h, hd, hp, squash_law h hd hp⟩

end StateDb.Detail
