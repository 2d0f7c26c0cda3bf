/-
# StateDb.Laws.Frames — what one call on one delta changes of the tree's answers.

These are laws of every state, not only of the reachable ones (the commit law asks only that
the chain hold its backends): each follows from what the call does to the one delta it
rewrites or appends, and from the frame lemmas of `find`.

* `write_is_one_key_update`: after `put(k, v)` and `erase(k)` the delta reads `k` as written,
  and no answer for any other key changes, on any delta of the tree, whatever the delta's
  children and tombstones are.
* `erase_then_put_keeps_tombstone`: `state_delta::put` writes only the own backend, where the
  spec's `put` also drops `k` from the tombstones. So `erase(k)` of a key the delta shows,
  then `put(k, v)`, leave `k` both written and tombstoned. Reads do not notice, since `find`
  looks at the backend first, but the tombstone invariant fails (`tombstone_survives_put`, on
  a disciplined run); what it does to `merkle_root` and `get_delta_entries` is in
  `Laws.Merkle`.
* `clone_reads_as_source`: `clone(id, header)` appends a delta that answers every key, and
  reports the revision and the merkle root, as its source does, with the new id and header,
  and changes no answer of the deltas already there.
* `clone_commits_as_source`: committing the clone leaves the backend committing the source
  leaves, with the clone's id and header, on every chain that holds its backends.
* `clear_shows_parent`: `clear()` on a delta below a root does not empty it: with its own
  writes and tombstones gone it answers every key as its parent does.
-/

import StateDb.Laws.Durable
import StateDb.Laws.Growth
import StateDb.Laws.Merkle

namespace StateDb.Laws

open StateDb.Backends StateDb.Detail

/-! ## §1 — a write is a one-key update -/

/-- Rewriting the delta at `d` changes no answer for `k` anywhere when its layer for `k` is
unchanged. -/
theorem find_modify_of_layer {s : State} {d : Nat} {f : StateDelta → StateDelta} {hf}
    {k : Bytes} (hl : ∀ δ, s.nodes[d]? = some δ → ∀ up, (f δ).findLayer k up = δ.findLayer k up)
    (e : Nat) : find (s.modify d f hf) e k = find s e k := by
  have hd : find (s.modify d f hf) d k = find s d k := by
    cases hδ : s.nodes[d]? with
    | none => rw [find_of_none k (by simp [hδ]), find_of_none k hδ]
    | some δ => rw [find_modify_eq hδ, hl δ hδ, find_eq k hδ]
  refine find_congr k fun y _ => ?_
  by_cases hdy : d = y
  · exact .inr (hdy ▸ hd)
  · exact .inl (by simp [hdy])

/-- **A write is a one-key update.** In every state, after `put(k, v)` on a delta it reads `v`
at `k`, and after `erase(k)` it reads `k` as absent; neither changes any answer of `find` for
any other key, on any delta of the tree. -/
theorem write_is_one_key_update {s : State} {d : Nat} {k : Bytes} :
    (∀ v s', put s d k v = some s' → find s' d k = some (some v) ∧
      ∀ e k', k' ≠ k → find s' e k' = find s e k') ∧
    (∀ s', erase s d k = some s' → find s' d k = some none ∧
      ∀ e k', k' ≠ k → find s' e k' = find s e k') := by
  refine ⟨fun v s' h => ?_, fun s' h => ?_⟩
  · obtain ⟨δ, b, hd, hb, rfl⟩ := put_eq_some h
    refine ⟨by rw [find_put_self hd hb, if_pos rfl], fun e k' hk => ?_⟩
    refine find_modify_of_layer (fun δ' hd' up => ?_) e
    obtain rfl : δ' = δ := Option.some.inj (hd'.symm.trans hd)
    exact StateDelta.findLayer_eq rfl hb (by simp [Backend.put, Ne.symm hk]) rfl rfl
      fun _ _ => rfl
  · rcases erase_eq_some h with ⟨δ, b, hd, hb, -, rfl⟩ | ⟨hk, rfl⟩
    · refine ⟨by rw [find_erase_self hd hb, if_pos rfl], fun e k' hk => ?_⟩
      refine find_modify_of_layer (fun δ' hd' up => ?_) e
      obtain rfl : δ' = δ := Option.some.inj (hd'.symm.trans hd)
      exact StateDelta.findLayer_eq rfl hb (by simp [Backend.erase, Ne.symm hk])
        (by simp [StateDelta.isRemoved, Ne.symm hk]) rfl fun _ _ => rfl
    · exact ⟨hk, fun _ _ _ => rfl⟩

unseal find in
/-- A write and an erase of `[1]` on a fresh root holding `[3] ↦ [5]` and `[1] ↦ [7]`. -/
theorem write_is_one_key_update_root :
    let b : Backend := { map := (OrderedMap.empty.put [3] [5]).put [1] [7] }
    let s₁ := (put (State.init b) 0 [1] [2]).getD (State.init b)
    let s₂ := (erase (State.init b) 0 [1]).getD (State.init b)
    put (State.init b) 0 [1] [2] = some s₁ ∧ erase (State.init b) 0 [1] = some s₂ ∧
      (find s₁ 0 [1] = some (some [2]) ∧
        ∀ e k', k' ≠ [1] → find s₁ e k' = find (State.init b) e k') ∧
      (find s₂ 0 [1] = some none ∧
        ∀ e k', k' ≠ [1] → find s₂ e k' = find (State.init b) e k') := by
  intro b s₁ s₂
  have h₁ : put (State.init b) 0 [1] [2] = some s₁ := by decide
  have h₂ : erase (State.init b) 0 [1] = some s₂ := by decide
  exact ⟨h₁, h₂, write_is_one_key_update.1 _ _ h₁, write_is_one_key_update.2 _ h₂⟩

/-! ## §2 — a write after an erase keeps the tombstone -/

/-- The tombstone invariant: a tombstoned key is absent from its delta's own backend, and the
delta has a parent that shows a value for it. -/
def TombstonesVisible (s : State) : Prop :=
  ∀ (d : Nat) (δ : StateDelta) (k : Bytes), s.nodes[d]? = some δ → δ.isRemoved k = true →
    δ.backend.bind (·.map.get k) = none ∧
      ∃ p, δ.parent = some p ∧ ∃ v, find s p k = some (some v)

/-- The calls the database makes under its discipline: edits and commits, writes only on a
childless delta, `squash` only from a sole child. -/
def disciplinedCall (s : State) (op : Op) : Bool := op.isEditOrCommit && disciplined s op

/-- **A write after an erase keeps the tombstone.** In every state, `erase(k)` of a key the
delta shows and then `put(k, v)` leave `k ↦ v` in the delta's own backend with `k` still
tombstoned, so the tombstone invariant fails. -/
theorem erase_then_put_keeps_tombstone {s s₁ s₂ : State} {d : Nat} {k v v₀ : Bytes}
    (hv : find s d k = some (some v₀)) (he : erase s d k = some s₁)
    (hp : put s₁ d k v = some s₂) :
    (∃ δ b, s₂.nodes[d]? = some δ ∧ δ.backend = some b ∧ b.map.get k = some v ∧
      δ.isRemoved k = true) ∧ ¬ TombstonesVisible s₂ := by
  rcases erase_eq_some he with ⟨δ, b, hd, hb, -, rfl⟩ | ⟨hk, -⟩
  · obtain ⟨δ₁, b₁, hd₁, hb₁, rfl⟩ := put_eq_some hp
    obtain rfl := Option.some.inj ((State.modify_nodes_self hd).symm.trans hd₁)
    have hr : StateDelta.isRemoved { δ with removedObjects := δ.removedObjects.insert k } k :=
      by simp [StateDelta.isRemoved]
    have hg : (b₁.put k v).map.get k = some v := by simp [Backend.put]
    refine ⟨⟨_, _, State.modify_nodes_self hd₁, rfl, hg, hr⟩, fun h => ?_⟩
    have := (h d _ k (State.modify_nodes_self hd₁) hr).1
    simp [hg] at this
  · rw [hv] at hk
    cases hk

unseal find in
/-- **The tombstone invariant fails.** `eraseThenPut` is a disciplined run, and after it the
child holds `keyK ↦ [2]` in its own backend with `keyK` still tombstoned. -/
theorem tombstone_survives_put :
    let c : Crypto := ⟨fun _ => default, fun _ => default⟩
    let s := (replay c disciplinedCall (State.init keyKBackend) eraseThenPut).getD
      (State.init keyKBackend)
    Reachable c disciplinedCall s ∧
      (s.nodes[1]?).map (fun δ => (δ.isRemoved keyK, δ.backend.bind (·.map.get keyK))) =
        some (true, some [2]) ∧
      ¬ TombstonesVisible s := by
  intro c s
  have hd : s.nodes[1]? = some ((s.nodes[1]?).getD (.ofBackend keyKBackend)) := by decide
  refine ⟨Reachable.of_replay_getD _ (by decide), by decide, fun h => ?_⟩
  have := (h 1 _ keyK hd (by decide)).1
  revert this
  decide

/-! ## §3 — a clone reads as its source -/

/-- The merkle root a delta computes reads its backend's contents only. -/
theorem computeMerkleRoot_congr {c : Crypto} {b₁ b₂ : Backend} (h : b₁.map = b₂.map)
    (removed : KeySet) : computeMerkleRoot c b₁ removed = computeMerkleRoot c b₂ removed := by
  simp only [computeMerkleRoot, merkleLeafs, objectKeys, h]

theorem cloneBackend_blockHeader (δ : StateDelta) (b : Backend) (id : Multihash)
    (header : BlockHeader) : (cloneBackend δ b id header).blockHeader = header := by
  unfold cloneBackend; split <;> rfl

section Clone

variable {s : State} {d : Nat} {δ : StateDelta} {b : Backend} {id : Multihash}
  {header : BlockHeader}

/-- The clone answers every key as its source. -/
theorem find_clone_new (hd : s.nodes[d]? = some δ) (hb : δ.backend = some b) {hc} (k : Bytes) :
    find (s.alloc { δ with backend := some (cloneBackend δ b id header), id := id } hc)
      s.nodes.length k = find s d k := by
  rw [find_alloc_new, find_eq k hd]
  exact StateDelta.findLayer_eq rfl hb (by rw [cloneBackend_map]) rfl rfl fun _ _ => rfl

/-- The clone has its source's merkle root, cached or computed. -/
theorem merkleRootOf_clone {c : Crypto} (hb : δ.backend = some b) :
    merkleRootOf c { δ with backend := some (cloneBackend δ b id header), id := id } =
      merkleRootOf c δ := by
  cases hm : δ.merkleRoot with
  | some m => rw [merkleRootOf_cached hm]; exact merkleRootOf_cached rfl
  | none =>
    rw [merkleRootOf_computed hm hb, ← computeMerkleRoot_congr (cloneBackend_map δ b id header)]
    exact merkleRootOf_computed rfl rfl

/-- The clone of a delta whose chain holds its backends has a chain that holds them. -/
theorem chainLive_clone (hd : s.nodes[d]? = some δ) (hl : ChainLive s d) {hc} :
    ChainLive (s.alloc { δ with backend := some (cloneBackend δ b id header), id := id } hc)
      s.nodes.length := by
  have hn := State.alloc_nodes_self s _ hc
  intro x hx
  rcases hx.eq_or_parent hn with rfl | ⟨p, hp, hx⟩
  · exact ⟨_, _, hn, rfl⟩
  · have hpl : p < s.nodes.length := (s.parent_lt d δ p hd hp).trans (State.lt_length hd)
    obtain ⟨ν, b', hx', hb'⟩ := hl x (.parent hd hp (Grows.onChain Grows.alloc hpl hx))
    exact ⟨ν, b', by rw [State.alloc_nodes, if_neg (State.lt_length hx').ne]; exact hx', hb'⟩

end Clone

/-- **A clone reads as its source.** In every state, `clone(id, header)` on the delta at `d`
appends, at the next handle, a delta that answers every key as `d` does and reports `d`'s
revision and merkle root, with the id `id` and the block header `header`; every delta
already there answers as before. -/
theorem clone_reads_as_source {c : Crypto} {s s' : State} {d n : Nat} {id : Multihash}
    {header : BlockHeader} (h : clone s d id header = some (s', n)) :
    n = s.nodes.length ∧ (∀ k, find s' n k = find s d k) ∧
      s'.nodes[n]?.map (·.revision) = s.nodes[d]?.map (·.revision) ∧
      merkleRoot c s' n = merkleRoot c s d ∧ s'.nodes[n]?.map (·.id) = some id ∧
      (s'.nodes[n]?.bind (·.backend)).map (·.blockHeader) = some header ∧
      ∀ e k, e < s.nodes.length → find s' e k = find s e k := by
  obtain ⟨δ, b, hd, hb, hc, hr⟩ := clone_eq_some h
  obtain ⟨rfl, rfl⟩ := Prod.mk.inj hr
  have hn := State.alloc_nodes_self s _ hc
  refine ⟨rfl, find_clone_new hd hb, by rw [hn, hd]; rfl, ?_, by rw [hn]; rfl,
    by rw [hn]; exact congrArg some (cloneBackend_blockHeader δ b id header),
    fun e k he => find_alloc_of_lt he k⟩
  rw [merkleRoot, merkleRoot, hn, hd, Option.some_bind, Option.some_bind, merkleRootOf_clone hb]

unseal find in
/-- A clone of the child of a root holding `[1] ↦ [7]`, after the child wrote `[2] ↦ [9]`. -/
theorem clone_reads_as_source_child :
    let c : Crypto := ⟨fun _ => default, fun _ => default⟩
    let b : Backend := { map := OrderedMap.empty.put [1] [7] }
    let s := (replay c (fun _ op => op.isEdit) (State.init b)
      [.makeChild 0 default default, .put 1 [2] [9]]).getD (State.init b)
    let id : Multihash := ⟨0x12, [3]⟩
    let r := (clone s 1 id default).getD (s, 0)
    clone s 1 id default = some r ∧ r.2 = s.nodes.length ∧ (∀ k, find r.1 r.2 k = find s 1 k) ∧
      r.1.nodes[r.2]?.map (·.revision) = s.nodes[1]?.map (·.revision) ∧
      merkleRoot c r.1 r.2 = merkleRoot c s 1 ∧ r.1.nodes[r.2]?.map (·.id) = some id ∧
      (r.1.nodes[r.2]?.bind (·.backend)).map (·.blockHeader) = some default ∧
      ∀ e k, e < s.nodes.length → find r.1 e k = find s e k := by
  intro c b s id r
  have h : clone s 1 id default = some r := by decide
  exact ⟨h, clone_reads_as_source h⟩

/-- **A clone commits as its source.** For every non-root delta `d` whose parent chain holds
its backends, `commit()` succeeds on `d` and on its clone, and the backend the clone's commit
leaves is the one `d`'s commit leaves, with the clone's id and block header. -/
theorem clone_commits_as_source {c : Crypto} {s s₁ : State} {d n : Nat} {δ : StateDelta}
    {id : Multihash} {header : BlockHeader} (hd : s.nodes[d]? = some δ) (hnr : δ.isRoot = false)
    (hl : ChainLive s d) (h : clone s d id header = some (s₁, n)) :
    ∃ s₂ s₂' B B', commit c s₁ n none = some (s₂, none) ∧ commit c s d none = some (s₂', none) ∧
      s₂.nodes[n]?.bind (·.backend) = some B ∧ s₂'.nodes[d]?.bind (·.backend) = some B' ∧
      B = { B' with id := id, blockHeader := header } := by
  obtain ⟨δ', b, hd', hb, hc, hr⟩ := clone_eq_some h
  obtain rfl : δ' = δ := Option.some.inj (hd'.symm.trans hd)
  obtain ⟨rfl, rfl⟩ := Prod.mk.inj hr
  have hn := State.alloc_nodes_self s _ hc
  obtain ⟨m₁, B, hm₁, hc₁, hB₁, hrev₁, hid₁, hmr₁, hbh₁⟩ :=
    commit_of_chainLive (c := c) hn hnr (chainLive_clone hd' hl)
  obtain ⟨m₂, B', hm₂, hc₂, hB₂, hrev₂, -, hmr₂, -⟩ := commit_of_chainLive (c := c) hd' hnr hl
  have hm : m₁ = m₂ := Option.some.inj ((hm₁.symm.trans (merkleRootOf_clone hb)).trans hm₂)
  refine ⟨_, _, B, B', hc₁, hc₂,
    by rw [committed_nodes_self hn (rootOf_ne_of_not_root hn hnr)]; rfl,
    by rw [committed_nodes_self hd' (rootOf_ne_of_not_root hd' hnr)]; rfl, Backend.ext
      (OrderedMap.eq_of_get fun k => Option.some.inj
        (((hB₁ k).trans (find_clone_new hd' hb k)).trans (hB₂ k).symm))
      (hrev₁.trans hrev₂.symm) hid₁ (hmr₁.trans (hm.trans hmr₂.symm)) ?_⟩
  exact (Option.some.inj ((congrArg some (cloneBackend_blockHeader δ' b id header)).symm.trans
    hbh₁)).symm

unseal find nodeStack in
/-- Committing the child of a root holding `[1] ↦ [7]`, after it wrote `[2] ↦ [9]`, or its
clone. -/
theorem clone_commits_as_source_child :
    let c : Crypto := ⟨fun _ => default, fun _ => default⟩
    let b : Backend := { map := OrderedMap.empty.put [1] [7] }
    let s := (replay c (fun _ op => op.isEdit) (State.init b)
      [.makeChild 0 default default, .put 1 [2] [9]]).getD (State.init b)
    let δ := (s.nodes[1]?).getD (.ofBackend b)
    let id : Multihash := ⟨0x12, [3]⟩
    let r := (clone s 1 id default).getD (s, 0)
    s.nodes[1]? = some δ ∧ δ.isRoot = false ∧ ChainLive s 1 ∧ clone s 1 id default = some r ∧
      ∃ s₂ s₂' B B', commit c r.1 r.2 none = some (s₂, none) ∧
        commit c s 1 none = some (s₂', none) ∧ s₂.nodes[r.2]?.bind (·.backend) = some B ∧
        s₂'.nodes[1]?.bind (·.backend) = some B' ∧
        B = { B' with id := id, blockHeader := default } := by
  intro c b s δ id r
  have hd : s.nodes[1]? = some δ := by decide
  have hnr : δ.isRoot = false := by decide
  have hl : ChainLive s 1 :=
    (allLive_of_reachable (Reachable.of_replay_getD _ (by decide))).chainLive 1 (by decide)
  have h : clone s 1 id default = some r := by decide
  exact ⟨hd, hnr, hl, h, clone_commits_as_source hd hnr hl h⟩

/-! ## §4 — clearing a delta below a root -/

/-- **Clearing a delta below a root shows its parent.** In every state, after `clear()` on a
delta whose parent is `p`, the delta answers every key as `p` does. -/
theorem clear_shows_parent {s s' : State} {d p : Nat} {δ : StateDelta}
    (h : clear s d = some s') (hd : s.nodes[d]? = some δ) (hp : δ.parent = some p) (k : Bytes) :
    find s' d k = find s p k := by
  obtain ⟨δ', b, hd', -, rfl⟩ := clear_eq_some h
  obtain rfl : δ' = δ := Option.some.inj (hd'.symm.trans hd)
  rw [find_modify_eq hd]
  exact StateDelta.findLayer_of_parent rfl (OrderedMap.get_empty k) rfl hp

unseal find in
/-- Clearing the child of a root holding `[1] ↦ [7]`, after the child wrote `[2] ↦ [9]`. -/
theorem clear_shows_parent_child :
    let c : Crypto := ⟨fun _ => default, fun _ => default⟩
    let b : Backend := { map := OrderedMap.empty.put [1] [7] }
    let s := (replay c (fun _ op => op.isEdit) (State.init b)
      [.makeChild 0 default default, .put 1 [2] [9]]).getD (State.init b)
    let δ := (s.nodes[1]?).getD (.ofBackend b)
    let s' := (clear s 1).getD s
    clear s 1 = some s' ∧ s.nodes[1]? = some δ ∧ δ.parent = some 0 ∧
      ∀ k, find s' 1 k = find s 0 k := by
  intro c b s δ s'
  have h : clear s 1 = some s' := by decide
  have hd : s.nodes[1]? = some δ := by decide
  have hp : δ.parent = some 0 := by decide
  exact ⟨h, hd, hp, clear_shows_parent h hd hp⟩

end StateDb.Laws
