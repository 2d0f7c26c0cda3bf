/-
# StateDb.Laws.Clear — `clear()` on a root, against a fresh open of the cleared backend.

`database::reset` wipes the root delta with `state_delta::clear`: the backend is cleared
(which empties it and resets its metadata slots), the tombstones are dropped, the revision
becomes `0` and the id the zero multihash. A `state_delta` freshly constructed over that
backend reads its revision, its id and its merkle root from the slots.

`clear_root_reads_fresh`: in every state that any calls reach, clearing a root that holds
its backend succeeds, and afterwards the root answers every `find` with nothing, at
revision `0` with the zero id, as the fresh delta does. Its `merkle_root()` is not the
fresh one: `clear` leaves `_merkle_root` alone, and every root has one cached
(`RootsCached`: the constructor caches the backend's slot, `commit` the new root's), so
the cleared root reports the merkle root it reported before. `cleared_root_keeps_merkleRoot`
shows it on a store reopened after a commit.
-/
import StateDb.Detail.Run

namespace StateDb.Laws

open StateDb.Backends StateDb.Detail

/-! ## §1 — every root caches its merkle root -/

/-- Every root delta has a cached merkle root. -/
def RootsCached (s : State) : Prop :=
  ∀ (d : Nat) (δ : StateDelta), s.nodes[d]? = some δ → δ.isRoot = true →
    δ.merkleRoot.isSome

section Cached

variable {s s' : State}

theorem rootsCached_init (b : Backend) : RootsCached (State.init b) := by
  intro d δ hd _
  match d with
  | 0 => cases hd; rfl
  | _ + 1 => cases hd

/-- Changing one delta keeps every root cached when the delta is cached after the change
whenever it is a root after it. -/
theorem RootsCached.modify {d : Nat} {f : StateDelta → StateDelta} {hf} (h : RootsCached s)
    (hc : ∀ δ, s.nodes[d]? = some δ → (f δ).isRoot = true → (f δ).merkleRoot.isSome) :
    RootsCached (s.modify d f hf) := by
  intro e δ he hr
  obtain ⟨δ₀, he₀, ⟨rfl, rfl⟩ | rfl⟩ := State.exists_of_modify he
  · exact hc δ₀ he₀ hr
  · exact h e _ he₀ hr

/-- A change that keeps a delta's parent and its cache keeps every root cached. -/
theorem RootsCached.modify_of_keeps {d : Nat} {f : StateDelta → StateDelta} {hf}
    (h : RootsCached s)
    (hk : ∀ δ, (f δ).parent = δ.parent ∧ (f δ).merkleRoot = δ.merkleRoot) :
    RootsCached (s.modify d f hf) :=
  h.modify fun δ hδ hr => by
    rw [(hk δ).2]
    exact h d δ hδ (by rwa [StateDelta.isRoot, (hk δ).1] at hr)

theorem RootsCached.alloc {ν : StateDelta} {hν} (h : RootsCached s)
    (hν' : ν.isRoot = true → ν.merkleRoot.isSome) : RootsCached (s.alloc ν hν) := by
  intro e δ he hr
  rw [State.alloc_nodes] at he
  split at he
  · cases he; exact hν' hr
  · exact h e δ he hr

/-- **Every call keeps every root cached.** -/
theorem RootsCached.step {c : Crypto} {op : Op} (h : RootsCached s)
    (hs : step c s op = some s') : RootsCached s' := by
  by_cases he : op.isEdit = true
  · rcases edit_cases he hs with
      rfl | ⟨d, f, hf, hk, rfl⟩ | ⟨d, δ, ν, hν, hd, rfl, -, hν'⟩
    · exact h
    · exact h.modify_of_keeps fun δ => ⟨hk.parent δ, hk.merkleRoot δ⟩
    · refine h.alloc fun hr => ?_
      rcases hν' with ⟨hp, -, -⟩ | ⟨hp, -, hm⟩
      · simp [StateDelta.isRoot, hp] at hr
      · rw [hm]
        exact h d δ hd (by rwa [StateDelta.isRoot, hp] at hr)
  cases op with
  | commit d failAt =>
    obtain ⟨⟨s', err⟩, hr, rfl⟩ := Option.map_eq_some'.mp hs
    dsimp only
    obtain ⟨δ, -, ⟨-, rfl, -⟩ | ⟨-, ρ, ρb, merges, db, m, -, -, -, -, -, h'⟩⟩ :=
      commit_eq_some hr
    · exact h
    · have h₀ : RootsCached (resetBackend s (rootOf s d)) :=
        h.modify_of_keeps fun _ => ⟨rfl, rfl⟩
      have h₁ : RootsCached (cacheRoot (resetBackend s (rootOf s d)) d m) :=
        h₀.modify fun _ _ _ => rfl
      rcases commitOutcome_cases h' with ⟨-, rfl | rfl⟩ | ⟨-, rfl⟩
      · exact h₀
      · exact h₁
      · -- the new root keeps the merkle root `commit` cached on it
        refine h₁.modify fun δ hδ _ => ?_
        rw [cacheRoot_nodes, if_pos rfl] at hδ
        obtain ⟨δ₀, -, rfl⟩ := Option.map_eq_some'.mp hδ
        rfl
  | merkleRoot d =>
    obtain ⟨δ, m, -, -, rfl⟩ := cacheMerkleRoot_eq_some hs
    exact h.modify fun _ _ _ => rfl
  | finalize d =>
    rw [finalize_eq_some hs]
    exact h.modify_of_keeps fun _ => ⟨rfl, rfl⟩
  | clear d =>
    obtain ⟨δ, b, -, -, rfl⟩ := clear_eq_some hs
    exact h.modify_of_keeps fun _ => ⟨rfl, rfl⟩
  | setRevision d r =>
    obtain ⟨δ, -, ⟨-, b, -, rfl⟩ | ⟨-, rfl⟩⟩ := setRevision_eq_some hs <;>
      exact h.modify_of_keeps fun _ => ⟨rfl, rfl⟩
  | _ => exact absurd rfl he

/-- In a state that any calls reach, every root has a cached merkle root. -/
theorem rootsCached_of_reachable {c : Crypto} {allowed : State → Op → Bool}
    (hs : Reachable c allowed s) : RootsCached s :=
  hs.invariant rootsCached_init fun _ _ _ h _ hs => h.step hs

end Cached

/-! ## §2 — clearing a root -/

/-- **Clearing a root reads as a fresh open, except for the merkle root.** In every state
that any calls reach, `clear()` on a root holding its backend `b` succeeds; afterwards the
root answers every `find` with nothing and has revision `0` and the zero id, which is what
a `state_delta` freshly constructed over the cleared `b` reads; and `merkle_root()` returns
what it returned before the clear. -/
theorem clear_root_reads_fresh {c : Crypto} {allowed : State → Op → Bool} {s : State}
    {d : Nat} {ρ : StateDelta} {b : Backend} (hs : Reachable c allowed s)
    (hd : s.nodes[d]? = some ρ) (hr : ρ.isRoot = true) (hb : ρ.backend = some b) :
    ∃ s', clear s d = some s' ∧ (∀ k, find s' d k = some none) ∧
      s'.nodes[d]?.map (fun δ => (δ.revision, δ.id)) = some (0, Multihash.zero) ∧
      merkleRoot c s' d = merkleRoot c s d := by
  obtain ⟨m, hm⟩ := Option.isSome_iff_exists.mp (rootsCached_of_reachable hs d ρ hd hr)
  have hp : ρ.parent = none := Option.isNone_iff_eq_none.mp hr
  have hp' : ({ ρ with
      backend := some b.clear, removedObjects := .empty, revision := 0, id := Multihash.zero } :
      StateDelta).parent = none := hp
  refine ⟨_, clear_eq hd hb, fun k => ?_, by simp [hd], ?_⟩
  · rw [find_of_root (by simp [hd]) rfl hp' k]
    rfl
  · simp [merkleRoot, hd, merkleRootOf, hm]

unseal find nodeStack in
/-- The clear law for the root that a commit of a child writing `[2] ↦ [9]` leaves, with
its merkle root cached by the commit. -/
theorem clear_root_reads_fresh_after_commit :
    let c : Crypto := ⟨fun _ => default, fun _ => default⟩
    let b : Backend := { map := OrderedMap.empty.put [1] [7] }
    let s := (replay c (fun _ _ => true) (State.init b)
      [.makeChild 0 default default, .put 1 [2] [9], .commit 1 none]).getD (State.init b)
    let ρ := (s.nodes[1]?).getD (.ofBackend b)
    Reachable c (fun _ _ => true) s ∧ s.nodes[1]? = some ρ ∧ ρ.isRoot = true ∧
      ρ.backend = some (ρ.backend.getD b) ∧
      ∃ s', clear s 1 = some s' ∧ (∀ k, find s' 1 k = some none) ∧
        s'.nodes[1]?.map (fun δ => (δ.revision, δ.id)) = some (0, Multihash.zero) ∧
        merkleRoot c s' 1 = merkleRoot c s 1 := by
  intro c b s ρ
  have hs : Reachable c (fun _ _ => true) s := Reachable.of_replay_getD _ (by decide)
  have hd : s.nodes[1]? = some ρ := by decide
  have hr : ρ.isRoot = true := by decide
  have hb : ρ.backend = some (ρ.backend.getD b) := by decide
  exact ⟨hs, hd, hr, hb, clear_root_reads_fresh hs hd hr hb⟩

/-- **A cleared root keeps its merkle root.** A store reopened after a commit holds that
commit's revision, id and merkle root in its slots, and the root delta caches the merkle
root at construction. `clear()` resets the revision, the id and every slot of the backend,
but `merkle_root()` still returns the committed root, and not the reset slot that a fresh
open of the cleared backend reads. No hash is computed on the way. -/
theorem cleared_root_keeps_merkleRoot :
    let c : Crypto := Crypto.collisionFree
    let b : Backend :=
      { map := OrderedMap.empty.put [1] [7], revision := 5, id := ⟨0x12, List.replicate 32 1⟩,
        merkleRoot := ⟨0x12, List.replicate 32 7⟩ }
    let s' := (clear (State.init b) 0).getD (State.init b)
    Reachable c (fun _ _ => true) (State.init b) ∧ clear (State.init b) 0 = some s' ∧
      (s'.nodes[0]?.bind (·.backend)).map (·.merkleRoot) = some Multihash.zero ∧
      merkleRoot c (State.init b.clear) 0 = some Multihash.zero ∧
      merkleRoot c s' 0 = some ⟨0x12, List.replicate 32 7⟩ := by
  intro c b s'
  exact ⟨⟨b, [], .nil _⟩, rfl, rfl, rfl, rfl⟩

end StateDb.Laws
