/-
# StateDb.Laws.Commit — the commit law, and what a failed commit leaves behind.

`commit_law`: in every state an edit run reaches, committing a non-root delta `D` succeeds,
leaves `D` a root with no tombstones, and hands it the backend taken from the old root `R`,
whose contents are exactly what `find` saw from `D` and whose four metadata slots hold
`D`'s revision, id, merkle root and block header. Every descendant of `D` answers every
key as before. It is assembled from `performAll_stackCalls` (the contents), `performAll_batch`
(the slots) and the frame lemma `find_congr_upto` (the descendants).

`commit_failure_frame`: a commit whose batch throws does NOT leave the tree as it was. The
old root has already lost its backend, since `_backend.reset()` runs before
`start_write_batch`. Every other delta keeps what `find` reads, so each lookup answers as
before or, when it reaches `R`, dereferences the NULL backend.
-/

import StateDb.Detail.Run

namespace StateDb.Laws

open StateDb.Backends StateDb.Detail

/-! ## §1 — a successful commit -/

/-- What `commit` must do to the delta `δ` at `d` in `s`: succeed; make `δ` a root with no
tombstones that caches its merkle root and holds the backend `b`; fill `b` with what `find`
saw from `d` and its slots with `δ`'s metadata; take the backend from the old root; and
leave every descendant of `d` answering as before. -/
def CommitLaw (c : Crypto) (s : State) (d : Nat) (δ : StateDelta) : Prop :=
  ∃ s' b, commit c s d none = some (s', none) ∧
    s'.nodes[d]? = some { δ with
      parent := none, removedObjects := .empty, backend := some b,
      merkleRoot := merkleRootOf c δ } ∧
    (∀ k, some (b.map.get k) = find s d k) ∧
    b.revision = δ.revision ∧ b.id = δ.id ∧ some b.merkleRoot = merkleRoot c s d ∧
    some b.blockHeader = δ.backend.map (·.blockHeader) ∧
    merkleRoot c s' d = merkleRoot c s d ∧
    s'.nodes[rootOf s d]?.map (·.backend) = some none ∧
    ∀ e k, OnChain s e d → find s' e k = find s e k

/-- **Commit law.** In every state an edit run reaches, committing a non-root delta does
what `CommitLaw` says. -/
theorem commit_law {c : Crypto} {s : State} {d : Nat} {δ : StateDelta}
    (hs : Reachable c (fun _ op => op.isEdit) s) (hd : s.nodes[d]? = some δ)
    (hnr : δ.isRoot = false) : CommitLaw c s d δ := by
  have hl := (allLive_of_reachable hs).chainLive d (State.lt_length hd)
  obtain ⟨ρ, ρb, calls, hρ, hρb, hc, hfind⟩ := performAll_stackCalls hl
  obtain ⟨ν, db, hν, hdb⟩ := hl d (.refl d)
  obtain rfl : ν = δ := Option.some.inj (hν.symm.trans hd)
  obtain ⟨m, hm⟩ := merkleRootOf_isSome (c := c) hdb
  have hdr := (rootOf_spec s d (State.lt_length hd)).1
  have hrd := rootOf_ne_of_not_root hd hnr
  have hB : ρb.performAll (batchPre calls ν db ++ batchPost m) =
      { map := (ρb.performAll calls).map, revision := ν.revision, id := ν.id,
        merkleRoot := m, blockHeader := db.blockHeader } := performAll_batch hc ρb
  set B := ρb.performAll (batchPre calls ν db ++ batchPost m)
  set s' := becomeRoot (cacheRoot (resetBackend s (rootOf s d)) d m) d B
  have hd' : s'.nodes[d]? = some { ν with
      parent := none, removedObjects := .empty, backend := some B,
      merkleRoot := merkleRootOf c ν } := by
    simp [s', hrd, hd, hm]
  have hfd : ∀ k, find s' d k = find s d k := fun k => by
    rw [find_of_root hd' rfl rfl, ← hfind k, hB]
  refine ⟨s', B, by rw [commit_eq hd hnr hρ hρb hc hdb hm]; rfl, hd', fun k => ?_,
    by rw [hB], by rw [hB], by simp [hB, merkleRoot, hd, hm], by simp [hB, hdb],
    by simp [merkleRoot, hd', hd, merkleRootOf_cached, hm], by simp [s', hrd.symm, hρ],
    fun e k he => find_congr_upto k he (hfd k) fun y _ hy => ?_⟩
  · rw [← hfind k, hB]
  · have hyd : d ≠ y := fun h => hy (h ▸ .refl d)
    have hyr : rootOf s d ≠ y := fun h => hy (h ▸ hdr)
    simp [s', hyd, hyr]

unseal find nodeStack in
/-- The commit law for `D = 2`, the grandchild of a root holding `[1] ↦ [7]` and `[2] ↦ [8]`:
the child `1` writes `[3] ↦ [9]` and erases `[1]`; `D` writes `[1] ↦ [5]` again, erases `[2]`
and has a child `3` below it. -/
theorem commit_law_grandchild_with_descendant :
    let c : Crypto := ⟨fun _ => default, fun _ => default⟩
    let b : Backend := { map := (OrderedMap.empty.put [1] [7]).put [2] [8] }
    let s := (replay c (fun _ op => op.isEdit) (State.init b)
      [.makeChild 0 default default, .put 1 [3] [9], .erase 1 [1], .makeChild 1 default default,
        .put 2 [1] [5], .erase 2 [2], .makeChild 2 default default]).getD (State.init b)
    let δ := (s.nodes[2]?).getD (.ofBackend b)
    Reachable c (fun _ op => op.isEdit) s ∧ s.nodes[2]? = some δ ∧ δ.isRoot = false ∧
      CommitLaw c s 2 δ := by
  intro c b s δ
  have hs : Reachable c (fun _ op => op.isEdit) s := Reachable.of_replay_getD _ (by decide)
  have hd : s.nodes[2]? = some δ := by decide
  have hnr : δ.isRoot = false := by decide
  exact ⟨hs, hd, hnr, commit_law hs hd hnr⟩

/-! ## §2 — a failed commit -/

/-- What a commit of the delta `δ` at `d` in `s` leaves in `s'` when its batch throws: the
old root without a backend; `δ` with its parent, tombstones and backend; every other delta
with what `find` reads; so every lookup whose chain avoids the old root answers as before,
and every lookup answers as before or faults. -/
def FailedCommitFrame (s : State) (d : Nat) (δ : StateDelta) (s' : State) : Prop :=
  s'.nodes[rootOf s d]?.bind (·.backend) = none ∧
    (∃ δ', s'.nodes[d]? = some δ' ∧ δ'.parent = δ.parent ∧
      δ'.removedObjects = δ.removedObjects ∧ δ'.backend = δ.backend) ∧
    (∀ e, e ≠ rootOf s d → s'.nodes[e]?.map StateDelta.findView =
      s.nodes[e]?.map StateDelta.findView) ∧
    (∀ e k, ¬ OnChain s e (rootOf s d) → find s' e k = find s e k) ∧
    ∀ e k, find s' e k = find s e k ∨ find s' e k = none

/-- **What a failed commit leaves**, at every failing call of the batch. -/
theorem commit_failure_frame {c : Crypto} {s s' : State} {d i : Nat} {δ : StateDelta}
    (hd : s.nodes[d]? = some δ) (h : commit c s d (some i) = some (s', some .backendFailure)) :
    FailedCommitFrame s d δ s' := by
  obtain ⟨ν, hν, ⟨-, -, h⟩ | ⟨hnr, ρ, ρb, merges, db, m, hρ, -, -, -, -, h⟩⟩ :=
    commit_eq_some h
  · cases h
  obtain rfl : ν = δ := Option.some.inj (hν.symm.trans hd)
  have hrd := rootOf_ne_of_not_root hd hnr
  set r := rootOf s d
  -- both failure states agree with `resetBackend s r` on everything `find` reads
  have hview : ∀ e, s'.nodes[e]?.map StateDelta.findView =
      (resetBackend s r).nodes[e]?.map StateDelta.findView := fun e => by
    rcases commitOutcome_of_fail h with rfl | rfl
    · rfl
    · rw [cacheRoot_nodes]
      split
      · rw [Option.map_map]; rfl
      · rfl
  have hfind : ∀ e k, find s' e k = find (resetBackend s r) e k := fun e k =>
    find_congr k fun y _ => .inl (hview y)
  refine ⟨?_, ?_, fun e he => by rw [hview e]; simp [Ne.symm he], fun e k he => ?_,
    fun e k => hfind e k ▸ find_resetBackend s r e k⟩
  · have := hview r
    simp only [resetBackend_nodes, if_pos rfl, hρ, Option.map_some'] at this
    obtain ⟨ρ', hρ', hv⟩ := Option.map_eq_some'.mp this
    simp only [StateDelta.findView, Prod.mk.injEq] at hv
    simp [hρ', hv.1]
  · have := hview d
    simp only [resetBackend_nodes, hrd, if_false, hd, Option.map_some'] at this
    obtain ⟨δ', hδ', hv⟩ := Option.map_eq_some'.mp this
    simp only [StateDelta.findView, Prod.mk.injEq] at hv
    exact ⟨δ', hδ', hv.2.2, hv.2.1, hv.1⟩
  · rw [hfind]
    exact find_modify_of_not_onChain _ _ he k

unseal find nodeStack in
/-- The frame of a commit of the fresh child of a root holding `[1] ↦ [7]`, whose
`start_write_batch` throws. -/
theorem commit_failure_frame_at_start :
    let c : Crypto := ⟨fun _ => default, fun _ => default⟩
    let b : Backend := { map := OrderedMap.empty.put [1] [7] }
    let s := (replay c (fun _ op => op.isEdit) (State.init b)
      [.makeChild 0 default default]).getD (State.init b)
    let s' := ((commit c s 1 (some 0)).map Prod.fst).getD s
    s.nodes[1]? = some (childOf (.ofBackend b) 0 default default) ∧
      commit c s 1 (some 0) = some (s', some .backendFailure) ∧
      FailedCommitFrame s 1 (childOf (.ofBackend b) 0 default default) s' := by
  intro c b s s'
  have hd : s.nodes[1]? = some (childOf (.ofBackend b) 0 default default) := by decide
  have h : commit c s 1 (some 0) = some (s', some .backendFailure) := by decide
  exact ⟨hd, h, commit_failure_frame hd h⟩

unseal find nodeStack in
/-- A commit whose `start_write_batch` throws leaves the old root without its backend: the
root answered `[1]` with `[7]` before, and its lookup faults after. -/
theorem failed_commit_loses_root_backend :
    let c : Crypto := ⟨fun _ => default, fun _ => default⟩
    let b : Backend := { map := OrderedMap.empty.put [1] [7] }
    let s := (replay c (fun _ op => op.isEdit) (State.init b)
      [.makeChild 0 default default]).getD (State.init b)
    let s' := ((commit c s 1 (some 0)).map Prod.fst).getD s
    commit c s 1 (some 0) = some (s', some .backendFailure) ∧
      (s.nodes[0]?.bind (·.backend)).isSome = true ∧ s'.nodes[0]?.bind (·.backend) = none ∧
      find s 0 [1] = some (some [7]) ∧ find s' 0 [1] = none := by
  intro c b s s'
  decide

end StateDb.Laws
