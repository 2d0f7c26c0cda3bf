/-
# StateDb.Laws.Durable — what a commit makes durable, and how commits compose.

A successful `commit` of `d` leaves the state `becomeRoot (cacheRoot (resetBackend s r) d m) d B`:
the old root `r` without its backend, and `d` a root caching its merkle root `m` and holding
the backend `B` the batch filled (`commit_of_chainLive`). This module follows that state
through the rest of the tree and through a restart.

* `commit_then_open`: opening the committed backend afresh, as `state_delta(path)` does after
  a restart, reads every observable of the committed delta as it was before the commit:
  `find` on every key, `revision()`, `id()`, `merkle_root()` and `block_header()`.
* `commit_keeps_or_faults`: a commit changes no answer of a delta that does not descend from
  the committed one; such a lookup either answers as before or, when its chain reaches the old
  root, dereferences the NULL backend.
* `commit_in_steps`: committing `d` and then a descendant `e` leaves the same root delta at `e`,
  and the same answers below it, as committing `e` at once.
* `commit_writes_snapshot`: after every snapshot run, the backend a commit hands the new root
  holds exactly the naive map of the committed delta.

All of it rides on the chain lemmas below: the commit keeps every parent link but `d`'s, which
it cuts, so a chain in the committed state is a chain before it, and below `d` it never gets
past `d`.
-/

import StateDb.Laws.Snapshot

namespace StateDb.Laws

open StateDb.Backends StateDb.Detail

/-- What a caller reads of the delta at `d` in `s`, compared with the delta at `d₀` in `s₀`:
`find` on every key, `revision()`, `id()`, `merkle_root()` and `block_header()`. -/
structure SameObservables (c : Crypto) (s : State) (d : Nat) (s₀ : State) (d₀ : Nat) :
    Prop where
  find_eq : ∀ k, find s d k = find s₀ d₀ k
  revision_eq : s.nodes[d]?.map (·.revision) = s₀.nodes[d₀]?.map (·.revision)
  id_eq : s.nodes[d]?.map (·.id) = s₀.nodes[d₀]?.map (·.id)
  merkleRoot_eq : merkleRoot c s d = merkleRoot c s₀ d₀
  blockHeader_eq : (s.nodes[d]?.bind (·.backend)).map (·.blockHeader) =
    (s₀.nodes[d₀]?.bind (·.backend)).map (·.blockHeader)

/-! ## §1 — the committed state -/

section Committed

variable {s : State} {d : Nat} {δ : StateDelta} {m : Multihash} {B : Backend}

theorem committed_nodes_self (hd : s.nodes[d]? = some δ) (hrd : rootOf s d ≠ d) :
    (becomeRoot (cacheRoot (resetBackend s (rootOf s d)) d m) d B).nodes[d]? =
      some { δ with
        parent := none, removedObjects := .empty, backend := some B, merkleRoot := some m } := by
  simp [hrd, hd]

theorem committed_nodes_other {y : Nat} (hyd : d ≠ y) (hyr : rootOf s d ≠ y) :
    (becomeRoot (cacheRoot (resetBackend s (rootOf s d)) d m) d B).nodes[y]? = s.nodes[y]? := by
  simp [hyd, hyr]

/-- Below the committed delta, a chain of the committed state never gets past it. -/
theorem onChain_committed_below {e y : Nat}
    (h : OnChain (becomeRoot (cacheRoot (resetBackend s (rootOf s d)) d m) d B) e y)
    (hed : OnChain s e d) : OnChain s y d := by
  induction h with
  | refl => exact hed
  | @parent e p y ν he hp _ ih =>
    refine ih ?_
    have hde : d ≠ e := by
      rintro rfl
      rw [becomeRoot_nodes, if_pos rfl] at he
      obtain ⟨_, -, rfl⟩ := Option.map_eq_some'.mp he
      cases hp
    obtain ⟨ν₁, he₁, hp₁⟩ := State.parent_of_modify he hp
    obtain ⟨ν₂, he₂, hp₂⟩ := State.parent_of_modify he₁ hp₁
    obtain ⟨ν₃, he₃, hp₃⟩ := State.parent_of_modify he₂ hp₂
    cases hed with
    | refl => exact absurd rfl hde
    | @parent _ p' _ δ' he' hp' hrest =>
      obtain rfl : δ' = ν₃ := Option.some.inj (he'.symm.trans he₃)
      obtain rfl : p' = p := Option.some.inj (hp'.symm.trans hp₃)
      exact hrest

/-- **The committed delta's descendants answer as before**, once `B` holds what `find` saw
from `d`. -/
theorem find_committed_of_onChain (hd : s.nodes[d]? = some δ) (hrd : rootOf s d ≠ d)
    (hB : ∀ k, some (B.map.get k) = find s d k) {e : Nat} (he : OnChain s e d) (k : Bytes) :
    find (becomeRoot (cacheRoot (resetBackend s (rootOf s d)) d m) d B) e k = find s e k := by
  have hdr := (rootOf_spec s d (State.lt_length hd)).1
  refine find_congr_upto k he ?_ fun y _ hy => ?_
  · rw [find_of_root (committed_nodes_self hd hrd) rfl rfl, hB]
  · have hyd : d ≠ y := fun h => hy (h ▸ .refl d)
    have hyr : rootOf s d ≠ y := fun h => hy (h ▸ hdr)
    rw [committed_nodes_other hyd hyr]

/-- Off the committed delta's subtree, a lookup answers as before or faults on the old
root. -/
theorem find_committed_of_not_onChain {e : Nat} (he : ¬ OnChain s e d) (k : Bytes) :
    find (becomeRoot (cacheRoot (resetBackend s (rootOf s d)) d m) d B) e k = find s e k ∨
      (OnChain s e (rootOf s d) ∧
        find (becomeRoot (cacheRoot (resetBackend s (rootOf s d)) d m) d B) e k = none) := by
  set r := rootOf s d
  have hcut : find (becomeRoot (cacheRoot (resetBackend s r) d m) d B) e k =
      find (cacheRoot (resetBackend s r) d m) e k :=
    find_modify_of_not_onChain _ _ (fun h => he h.of_modify.of_modify) k
  have hcache : find (cacheRoot (resetBackend s r) d m) e k = find (resetBackend s r) e k :=
    find_modify_of_view (fun δ => { δ with merkleRoot := some m }) _ (fun _ => rfl) e k
  rw [hcut, hcache]
  by_cases hr : OnChain s e r
  · exact (find_resetBackend s r e k).imp_right fun h => ⟨hr, h⟩
  · exact .inl (find_modify_of_not_onChain _ _ hr k)

end Committed

/-! ## §2 — a commit, then a restart -/

/-- **Commit, then open.** For every non-root delta `d` whose parent chain holds its
backends, `commit()` succeeds, and a `state_delta` freshly constructed over the backend it
leaves at `d` reads every observable of `d` as `d` read it before the commit. -/
theorem commit_then_open {c : Crypto} {s : State} {d : Nat} {δ : StateDelta}
    (hd : s.nodes[d]? = some δ) (hnr : δ.isRoot = false) (hl : ChainLive s d) :
    ∃ s' B, commit c s d none = some (s', none) ∧ s'.nodes[d]?.bind (·.backend) = some B ∧
      SameObservables c s d (State.init B) 0 := by
  obtain ⟨m, B, hm, hc, hB, hrev, hid, hmr, hbh⟩ := commit_of_chainLive (c := c) hd hnr hl
  refine ⟨_, B, hc, by rw [committed_nodes_self hd (rootOf_ne_of_not_root hd hnr)]; rfl, ?_⟩
  refine ⟨fun k => (hB k).symm.trans
    (find_of_root (s := State.init B) (d := 0) rfl rfl rfl k).symm, ?_, ?_, ?_, ?_⟩
  · rw [hd, Option.map_some']; exact congrArg some hrev.symm
  · rw [hd, Option.map_some']; exact congrArg some hid.symm
  · rw [merkleRoot, hd, Option.some_bind, hm, ← hmr]; rfl
  · rw [hd, Option.some_bind]; exact hbh

unseal find in
/-- Commit, then open, for a child of a root holding `[1] ↦ [7]` that wrote `[2] ↦ [9]`. -/
theorem commit_then_open_child :
    let c : Crypto := ⟨fun _ => default, fun _ => default⟩
    let b : Backend := { map := OrderedMap.empty.put [1] [7] }
    let s := (replay c (fun _ op => op.isEdit) (State.init b)
      [.makeChild 0 default default, .put 1 [2] [9]]).getD (State.init b)
    let δ := (s.nodes[1]?).getD (.ofBackend b)
    s.nodes[1]? = some δ ∧ δ.isRoot = false ∧ ChainLive s 1 ∧
      ∃ s' B, commit c s 1 none = some (s', none) ∧ s'.nodes[1]?.bind (·.backend) = some B ∧
        SameObservables c s 1 (State.init B) 0 := by
  intro c b s δ
  have hd : s.nodes[1]? = some δ := by decide
  have hnr : δ.isRoot = false := by decide
  have hl : ChainLive s 1 :=
    (allLive_of_reachable (Reachable.of_replay_getD _ (by decide))).chainLive 1 (by decide)
  exact ⟨hd, hnr, hl, commit_then_open hd hnr hl⟩

/-! ## §3 — what a commit does to the rest of the tree -/

/-- **A commit answers as before or faults.** For every non-root delta `d` whose parent
chain holds its backends, after `commit()` every lookup on every delta answers as it did
before, except on a delta that does not descend from `d` and whose chain reaches the old
root: there it may dereference the NULL backend. No lookup ever gets a different value. -/
theorem commit_keeps_or_faults {c : Crypto} {s : State} {d : Nat} {δ : StateDelta}
    (hd : s.nodes[d]? = some δ) (hnr : δ.isRoot = false) (hl : ChainLive s d) :
    ∃ s', commit c s d none = some (s', none) ∧ ∀ e k, find s' e k = find s e k ∨
      (¬ OnChain s e d ∧ OnChain s e (rootOf s d) ∧ find s' e k = none) := by
  obtain ⟨m, B, -, hc, hB, -⟩ := commit_of_chainLive (c := c) hd hnr hl
  refine ⟨_, hc, fun e k => ?_⟩
  by_cases he : OnChain s e d
  · exact .inl (find_committed_of_onChain hd (rootOf_ne_of_not_root hd hnr) hB he k)
  · exact (find_committed_of_not_onChain he k).imp_right fun h => ⟨he, h⟩

unseal find in
/-- The commit safety for one of two children of a root holding `[1] ↦ [7]`. -/
theorem commit_keeps_or_faults_fork :
    let c : Crypto := ⟨fun _ => default, fun _ => default⟩
    let b : Backend := { map := OrderedMap.empty.put [1] [7] }
    let s := (replay c (fun _ op => op.isEdit) (State.init b)
      [.makeChild 0 default default, .makeChild 0 default default, .put 1 [2] [9]]).getD
      (State.init b)
    let δ := (s.nodes[1]?).getD (.ofBackend b)
    s.nodes[1]? = some δ ∧ δ.isRoot = false ∧ ChainLive s 1 ∧
      ∃ s', commit c s 1 none = some (s', none) ∧ ∀ e k, find s' e k = find s e k ∨
        (¬ OnChain s e 1 ∧ OnChain s e (rootOf s 1) ∧ find s' e k = none) := by
  intro c b s δ
  have hd : s.nodes[1]? = some δ := by decide
  have hnr : δ.isRoot = false := by decide
  have hl : ChainLive s 1 :=
    (allLive_of_reachable (Reachable.of_replay_getD _ (by decide))).chainLive 1 (by decide)
  exact ⟨hd, hnr, hl, commit_keeps_or_faults hd hnr hl⟩

/-! ## §4 — committing in steps -/

/-- **Commits compose.** Committing `d` and then a descendant `e` of it, on a chain that holds
its backends, leaves at `e` the same root delta as committing `e` at once, and every delta
below `e` answers alike in the two states. -/
theorem commit_in_steps {c : Crypto} {s : State} {d e : Nat} {δ ε : StateDelta}
    (hd : s.nodes[d]? = some δ) (hnr : δ.isRoot = false) (he : s.nodes[e]? = some ε)
    (hed : OnChain s e d) (hne : e ≠ d) (hl : ChainLive s e) :
    ∃ s₁ s₂ s₂', commit c s d none = some (s₁, none) ∧
      commit c s₁ e none = some (s₂, none) ∧ commit c s e none = some (s₂', none) ∧
      s₂.nodes[e]? = s₂'.nodes[e]? ∧
      ∀ x k, OnChain s x e → find s₂ x k = find s₂' x k := by
  have hrd := rootOf_ne_of_not_root hd hnr
  have hrle : rootOf s d < d :=
    lt_of_le_of_ne (rootOf_spec s d (State.lt_length hd)).1.le hrd
  have hdle : d < e := lt_of_le_of_ne hed.le (Ne.symm hne)
  have hεnr : ε.isRoot = false := by
    cases hed with
    | refl => exact absurd rfl hne
    | parent he' hp' _ => cases he.symm.trans he'; simp [StateDelta.isRoot, hp']
  -- the first commit
  obtain ⟨m, B, -, hc₁, hB, -⟩ :=
    commit_of_chainLive (c := c) hd hnr fun x hx => hl x (hed.trans hx)
  set s₁ := becomeRoot (cacheRoot (resetBackend s (rootOf s d)) d m) d B
  have he₁ : s₁.nodes[e]? = some ε := by
    rw [committed_nodes_other (by omega) (by omega), he]
  have hl₁ : ChainLive s₁ e := fun y hy => by
    have hyd := onChain_committed_below hy hed
    by_cases hdy : d = y
    · subst hdy; exact ⟨_, B, committed_nodes_self hd hrd, rfl⟩
    · rw [committed_nodes_other hdy (by have := hyd.le; omega)]
      exact hl y hy.of_modify.of_modify.of_modify
  -- the second commit, and the direct one
  obtain ⟨m₂, B₂, hm₂, hc₂, hB₂, hrev₂, hid₂, hmr₂, hbh₂⟩ :=
    commit_of_chainLive (c := c) he₁ hεnr hl₁
  obtain ⟨m₃, B₃, hm₃, hc₃, hB₃, hrev₃, hid₃, hmr₃, hbh₃⟩ :=
    commit_of_chainLive (c := c) he hεnr hl
  have hfind₁ (x k) (hx : OnChain s x e) : find s₁ x k = find s x k :=
    find_committed_of_onChain hd hrd hB (hx.trans hed) k
  obtain rfl : m₂ = m₃ := Option.some.inj (hm₂.symm.trans hm₃)
  obtain rfl : B₂ = B₃ := by
    refine Backend.ext (OrderedMap.eq_of_get fun k => Option.some.inj ?_)
      (hrev₂.trans hrev₃.symm) (hid₂.trans hid₃.symm) (hmr₂.trans hmr₃.symm)
      (Option.some.inj (hbh₂.symm.trans hbh₃))
    rw [hB₂, hB₃, hfind₁ e k (.refl e)]
  have hx₁ (x) (hx : OnChain s x e) : OnChain s₁ x e :=
    ((hx.modify_of_lt (by omega)).modify_of_lt (by omega)).modify_of_lt hdle
  refine ⟨s₁, _, _, hc₁, hc₂, hc₃, ?_, fun x k hx => ?_⟩
  · rw [committed_nodes_self he₁ (rootOf_ne_of_not_root he₁ hεnr),
      committed_nodes_self he (rootOf_ne_of_not_root he hεnr)]
  · rw [find_committed_of_onChain he₁ (rootOf_ne_of_not_root he₁ hεnr) hB₂ (hx₁ x hx),
      find_committed_of_onChain he (rootOf_ne_of_not_root he hεnr) hB₃ hx, hfind₁ x k hx]

unseal find in
/-- Committing in steps along the chain root, `1`, `2`, where `1` wrote `[2] ↦ [9]` and `2`
erased `[1]`. -/
theorem commit_in_steps_chain :
    let c : Crypto := ⟨fun _ => default, fun _ => default⟩
    let b : Backend := { map := OrderedMap.empty.put [1] [7] }
    let s := (replay c (fun _ op => op.isEdit) (State.init b)
      [.makeChild 0 default default, .put 1 [2] [9], .makeChild 1 default default,
        .erase 2 [1]]).getD (State.init b)
    let δ := (s.nodes[1]?).getD (.ofBackend b)
    let ε := (s.nodes[2]?).getD (.ofBackend b)
    s.nodes[1]? = some δ ∧ δ.isRoot = false ∧ s.nodes[2]? = some ε ∧ OnChain s 2 1 ∧
      (2 : Nat) ≠ 1 ∧ ChainLive s 2 ∧
      ∃ s₁ s₂ s₂', commit c s 1 none = some (s₁, none) ∧
        commit c s₁ 2 none = some (s₂, none) ∧ commit c s 2 none = some (s₂', none) ∧
        s₂.nodes[2]? = s₂'.nodes[2]? ∧
        ∀ x k, OnChain s x 2 → find s₂ x k = find s₂' x k := by
  intro c b s δ ε
  have hd : s.nodes[1]? = some δ := by decide
  have hnr : δ.isRoot = false := by decide
  have he : s.nodes[2]? = some ε := by decide
  have hed : OnChain s 2 1 := OnChain.step he (by decide)
  have hl : ChainLive s 2 :=
    (allLive_of_reachable (Reachable.of_replay_getD _ (by decide))).chainLive 2 (by decide)
  exact ⟨hd, hnr, he, hed, by decide, hl, commit_in_steps hd hnr he hed (by decide) hl⟩

/-! ## §5 — the durable store refines the snapshot model -/

/-- A snapshot run only forks and writes. -/
theorem isEdit_of_snapshotCall {s : State} {op : Op} (h : snapshotCall s op = true) :
    op.isEdit = true := by
  cases op <;> simp_all [snapshotCall, Op.isForkOrWrite, Op.isEdit]

/-- **Commit writes the snapshot.** After every snapshot run from a fresh root over `b`,
committing any non-root delta succeeds, and the backend it hands the new root holds exactly
that delta's map in the naive model: the same entries, in the same order. -/
theorem commit_writes_snapshot {c : Crypto} {b : Backend} {ops : List Op} {s : State}
    (h : Run c snapshotCall (State.init b) ops s) {d : Nat} {δ : StateDelta}
    (hd : s.nodes[d]? = some δ) (hnr : δ.isRoot = false) :
    ∃ s' B, commit c s d none = some (s', none) ∧ s'.nodes[d]?.bind (·.backend) = some B ∧
      (Snapshots.run [b.map] ops)[d]? = some B.map := by
  have hS := Simulates.run h (Simulates.init b)
  have hl : AllLive s := h.invariant (fun _ _ _ hl ha hs => hl.step (isEdit_of_snapshotCall ha) hs)
    (allLive_init b)
  obtain ⟨m, B, -, hc, hB, -⟩ :=
    commit_of_chainLive (c := c) hd hnr (hl.chainLive d (State.lt_length hd))
  obtain ⟨M, hM⟩ : ∃ M, (Snapshots.run [b.map] ops)[d]? = some M :=
    ⟨_, List.getElem?_eq_getElem (hS.length_eq ▸ State.lt_length hd)⟩
  refine ⟨_, B, hc, by rw [committed_nodes_self hd (rootOf_ne_of_not_root hd hnr)]; rfl, ?_⟩
  rw [hM, OrderedMap.eq_of_get fun k => Option.some.inj ((hB k).trans ?_)]
  rw [hS.find_spec, hM]
  rfl

unseal find in
/-- Commit writes the snapshot, for the child of a root holding `[1] ↦ [7]` in a run that
forks a child and its clone, writes the child and erases through the clone. -/
theorem commit_writes_snapshot_fork :
    let c : Crypto := ⟨fun _ => default, fun _ => default⟩
    let b : Backend := { map := OrderedMap.empty.put [1] [7] }
    let ops : List Op := [.makeChild 0 default default, .clone 1 default default,
      .put 1 [2] [9], .erase 2 [1]]
    let s := (replay c snapshotCall (State.init b) ops).getD (State.init b)
    let δ := (s.nodes[1]?).getD (.ofBackend b)
    Run c snapshotCall (State.init b) ops s ∧ s.nodes[1]? = some δ ∧ δ.isRoot = false ∧
      ∃ s' B, commit c s 1 none = some (s', none) ∧ s'.nodes[1]?.bind (·.backend) = some B ∧
        (Snapshots.run [b.map] ops)[1]? = some B.map := by
  intro c b ops s δ
  have h : Run c snapshotCall (State.init b) ops s := Run.of_replay (by decide)
  have hd : s.nodes[1]? = some δ := by decide
  have hnr : δ.isRoot = false := by decide
  exact ⟨h, hd, hnr, commit_writes_snapshot h hd hnr⟩

end StateDb.Laws
