/-
# StateDb.Laws.Growth — what no call undoes.

Every call of `state_delta.cpp` rewrites one delta (three in `commit`) or appends one, and
none drops a delta. What it does to a delta already there is one of four one-way moves,
`Keeps`: a parent link can be cut (`commit`) but never re-pointed; the finalized flag can be
set (`finalize`) but never cleared; the merkle-root cache can be filled (`merkle_root`,
`commit`) but never emptied or changed, because `merkle_root` computes only while it is
empty and `commit` caches the root it has just read; a backend moved out (`commit`) never
comes back. `Grows.step` says this once per call, and `Grows.run` carries it over every run
of any calls, whatever calls it allows. Each law below is one projection of it:

* `merkleRoot_frozen`: once a delta caches a merkle root, `merkle_root()` returns it ever
  after, whatever is written to the delta or to its ancestors since. It is why a cleared
  root keeps its merkle root (`Laws.Clear`).
* `finalized_stays`: once `is_finalized()`, always.
* `chains_only_shrink`: every parent chain of a delta is one it already had, so the tree
  is only ever pruned.
* `lost_backend_stays_lost`: a delta whose backend `commit` moved out faults on every
  lookup ever after.
-/

import StateDb.Detail.Queries

namespace StateDb.Laws

open StateDb.Backends StateDb.Detail

/-- What a call may do to a delta that exists before it. -/
structure Keeps (δ δ' : StateDelta) : Prop where
  parent : ∀ p, δ'.parent = some p → δ.parent = some p
  finalized : δ.finalized = true → δ'.finalized = true
  merkleRoot : ∀ m, δ.merkleRoot = some m → δ'.merkleRoot = some m
  backend : δ.backend = none → δ'.backend = none

theorem Keeps.refl (δ : StateDelta) : Keeps δ δ := ⟨fun _ h => h, id, fun _ h => h, id⟩

theorem Keeps.trans {δ₁ δ₂ δ₃ : StateDelta} (h₁ : Keeps δ₁ δ₂) (h₂ : Keeps δ₂ δ₃) :
    Keeps δ₁ δ₃ :=
  ⟨fun p h => h₁.parent p (h₂.parent p h), h₂.finalized ∘ h₁.finalized,
    fun m h => h₂.merkleRoot m (h₁.merkleRoot m h), h₂.backend ∘ h₁.backend⟩

/-- `s'` grows from `s`: every delta of `s` is still there, and keeps. -/
def Grows (s s' : State) : Prop :=
  ∀ (e : Nat) (δ : StateDelta), s.nodes[e]? = some δ → ∃ δ', s'.nodes[e]? = some δ' ∧ Keeps δ δ'

namespace Grows

variable {s : State} {d : Nat} {f : StateDelta → StateDelta} {hf}

theorem refl (s : State) : Grows s s := fun _ δ h => ⟨δ, h, .refl δ⟩

theorem trans {s₁ s₂ s₃ : State} (h₁ : Grows s₁ s₂) (h₂ : Grows s₂ s₃) : Grows s₁ s₃ := by
  intro e δ₁ he
  obtain ⟨δ₂, he₂, hk₁⟩ := h₁ e δ₁ he
  obtain ⟨δ₃, he₃, hk₂⟩ := h₂ e δ₂ he₂
  exact ⟨δ₃, he₃, hk₁.trans hk₂⟩

/-- Rewriting one delta grows when the rewrite keeps that delta. -/
theorem modify (hk : ∀ δ, s.nodes[d]? = some δ → Keeps δ (f δ)) : Grows s (s.modify d f hf) := by
  intro e δ he
  by_cases hde : d = e
  · subst hde
    exact ⟨f δ, by simp [he], hk δ he⟩
  · exact ⟨δ, by simp [hde, he], .refl δ⟩

/-- Rewriting the contents of a delta that holds a backend grows. -/
theorem modify_live {δ₀ : StateDelta} {b : Backend} (hd : s.nodes[d]? = some δ₀)
    (hb : δ₀.backend = some b) (hfin : ∀ δ, (f δ).finalized = δ.finalized)
    (hm : ∀ δ, (f δ).merkleRoot = δ.merkleRoot) : Grows s (s.modify d f hf) :=
  modify fun δ hδ => by
    obtain rfl := Option.some.inj (hd.symm.trans hδ)
    exact ⟨hf _, fun h => (hfin _).trans h, fun m h => (hm _).trans h,
      fun h => absurd (hb.symm.trans h) nofun⟩

/-- Caching at `e` the root `merkleRootOf` reads there grows. -/
theorem cache {c : Crypto} {e : Nat} {ε : StateDelta} {m : Multihash}
    (he : s.nodes[e]? = some ε) (hm : merkleRootOf c ε = some m) :
    Grows s (s.modify e (fun δ => { δ with merkleRoot := some m }) fun _ _ h => h) :=
  modify fun δ hδ => by
    obtain rfl := Option.some.inj (he.symm.trans hδ)
    exact ⟨fun _ h => h, id,
      fun m' h => congrArg some (Option.some.inj ((merkleRootOf_cached h).symm.trans hm)).symm,
      id⟩

theorem alloc {ν : StateDelta} {hν} : Grows s (s.alloc ν hν) := fun _ δ he =>
  ⟨δ, by rw [State.alloc_nodes, if_neg (State.lt_length he).ne]; exact he, .refl δ⟩

/-- **Every call grows the tree.** -/
theorem step {c : Crypto} {op : Op} {s' : State} (hs : step c s op = some s') : Grows s s' := by
  cases op with
  | put d k v =>
    obtain ⟨δ, b, hd, hb, rfl⟩ := put_eq_some hs
    exact modify_live hd hb (fun _ => rfl) fun _ => rfl
  | erase d k =>
    rcases erase_eq_some hs with ⟨δ, b, hd, hb, -, rfl⟩ | ⟨-, rfl⟩
    · exact modify_live hd hb (fun _ => rfl) fun _ => rfl
    · exact refl _
  | squash d =>
    cases hd : s.nodes[d]? with
    | none => simp [Detail.step, squash, hd] at hs
    | some δ =>
      cases hp : δ.parent with
      | none =>
        simp [Detail.step, squash, hd, hp] at hs
        subst hs
        exact refl _
      | some p =>
        obtain ⟨π, b, hπ, -, ⟨-, -, -, rfl⟩ | ⟨pb, hpb, rfl⟩⟩ := squash_eq_some hs hd hp
        · exact refl _
        · exact modify_live hπ hpb (fun _ => rfl) fun _ => rfl
  | makeChild d id header =>
    obtain ⟨r, hr, rfl⟩ := Option.map_eq_some'.mp hs
    obtain ⟨-, -, hc, rfl⟩ := makeChild_eq_some hr
    exact (alloc : Grows s (s.alloc _ hc))
  | clone d id header =>
    obtain ⟨r, hr, rfl⟩ := Option.map_eq_some'.mp hs
    obtain ⟨-, -, -, -, hc, rfl⟩ := clone_eq_some hr
    exact (alloc : Grows s (s.alloc _ hc))
  | commit e failAt =>
    obtain ⟨⟨s', err⟩, hr, rfl⟩ := Option.map_eq_some'.mp hs
    obtain ⟨ε, he, ⟨-, rfl, -⟩ | ⟨hnr, ρ, ρb, ms, db, m, -, -, -, hdb, hm, h'⟩⟩ :=
      commit_eq_some hr
    · exact refl _
    have g₀ : Grows s (resetBackend s (rootOf s e)) :=
      modify fun _ _ => ⟨fun _ h => h, id, fun _ h => h, fun _ => rfl⟩
    have he₀ : (resetBackend s (rootOf s e)).nodes[e]? = some ε := by
      rw [resetBackend_nodes, if_neg (rootOf_ne_of_not_root he hnr), he]
    have g₁ : Grows (resetBackend s (rootOf s e)) (cacheRoot (resetBackend s (rootOf s e)) e m) :=
      cache he₀ hm
    have he₁ : (cacheRoot (resetBackend s (rootOf s e)) e m).nodes[e]? =
        some { ε with merkleRoot := some m } := by
      rw [cacheRoot_nodes, if_pos rfl, he₀]; rfl
    have g₂ (B : Backend) : Grows (cacheRoot (resetBackend s (rootOf s e)) e m)
        (becomeRoot (cacheRoot (resetBackend s (rootOf s e)) e m) e B) :=
      modify_live he₁ hdb (fun _ => rfl) fun _ => rfl
    rcases commitOutcome_cases h' with ⟨-, rfl | rfl⟩ | ⟨-, rfl⟩
    · exact g₀
    · exact g₀.trans g₁
    · exact (g₀.trans g₁).trans (g₂ _)
  | merkleRoot e =>
    obtain ⟨ε, m, he, hm, rfl⟩ := cacheMerkleRoot_eq_some hs
    exact cache he hm
  | finalize e =>
    rw [finalize_eq_some hs]
    exact modify fun _ _ => ⟨fun _ h => h, fun _ => rfl, fun _ h => h, id⟩
  | clear e =>
    obtain ⟨δ, b, hd, hb, rfl⟩ := clear_eq_some hs
    exact modify_live hd hb (fun _ => rfl) fun _ => rfl
  | setRevision e r =>
    obtain ⟨δ, hd, ⟨-, b, hb, rfl⟩ | ⟨-, rfl⟩⟩ := setRevision_eq_some hs
    · exact modify_live hd hb (fun _ => rfl) fun _ => rfl
    · exact modify fun _ _ => ⟨fun _ h => h, id, fun _ h => h, id⟩

/-- **Every run grows the tree.** -/
theorem run {c : Crypto} {allowed : State → Op → Bool} {s₀ s : State} {ops : List Op}
    (h : Run c allowed s₀ ops s) : Grows s₀ s := by
  induction h with
  | nil s => exact refl s
  | cons _ hs _ ih => exact (step hs).trans ih

/-- A chain of an old delta in a grown tree is a chain it had. -/
theorem onChain {s' : State} (g : Grows s s') {e x : Nat} (he : e < s.nodes.length)
    (hc : OnChain s' e x) : OnChain s e x := by
  induction hc with
  | refl => exact .refl _
  | @parent e p x δ' hd' hp _ ih =>
    obtain ⟨δ, hd⟩ : ∃ δ, s.nodes[e]? = some δ := ⟨_, List.getElem?_eq_getElem he⟩
    obtain ⟨δ'', hd'', hk⟩ := g e δ hd
    obtain rfl := Option.some.inj (hd''.symm.trans hd')
    have hp₀ := hk.parent p hp
    exact .parent hd hp₀ (ih ((s.parent_lt e δ p hd hp₀).trans he))

end Grows

/-! ## The laws -/

section Laws

variable {c : Crypto} {allowed : State → Op → Bool} {s₀ s : State} {ops : List Op}

/-- The delta at `d` has cached the merkle root `m`. -/
def CachedAt (s : State) (d : Nat) (m : Multihash) : Prop :=
  (s.nodes[d]?.bind (·.merkleRoot)) = some m

/-- **A cached merkle root is frozen.** In every run of any calls, if the delta at `d` has
cached the merkle root `m` when the run starts, `merkle_root()` on `d` returns `m` when it
ends, whatever the run has written to `d` and to its ancestors. -/
theorem merkleRoot_frozen (h : Run c allowed s₀ ops s) {d : Nat} {m : Multihash}
    (hm : CachedAt s₀ d m) : merkleRoot c s d = some m := by
  obtain ⟨δ, hd, hδ⟩ := Option.bind_eq_some.mp hm
  obtain ⟨δ', hd', hk⟩ := (Grows.run h) d δ hd
  rw [merkleRoot, hd', Option.some_bind, merkleRootOf_cached (hk.merkleRoot m hδ)]

unseal find in
/-- The frozen root of a fresh root over a backend whose slot holds `⟨0x12, [7]⟩`, through a
write to the root, a child that writes and is squashed into it, and a `clear()`. -/
theorem merkleRoot_frozen_through_squash :
    let c : Crypto := ⟨fun _ => default, fun _ => default⟩
    let b : Backend := { map := OrderedMap.empty.put [1] [7], merkleRoot := ⟨0x12, [7]⟩ }
    let ops : List Op := [.put 0 [3] [4], .makeChild 0 default default, .put 1 [2] [9],
      .squash 1, .clear 0]
    let s := (replay c (fun _ _ => true) (State.init b) ops).getD (State.init b)
    Run c (fun _ _ => true) (State.init b) ops s ∧ CachedAt (State.init b) 0 ⟨0x12, [7]⟩ ∧
      merkleRoot c s 0 = some ⟨0x12, [7]⟩ := by
  intro c b ops s
  have h : Run c (fun _ _ => true) (State.init b) ops s := Run.of_replay (by decide)
  have hm : CachedAt (State.init b) 0 ⟨0x12, [7]⟩ := rfl
  exact ⟨h, hm, merkleRoot_frozen h hm⟩

/-- **Finalized stays finalized.** In every run of any calls, a delta that `is_finalized()`
when the run starts is finalized when it ends. -/
theorem finalized_stays (h : Run c allowed s₀ ops s) {d : Nat}
    (hf : isFinalized s₀ d = some true) : isFinalized s d = some true := by
  obtain ⟨δ, hd, hδ⟩ := Option.map_eq_some'.mp hf
  obtain ⟨δ', hd', hk⟩ := (Grows.run h) d δ hd
  rw [isFinalized, hd', Option.map_some', hk.finalized hδ]

unseal nodeStack in
/-- A finalized child stays finalized through a grandchild's write and commit, and its own
`clear()`. -/
theorem finalized_stays_through_commit :
    let c : Crypto := ⟨fun _ => default, fun _ => default⟩
    let s₀ := (replay c (fun _ _ => true) (State.init .mapBackend)
      [.makeChild 0 default default, .finalize 1]).getD (State.init .mapBackend)
    let ops : List Op := [.makeChild 1 default default, .put 2 [1] [2], .commit 2 none, .clear 1]
    let s := (replay c (fun _ _ => true) s₀ ops).getD s₀
    Run c (fun _ _ => true) s₀ ops s ∧ isFinalized s₀ 1 = some true ∧
      isFinalized s 1 = some true := by
  intro c s₀ ops s
  have h : Run c (fun _ _ => true) s₀ ops s := Run.of_replay (by decide)
  have hf : isFinalized s₀ 1 = some true := by decide
  exact ⟨h, hf, finalized_stays h hf⟩

/-- **The tree is only pruned.** In every run of any calls, every parent chain of a delta that
exists when the run starts is, when it ends, a chain it had at the start: a call can cut a
parent link, never re-point one. -/
theorem chains_only_shrink (h : Run c allowed s₀ ops s) {e x : Nat}
    (he : e < s₀.nodes.length) (hc : OnChain s e x) : OnChain s₀ e x :=
  (Grows.run h).onChain he hc

unseal nodeStack in
/-- A commit of a grandchild cuts its chain; the child's chain to the root is the one it had. -/
theorem chains_only_shrink_after_commit :
    let c : Crypto := ⟨fun _ => default, fun _ => default⟩
    let s₀ := (replay c (fun _ _ => true) (State.init .mapBackend)
      [.makeChild 0 default default, .makeChild 1 default default]).getD (State.init .mapBackend)
    let ops : List Op := [.commit 2 none, .makeChild 1 default default]
    let s := (replay c (fun _ _ => true) s₀ ops).getD s₀
    Run c (fun _ _ => true) s₀ ops s ∧ 1 < s₀.nodes.length ∧ OnChain s 1 0 ∧
      OnChain s₀ 1 0 := by
  intro c s₀ ops s
  have h : Run c (fun _ _ => true) s₀ ops s := Run.of_replay (by decide)
  have he : 1 < s₀.nodes.length := by decide
  have hc : OnChain s 1 0 :=
    OnChain.step (δ := (s.nodes[1]?).getD (.ofBackend .mapBackend)) (by decide) (by decide)
  exact ⟨h, he, hc, chains_only_shrink h he hc⟩

/-- **A lost backend stays lost.** In every run of any calls, a delta that has no backend
when the run starts (the old root after `commit`) faults on every lookup when it ends. -/
theorem lost_backend_stays_lost (h : Run c allowed s₀ ops s) {d : Nat} {δ : StateDelta}
    (hd : s₀.nodes[d]? = some δ) (hb : δ.backend = none) (k : Bytes) : find s d k = none := by
  obtain ⟨δ', hd', hk⟩ := (Grows.run h) d δ hd
  rw [find_eq k hd']
  exact StateDelta.findLayer_of_backend_none (hk.backend hb)

unseal find nodeStack in
/-- The old root of a child's commit faults on every lookup, through a fork and a write below
the new root. -/
theorem lost_backend_stays_lost_after_commit :
    let c : Crypto := ⟨fun _ => default, fun _ => default⟩
    let b : Backend := { map := OrderedMap.empty.put [1] [7] }
    let s₀ := (replay c (fun _ _ => true) (State.init b)
      [.makeChild 0 default default, .put 1 [2] [9], .commit 1 none]).getD (State.init b)
    let ops : List Op := [.makeChild 1 default default, .put 2 [3] [4]]
    let s := (replay c (fun _ _ => true) s₀ ops).getD s₀
    let δ := (s₀.nodes[0]?).getD (.ofBackend b)
    Run c (fun _ _ => true) s₀ ops s ∧ s₀.nodes[0]? = some δ ∧ δ.backend = none ∧
      ∀ k, find s 0 k = none := by
  intro c b s₀ ops s δ
  have h : Run c (fun _ _ => true) s₀ ops s := Run.of_replay (by decide)
  have hd : s₀.nodes[0]? = some δ := by decide
  have hb : δ.backend = none := by decide
  exact ⟨h, hd, hb, lost_backend_stays_lost h hd hb⟩

end Laws

end StateDb.Laws
