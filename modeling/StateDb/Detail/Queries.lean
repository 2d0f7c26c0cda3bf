/-
# StateDb.Detail.Queries — `is_empty()` and `get_root()`, and what they answer.

Both walk the parent chain as `find` does, each by its own recursion in `state_delta.cpp`:

* `is_empty()` answers `false` at the first backend on the chain that holds an object and
  `true` at a root when none does. It reads `size()` only, never the tombstones, so
  (`isEmpty_iff_chainEmpty`) on a chain that holds its backends it answers `true` exactly when
  every backend on the chain is empty, and then every lookup is absent
  (`find_of_isEmpty`). The converse fails: a child that tombstones the one object of its
  root reads nothing, yet is not empty.
* `get_root()` stops one step early, at a parent that is a root, and answers NULL on a
  root. It finds the same delta as the walk `commit` makes (`rootOf`, the last of
  `node_stack`), so `get_root()` names the root a `commit` of the same delta resets
  (`getRoot_eq_rootOf`).

`is_finalized()` is a read of the flag; `Laws.Growth` shows that no call clears it.
-/
import StateDb.Detail.Run

namespace StateDb.Detail

open StateDb.Backends

/-- `is_empty()`: `false` where the own backend holds an object, else the parent's answer,
`true` on a root. `none` where a backend on the walk is NULL. -/
def isEmpty (s : State) (d : Nat) : Option Bool :=
  match hd : s.nodes[d]? with
  | none => none
  | some δ =>
    match δ.backend with
    | none => none
    | some b =>
      if b.size ≠ 0 then some false
      else
        match hp : δ.parent with
        | some p =>
          have : p < d := s.parent_lt d δ p hd hp
          isEmpty s p
        | none => some true
termination_by d

/-- `get_root()`: NULL (`none`) on a root, the parent where the parent is a root, else the
parent's root. -/
def getRoot (s : State) (d : Nat) : Option Nat :=
  match hd : s.nodes[d]? with
  | none => none
  | some δ =>
    match hp : δ.parent with
    | none => none
    | some p =>
      match s.nodes[p]? with
      | none => none
      | some π =>
        if π.isRoot then some p
        else
          have : p < d := s.parent_lt d δ p hd hp
          getRoot s p
termination_by d

/-- `is_finalized()`; `none` for a handle with no delta. -/
def isFinalized (s : State) (d : Nat) : Option Bool := s.nodes[d]?.map (·.finalized)

/-- Every backend on the parent chain of `d` is empty. -/
def ChainEmpty (s : State) (d : Nat) : Prop :=
  ∀ x ν b, OnChain s d x → s.nodes[x]? = some ν → ν.backend = some b → b.size = 0

/-- A chain from `d` stays at `d` or goes on from its parent. -/
theorem OnChain.eq_or_parent {s : State} {d x : Nat} {δ : StateDelta}
    (hd : s.nodes[d]? = some δ) (h : OnChain s d x) :
    x = d ∨ ∃ p, δ.parent = some p ∧ OnChain s p x := by
  cases h with
  | refl => exact .inl rfl
  | parent hd' hp h =>
    obtain rfl := Option.some.inj (hd.symm.trans hd')
    exact .inr ⟨_, hp, h⟩

section Layer

variable {s : State} {d : Nat} {δ : StateDelta} {b : Backend}

/-- One layer of `is_empty()`. -/
theorem isEmpty_eq (hd : s.nodes[d]? = some δ) :
    isEmpty s d = δ.backend.bind fun b =>
      if b.size ≠ 0 then some false else δ.parent.elim (some true) (isEmpty s) := by
  rw [isEmpty]
  split
  · simp_all
  · rename_i δ' hd'
    obtain rfl : δ' = δ := Option.some.inj (hd'.symm.trans hd)
    rcases δ' with ⟨_ | p, _ | b⟩ <;> simp

theorem isEmpty_of_size_ne_zero (hd : s.nodes[d]? = some δ) (hb : δ.backend = some b)
    (hs : b.size ≠ 0) : isEmpty s d = some false := by
  simp [isEmpty_eq hd, hb, hs]

theorem isEmpty_of_parent {p : Nat} (hd : s.nodes[d]? = some δ) (hb : δ.backend = some b)
    (hs : b.size = 0) (hp : δ.parent = some p) : isEmpty s d = isEmpty s p := by
  simp [isEmpty_eq hd, hb, hs, hp]

theorem isEmpty_of_root (hd : s.nodes[d]? = some δ) (hb : δ.backend = some b)
    (hs : b.size = 0) (hp : δ.parent = none) : isEmpty s d = some true := by
  simp [isEmpty_eq hd, hb, hs, hp]

/-- `is_empty()` answers only on a delta that exists and holds its backend. -/
theorem exists_of_isEmpty {r : Bool} (h : isEmpty s d = some r) :
    ∃ δ b, s.nodes[d]? = some δ ∧ δ.backend = some b := by
  cases hd : s.nodes[d]? with
  | none => unfold isEmpty at h; split at h <;> simp_all
  | some δ =>
    rw [isEmpty_eq hd] at h
    obtain ⟨b, hb, -⟩ := Option.bind_eq_some.mp h
    exact ⟨δ, b, rfl, hb⟩

/-- One layer of `get_root()`. -/
theorem getRoot_eq (hd : s.nodes[d]? = some δ) :
    getRoot s d = δ.parent.bind fun p =>
      s.nodes[p]?.bind fun π => if π.isRoot then some p else getRoot s p := by
  rw [getRoot]
  split
  · simp_all
  · rename_i δ' hd'
    obtain rfl : δ' = δ := Option.some.inj (hd'.symm.trans hd)
    rcases δ' with ⟨_ | p⟩
    · rfl
    · dsimp only [Option.some_bind]
      cases s.nodes[p]? <;> rfl

end Layer

/-! ## What `is_empty()` answers -/

/-- One layer of `ChainEmpty`: the own backend is empty, and so is the parent's chain. -/
theorem chainEmpty_iff {s : State} {d : Nat} {δ : StateDelta} {b : Backend}
    (hd : s.nodes[d]? = some δ) (hb : δ.backend = some b) :
    ChainEmpty s d ↔ b.size = 0 ∧ ∀ p, δ.parent = some p → ChainEmpty s p := by
  refine ⟨fun he => ⟨he d δ b (.refl d) hd hb, fun p hp x ν b' hx => he x ν b' (.parent hd hp hx)⟩,
    fun ⟨hs, hp⟩ x ν b' hx hν hb' => ?_⟩
  rcases hx.eq_or_parent hd with rfl | ⟨p, hp', hx⟩
  · obtain rfl := Option.some.inj (hd.symm.trans hν)
    obtain rfl := Option.some.inj (hb.symm.trans hb')
    exact hs
  · exact hp p hp' x ν b' hx hν hb'

/-- **`is_empty()` is the emptiness of the chain.** On a chain that holds its backends,
`is_empty()` answers, and it answers `true` exactly when every backend on the chain is
empty. Tombstones do not count. -/
theorem isEmpty_iff_chainEmpty {s : State} {d : Nat} (hl : ChainLive s d) :
    ∃ r, isEmpty s d = some r ∧ (r = true ↔ ChainEmpty s d) := by
  induction d using Nat.strong_induction_on with
  | _ d ih =>
  obtain ⟨δ, b, hd, hb⟩ := hl d (.refl d)
  rw [chainEmpty_iff hd hb]
  by_cases hs : b.size = 0
  · cases hp : δ.parent with
    | none =>
      exact ⟨true, isEmpty_of_root hd hb hs hp, iff_of_true rfl ⟨hs, fun _ h => nomatch h⟩⟩
    | some p =>
      obtain ⟨r, hr, hiff⟩ :=
        ih p (s.parent_lt d δ p hd hp) fun x hx => hl x (.parent hd hp hx)
      refine ⟨r, (isEmpty_of_parent hd hb hs hp).trans hr, hiff.trans ?_⟩
      exact ⟨fun h => ⟨hs, fun _ h' => Option.some.inj h' ▸ h⟩, fun h => h.2 p rfl⟩
  · exact ⟨false, isEmpty_of_size_ne_zero hd hb hs, iff_of_false nofun fun h => hs h.1⟩

unseal find isEmpty in
/-- The emptiness of the chain of a grandchild that erased the one object of its root. -/
theorem isEmpty_iff_chainEmpty_grandchild :
    let c : Crypto := ⟨fun _ => default, fun _ => default⟩
    let b : Backend := { map := OrderedMap.empty.put [1] [7] }
    let s := (replay c (fun _ op => op.isEdit) (State.init b)
      [.makeChild 0 default default, .makeChild 1 default default, .erase 2 [1]]).getD
      (State.init b)
    ChainLive s 2 ∧ ∃ r, isEmpty s 2 = some r ∧ (r = true ↔ ChainEmpty s 2) := by
  intro c b s
  have hl : ChainLive s 2 :=
    (allLive_of_reachable (Reachable.of_replay_getD _ (by decide))).chainLive 2 (by decide)
  exact ⟨hl, isEmpty_iff_chainEmpty hl⟩

/-- **An empty delta reads nothing.** Where `is_empty()` answers `true`, every lookup answers
that the key is absent, on every state. -/
theorem find_of_isEmpty {s : State} {d : Nat} (h : isEmpty s d = some true) (k : Bytes) :
    find s d k = some none := by
  induction d using Nat.strong_induction_on with
  | _ d ih =>
  obtain ⟨δ, b, hd, hb⟩ := exists_of_isEmpty h
  by_cases hs : b.size = 0
  · have hg : b.map.get k = none := OrderedMap.get_of_size_eq_zero hs k
    rw [find_eq k hd]
    cases hr : δ.isRemoved k
    · cases hp : δ.parent with
      | none => exact StateDelta.findLayer_of_root hb hg hr hp
      | some p =>
        rw [StateDelta.findLayer_of_parent hb hg hr hp]
        exact ih p (s.parent_lt d δ p hd hp) ((isEmpty_of_parent hd hb hs hp).symm.trans h)
    · exact StateDelta.findLayer_of_removed hb hg hr
  · exact absurd ((isEmpty_of_size_ne_zero hd hb hs).symm.trans h) nofun

unseal find isEmpty in
/-- A child of an empty root that wrote `[2]` and erased it again is empty. -/
theorem find_of_isEmpty_erased :
    let c : Crypto := ⟨fun _ => default, fun _ => default⟩
    let s := (replay c (fun _ op => op.isEdit) (State.init .mapBackend)
      [.makeChild 0 default default, .put 1 [2] [9], .erase 1 [2]]).getD (State.init .mapBackend)
    isEmpty s 1 = some true ∧ ∀ k, find s 1 k = some none := by
  intro c s
  have h : isEmpty s 1 = some true := by decide
  exact ⟨h, find_of_isEmpty h⟩

unseal find isEmpty in
/-- The converse fails: the grandchild that erased the one object of its root reads `[1]` as
absent, and the root holds nothing else, yet it is not empty. -/
example :
    let c : Crypto := ⟨fun _ => default, fun _ => default⟩
    let b : Backend := { map := OrderedMap.empty.put [1] [7] }
    let s := (replay c (fun _ op => op.isEdit) (State.init b)
      [.makeChild 0 default default, .makeChild 1 default default, .erase 2 [1]]).getD
      (State.init b)
    find s 2 [1] = some none ∧ isEmpty s 2 = some false := by
  decide

/-! ## What `get_root()` answers -/

/-- **`get_root()` finds the root `commit` resets.** On a root `get_root()` answers NULL;
below a root it answers `rootOf`, the end of the parent walk `commit` makes, which is a
root on the chain. -/
theorem getRoot_eq_rootOf {s : State} {d : Nat} {δ : StateDelta} (hd : s.nodes[d]? = some δ) :
    getRoot s d = if δ.isRoot then none else some (rootOf s d) := by
  induction d using Nat.strong_induction_on generalizing δ with
  | _ d ih =>
  cases hp : δ.parent with
  | none => rw [getRoot_eq hd, hp, if_pos (by simp [StateDelta.isRoot, hp]), Option.none_bind]
  | some p =>
    have hlt := s.parent_lt d δ p hd hp
    obtain ⟨π, hπ⟩ : ∃ π, s.nodes[p]? = some π :=
      ⟨_, List.getElem?_eq_getElem (hlt.trans (State.lt_length hd))⟩
    have hnr : δ.isRoot = false := by simp [StateDelta.isRoot, hp]
    rw [getRoot_eq hd, hp, Option.some_bind, hπ, Option.some_bind, ih p hlt hπ,
      rootOf_of_parent hd hp, hnr, if_neg Bool.false_ne_true]
    cases hπp : π.parent with
    | none => simp [StateDelta.isRoot, hπp, rootOf_of_root hπ hπp]
    | some _ => simp [StateDelta.isRoot, hπp]

unseal getRoot in
/-- The root of a grandchild. -/
theorem getRoot_eq_rootOf_grandchild :
    let c : Crypto := ⟨fun _ => default, fun _ => default⟩
    let s := (replay c (fun _ op => op.isEdit) (State.init .mapBackend)
      [.makeChild 0 default default, .makeChild 1 default default]).getD (State.init .mapBackend)
    let δ := (s.nodes[2]?).getD (.ofBackend .mapBackend)
    s.nodes[2]? = some δ ∧ getRoot s 2 = if δ.isRoot then none else some (rootOf s 2) := by
  intro c s δ
  have hd : s.nodes[2]? = some δ := by decide
  exact ⟨hd, getRoot_eq_rootOf hd⟩

end StateDb.Detail
