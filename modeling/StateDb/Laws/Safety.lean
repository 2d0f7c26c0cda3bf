/-
# StateDb.Laws.Safety — without a commit, no call dereferences a NULL backend.

`commit` is the one call of `state_delta.cpp` that moves a backend out of a delta (the old
root's, before the write batch). Every other call leaves every backend live
(`AllLive.step_of_not_commit`), and while every backend is live no call on a delta of the tree
reaches a NULL pointer (`step_isSome_of_allLive`): the walks of `find`, `erase` and `commit`
go up chains of live deltas, `squash` merges into a live parent, and `merkle_root` reads a live
backend when it has no cached root. So in every state that calls other than `commit` reach,
every call on every delta answers (`commitFree_never_faults`); after a `commit` the old root
faults for good (`Laws.Growth.lost_backend_stays_lost`), and so may every delta whose chain
reaches it (`Laws.Durable`).
-/

import StateDb.Detail.Run

namespace StateDb.Detail

open StateDb.Backends

section Live

variable {c : Crypto} {s s' : State}

/-- Changing one delta keeps every backend live when the change keeps that delta's. -/
theorem AllLive.modify_keeping {d : Nat} {f : StateDelta → StateDelta} {hf} (hl : AllLive s)
    (hfl : ∀ δ, (f δ).backend = δ.backend) : AllLive (s.modify d f hf) :=
  fun e δ he => by
    obtain ⟨δ₀, h₀, ⟨-, rfl⟩ | rfl⟩ := State.exists_of_modify he
    · rw [hfl]; exact hl e δ₀ h₀
    · exact hl e _ h₀

/-- **Every call but `commit` keeps every backend live.** -/
theorem AllLive.step_of_not_commit {op : Op} (hl : AllLive s) (hc : op.isCommit = false)
    (h : Detail.step c s op = some s') : AllLive s' := by
  by_cases he : op.isEdit = true
  · exact hl.step he h
  cases op with
  | merkleRoot d =>
    obtain ⟨-, -, -, -, rfl⟩ := cacheMerkleRoot_eq_some h
    exact hl.modify_keeping fun _ => rfl
  | finalize d =>
    rw [finalize_eq_some h]
    exact hl.modify_keeping fun _ => rfl
  | clear d =>
    obtain ⟨-, -, -, -, rfl⟩ := clear_eq_some h
    exact hl.modify fun _ => rfl
  | setRevision d r =>
    obtain ⟨-, -, ⟨-, -, -, rfl⟩ | ⟨-, rfl⟩⟩ := setRevision_eq_some h
    · exact hl.modify fun _ => rfl
    · exact hl.modify_keeping fun _ => rfl
  | commit => cases hc
  | _ => exact absurd rfl he

/-- In a state that calls other than `commit` reach, every backend is live. -/
theorem allLive_of_commitFree (h : Reachable c (fun _ op => !op.isCommit) s) : AllLive s :=
  h.invariant allLive_init fun _ _ _ hl hc hs =>
    hl.step_of_not_commit (Bool.not_eq_true' .. ▸ hc) hs

end Live

end StateDb.Detail

namespace StateDb.Laws

open StateDb.Backends StateDb.Detail

/-! ## No call faults while every backend is live -/

section Answers

variable {c : Crypto} {s : State} {d : Nat}

/-- On a chain that holds its backends, `find` answers. -/
theorem find_isSome_of_chainLive (hl : ChainLive s d) (k : Bytes) : (find s d k).isSome := by
  obtain ⟨ρ, ρb, calls, -, -, -, h⟩ := performAll_stackCalls hl
  rw [← h k]
  rfl

/-- On a chain that holds its backends, `commit` answers, whichever call of it throws. -/
theorem commit_isSome_of_chainLive {δ : StateDelta} (hd : s.nodes[d]? = some δ)
    (hl : ChainLive s d) (failAt : Option Nat) : (commit c s d failAt).isSome := by
  cases hr : δ.isRoot
  · obtain ⟨ρ, ρb, merges, hρ, hρb, hc, -⟩ := performAll_stackCalls hl
    obtain ⟨ν, db, hd', hdb⟩ := hl d (.refl d)
    obtain rfl := Option.some.inj (hd.symm.trans hd')
    obtain ⟨m, hm⟩ := merkleRootOf_isSome (c := c) hdb
    rw [commit_eq hd hr hρ hρb hc hdb hm]
    rfl
  · rw [commit_of_root hd hr]
    rfl

/-- **While every backend is live, no call faults.** Every call on a delta of the tree
answers: none of them reaches a NULL backend. -/
theorem step_isSome_of_allLive (hl : AllLive s) {op : Op} (hd : op.target < s.nodes.length) :
    (step c s op).isSome := by
  obtain ⟨δ, hδ⟩ : ∃ δ, s.nodes[op.target]? = some δ := ⟨_, List.getElem?_eq_getElem hd⟩
  obtain ⟨b, hb⟩ := Option.isSome_iff_exists.mp (hl _ δ hδ)
  have hcl := hl.chainLive op.target hd
  cases op <;> dsimp only [Op.target] at hδ hcl hd
  case put d k v => simp [Detail.step, put, hδ, hb]
  case erase d k =>
    obtain ⟨r, hr⟩ := Option.isSome_iff_exists.mp (find_isSome_of_chainLive hcl k)
    cases r <;> simp [Detail.step, erase, hr, hδ, hb]
  case squash d =>
    cases hp : δ.parent with
    | none => simp [Detail.step, squash, hδ, hp]
    | some p =>
      have hpl : p < s.nodes.length := (s.parent_lt d δ p hδ hp).trans hd
      obtain ⟨π, hπ⟩ : ∃ π, s.nodes[p]? = some π := ⟨_, List.getElem?_eq_getElem hpl⟩
      obtain ⟨pb, hpb⟩ := Option.isSome_iff_exists.mp (hl p π hπ)
      simp [Detail.step, squash, hδ, hp, hπ, hb, hpb]
  case makeChild d id header =>
    simp only [Detail.step, Option.isSome_map', makeChild]
    split <;> simp_all
  case clone d id header =>
    simp only [Detail.step, Option.isSome_map', clone]
    split <;> (try split) <;> simp_all
  case commit d failAt =>
    simp only [Detail.step, Option.isSome_map']
    exact commit_isSome_of_chainLive hδ hcl failAt
  case merkleRoot d =>
    obtain ⟨m, hm⟩ := merkleRootOf_isSome (c := c) hb
    simp [Detail.step, cacheMerkleRoot, hδ, hm]
  case finalize d => simp [Detail.step, finalize, hδ]
  case clear d => simp [Detail.step, clear, hδ, hb]
  case setRevision d r => cases hr : δ.isRoot <;> simp [Detail.step, setRevision, hδ, hb, hr]

end Answers

/-- **Without a commit, no call faults.** In every state that a run of calls other than
`commit` reaches from a fresh root, every call on every delta of the tree, `commit` included,
answers: none of them dereferences a NULL backend. -/
theorem commitFree_never_faults {c : Crypto} {s : State}
    (h : Reachable c (fun _ op => !op.isCommit) s) {op : Op} (hd : op.target < s.nodes.length) :
    (step c s op).isSome :=
  step_isSome_of_allLive (allLive_of_commitFree h) hd

/-- A commit that throws at its second backend call, on a grandchild of a root, after a write,
a `finalize()`, a `clear()` of the root, a `merkle_root()` and a `set_revision`. -/
theorem commitFree_never_faults_commit :
    let c : Crypto := ⟨fun _ => default, fun _ => default⟩
    let b : Backend := { map := OrderedMap.empty.put [1] [7] }
    let s := (replay c (fun _ op => !op.isCommit) (State.init b)
      [.makeChild 0 default default, .put 1 [2] [9], .finalize 1, .makeChild 1 default default,
        .clear 0, .merkleRoot 2, .setRevision 0 5]).getD (State.init b)
    Reachable c (fun _ op => !op.isCommit) s ∧ (Op.commit 2 (some 1)).target < s.nodes.length ∧
      (step c s (.commit 2 (some 1))).isSome := by
  intro c b s
  have h : Reachable c (fun _ op => !op.isCommit) s := Reachable.of_replay_getD _ (by decide)
  have hd : (Op.commit 2 (some 1)).target < s.nodes.length := by decide
  exact ⟨h, hd, commitFree_never_faults h hd⟩

end StateDb.Laws
