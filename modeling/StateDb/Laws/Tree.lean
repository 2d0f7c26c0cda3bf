/-
# StateDb.Laws.Tree — the tree shape and the revision chain.

The parent links of the deltas form a forest whose every path ends at a root. In the model
this is carried by `State` itself: a parent's handle is below its child's (`parent_lt`), and
every operation that writes a state must show it. `make_child` and `clone` allocate a new
delta whose parent already exists, and every other operation keeps a delta's parent or drops
it (`commit`). So every reachable state is acyclic by construction, and `exists_root` walks
up to a root.

`tree_revision_invariant`: in every state reached by edits and commits, every non-root delta
is one revision above its parent, in `uint64_t` arithmetic. `make_child` gives the child
`_revision + 1`; `clone` copies both the source's parent and its revision; every other call
keeps revisions, and `commit` only cuts the parent link of the committed delta, whose
children keep the revision it has.
-/

import StateDb.Detail.Run

namespace StateDb.Laws

open StateDb.Backends StateDb.Detail

/-- Every non-root delta is one revision above its parent. -/
def RevisionsChain (s : State) : Prop :=
  ∀ (d p : Nat) (δ π : StateDelta), s.nodes[d]? = some δ → δ.parent = some p →
    s.nodes[p]? = some π → δ.revision = π.revision + 1

section Revisions

variable {s s' : State}

theorem revisionsChain_init (b : Backend) : RevisionsChain (State.init b) := by
  intro d p δ π hd hp _
  match d with
  | 0 => cases hd; cases hp
  | _ + 1 => cases hd

/-- Changing one delta keeps the chain when the change keeps its revision. -/
theorem RevisionsChain.modify {d : Nat} {f : StateDelta → StateDelta} {hf}
    (h : RevisionsChain s) (hr : ∀ δ, (f δ).revision = δ.revision) :
    RevisionsChain (s.modify d f hf) := by
  have hrev : ∀ {e x x₀}, ((d = e ∧ x = f x₀) ∨ x = x₀) →
      x.revision = x₀.revision := by
    rintro e x x₀ (⟨-, rfl⟩ | rfl)
    exacts [hr x₀, rfl]
  intro e p δ π he hp hπ
  obtain ⟨δ₀, he₀, hδ⟩ := State.exists_of_modify he
  obtain ⟨π₀, hπ₀, hπ'⟩ := State.exists_of_modify hπ
  have hp₀ : δ₀.parent = some p := by
    rcases hδ with ⟨-, rfl⟩ | rfl
    exacts [hf δ₀ p hp, hp]
  rw [hrev hδ, hrev hπ']
  exact h e p δ₀ π₀ he₀ hp₀ hπ₀

/-- Allocating a delta keeps the chain when the new delta is one revision above its
parent. -/
theorem RevisionsChain.alloc {ν : StateDelta} {hν} (h : RevisionsChain s)
    (hν' : ∀ p π, ν.parent = some p → s.nodes[p]? = some π →
      ν.revision = π.revision + 1) :
    RevisionsChain (s.alloc ν hν) := by
  intro e p δ π he hp hπ
  rw [State.alloc_nodes] at he hπ
  split at he
  · cases he
    rw [if_neg (hν p hp).ne] at hπ
    exact hν' p π hp hπ
  · have hpl : p < s.nodes.length := (s.parent_lt e δ p he hp).trans (State.lt_length he)
    rw [if_neg hpl.ne] at hπ
    exact h e p δ π he hp hπ

/-- **One edit or commit keeps the revision chain.** -/
theorem RevisionsChain.step {c : Crypto} {op : Op} (h : RevisionsChain s)
    (ha : op.isEditOrCommit = true) (hs : step c s op = some s') : RevisionsChain s' := by
  by_cases he : op.isEdit = true
  · rcases edit_cases he hs with
      rfl | ⟨d, f, hf, hk, rfl⟩ | ⟨d, δ, ν, hν, hd, rfl, -, hν'⟩
    · exact h
    · exact h.modify hk.revision
    · refine h.alloc fun p π hp hπ => ?_
      rcases hν' with ⟨hp', hr, -⟩ | ⟨hp', hr, -⟩
      · obtain rfl : p = d := Option.some.inj (hp.symm.trans hp')
        rw [hr, Option.some.inj (hπ.symm.trans hd)]
      · rw [hr]
        exact h d p δ π hd (hp' ▸ hp) hπ
  cases op with
  | commit d failAt =>
    obtain ⟨⟨s', err⟩, hr, rfl⟩ := Option.map_eq_some'.mp hs
    dsimp only
    obtain ⟨δ, -, ⟨-, rfl, -⟩ | ⟨-, ρ, ρb, merges, db, m, -, -, -, -, -, h'⟩⟩ :=
      commit_eq_some hr
    · exact h
    · have h₀ : RevisionsChain (resetBackend s (rootOf s d)) := h.modify fun _ => rfl
      rcases commitOutcome_cases h' with ⟨-, rfl | rfl⟩ | ⟨-, rfl⟩
      · exact h₀
      · exact h₀.modify fun _ => rfl
      · refine RevisionsChain.modify (RevisionsChain.modify h₀ ?_) ?_ <;> exact fun _ => rfl
  | _ => simp [Op.isEditOrCommit, Op.isEdit] at ha he

end Revisions

/-- **Tree shape and revisions.** In every state that edits and commits reach from a fresh
root, the parent links from any delta reach a root, no delta is its own strict ancestor,
and every non-root delta is one revision above its parent. -/
theorem tree_revision_invariant {c : Crypto} {s : State}
    (hs : Reachable c (fun _ op => op.isEditOrCommit) s) :
    (∀ d, d < s.nodes.length →
      ∃ r ρ, OnChain s d r ∧ s.nodes[r]? = some ρ ∧ ρ.parent = none) ∧
      (∀ d x, OnChain s d x → OnChain s x d → x = d) ∧ RevisionsChain s :=
  ⟨exists_root s, fun _ _ h₁ h₂ => le_antisymm h₁.le h₂.le,
    hs.invariant revisionsChain_init fun _ _ _ h ha hs => h.step ha hs⟩

unseal find nodeStack in
/-- The invariant after a chain of two children over a fresh root, the first one committed. -/
theorem tree_revision_invariant_after_commit :
    let c : Crypto := ⟨fun _ => default, fun _ => default⟩
    let b : Backend := { map := OrderedMap.empty.put [1] [7] }
    let s := (replay c (fun _ op => op.isEditOrCommit) (State.init b)
      [.makeChild 0 default default, .makeChild 1 default default, .commit 1 none]).getD
      (State.init b)
    Reachable c (fun _ op => op.isEditOrCommit) s ∧
      (∀ d, d < s.nodes.length →
        ∃ r ρ, OnChain s d r ∧ s.nodes[r]? = some ρ ∧ ρ.parent = none) ∧
      (∀ d x, OnChain s d x → OnChain s x d → x = d) ∧ RevisionsChain s := by
  intro c b s
  have hs : Reachable c (fun _ op => op.isEditOrCommit) s := Reachable.of_replay_getD _ (by decide)
  exact ⟨hs, tree_revision_invariant hs⟩

end StateDb.Laws
