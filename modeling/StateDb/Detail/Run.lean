/-
# StateDb.Detail.Run — runs of delta operations, and the invariants every run keeps.

`Op` is one call the database layer makes on a delta of the tree, and `step` runs it. A `Run`
is a sequence of steps each of which an `allowed` predicate admits where it is taken. The
laws of this layer each quantify over the runs of some set of calls (the edits only, the
edits and commits, the edits under the childless discipline of the database, every call but
`commit`, every call but `merkle_root()` and a throwing `commit`, or every call), so the set
is a parameter. `Reachable` is what some run reaches from a fresh root.

`edit_cases` says once what an edit can do to the tree, and `Run.invariant` is the one
induction: every invariant is an initial case and a step case that starts from `edit_cases`.
The first is `AllLive`: without a commit no backend is ever moved out of a delta,
so every lookup, merge and merkle root of an edit run dereferences a live backend.
-/
import StateDb.Detail.Commit

namespace StateDb.Detail

open StateDb.Backends

/-- One call on a delta of the tree. `commit` carries the index of the backend call that
throws, if one does. -/
inductive Op
  | put (d : Nat) (k v : Bytes)
  | erase (d : Nat) (k : Bytes)
  | squash (d : Nat)
  | makeChild (d : Nat) (id : Multihash) (header : BlockHeader)
  | clone (d : Nat) (id : Multihash) (header : BlockHeader)
  | commit (d : Nat) (failAt : Option Nat)
  | merkleRoot (d : Nat)
  | finalize (d : Nat)
  | clear (d : Nat)
  | setRevision (d : Nat) (r : UInt64)
deriving DecidableEq, Repr

/-- The state after one call, `none` at a NULL dereference. An exception out of `commit`
leaves the state `commit` leaves. -/
def step (c : Crypto) (s : State) : Op → Option State
  | .put d k v => put s d k v
  | .erase d k => erase s d k
  | .squash d => squash s d
  | .makeChild d id header => (makeChild s d id header).map Prod.fst
  | .clone d id header => (clone s d id header).map Prod.fst
  | .commit d failAt => (commit c s d failAt).map Prod.fst
  | .merkleRoot d => cacheMerkleRoot c s d
  | .finalize d => finalize s d
  | .clear d => clear s d
  | .setRevision d r => setRevision s d r

namespace Op

/-- The edits: `put`, `erase`, `squash`, `make_child` and `clone`. -/
def isEdit : Op → Bool
  | .put .. | .erase .. | .squash _ | .makeChild .. | .clone .. => true
  | _ => false

/-- `commit`, whatever call of it fails. -/
def isCommit : Op → Bool
  | .commit .. => true
  | _ => false

/-- The delta the call is made on. -/
def target : Op → Nat
  | .put d .. | .erase d .. | .squash d | .makeChild d .. | .clone d .. | .commit d ..
  | .merkleRoot d | .finalize d | .clear d | .setRevision d .. => d

/-- The edits and `commit`, whatever call of it fails. -/
def isEditOrCommit (op : Op) : Bool := op.isEdit || op matches .commit ..

/-- The calls that fork and write: `make_child`, `clone`, `put` and `erase`. -/
def isForkOrWrite : Op → Bool
  | .put .. | .erase .. | .makeChild .. | .clone .. => true
  | _ => false

end Op

/-- No delta of `s` has `d` as its parent. -/
def childless (s : State) (d : Nat) : Bool := s.nodes.all fun δ => δ.parent != some d

/-- `d` is a root or the only child of its parent. -/
def soleChild (s : State) (d : Nat) : Bool :=
  match s.nodes[d]?.bind (·.parent) with
  | none => true
  | some p => s.nodes.countP (·.parent == some p) == 1

/-- The database's discipline: a block delta is finalized before it gets children, so
`put` and `erase` only reach a delta with no children; `squash` only runs from the
anonymous delta of a transaction, the sole child of its block delta. -/
def disciplined (s : State) : Op → Bool
  | .put d .. | .erase d .. => childless s d
  | .squash d => soleChild s d
  | _ => true

theorem parent_ne_of_childless {s : State} {d e : Nat} {δ : StateDelta}
    (h : childless s d = true) (he : s.nodes[e]? = some δ) : δ.parent ≠ some d := by
  have := List.all_eq_true.mp h δ (List.getElem?_mem he)
  simpa using this

/-- Nothing but `d` itself has a childless `d` on its parent chain. -/
theorem not_onChain_of_childless {s : State} {d e : Nat} (h : childless s d = true)
    (hed : e ≠ d) : ¬ OnChain s e d := by
  intro hc
  induction hc with
  | refl => exact hed rfl
  | @parent e p x δ he hp _ ih =>
    by_cases hpx : p = x
    · subst hpx; exact parent_ne_of_childless h he hp
    · exact ih h hpx

/-! ## What one edit can do -/

/-- `f` rewrites only a delta's contents: its parent, revision and cached merkle root stay,
and its backend is live. -/
structure ContentsOnly (f : StateDelta → StateDelta) : Prop where
  parent : ∀ δ, (f δ).parent = δ.parent
  revision : ∀ δ, (f δ).revision = δ.revision
  merkleRoot : ∀ δ, (f δ).merkleRoot = δ.merkleRoot
  live : ∀ δ, (f δ).backend.isSome

/-- **What one edit can do.** Leave the state; rewrite the contents of one delta (`put`,
`erase`, `squash`); or append a delta `ν` with a live backend, next to an existing delta `δ`
at `d`: its child one revision up with no cached root (`make_child`), or its sibling with
its revision and cached root (`clone`). -/
theorem edit_cases {c : Crypto} {s s' : State} {op : Op} (he : op.isEdit = true)
    (h : step c s op = some s') :
    s' = s ∨ (∃ d f hf, ContentsOnly f ∧ s' = s.modify d f hf) ∨
      ∃ d δ ν hν, s.nodes[d]? = some δ ∧ s' = s.alloc ν hν ∧ ν.backend.isSome ∧
        ((ν.parent = some d ∧ ν.revision = δ.revision + 1 ∧ ν.merkleRoot = none) ∨
          (ν.parent = δ.parent ∧ ν.revision = δ.revision ∧
            ν.merkleRoot = δ.merkleRoot)) := by
  cases op with
  | put d k v =>
    obtain ⟨δ, b, -, -, rfl⟩ := put_eq_some h
    refine .inr (.inl ⟨d, _, _, ⟨?_, ?_, ?_, ?_⟩, rfl⟩) <;> exact fun _ => rfl
  | erase d k =>
    rcases erase_eq_some h with ⟨δ, b, -, -, -, rfl⟩ | ⟨-, rfl⟩
    · refine .inr (.inl ⟨d, _, _, ⟨?_, ?_, ?_, ?_⟩, rfl⟩) <;> exact fun _ => rfl
    · exact .inl rfl
  | squash d =>
    rcases squash_cases h with rfl | ⟨p, pb, δ, b, rfl⟩
    · exact .inl rfl
    · refine .inr (.inl ⟨p, _, _, ⟨?_, ?_, ?_, ?_⟩, rfl⟩) <;> exact fun _ => rfl
  | makeChild d id header =>
    obtain ⟨r, hr, rfl⟩ := Option.map_eq_some'.mp h
    obtain ⟨δ, hd, hν, rfl⟩ := makeChild_eq_some hr
    exact .inr (.inr ⟨d, δ, _, hν, hd, rfl, rfl, .inl ⟨rfl, rfl, rfl⟩⟩)
  | clone d id header =>
    obtain ⟨r, hr, rfl⟩ := Option.map_eq_some'.mp h
    obtain ⟨δ, b, hd, -, hν, rfl⟩ := clone_eq_some hr
    exact .inr (.inr ⟨d, δ, _, hν, hd, rfl, rfl, .inr ⟨rfl, rfl, rfl⟩⟩)
  | _ => cases he

/-- A run from `s₀` to `s` of the calls `ops`, each allowed in the state it is taken in. -/
inductive Run (c : Crypto) (allowed : State → Op → Bool) : State → List Op → State → Prop
  | nil (s : State) : Run c allowed s [] s
  | cons {s₀ s₁ s : State} {op : Op} {ops : List Op} :
      allowed s₀ op = true → step c s₀ op = some s₁ → Run c allowed s₁ ops s →
      Run c allowed s₀ (op :: ops) s

/-- A state some allowed run reaches from a fresh root. -/
def Reachable (c : Crypto) (allowed : State → Op → Bool) (s : State) : Prop :=
  ∃ b ops, Run c allowed (State.init b) ops s

section Runs

variable {c : Crypto} {allowed : State → Op → Bool}

/-- **The run induction.** What holds at the start and is kept by every allowed step holds
at the end of every run. -/
theorem Run.invariant {P : State → Prop}
    (hstep : ∀ s op s', P s → allowed s op = true → step c s op = some s' → P s')
    {s₀ s : State} {ops : List Op} (h : Run c allowed s₀ ops s) (h₀ : P s₀) : P s := by
  induction h with
  | nil => exact h₀
  | cons ha hs _ ih => exact ih (hstep _ _ _ h₀ ha hs)

theorem Reachable.invariant {P : State → Prop} (hinit : ∀ b, P (State.init b))
    (hstep : ∀ s op s', P s → allowed s op = true → step c s op = some s' → P s')
    {s : State} (h : Reachable c allowed s) : P s := by
  obtain ⟨b, ops, h⟩ := h
  exact h.invariant hstep (hinit b)

/-- Replay `ops` from `s`, checking each call is allowed where it is taken. -/
def replay (c : Crypto) (allowed : State → Op → Bool) (s : State) : List Op → Option State
  | [] => some s
  | op :: ops => if allowed s op then (step c s op).bind fun s' => replay c allowed s' ops else none

theorem Run.of_replay : ∀ {s₀ s : State} {ops : List Op},
    replay c allowed s₀ ops = some s → Run c allowed s₀ ops s
  | _, _, [], h => by cases h; exact .nil _
  | s₀, _, op :: ops, h => by
    simp only [replay] at h
    split at h
    · obtain ⟨s₁, hs, h⟩ := Option.bind_eq_some.mp h
      exact .cons ‹_› hs (Run.of_replay h)
    · cases h

/-- The state a replay from a fresh root ends in, read with any default, is reachable. -/
theorem Reachable.of_replay_getD {b : Backend} {ops : List Op} (s₀ : State)
    (h : (replay c allowed (State.init b) ops).isSome = true) :
    Reachable c allowed ((replay c allowed (State.init b) ops).getD s₀) := by
  obtain ⟨s, hs⟩ := Option.isSome_iff_exists.mp h
  rw [hs]
  exact ⟨b, ops, Run.of_replay hs⟩

end Runs

/-! ## Every backend is live in an edit run -/

/-- No delta has lost its backend. -/
def AllLive (s : State) : Prop :=
  ∀ (d : Nat) (δ : StateDelta), s.nodes[d]? = some δ → δ.backend.isSome

section Live

variable {s s' : State}

theorem allLive_init (b : Backend) : AllLive (State.init b) := by
  intro d δ hd
  match d with
  | 0 => cases hd; rfl
  | _ + 1 => cases hd

/-- Changing one delta keeps every backend live when the change keeps that one live. -/
theorem AllLive.modify {d : Nat} {f : StateDelta → StateDelta} {hf} (hl : AllLive s)
    (hfl : ∀ δ, (f δ).backend.isSome) : AllLive (s.modify d f hf) := by
  intro e δ he
  obtain ⟨δ₀, h₀, ⟨-, rfl⟩ | rfl⟩ := State.exists_of_modify he
  · exact hfl δ₀
  · exact hl e _ h₀

theorem AllLive.alloc {δ : StateDelta} {h} (hl : AllLive s) (hδ : δ.backend.isSome) :
    AllLive (s.alloc δ h) := by
  intro e δ' he
  simp only [State.alloc_nodes] at he
  split at he
  · cases he; exact hδ
  · exact hl e δ' he

/-- **One edit keeps every backend live.** -/
theorem AllLive.step {c : Crypto} {op : Op} (hl : AllLive s) (he : op.isEdit = true)
    (h : step c s op = some s') : AllLive s' := by
  rcases edit_cases he h with rfl | ⟨d, f, hf, hk, rfl⟩ | ⟨d, δ, ν, hν, -, rfl, hν', -⟩
  · exact hl
  · exact hl.modify hk.live
  · exact hl.alloc hν'

theorem AllLive.chainLive (hl : AllLive s) (d : Nat) (hd : d < s.nodes.length) :
    ChainLive s d := by
  intro x hx
  have hx' : x < s.nodes.length := by have := hx.le; omega
  obtain ⟨ν, hν⟩ : ∃ ν, s.nodes[x]? = some ν :=
    ⟨s.nodes[x], List.getElem?_eq_getElem hx'⟩
  obtain ⟨b, hb⟩ := Option.isSome_iff_exists.mp (hl x ν hν)
  exact ⟨ν, b, hν, hb⟩

/-- In a state an edit run reaches, every backend is live. -/
theorem allLive_of_reachable {c : Crypto} (h : Reachable c (fun _ op => op.isEdit) s) :
    AllLive s :=
  h.invariant allLive_init fun _ _ _ hl he hs => hl.step he hs

end Live

end StateDb.Detail
