/-
# StateDb.Detail.StateDelta — deltas, the heap that holds them, and `find`.

A `state_delta` (`detail/state_delta.cpp`) holds a shared pointer to its parent, a shared
pointer to its own backend, the tombstone set `_removed_objects`, its id and revision, the
mutable merkle-root cache and the finalized flag. Deltas share parents and `squash` and
`commit` write through those pointers, so the model keeps every delta in one heap, a list
indexed by handle (a `Nat`), and a parent is a handle into it (as a node heap with allocation by
append). Two facts about pointers are kept explicit:

* a backend pointer can be NULL: `commit` resets the old root's `_backend` before it starts
  the write batch. Every read that dereferences it returns `none` in the model, the
  undefined behaviour the C++ code does not guard against;
* a parent is always allocated before its children (`make_child` and `clone` allocate a
  fresh delta whose parent already exists, `commit` only cuts a parent link), so a parent's
  handle is smaller than its child's. `State` CARRIES this as a field, and it is what makes
  `find`'s walk up the parent chain terminate.

`find` is the source's recursion, verbatim; `find_eq` unfolds one layer of it, and
`find_congr` is the frame lemma every later proof uses: `find` reads only the deltas on the
parent chain, so where those agree (or already answer alike) so does `find`.
-/
import StateDb.Backends.Backend

namespace StateDb.Detail

open StateDb.Backends

/-- One `state_delta` object. `backend` is `none` once `commit` has moved the backend out;
`merkleRoot` is the mutable cache of `merkle_root()`. -/
structure StateDelta where
  parent : Option Nat
  backend : Option Backend
  removedObjects : KeySet
  id : Multihash
  revision : UInt64
  merkleRoot : Option Multihash
  finalized : Bool
deriving DecidableEq

namespace StateDelta

/-- `is_root()`: no parent. -/
def isRoot (δ : StateDelta) : Bool := δ.parent.isNone

/-- `is_removed(k)`: `k` is in the tombstone set. -/
def isRemoved (δ : StateDelta) (k : Bytes) : Bool := δ.removedObjects.contains k

/-- `state_delta(path)`: a root over an opened backend, reading its metadata slots. -/
def ofBackend (b : Backend) : StateDelta where
  parent := none
  backend := some b
  removedObjects := .empty
  id := b.id
  revision := b.revision
  merkleRoot := some b.merkleRoot
  finalized := false

/-- One layer of `find`: what `δ` answers for `k`, given how its parent would answer.
The parent is consulted only when `δ` neither holds nor tombstones `k` and is not a root. -/
def findLayer (δ : StateDelta) (k : Bytes) (up : Nat → Option (Option Bytes)) :
    Option (Option Bytes) :=
  match δ.backend with
  | none => none
  | some b =>
    match b.map.get k with
    | some v => some (some v)
    | none =>
      if δ.isRemoved k then some none
      else
        match δ.parent with
        | none => some none
        | some p => up p

/-- The fields of a delta that `find` reads. -/
def findView (δ : StateDelta) : Option Backend × KeySet × Option Nat :=
  (δ.backend, δ.removedObjects, δ.parent)

/-- A layer depends only on the fields `find` reads and on how the parent answers. -/
theorem findLayer_congr {δ₁ δ₂ : StateDelta} {k : Bytes}
    {up₁ up₂ : Nat → Option (Option Bytes)} (hv : δ₁.findView = δ₂.findView)
    (h : ∀ p, δ₁.parent = some p → up₁ p = up₂ p) :
    δ₁.findLayer k up₁ = δ₂.findLayer k up₂ := by
  simp only [findView, Prod.mk.injEq] at hv
  obtain ⟨hb, hr, hp⟩ := hv
  unfold findLayer isRemoved
  rw [← hb, ← hr, ← hp]
  split <;> try rfl
  split <;> try rfl
  split <;> try rfl
  split
  · rfl
  · exact h _ ‹_›

/-- Two layers answer alike when they hold the same value for `k`, agree on its tombstone,
share the parent, and their parents answer alike. -/
theorem findLayer_eq {δ₁ δ₂ : StateDelta} {b₁ b₂ : Backend} {k : Bytes}
    {up₁ up₂ : Nat → Option (Option Bytes)} (hb₁ : δ₁.backend = some b₁)
    (hb₂ : δ₂.backend = some b₂) (hg : b₁.map.get k = b₂.map.get k)
    (hr : δ₁.isRemoved k = δ₂.isRemoved k) (hp : δ₁.parent = δ₂.parent)
    (hup : ∀ q, δ₁.parent = some q → up₁ q = up₂ q) :
    δ₁.findLayer k up₁ = δ₂.findLayer k up₂ := by
  unfold findLayer
  rw [hb₁, hb₂]
  dsimp only
  rw [hg, hr]
  split <;> try rfl
  split <;> try rfl
  rw [← hp]
  split
  · rfl
  · exact hup _ ‹_›

section Layer

variable {δ : StateDelta} {b : Backend} {k : Bytes} {up : Nat → Option (Option Bytes)}

@[simp] theorem findLayer_of_backend_none (hb : δ.backend = none) : δ.findLayer k up = none := by
  simp [findLayer, hb]

theorem findLayer_of_get {v : Bytes} (hb : δ.backend = some b) (hg : b.map.get k = some v) :
    δ.findLayer k up = some (some v) := by
  simp [findLayer, hb, hg]

theorem findLayer_of_removed (hb : δ.backend = some b) (hg : b.map.get k = none)
    (hr : δ.isRemoved k = true) : δ.findLayer k up = some none := by
  simp [findLayer, hb, hg, hr]

theorem findLayer_of_root (hb : δ.backend = some b) (hg : b.map.get k = none)
    (hr : δ.isRemoved k = false) (hp : δ.parent = none) : δ.findLayer k up = some none := by
  simp [findLayer, hb, hg, hr, hp]

theorem findLayer_of_parent {p : Nat} (hb : δ.backend = some b) (hg : b.map.get k = none)
    (hr : δ.isRemoved k = false) (hp : δ.parent = some p) : δ.findLayer k up = up p := by
  simp [findLayer, hb, hg, hr, hp]

end Layer

end StateDelta

/-- The heap of deltas. A parent's handle is below its child's. -/
structure State where
  nodes : List StateDelta
  parent_lt : ∀ (d : Nat) (δ : StateDelta) (p : Nat),
    nodes[d]? = some δ → δ.parent = some p → p < d

namespace State

@[ext] theorem ext {s₁ s₂ : State} (h : s₁.nodes = s₂.nodes) : s₁ = s₂ := by
  cases s₁; cases s₂; cases h; rfl

instance : DecidableEq State := fun s₁ s₂ =>
  decidable_of_iff (s₁.nodes = s₂.nodes) ⟨State.ext, fun h => h ▸ rfl⟩

/-- The database's starting point: one root delta over an opened backend. -/
def init (b : Backend) : State where
  nodes := [StateDelta.ofBackend b]
  parent_lt d δ p hd hp := by
    match d with
    | 0 => simp at hd; subst hd; simp [StateDelta.ofBackend] at hp
    | _ + 1 => simp at hd

/-- Replace delta `d` by `f` of itself, where `f` never gives a delta a new parent. -/
def modify (s : State) (d : Nat) (f : StateDelta → StateDelta)
    (hf : ∀ δ p, (f δ).parent = some p → δ.parent = some p) : State where
  nodes := s.nodes.modify f d
  parent_lt e δ p he hp := by
    rw [List.getElem?_modify] at he
    obtain ⟨δ₀, h₀, rfl⟩ := Option.map_eq_some'.mp he
    split at hp
    · exact s.parent_lt e δ₀ p h₀ (hf δ₀ p hp)
    · exact s.parent_lt e δ₀ p h₀ hp

/-- Allocate `δ` at the next handle, `s.nodes.length`. -/
def alloc (s : State) (δ : StateDelta) (h : ∀ p, δ.parent = some p → p < s.nodes.length) :
    State where
  nodes := s.nodes ++ [δ]
  parent_lt e δ' p he hp := by
    rcases Nat.lt_or_ge e s.nodes.length with hlt | hge
    · rw [List.getElem?_append_left hlt] at he
      exact s.parent_lt e δ' p he hp
    · rw [List.getElem?_append_right hge] at he
      have hlen : e - s.nodes.length < 1 := (List.getElem?_eq_some_iff.mp he).1
      simp only [show e - s.nodes.length = 0 by omega, List.getElem?_cons_zero,
        Option.some.injEq] at he
      subst he
      have := h p hp
      omega

@[simp] theorem modify_nodes (s : State) (d : Nat) (f) (hf) (e : Nat) :
    (s.modify d f hf).nodes[e]? = if d = e then s.nodes[e]?.map f else s.nodes[e]? := by
  simp only [modify, List.getElem?_modify]
  split <;> simp

theorem modify_nodes_self {s : State} {d : Nat} {f} {hf} {δ : StateDelta}
    (hd : s.nodes[d]? = some δ) : (s.modify d f hf).nodes[d]? = some (f δ) := by
  rw [modify_nodes, if_pos rfl, hd, Option.map_some']

/-- A delta after `modify` is the old delta at its handle, changed or not. -/
theorem exists_of_modify {s : State} {d e : Nat} {f} {hf} {δ : StateDelta}
    (h : (s.modify d f hf).nodes[e]? = some δ) :
    ∃ δ₀, s.nodes[e]? = some δ₀ ∧ ((d = e ∧ δ = f δ₀) ∨ δ = δ₀) := by
  rw [modify_nodes] at h
  split at h
  · obtain ⟨δ₀, h₀, rfl⟩ := Option.map_eq_some'.mp h
    exact ⟨δ₀, h₀, .inl ⟨‹_›, rfl⟩⟩
  · exact ⟨δ, h, .inr rfl⟩

@[simp] theorem modify_length (s : State) (d : Nat) (f) (hf) :
    (s.modify d f hf).nodes.length = s.nodes.length := List.length_modify _ _ _

@[simp] theorem alloc_nodes (s : State) (δ : StateDelta) (h) (e : Nat) :
    (s.alloc δ h).nodes[e]? = if e = s.nodes.length then some δ else s.nodes[e]? := by
  simp only [alloc]
  split
  · subst ‹e = _›; exact List.getElem?_concat_length _ _
  · rcases Nat.lt_or_ge e s.nodes.length with hlt | hge
    · exact List.getElem?_append_left hlt
    · rename_i hne
      rw [List.getElem?_append_right hge, List.getElem?_eq_none hge,
        List.getElem?_eq_none (by simp; omega)]

theorem alloc_nodes_self (s : State) (δ : StateDelta) (h) :
    (s.alloc δ h).nodes[s.nodes.length]? = some δ := by
  rw [alloc_nodes, if_pos rfl]

@[simp] theorem alloc_length (s : State) (δ : StateDelta) (h) :
    (s.alloc δ h).nodes.length = s.nodes.length + 1 := by simp [alloc]

theorem lt_length {s : State} {d : Nat} {δ : StateDelta} (hd : s.nodes[d]? = some δ) :
    d < s.nodes.length := (List.getElem?_eq_some_iff.mp hd).1

end State

/-! ## Parent chains -/

/-- `OnChain s e x`: following parent links from `e` reaches `x`, in zero or more steps. -/
inductive OnChain (s : State) : Nat → Nat → Prop
  | refl (e : Nat) : OnChain s e e
  | parent {e p x : Nat} {δ : StateDelta} :
      s.nodes[e]? = some δ → δ.parent = some p → OnChain s p x → OnChain s e x

namespace OnChain

variable {s : State}

theorem le {e x : Nat} (h : OnChain s e x) : x ≤ e := by
  induction h with
  | refl => exact le_rfl
  | parent hd hp _ ih => exact ih.trans (s.parent_lt _ _ _ hd hp).le

theorem trans {e x y : Nat} (h₁ : OnChain s e x) (h₂ : OnChain s x y) : OnChain s e y := by
  induction h₁ with
  | refl => exact h₂
  | parent hd hp _ ih => exact .parent hd hp (ih h₂)

theorem step {e p : Nat} {δ : StateDelta} (hd : s.nodes[e]? = some δ)
    (hp : δ.parent = some p) : OnChain s e p := .parent hd hp (.refl p)

end OnChain

/-- Following parent links from any delta ends at a root, after finitely many steps. -/
theorem exists_root (s : State) (d : Nat) (hd : d < s.nodes.length) :
    ∃ r ρ, OnChain s d r ∧ s.nodes[r]? = some ρ ∧ ρ.parent = none := by
  induction d using Nat.strong_induction_on with
  | _ d ih =>
  obtain ⟨δ, hδ⟩ : ∃ δ, s.nodes[d]? = some δ :=
    ⟨s.nodes[d], List.getElem?_eq_getElem hd⟩
  cases hp : δ.parent with
  | none => exact ⟨d, δ, .refl d, hδ, hp⟩
  | some p =>
    have hlt := s.parent_lt d δ p hδ hp
    obtain ⟨r, ρ, hr, hρ, hroot⟩ := ih p hlt (by omega)
    exact ⟨r, ρ, .parent hδ hp hr, hρ, hroot⟩

/-! ## `find` -/

/-- `find(key)`: the own backend first, then the tombstones, then the parent. -/
def find (s : State) (d : Nat) (k : Bytes) : Option (Option Bytes) :=
  match hd : s.nodes[d]? with
  | none => none
  | some δ =>
    match δ.backend with
    | none => none
    | some b =>
      match b.map.get k with
      | some v => some (some v)
      | none =>
        if δ.isRemoved k then some none
        else
          match hp : δ.parent with
          | none => some none
          | some p =>
            have : p < d := s.parent_lt d δ p hd hp
            find s p k
termination_by d

theorem find_of_none {s : State} {d : Nat} (k : Bytes) (hd : s.nodes[d]? = none) :
    find s d k = none := by
  rw [find]; split <;> simp_all

/-- **One layer of `find`.** -/
theorem find_eq {s : State} {d : Nat} {δ : StateDelta} (k : Bytes)
    (hd : s.nodes[d]? = some δ) : find s d k = δ.findLayer k (fun p => find s p k) := by
  rw [find]
  split
  · simp_all
  · rename_i δ' hd'
    obtain rfl : δ' = δ := Option.some.inj (hd'.symm.trans hd)
    unfold StateDelta.findLayer
    split <;> try rfl
    split <;> try rfl
    split <;> try rfl
    split <;> simp_all

/-- One step of the frame argument: a delta whose `find` fields are unchanged answers alike
as soon as its parent does. -/
theorem find_step_congr {s s' : State} {e : Nat} {δ : StateDelta} (k : Bytes)
    (hn : s.nodes[e]? = some δ)
    (hv : s'.nodes[e]?.map StateDelta.findView = some δ.findView)
    (hup : ∀ p, δ.parent = some p → find s' p k = find s p k) :
    find s' e k = find s e k := by
  obtain ⟨δ', hn', hv'⟩ := Option.map_eq_some'.mp hv
  rw [find_eq k hn, find_eq k hn']
  exact StateDelta.findLayer_congr hv' fun p hp =>
    hup p (by simpa [StateDelta.findView, hp] using (congrArg (·.2.2) hv').symm)

/-- **The frame lemma of `find`.** If every delta on the parent chain of `e` keeps the
fields `find` reads, or already gives the same answer for `k`, `find` from `e` answers alike. -/
theorem find_congr {s s' : State} {e : Nat} (k : Bytes)
    (h : ∀ y, OnChain s e y → s'.nodes[y]?.map StateDelta.findView =
      s.nodes[y]?.map StateDelta.findView ∨ find s' y k = find s y k) :
    find s' e k = find s e k := by
  induction e using Nat.strong_induction_on with
  | _ e ih =>
  rcases h e (.refl e) with heq | hfind
  · cases hn : s.nodes[e]? with
    | none =>
      rw [find_of_none k hn, find_of_none k (by simpa [hn] using heq)]
    | some δ =>
      refine find_step_congr k hn (by simpa [hn] using heq) fun p hp => ?_
      exact ih p (s.parent_lt e δ p hn hp) fun y hy => h y (.parent hn hp hy)
  · exact hfind

/-- **The frame lemma up to a delta.** If `x` is on the parent chain of `e` and answers `k`
alike, and every delta strictly between keeps its `find` fields, `find` from `e` answers
alike: the walk never gets past `x` differently. -/
theorem find_congr_upto {s s' : State} {e x : Nat} (k : Bytes) (hx : OnChain s e x)
    (hfx : find s' x k = find s x k)
    (h : ∀ y, OnChain s e y → ¬ OnChain s x y →
      s'.nodes[y]?.map StateDelta.findView = s.nodes[y]?.map StateDelta.findView) :
    find s' e k = find s e k := by
  induction hx with
  | refl => exact hfx
  | @parent e p x δ hn hp hpx ih =>
    have hnot : ¬ OnChain s x e := fun hxe => by
      have := hxe.le; have := hpx.le; have := s.parent_lt e δ p hn hp; omega
    refine find_step_congr k hn (by simpa [hn] using h e (.refl e) hnot) fun q hq => ?_
    obtain rfl : q = p := Option.some.inj (hq.symm.trans hp)
    exact ih hfx fun y hy hxy => h y (.parent hn hp hy) hxy

/-- `find` below a handle never reads the delta at that handle. -/
theorem find_modify_of_lt {s : State} {p q : Nat} (f) (hf) (hq : q < p) (k : Bytes) :
    find (s.modify p f hf) q k = find s q k :=
  find_congr k fun y hy => .inl (by simp [show p ≠ y by have := hy.le; omega])

/-- Changing a delta off the parent chain of `e` changes no answer of `find` from `e`. -/
theorem find_modify_of_not_onChain {s : State} {d e : Nat} (f) (hf) (h : ¬ OnChain s e d)
    (k : Bytes) : find (s.modify d f hf) e k = find s e k :=
  find_congr k fun y hy => .inl (by simp [show d ≠ y from fun hdy => h (hdy ▸ hy)])

/-- Allocating a delta changes no answer of `find` from the deltas already there. -/
theorem find_alloc_of_lt {s : State} {δ : StateDelta} {hδ} {e : Nat} (he : e < s.nodes.length)
    (k : Bytes) : find (s.alloc δ hδ) e k = find s e k :=
  find_congr k fun y hy => .inl (by simp [show y ≠ s.nodes.length by have := hy.le; omega])

/-- A newly allocated delta answers through its own layer over the old state. -/
theorem find_alloc_new {s : State} {δ : StateDelta} {hδ} (k : Bytes) :
    find (s.alloc δ hδ) s.nodes.length k = δ.findLayer k (fun p => find s p k) := by
  rw [find_eq k (by rw [State.alloc_nodes, if_pos rfl])]
  exact StateDelta.findLayer_congr rfl fun p hp => find_alloc_of_lt (hδ p hp) k

/-- A change of one delta never adds a parent link, so a chain after it is a chain before
it. -/
theorem State.parent_of_modify {s : State} {d e p : Nat} {f : StateDelta → StateDelta} {hf}
    {ν : StateDelta} (he : (s.modify d f hf).nodes[e]? = some ν) (hp : ν.parent = some p) :
    ∃ δ, s.nodes[e]? = some δ ∧ δ.parent = some p := by
  obtain ⟨δ₀, he₀, ⟨-, rfl⟩ | rfl⟩ := State.exists_of_modify he
  exacts [⟨δ₀, he₀, hf δ₀ p hp⟩, ⟨_, he₀, hp⟩]

theorem OnChain.of_modify {s : State} {d e x : Nat} {f : StateDelta → StateDelta} {hf}
    (h : OnChain (s.modify d f hf) e x) : OnChain s e x := by
  induction h with
  | refl => exact .refl _
  | parent he hp _ ih =>
    obtain ⟨δ₀, he₀, hp₀⟩ := State.parent_of_modify he hp
    exact .parent he₀ hp₀ ih

/-- A change of a delta below `e` keeps every chain that ends at `e`: the chain only passes
deltas at or above `e`. -/
theorem OnChain.modify_of_lt {s : State} {j x e : Nat} {f : StateDelta → StateDelta} {hf}
    (h : OnChain s x e) (hj : j < e) : OnChain (s.modify j f hf) x e := by
  induction h with
  | refl => exact .refl _
  | @parent x p e δ hx hp hpe ih =>
    have hjx : j ≠ x := by have := hpe.le; have := s.parent_lt x δ p hx hp; omega
    exact .parent (by rw [State.modify_nodes, if_neg hjx, hx]) hp (ih hj)

/-- Changing fields of a delta that `find` does not read changes no answer of `find`. -/
theorem find_modify_of_view {s : State} {d : Nat} (f) (hf)
    (hv : ∀ δ, (f δ).findView = δ.findView) (e : Nat) (k : Bytes) :
    find (s.modify d f hf) e k = find s e k :=
  find_congr k fun y _ => .inl (by by_cases h : d = y <;> simp [h, Function.comp_def, hv])

end StateDb.Detail
