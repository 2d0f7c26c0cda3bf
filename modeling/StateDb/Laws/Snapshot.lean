/-
# StateDb.Laws.Snapshot — the delta tree refines one full snapshot per delta.

The naive model of the tree keeps one full map per delta: a fresh root starts with the map
of its backend, `make_child(P)` and `clone(X)` start a new delta with a copy of the map of
`P` or `X`, and `put` and `erase` write into the map of their own delta only. The code
stores each delta's writes and tombstones alone and answers a read by walking up the
parent chain.

`snapshot_simulation`: in every run of `make_child`, `clone`, `put` and `erase` in which the
writes only reach deltas without children (the database's discipline), `find` on every
delta reads that delta's naive map. The proof is a forward simulation: `Simulates` holds
at a fresh root and every allowed call keeps it (`Simulates.step`), one case per call.
A write never reaches another delta because a childless delta is on no other delta's
parent chain (`not_onChain_of_childless`).
-/

import StateDb.Detail.Run

namespace StateDb.Laws

open StateDb.Backends StateDb.Detail

/-! ## §1 — the naive model -/

namespace Snapshots

/-- One call on the naive model: a write changes the map of its own delta, a fork appends a
copy of its source's map. -/
def step (S : List (OrderedMap Bytes)) : Op → List (OrderedMap Bytes)
  | .put d k v => S.modify (·.put k v) d
  | .erase d k => S.modify (·.erase k) d
  | .makeChild d .. | .clone d .. => S ++ [S.getD d .empty]
  | _ => S

/-- The naive model after the calls `ops`. -/
def run (S : List (OrderedMap Bytes)) (ops : List Op) : List (OrderedMap Bytes) :=
  ops.foldl step S

end Snapshots

/-- `s` refines the naive model `S`: one map per delta, and `find` on each delta reads its
map. -/
structure Simulates (s : State) (S : List (OrderedMap Bytes)) : Prop where
  length_eq : S.length = s.nodes.length
  find_spec : ∀ d k, find s d k = S[d]?.map (·.get k)

/-! ## §2 — what one write does to `find` -/

section Writes

variable {s : State} {d : Nat} {δ : StateDelta} {b : Backend}

/-- A rewritten delta answers through its new layer over the old state. -/
theorem find_modify_eq {f : StateDelta → StateDelta} {hf} (hd : s.nodes[d]? = some δ)
    (k : Bytes) : find (s.modify d f hf) d k = (f δ).findLayer k (fun p => find s p k) := by
  rw [find_eq k (by simp [hd] : (s.modify d f hf).nodes[d]? = some (f δ))]
  exact StateDelta.findLayer_congr rfl fun p hp =>
    find_modify_of_lt f hf (s.parent_lt d δ p hd (hf δ p hp)) k

theorem find_put_self {k v : Bytes} (hd : s.nodes[d]? = some δ) (hb : δ.backend = some b)
    (k' : Bytes) :
    find (s.modify d (fun δ => { δ with backend := some (b.put k v) }) fun _ _ h => h) d k' =
      if k = k' then some (some v) else find s d k' := by
  rw [find_modify_eq hd]
  split
  · exact StateDelta.findLayer_of_get rfl (by simp [Backend.put, *])
  · rw [find_eq k' hd]
    exact StateDelta.findLayer_eq rfl hb (by simp [Backend.put, *]) rfl rfl fun _ _ => rfl

theorem find_erase_self {k : Bytes} (hd : s.nodes[d]? = some δ) (hb : δ.backend = some b)
    (k' : Bytes) :
    find (s.modify d (fun δ => { δ with
        backend := some (b.erase k), removedObjects := δ.removedObjects.insert k })
      fun _ _ h => h) d k' = if k = k' then some none else find s d k' := by
  rw [find_modify_eq hd]
  split
  · exact StateDelta.findLayer_of_removed rfl (by simp [Backend.erase, *])
      (by simp [StateDelta.isRemoved, *])
  · rw [find_eq k' hd]
    exact StateDelta.findLayer_eq rfl hb (by simp [Backend.erase, *])
      (by simp [StateDelta.isRemoved, *]) rfl fun _ _ => rfl

end Writes

/-! ## §3 — the simulation -/

/-- The calls of a snapshot run: forks anywhere, writes only to a delta with no children. -/
def snapshotCall (s : State) (op : Op) : Bool := op.isForkOrWrite && disciplined s op

theorem Simulates.init (b : Backend) : Simulates (State.init b) [b.map] where
  length_eq := rfl
  find_spec d k := by
    match d with
    | 0 => exact find_of_root rfl rfl rfl k
    | _ + 1 => exact find_of_none k rfl

/-- A write on delta `d` keeps the simulation when it leaves every other delta's answers, and
`d` answers from the naive write `g` of its map. -/
theorem Simulates.write {s s' : State} {S : List (OrderedMap Bytes)} {d : Nat}
    {g : OrderedMap Bytes → OrderedMap Bytes} (hS : Simulates s S) (hd : d < S.length)
    (hlen : s'.nodes.length = s.nodes.length)
    (hother : ∀ e k, e ≠ d → find s' e k = find s e k)
    (hself : ∀ m k, S[d]? = some m → find s' d k = some ((g m).get k)) :
    Simulates s' (S.modify g d) where
  length_eq := by simp [hlen, hS.length_eq]
  find_spec e k := by
    by_cases hed : e = d
    · subst hed
      simp [hself _ k (List.getElem?_eq_getElem hd), List.getElem?_modify,
        List.getElem?_eq_getElem hd]
    · rw [hother e k hed, hS.find_spec]
      simp [List.getElem?_modify, Ne.symm hed]

/-- A fork appends the source's map for a delta that answers as the source does. -/
theorem Simulates.fork {s : State} {S : List (OrderedMap Bytes)} {d : Nat} {δ ν : StateDelta}
    {hν} (hS : Simulates s S) (hd : s.nodes[d]? = some δ)
    (hlayer : ∀ k, ν.findLayer k (fun p => find s p k) = find s d k) :
    Simulates (s.alloc ν hν) (S ++ [S.getD d .empty]) where
  length_eq := by simp [hS.length_eq]
  find_spec e k := by
    have hdS : d < S.length := hS.length_eq ▸ State.lt_length hd
    rcases Nat.lt_trichotomy e s.nodes.length with he | rfl | he
    · rw [find_alloc_of_lt he, hS.find_spec,
        List.getElem?_append_left (by rw [hS.length_eq]; exact he)]
    · rw [find_alloc_new, hlayer, hS.find_spec, List.getD_eq_getElem?_getD,
        List.getElem?_append_right (by rw [hS.length_eq])]
      simp [List.getElem?_eq_getElem hdS, hS.length_eq]
    · rw [find_of_none k
        (by simp [he.ne', List.getElem?_eq_none (by omega : s.nodes.length ≤ e)])]
      rw [List.getElem?_eq_none (by simp [hS.length_eq]; omega)]
      rfl

theorem cloneBackend_map (δ : StateDelta) (b : Backend) (id : Multihash) (header : BlockHeader) :
    (cloneBackend δ b id header).map = b.map := by
  unfold cloneBackend; split <;> rfl

/-- **One allowed call keeps the simulation**, one case per call. -/
theorem Simulates.step {c : Crypto} {s s' : State} {S : List (OrderedMap Bytes)} {op : Op}
    (hS : Simulates s S) (ha : snapshotCall s op = true) (h : step c s op = some s') :
    Simulates s' (Snapshots.step S op) := by
  cases op with
  | put d k v =>
    have hc : childless s d = true := by
      simpa [snapshotCall, disciplined, Op.isForkOrWrite] using ha
    obtain ⟨δ, b, hd, hb, rfl⟩ := put_eq_some h
    refine hS.write (hS.length_eq ▸ State.lt_length hd) (State.modify_length ..)
      (fun e k' hed => find_modify_of_not_onChain _ _ (not_onChain_of_childless hc hed) k')
      fun m k' hm => ?_
    rw [find_put_self hd hb, hS.find_spec, hm]
    split <;> simp [*]
  | erase d k =>
    have hc : childless s d = true := by
      simpa [snapshotCall, disciplined, Op.isForkOrWrite] using ha
    rcases erase_eq_some h with ⟨δ, b, hd, hb, -, rfl⟩ | ⟨hnone, rfl⟩
    · refine hS.write (hS.length_eq ▸ State.lt_length hd) (State.modify_length ..)
        (fun e k' hed => find_modify_of_not_onChain _ _ (not_onChain_of_childless hc hed) k')
        fun m k' hm => ?_
      rw [find_erase_self hd hb, hS.find_spec, hm]
      split <;> simp [*]
    · -- nothing was visible: the naive erase removes an absent key
      rw [hS.find_spec] at hnone
      obtain ⟨m, hm, hmk⟩ := Option.map_eq_some'.mp hnone
      refine hS.write (List.getElem?_eq_some_iff.mp hm).1 rfl (fun _ _ _ => rfl)
        fun m' k' hm' => ?_
      obtain rfl : m' = m := Option.some.inj (hm'.symm.trans hm)
      rw [hS.find_spec, hm]
      by_cases hk : k = k'
      · subst hk; simp [hmk]
      · simp [hk]
  | makeChild d id header =>
    obtain ⟨r, hr, rfl⟩ := Option.map_eq_some'.mp h
    obtain ⟨δ, hd, hc, rfl⟩ := makeChild_eq_some hr
    dsimp only
    exact hS.fork hd fun k => rfl
  | clone d id header =>
    obtain ⟨r, hr, rfl⟩ := Option.map_eq_some'.mp h
    obtain ⟨δ, b, hd, hb, hc, rfl⟩ := clone_eq_some hr
    dsimp only
    exact hS.fork hd fun k => by
      rw [find_eq k hd]
      exact StateDelta.findLayer_eq rfl hb (by rw [cloneBackend_map]) rfl rfl fun _ _ => rfl
  | _ => simp [snapshotCall, Op.isForkOrWrite] at ha

/-- The run induction of the simulation. -/
theorem Simulates.run {c : Crypto} {s₀ s : State} {ops : List Op} {S : List (OrderedMap Bytes)}
    (h : Run c snapshotCall s₀ ops s) (hS : Simulates s₀ S) :
    Simulates s (Snapshots.run S ops) := by
  induction h generalizing S with
  | nil => exact hS
  | cons ha hs _ ih => exact ih (hS.step ha hs)

/-- **Snapshot semantics and fork isolation.** At the end of every snapshot run from a
fresh root over `b`, `find` on every delta reads its map in the naive model; and from
there a `put` or `erase` on a childless delta changes no answer of any other delta. -/
theorem snapshot_simulation {c : Crypto} {b : Backend} {ops : List Op} {s : State}
    (h : Run c snapshotCall (State.init b) ops s) :
    Simulates s (Snapshots.run [b.map] ops) ∧
      (∀ d k v s', childless s d = true → put s d k v = some s' →
        ∀ e k', e ≠ d → find s' e k' = find s e k') ∧
      (∀ d k s', childless s d = true → erase s d k = some s' →
        ∀ e k', e ≠ d → find s' e k' = find s e k') := by
  refine ⟨Simulates.run h (Simulates.init b), fun d k v s' hc hs e k' hed => ?_,
    fun d k s' hc hs e k' hed => ?_⟩
  · obtain ⟨-, -, -, -, rfl⟩ := put_eq_some hs
    exact find_modify_of_not_onChain _ _ (not_onChain_of_childless hc hed) k'
  · rcases erase_eq_some hs with ⟨-, -, -, -, -, rfl⟩ | ⟨-, rfl⟩
    · exact find_modify_of_not_onChain _ _ (not_onChain_of_childless hc hed) k'
    · rfl

unseal find in
/-- The simulation for a fork of a root holding `[1] ↦ [7]`: a child, its clone, a write on
the child and an erase on the clone. -/
theorem snapshot_simulation_fork_and_write :
    let c : Crypto := ⟨fun _ => default, fun _ => default⟩
    let b : Backend := { map := OrderedMap.empty.put [1] [7] }
    let ops : List Op := [.makeChild 0 default default, .clone 1 default default,
      .put 1 [2] [9], .erase 2 [1]]
    let s := (replay c snapshotCall (State.init b) ops).getD (State.init b)
    Run c snapshotCall (State.init b) ops s ∧ Simulates s (Snapshots.run [b.map] ops) ∧
      (∀ d k v s', childless s d = true → put s d k v = some s' →
        ∀ e k', e ≠ d → find s' e k' = find s e k') ∧
      (∀ d k s', childless s d = true → erase s d k = some s' →
        ∀ e k', e ≠ d → find s' e k' = find s e k') := by
  intro c b ops s
  have h : Run c snapshotCall (State.init b) ops s := Run.of_replay (by decide)
  exact ⟨h, snapshot_simulation h⟩

end StateDb.Laws
