import Mathlib.Data.Nat.Find
import Mathlib.Order.Bounds.Basic
import JoinOrder.Proofs.BreadthFirst
import JoinOrder.Proofs.Connection

/-!
# Layers of a breadth-first walk

Nodes can be asked for one at a time: those of a level are taken from the end, what is met below them
is put aside, and once the level is used up, it becomes the next one (`Node.Cursor`). Asked until there
is none left, this gives the walk by levels (`Node.yields_breadthFirst`).

If different nodes have different ids, level number `k` consists of the nodes at distance `k` from the
root, and all ids within that distance have been met (`Node.Layer`). So the walk gives every node once,
the nearest nodes first (`Numbered.yields_in_order`).
-/

namespace JoinOrder

namespace Node

/-- A walk that is asked for one node after another. -/
structure Cursor where
  met : List Nat
  /-- The rest of the level, the node to take next in front. -/
  level : List Node
  /-- The nodes put aside for the next level, the one put aside last in front. -/
  queued : List Node

namespace Cursor

/-- At the root, of which the id has been met. -/
def start (root : Node) : Cursor := ⟨[root.id], [root], []⟩

/-- The walk on the next level, if this one is used up. -/
def turned (c : Cursor) : Cursor :=
  if c.level.isEmpty then ⟨c.met, c.queued, []⟩ else c

/-- The next node, if there is one, and the walk after it. -/
def next? (c : Cursor) : Option (Node × Cursor) :=
  match c.turned with
  | ⟨_, [], _⟩ => none
  | ⟨met, n :: level, queued⟩ =>
    let f := n.inputs.foldl Frontier.offer ⟨met, queued⟩
    some (n, ⟨f.met, level, f.queued⟩)

/-- Asking for nodes until there is none left gives these. -/
inductive Yields : Cursor → List Node → Prop
  | done {c : Cursor} (h : c.next? = none) : Yields c []
  | step {c c' : Cursor} {n : Node} {ns : List Node} (h : c.next? = some (n, c'))
      (hrest : Yields c' ns) : Yields c (n :: ns)

variable {met : List Nat} {level queued ns : List Node}

theorem Yields.congr {c c' : Cursor} (h : c.next? = c'.next?) (hc : c.Yields ns) : c'.Yields ns := by
  cases hc with
  | done hnone => exact .done (h ▸ hnone)
  | step hsome hrest => exact .step (h ▸ hsome) hrest

/-- There is one way to ask. -/
theorem Yields.unique {c : Cursor} {ms : List Node} (hm : c.Yields ms) (hn : c.Yields ns) :
    ms = ns := by
  induction hm generalizing ns with
  | done hnone =>
    cases hn with
    | done => rfl
    | step hsome => cases hnone.symm.trans hsome
  | step hsome _ ih =>
    cases hn with
    | done hnone => cases hnone.symm.trans hsome
    | step hsome' hrest =>
      obtain ⟨rfl, rfl⟩ := Prod.mk.inj (Option.some.inj (hsome.symm.trans hsome'))
      rw [ih hrest]

/-- Once the level is used up, what was put aside takes its place. -/
theorem next?_turned (met : List Nat) (queued : List Node) :
    next? ⟨met, [], queued⟩ = next? ⟨met, queued, []⟩ := by
  cases queued <;> rfl

/-- A level is taken node by node, and meanwhile the next one is put aside. -/
theorem yields_level
    (h : Yields ⟨(Frontier.next ⟨met, queued⟩ level).met, [],
      (Frontier.next ⟨met, queued⟩ level).queued⟩ ns) :
    Yields ⟨met, level, queued⟩ (level ++ ns) := by
  induction level generalizing met queued with
  | nil => exact h
  | cons n level ih => exact .step rfl (ih h)

theorem yields_levels {depth : Nat} (hd : ∀ n ∈ level, n.height ≤ depth) :
    Yields ⟨met, level, []⟩ (levels depth met level) := by
  induction depth generalizing met level with
  | zero =>
    obtain rfl := eq_nil_of_height hd
    exact .done rfl
  | succ depth ih =>
    refine yields_level ((ih (Walk.height_queued hd)).congr ?_)
    exact (next?_turned ..).symm

end Cursor

/-- However often nodes are shared, asking for them comes to an end. -/
theorem yields_breadthFirst (root : Node) : (Cursor.start root).Yields root.breadthFirst :=
  Cursor.yields_levels (List.forall_mem_singleton.2 le_rfl)

/-- The node is reached from the root by so many steps from a node to one of its inputs. -/
inductive AtDepth (root : Node) : Nat → Node → Prop
  | root : root.AtDepth 0 root
  | input {k : Nat} {m i : Node} (hm : root.AtDepth k m) (hi : i ∈ m.inputs) : root.AtDepth (k + 1) i

/-- The length of a shortest way from the root to the node. -/
def Distance (root n : Node) (d : Nat) : Prop := IsLeast {k | root.AtDepth k n} d

section Distances
variable {root m n : Node} {d e k : Nat}

theorem AtDepth.mem_preorder (h : root.AtDepth k n) : n ∈ root.preorder := by
  induction h with
  | root => exact root.mem_preorder_self
  | input _ hi ih => exact mem_preorder_trans (mem_preorder_of_input hi (mem_preorder_self _)) ih

theorem AtDepth.of_input {i : Node} (hi : i ∈ root.inputs) (h : i.AtDepth k n) :
    root.AtDepth (k + 1) n := by
  induction h with
  | root => exact .input .root hi
  | input _ hj ih => exact .input ih hj

theorem exists_atDepth (hn : n ∈ root.preorder) : ∃ k, root.AtDepth k n := by
  induction root with
  | scan => exact ⟨0, List.mem_singleton.1 hn ▸ .root⟩
  | unary tag op i ih =>
    rcases List.mem_cons.1 hn with rfl | hn
    · exact ⟨0, .root⟩
    · obtain ⟨k, hk⟩ := ih hn
      exact ⟨k + 1, hk.of_input (List.mem_singleton_self i)⟩
  | join tag j l r ihl ihr =>
    rcases List.mem_cons.1 hn with rfl | hn
    · exact ⟨0, .root⟩
    rcases List.mem_append.1 hn with hn | hn
    · obtain ⟨k, hk⟩ := ihl hn
      exact ⟨k + 1, hk.of_input (List.mem_pair.2 (.inl rfl))⟩
    · obtain ⟨k, hk⟩ := ihr hn
      exact ⟨k + 1, hk.of_input (List.mem_pair.2 (.inr rfl))⟩

theorem AtDepth.exists_distance (h : root.AtDepth k n) : ∃ d ≤ k, root.Distance n d := by
  classical
  have hk : ∃ k, root.AtDepth k n := ⟨k, h⟩
  exact ⟨Nat.find hk, Nat.find_min' hk h, Nat.find_spec hk, fun _ => Nat.find_min' hk⟩

theorem Distance.unique (h : root.Distance n d) (h' : root.Distance n e) : d = e :=
  IsLeast.unique h h'

theorem distance_zero : root.Distance n 0 ↔ n = root := by
  constructor
  · rintro ⟨h, -⟩
    cases h
    rfl
  · rintro rfl
    exact ⟨.root, fun _ _ => Nat.zero_le _⟩

/-- The node before the last step of a shortest way is one step nearer. -/
theorem Distance.exists_before (h : root.Distance n (k + 1)) :
    ∃ m, root.Distance m k ∧ n ∈ m.inputs := by
  obtain ⟨hn, hleast⟩ := h
  cases hn with
  | input hm hi =>
    refine ⟨_, ⟨hm, fun j hj => ?_⟩, hi⟩
    exact Nat.le_of_succ_le_succ (hleast (AtDepth.input hj hi))

end Distances

namespace Frontier
variable {f : Frontier} {ns : List Node}

theorem not_met_of_queued {n : Node} (hn : n ∈ (ns.foldl offer f).queued) :
    n ∈ f.queued ∨ n.id ∉ f.met := by
  induction ns generalizing f with
  | nil => exact .inl hn
  | cons m ns ih =>
    rcases ih hn with hq | hmet
    · unfold offer at hq
      split at hq
      · exact .inl hq
      · rename_i hm
        rcases List.mem_cons.1 hq with rfl | hq
        · exact .inr hm
        · exact .inl hq
    · exact .inr fun h => hmet (met_offer.2 (.inr h))

/-- No two nodes with one id are queued. -/
theorem nodup_queued (hf : (f.queued.map Node.id).Nodup) (hmet : ∀ n ∈ f.queued, n.id ∈ f.met) :
    ((ns.foldl offer f).queued.map Node.id).Nodup := by
  induction ns generalizing f with
  | nil => exact hf
  | cons m ns ih =>
    refine ih ?_ ?_
    · unfold offer
      split
      · exact hf
      · rename_i hm
        refine List.nodup_cons.2 ⟨fun h => ?_, hf⟩
        obtain ⟨n, hn, hid⟩ := List.mem_map.1 h
        exact hm (hid ▸ hmet n hn)
    · intro n hn
      rw [met_offer]
      unfold offer at hn
      split at hn
      · exact .inr (hmet n hn)
      · exact (List.mem_cons.1 hn).imp (congrArg Node.id) (hmet n)

end Frontier

/-- The level is made of the nodes at distance `k`, and the ids met are those up to that distance. -/
structure Layer (root : Node) (k : Nat) (met : List Nat) (level : List Node) : Prop where
  mem_level {n : Node} : n ∈ level ↔ root.Distance n k
  mem_met {i : Nat} : i ∈ met ↔ ∃ n d, root.Distance n d ∧ d ≤ k ∧ n.id = i
  nodup : level.Nodup

namespace Layer
variable {root : Node} {k : Nat} {met : List Nat} {level : List Node}

theorem start (root : Node) : Layer root 0 [root.id] [root] where
  mem_level := List.mem_singleton.trans distance_zero.symm
  mem_met {i} := by
    constructor
    · intro hi
      exact ⟨root, 0, distance_zero.2 rfl, le_rfl, (List.mem_singleton.1 hi).symm⟩
    · rintro ⟨n, d, hn, hd, rfl⟩
      obtain rfl := Nat.le_zero.1 hd
      rw [distance_zero.1 hn]
      exact List.mem_singleton_self _
  nodup := List.nodup_singleton root

theorem next (h : Layer root k met level) (hroot : Numbered [root]) :
    Layer root (k + 1) (Frontier.next ⟨met, []⟩ level).met
      (Frontier.next ⟨met, []⟩ level).queued := by
  have heq {m n : Node} {j l : Nat} (hm : root.AtDepth j m) (hn : root.AtDepth l n)
      (hid : m.id = n.id) : m = n :=
    hroot m (by simpa using hm.mem_preorder) n (by simpa using hn.mem_preorder) hid
  have hbelow {n : Node} (hn : n ∈ level.flatMap inputs) : root.AtDepth (k + 1) n := by
    obtain ⟨m, hm, hi⟩ := List.mem_flatMap.1 hn
    exact .input (h.mem_level.1 hm).1 hi
  have hinputs {n : Node} (hn : root.Distance n (k + 1)) : n ∈ level.flatMap inputs := by
    obtain ⟨m, hm, hi⟩ := hn.exists_before
    exact List.mem_flatMap.2 ⟨m, h.mem_level.2 hm, hi⟩
  rw [Frontier.next_eq]
  refine ⟨fun {n} => ⟨fun hn => ?_, fun hn => ?_⟩, fun {i} => ?_, ?_⟩
  · -- a node that was queued had not been met, so it is not nearer
    have hdepth := hbelow ((Frontier.queued_foldl hn).resolve_left List.not_mem_nil)
    have hnew := (Frontier.not_met_of_queued hn).resolve_left List.not_mem_nil
    obtain ⟨d, hd, hdist⟩ := hdepth.exists_distance
    have hlt : k < d := by
      by_contra hle
      exact hnew (h.mem_met.2 ⟨n, d, hdist, not_lt.1 hle, rfl⟩)
    obtain rfl : d = k + 1 := by omega
    exact hdist
  · -- its id is met now and was not before, so a node was queued for it
    have hmet : n.id ∈ ((level.flatMap inputs).foldl Frontier.offer ⟨met, []⟩).met :=
      Frontier.met_foldl.2 (.inr ⟨n, hinputs hn, rfl⟩)
    rcases Frontier.exists_queued_of_met met (fun _ hi => .inl hi) hmet with hold | ⟨m, hm, hid⟩
    · obtain ⟨m, d, hm, hd, hid⟩ := h.mem_met.1 hold
      obtain rfl := heq hm.1 hn.1 hid
      have := hm.unique hn
      omega
    · have hdepth := hbelow ((Frontier.queued_foldl hm).resolve_left List.not_mem_nil)
      exact heq hdepth hn.1 hid ▸ hm
  · rw [Frontier.met_foldl, h.mem_met]
    constructor
    · rintro (⟨n, d, hn, hd, hid⟩ | ⟨n, hn, hid⟩)
      · exact ⟨n, d, hn, hd.trans (Nat.le_succ k), hid⟩
      · obtain ⟨d, hd, hdist⟩ := (hbelow hn).exists_distance
        exact ⟨n, d, hdist, hd, hid⟩
    · rintro ⟨n, d, hn, hd, hid⟩
      rcases Nat.le_succ_iff.1 hd with hd | rfl
      · exact .inl ⟨n, d, hn, hd, hid⟩
      · exact .inr ⟨n, hinputs hn, hid⟩
  · exact (Frontier.nodup_queued (f := ⟨met, []⟩) List.nodup_nil nofun).of_map

theorem forall₂_level (h : Layer root k met level) :
    List.Forall₂ root.Distance level (List.replicate level.length k) := by
  refine List.forall₂_iff_zip.2 ⟨List.length_replicate.symm, fun {n d} hnd => ?_⟩
  obtain ⟨hn, hd⟩ := List.of_mem_zip hnd
  rw [List.eq_of_mem_replicate hd]
  exact h.mem_level.1 hn

/-- From a layer on, the walk gives different nodes, in order of their distances. -/
theorem in_order (h : Layer root k met level) (hroot : Numbered [root]) (depth : Nat) :
    (levels depth met level).Nodup ∧ ∃ ds, List.Forall₂ root.Distance (levels depth met level) ds ∧
      ds.Pairwise (· ≤ ·) ∧ ∀ d ∈ ds, k ≤ d := by
  induction depth generalizing k met level with
  | zero => exact ⟨List.nodup_nil, [], .nil, .nil, nofun⟩
  | succ depth ih =>
    obtain ⟨hnodup, ds, hds, hsorted, hle⟩ := ih (h.next hroot)
    refine ⟨?_, List.replicate level.length k ++ ds, List.rel_append h.forall₂_level hds, ?_, ?_⟩
    · refine List.nodup_append.2 ⟨h.nodup, hnodup, ?_⟩
      rintro n hn m hm rfl
      -- all nodes further on are at a greater distance
      obtain ⟨d, hd, hdist⟩ := exists_of_mem_left hds hm
      have heq := (h.mem_level.1 hn).unique hdist
      have hlt := hle d hd
      omega
    · refine List.pairwise_append.2 ⟨List.pairwise_replicate.2 (.inr le_rfl), hsorted, ?_⟩
      intro i hi d hd
      rw [List.eq_of_mem_replicate hi]
      exact Nat.le_of_succ_le (hle d hd)
    · intro d hd
      rcases List.mem_append.1 hd with hd | hd
      · exact (List.eq_of_mem_replicate hd).ge
      · exact Nat.le_of_succ_le (hle d hd)

end Layer

end Node

namespace Numbered

/-- The walk ends, and gives the root first, every node that is reached from it once, and the nearer
nodes before those farther from the root. -/
theorem yields_in_order {root : Node} (h : Numbered [root]) :
    (∀ ns, (Node.Cursor.start root).Yields ns ↔ ns = root.breadthFirst) ∧
      root.breadthFirst.head? = some root ∧ root.breadthFirst.Nodup ∧
      (∀ n, n ∈ root.breadthFirst ↔ ∃ k, root.AtDepth k n) ∧
      ∃ ds, List.Forall₂ root.Distance root.breadthFirst ds ∧ ds.Pairwise (· ≤ ·) := by
  have hyields := root.yields_breadthFirst
  obtain ⟨hnodup, ds, hds, hsorted, -⟩ := (Node.Layer.start root).in_order h root.height
  refine ⟨fun ns => ⟨fun hns => hns.unique hyields, fun heq => heq ▸ hyields⟩, ?_, hnodup,
    fun n => ⟨fun hn => ?_, fun ⟨k, hk⟩ => h.breadthFirst n hk.mem_preorder⟩, ds, hds, hsorted⟩
  · obtain ⟨ns, hns⟩ := root.breadthFirst_eq_cons
    rw [hns, List.head?_cons]
  · obtain ⟨d, -, hdist⟩ := exists_of_mem_left hds hn
    exact ⟨d, hdist.1⟩

/-- A table that is an input of the root and of a limit below it. -/
def sharing : Node :=
  let table := Node.scan ⟨0, 0⟩ (.ofNames "a" ["x"] none)
  .join ⟨2, 2⟩ .cross (.unary ⟨1, 1⟩ (.limit 5) table) table

theorem yields_in_order_sharing :
    Numbered [sharing] ∧
      (∀ ns, (Node.Cursor.start sharing).Yields ns ↔ ns = sharing.breadthFirst) ∧
      sharing.breadthFirst.head? = some sharing ∧ sharing.breadthFirst.Nodup ∧
      (∀ n, n ∈ sharing.breadthFirst ↔ ∃ k, sharing.AtDepth k n) ∧
      ∃ ds, List.Forall₂ sharing.Distance sharing.breadthFirst ds ∧ ds.Pairwise (· ≤ ·) := by
  have hsharing : Numbered [sharing] := by
    unfold Numbered
    decide
  exact ⟨hsharing, hsharing.yields_in_order⟩

end Numbered

end JoinOrder
