import Mathlib.Combinatorics.SimpleGraph.Connectivity.Connected
import Mathlib.Data.List.NodupEquivFin
import Mathlib.SetTheory.Cardinal.Finite
import JoinOrder.Proofs.ExactCosts
import JoinOrder.Proofs.Forest

/-!
# The connected parts of a group

The members of a group are the vertices of its join graph; two of them are adjacent if an edge lies
between them (`joinGraph`). A tree that has grown leaf by leaf stays within a connected part
(`JoinTree.Grown.reachable`), and if no two trees are connected, each has all of its part. So the
pieces of what a search finds are the connected parts, one tree each (`Search.components_of_solve`),
unless joins cost too much.
-/

namespace JoinOrder

section Lists
variable {α β γ : Type} {P : α → β → Prop} {as : List α} {bs : List β}

theorem exists_forall₂ (h : ∀ a ∈ as, ∃ b, P a b) : ∃ bs, List.Forall₂ P as bs := by
  induction as with
  | nil => exact ⟨[], .nil⟩
  | cons a as ih =>
    rw [List.forall_mem_cons] at h
    obtain ⟨b, hb⟩ := h.1
    obtain ⟨bs, hbs⟩ := ih h.2
    exact ⟨b :: bs, .cons hb hbs⟩

theorem forall₂_comp {Q : β → γ → Prop} {T : α → γ → Prop} {cs : List γ}
    (h : List.Forall₂ P as bs) (h' : List.Forall₂ Q bs cs)
    (hi : ∀ a c, ∀ b ∈ bs, P a b → Q b c → T a c) : List.Forall₂ T as cs := by
  induction h generalizing cs with
  | nil =>
    cases h'
    exact .nil
  | cons hab _ ih =>
    cases h' with
    | cons hbc hrest =>
      exact .cons (hi _ _ _ (List.mem_cons_self ..) hab hbc)
        (ih hrest fun a c b hb => hi a c b (List.mem_cons_of_mem _ hb))

theorem exists_flatten_of_flatMap_eq_map {f : α → β} {g : γ → List β} {cs : List γ}
    (h : cs.flatMap g = as.map f) :
    ∃ blocks : List (List α), blocks.flatten = as ∧
      List.Forall₂ (fun c b => g c = b.map f) cs blocks := by
  induction cs generalizing as with
  | nil =>
    obtain rfl := List.map_eq_nil_iff.1 h.symm
    exact ⟨[], rfl, .nil⟩
  | cons c cs ih =>
    obtain ⟨b, bs, rfl, hb, hbs⟩ := List.map_eq_append_iff.1 h.symm
    obtain ⟨blocks, rfl, hblocks⟩ := ih hbs.symm
    exact ⟨b :: blocks, rfl, .cons hb.symm hblocks⟩

end Lists

/-- The blocks are the connected parts of the graph: a vertex is in one place of one block, blocks are
connected, and no edge of the graph leads from one to another. -/
structure Parting {V : Type} (G : SimpleGraph V) (blocks : List (List V)) : Prop where
  mem : ∀ v, v ∈ blocks.flatten
  nodup : blocks.flatten.Nodup
  ne_nil : ∀ b ∈ blocks, b ≠ []
  reachable : ∀ b ∈ blocks, ∀ v ∈ b, ∀ w ∈ b, G.Reachable v w
  apart : blocks.Pairwise fun b c => ∀ v ∈ b, ∀ w ∈ c, ¬ G.Adj v w

namespace Parting
variable {V : Type} {G : SimpleGraph V} {blocks : List (List V)} (h : Parting G blocks)
include h

theorem mem_of_adj {b : List V} (hb : b ∈ blocks) {v w : V} (hv : v ∈ b) (hvw : G.Adj v w) :
    w ∈ b := by
  obtain ⟨c, hc, hw⟩ := List.mem_flatten.1 (h.mem w)
  have : Std.Symm fun b c : List V => ∀ v ∈ b, ∀ w ∈ c, ¬ G.Adj v w :=
    ⟨fun _ _ hbc w hw v hv hwv => hbc v hv w hw hwv.symm⟩
  by_contra hwb
  have hne : b ≠ c := fun hbc => hwb (hbc ▸ hw)
  exact h.apart.forall hb hc hne v hv w hw hvw

theorem mem_of_reachable {b : List V} (hb : b ∈ blocks) {v w : V} (hv : v ∈ b)
    (hvw : G.Reachable v w) : w ∈ b := by
  rw [SimpleGraph.reachable_iff_reflTransGen] at hvw
  induction hvw with
  | refl => exact hv
  | tail _ hadj ih => exact h.mem_of_adj hb ih hadj

theorem exists_components : ∃ parts : List G.ConnectedComponent,
    List.Forall₂ (fun b C => ∀ v, v ∈ b ↔ v ∈ C.supp) blocks parts ∧ parts.Nodup ∧
      ∀ C, C ∈ parts := by
  have hpart : ∀ b ∈ blocks, ∃ C : G.ConnectedComponent, ∀ v, v ∈ b ↔ v ∈ C.supp := by
    intro b hb
    obtain ⟨v, hv⟩ := List.exists_mem_of_ne_nil b (h.ne_nil b hb)
    refine ⟨G.connectedComponentMk v, fun w => ?_⟩
    rw [SimpleGraph.ConnectedComponent.mem_supp_iff, SimpleGraph.ConnectedComponent.eq]
    exact ⟨fun hw => h.reachable b hb w hw v hv, fun hr => h.mem_of_reachable hb hv hr.symm⟩
  obtain ⟨parts, hparts⟩ := exists_forall₂ hpart
  refine ⟨parts, hparts, ?_, fun C => ?_⟩
  · refine pairwise_of_forall₂ hparts (List.nodup_flatten.1 h.nodup).2 ?_
    rintro b c C _ hC hD hdisjoint rfl
    obtain ⟨v, hv⟩ := C.nonempty_supp
    exact hdisjoint ((hC v).2 hv) ((hD v).2 hv)
  · obtain ⟨v, hv⟩ := C.nonempty_supp
    obtain ⟨b, hb, hvb⟩ := List.mem_flatten.1 (h.mem v)
    obtain ⟨D, hD, hbD⟩ := exists_of_mem_left hparts hb
    rwa [SimpleGraph.ConnectedComponent.eq_of_common_vertex hv ((hbD v).1 hvb)]

end Parting

theorem card_eq_length {α : Type} {as : List α} (hnodup : as.Nodup) (hmem : ∀ a, a ∈ as) :
    Nat.card α = as.length := by
  classical
  exact (Nat.card_congr (hnodup.getEquivOfForallMemList as hmem)).symm.trans (Nat.card_fin _)

/-- The members with their positions; two of them are adjacent if one has an end of an edge and the
other has the other end. -/
def joinGraph (edges : List Edge) (members : List Node) : SimpleGraph (Fin members.length) where
  Adj i j := i ≠ j ∧ ∃ e ∈ edges, e.between members[i] members[j]
  symm := ⟨fun _ _ ⟨hij, e, he, hb⟩ => ⟨hij.symm, e, he, by rwa [Edge.between_symm]⟩⟩
  loopless := ⟨fun _ h => h.1 rfl⟩

namespace JoinTree
variable {E : List Edge} {members : List Node} {t u : JoinTree} {ts : List JoinTree} {e : Edge}

/-- The leaves of the tree are the members that make up a connected part. -/
def Spans (E : List Edge) (members : List Node) (t : JoinTree)
    (C : (joinGraph E members).ConnectedComponent) : Prop :=
  ∃ is : List (Fin members.length), is.Nodup ∧ (∀ i, i ∈ is ↔ i ∈ C.supp) ∧
    t.leaves = is.map members.get

theorem between_plan : e.between t.plan u.plan = true ↔
    ∃ m ∈ t.leaves, ∃ n ∈ u.leaves, e.between m n = true := by
  unfold Edge.between
  simp only [Bool.or_eq_true, Bool.and_eq_true, produces_plan_iff]
  constructor
  · rintro (⟨⟨m, hm, h₁⟩, n, hn, h₂⟩ | ⟨⟨n, hn, h₂⟩, m, hm, h₁⟩)
    · exact ⟨m, hm, n, hn, .inl ⟨h₁, h₂⟩⟩
    · exact ⟨m, hm, n, hn, .inr ⟨h₂, h₁⟩⟩
  · rintro ⟨m, hm, n, hn, ⟨h₁, h₂⟩ | ⟨h₂, h₁⟩⟩
    · exact .inl ⟨⟨m, hm, h₁⟩, n, hn, h₂⟩
    · exact .inr ⟨⟨n, hn, h₂⟩, m, hm, h₁⟩

/-- A member connected with a tree is adjacent to one of its leaves. -/
theorem exists_adj {js : List (Fin members.length)} {k : Fin members.length}
    (hleaves : t.leaves = js.map members.get) (hk : k ∉ js)
    (hconn : connecting E t.plan (members.get k) ≠ []) :
    ∃ j ∈ js, (joinGraph E members).Adj j k := by
  obtain ⟨e, he, hb⟩ := connecting_ne_nil.1 hconn
  obtain ⟨n, hn, m, hm, hnm⟩ := between_plan (u := .leaf (members.get k)).1 hb
  obtain rfl : m = members.get k := List.mem_singleton.1 hm
  rw [hleaves] at hn
  obtain ⟨j, hj, rfl⟩ := List.mem_map.1 hn
  exact ⟨j, hj, fun hjk => hk (hjk ▸ hj), e, he, hnm⟩

/-- The leaves of a grown tree belong to one connected part. -/
theorem Grown.reachable (h : t.Grown E) {is : List (Fin members.length)} (hnodup : is.Nodup)
    (hleaves : t.leaves = is.map members.get) :
    ∀ i ∈ is, ∀ j ∈ is, (joinGraph E members).Reachable i j := by
  induction h generalizing is with
  | leaf n =>
    obtain ⟨k, rfl, -⟩ := List.map_eq_singleton_iff.1 hleaves.symm
    intro i hi j hj
    rw [List.mem_singleton.1 hi, List.mem_singleton.1 hj]
  | @join l m residuals tag _ hm _ ih =>
    -- each leaf reaches the last one, by way of a leaf that this is adjacent to
    obtain ⟨js, ks, rfl, hjs, hks⟩ := List.map_eq_append_iff.1 hleaves.symm
    obtain ⟨k, rfl, rfl⟩ := List.map_eq_singleton_iff.1 hks
    obtain ⟨hnodup, -, hdisjoint⟩ := List.nodup_append'.1 hnodup
    have hk : k ∉ js := fun hk => hdisjoint hk (List.mem_singleton_self k)
    obtain ⟨j, hj, hadj⟩ := exists_adj hjs.symm hk hm
    have hall : ∀ i ∈ js ++ [k], (joinGraph E members).Reachable i k := by
      intro i hi
      rcases List.mem_append.1 hi with hi | hi
      · exact (ih hnodup hjs.symm i hi j hj).trans hadj.reachable
      · rw [List.mem_singleton.1 hi]
    exact fun i hi j hj => (hall i hi).trans (hall j hj).symm

/-- The leaves of several trees, tree by tree, are the members at the positions in some order. -/
theorem exists_blocks (hleaves : (ts.flatMap leaves).Perm members) :
    ∃ blocks : List (List (Fin members.length)),
      blocks.flatten.Perm (List.finRange members.length) ∧
        List.Forall₂ (fun t b => t.leaves = b.map members.get) ts blocks := by
  have hmap := hleaves
  rw [← List.map_get_finRange members] at hmap
  obtain ⟨is, hperm, his⟩ := exists_perm_of_perm_map hmap
  obtain ⟨blocks, rfl, hblocks⟩ := exists_flatten_of_flatMap_eq_map his
  exact ⟨blocks, hperm, hblocks⟩

/-- Grown trees that are not connected with one another have a connected part each. -/
theorem exists_parting (hleaves : (ts.flatMap leaves).Perm members)
    (hgrown : ∀ u ∈ ts, u.Grown E)
    (hpair : ts.Pairwise fun t u => connecting E t.plan u.plan = []) :
    ∃ blocks, Parting (joinGraph E members) blocks ∧
      List.Forall₂ (fun t b => t.leaves = b.map members.get) ts blocks := by
  obtain ⟨blocks, hperm, hblocks⟩ := exists_blocks hleaves
  have hnodup : blocks.flatten.Nodup := hperm.nodup_iff.2 (List.nodup_finRange _)
  refine ⟨blocks, ⟨fun i => ?_, hnodup, fun b hb hnil => ?_, fun b hb => ?_, ?_⟩, hblocks⟩
  · exact hperm.mem_iff.2 (List.mem_finRange i)
  · obtain ⟨t, -, ht⟩ := exists_of_mem_right hblocks hb
    exact t.leaves_ne_nil (by rw [ht, hnil, List.map_nil])
  · obtain ⟨t, htmem, ht⟩ := exists_of_mem_right hblocks hb
    exact (hgrown t htmem).reachable ((List.nodup_flatten.1 hnodup).1 b hb) ht
  · refine pairwise_of_forall₂ hblocks hpair ?_
    rintro t u b c ht hu hnone i hi j hj ⟨-, e, he, hij⟩
    have hb : e.between t.plan u.plan = true := between_plan.2
      ⟨_, ht ▸ List.mem_map_of_mem hi, _, hu ▸ List.mem_map_of_mem hj, hij⟩
    exact Bool.false_ne_true ((connecting_eq_nil.1 hnone e he).symm.trans hb)

end JoinTree

namespace Search
variable {ν σ : Type} [CostScale ν] {s : Search ν σ} {members : List Node} {residuals : List Expr}
  {a b : Session ν σ}

/-- If no join costs too much, taking the joins without an equality out of the result leaves one tree
for each connected part of the group, in the order in which the trees were grown. The leaves of a tree
are the members of its part. Every join of it has a single leaf on the right and an equality. -/
theorem components_of_solve {found : Option Solution} (hne : members ≠ [])
    (hless : s.Affordable members residuals a) (h : s.solve members residuals a = .ok found b) :
    ∃ (t : JoinTree) (left : List Expr)
      (parts : List (joinGraph s.edges members).ConnectedComponent),
      found = some ⟨t.plan, left⟩ ∧ t.leaves.Perm members ∧
      parts.Nodup ∧ (∀ C, C ∈ parts) ∧
      List.Forall₂ (JoinTree.Spans s.edges members) t.cut parts ∧
      t.cut.length = Nat.card (joinGraph s.edges members).ConnectedComponent ∧
      t.joints.countP (·.edges.isEmpty) + 1 =
        Nat.card (joinGraph s.edges members).ConnectedComponent ∧
      (∀ u ∈ t.cut, ∀ J ∈ u.joints, J.edges ≠ [] ∧ ∃ m, J.right = .leaf m) ∧
      ∃ trees u order pending v, members.mapM s.appraise a = .ok trees u ∧
        ranked trees = some order ∧ s.growAll trees.length order residuals u =
          .ok (t.cut.map JoinTree.plan, pending) v := by
  obtain ⟨t, left, Js, rfl, hleaves, hgrown, -, -, -, trees, u, order, pending, v, htrees, hr,
    hgrow⟩ := journal_of_solve hne h
  obtain ⟨seed, others, rfl, hrun⟩ := exists_runs hne htrees hr hgrow
  have hpair := (smooth_iff_pairwise htrees hr hrun).1 hless.smooth
  rw [List.pairwise_map] at hpair
  obtain ⟨blocks, hparting, hblocks⟩ :=
    JoinTree.exists_parting (t.leaves_cut ▸ hleaves) hgrown hpair
  obtain ⟨parts, hparts, hnodup, hmem⟩ := hparting.exists_components
  have hspans : List.Forall₂ (JoinTree.Spans s.edges members) t.cut parts :=
    forall₂_comp hblocks hparts fun u C b hb hu hC =>
      ⟨b, (List.nodup_flatten.1 hparting.nodup).1 b hb, hC, hu⟩
  have hcard := card_eq_length hnodup hmem
  have hjoints : ∀ u ∈ t.cut, ∀ J ∈ u.joints, J.edges ≠ [] ∧ ∃ m, J.right = .leaf m :=
    fun u hu J hJ => (hgrown u hu).of_mem_joints hJ
  refine ⟨t, left, parts, rfl, hleaves, hnodup, hmem, hspans, ?_, ?_, hjoints, trees, u, _,
    pending, v, htrees, hr, hgrow⟩
  · rw [hcard, hspans.length_eq]
  · rw [hcard, JoinTree.countP_edgeless fun u hu J hJ => (hjoints u hu J hJ).1, hspans.length_eq]

theorem components_of_solve_fourTables : ∃ (t : JoinTree) (left : List Expr) (b : _),
    triangle.solve fourTables [] (.unused 4) = .ok (some ⟨t.plan, left⟩) b ∧
      t.cut.length = Nat.card (joinGraph triangle.edges fourTables).ConnectedComponent ∧
      ∀ u ∈ t.cut, ∀ J ∈ u.joints, J.edges ≠ [] ∧ ∃ m, J.right = .leaf m := by
  obtain ⟨_, b, h⟩ := Action.exists_of_result? (x := triangle.solve fourTables [])
    (a := .unused 4) (by decide +kernel)
  have hless : triangle.Affordable fourTables [] (.unused 4) :=
    affordable_of_less (fun _ _ _ _ _ _ h => less_of_constant (by decide) h) _ _ _
  obtain ⟨t, left, -, rfl, -, -, -, -, hlen, -, hjoints, -⟩ :=
    components_of_solve (by decide) hless h
  exact ⟨t, left, b, h, hlen, hjoints⟩

end Search

end JoinOrder
