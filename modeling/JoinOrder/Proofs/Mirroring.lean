import JoinOrder.Proofs.Connection
import JoinOrder.Statistics.Catalog

/-!
# Joins with their inputs exchanged

A join can be written from either side, and its conditions in any order and each equality either way
round (`Join.Mirrors`). The estimate of the join is the same (`Catalog.estimate_mirror`), although the
distinct values of a column are looked up on the left first, the key is found by going through the
equalities in order, and what is known on the right has precedence.

Of the numbers only the laws in `Statistics.Exchangeable` are used, and those only where the estimate
compares them (`Statistics.Compared`).
-/

namespace JoinOrder

/-- Going through a list in another order gives the same, if the operation may be exchanged on
values of a kind that it does not leave. -/
theorem foldl_perm_of_closed {α : Type} {op : α → α → α} {S : α → Prop}
    (hop : ∀ a b, S a → S b → S (op a b))
    (hswap : ∀ a b c, S a → S b → S c → op (op a b) c = op (op a c) b) {as bs : List α}
    (h : as.Perm bs) (hS : ∀ a ∈ as, S a) {z : α} (hz : S z) : as.foldl op z = bs.foldl op z := by
  induction h generalizing z with
  | nil => rfl
  | cons a _ ih =>
    rw [List.forall_mem_cons] at hS
    exact ih hS.2 (hop z a hz hS.1)
  | swap a b cs =>
    rw [List.forall_mem_cons, List.forall_mem_cons] at hS
    rw [List.foldl_cons, List.foldl_cons, List.foldl_cons, List.foldl_cons,
      hswap z b a hz hS.1 hS.2.1]
  | trans h _ ih ih' =>
    exact (ih hS hz).trans (ih' (fun a ha => hS a (h.mem_iff.2 ha)) hz)

/-- The kind of a join whose inputs are exchanged. -/
def JoinKind.mirror : JoinKind → JoinKind
  | inner => inner
  | left => right
  | right => left
  | full => full

/-- The join `j'` says about exchanged inputs what `j` says: the same equalities, in any order and
each of them either way round, and the same other conditions in any order. -/
structure Join.Mirrors (j j' : Join) : Prop where
  kind : j'.kind = j.kind.mirror
  edges : (j'.edges.map Edge.ends).Perm (j.edges.map Edge.ends)
  residuals : j'.residuals.Perm j.residuals

namespace Statistics
variable {ν : Type} [Quantity ν] {l r : Statistics ν}

open Quantity

/-- The values among which the greater is taken when estimates are joined. -/
inductive Compared (l r : Statistics ν) : ν → Prop
  | zero : Compared l r zero
  | leftRows : Compared l r l.rows
  | rightRows : Compared l r r.rows
  | leftDistinct {c : Column} {d : ν} (h : l.distinct? c = some d) : Compared l r d
  | rightDistinct {c : Column} {d : ν} (h : r.distinct? c = some d) : Compared l r d
  | greater {a b : ν} (ha : Compared l r a) (hb : Compared l r b) : Compared l r (greater a b)

/-- The row counts can be multiplied in either order, and the greatest of several compared values
does not depend on how it is found. -/
structure Exchangeable (l r : Statistics ν) : Prop where
  mul_comm : l.rows * r.rows = r.rows * l.rows
  greater_comm {a b : ν} (ha : Compared l r a) (hb : Compared l r b) : greater a b = greater b a
  greater_assoc {a b c : ν} (ha : Compared l r a) (hb : Compared l r b) (hc : Compared l r c) :
    greater (greater a b) c = greater a (greater b c)

theorem compared_distinctInJoin (onLeft : Column → Bool) (c : Column) :
    Compared l r (distinctInJoin onLeft l r c) := by
  unfold distinctInJoin
  cases onLeft c with
  | true =>
    cases hd : l.distinct? c with
    | some d => simpa [hd] using .leftDistinct hd
    | none => simpa [hd] using .leftRows
  | false =>
    cases hd : r.distinct? c with
    | some d => simpa [hd] using .rightDistinct hd
    | none => simpa [hd] using .rightRows

/-- The number of distinct values on the side of an edge that has more of them. -/
def edgeKey (onLeft : Column → Bool) (l r : Statistics ν) (e : Edge) : ν :=
  greater (distinctInJoin onLeft l r e.left) (distinctInJoin onLeft l r e.right)

theorem joinKey_eq (onLeft : Column → Bool) (l r : Statistics ν) (edges : List Edge) :
    joinKey onLeft l r edges = (edges.map (edgeKey onLeft l r)).foldl greater zero := rfl

theorem compared_edgeKey (onLeft : Column → Bool) (e : Edge) :
    Compared l r (edgeKey onLeft l r e) :=
  .greater (compared_distinctInJoin onLeft e.left) (compared_distinctInJoin onLeft e.right)

/-- All counts of the estimate are among the given numbers. -/
def Counts (s : Statistics ν) (counts : List Nat) : Prop :=
  (∃ k ∈ counts, s.rows = ofNat k) ∧ ∀ e ∈ s.distinct, ∃ k ∈ counts, e.2 = ofNat k

theorem Counts.distinct {s : Statistics ν} {counts : List Nat} (hs : s.Counts counts) {c : Column}
    {d : ν} (h : s.distinct? c = some d) : ∃ k ∈ counts, d = ofNat k := by
  obtain ⟨front, back, heq, -⟩ := List.lookup_eq_some_iff.1 h
  exact hs.2 (c, d) (heq ▸ List.mem_append_right _ (List.mem_cons_self ..))

/-- The laws hold of counts among which the greater is found exactly. -/
theorem exchangeable_of_counts {counts : List Nat} (hzero : 0 ∈ counts) (hl : l.Counts counts)
    (hr : r.Counts counts) (hmul : l.rows * r.rows = r.rows * l.rows)
    (hmax : ∀ a ∈ counts, ∀ b ∈ counts, greater (ofNat a) (ofNat b) = (ofNat (max a b) : ν)) :
    l.Exchangeable r := by
  have hmem {a b : Nat} (ha : a ∈ counts) (hb : b ∈ counts) : max a b ∈ counts := by
    rcases max_choice a b with h | h <;> rw [h] <;> assumption
  have hcount {v : ν} (hv : l.Compared r v) : ∃ k ∈ counts, v = ofNat k := by
    induction hv with
    | zero => exact ⟨0, hzero, rfl⟩
    | leftRows => exact hl.1
    | rightRows => exact hr.1
    | leftDistinct h => exact hl.distinct h
    | rightDistinct h => exact hr.distinct h
    | greater _ _ iha ihb =>
      obtain ⟨a, ha, rfl⟩ := iha
      obtain ⟨b, hb, rfl⟩ := ihb
      exact ⟨max a b, hmem ha hb, hmax a ha b hb⟩
  refine ⟨hmul, fun hv hw => ?_, fun hv hw hx => ?_⟩
  · obtain ⟨a, ha, rfl⟩ := hcount hv
    obtain ⟨b, hb, rfl⟩ := hcount hw
    rw [hmax a ha b hb, hmax b hb a ha, max_comm]
  · obtain ⟨a, ha, rfl⟩ := hcount hv
    obtain ⟨b, hb, rfl⟩ := hcount hw
    obtain ⟨c, hc, rfl⟩ := hcount hx
    rw [hmax a ha b hb, hmax b hb c hc, hmax _ (hmem ha hb) c hc, hmax a ha _ (hmem hb hc),
      max_assoc]

namespace Exchangeable
variable (h : Exchangeable l r)
include h

theorem greater_swap {a b c : ν} (ha : Compared l r a) (hb : Compared l r b) (hc : Compared l r c) :
    greater (greater a b) c = greater (greater a c) b := by
  rw [h.greater_assoc ha hb hc, h.greater_comm hb hc, ← h.greater_assoc ha hc hb]

variable {left right : Node} {j j' : Join}

omit h [Quantity ν] in
/-- A column of either input is looked up on its own side, whichever side is asked first. -/
theorem distinctInJoin_mirror (hapart : left.Apart right) {c : Column}
    (hc : left.produces c = true ∨ right.produces c = true) :
    distinctInJoin right.produces r l c = distinctInJoin left.produces l r c := by
  unfold distinctInJoin
  cases hl : left.produces c with
  | true =>
    have hr : right.produces c = false := Bool.eq_false_iff.2 (hapart c hl)
    simp [hr]
  | false =>
    have hr : right.produces c = true := hc.resolve_left (by simp [hl])
    simp [hr]

theorem edgeKey_mirror (hapart : left.Apart right) {tag : Tag} {e e' : Edge}
    (he : e.within (.join tag j left right) = true) (hends : e.ends = e'.ends) :
    edgeKey right.produces r l e' = edgeKey left.produces l r e := by
  unfold Edge.within at he
  rw [Bool.and_eq_true_iff, Node.produces_join, Node.produces_join, Bool.or_eq_true_iff,
    Bool.or_eq_true_iff] at he
  have hleft := distinctInJoin_mirror (l := l) (r := r) hapart he.1
  have hright := distinctInJoin_mirror (l := l) (r := r) hapart he.2
  unfold edgeKey
  rcases Edge.ends_eq_iff.1 hends.symm with rfl | rfl
  · rw [hleft, hright]
  · change greater (distinctInJoin _ _ _ e.right) (distinctInJoin _ _ _ e.left) = _
    rw [hleft, hright]
    exact h.greater_comm (compared_distinctInJoin ..) (compared_distinctInJoin ..)

theorem joinKey_mirror (hapart : left.Apart right) (hj : j.Mirrors j') {tag : Tag}
    (hedges : ∀ e ∈ j.edges, e.within (.join tag j left right) = true) :
    joinKey right.produces r l j'.edges = joinKey left.produces l r j.edges := by
  obtain ⟨es, hperm, hends⟩ := exists_perm_of_perm_map hj.edges
  have hturned : List.Forall₂ (fun e e' : Edge => e.ends = e'.ends) es j'.edges :=
    List.forall₂_map_left_iff.1 (List.forall₂_map_right_iff.1 (List.forall₂_eq_eq_eq ▸ hends.symm))
  have hwithin : ∀ e ∈ es, e.within (.join tag j left right) = true := fun e he =>
    hedges e (hperm.mem_iff.1 he)
  have hkeys : es.map (edgeKey left.produces l r) = j'.edges.map (edgeKey right.produces r l) := by
    rw [← List.forall₂_eq_eq_eq, List.forall₂_map_left_iff, List.forall₂_map_right_iff]
    refine ((List.forall₂_and_left _ _).2 ⟨hwithin, hturned⟩).imp fun e e' he => ?_
    exact (h.edgeKey_mirror hapart he.1 he.2).symm
  rw [joinKey_eq, joinKey_eq, ← hkeys]
  refine foldl_perm_of_closed (S := Compared l r) (fun _ _ => .greater)
    (fun _ _ _ => h.greater_swap) (hperm.map _) ?_ .zero
  exact List.forall_mem_map.2 fun e _ => compared_edgeKey left.produces e

theorem joinRows_mirror (hapart : left.Apart right) (hj : j.Mirrors j') {tag : Tag}
    (hedges : ∀ e ∈ j.edges, e.within (.join tag j left right) = true) :
    joinRows right.produces r l j' = joinRows left.produces l r j := by
  have hnone : j'.edges.isEmpty = j.edges.isEmpty := by
    rw [← List.isEmpty_map (f := Edge.ends), hj.edges.isEmpty_eq, List.isEmpty_map]
  have hmatching : matchingRows right.produces r l j' = matchingRows left.produces l r j := by
    unfold matchingRows
    rw [h.joinKey_mirror hapart hj hedges, h.mul_comm, hnone, hj.residuals.isEmpty_eq]
  unfold joinRows
  rw [hmatching, hj.kind]
  cases j.kind with
  | inner => rfl
  | left => rfl
  | right => rfl
  | full => exact congrArg (greater _) (h.greater_comm .rightRows .leftRows)

end Exchangeable

end Statistics

namespace Catalog
variable {ν : Type} [Quantity ν]

/-- A join and its mirror image over exchanged inputs have the same rows, and the same number of
distinct values in every column. -/
theorem estimate_mirror (c : Catalog ν) {left right : Node} {l r : Statistics ν} {j j' : Join}
    (tag tag' : Tag) (hapart : left.Apart right)
    (hedges : ∀ e ∈ j.edges, e.within (.join tag j left right) = true)
    (hknown : ∀ col, l.distinct? col = none ∨ r.distinct? col = none)
    (hlaws : l.Exchangeable r) (hj : j.Mirrors j') :
    ∃ s s', c.estimate (.join tag j left right) [l, r] = .ok s ∧
      c.estimate (.join tag' j' right left) [r, l] = .ok s' ∧
      s'.rows = s.rows ∧ ∀ col, s'.distinct? col = s.distinct? col := by
  have hrows := hlaws.joinRows_mirror hapart hj hedges
  refine ⟨_, _, rfl, rfl, hrows, fun col => ?_⟩
  rw [Statistics.distinct?_join, Statistics.distinct?_join, hrows]
  rcases hknown col with hl | hr
  · rw [hl, Option.none_or, Option.or_none]
  · rw [hr, Option.none_or, Option.or_none]

/-- Two tables, of which the second is taken to have more distinct values in a column than rows. -/
def orders : Node := .scan ⟨0, 0⟩ (.ofNames "a" ["x", "z"] none)

def persons : Node := .scan ⟨1, 1⟩ (.ofNames "b" ["y", "w"] none)

def knownOfOrders : Statistics Float := (Statistics.ofRows 1000).withDistinct ⟨"a", "x"⟩ 30

def knownOfPersons : Statistics Float := (Statistics.ofRows 40).withDistinct ⟨"b", "y"⟩ 60

def personsOfOrders : Join where
  kind := .left
  edges := [⟨⟨"a", "x"⟩, ⟨"b", "y"⟩⟩, ⟨⟨"b", "w"⟩, ⟨"a", "z"⟩⟩]
  residuals := [.isNull (.column ⟨"a", "x"⟩), .isNull (.column ⟨"b", "w"⟩)]

def ordersOfPersons : Join where
  kind := .right
  edges := [⟨⟨"b", "w"⟩, ⟨"a", "z"⟩⟩, ⟨⟨"b", "y"⟩, ⟨"a", "x"⟩⟩]
  residuals := [.isNull (.column ⟨"b", "w"⟩), .isNull (.column ⟨"a", "x"⟩)]

theorem estimate_mirror_twoTables :
    orders.Apart persons ∧ personsOfOrders.Mirrors ordersOfPersons ∧
      knownOfOrders.Exchangeable knownOfPersons ∧
      ∃ s s', Catalog.empty.estimate (.join ⟨2, 2⟩ personsOfOrders orders persons)
          [knownOfOrders, knownOfPersons] = .ok s ∧
        Catalog.empty.estimate (.join ⟨3, 3⟩ ordersOfPersons persons orders)
          [knownOfPersons, knownOfOrders] = .ok s' ∧
        s'.rows = s.rows ∧ ∀ col, s'.distinct? col = s.distinct? col := by
  have hapart : orders.Apart persons := by decide
  have hmirrors : personsOfOrders.Mirrors ordersOfPersons := ⟨rfl, by decide, by decide⟩
  have horders : knownOfOrders.Counts [0, 30, 40, 60, 1000] := by
    unfold Statistics.Counts
    decide +kernel
  have hpersons : knownOfPersons.Counts [0, 30, 40, 60, 1000] := by
    unfold Statistics.Counts
    decide +kernel
  have hlaws : knownOfOrders.Exchangeable knownOfPersons :=
    Statistics.exchangeable_of_counts (by decide) horders hpersons (by decide +kernel)
      (by decide +kernel)
  refine ⟨hapart, hmirrors, hlaws, ?_⟩
  refine estimate_mirror .empty ⟨2, 2⟩ ⟨3, 3⟩ hapart (by decide) (fun col => ?_) hlaws hmirrors
  by_cases h : col = ⟨"a", "x"⟩
  · exact .inr (by simp [knownOfPersons, h])
  · exact .inl (by simp [knownOfOrders, h])

end Catalog

end JoinOrder
