import Mathlib.Data.List.Basic
import JoinOrder.Proofs.Run

/-!
# Costs that compare

Costs need not compare: a floating-point cost may be no number at all. What is known of costs that
are numbers (`Number`), or that are below the ceiling (`Below`), is stated by classes: numbers compare
with each other (`NumericCosts`), as in a partial order (`OrderedCosts`) or as in a linear preorder
(`LinearCosts`), and in particular costs below the ceiling compare as in a linear preorder
(`LawfulCosts`). Floating-point costs obey all these laws.

Costs below the ceiling are ranked without ties being broken by chance. The chosen candidate is then
the first of the cheapest (`cheapest?_eq_some_iff`), and `sorted_cons` tells where the first of several
members ends up when they are ranked: behind the cheaper ones, in front of all others.
-/

namespace JoinOrder

namespace CostScale
variable {ν : Type} [CostScale ν]

/-- The cost is below the ceiling. -/
def Below (a : ν) : Prop := less a ceiling = true

/-- The cost compares with itself. -/
def Number (a : ν) : Prop := (compare? a a).isSome = true

/-- The costs are not equal; costs that do not compare are not equal either. -/
def Differ (a b : ν) : Prop := compare? a b ≠ some .eq

/-- One cost is less than another or equal to it. -/
def AtMost (a b : ν) : Prop := compare? a b = some .lt ∨ compare? a b = some .eq

end CostScale

open CostScale

/-- Of two costs at most one is less than the other. -/
class AsymmetricCosts (ν : Type) [CostScale ν] : Prop where
  asymm : ∀ a b : ν, less a b = true → less b a = false

/-- Costs below the ceiling compare, and compare as in a linear preorder. -/
class LawfulCosts (ν : Type) [CostScale ν] : Prop extends AsymmetricCosts ν where
  comparable : ∀ a b : ν, Below a → Below b → (compare? a b).isSome = true
  trans : ∀ a b c : ν, Below a → Below b → Below c → less a b = false → less b c = false →
    less a c = false

/-- Numbers compare. -/
class NumericCosts (ν : Type) [CostScale ν] : Prop extends AsymmetricCosts ν where
  comparable : ∀ a b : ν, Number a → Number b → (compare? a b).isSome = true
  swap : ∀ a b : ν, compare? a b = some .gt → compare? b a = some .lt

/-- Numbers compare, and costs compare as in a partial order. -/
class OrderedCosts (ν : Type) [CostScale ν] : Prop extends NumericCosts ν where
  trans : ∀ a b c : ν, less a b = true → less b c = true → less a c = true

/-- Numbers compare as in a linear preorder, and every cost below the ceiling is a number. -/
class LinearCosts (ν : Type) [CostScale ν] : Prop extends NumericCosts ν where
  number : ∀ a : ν, Below a → Number a
  trans : ∀ a b c : ν, Number a → Number b → Number c → less a b = false → less b c = false →
    less a c = false

instance (priority := low) {ν : Type} [CostScale ν] [LinearCosts ν] : LawfulCosts ν where
  comparable a b ha hb :=
    NumericCosts.comparable a b (LinearCosts.number a ha) (LinearCosts.number b hb)
  trans a b c ha hb hc := LinearCosts.trans a b c (LinearCosts.number a ha)
    (LinearCosts.number b hb) (LinearCosts.number c hc)

variable {ν : Type} [CostScale ν]

section Laws
variable {a b c : ν}

theorem less_or_less [NumericCosts ν] (ha : Number a) (hb : Number b) (h : Differ a b) :
    less a b = true ∨ less b a = true := by
  unfold less
  obtain ⟨o, hab⟩ := Option.isSome_iff_exists.1 (NumericCosts.comparable a b ha hb)
  rw [hab]
  cases o with
  | lt => exact .inl rfl
  | eq => exact absurd hab h
  | gt =>
    rw [NumericCosts.swap a b hab]
    exact .inr rfl

theorem atMost_of_not_less [NumericCosts ν] (ha : Number a) (hb : Number b)
    (h : less b a = false) : AtMost a b := by
  obtain ⟨o, hab⟩ := Option.isSome_iff_exists.1 (NumericCosts.comparable a b ha hb)
  cases o with
  | lt => exact .inl hab
  | eq => exact .inr hab
  | gt =>
    unfold less at h
    rw [NumericCosts.swap a b hab] at h
    cases h

variable [LawfulCosts ν]

theorem less_of_less_of_not_less (ha : Below a) (hb : Below b) (hc : Below c)
    (hab : less a b = true) (hcb : less c b = false) : less a c = true := by
  by_contra h
  rw [LawfulCosts.trans a c b ha hc hb (Bool.eq_false_iff.2 h) hcb] at hab
  cases hab

theorem less_of_not_less_of_less (ha : Below a) (hb : Below b) (hc : Below c)
    (hba : less b a = false) (hbc : less b c = true) : less a c = true := by
  by_contra h
  rw [LawfulCosts.trans b a c hb ha hc hba (Bool.eq_false_iff.2 h)] at hbc
  cases hbc

end Laws

section Choice
variable {cs : List (Candidate ν)} {c : Candidate ν} {bound : ν}

open Search

theorem cheapestBelow_of_split {pre post : List (Candidate ν)} (hc : less c.tree.cost bound = true)
    (hpre : ∀ d ∈ pre, less c.tree.cost d.tree.cost = true)
    (hpost : ∀ d ∈ post, less d.tree.cost c.tree.cost = false) :
    cheapestBelow bound (pre ++ c :: post) = some c := by
  induction pre generalizing bound with
  | nil =>
    rw [List.nil_append, cheapestBelow, if_pos hc, cheapestBelow_eq_none.2 hpost]
    rfl
  | cons d pre ih =>
    rw [List.forall_mem_cons] at hpre
    rw [List.cons_append, cheapestBelow]
    split
    · rw [ih hpre.1 hpre.2]
      rfl
    · exact ih hc hpre.2

variable [LawfulCosts ν]

theorem split_of_cheapestBelow (hbound : bound = ceiling ∨ Below bound)
    (hcs : ∀ d ∈ cs, Below d.tree.cost) (h : cheapestBelow bound cs = some c) :
    less c.tree.cost bound = true ∧ ∃ pre post, cs = pre ++ c :: post ∧
      (∀ d ∈ pre, less c.tree.cost d.tree.cost = true) ∧
      ∀ d ∈ post, less d.tree.cost c.tree.cost = false := by
  induction cs generalizing bound with
  | nil => cases h
  | cons d cs ih =>
    rw [List.forall_mem_cons] at hcs
    obtain ⟨hd, hcs⟩ := hcs
    rw [cheapestBelow] at h
    cases hdb : less d.tree.cost bound with
    | true =>
      rw [hdb, if_pos rfl] at h
      cases hrest : cheapestBelow d.tree.cost cs with
      | none =>
        rw [hrest] at h
        cases h
        exact ⟨hdb, [], cs, rfl, by simp, cheapestBelow_eq_none.1 hrest⟩
      | some e =>
        rw [hrest] at h
        cases h
        obtain ⟨hcd, pre, post, rfl, hpre, hpost⟩ := ih (.inr hd) hcs hrest
        have hc : Below c.tree.cost := hcs c (by simp)
        have hcb : less c.tree.cost bound = true := by
          rcases hbound with rfl | hb
          · exact hc
          · exact less_of_not_less_of_less hc hd hb (AsymmetricCosts.asymm _ _ hcd) hdb
        exact ⟨hcb, d :: pre, post, rfl, List.forall_mem_cons.2 ⟨hcd, hpre⟩, hpost⟩
    | false =>
      rw [hdb, if_neg Bool.false_ne_true] at h
      obtain ⟨hcb, pre, post, rfl, hpre, hpost⟩ := ih hbound hcs h
      have hc : Below c.tree.cost := hcs c (by simp)
      have hcd : less c.tree.cost d.tree.cost = true := by
        rcases hbound with rfl | hb
        · exact absurd hd (Bool.eq_false_iff.1 hdb)
        · exact less_of_less_of_not_less hc hb hd hcb hdb
      exact ⟨hcb, d :: pre, post, rfl, List.forall_mem_cons.2 ⟨hcd, hpre⟩, hpost⟩

/-- The choice is the first of the cheapest candidates. -/
theorem cheapest?_eq_some_iff (hcs : ∀ d ∈ cs, Below d.tree.cost) :
    cheapest? cs = some c ↔ ∃ pre post, cs = pre ++ c :: post ∧
      (∀ d ∈ pre, less c.tree.cost d.tree.cost = true) ∧
      ∀ d ∈ post, less d.tree.cost c.tree.cost = false := by
  constructor
  · exact fun h => (split_of_cheapestBelow (.inl rfl) hcs h).2
  · rintro ⟨pre, post, rfl, hpre, hpost⟩
    exact cheapestBelow_of_split (hcs c (by simp)) hpre hpost

omit [LawfulCosts ν] in
theorem cheapest?_eq_none_iff (hcs : ∀ d ∈ cs, Below d.tree.cost) : cheapest? cs = none ↔ cs = [] := by
  rw [cheapest?_eq_none]
  constructor
  · intro h
    rw [List.eq_nil_iff_forall_not_mem]
    exact fun d hd => Bool.false_ne_true ((h d hd).symm.trans (hcs d hd))
  · rintro rfl
    simp

end Choice

section Ranked
variable {x : Tree ν} {trees : List (Tree ν)}

/-- All trees cost less than the ceiling. -/
def AllBelow (trees : List (Tree ν)) : Prop := ∀ t ∈ trees, Below t.cost

/-- Nothing in the list is cheaper than what stands before it. -/
def Ascending (trees : List (Tree ν)) : Prop := trees.Pairwise fun t u => u.cheaper t = false

theorem ranked_of_pairs (h : ∀ t ∈ trees, ∀ u ∈ trees, (compare? t.cost u.cost).isSome = true) :
    ranked trees = some (sorted trees) := by
  refine ranked_of_comparable ?_
  unfold comparable
  simpa only [List.all_eq_true] using h

theorem ranked_of_numbers [NumericCosts ν] (h : ∀ t ∈ trees, Number t.cost) :
    ranked trees = some (sorted trees) :=
  ranked_of_pairs fun t ht u hu => NumericCosts.comparable _ _ (h t ht) (h u hu)

variable [LawfulCosts ν]

theorem ranked_of_allBelow (h : AllBelow trees) : ranked trees = some (sorted trees) :=
  ranked_of_pairs fun t ht u hu => LawfulCosts.comparable _ _ (h t ht) (h u hu)

/-- One more insertion into a list, greatest first, with and without `x` in front of what is
cheaper than `x`. -/
theorem insertDown_split {y : Tree ν} {high low : List (Tree ν)} (hx : Below x.cost)
    (hy : Below y.cost) (hb : AllBelow (high ++ low))
    (hhigh : ∀ z ∈ high, z.cheaper x = false) (hlow : ∀ z ∈ low, z.cheaper x = true) :
    ∃ high' low', Ranking.insertDown Tree.cheaper y (high ++ low) = high' ++ low' ∧
      Ranking.insertDown Tree.cheaper y (high ++ x :: low) = high' ++ x :: low' ∧
      (∀ z ∈ high', z.cheaper x = false) ∧ ∀ z ∈ low', z.cheaper x = true := by
  induction high with
  | nil =>
    rw [List.nil_append, List.nil_append, Ranking.insertDown]
    cases hyx : y.cheaper x with
    | true =>
      refine ⟨[], Ranking.insertDown Tree.cheaper y low, rfl, by rw [if_pos rfl]; rfl, by simp, ?_⟩
      intro z hz
      rcases List.mem_cons.1 ((Ranking.insertDown_perm Tree.cheaper y low).subset hz) with rfl | hz
      · exact hyx
      · exact hlow z hz
    | false =>
      refine ⟨[y], low, ?_, by rw [if_neg Bool.false_ne_true]; rfl, by simpa using hyx, hlow⟩
      cases low with
      | nil => rfl
      | cons z low =>
        have hzx := hlow z (List.mem_cons_self ..)
        have hzy : z.cheaper y = true := less_of_less_of_not_less (hb z (by simp)) hx hy hzx hyx
        have hyz : y.cheaper z = false := AsymmetricCosts.asymm _ _ hzy
        rw [Ranking.insertDown, hyz]
        rfl
  | cons z high ih =>
    rw [List.forall_mem_cons] at hhigh
    obtain ⟨high', low', h₁, h₂, h₃, h₄⟩ :=
      ih (fun t ht => hb t (List.mem_cons_of_mem _ ht)) hhigh.2
    rw [List.cons_append, List.cons_append, Ranking.insertDown, Ranking.insertDown]
    cases hyz : y.cheaper z with
    | true =>
      refine ⟨z :: high', low', ?_, ?_, List.forall_mem_cons.2 ⟨hhigh.1, h₃⟩, h₄⟩
      · rw [if_pos rfl, h₁]
        rfl
      · rw [if_pos rfl, h₂]
        rfl
    | false =>
      have hyx : y.cheaper x = false :=
        LawfulCosts.trans _ _ _ hy (hb z (by simp)) hx hyz hhigh.1
      refine ⟨y :: z :: high, low, ?_, ?_, ?_, hlow⟩
      · rw [if_neg Bool.false_ne_true]
        rfl
      · rw [if_neg Bool.false_ne_true]
        rfl
      · exact List.forall_mem_cons.2 ⟨hyx, List.forall_mem_cons.2 hhigh⟩

theorem foldl_insertDown_split {high low : List (Tree ν)} (hx : Below x.cost)
    (ht : AllBelow trees) (hb : AllBelow (high ++ low)) (hhigh : ∀ z ∈ high, z.cheaper x = false)
    (hlow : ∀ z ∈ low, z.cheaper x = true) :
    ∃ high' low', trees.foldl (fun falling y => Ranking.insertDown Tree.cheaper y falling)
        (high ++ low) = high' ++ low' ∧
      trees.foldl (fun falling y => Ranking.insertDown Tree.cheaper y falling)
        (high ++ x :: low) = high' ++ x :: low' ∧
      (∀ z ∈ high', z.cheaper x = false) ∧ ∀ z ∈ low', z.cheaper x = true := by
  induction trees generalizing high low with
  | nil => exact ⟨high, low, rfl, rfl, hhigh, hlow⟩
  | cons y trees ih =>
    obtain ⟨high', low', h₁, h₂, h₃, h₄⟩ :=
      insertDown_split hx (ht y (List.mem_cons_self ..)) hb hhigh hlow
    rw [List.foldl_cons, List.foldl_cons, h₁, h₂]
    refine ih (fun t h => ht t (List.mem_cons_of_mem _ h)) (fun t h => ?_) h₃ h₄
    rw [← h₁] at h
    rcases List.mem_cons.1 ((Ranking.insertDown_perm Tree.cheaper y _).subset h) with rfl | h
    · exact ht t (List.mem_cons_self ..)
    · exact hb t h

/-- The first of several members ends up behind those that are cheaper, in front of all others. -/
theorem sorted_cons (hx : Below x.cost) (ht : AllBelow trees) :
    ∃ lower higher, sorted trees = lower ++ higher ∧ sorted (x :: trees) = lower ++ x :: higher ∧
      (∀ y ∈ lower, y.cheaper x = true) ∧ ∀ y ∈ higher, y.cheaper x = false := by
  unfold sorted Ranking.insertion Ranking.insertAll
  obtain ⟨high, low, h₁, h₂, h₃, h₄⟩ :=
    foldl_insertDown_split hx ht (by simp [AllBelow] : AllBelow ([] ++ [])) (by simp) (by simp)
  refine ⟨low.reverse, high.reverse, ?_, ?_, by simpa using h₄, by simpa using h₃⟩
  · rw [List.reverse_nil, ← List.reverse_append]
    exact congrArg List.reverse h₁
  · refine (congrArg List.reverse h₂).trans ?_
    simp

theorem ascending_sorted (h : AllBelow trees) : Ascending (sorted trees) := by
  induction trees with
  | nil => exact .nil
  | cons x trees ih =>
    obtain ⟨hx, ht⟩ := List.forall_mem_cons.1 h
    obtain ⟨lower, higher, h₁, h₂, h₃, h₄⟩ := sorted_cons hx ht
    have := ih ht
    rw [h₁] at this
    obtain ⟨hl, hh, hlh⟩ := List.pairwise_append.1 this
    rw [h₂]
    refine List.pairwise_append.2 ⟨hl, List.pairwise_cons.2 ⟨h₄, hh⟩, fun y hy z hz => ?_⟩
    rcases List.mem_cons.1 hz with rfl | hz
    · exact AsymmetricCosts.asymm _ _ (h₃ y hy)
    · exact hlh y hy z hz

theorem sorted_cons_of_least (hx : Below x.cost) (ht : AllBelow trees)
    (h : ∀ y ∈ trees, y.cheaper x = false) : sorted (x :: trees) = x :: sorted trees := by
  obtain ⟨lower, higher, h₁, h₂, h₃, -⟩ := sorted_cons hx ht
  cases lower with
  | nil => rw [h₂, h₁]; rfl
  | cons y lower =>
    have hy : y ∈ trees := (sorted_perm trees).subset (by rw [h₁]; simp)
    have := h₃ y (List.mem_cons_self ..)
    rw [h y hy] at this
    cases this

end Ranked

end JoinOrder
