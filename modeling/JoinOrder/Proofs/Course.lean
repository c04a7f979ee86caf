import JoinOrder.Proofs.Dealing
import JoinOrder.Proofs.Pricing

/-!
# The course of a search

A course lists the remaining members in the order in which a search takes them, and records why each
was taken: it made one of the cheapest joins, and where another member would have made as cheap a
join, that member does not cost less. This says nothing about the order in which the members were
looked at. Every search has a course (`course_of_growAll`). Conversely, ranking the members by cost
from the order in which a course takes them makes the search follow that course
(`growAll_of_course`).
-/

namespace JoinOrder

open CostScale

/-- A join made by a search: the edges that it carries, and the conditions that it takes. -/
structure Step where
  edges : List Edge
  takes : Expr → Bool

namespace Pricing
variable {ν : Type} [CostScale ν]

/-- The search goes on from the tree `t` with these pending conditions: it takes the members `F` in
order, makes the joins `steps`, ends with the trees `plans` and leaves the conditions `left`. -/
inductive Course (p : Pricing ν) (E : List Edge) :
    Tree ν → List Expr → List (Tree ν) → List Step → List Node → List Expr → Prop
  | join {t x : Tree ν} {pending left : List Expr} {F : List (Tree ν)} {steps : List Step}
      {plans : List Node} (hc : connecting E t.plan x.plan ≠ [])
      (hbest : ∀ y ∈ F, connecting E t.plan y.plan ≠ [] →
        less (p.joined E t pending y).cost (p.joined E t pending x).cost = false ∧
          (y.cheaper x = true →
            less (p.joined E t pending x).cost (p.joined E t pending y).cost = true))
      (rest : Course p E (p.joined E t pending x) (pendingAbove pending t.plan x.plan) F steps plans
        left) :
      Course p E t pending (x :: F)
        (⟨connecting E t.plan x.plan, (·.coveredBy t.plan x.plan)⟩ :: steps) plans left
  | close {t x : Tree ν} {pending left : List Expr} {F : List (Tree ν)} {steps : List Step}
      {plans : List Node} (hn : ∀ y ∈ x :: F, connecting E t.plan y.plan = [])
      (hleast : ∀ y ∈ F, y.cheaper x = false) (rest : Course p E x pending F steps plans left) :
      Course p E t pending (x :: F) steps (t.plan :: plans) left
  | finish {t : Tree ν} {pending : List Expr} : Course p E t pending [] [] [t.plan] pending

variable {p : Pricing ν} {E : List Edge} {t x : Tree ν} {pending left : List Expr}
  {F others : List (Tree ν)} {steps : List Step} {plans : List Node} {k : Nat} {g : Growth ν}

theorem grow_of_none (h : Search.cheapest? (p.candidates E t pending 0 others) = none) :
    p.grow E k ⟨t, others, pending⟩ = ⟨t, others, pending⟩ := by
  cases k with
  | zero => rfl
  | succ k => rw [grow, h]

theorem grow_of_some {ms ns : List (Tree ν)}
    (h : Search.cheapest? (p.candidates E t pending 0 (ms ++ x :: ns)) =
      some (p.candidate E t pending ms.length x)) :
    p.grow E (k + 1) ⟨t, ms ++ x :: ns, pending⟩ =
      p.grow E k ⟨p.joined E t pending x, ms ++ ns, pendingAbove pending t.plan x.plan⟩ := by
  rw [grow, h]
  exact congrArg _ (commit_candidate ms ns)

theorem growAll_succ (seed : Tree ν) (others : List (Tree ν)) (pending : List Expr) (k : Nat) :
    p.growAll E (k + 1) (seed :: others) pending =
      let g := p.grow E others.length ⟨seed, others, pending⟩
      (g.tree.plan :: (p.growAll E k g.remaining g.pending).1,
        (p.growAll E k g.remaining g.pending).2) := rfl

theorem growAll_nil : p.growAll E k [] pending = ([], pending) := by
  cases k <;> rfl

section
variable (hp : p.Lawful)
include hp

theorem joined_below (ht : Below t.cost) (hx : Below x.cost) :
    Below (p.joined E t pending x).cost := hp.join_below _ _ _ ht hx

theorem candidates_below (ht : Below t.cost) (hb : AllBelow others) (i : Nat) :
    ∀ d ∈ p.candidates E t pending i others, Below d.tree.cost :=
  (forall_mem_candidates (P := Below)).2 fun y hy _ => joined_below hp ht (hb y hy)

end

variable [LawfulCosts ν] (hp : p.Lawful)
include hp

theorem course_of_grow (hk : others.length ≤ k) (ht : Below t.cost) (hb : AllBelow others)
    (hs : Ascending others) :
    (p.grow E k ⟨t, others, pending⟩).remaining.Sublist others ∧
      (∀ y ∈ (p.grow E k ⟨t, others, pending⟩).remaining,
        connecting E (p.grow E k ⟨t, others, pending⟩).tree.plan y.plan = []) ∧
      ∀ F steps plans left, F.Perm (p.grow E k ⟨t, others, pending⟩).remaining →
        Course p E (p.grow E k ⟨t, others, pending⟩).tree (p.grow E k ⟨t, others, pending⟩).pending
          F steps plans left →
        ∃ F' steps', F'.Perm others ∧ Course p E t pending F' steps' plans left := by
  induction k generalizing t others pending with
  | zero =>
    have hnil := List.length_eq_zero_iff.1 (Nat.le_zero.1 hk)
    subst hnil
    refine ⟨.refl _, ?_, fun F steps _ _ hF hc => ⟨F, steps, hF, hc⟩⟩
    intro y hy
    cases hy
  | succ k ih =>
    have hbelow : ∀ d ∈ p.candidates E t pending 0 others, Below d.tree.cost :=
      candidates_below hp ht hb 0
    cases hc : Search.cheapest? (p.candidates E t pending 0 others) with
    | none =>
      rw [grow_of_none hc]
      refine ⟨.refl _, ?_, fun F steps _ _ hF hc => ⟨F, steps, hF, hc⟩⟩
      exact candidates_eq_nil.1 ((cheapest?_eq_none_iff hbelow).1 hc)
    | some c =>
      obtain ⟨pre, post, hsplit, hpre, hpost⟩ := (cheapest?_eq_some_iff hbelow).1 hc
      obtain ⟨ms, x, ns, rfl, hx, rfl, rfl, rfl⟩ := split_of_candidates hsplit
      rw [Nat.zero_add] at hc
      rw [grow_of_some hc]
      replace hpre :=
        (forall_mem_candidates (P := fun c => less (p.joined E t pending x).cost c = true)).1 hpre
      replace hpost :=
        (forall_mem_candidates (P := fun c => less c (p.joined E t pending x).cost = false)).1 hpost
      have hsub : (ms ++ ns).Sublist (ms ++ x :: ns) :=
        (List.sublist_cons_self x ns).append_left ms
      have hlen : (ms ++ ns).length ≤ k := by
        simp only [List.length_append, List.length_cons] at hk ⊢
        omega
      obtain ⟨hs', hn, hlift⟩ := @ih (p.joined E t pending x)
        (pendingAbove pending t.plan x.plan) (ms ++ ns) hlen (joined_below hp ht (hb x (by simp)))
        (fun y hy => hb y (hsub.subset hy)) (hs.sublist hsub)
      refine ⟨hs'.trans hsub, hn, fun F steps plans left hF hcourse => ?_⟩
      obtain ⟨F', steps', hF', hcourse⟩ := hlift F steps plans left hF hcourse
      refine ⟨x :: F', _, (hF'.cons x).trans List.perm_middle.symm, .join hx ?_ hcourse⟩
      intro y hy hyc
      rcases List.mem_append.1 (hF'.subset hy) with hy | hy
      · exact ⟨AsymmetricCosts.asymm _ _ (hpre y hy hyc), fun _ => hpre y hy hyc⟩
      · refine ⟨hpost y hy hyc, fun hyx => ?_⟩
        have := (List.pairwise_cons.1 (List.pairwise_append.1 hs).2.1).1 y hy
        rw [this] at hyx
        cases hyx

/-- Every search from ranked members has a course. -/
theorem course_of_growAll (hk : others.length < k) (ht : Below t.cost) (hb : AllBelow others)
    (hs : Ascending others) : ∃ F steps, F.Perm others ∧
      Course p E t pending F steps (p.growAll E k (t :: others) pending).1
        (p.growAll E k (t :: others) pending).2 := by
  induction k generalizing t others pending with
  | zero => omega
  | succ k ih =>
    obtain ⟨hsub, hn, hlift⟩ := @course_of_grow _ _ _ E t pending others _ _ hp le_rfl ht hb hs
    rw [growAll_succ]
    generalize p.grow E others.length ⟨t, others, pending⟩ = g at hsub hn hlift ⊢
    dsimp only
    cases hr : g.remaining with
    | nil =>
      rw [growAll_nil]
      exact hlift [] [] _ _ (by rw [hr]) .finish
    | cons x rest =>
      rw [hr] at hsub hn hlift
      have hlen : rest.length < k := by
        have := hsub.length_le
        rw [List.length_cons] at this
        omega
      obtain ⟨hleast, hrest⟩ := List.pairwise_cons.1 (hs.sublist hsub)
      obtain ⟨hxb, hrb⟩ := List.forall_mem_cons.1 fun y hy => hb y (hsub.subset hy)
      obtain ⟨F, steps, hF, hcourse⟩ := @ih x g.pending rest hlen hxb hrb hrest
      refine hlift (x :: F) steps _ _ (hF.cons x) (.close ?_ ?_ hcourse)
      · exact fun y hy => hn y ((hF.cons x).subset hy)
      · exact fun y hy => hleast y (hF.subset hy)

/-- The search follows a course if the members that it lists are ranked from that order. -/
theorem growAll_of_course (h : Course p E t pending F steps plans left) (hk : F.length < k)
    (ht : Below t.cost) (hb : AllBelow F) :
    p.growAll E k (t :: sorted F) pending = (plans, left) := by
  have hlen : (sorted F).length = F.length := (sorted_perm F).length_eq
  obtain ⟨k, rfl⟩ := Nat.exists_eq_succ_of_ne_zero (by omega : k ≠ 0)
  rw [growAll_succ, hlen]
  replace hk : F.length ≤ k := by omega
  induction h generalizing k with
  | @join t x pending left F steps plans hc hbest _ ih =>
    obtain ⟨hxb, hFb⟩ := List.forall_mem_cons.1 hb
    obtain ⟨lower, higher, hF, hxF, hlower, -⟩ := sorted_cons hxb hFb
    have hsub : ∀ {y}, y ∈ lower ++ higher → y ∈ F := fun hy =>
      (sorted_perm F).subset (hF ▸ hy)
    have hchoice : Search.cheapest? (p.candidates E t pending 0 (lower ++ x :: higher)) =
        some (p.candidate E t pending lower.length x) := by
      refine (cheapest?_eq_some_iff (candidates_below hp ht ?_ 0)).2
        ⟨p.candidates E t pending 0 lower, p.candidates E t pending (lower.length + 1) higher, ?_, ?_, ?_⟩
      · exact fun y hy => hb y ((sorted_perm _).subset (hxF ▸ hy))
      · rw [candidates_append, candidates, if_neg hc, Nat.zero_add]
      · refine (forall_mem_candidates (P := fun c => less _ c = true)).2 fun y hy hyc => ?_
        exact (hbest y (hsub (List.mem_append_left _ hy)) hyc).2 (hlower y hy)
      · refine (forall_mem_candidates (P := fun c => less c _ = false)).2 fun y hy hyc => ?_
        exact (hbest y (hsub (List.mem_append_right _ hy)) hyc).1
    rw [List.length_cons] at hk
    rw [hxF, List.length_cons, grow_of_some hchoice, ← hF]
    exact ih (joined_below hp ht hxb) hFb (sorted_perm F).length_eq k (by omega)
  | @close t x pending left F steps plans hn hleast _ ih =>
    obtain ⟨hxb, hFb⟩ := List.forall_mem_cons.1 hb
    rw [sorted_cons_of_least hxb hFb hleast]
    have hnone : p.candidates E t pending 0 (x :: sorted F) = [] :=
      candidates_eq_nil.2 fun y hy => hn y (((sorted_perm F).cons x).subset hy)
    rw [grow_of_none (by rw [hnone]; rfl)]
    rw [List.length_cons] at hk
    obtain ⟨k, rfl⟩ := Nat.exists_eq_succ_of_ne_zero (by omega : k ≠ 0)
    have := ih hxb hFb (sorted_perm F).length_eq k (by omega)
    simp only [growAll_succ, (sorted_perm F).length_eq, Prod.mk.injEq] at this ⊢
    exact ⟨by rw [← this.1], this.2⟩
  | finish =>
    have : sorted ([] : List (Tree ν)) = [] := List.length_eq_zero_iff.1 (sorted_perm []).length_eq
    rw [this, grow_of_none rfl]
    simp only [growAll_nil]

end Pricing

end JoinOrder
