import JoinOrder.Proofs.Forest
import JoinOrder.Proofs.StrictCosts

/-!
# Greedy choices

A search puts its members in ascending order of cost once, and never again: what remains at any
later moment is a part of that list. So every tree begins with a cheapest of the members left, the
one given first if there are several. A tree grows by the first of its cheapest joins until none of
the remaining members is connected with it (`Search.choices_of_solve`).

Costs of members need not be below the ceiling for that. It is enough that they are numbers.
-/

namespace JoinOrder

open CostScale

namespace Ranking
variable {α : Type} {less : α → α → Bool} {items : List α} {x y : α}

/-- Of two items of a list, one is less than the other, or it is not greater and comes first. -/
def Precedes (less : α → α → Bool) (items : List α) (x y : α) : Prop :=
  less x y = true ∨ less y x = false ∧ [x, y].Sublist items

theorem Precedes.mono {items' : List α} (h : Precedes less items x y)
    (hsub : items.Sublist items') : Precedes less items' x y :=
  h.imp_right fun h => ⟨h.1, h.2.trans hsub⟩

/-- Where `p` holds, items compare as in a linear preorder. -/
structure LinearOn (less : α → α → Bool) (p : α → Prop) : Prop where
  asymm {x y : α} : less x y = true → less y x = false
  trans {x y z : α} (hx : p x) (hy : p y) (hz : p z) : less x y = false → less y z = false →
    less x z = false

namespace LinearOn
variable {p : α → Prop} (h : LinearOn less p)
include h

theorem not_less_of_precedes (hxy : Precedes less items x y) : less y x = false := by
  rcases hxy with hless | ⟨hnot, -⟩
  · exact h.asymm hless
  · exact hnot

/-- One more insertion into a list, greatest first. -/
theorem insertDown_stable {falling : List α} (hx : p x) (hp : ∀ y ∈ falling, p y)
    (hmem : ∀ y ∈ falling, y ∈ items) (hf : falling.Pairwise fun y z => Precedes less items z y) :
    (insertDown less x falling).Pairwise fun y z => Precedes less (items ++ [x]) z y := by
  induction falling with
  | nil => exact List.pairwise_singleton ..
  | cons y rest ih =>
    obtain ⟨hy, hrest⟩ := List.pairwise_cons.1 hf
    rw [List.forall_mem_cons] at hp hmem
    have hsub : items.Sublist (items ++ [x]) := List.sublist_append_left ..
    have hlast : ∀ z ∈ items, [z, x].Sublist (items ++ [x]) := fun z hz =>
      (List.singleton_sublist.2 hz).append (List.Sublist.refl [x])
    rw [insertDown]
    split
    · rename_i hxy
      refine List.pairwise_cons.2 ⟨fun z hz => ?_, ih hp.2 hmem.2 hrest⟩
      rcases List.mem_cons.1 ((insertDown_perm less x rest).subset hz) with rfl | hz
      · exact .inl hxy
      · exact (hy z hz).mono hsub
    · rename_i hxy
      rw [Bool.not_eq_true] at hxy
      -- what stands behind `y` is not greater than `y`, and so not greater than `x`
      have hxz : ∀ z ∈ y :: rest, less x z = false := List.forall_mem_cons.2 ⟨hxy, fun z hz =>
        h.trans hx hp.1 (hp.2 z hz) hxy (h.not_less_of_precedes (hy z hz))⟩
      refine List.pairwise_cons.2 ⟨fun z hz => .inr ⟨hxz z hz, ?_⟩, hf.imp fun hzy => hzy.mono hsub⟩
      exact hlast z (List.forall_mem_cons.2 hmem z hz)

/-- Insertion puts items in ascending order and leaves items of equal rank in order. -/
theorem insertion_stable (hp : ∀ x ∈ items, p x) :
    (insertion less items).Pairwise (Precedes less items) := by
  have fold : ∀ later done falling : List α, (∀ x ∈ done ++ later, p x) → falling.Perm done →
      (falling.Pairwise fun y z => Precedes less done z y) →
        (later.foldl (fun falling x => insertDown less x falling) falling).Pairwise
          fun y z => Precedes less (done ++ later) z y := by
    intro later
    induction later with
    | nil =>
      intro done falling _ _ hf
      rwa [List.append_nil]
    | cons x later ih =>
      intro done falling hp hperm hf
      rw [List.append_cons]
      rw [List.append_cons] at hp
      refine ih (done ++ [x]) _ hp ?_ ?_
      · exact (insertDown_perm less x falling).trans
          ((hperm.cons x).trans (List.perm_append_singleton x done).symm)
      · exact h.insertDown_stable (hp x (by simp)) (fun y hy => hp y (by simp [hperm.subset hy]))
          (fun y hy => hperm.subset hy) hf
  unfold insertion insertAll
  rw [List.pairwise_reverse]
  exact fold items [] [] hp (.refl _) .nil

end LinearOn

end Ranking

open Ranking

theorem sorted_stable {ν : Type} [CostScale ν] [LinearCosts ν] {trees : List (Tree ν)}
    (hn : ∀ t ∈ trees, Number t.cost) :
    (sorted trees).Pairwise (Precedes Tree.cheaper trees) := by
  have hlinear : LinearOn (Tree.cheaper (ν := ν)) fun t => Number t.cost :=
    ⟨AsymmetricCosts.asymm _ _, LinearCosts.trans _ _ _⟩
  exact hlinear.insertion_stable hn

namespace Search
variable {ν σ : Type} {s : Search ν σ} {members : List Node} {residuals : List Expr}
  {a b d : Session ν σ} {g : Growth ν}

variable [CostScale ν]

theorem next_iff_of_join {cs : List (Candidate ν)} {c : Candidate ν} {m : Growth ν × Session ν σ}
    (h : s.candidates g.tree g.pending 0 g.remaining a = .ok cs b) (hc : cheapest? cs = some c) :
    s.Next (g, a) m ↔ m = (g.commit c, b) := by
  constructor
  · exact eq_of_next_of_join h hc
  · rintro rfl
    exact .join h hc

theorem next_iff_of_close {cs : List (Candidate ν)} {m : Growth ν × Session ν σ}
    (h : s.candidates g.tree g.pending 0 g.remaining a = .ok cs b) (hc : cheapest? cs = none) :
    s.Next (g, a) m ↔
      ∃ seed others, g.remaining = seed :: others ∧ m = (⟨seed, others, g.pending⟩, b) := by
  constructor
  · exact eq_of_next_of_close h hc
  · rintro ⟨seed, others, hr, rfl⟩
    exact .close h hc hr

/-- A step takes members from the remaining ones and leaves the others in order. -/
theorem Next.sublist {m m' : Growth ν × Session ν σ} (h : s.Next m m') :
    m'.1.remaining.Sublist m.1.remaining := by
  cases h with
  | join => exact List.eraseIdx_sublist ..
  | close _ _ hr =>
    rw [hr]
    exact List.sublist_cons_self ..

theorem sublist_of_reach {m m' : Growth ν × Session ν σ} (h : Relation.ReflTransGen s.Next m m') :
    m'.1.remaining.Sublist m.1.remaining := by
  induction h with
  | refl => exact .refl _
  | tail _ hn ih => exact hn.sublist.trans ih

/-- A run passes through every moment that can be reached from its first one. -/
theorem Runs.of_reach {plans : List Node} {left : List Expr} {m m' : Growth ν × Session ν σ}
    (h : Relation.ReflTransGen s.Next m m') (hr : s.Runs m.1 m.2 plans left d) :
    ∃ later, s.Runs m'.1 m'.2 later left d := by
  induction h using Relation.ReflTransGen.head_induction_on generalizing plans with
  | refl => exact ⟨plans, hr⟩
  | head hn _ ih =>
    cases hr with
    | join hcs hc rest =>
      obtain rfl := eq_of_next_of_join hcs hc hn
      exact ih rest
    | close hcs hc hr rest =>
      obtain ⟨seed, others, hr', rfl⟩ := eq_of_next_of_close hcs hc hn
      rw [hr] at hr'
      cases hr'
      exact ih rest
    | finish hcs hc hr =>
      obtain ⟨seed, others, hr', -⟩ := eq_of_next_of_close hcs hc hn
      rw [hr] at hr'
      cases hr'

theorem Runs.candidates {plans : List Node} {left : List Expr} (h : s.Runs g a plans left d) :
    ∃ cs b, s.candidates g.tree g.pending 0 g.remaining a = .ok cs b := by
  cases h with
  | join hcs => exact ⟨_, _, hcs⟩
  | close hcs => exact ⟨_, _, hcs⟩
  | finish hcs => exact ⟨_, _, hcs⟩

variable [LinearCosts ν]

/-- What follows the moment `(g, a)` if the candidates there are `cs`. -/
theorem next_of_candidates {cs : List (Candidate ν)}
    (h : s.candidates g.tree g.pending 0 g.remaining a = .ok cs b)
    (hbelow : ∀ c ∈ cs, Below c.tree.cost) :
    (∃ pre c post, cs = pre ++ c :: post ∧ (∀ k ∈ pre, less c.tree.cost k.tree.cost = true) ∧
        (∀ k ∈ cs, AtMost c.tree.cost k.tree.cost) ∧ ∀ m, s.Next (g, a) m ↔ m = (g.commit c, b)) ∨
      (∀ m ∈ g.remaining, connecting s.edges g.tree.plan m.plan = []) ∧ ∀ m, s.Next (g, a) m ↔
        ∃ seed others, g.remaining = seed :: others ∧ m = (⟨seed, others, g.pending⟩, b) := by
  cases hc : cheapest? cs with
  | none =>
    have hnil : cs = [] := (cheapest?_eq_none_iff hbelow).1 hc
    exact .inr ⟨(candidates_eq_nil h).1 hnil, fun m => next_iff_of_close h hc⟩
  | some c =>
    obtain ⟨pre, post, hcs, hpre, hpost⟩ := (cheapest?_eq_some_iff hbelow).1 hc
    refine .inl ⟨pre, c, post, hcs, hpre, fun k hk => ?_, fun m => next_iff_of_join h hc⟩
    have hk' : Number k.tree.cost := LinearCosts.number _ (hbelow k hk)
    have hc' : Number c.tree.cost := LinearCosts.number _ (hbelow c (by simp [hcs]))
    refine atMost_of_not_less hc' hk' ?_
    rw [hcs, List.mem_append, List.mem_cons] at hk
    rcases hk with hk | rfl | hk
    · exact AsymmetricCosts.asymm _ _ (hpre k hk)
    · cases hless : less k.tree.cost k.tree.cost with
      | false => rfl
      | true => exact hless.symm.trans (AsymmetricCosts.asymm _ _ hless)
    · exact hpost k hk

/-- In a search whose members cost numbers, and in which every join costs less than the ceiling, what
remains is always a part of the members in stable order of cost. At every moment there is one
candidate for each remaining member connected with the tree, made with what the tree costs. If there
are any, the first of the cheapest is chosen. Else the next tree begins with the first of what
remains. -/
theorem choices_of_solve {found : Option Solution}
    (hn : ∀ trees u, members.mapM s.appraise a = .ok trees u → ∀ t ∈ trees, Number t.cost)
    (ha : s.Affordable members residuals a) (h : s.solve members residuals a = .ok found b) :
    ∃ trees sorted plans left u v, members.mapM s.appraise a = .ok trees u ∧
      trees.map Tree.plan = members ∧
      (∀ t ∈ trees, ∃ e e', s.model.base s.estimator t.plan e = .ok t.cost e') ∧
      sorted.Perm trees ∧ sorted.Pairwise (Precedes Tree.cheaper trees) ∧
      (Assembly.assemble plans left v.supply).1 = found ∧
      ∀ first rest, sorted = first :: rest →
        s.Runs ⟨first, rest, residuals⟩ u plans left v ∧
        ∀ g d, Relation.ReflTransGen s.Next (⟨first, rest, residuals⟩, u) (g, d) →
          g.remaining.Sublist sorted ∧ ∃ cs e,
            s.candidates g.tree g.pending 0 g.remaining d = .ok cs e ∧
            List.Forall₂ (Candidate.Joins s g.tree g.pending)
              (connectedFrom s.edges g.tree.plan 0 g.remaining) cs ∧
            ((∃ pre c post, cs = pre ++ c :: post ∧
                (∀ k ∈ pre, less c.tree.cost k.tree.cost = true) ∧
                (∀ k ∈ cs, AtMost c.tree.cost k.tree.cost) ∧
                ∀ m, s.Next (g, d) m ↔ m = (g.commit c, e)) ∨
              (∀ m ∈ g.remaining, connecting s.edges g.tree.plan m.plan = []) ∧
                ∀ m, s.Next (g, d) m ↔ ∃ seed others, g.remaining = seed :: others ∧
                  m = (⟨seed, others, g.pending⟩, e)) := by
  unfold solve at h
  obtain ⟨trees, u, htrees, h⟩ := Action.bind_eq_ok.1 h
  obtain ⟨order, _, hr, h⟩ := Action.bind_eq_ok.1 h
  obtain ⟨horder, rfl⟩ := ranking_eq_ok.1 hr
  obtain ⟨⟨plans, left⟩, v, hgrow, h⟩ := Action.bind_eq_ok.1 h
  obtain ⟨w, hfound, -⟩ := Action.onPart_eq_ok.1 h
  have hassemble := congrArg Prod.fst (Action.ofState_eq_ok.1 hfound)
  have hstable := sorted_stable (hn trees u htrees)
  obtain rfl := Option.some.inj ((ranked_of_numbers (hn trees u htrees)).symm.trans horder)
  refine ⟨trees, sorted trees, plans, left, u, v, htrees, map_plan_of_appraise htrees,
    base_of_mem_appraise htrees, sorted_perm trees, hstable, hassemble, ?_⟩
  intro first rest hr
  have hne : members ≠ [] := by
    rw [← map_plan_of_appraise htrees]
    intro hnil
    have hlen := (sorted_perm trees).length_eq
    rw [hr, List.map_eq_nil_iff.1 hnil] at hlen
    cases hlen
  obtain ⟨first', rest', hr', hrun⟩ := exists_runs hne htrees horder hgrow
  obtain ⟨rfl, rfl⟩ := List.cons.inj (hr.symm.trans hr')
  refine ⟨hrun, fun g d hreach => ⟨?_, ?_⟩⟩
  · rw [hr]
    exact (sublist_of_reach hreach).trans (List.sublist_cons_self ..)
  · obtain ⟨later, hlater⟩ := hrun.of_reach hreach
    obtain ⟨cs, e, hcs⟩ := hlater.candidates
    have hbelow := ha trees first rest u htrees (hr ▸ horder) (g, d) hreach cs e hcs
    exact ⟨cs, e, hcs, candidates_spec hcs, next_of_candidates hcs hbelow⟩

theorem choices_of_solve_fourTables : ∃ (found : Option Solution) (b u v : Session ℕ Unit)
    (trees rest : List (Tree ℕ)) (first : Tree ℕ) (plans : List Node) (left : List Expr),
    triangle.solve fourTables [] (.unused 4) = .ok found b ∧
      fourTables.mapM triangle.appraise (.unused 4) = .ok trees u ∧
      trees.map Tree.plan = fourTables ∧ (first :: rest).Perm trees ∧
      (first :: rest).Pairwise (Precedes Tree.cheaper trees) ∧
      triangle.Runs ⟨first, rest, []⟩ u plans left v ∧
      (Assembly.assemble plans left v.supply).1 = found := by
  obtain ⟨found, b, h⟩ := Action.exists_of_result? (x := triangle.solve fourTables [])
    (a := .unused 4) (by decide +kernel)
  have hn : ∀ trees u, fourTables.mapM triangle.appraise (.unused 4) = .ok trees u →
      ∀ t ∈ trees, Number t.cost := fun _ _ _ _ _ => rfl
  have ha : triangle.Affordable fourTables [] (.unused 4) :=
    affordable_of_less (fun _ _ _ _ _ _ => less_of_constant (by decide)) _ _ _
  obtain ⟨trees, sorted, plans, left, u, v, htrees, hplans, -, hperm, hsorted, hfound, hrun⟩ :=
    choices_of_solve hn ha h
  cases sorted with
  | nil =>
    rw [← hperm.nil_eq] at hplans
    cases hplans
  | cons first rest =>
    exact ⟨found, b, u, v, trees, rest, first, plans, left, h, htrees, hplans, hperm, hsorted,
      (hrun first rest rfl).1, hfound⟩

end Search

end JoinOrder
