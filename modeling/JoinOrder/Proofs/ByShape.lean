import JoinOrder.Proofs.Governed

/-!
# Rules that go by shape

A rule goes by shape if what it makes of a plan depends on the shape of the plan alone, at least in
sessions of some kind that it does not leave (`Rule.Extensional`). Where an oracle governs the
collaborators reordering is such a rule, for plans whose projections are to columns that are there, as
long as what is remembered of their nodes is right (`Oracle.Governs.extensional_rule`).
-/

namespace JoinOrder

namespace Rule
variable {ν σ : Type} (context : Context ν σ)

/-- What the rule makes of a plan goes by the shape of the plan, as long as plan and session are as
`I` says, and it leads to nothing else. -/
structure Extensional (I : Node → Session ν σ → Prop) (rule : Rule ν σ) : Prop where
  keeps {p q : Node} {a b : Session ν σ} (hp : I p a) (hq : rule.apply context p a = .ok q b) : I q b
  shape {p p' q : Node} {a a' b : Session ν σ} (hp : I p a) (hp' : I p' a')
    (hshape : p'.shape = p.shape) (hq : rule.apply context p a = .ok q b) :
    ∃ q' b', rule.apply context p' a' = .ok q' b' ∧ q'.shape = q.shape

end Rule

theorem Dresses.wellFormed {config : Config} {n q : Node} {s : Solution} (h : Dresses config n s q)
    (hs : s.plan.WellFormed) : q.WellFormed := by
  obtain ⟨filtered, hf, hq⟩ := h
  have hfw : filtered.WellFormed := by
    split at hf
    · rw [hf]
      exact hs
    · obtain ⟨tag, rfl⟩ := hf
      exact ⟨rfl, hs⟩
  split at hq
  · obtain ⟨hcols, tag, rfl⟩ := hq
    exact ⟨Pricing.missing?_project hcols, hfw⟩
  · rw [hq]
    exact hfw

theorem Regrouped.wellFormed {R : Node → Node → Prop} {n q : Node} (h : Regrouped R n q)
    (hR : ∀ m q, R m q → m.WellFormed → q.WellFormed) (hn : n.WellFormed) : q.WellFormed := by
  induction h with
  | member _ hR' => exact hR _ _ hR' hn
  | join _ _ _ ihl ihr => exact ⟨ihl hn.1, ihr hn.2⟩

/-- Searching adds only joins, which are well-formed over well-formed inputs. -/
theorem Search.wellFormed_of_solve {ν σ : Type} [CostScale ν] {s : Search ν σ} {members : List Node}
    {residuals : List Expr} {a b : Session ν σ} {solution : Solution}
    (h : s.solve members residuals a = .ok (some solution) b) (hm : ∀ m ∈ members, m.WellFormed) :
    solution.plan.WellFormed := by
  by_cases hne : members = []
  · subst hne
    cases h
  · obtain ⟨t, left, -, hfound, hleaves, -⟩ := journal_of_solve hne h
    cases hfound
    exact JoinTree.wellFormed_plan fun m hmem => hm m (hleaves.mem_iff.1 hmem)

namespace Reorder
variable {ν σ : Type} [CostScale ν]

/-- Reordering makes no projection to columns that its input does not have. -/
theorem wellFormed (context : Context ν σ) : Invariant context False fun n q =>
    q.StandsFor n ∧ (n.WellFormed → q.WellFormed) where
  refl n := ⟨.refl n, fun h => h⟩
  unary tag tag' op h :=
    ⟨h.1.unary tag tag' op, fun hn => ⟨funext h.1.produces ▸ hn.1, h.2 hn.2⟩⟩
  outer tag tag' hj hl hr :=
    ⟨hl.1.join hr.1 tag tag' _, fun hn => ⟨hl.2 hn.1, hr.2 hn.2⟩⟩
  kept hn ha h :=
    ⟨(standsFor context).kept hn ha (h.imp fun _ _ _ hm => hm.1), h.wellFormed fun _ _ hm => hm.2⟩
  joined {n q ms a b s} hn ha hms hs hsmooth hq := by
    refine ⟨(standsFor context).joined hn ha (hms.imp fun _ _ hm => hm.1) hs hsmooth hq, fun hw => ?_⟩
    refine hq.wellFormed (Search.wellFormed_of_solve hs fun m hm => ?_)
    obtain ⟨k, hk, hkm⟩ := exists_of_mem_right hms hm
    exact hkm.2 (Node.wellFormed_of_members hw k hk)

end Reorder

/-- The plan is well-formed, its nodes stand in the cells of a heap, and the session fits the heap. -/
def Session.Lodges {ν σ : Type} (estimate : Derivation ν) (n : Node) (a : Session ν σ) : Prop :=
  n.WellFormed ∧ ∃ h, a.Accords estimate h ∧ h.Holds n

/-- Where an oracle governs the collaborators the rule goes by shape. -/
theorem Oracle.Governs.extensional_rule {ν σ : Type} [CostScale ν] {context : Context ν σ}
    {o : Oracle ν} (hgov : o.Governs context.estimator context.model) :
    Reorder.rule.Extensional context (Session.Lodges o.estimate) where
  keeps {n q a b} := by
    rintro ⟨hw, h, ha, hn⟩ hq
    obtain ⟨_, _, k, _, -, hcopies, hb, -⟩ :=
      hgov.rewrite_ok hgov (.refl o) rfl hw ⟨hn, hn, rfl⟩ ha ha hq
    exact ⟨((Reorder.wellFormed context).rewrite False.elim hq).2 hw, k, hb, hcopies.left⟩
  shape {n n' q a a' b} := by
    rintro ⟨hw, h, ha, hn⟩ ⟨-, h', ha', hn'⟩ hshape hq
    obtain ⟨q', b', _, _, hq', hcopies, -⟩ := hgov.rewrite_ok hgov (.refl o) rfl hw
      ⟨hn, hn', Node.bare_eq_iff.2 hshape.symm⟩ ha ha' hq
    exact ⟨q', b', hq', (Node.bare_eq_iff.1 hcopies.bare).symm⟩

/-- The plan without a limit at its root. -/
def Node.unlimited : Node → Node
  | .unary _ (.limit _) input => input
  | n => n

theorem Node.shape_unlimited {m n : Node} (h : m.shape = n.shape) :
    m.unlimited.shape = n.unlimited.shape := by
  cases m with
  | scan => cases n <;> simp_all [shape, unlimited]
  | join => cases n <;> simp_all [shape, unlimited]
  | unary tag op i =>
    cases n with
    | scan => cases h
    | join => cases h
    | unary tag' op' i' =>
      obtain ⟨rfl, hi⟩ := Shape.unary.inj h
      cases op with
      | limit count => exact hi
      | filter conditions => exact h
      | project columns => exact h

/-- The rule that takes a limit off the root. -/
def Rule.unlimit {ν σ : Type} : Rule ν σ where
  name := "unlimit"
  apply _ n := return n.unlimited

theorem Rule.extensional_unlimit {ν σ : Type} (context : Context ν σ) (estimate : Derivation ν) :
    unlimit.Extensional context (Session.Lodges estimate) where
  keeps {n q a b} hn hq := by
    obtain ⟨rfl, rfl⟩ := Action.pure_eq_ok.1 hq
    unfold Node.unlimited
    split
    · obtain ⟨⟨-, hw⟩, h, ha, hh⟩ := hn
      exact ⟨hw, h, ha, (Heap.holds_unary.1 hh).2⟩
    · exact hn
  shape {n n' q a a' b} _ _ hshape hq := by
    obtain ⟨rfl, rfl⟩ := Action.pure_eq_ok.1 hq
    exact ⟨_, a', rfl, Node.shape_unlimited hshape⟩

end JoinOrder
