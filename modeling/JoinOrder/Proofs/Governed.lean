import JoinOrder.Proofs.Oracles
import JoinOrder.Proofs.RelatedRewriting

/-!
# Runs that oracles govern

Two runs on plans of one shape, governed by oracles that match, take the same course
(`Oracle.Governs.simulates`). It does not matter what is remembered, where nodes stand and which of
them are shared: each of the runs has a heap of its own, and the world in which they are compared is
the pair of the two. So reordering respects equality of plans (`Oracle.Governs.rewrite_same`). If the
second oracle answers where the first fails, the second run goes on where the first stops.
-/

namespace JoinOrder

/-- Plans of one shape, each in its own heap. -/
structure Copies (w : Heap × Heap) (m n : Node) : Prop where
  left : w.1.Holds m
  right : w.2.Holds n
  bare : m.bare = n.bare

theorem Copies.mono {w w' : Heap × Heap} {m n : Node} (h : Copies w m n) (hw : World.Grows w w') :
    Copies w' m n := ⟨h.left.mono hw.1, h.right.mono hw.2, h.bare⟩

def recalling {ν : Type} (σ τ : Type) (oneSided : Prop) (o o' : Oracle ν) (w : Heap × Heap) :
    Correspondence Unit (Estimates ν σ) (Estimates ν τ) :=
  beside (Estimates.Accords o.estimate w.1) (Estimates.Accords o'.estimate w.2) oneSided

/-- Both supplies give out the next cells of the heaps, and what is remembered is right. -/
def governed {ν : Type} (σ τ : Type) (oneSided : Prop) (o o' : Oracle ν) :
    Correspondence (Heap × Heap) (Session ν σ) (Session ν τ) :=
  .sessions (fun w s t => s.Fits w.1 ∧ t.Fits w.2) (recalling σ τ oneSided o o') True

/-- The session fits the heap: new nodes go to the next cell, and what is remembered is right. -/
structure Session.Accords {ν σ : Type} (estimate : Derivation ν) (h : Heap) (a : Session ν σ) :
    Prop where
  supply : a.supply.Fits h
  estimates : a.estimates.Accords estimate h

section Runs
variable {ν σ τ : Type} {oneSided : Prop} {o o' : Oracle ν} {w : Heap × Heap}

theorem Session.Accords.governed {h k : Heap} {a : Session ν σ} {b : Session ν τ}
    (ha : a.Accords o.estimate h) (hb : b.Accords o'.estimate k) :
    (governed σ τ oneSided o o').holds (h, k) a b :=
  ⟨⟨ha.supply, hb.supply⟩, ha.estimates, hb.estimates⟩

theorem recalling_mono {w' : Heap × Heap} {e : Estimates ν σ} {e' : Estimates ν τ}
    (hw : World.Grows w w') (h : (recalling σ τ oneSided o o' w).holds () e e') :
    (recalling σ τ oneSided o o' w').holds () e e' := ⟨h.1.mono hw.1, h.2.mono hw.2⟩

theorem relates_yields {x y : Building Node} {m : Node}
    (hx : Yields Supply.Fits w.1 x fun h q => h.Holds q ∧ q.bare = m)
    (hy : Yields Supply.Fits w.2 y fun h q => h.Holds q ∧ q.bare = m) :
    (governed σ τ oneSided o o').Relates w (Planning.build x) (Planning.build y) Copies := by
  refine relates_build (D := recalling σ τ oneSided o o') (fun s t hst => ?_) recalling_mono
  obtain ⟨q, s', h, hqx, hs', hh, hq, hbare⟩ := hx s hst.1
  obtain ⟨q', t', k, hqy, ht', hk, hq', hbare'⟩ := hy t hst.2
  exact ⟨q, s', q', t', (h, k), hqx, hqy, ⟨hh, hk⟩, ⟨hs', ht'⟩, hq, hq',
    hbare.trans hbare'.symm⟩

theorem relates_newJoin {m m' n n' : Node} (j : Join) (hm : Copies w m m') (hn : Copies w n n') :
    (governed σ τ oneSided o o').Relates w (Planning.newJoin j m n) (Planning.newJoin j m' n')
      Copies := by
  refine relates_yields (yields_joinAny hm.left hn.left) ?_
  rw [hm.bare, hn.bare]
  exact yields_joinAny hm.right hn.right

section Matching
variable (hmatch : o.Matches oneSided o')
include hmatch

/-- Searches that matching oracles govern are related step by step. -/
theorem Oracle.Governs.simulates_search {s : Search ν σ} {t : Search ν τ}
    (hs : o.Governs s.estimator s.model) (ht : o'.Governs t.estimator t.model) :
    Steps.Simulates (governed σ τ oneSided o o') Copies s.steps t.steps := by
  refine Search.simulates (fun _ => id) (fun hw h => h.mono hw) (fun {_ m n} h c => ?_)
    (fun j h h' => relates_newJoin j h h') (fun {w m n} h => ?_) (fun {w m n} h => ?_)
    fun {w m n} l r h => ?_
  · rw [← m.produces_bare, h.bare, n.produces_bare]
  · refine (relates_answers (hmatch.derives m.bare) (answers_estimate hs.estimate h.left)
      (h.bare ▸ answers_estimate ht.estimate h.right)).imp fun _ _ _ _ _ => trivial
  · exact relates_answers (hmatch.base m.bare) (hs.base w.1 m h.left)
      (h.bare ▸ ht.base w.2 n h.right)
  · exact relates_answers (hmatch.join m.bare l r) (hs.join w.1 m l r h.left)
      (h.bare ▸ ht.join w.2 n l r h.right)

/-- Reorderings that matching oracles govern are related step by step. -/
theorem Oracle.Governs.simulates {context : Context ν σ} {context' : Context ν τ}
    (h : o.Governs context.estimator context.model)
    (h' : o'.Governs context'.estimator context'.model) (hconfig : context.config = context'.config) :
    Reorder.Simulates (governed σ τ oneSided o o') Copies context context' where
  config := hconfig
  search E := simulates_search hmatch (s := ⟨context.estimator, context.model, E⟩)
    (t := ⟨context'.estimator, context'.model, E⟩) h h'
  bare h := h.bare
  input h := by
    have hbare := h.bare
    simp only [Node.bare, Node.unary.injEq, true_and] at hbare
    exact ⟨(Heap.holds_unary.1 h.left).2, (Heap.holds_unary.1 h.right).2, hbare⟩
  inputs h := by
    have hbare := h.bare
    simp only [Node.bare, Node.join.injEq, true_and] at hbare
    obtain ⟨-, hl, hr⟩ := Heap.holds_join.1 h.left
    obtain ⟨-, hl', hr'⟩ := Heap.holds_join.1 h.right
    exact ⟨⟨hl, hl', hbare.1⟩, ⟨hr, hr', hbare.2⟩⟩
  unary {_ _ i i'} hi hop := by
    have hop' := hop
    rw [← i.produces_bare, hi.bare, i'.produces_bare] at hop'
    exact relates_yields (yields_unary hi.left hop) (hi.bare ▸ yields_unary hi.right hop')
  withInput {_ _ _ _ _ _ i i'} h hi hop := by
    have hop' := hop
    rw [← i.produces_bare, hi.bare, i'.produces_bare] at hop'
    exact relates_yields (Reorder.yields_withInputs_unary h.left hi.left hop)
      (hi.bare ▸ Reorder.yields_withInputs_unary h.right hi.right hop')
  withInputs h hl hr := by
    refine relates_yields (Reorder.yields_withInputs_join h.left hl.left hr.left) ?_
    rw [hl.bare, hr.bare]
    exact Reorder.yields_withInputs_join h.right hl.right hr.right

end Matching

variable [CostScale ν]

/-- Where a run is successful, the run beside it that a matching oracle governs is too, with a plan of
the same shape. -/
theorem Oracle.Governs.rewrite_ok {context : Context ν σ} {context' : Context ν τ}
    (hgov : o.Governs context.estimator context.model)
    (hgov' : o'.Governs context'.estimator context'.model) (hmatch : o.Matches oneSided o')
    (hconfig : context.config = context'.config) {p p' q : Node} (hw : p.WellFormed) {h k : Heap}
    (hp : Copies (h, k) p p') {a b : Session ν σ} {a' : Session ν τ} (ha : a.Accords o.estimate h)
    (ha' : a'.Accords o'.estimate k) (hq : Reorder.rewrite context p a = .ok q b) :
    ∃ q' b' h' k', Reorder.rewrite context' p' a' = .ok q' b' ∧ Copies (h', k') q q' ∧
      b.Accords o.estimate h' ∧ b'.Accords o'.estimate k' := by
  have hend := (simulates hmatch hgov hgov' hconfig).rewrite (fun _ => trivial) hw hp a a'
    (ha.governed ha')
  rw [hq] at hend
  generalize Reorder.rewrite context' p' a' = right at hend ⊢
  cases hend with
  | @ok v _ _ _ b' _ hb hqq =>
    exact ⟨_, b', v.1, v.2, rfl, hqq, ⟨hb.1.1, hb.2.1⟩, ⟨hb.1.2, hb.2.2⟩⟩

/-- Reordering respects equality of plans: of two plans of one shape, each with what is remembered of
it, it makes plans of one shape, or it fails on both for the same reason, which is a panic in both if
it is one in either. -/
theorem Oracle.Governs.rewrite_same {context : Context ν σ}
    (hgov : o.Governs context.estimator context.model) {p q : Node} (hw : p.WellFormed)
    (hpq : p.same q = true) {h k : Heap} (hp : h.Holds p) (hq : k.Holds q) {a b : Session ν σ}
    (ha : a.Accords o.estimate h) (hb : b.Accords o.estimate k) :
    match Reorder.rewrite context p (a.forPlan p), Reorder.rewrite context q (b.forPlan q) with
    | .ok r _, .ok s _ => r.same s = true
    | .error f _, .error g _ => f = g
    | _, _ => False := by
  have hcopies : Copies (h, k) p q := ⟨hp, hq, Node.bare_eq_iff.2 (Node.same_iff.1 hpq)⟩
  have ha' : (a.forPlan p).Accords o.estimate h := ⟨ha.supply, ha.estimates⟩
  have hb' : (b.forPlan q).Accords o.estimate k := ⟨hb.supply, hb.estimates⟩
  have hend := (Oracle.Governs.simulates (.refl o) hgov hgov rfl).rewrite (fun _ => trivial) hw
    hcopies (a.forPlan p) (b.forPlan q) (ha'.governed hb')
  generalize Reorder.rewrite context p (a.forPlan p) = left at hend ⊢
  generalize Reorder.rewrite context q (b.forPlan q) = right at hend ⊢
  cases hend with
  | ok _ _ hrs => exact Node.same_iff.2 (Node.bare_eq_iff.1 hrs.bare)
  | error _ _ => rfl
  | panic _ _ _ => rfl
  | alone h => exact h.elim fun _ => False.elim

end Runs

/-- A table joined with itself. -/
def sharedTable : Node :=
  .join ⟨1, 1⟩ .cross (.scan ⟨0, 0⟩ (.ofNames "a" ["x"] none))
    (.scan ⟨0, 0⟩ (.ofNames "a" ["x"] none))

def copiedTable : Node :=
  .join ⟨9, 2⟩ .cross (.scan ⟨7, 0⟩ (.ofNames "a" ["x"] none))
    (.scan ⟨8, 1⟩ (.ofNames "a" ["x"] none))

theorem Oracle.Governs.rewrite_same_sharedTable : ∃ r b s d,
    Reorder.rewrite (.constant 1) sharedTable (Session.forPlan (.unused 2) sharedTable) = .ok r b ∧
      Reorder.rewrite (.constant 1) copiedTable (Session.forPlan (.unused 3) copiedTable) = .ok s d ∧
      r.same s = true := by
  have hgov : (Oracle.certain (fun _ _ => .ofRows 10) ⟨fun _ => 10, fun _ _ _ => 1⟩).Governs
      (Context.constant 1).estimator (Context.constant 1).model :=
    structural_iff_governs.1 (structural_constant _ 10 1)
  have hp : (Heap.ofPlan 2 sharedTable).Holds sharedTable :=
    Heap.holds_ofPlan (by decide) (by decide)
  have hq : (Heap.ofPlan 3 copiedTable).Holds copiedTable :=
    Heap.holds_ofPlan (by decide) (by decide)
  have hrun : ((Reorder.rewrite (.constant 1) sharedTable).result?
      (Session.forPlan (.unused 2) sharedTable)).isSome = true := by decide +kernel
  have hrun' : ((Reorder.rewrite (.constant 1) copiedTable).result?
      (Session.forPlan (.unused 3) copiedTable)).isSome = true := by decide +kernel
  obtain ⟨r, b, hr⟩ := Action.exists_of_result? hrun
  obtain ⟨s, d, hs⟩ := Action.exists_of_result? hrun'
  have hsame := hgov.rewrite_same (p := sharedTable) (q := copiedTable) (a := .unused 2)
    (b := .unused 3) ⟨trivial, trivial⟩ (by decide) hp hq ⟨rfl, nofun, nofun⟩ ⟨rfl, nofun, nofun⟩
  rw [hr, hs] at hsame
  exact ⟨r, b, s, d, hr, hs, hsame⟩

end JoinOrder
