import JoinOrder.Proofs.Numbering
import JoinOrder.Proofs.Walk

/-!
# What rewriting reuses

Rewriting looks only at whether the inputs of a node are still the same nodes, and takes the members
of a group that keeps its order from a list, one after the other. Nevertheless a node stays the same
node exactly if nothing on its walk is joined anew, and a group that keeps its order keeps its tree
(`Reorder.reuse_of_rewrite`).

Of the supply it matters only that cells are given away in ascending order: a new node has a cell
above those of the plan. `Mints` carries such a bound through the steps of a rewriting.
-/

namespace JoinOrder

/-- From a state in which all cells below `k` have been given away the step, if it succeeds, ends in
one such, with a result as `Q` says. -/
def Mints {τ α : Type} (next : τ → Nat) (k : Nat) (x : Action τ α) (Q : α → Prop) : Prop :=
  ∀ a r b, k ≤ next a → x a = .ok r b → k ≤ next b ∧ Q r

namespace Mints
variable {τ α β : Type} {next : τ → Nat} {k : Nat} {x : Action τ α} {Q Q' : α → Prop}
  {R : β → Prop}

theorem pure {r : α} (hr : Q r) : Mints next k (Pure.pure r) Q := by
  intro a r' b ha h
  obtain ⟨rfl, rfl⟩ := Action.pure_eq_ok.1 h
  exact ⟨ha, hr⟩

theorem imp (hx : Mints next k x Q) (hQ : ∀ r, Q r → Q' r) : Mints next k x Q' :=
  fun a r b ha h => (hx a r b ha h).imp_right (hQ r)

theorem bind {f : α → Action τ β} (hx : Mints next k x Q) (hf : ∀ r, Q r → Mints next k (f r) R) :
    Mints next k (x >>= f) R := by
  intro a r b ha h
  obtain ⟨r', u, hr, h⟩ := Action.bind_eq_ok.1 h
  obtain ⟨hu, hq⟩ := hx a r' u ha hr
  exact hf r' hq u r b hu h

theorem mapM {P : α → β → Prop} {f : α → Action τ β} {as : List α}
    (hf : ∀ r ∈ as, Mints next k (f r) (P r)) : Mints next k (as.mapM f) (List.Forall₂ P as) := by
  induction as with
  | nil => exact .pure .nil
  | cons r as ih =>
    rw [List.mapM_cons]
    refine (hf r (List.mem_cons_self ..)).bind fun q hq => ?_
    refine (ih fun r hr => hf r (List.mem_cons_of_mem _ hr)).bind fun qs hqs => ?_
    exact .pure (.cons hq hqs)

end Mints

/-- The next cell. -/
def Session.nextCell {ν σ : Type} (a : Session ν σ) : Nat := a.supply.nextCell

/-- All cells of the plan are below `k`. -/
def Node.Below (k : Nat) (n : Node) : Prop := ∀ m ∈ n.preorder, m.cell < k

namespace Node.Below
variable {k : Nat} {n m : Node}

theorem cell (h : n.Below k) : n.cell < k := h n n.mem_preorder_self

theorem sub (h : n.Below k) (hm : m ∈ n.preorder) : m.Below k :=
  fun _ hk => h _ (Node.mem_preorder_trans hk hm)

theorem input (h : n.Below k) (hm : m ∈ n.inputs) : m.Below k :=
  h.sub (Node.mem_preorder_of_input hm m.mem_preorder_self)

end Node.Below

/-- The plan `q`, which has taken the place of `m`, is `m` itself or a new node. -/
def Renews (k : Nat) (m q : Node) : Prop := q = m ∨ k ≤ q.cell

/-- The plan `n` has become `q`: the same node if `kept` holds, and a new one otherwise. -/
structure Renewed (k : Nat) (kept : Prop) (n q : Node) : Prop where
  same (h : kept) : q = n
  fresh (h : ¬ kept) : k ≤ q.cell

namespace Renewed
variable {k : Nat} {kept kept' : Prop} {n q : Node}

theorem of_kept (h : kept) : Renewed k kept n n := ⟨fun _ => rfl, fun hnot => absurd h hnot⟩

theorem of_not_kept (h : ¬ kept) (hq : k ≤ q.cell) : Renewed k kept n q :=
  ⟨fun hkept => absurd hkept h, fun _ => hq⟩

theorem congr (h : Renewed k kept n q) (hiff : kept ↔ kept') : Renewed k kept' n q :=
  ⟨fun hkept => h.same (hiff.2 hkept), fun hnot => h.fresh fun hkept => hnot (hiff.1 hkept)⟩

theorem renews (h : Renewed k kept n q) : Renews k n q := (em kept).imp h.same h.fresh

theorem same_iff (h : Renewed k kept n q) (hn : n.cell < k) : q = n ↔ kept := by
  refine ⟨fun heq => by_contra fun hnot => ?_, h.same⟩
  have hfresh := h.fresh hnot
  rw [heq] at hfresh
  exact absurd hn (not_lt.2 hfresh)

end Renewed

/-- Among plans of which the new ones have new cells, the cells tell what has changed. -/
theorem map_cell_eq_iff {k : Nat} {old new : List Node} (hold : ∀ m ∈ old, m.cell < k)
    (h : List.Forall₂ (Renews k) old new) : new.map Node.cell = old.map Node.cell ↔ new = old := by
  refine ⟨fun hcells => ?_, fun heq => by rw [heq]⟩
  induction h with
  | nil => rfl
  | @cons m q old new hmq _ ih =>
    obtain ⟨hcell, hcells⟩ := List.cons.inj hcells
    have hm := hold m (List.mem_cons_self ..)
    have hrest := ih (fun m hm => hold m (List.mem_cons_of_mem _ hm)) hcells
    exact congrArg₂ List.cons (hmq.resolve_right (not_le.2 (hcell ▸ hm))) hrest

/-- The tree of inner joins `n`, operator by operator, over the given members from left to right. -/
inductive Rebuilt : Node → List Node → Node → Prop
  | member {n m : Node} (hn : n.isInnerJoin = false) : Rebuilt n [m] m
  | join {tag tag' : Tag} {j : Join} {l l' r r' : Node} {ls rs : List Node}
      (hj : j.isInner = true) (hl : Rebuilt l ls l') (hr : Rebuilt r rs r') :
      Rebuilt (.join tag j l r) (ls ++ rs) (.join tag' j l' r')

section Making
variable {ν σ α : Type} {k : Nat}

theorem mints_build {x : Building α} {Q : α → Prop} (hx : Mints Supply.nextCell k x Q) :
    Mints Session.nextCell k (Planning.build x : Planning ν σ α) Q := by
  intro a r b ha h
  obtain ⟨u, hr, rfl⟩ := Action.onPart_eq_ok.1 h
  exact hx a.supply r u ha hr

theorem mints_node (op : Operator) (inputs : List Node) :
    Mints Supply.nextCell k (Building.node op inputs) fun q =>
      k ≤ q.cell ∧ ∃ tag, Node.ofOperator tag op inputs = .ok q := by
  intro a q b ha h
  have hrun : Building.node op inputs a =
      Action.ofExcept (Node.ofOperator ⟨a.nextId, a.nextCell⟩ op inputs)
        ⟨a.nextId + 1, a.nextCell + 1⟩ := rfl
  rw [hrun] at h
  obtain ⟨hq, rfl⟩ := Action.ofExcept_eq_ok.1 h
  refine ⟨ha.trans (Nat.le_succ _), ?_, _, hq⟩
  rw [Node.cell, (tag_of_ofOperator hq).1]
  exact ha

end Making

namespace JoinTree
variable {t : JoinTree} {m : Node}

theorem mem_preorder_plan (h : m ∈ t.leaves) : m ∈ t.plan.preorder := by
  induction t with
  | leaf n =>
    rw [List.mem_singleton.1 h]
    exact n.mem_preorder_self
  | join tag edges residuals l r ihl ihr =>
    exact List.mem_cons_of_mem _ (List.mem_append.2 ((List.mem_append.1 h).imp ihl ihr))

theorem height_leaf_lt (hlen : 2 ≤ t.leaves.length) (h : m ∈ t.leaves) :
    m.height < t.plan.height := by
  cases t with
  | leaf n => simp [leaves] at hlen
  | join tag edges residuals l r =>
    rcases List.mem_append.1 h with hl | hr
    · exact (Node.height_le (mem_preorder_plan hl)).trans_lt (Node.height_lt (List.mem_cons_self ..))
    · exact (Node.height_le (mem_preorder_plan hr)).trans_lt
        (Node.height_lt (List.mem_cons_of_mem _ (List.mem_singleton_self _)))

end JoinTree

section Searching
variable {ν σ : Type} {k : Nat} {members : List Node}

/-- The plan is one of the members or a new node. -/
def Drawn (k : Nat) (members : List Node) (n : Node) : Prop := n ∈ members ∨ k ≤ n.cell

theorem simulates_drawn (s : Search ν σ) (k : Nat) (members : List Node) :
    Steps.Simulates
      (.sessions (fun _ a b => a = b ∧ k ≤ a.nextCell) (fun _ => .same) True)
      (fun (_ : Unit) m n => m = n ∧ Drawn k members m) s.steps s.steps := by
  refine s.simulates_self (P := fun _ => Drawn k members) (fun _ h => h) fun {w m n} j _ _ => ?_
  refine relates_build ?_ fun _ h => h
  rintro a _ ⟨rfl, ha⟩
  exact ⟨_, _, _, _, w, rfl, rfl, World.refl w, ⟨rfl, ha.trans (Nat.le_succ _)⟩, rfl, .inr ha⟩

variable [CostScale ν]

/-- What is found for two members or more is a new node. -/
theorem mints_solve (s : Search ν σ) (hlen : 2 ≤ members.length) (residuals : List Expr) :
    Mints Session.nextCell k (s.solve members residuals) fun found =>
      ∃ solution, found = some solution ∧ k ≤ solution.plan.cell := by
  intro a found b ha h
  have hpairs : List.Forall₂ (fun m n => m = n ∧ Drawn k members m) members members :=
    List.forall₂_same.2 fun m hm => ⟨rfl, .inl hm⟩
  have hend := (simulates_drawn s k members).solve (w := ()) s.edges (fun _ => trivial) hpairs
    residuals a a ⟨⟨rfl, ha⟩, rfl⟩
  rw [s.steps_solve, h] at hend
  have hne : members ≠ [] := fun hnil => by simp [hnil] at hlen
  obtain ⟨ts, t, left, rfl, hforest, -⟩ := Search.forest_of_solve hne h
  have hleaves : t.leaves.Perm members := by simpa using hforest.leaves
  cases hend with
  | ok _ hb hq =>
    refine ⟨hb.1.2, _, rfl, ?_⟩
    cases hq with
    | some hq =>
      refine hq.plan.2.resolve_left fun hmem => ?_
      have hlt := JoinTree.height_leaf_lt (hleaves.length_eq ▸ hlen) (hleaves.mem_iff.2 hmem)
      exact lt_irrefl _ hlt

end Searching

namespace Reorder

section Keeping
variable {k : Nat} {n : Node} {ps ms rest : List Node}

theorem mints_withInputs (hn : n.Below k) (hps : List.Forall₂ (Renews k) n.inputs ps) :
    Mints Supply.nextCell k (withInputs n ps) fun q => Renewed k (ps = n.inputs) n q ∧
      (q = n ∨ ∃ tag, Node.ofOperator tag n.operator ps = .ok q) := by
  unfold withInputs
  simp only [map_cell_eq_iff (fun m hm => (hn.input hm).cell) hps]
  split
  · rename_i hsame
    exact .pure ⟨.of_kept hsame, .inl rfl⟩
  · rename_i hne
    exact (mints_node _ _).imp fun q hq => ⟨.of_not_kept hne hq.1, .inr hq.2⟩

theorem rebuilt_of_member (hm : List.Forall₂ (Renews k) [n] ms) (hn : n.isInnerJoin = false) :
    (ms ++ rest).tail = rest ∧ Rebuilt n ms ((ms ++ rest).headD n) ∧
      Renewed k (ms = [n]) n ((ms ++ rest).headD n) := by
  cases hm with
  | @cons _ m _ _ hm hnil =>
    cases hnil
    refine ⟨rfl, .member hn, fun h => List.singleton_inj.1 h, fun h => ?_⟩
    exact hm.resolve_left fun heq => h (congrArg ([·]) heq)

theorem mints_withMembers (hn : n.Below k) (hms : List.Forall₂ (Renews k) n.members ms)
    (rest : List Node) :
    Mints Supply.nextCell k (withMembers n (ms ++ rest)) fun r =>
      r.2 = rest ∧ Rebuilt n ms r.1 ∧ Renewed k (ms = n.members) n r.1 := by
  induction n generalizing ms rest with
  | scan => exact .pure (rebuilt_of_member hms rfl)
  | unary => exact .pure (rebuilt_of_member hms rfl)
  | join tag j l r ihl ihr =>
    rw [Node.members] at hms ⊢
    unfold withMembers
    cases hj : j.isInner with
    | false =>
      rw [hj, if_neg Bool.false_ne_true] at hms
      exact .pure (rebuilt_of_member hms hj)
    | true =>
      rw [hj, if_pos rfl] at hms
      simp only [if_true]
      obtain ⟨ls, rs, rfl, hls, hrs⟩ := exists_of_forall₂_append hms
      have hl := hn.input (m := l) (List.mem_cons_self ..)
      have hr := hn.input (m := r) (List.mem_cons_of_mem _ (List.mem_singleton_self r))
      rw [List.append_assoc]
      refine (ihl hl hls _).bind ?_
      rintro ⟨l', _⟩ ⟨rfl, hbl, hl'⟩
      refine (ihr hr hrs _).bind ?_
      rintro ⟨r', _⟩ ⟨rfl, hbr, hr'⟩
      have hinputs : List.Forall₂ (Renews k) (Node.join tag j l r).inputs [l', r'] :=
        .cons hl'.renews (.cons hr'.renews .nil)
      -- the inputs are the same nodes if and only if the members below them are
      have hsame : [l', r'] = [l, r] ↔ ls ++ rs = l.members ++ r.members := by
        have happ : ls ++ rs = l.members ++ r.members ↔ ls = l.members ∧ rs = r.members :=
          ⟨fun h => List.append_inj h hls.length_eq.symm, fun h => congrArg₂ _ h.1 h.2⟩
        rw [happ, ← hl'.same_iff hl.cell, ← hr'.same_iff hr.cell]
        simp
      refine (mints_withInputs hn hinputs).bind ?_
      rintro q ⟨hq, hnode⟩
      refine .pure ⟨rfl, ?_, hq.congr hsame⟩
      rcases hnode with rfl | ⟨tag', hnode⟩
      · obtain ⟨rfl, rfl⟩ : l' = l ∧ r' = r := by
          simpa [Node.inputs] using (hq.same_iff hn.cell).1 rfl
        exact .join hj hbl hbr
      · cases hnode
        exact .join hj hbl hbr

end Keeping

end Reorder

namespace Config
variable (config : Config)

/-- The group of the node is joined anew. -/
def Solves (n : Node) : Prop := n.isInnerJoin = true ∧ config.admits n.members.length = true

/-- No group on the walk of the plan is joined anew. -/
def Spares (n : Node) : Prop := ∀ g, n.Walks g → ¬ config.Solves g

variable {config} {n : Node}

theorem spares_iff : config.Spares n ↔ ¬ config.Solves n ∧ ∀ m ∈ n.parts, config.Spares m := by
  constructor
  · exact fun h => ⟨h n (.self n), fun m hm g hg => h g (.part hm hg)⟩
  · rintro ⟨hn, hparts⟩ g (_ | ⟨hm, hg⟩)
    · exact hn
    · exact hparts _ hm g hg

/-- A group that is joined anew is one that the configuration admits, wherever it is. -/
theorem spares_iff_groups :
    config.Spares n ↔ ∀ g ∈ n.groups, config.admits g.members.length = false := by
  unfold Spares Solves
  simp only [Node.mem_groups_iff_walks, not_and, Bool.not_eq_true, and_imp]

/-- Rewriting that is switched off, or is for groups of less than two members, spares every plan. -/
theorem spares_of_idle (h : config.enabled = false ∨ config.maxGroupSize < 2) (n : Node) :
    config.Spares n := by
  rintro g - ⟨hg, hadmits⟩
  obtain ⟨henabled, hsize⟩ := Bool.and_eq_true_iff.1 hadmits
  have := Node.two_le_length_members hg
  rcases h with h | h
  · rw [h] at henabled
    cases henabled
  · have := of_decide_eq_true hsize
    omega

end Config

/-- What becomes of a plan: it stays the same node if it is spared, and is a new one otherwise. -/
abbrev Fate (config : Config) (k : Nat) (n q : Node) : Prop := Renewed k (config.Spares n) n q

namespace Fate
variable {config : Config} {k : Nat} {n q : Node} {old new : List Node}

theorem eq_iff (h : List.Forall₂ (Fate config k) old new) (hold : ∀ m ∈ old, m.cell < k) :
    new = old ↔ ∀ m ∈ old, config.Spares m := by
  induction h with
  | nil => simp
  | @cons m q old new hmq _ ih =>
    obtain ⟨hm, hold⟩ := List.forall_mem_cons.1 hold
    rw [List.cons_eq_cons, List.forall_mem_cons, hmq.same_iff hm, ih hold]

/-- A plan that is not joined anew itself shares the fate of its parts. -/
theorem of_parts {ps : List Node} (hn : n.Below k) (hs : ¬ config.Solves n)
    (hps : List.Forall₂ (Fate config k) n.parts ps) (h : Renewed k (ps = n.parts) n q) :
    Fate config k n q := by
  have heq := eq_iff hps fun m hm => (hn.sub (Node.mem_preorder_of_part hm)).cell
  refine h.congr ?_
  rw [heq, Config.spares_iff]
  exact (and_iff_right hs).symm

end Fate

namespace Reorder

section Steps
variable {k : Nat} {n : Node}

theorem mints_filterBy (conditions : List Expr) (h : k ≤ n.cell) :
    Mints Supply.nextCell k (filterBy conditions n) fun q => k ≤ q.cell := by
  unfold filterBy
  split
  · exact .pure h
  · exact (mints_node _ _).imp fun _ hq => hq.1

theorem mints_arrange (schema : Schema) (h : k ≤ n.cell) :
    Mints Supply.nextCell k (arrange schema n) fun q => k ≤ q.cell := by
  unfold arrange
  split
  · exact .pure h
  · exact (mints_node _ _).imp fun _ hq => hq.1

end Steps

variable {ν σ : Type} [CostScale ν] {context : Context ν σ} {k : Nat} {p n q : Node}
  {ps : List Node} {a b c : Session ν σ}

theorem mints_settleGroup_solved (ha : context.config.admits ps.length = true)
    (hlen : 2 ≤ ps.length) :
    Mints Session.nextCell k (settleGroup context n ps) fun q => k ≤ q.cell := by
  unfold settleGroup
  rw [if_pos ha]
  refine (mints_solve _ hlen _).bind ?_
  rintro _ ⟨solution, rfl, hfresh⟩
  refine mints_build ((mints_filterBy _ hfresh).bind fun filtered hfiltered => ?_)
  split
  · exact mints_arrange _ hfiltered
  · exact .pure hfiltered

theorem mints_settleGroup_kept (hn : n.Below k) (ha : context.config.admits ps.length = false)
    (hps : List.Forall₂ (Renews k) n.members ps) :
    Mints Session.nextCell k (settleGroup context n ps) fun q =>
      Rebuilt n ps q ∧ Renewed k (ps = n.members) n q := by
  have hkept := mints_withMembers hn hps []
  rw [List.append_nil] at hkept
  unfold settleGroup
  rw [if_neg (by simp [ha])]
  exact (mints_build hkept).bind fun _ hr => .pure hr.2

theorem mints_finish (hn : n.Below k) (hps : List.Forall₂ (Fate context.config k) n.parts ps) :
    Mints Session.nextCell k (finish context n ps) fun q => Fate context.config k n q ∧
      (n.isInnerJoin = true → ¬ context.config.Solves n → Rebuilt n ps q) := by
  have hrenews := hps.imp fun _ _ h => h.renews
  unfold finish
  cases hi : n.isInnerJoin with
  | false =>
    have hs : ¬ context.config.Solves n := fun hs => Bool.false_ne_true (hi.symm.trans hs.1)
    have hinputs := Node.parts_of_not_inner hi
    refine (mints_build (mints_withInputs hn (hinputs ▸ hrenews))).imp fun q hq => ?_
    exact ⟨.of_parts hn hs hps (hinputs ▸ hq.1), fun h => nomatch h⟩
  | true =>
    have hmembers := Node.parts_of_inner hi
    have hlen : ps.length = n.members.length := by rw [← hps.length_eq, hmembers]
    rw [if_pos rfl]
    cases ha : context.config.admits ps.length with
    | true =>
      have hs : context.config.Solves n := ⟨hi, hlen ▸ ha⟩
      have htwo := hlen ▸ Node.two_le_length_members hi
      refine (mints_settleGroup_solved ha htwo).imp fun q hq => ⟨?_, fun _ h => absurd hs h⟩
      exact .of_not_kept (fun hspares => hspares n (.self n) hs) hq
    | false =>
      have hs : ¬ context.config.Solves n := fun hs => by
        rw [hlen, hs.2] at ha
        cases ha
      refine (mints_settleGroup_kept hn ha (hmembers ▸ hrenews)).imp fun q hq => ?_
      exact ⟨.of_parts hn hs hps (hmembers ▸ hq.2), fun _ _ => hq.1⟩

/-- Rewriting leaves a plan the same node if it spares it, and makes a new one otherwise. -/
theorem mints_rewrite (hn : n.Below k) :
    Mints Session.nextCell k (rewrite context n) (Fate context.config k n) := by
  induction n using Node.walk_induction with
  | step n ih =>
    rw [rewrite_eq]
    have hparts := fun m hm => ih m hm (hn.sub (Node.mem_preorder_of_part hm))
    exact (Mints.mapM hparts).bind fun ps hps => (mints_finish hn hps).imp fun _ hq => hq.1

theorem Calls.le (hp : p.Below k) (ha : k ≤ a.nextCell) (h : Calls context p a n b) :
    k ≤ b.nextCell := by
  induction h with
  | self => exact ha
  | @part n _ pre post qs b c h hparts hpre ih =>
    have hn := hp.sub h.walks.mem_preorder
    refine (Mints.mapM (fun m hm => mints_rewrite (hn.sub (Node.mem_preorder_of_part ?_))) b qs c ih
      hpre).1
    rw [hparts]
    exact List.mem_append_left _ hm

section Sparing

theorem withInputs_inputs (n : Node) : withInputs n n.inputs = return n := if_pos rfl

theorem withMembers_members (n : Node) (rest : List Node) :
    withMembers n (n.members ++ rest) = return (n, rest) := by
  induction n generalizing rest with
  | scan => rfl
  | unary => rfl
  | join tag j l r ihl ihr =>
    unfold withMembers Node.members
    cases hj : j.isInner with
    | false => rfl
    | true =>
      simp only [if_true]
      rw [List.append_assoc, ihl, pure_bind]
      simp only [ihr, pure_bind]
      rw [show [l, r] = (Node.join tag j l r).inputs from rfl, withInputs_inputs, pure_bind]

theorem finish_of_not_solved (h : ¬ context.config.Solves n) :
    finish context n n.parts = return n := by
  unfold finish
  cases hi : n.isInnerJoin with
  | false =>
    rw [if_neg Bool.false_ne_true, Node.parts_of_not_inner hi, withInputs_inputs]
    rfl
  | true =>
    have ha : ¬ context.config.admits n.members.length = true := fun ha => h ⟨hi, ha⟩
    have hkept := withMembers_members n []
    rw [List.append_nil] at hkept
    rw [if_pos rfl, Node.parts_of_inner hi, settleGroup, if_neg ha, hkept]
    rfl

theorem mapM_eq_pure {τ α : Type} {f : α → Action τ α} {as : List α}
    (h : ∀ x ∈ as, f x = return x) : as.mapM f = return as := by
  induction as with
  | nil => rfl
  | cons x as ih =>
    rw [List.mapM_cons, h x (List.mem_cons_self ..), ih fun y hy => h y (List.mem_cons_of_mem _ hy)]
    simp only [pure_bind]

/-- A plan that is spared stays as it is, and nothing else is done. -/
theorem rewrite_of_spares (h : context.config.Spares n) : rewrite context n = return n := by
  induction n using Node.walk_induction with
  | step n ih =>
    obtain ⟨hn, hparts⟩ := Config.spares_iff.1 h
    rw [rewrite_eq, mapM_eq_pure fun m hm => ih m hm (hparts m hm), pure_bind]
    exact finish_of_not_solved hn

end Sparing

/-- Whatever the walk rewrites from a plan stays the same node if and only if no group on the walk
from there is joined anew. A group that keeps its order is rebuilt join by join over its members,
each of which is rewritten where the last one has left off. Where no group of the plan is joined anew,
nothing is done at all. -/
theorem reuse_of_rewrite (context : Context ν σ) {p : Node} {a : Session ν σ}
    (hp : ∀ m ∈ p.preorder, m.cell < a.supply.nextCell) :
    (∀ n b q c, Calls context p a n b → rewrite context n b = .ok q c →
      p.Walks n ∧ (q.cell = n.cell ↔ context.config.Spares n) ∧ (q.cell = n.cell → q = n) ∧
        (n.isInnerJoin = true → context.config.admits n.members.length = false →
          ∃ ms d, n.members.mapM (rewrite context) b = .ok ms d ∧ Rebuilt n ms q)) ∧
    (∀ n q c, rewrite context p a = .ok q c → p.Walks n →
      ∃ b r d, Calls context p a n b ∧ rewrite context n b = .ok r d) ∧
    (context.config.Spares p → ∀ {τ : Type} (estimator : Estimator ν τ) (model : CostModel ν τ)
      (d : Session ν τ), rule.apply ⟨estimator, model, context.config⟩ p d = .ok p d) ∧
    (context.config.enabled = false ∨ context.config.maxGroupSize < 2 →
      ∀ n, context.config.Spares n) := by
  refine ⟨fun n b q c hcall hq => ?_, fun n q c hq hw => exists_calls hw .self hq, ?_,
    Config.spares_of_idle⟩
  · have hn : n.Below a.nextCell := Node.Below.sub hp hcall.walks.mem_preorder
    have hparts : ∀ m ∈ n.parts, Mints Session.nextCell a.nextCell (rewrite context m)
        (Fate context.config a.nextCell m) :=
      fun m hm => mints_rewrite (hn.sub (Node.mem_preorder_of_part hm))
    rw [rewrite_eq] at hq
    obtain ⟨ms, d, hms, hq⟩ := Action.bind_eq_ok.1 hq
    obtain ⟨hd, hfates⟩ := Mints.mapM hparts b ms d (hcall.le hp le_rfl) hms
    obtain ⟨-, hfate, hrebuilt⟩ := mints_finish hn hfates d q c hd hq
    have hcell : q.cell = n.cell → q = n := fun heq =>
      hfate.renews.resolve_right (not_le.2 (heq ▸ hn.cell))
    refine ⟨hcall.walks, ?_, hcell, fun hi ha => ?_⟩
    · rw [← hfate.same_iff hn.cell]
      exact ⟨hcell, congrArg Node.cell⟩
    · rw [Node.parts_of_inner hi] at hms
      exact ⟨ms, d, hms, hrebuilt hi fun hs => Bool.false_ne_true (ha.symm.trans hs.2)⟩
  · intro hs τ estimator model d
    have hs : (Context.mk estimator model context.config).config.Spares p := hs
    exact congrFun (rewrite_of_spares hs) d

/-- Groups of more than two members keep their order. -/
def pairsOnly : Context ℕ Unit := { Context.constant 1 with config.maxGroupSize := 2 }

/-- Three members, the last one above a group of two. -/
def keptTables : Node :=
  .join ⟨7, 7⟩ .cross (.join ⟨5, 5⟩ .cross (.scan ⟨3, 3⟩ (.ofNames "c" ["z"] none))
    (.scan ⟨4, 4⟩ (.ofNames "d" ["w"] none))) (.unary ⟨6, 6⟩ (.limit 5) .twoTables)

/-- A group of three keeps its order, while the two tables below it are joined anew. -/
theorem reuse_of_rewrite_keptTables : (∀ m ∈ keptTables.preorder, m.cell < 8) ∧
    ∃ q c, rewrite pairsOnly keptTables (.unused 8) = .ok q c ∧ q.cell ≠ keptTables.cell ∧
      ∃ ms d, keptTables.members.mapM (rewrite pairsOnly) (.unused 8) = .ok ms d ∧
        Rebuilt keptTables ms q := by
  have hp : ∀ m ∈ keptTables.preorder, m.cell < 8 := by decide
  obtain ⟨q, c, hq⟩ := Action.exists_of_result? (a := Session.unused 8)
    (x := rewrite pairsOnly keptTables) (by decide +kernel)
  obtain ⟨-, hcell, -, hkept⟩ :=
    (reuse_of_rewrite pairsOnly (a := .unused 8) hp).1 _ _ q c .self hq
  refine ⟨hp, q, c, hq, fun heq => ?_, hkept rfl rfl⟩
  exact absurd (Config.spares_iff_groups.1 (hcell.1 heq)) (by decide)

end Reorder

end JoinOrder
