import Mathlib.Data.Multiset.Bind
import JoinOrder.Proofs.Groups

/-!
# The meaning of plans

An interpretation fixes what scans put out, which rows satisfy a condition, and what the operators
do that are never moved. A plan then denotes a bag of rows. A row gives every column a value; the
columns that a plan does not put out have the values of a fixed row.

An inner join denotes the part of a product of bags that satisfies its conditions. So a tree of
inner joins denotes the part of the product of its members that satisfies all of them
(`Interpretation.product_members`), provided that no join has a condition on a column that only
another part of the tree puts out.
-/

namespace JoinOrder

/-- A value for every column. -/
abbrev Row (V : Type) := Column → V

/-- The columns in `p` from one row, and the others from another row. -/
def Row.over {V : Type} (p : Column → Bool) (a b : Row V) : Row V := fun c => if p c then a c else b c

/-- A bag of rows, with the columns for which they count. -/
structure Factor (V : Type) where
  has : Column → Bool
  rows : Multiset (Row V)

/-- All combinations of one row from each factor. Other columns are as in `env`, and a column of
several factors is taken from the first. -/
def product {V : Type} (env : Row V) : List (Factor V) → Multiset (Row V)
  | [] => {env}
  | f :: fs => f.rows.bind fun a => (product env fs).map (Row.over f.has a)

/-- No two factors share a column. -/
def Separate {V : Type} (fs : List (Factor V)) : Prop :=
  fs.Pairwise fun f g => ∀ c, f.has c = true → g.has c = true → False

section Product
variable {V : Type} {env : Row V} {fs gs : List (Factor V)} {f g : Factor V} {p : Column → Bool}
  {A : Multiset (Row V)} {F : Row V → Bool}

theorem Separate.perm (h : Separate fs) (hp : fs.Perm gs) : Separate gs :=
  (hp.pairwise_iff fun h c hg hf => h c hf hg).1 h

theorem eq_env_of_mem_product {b : Row V} (hb : b ∈ product env fs) {c : Column}
    (hc : ∀ f ∈ fs, f.has c = false) : b c = env c := by
  induction fs generalizing b with
  | nil => rw [Multiset.mem_singleton.1 hb]
  | cons f fs ih =>
    rw [List.forall_mem_cons] at hc
    obtain ⟨a, -, hb⟩ := Multiset.mem_bind.1 hb
    obtain ⟨b', hb', rfl⟩ := Multiset.mem_map.1 hb
    rw [Row.over, if_neg (by simp [hc.1]), ih hb' hc.2]

theorem product_swap (h : ∀ c, f.has c = true → g.has c = false) :
    product env (f :: g :: fs) = product env (g :: f :: fs) := by
  have hover : ∀ a b : Row V, Row.over f.has a ∘ Row.over g.has b =
      Row.over g.has b ∘ Row.over f.has a := by
    intro a b
    funext x c
    simp only [Function.comp_apply, Row.over]
    have := h c
    split_ifs <;> simp_all
  simp only [product, Multiset.map_bind, Multiset.map_map]
  rw [Multiset.bind_bind]
  refine Multiset.bind_congr fun b _ => Multiset.bind_congr fun a _ => ?_
  rw [hover]

/-- The order of factors that share no column does not matter. -/
theorem product_perm (h : fs.Perm gs) (hd : Separate fs) : product env fs = product env gs := by
  induction h with
  | nil => rfl
  | cons f _ ih => rw [product, product, ih (List.pairwise_cons.1 hd).2]
  | swap f g fs =>
    have := (List.pairwise_cons.1 hd).1 f (List.mem_cons_self ..)
    exact product_swap fun c hc => Bool.eq_false_iff.2 (this c hc)
  | trans h₁ _ ih₁ ih₂ =>
    rw [ih₁ hd, ih₂ (hd.perm h₁)]

/-- A filter on the first factor may wait if the other factors cannot change its outcome. -/
theorem product_filter (h : ∀ a ∈ A, ∀ b ∈ product env fs, F (Row.over p a b) = F a) :
    product env (⟨p, A.filter (F · = true)⟩ :: fs) =
      (product env (⟨p, A⟩ :: fs)).filter (F · = true) := by
  simp only [product]
  rw [Multiset.filter_bind, Multiset.bind_filter]
  refine Multiset.bind_congr fun a ha => ?_
  rw [Multiset.filter_map]
  cases hF : F a with
  | true =>
    rw [if_pos rfl]
    exact congrArg _ (Multiset.filter_eq_self.2 fun b hb => (h a ha b hb).trans hF).symm
  | false =>
    rw [if_neg Bool.false_ne_true, Multiset.filter_eq_nil.2 fun b hb => by
      rw [Function.comp_apply, h a ha b hb, hF]
      exact Bool.false_ne_true, Multiset.map_zero]

theorem product_pair : product env (⟨fun c => f.has c || g.has c, product env [f, g]⟩ :: fs) =
    product env (f :: g :: fs) := by
  have hover : ∀ a b x : Row V, Row.over (fun c => f.has c || g.has c)
      (Row.over f.has a (Row.over g.has b env)) x = Row.over f.has a (Row.over g.has b x) := by
    intro a b x
    funext c
    simp only [Row.over]
    by_cases hf : f.has c = true <;> by_cases hg : g.has c = true <;> simp [hf, hg]
  simp only [product, Multiset.map_bind, Multiset.map_map, Multiset.bind_assoc,
    Multiset.map_singleton, Multiset.bind_singleton, Multiset.bind_map, Function.comp_def, hover]

end Product

/-- What is given for the meaning of plans with values in `V`. A condition reads its own columns
only, and an equality holds in both directions. Limits and joins that are not inner may depend on
the columns and rows of their inputs in any way. -/
structure Interpretation (V : Type) where
  env : Row V
  scan : Tag → TableScan → Multiset (Row V)
  sat : Expr → Row V → Bool
  limit : Nat → Finset Column → Multiset (Row V) → Multiset (Row V)
  outer : Join → Finset Column → Finset Column → Multiset (Row V) → Multiset (Row V) →
    Multiset (Row V)
  sat_congr : ∀ (e : Expr) (a b : Row V), (∀ c ∈ e.columns, a c = b c) → sat e a = sat e b
  sat_swapped : ∀ (e : Edge) (a : Row V), sat e.swapped.toExpr a = sat e.toExpr a

/-- The columns that a plan puts out, in no order. -/
def Node.columnSet (n : Node) : Finset Column := n.schema.columns.toFinset

/-- All conditions of a join. -/
def Join.conditions (j : Join) : List Expr := j.edges.map Edge.toExpr ++ j.residuals

namespace Interpretation
variable {V : Type} (I : Interpretation V)

/-- The row satisfies all conditions. -/
def satAll (conditions : List Expr) (a : Row V) : Bool := conditions.all (I.sat · a)

/-- What an operator with one input makes of a bag of rows with the given columns. -/
def unary : UnaryOp → Finset Column → Multiset (Row V) → Multiset (Row V)
  | .filter conditions, _, rows => rows.filter (I.satAll conditions · = true)
  | .project columns, _, rows => rows.map fun a => Row.over (decide <| · ∈ columns) a I.env
  | .limit count, input, rows => I.limit count input rows

/-- The bag of rows that a plan denotes. -/
def denote : Node → Multiset (Row V)
  | .scan tag s => I.scan tag s
  | .unary _ op input => I.unary op input.columnSet (denote input)
  | .join _ j left right =>
    if j.isInner then
      (product I.env [⟨left.produces, denote left⟩, ⟨right.produces, denote right⟩]).filter
        (I.satAll j.conditions · = true)
    else I.outer j left.columnSet right.columnSet (denote left) (denote right)

end Interpretation

namespace Node

/-- All conditions of the inner joins above the members. -/
def groupConditions (n : Node) : List Expr := n.innerEdges.map Edge.toExpr ++ n.innerResiduals

/-- A condition of an inner join above the members reads a column in `known` only if the join puts
that column out. -/
def LocalIn (known : Column → Bool) : Node → Prop
  | join _ j left right =>
    if j.isInner then
      LocalIn known left ∧ LocalIn known right ∧
        ∀ e ∈ j.conditions, ∀ c ∈ e.columns, known c = true →
          (left.produces c || right.produces c) = true
    else True
  | _ => True

instance decidableLocalIn (known : Column → Bool) : (n : Node) → Decidable (n.LocalIn known)
  | scan _ _ => isTrue trivial
  | unary _ _ _ => isTrue trivial
  | join _ j left right =>
    have := decidableLocalIn known left
    have := decidableLocalIn known right
    if h : j.isInner then
      decidable_of_iff (LocalIn known left ∧ LocalIn known right ∧
        ∀ e ∈ j.conditions, ∀ c ∈ e.columns, known c = true →
          (left.produces c || right.produces c) = true) (by rw [LocalIn, if_pos h])
    else isTrue (by rw [LocalIn, if_neg h]; trivial)

theorem localIn_of_not_inner {known : Column → Bool} {n : Node} (h : n.isInnerJoin = false) :
    n.LocalIn known := by
  cases n with
  | scan => trivial
  | unary => trivial
  | join t j l r =>
    rw [LocalIn, if_neg (by simpa [isInnerJoin] using h)]
    trivial

end Node

namespace Interpretation
variable {V : Type} (I : Interpretation V)

/-- A plan as a factor of a product. -/
def factor (n : Node) : Factor V := ⟨n.produces, I.denote n⟩

theorem satAll_append (es fs : List Expr) (a : Row V) :
    I.satAll (es ++ fs) a = (I.satAll es a && I.satAll fs a) := List.all_append ..

theorem satAll_perm {es fs : List Expr} (h : es.Perm fs) (a : Row V) :
    I.satAll es a = I.satAll fs a := h.all_eq

theorem sat_of_ends {e f : Edge} (h : e.ends = f.ends) (a : Row V) :
    I.sat e.toExpr a = I.sat f.toExpr a := by
  rcases Edge.ends_eq_iff.1 h with rfl | rfl
  · rfl
  · exact I.sat_swapped f a

theorem satAll_edges {es fs : List Edge} (h : (es.map Edge.ends).Perm (fs.map Edge.ends))
    (a : Row V) : I.satAll (es.map Edge.toExpr) a = I.satAll (fs.map Edge.toExpr) a := by
  have key : ∀ {es fs : List Edge}, (∀ x ∈ fs.map Edge.ends, x ∈ es.map Edge.ends) →
      I.satAll (es.map Edge.toExpr) a = true → I.satAll (fs.map Edge.toExpr) a = true := by
    intro es fs hsub hes
    simp only [satAll, List.all_map, List.all_eq_true, Function.comp_apply] at hes ⊢
    intro f hf
    obtain ⟨e, he, hef⟩ := List.mem_map.1 (hsub _ (List.mem_map_of_mem hf))
    rw [← I.sat_of_ends hef]
    exact hes e he
  rw [Bool.eq_iff_iff]
  exact ⟨key fun x hx => h.mem_iff.2 hx, key fun x hx => h.mem_iff.1 hx⟩

theorem satAll_congr {es : List Expr} {a b : Row V}
    (h : ∀ e ∈ es, ∀ c ∈ e.columns, a c = b c) : I.satAll es a = I.satAll es b := by
  induction es with
  | nil => rfl
  | cons e es ih =>
    rw [List.forall_mem_cons] at h
    unfold satAll at ih ⊢
    rw [List.all_cons, List.all_cons, I.sat_congr e a b h.1, ih h.2]

theorem separate_of_members {n : Node} {rest : List (Factor V)}
    (h : Separate (n.members.map I.factor ++ rest)) : Separate (I.factor n :: rest) := by
  obtain ⟨-, hrest, hcross⟩ := List.pairwise_append.1 h
  refine List.pairwise_cons.2 ⟨fun f hf c hn hc => ?_, hrest⟩
  have hn : n.produces c = true := hn
  rw [n.produces_members, List.any_eq_true] at hn
  obtain ⟨m, hm, hmc⟩ := hn
  exact hcross _ (List.mem_map_of_mem hm) f hf c hmc hc

theorem denote_inner {tag : Tag} {j : Join} {l r : Node} (hj : j.isInner = true) :
    I.denote (.join tag j l r) =
      (product I.env [I.factor l, I.factor r]).filter (I.satAll j.conditions · = true) := by
  rw [denote, if_pos hj]
  rfl

theorem product_join {known : Column → Bool} {tag : Tag} {j : Join} {l r : Node}
    {rest : List (Factor V)} (hj : j.isInner = true)
    (hl : ∀ e ∈ j.conditions, ∀ c ∈ e.columns, known c = true →
      (l.produces c || r.produces c) = true)
    (hk : ∀ f ∈ rest, ∀ c, f.has c = true → known c = true) :
    product I.env (I.factor (.join tag j l r) :: rest) =
      (product I.env (I.factor l :: I.factor r :: rest)).filter
        (I.satAll j.conditions · = true) := by
  have hhas : (Node.join tag j l r).produces = fun c => l.produces c || r.produces c :=
    funext (Node.produces_join tag j l r)
  rw [factor, I.denote_inner hj, hhas]
  refine (product_filter fun a ha b hb => I.satAll_congr fun e he c hc => ?_).trans
    (congrArg _ (product_pair (f := I.factor l) (g := I.factor r)))
  cases hp : l.produces c || r.produces c with
  | true => rw [Row.over, if_pos hp]
  | false =>
    have hrest : ∀ f ∈ rest, f.has c = false := fun f hf => Bool.eq_false_iff.2 fun hfc => by
      rw [hl e he c hc (hk f hf c hfc)] at hp
      cases hp
    have hlr : ∀ f ∈ [I.factor l, I.factor r], f.has c = false := by
      rw [Bool.or_eq_false_iff] at hp
      simpa [factor] using hp
    rw [Row.over, if_neg (by rw [hp]; exact Bool.false_ne_true), eq_env_of_mem_product hb hrest,
      eq_env_of_mem_product ha hlr]

theorem product_members_of_not_inner {n : Node} {rest : List (Factor V)}
    (hn : n.isInnerJoin = false) : product I.env (I.factor n :: rest) =
      (product I.env (n.members.map I.factor ++ rest)).filter
        (I.satAll n.groupConditions · = true) := by
  rw [Node.groupConditions, Node.members_of_not_inner hn, Node.innerEdges_of_not_inner hn,
    Node.innerResiduals_of_not_inner hn]
  exact (Multiset.filter_eq_self.2 fun _ _ => rfl).symm

theorem satAll_groupConditions {tag : Tag} {j : Join} {l r : Node} (hj : j.isInner = true)
    (a : Row V) : I.satAll (Node.join tag j l r).groupConditions a =
      (I.satAll j.conditions a && I.satAll l.groupConditions a && I.satAll r.groupConditions a) := by
  unfold Node.groupConditions Join.conditions
  rw [Node.innerEdges, Node.innerResiduals, if_pos hj, if_pos hj]
  simp only [List.map_append, satAll_append]
  ac_rfl

/-- A tree of inner joins among other factors is the product of its members, as far as it satisfies
all its conditions. -/
theorem product_members {known : Column → Bool} {n : Node} {rest : List (Factor V)}
    (hl : n.LocalIn known)
    (hk : ∀ c, n.produces c = true ∨ (∃ f ∈ rest, f.has c = true) → known c = true)
    (hs : Separate (n.members.map I.factor ++ rest)) :
    product I.env (I.factor n :: rest) =
      (product I.env (n.members.map I.factor ++ rest)).filter
        (I.satAll n.groupConditions · = true) := by
  induction n generalizing rest with
  | scan => exact I.product_members_of_not_inner rfl
  | unary => exact I.product_members_of_not_inner rfl
  | join tag j l r ihl ihr =>
    cases hj : j.isInner with
    | false => exact I.product_members_of_not_inner hj
    | true =>
      rw [Node.LocalIn, if_pos hj] at hl
      obtain ⟨hll, hlr, hlj⟩ := hl
      have hmem : (Node.join tag j l r).members = l.members ++ r.members := by
        rw [Node.members, if_pos hj]
      have hprod := Node.produces_join tag j l r
      rw [hmem, List.map_append, List.append_assoc] at hs ⊢
      have hsr : Separate (r.members.map I.factor ++ (l.members.map I.factor ++ rest)) :=
        hs.perm (List.perm_append_comm_assoc ..)
      have hr : Separate (I.factor r :: (l.members.map I.factor ++ rest)) :=
        I.separate_of_members hsr
      have hperm : (I.factor r :: (l.members.map I.factor ++ rest)).Perm
          (l.members.map I.factor ++ I.factor r :: rest) := List.perm_middle.symm
      have hkl : ∀ c, l.produces c = true ∨ (∃ f ∈ I.factor r :: rest, f.has c = true) →
          known c = true := by
        rintro c (hc | ⟨f, hf, hc⟩)
        · exact hk c (.inl (by rw [hprod, hc, Bool.true_or]))
        · rcases List.mem_cons.1 hf with rfl | hf
          · have hc : r.produces c = true := hc
            exact hk c (.inl (by rw [hprod, hc, Bool.or_true]))
          · exact hk c (.inr ⟨f, hf, hc⟩)
      have hkr : ∀ c, r.produces c = true ∨
          (∃ f ∈ l.members.map I.factor ++ rest, f.has c = true) → known c = true := by
        rintro c (hc | ⟨f, hf, hc⟩)
        · exact hk c (.inl (by rw [hprod, hc, Bool.or_true]))
        · rcases List.mem_append.1 hf with hf | hf
          · obtain ⟨m, hm, rfl⟩ := List.mem_map.1 hf
            have hlc : l.produces c = true := by
              rw [l.produces_members, List.any_eq_true]
              exact ⟨m, hm, hc⟩
            exact hk c (.inl (by rw [hprod, hlc, Bool.true_or]))
          · exact hk c (.inr ⟨f, hf, hc⟩)
      rw [I.product_join hj hlj fun f hf c hc => hk c (.inr ⟨f, hf, hc⟩),
        ihl hll hkl (hr.perm hperm), ← product_perm hperm hr,
        ihr hlr hkr hsr,
        product_perm (List.perm_append_comm_assoc ..) hsr, Multiset.filter_filter,
        Multiset.filter_filter]
      refine Multiset.filter_congr fun a _ => ?_
      rw [I.satAll_groupConditions hj]
      simp only [Bool.and_eq_true, and_assoc]

end Interpretation

end JoinOrder
