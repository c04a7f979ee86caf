import Mathlib.Data.List.Forall2
import Mathlib.Data.Sym.Sym2
import JoinOrder.Greedy.Connection
import JoinOrder.JoinGroup

/-!
# Edges between two plans

An edge lies *between* two plans if it has one end in each of them, *within* a plan if it has both
ends in it, and *touches* a plan if it has an end in it. `ends` forgets which way an edge is
turned: the edges that connect two plans are, up to turning, those that lie between them
(`map_ends_connecting`).
-/

namespace JoinOrder

/-- No column belongs to both plans. -/
def Node.Apart (m n : Node) : Prop := ∀ c, m.produces c = true → n.produces c = true → False

theorem Node.apart_iff {m n : Node} :
    m.Apart n ↔ ∀ c ∈ m.schema.columns, n.produces c = false := by
  refine forall_congr' fun c => ?_
  rw [produces_iff (n := m), Bool.eq_false_iff]

instance (m n : Node) : Decidable (m.Apart n) := decidable_of_iff _ Node.apart_iff.symm

theorem Node.Apart.symm {m n : Node} (h : m.Apart n) : n.Apart m := fun c hn hm => h c hm hn

/-- The two plans produce the same columns. -/
def Node.SameColumns (m n : Node) : Prop := ∀ c, m.produces c = n.produces c

/-- The plan produces every column that the condition reads. -/
def Node.covers (n : Node) (e : Expr) : Bool := e.columns.all n.produces

theorem Node.covers_join (t : Tag) (j : Join) (l r : Node) (e : Expr) :
    (Node.join t j l r).covers e = e.coveredBy l r := by
  unfold covers Expr.coveredBy
  exact congrArg e.columns.all (funext fun c => produces_join t j l r c)

theorem Node.covers_mono {m n : Node} (h : ∀ c, m.produces c = true → n.produces c = true) {e : Expr}
    (he : m.covers e = true) : n.covers e = true := by
  unfold covers at he ⊢
  rw [List.all_eq_true] at he ⊢
  exact fun c hc => h c (he c hc)

namespace Edge

/-- The two ends, in no order. -/
def ends (e : Edge) : Sym2 Column := s(e.left, e.right)

@[simp] theorem ends_swapped (e : Edge) : e.swapped.ends = e.ends := Sym2.eq_swap

theorem ends_eq_iff {e f : Edge} : e.ends = f.ends ↔ e = f ∨ e = f.swapped := by
  unfold ends swapped
  rw [Sym2.eq_iff]
  cases e; cases f; simp

/-- One end is in each of the two plans. -/
def between (e : Edge) (l r : Node) : Bool :=
  l.produces e.left && r.produces e.right || r.produces e.left && l.produces e.right

/-- Both ends are in the plan. -/
def within (e : Edge) (n : Node) : Bool := n.produces e.left && n.produces e.right

/-- An end is in the plan. -/
def touches (e : Edge) (n : Node) : Bool := n.produces e.left || n.produces e.right

variable {e f : Edge} {l r : Node}

theorem between_symm (e : Edge) (l r : Node) : e.between l r = e.between r l := by
  unfold between
  exact Bool.or_comm _ _

theorem between_of_ends (h : e.ends = f.ends) (l r : Node) : e.between l r = f.between l r := by
  rcases ends_eq_iff.1 h with rfl | rfl
  · rfl
  · unfold between swapped
    rw [Bool.and_comm (l.produces f.right), Bool.and_comm (r.produces f.right), Bool.or_comm]

theorem touches_of_ends (h : e.ends = f.ends) (n : Node) : e.touches n = f.touches n := by
  rcases ends_eq_iff.1 h with rfl | rfl
  · rfl
  · exact Bool.or_comm _ _

theorem isSome_orient? (e : Edge) (l r : Node) : (e.orient? l r).isSome = e.between l r := by
  unfold orient? between
  cases l.produces e.left && r.produces e.right <;>
    cases r.produces e.left && l.produces e.right <;> rfl

theorem of_orient? (h : e.orient? l r = some f) :
    f.ends = e.ends ∧ l.produces f.left = true ∧ r.produces f.right = true := by
  unfold orient? at h
  split at h
  · rename_i h'
    cases h
    exact ⟨rfl, Bool.and_eq_true_iff.1 h'⟩
  split at h
  · rename_i h'
    cases h
    exact ⟨ends_swapped e, (Bool.and_eq_true_iff.1 h').symm⟩
  · cases h

theorem within_join (e : Edge) (t : Tag) (j : Join) (l r : Node) :
    e.within (.join t j l r) = (e.within l || e.within r || e.between l r) := by
  unfold within between
  rw [Node.produces_join, Node.produces_join]
  cases l.produces e.left <;> cases l.produces e.right <;> cases r.produces e.left <;>
    cases r.produces e.right <;> rfl

theorem between_of_within {t : Tag} {j : Join}
    (h : e.within (.join t j l r) = true) (hl : e.touches l = true) (hr : e.touches r = true) :
    e.between l r = true := by
  unfold within at h
  unfold touches at hl hr
  unfold between
  rw [Node.produces_join, Node.produces_join] at h
  revert h hl hr
  cases l.produces e.left <;> cases l.produces e.right <;> cases r.produces e.left <;>
    cases r.produces e.right <;> decide

theorem touches_left (h : e.between l r = true) : e.touches l = true := by
  unfold between at h
  unfold touches
  rcases Bool.or_eq_true_iff.1 h with h | h
  · rw [(Bool.and_eq_true_iff.1 h).1, Bool.true_or]
  · rw [(Bool.and_eq_true_iff.1 h).2, Bool.or_true]

theorem touches_right (h : e.between l r = true) : e.touches r = true :=
  touches_left (by rwa [between_symm])

end Edge

section Connecting
variable {edges : List Edge} {l r : Node}

/-- Up to turning, two plans are connected by the edges between them, in order. -/
theorem map_ends_connecting (edges : List Edge) (l r : Node) :
    (connecting edges l r).map Edge.ends = (edges.filter (·.between l r)).map Edge.ends := by
  induction edges with
  | nil => rfl
  | cons e edges ih =>
    unfold connecting at ih ⊢
    have he := e.isSome_orient? l r
    cases h : e.orient? l r with
    | none =>
      rw [h] at he
      rw [List.filterMap_cons_none (by exact h), ih, List.filter_cons_of_neg (by rw [← he]; simp)]
    | some f =>
      rw [h] at he
      rw [List.filterMap_cons_some (by exact h), List.map_cons, ih, List.filter_cons_of_pos (by exact he.symm),
        List.map_cons, (Edge.of_orient? h).1]

theorem connecting_eq_nil : connecting edges l r = [] ↔ ∀ e ∈ edges, e.between l r = false := by
  rw [← List.map_eq_nil_iff (f := Edge.ends), map_ends_connecting, List.map_eq_nil_iff,
    List.filter_eq_nil_iff]
  simp

theorem connecting_ne_nil : connecting edges l r ≠ [] ↔ ∃ e ∈ edges, e.between l r = true := by
  rw [Ne, connecting_eq_nil]
  simp

theorem connecting_symm : connecting edges l r = [] ↔ connecting edges r l = [] := by
  simp only [connecting_eq_nil, Edge.between_symm _ l r]

/-- Whether a plan is connected with some of several plans depends on their columns together. -/
theorem forall_connecting_eq_nil {ms ns : List Node}
    (h : ∀ c, (∃ m ∈ ms, m.produces c = true) ↔ ∃ n ∈ ns, n.produces c = true) :
    (∀ m ∈ ms, connecting edges l m = []) ↔ ∀ n ∈ ns, connecting edges l n = [] := by
  have key : ∀ ps : List Node, (∀ p ∈ ps, connecting edges l p = []) ↔ ∀ e ∈ edges,
      ¬ (l.produces e.left = true ∧ ∃ p ∈ ps, p.produces e.right = true) ∧
        ¬ (l.produces e.right = true ∧ ∃ p ∈ ps, p.produces e.left = true) := by
    intro ps
    simp only [connecting_eq_nil, Edge.between, Bool.or_eq_false_iff, Bool.and_eq_false_iff]
    constructor
    · intro hp e he
      refine ⟨?_, ?_⟩
      · rintro ⟨hl, p, hps, hr⟩
        have := (hp p hps e he).1
        simp [hl, hr] at this
      · rintro ⟨hl, p, hps, hr⟩
        have := (hp p hps e he).2
        simp [hl, hr] at this
    · intro hp p hps e he
      obtain ⟨h₁, h₂⟩ := hp e he
      refine ⟨?_, ?_⟩
      · by_contra hn
        simp only [not_or, Bool.not_eq_false] at hn
        exact h₁ ⟨hn.1, p, hps, hn.2⟩
      · by_contra hn
        simp only [not_or, Bool.not_eq_false] at hn
        exact h₂ ⟨hn.2, p, hps, hn.1⟩
  simp only [key, h]

theorem of_mem_connecting {f : Edge} (h : f ∈ connecting edges l r) :
    (∃ e ∈ edges, f.ends = e.ends) ∧ l.produces f.left = true ∧ r.produces f.right = true := by
  obtain ⟨e, he, hf⟩ := List.mem_filterMap.1 h
  have := Edge.of_orient? hf
  exact ⟨⟨e, he, this.1⟩, this.2⟩

theorem connecting_append (es fs : List Edge) (l r : Node) :
    connecting (es ++ fs) l r = connecting es l r ++ connecting fs l r := List.filterMap_append ..

theorem connecting_eq_self
    (h : ∀ e ∈ edges, l.produces e.left = true ∧ r.produces e.right = true) :
    connecting edges l r = edges := by
  unfold connecting
  rw [List.filterMap_congr (g := some), List.filterMap_some]
  intro e he
  unfold Edge.orient?
  rw [(h e he).1, (h e he).2]
  rfl

theorem Edge.orient?_of_ends {e f : Edge} (hap : l.Apart r) (h : e.ends = f.ends) :
    e.orient? l r = f.orient? l r := by
  rcases ends_eq_iff.1 h with rfl | rfl
  · rfl
  · unfold orient? swapped
    have hl := hap f.left
    have hr := hap f.right
    split_ifs <;> simp_all [swapped]

/-- Between plans that share no column, neither the order nor the turn of the given edges matters
for which edges connect. -/
theorem connecting_perm {es fs : List Edge} (hap : l.Apart r)
    (h : (es.map Edge.ends).Perm (fs.map Edge.ends)) :
    (connecting es l r).Perm (connecting fs l r) := by
  have hfactor : Function.FactorsThrough (fun e : Edge => e.orient? l r) Edge.ends :=
    fun _ _ => Edge.orient?_of_ends hap
  have key : ∀ es : List Edge, connecting es l r =
      (es.map Edge.ends).filterMap (Function.extend Edge.ends (fun e => e.orient? l r) fun _ => none) := by
    intro es
    rw [List.filterMap_map]
    refine List.filterMap_congr fun e _ => ?_
    exact (hfactor.extend_apply _ e).symm
  rw [key, key]
  exact h.filterMap _

end Connecting

theorem exists_of_mem_right {α β : Type} {R : α → β → Prop} {as : List α} {bs : List β} {b : β}
    (h : List.Forall₂ R as bs) (hb : b ∈ bs) : ∃ a ∈ as, R a b := by
  induction h with
  | nil => cases hb
  | cons hR _ ih =>
    rcases List.mem_cons.1 hb with rfl | hb
    · exact ⟨_, List.mem_cons_self .., hR⟩
    · obtain ⟨a, ha, hab⟩ := ih hb
      exact ⟨a, List.mem_cons_of_mem _ ha, hab⟩

theorem exists_of_mem_left {α β : Type} {R : α → β → Prop} {as : List α} {bs : List β} {a : α}
    (h : List.Forall₂ R as bs) (ha : a ∈ as) : ∃ b ∈ bs, R a b :=
  exists_of_mem_right (R := flip R) (.flip h) ha

theorem pairwise_of_forall₂ {α β : Type} {R : α → α → Prop} {S : β → β → Prop} {P : α → β → Prop}
    {as : List α} {bs : List β} (h : List.Forall₂ P as bs) (hp : as.Pairwise R)
    (hi : ∀ a a' b b', P a b → P a' b' → R a a' → S b b') : bs.Pairwise S := by
  induction h with
  | nil => exact .nil
  | @cons a b as bs hab hrest ih =>
    obtain ⟨ha, hp⟩ := List.pairwise_cons.1 hp
    refine List.pairwise_cons.2 ⟨fun b' hb' => ?_, ih hp⟩
    obtain ⟨a', ha', hab'⟩ := exists_of_mem_right hrest hb'
    exact hi a a' b b' hab hab' (ha a' ha')

theorem exists_perm_of_perm_map {α β : Type} {as : List α} {bs : List β} {f : α → β}
    (h : bs.Perm (as.map f)) :
    ∃ as' : List α, as'.Perm as ∧ bs = as'.map f := by
  have hmap : List.Forall₂ (fun b a => b = f a) (as.map f) as :=
    List.forall₂_map_left_iff.2 (List.forall₂_same.2 fun _ _ => rfl)
  obtain ⟨as', has', hperm⟩ := List.perm_comp_forall₂ h hmap
  refine ⟨as', hperm, ?_⟩
  rwa [← List.forall₂_eq_eq_eq, List.forall₂_map_right_iff]

section SameColumns
variable {ms ns : List Node} (h : List.Forall₂ Node.SameColumns ms ns)
include h

theorem any_produces_congr (c : Column) : ms.any (·.produces c) = ns.any (·.produces c) := by
  induction h with
  | nil => rfl
  | cons hmn _ ih => rw [List.any_cons, List.any_cons, hmn, ih]

theorem countP_touches_congr (e : Edge) : ms.countP e.touches = ns.countP e.touches := by
  induction h with
  | nil => rfl
  | @cons m n _ _ hmn _ ih =>
    have : e.touches m = e.touches n := by rw [Edge.touches, Edge.touches, hmn, hmn]
    rw [List.countP_cons, List.countP_cons, ih, this]

theorem ownerOf?_congr (c : Column) : ownerOf? ms c = ownerOf? ns c := by
  unfold ownerOf?
  induction h with
  | nil => rfl
  | cons hmn _ ih => rw [List.findIdx?_cons, List.findIdx?_cons, hmn, ih]

theorem Edge.connects_congr (e : Edge) : e.connects ms = e.connects ns := by
  unfold connects
  rw [ownerOf?_congr h, ownerOf?_congr h]

theorem pairwise_apart_congr (hap : ms.Pairwise Node.Apart) : ns.Pairwise Node.Apart :=
  pairwise_of_forall₂ h hap fun _ _ _ _ hm hm' hap c hc hc' =>
    hap c ((hm c).trans hc) ((hm' c).trans hc')

end SameColumns

end JoinOrder
