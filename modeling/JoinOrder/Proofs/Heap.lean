import JoinOrder.Proofs.Pricing
import JoinOrder.Proofs.Relating

/-!
# What stands in the cells

A heap says which plan was given which cell. While plans are rewritten it grows: no cell is ever
given to another plan. So estimates remembered in cells stay right if they were
(`Estimates.Agrees.mono`), and nodes that have one cell have one shape (`Heap.Holds.bare_eq`).

`Yields` is total correctness over heaps: from a state that fits a heap the step succeeds, in a
state that fits a later heap.
-/

namespace JoinOrder

section Heights

theorem Node.inputs_bare (n : Node) : n.bare.inputs = n.inputs.map bare := by
  cases n <;> rfl

theorem Node.height_bare (n : Node) : n.bare.height = n.height := by
  induction n with
  | scan => rfl
  | unary tag op i ih => exact congrArg (· + 1) ih
  | join tag j l r ihl ihr => exact congrArg (· + 1) (congrArg₂ max ihl ihr)

theorem Node.height_le {m n : Node} (hm : m ∈ n.preorder) : m.height ≤ n.height := by
  induction n with
  | scan => exact (congrArg height (List.mem_singleton.1 hm)).le
  | unary tag op i ih =>
    rcases List.mem_cons.1 hm with rfl | hm
    · exact le_rfl
    · exact (ih hm).trans (Nat.le_succ _)
  | join tag j l r ihl ihr =>
    rcases List.mem_cons.1 hm with rfl | hm
    · exact le_rfl
    · refine le_trans ?_ (Nat.le_succ _)
      exact (List.mem_append.1 hm).elim (fun hm => (ihl hm).trans (le_max_left ..))
        fun hm => (ihr hm).trans (le_max_right ..)

theorem Node.height_lt {i n : Node} (hi : i ∈ n.inputs) : i.height < n.height := by
  cases n with
  | scan => cases hi
  | unary tag op input =>
    rw [List.mem_singleton.1 hi]
    exact Nat.lt_succ_self _
  | join tag j l r =>
    rcases List.mem_pair.1 hi with rfl | rfl
    · exact Nat.lt_succ_of_le (le_max_left ..)
    · exact Nat.lt_succ_of_le (le_max_right ..)

theorem Node.mem_preorder_of_input {i m n : Node} (hi : i ∈ n.inputs) (hm : m ∈ i.preorder) :
    m ∈ n.preorder := by
  cases n with
  | scan => cases hi
  | unary tag op input => exact List.mem_cons_of_mem _ (List.mem_singleton.1 hi ▸ hm)
  | join tag j l r =>
    refine List.mem_cons_of_mem _ (List.mem_append.2 ?_)
    rcases List.mem_pair.1 hi with rfl | rfl
    · exact .inl hm
    · exact .inr hm

theorem Node.mem_preorder_trans {k m n : Node} (hk : k ∈ m.preorder) (hm : m ∈ n.preorder) :
    k ∈ n.preorder := by
  induction n with
  | scan => exact List.mem_singleton.1 hm ▸ hk
  | unary tag op i ih =>
    rcases List.mem_cons.1 hm with rfl | hm
    · exact hk
    · exact List.mem_cons_of_mem _ (ih hm)
  | join tag j l r ihl ihr =>
    rcases List.mem_cons.1 hm with rfl | hm
    · exact hk
    · exact List.mem_cons_of_mem _ (List.mem_append.2 ((List.mem_append.1 hm).imp ihl ihr))

end Heights

/-- The plans that stand in the cells given away so far, without their tags. -/
structure Heap where
  size : Nat
  node? : Nat → Option Node

namespace Heap

/-- Every node of the plan stands in its cell. -/
def Holds (h : Heap) (n : Node) : Prop :=
  ∀ m ∈ n.preorder, m.cell < h.size ∧ h.node? m.cell = some m.bare

/-- What stands in the heap `h` stands in `h'`. -/
structure Before (h h' : Heap) : Prop where
  size : h.size ≤ h'.size
  node? : ∀ c < h.size, h'.node? c = h.node? c

/-- The heap with a plan in the next cell. -/
def push (h : Heap) (n : Node) : Heap :=
  ⟨h.size + 1, fun c => if c = h.size then some n.bare else h.node? c⟩

variable {h h' h'' : Heap} {m n : Node}

theorem Before.refl (h : Heap) : h.Before h := ⟨le_rfl, fun _ _ => rfl⟩

theorem Before.trans (hb : h.Before h') (hb' : h'.Before h'') : h.Before h'' :=
  ⟨hb.size.trans hb'.size, fun c hc => (hb'.node? c (by have := hb.size; omega)).trans (hb.node? c hc)⟩

instance : World Heap := ⟨Before, .refl, .trans⟩

theorem before_push (h : Heap) (n : Node) : h.Before (h.push n) :=
  ⟨Nat.le_succ _, fun _ hc => if_neg (Nat.ne_of_lt hc)⟩

theorem Holds.mono (hn : h.Holds n) (hb : h.Before h') : h'.Holds n := fun m hm => by
  obtain ⟨hc, hm⟩ := hn m hm
  exact ⟨hc.trans_le hb.size, (hb.node? _ hc).trans hm⟩

theorem Holds.self (hn : h.Holds n) : n.cell < h.size ∧ h.node? n.cell = some n.bare :=
  hn n n.mem_preorder_self

theorem Holds.bare_eq (hm : h.Holds m) (hn : h.Holds n) (hc : m.cell = n.cell) : m.bare = n.bare := by
  have := hm.self.2
  rw [hc, hn.self.2] at this
  exact (Option.some.inj this).symm

theorem holds_unary {tag : Tag} {op : UnaryOp} {i : Node} : h.Holds (.unary tag op i) ↔
    (tag.cell < h.size ∧ h.node? tag.cell = some (.unary .blank op i.bare)) ∧ h.Holds i :=
  List.forall_mem_cons

theorem holds_join {tag : Tag} {j : Join} {l r : Node} : h.Holds (.join tag j l r) ↔
    (tag.cell < h.size ∧ h.node? tag.cell = some (.join .blank j l.bare r.bare)) ∧
      h.Holds l ∧ h.Holds r :=
  List.forall_mem_cons.trans (and_congr_right' List.forall_mem_append)

theorem Holds.input {i : Node} (hn : h.Holds n) (hi : i ∈ n.inputs) : h.Holds i :=
  fun m hm => hn m (Node.mem_preorder_of_input hi hm)

theorem Holds.sub (hn : h.Holds n) (hm : m ∈ n.preorder) : h.Holds m :=
  fun k hk => hn k (Node.mem_preorder_trans hk hm)

theorem Holds.cell_ne (hm : h.Holds m) (hn : h.Holds n) (hlt : m.height < n.height) :
    m.cell ≠ n.cell := fun hc => by
  have hheight := congrArg Node.height (hm.bare_eq hn hc)
  rw [m.height_bare, n.height_bare] at hheight
  exact absurd hheight hlt.ne

/-- What is below a node stands in other cells. -/
theorem Holds.cell_ne_below {i : Node} (hn : h.Holds n) (hi : i ∈ n.inputs) (hm : m ∈ i.preorder) :
    m.cell ≠ n.cell :=
  ((hn.input hi).sub hm).cell_ne hn ((Node.height_le hm).trans_lt (Node.height_lt hi))

theorem holds_push (hn : n.cell = h.size) (hi : ∀ i ∈ n.inputs, h.Holds i) :
    (h.push n).Holds n := by
  have hself : n.cell < (h.push n).size ∧ (h.push n).node? n.cell = some n.bare := by
    rw [hn]
    exact ⟨Nat.lt_succ_self _, if_pos rfl⟩
  have hi : ∀ i ∈ n.inputs, (h.push n).Holds i := fun i hmem => (hi i hmem).mono (before_push h n)
  cases n with
  | scan => exact fun m hm => List.mem_singleton.1 hm ▸ hself
  | unary => exact holds_unary.2 ⟨hself, hi _ (by simp [Node.inputs])⟩
  | join => exact holds_join.2 ⟨hself, hi _ (by simp [Node.inputs]), hi _ (by simp [Node.inputs])⟩

/-- The heap of a plan whose cells are below `size`. -/
def ofPlan (size : Nat) (n : Node) : Heap :=
  ⟨size, fun c => (n.preorder.find? (·.cell = c)).map Node.bare⟩

/-- A plan is in its heap if nodes of one cell have one shape. -/
theorem holds_ofPlan {size : Nat} (hsize : ∀ m ∈ n.preorder, m.cell < size)
    (hshape : ∀ m ∈ n.preorder, ∀ k ∈ n.preorder, m.cell = k.cell → m.shape = k.shape) :
    (ofPlan size n).Holds n := by
  intro m hm
  refine ⟨hsize m hm, ?_⟩
  cases hfind : n.preorder.find? (·.cell = m.cell) with
  | none =>
    have := List.find?_eq_none.1 hfind m hm
    simp at this
  | some k =>
    have hc : k.cell = m.cell := by simpa using List.find?_some hfind
    have hbare := Node.bare_eq_iff.2 (hshape k (List.mem_of_find?_eq_some hfind) m hm hc)
    change (n.preorder.find? (·.cell = m.cell)).map Node.bare = some m.bare
    rw [hfind, Option.map_some, hbare]

end Heap

section Agreement
variable {ν σ : Type}

/-- The estimate of a plan that is derived operator by operator. -/
def derived (derive : Node → List (Statistics ν) → Statistics ν) : Node → Statistics ν
  | .scan tag s => derive (.scan tag s) []
  | .unary tag op input => derive (.unary tag op input) [derived derive input]
  | .join tag j left right =>
    derive (.join tag j left right) [derived derive left, derived derive right]

theorem derived_eq (derive : Node → List (Statistics ν) → Statistics ν) (n : Node) :
    derived derive n = derive n (n.inputs.map (derived derive)) := by
  cases n <;> rfl

/-- What is remembered in a cell is the derived estimate of the plan that stands there. -/
structure Estimates.Agrees (derive : Node → List (Statistics ν) → Statistics ν) (h : Heap)
    (e : Estimates ν σ) : Prop where
  size : ∀ c s, e.memo c = some s → c < h.size
  memo : ∀ c n s, h.node? c = some n → e.memo c = some s → s = derived derive n

variable {derive : Node → List (Statistics ν) → Statistics ν} {h h' : Heap} {e : Estimates ν σ}

theorem Estimates.Agrees.mono (ha : e.Agrees derive h) (hb : h.Before h') : e.Agrees derive h' :=
  ⟨fun c s hs => (ha.size c s hs).trans_le hb.size, fun c n s hn hs =>
    ha.memo c n s ((hb.node? c (ha.size c s hs)).symm.trans hn) hs⟩

/-- The session fits the heap: new nodes go to the next cell, and the estimates agree. -/
structure Session.Fits (derive : Node → List (Statistics ν) → Statistics ν) (h : Heap)
    (a : Session ν σ) : Prop where
  supply : a.supply.nextCell = h.size
  estimates : a.estimates.Agrees derive h

/-- A session in which nothing has been estimated fits every heap of its size. -/
theorem Session.fits_of_empty {a : Session ν σ} (hs : a.supply.nextCell = h.size)
    (hm : a.estimates.memo = Memo.empty) : a.Fits derive h := by
  refine ⟨hs, fun c s hc => ?_, fun c n s _ hc => ?_⟩
  · rw [hm] at hc
    cases hc
  · rw [hm] at hc
    cases hc

end Agreement

/-- The step succeeds from any state that fits the heap. -/
def Yields {τ α : Type} (I : Heap → τ → Prop) (h : Heap) (x : Action τ α) (Q : Heap → α → Prop) :
    Prop :=
  ∀ a, I h a → ∃ r b h', x a = .ok r b ∧ I h' b ∧ h.Before h' ∧ Q h' r

namespace Yields
variable {τ α β : Type} {I : Heap → τ → Prop} {h : Heap} {x : Action τ α} {Q Q' : Heap → α → Prop}
  {R : Heap → β → Prop}

theorem pure {r : α} (hr : Q h r) : Yields I h (Pure.pure r) Q := fun a ha =>
  ⟨r, a, h, rfl, ha, .refl h, hr⟩

theorem imp (hx : Yields I h x Q) (hQ : ∀ h' r, h.Before h' → Q h' r → Q' h' r) : Yields I h x Q' :=
  fun a ha => by
    obtain ⟨r, b, h', hr, hb, hh, hq⟩ := hx a ha
    exact ⟨r, b, h', hr, hb, hh, hQ h' r hh hq⟩

/-- A step after another one may rely on what the first step was seen to do. -/
theorem bind {k : α → Action τ β} (hx : Yields I h x Q)
    (hk : ∀ h' a r b, x a = .ok r b → h.Before h' → Q h' r → Yields I h' (k r) R) :
    Yields I h (x >>= k) R := fun a ha => by
  obtain ⟨r, b, h', hr, hb, hh, hq⟩ := hx a ha
  obtain ⟨c, d, h'', hc, hd, hh', hR⟩ := hk h' a r b hr hh hq b hb
  exact ⟨c, d, h'', Action.bind_eq_ok.2 ⟨r, b, hr, hc⟩, hd, hh.trans hh', hR⟩

end Yields

section Steps
variable {ν σ α : Type} {derive : Node → List (Statistics ν) → Statistics ν} {h : Heap}

/-- The supply fits the heap. -/
abbrev Supply.Fits (h : Heap) (s : Supply) : Prop := s.nextCell = h.size

theorem yields_build {x : Building α} {Q : Heap → α → Prop} (hx : Yields Supply.Fits h x Q) :
    Yields (Session.Fits derive) h (Planning.build x : Planning ν σ α) Q := fun a ha => by
  obtain ⟨r, b, h', hr, hb, hh, hq⟩ := hx a.supply ha.supply
  exact ⟨r, _, h', Action.onPart_eq_ok.2 ⟨b, hr, rfl⟩, ⟨hb, ha.estimates.mono hh⟩, hh, hq⟩

theorem yields_estimating {x : Estimating ν σ α} {r : α}
    (hx : ∀ e : Estimates ν σ, e.Agrees derive h → ∃ e', x e = .ok r e' ∧ e'.Agrees derive h) :
    Yields (Session.Fits derive) h (Planning.estimating x : Planning ν σ α) fun _ r' => r' = r :=
  fun a ha => by
    obtain ⟨e', hr, he⟩ := hx a.estimates ha.estimates
    exact ⟨r, _, h, Action.onPart_eq_ok.2 ⟨e', hr, rfl⟩, ⟨ha.supply, he⟩, .refl h, rfl⟩

theorem yields_new {x : Building Node} {n : Tag → Node} {m : Node}
    (hx : ∀ a : Supply, x a = .ok (n ⟨a.nextId, a.nextCell⟩) ⟨a.nextId + 1, a.nextCell + 1⟩)
    (htag : ∀ t, (n t).tag = t) (hi : ∀ t, ∀ i ∈ (n t).inputs, h.Holds i)
    (hm : ∀ t, (n t).bare = m) :
    Yields Supply.Fits h x fun h' q => h'.Holds q ∧ q.bare = m := fun a ha => by
  refine ⟨_, _, h.push (n ⟨a.nextId, a.nextCell⟩), hx a, congrArg Nat.succ ha, h.before_push _, ?_,
    hm _⟩
  refine Heap.holds_push ?_ (hi _)
  rw [Node.cell, htag]
  exact ha

theorem yields_unary {op : UnaryOp} {i : Node} (hi : h.Holds i)
    (hop : op.missing? i.produces = none) :
    Yields Supply.Fits h (Building.node (.unary op) [i]) fun h' q =>
      h'.Holds q ∧ q.bare = .unary .blank op i.bare := by
  refine yields_new (n := fun t => .unary t op i) (fun a => ?_) (fun _ => rfl)
    (fun _ => List.forall_mem_singleton.2 hi) fun _ => rfl
  refine Action.bind_eq_ok.2 ⟨_, _, rfl, Action.ofExcept_eq_ok.2 ⟨?_, rfl⟩⟩
  rw [Node.ofOperator, hop]
  rfl

theorem yields_join {j : Join} {l r : Node} (hl : h.Holds l) (hr : h.Holds r) :
    Yields Supply.Fits h (Building.node (.join j) [l, r]) fun h' q =>
      h'.Holds q ∧ q.bare = .join .blank j l.bare r.bare :=
  yields_new (n := fun t => .join t j l r) (fun _ => rfl) (fun _ => rfl)
    (fun _ => List.forall_mem_cons.2 ⟨hl, List.forall_mem_singleton.2 hr⟩) fun _ => rfl

theorem yields_joinAny {j : Join} {l r : Node} (hl : h.Holds l) (hr : h.Holds r) :
    Yields Supply.Fits h (Action.ofState (Building.join j l r)) fun h' q =>
      h'.Holds q ∧ q.bare = .join .blank j l.bare r.bare :=
  yields_new (n := fun t => .join t j l r) (fun _ => rfl) (fun _ => rfl)
    (fun _ => List.forall_mem_cons.2 ⟨hl, List.forall_mem_singleton.2 hr⟩) fun _ => rfl

theorem yields_newJoin {j : Join} {l r : Node} (hl : h.Holds l) (hr : h.Holds r) :
    Yields (Session.Fits derive) h (Planning.newJoin j l r : Planning ν σ Node) fun h' q =>
      h'.Holds q ∧ q.bare = .join .blank j l.bare r.bare := yields_build (yields_joinAny hl hr)

end Steps

end JoinOrder
