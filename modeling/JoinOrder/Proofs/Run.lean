import Mathlib.Data.List.Forall2
import Mathlib.Logic.Relation
import JoinOrder.Greedy.Solve
import JoinOrder.Proofs.Connection

/-!
# The run of a search

`candidates_spec` says what the candidates of a state of the growth are: one for each member that is
connected with the tree. From there on a run is a sequence of moments, which are states of the
growth in a session. `Search.Next` leads from one moment to the following one: the cheapest
candidate is joined, or the tree is closed and the next one begins. `Search.Runs` follows a run to
its end. A moment *stalls* if there are candidates but none of them costs less than the ceiling: the
tree is then closed although it could grow.
-/

namespace JoinOrder

namespace Planning
variable {ν σ : Type}

theorem newJoin_eq (j : Join) (l r : Node) (a : Session ν σ) :
    newJoin j l r a = .ok (.join ⟨a.supply.nextId, a.supply.nextCell⟩ j l r)
      { a with supply := ⟨a.supply.nextId + 1, a.supply.nextCell + 1⟩ } := rfl

end Planning

section Choice
variable {ν : Type} [CostScale ν] {c : Candidate ν} {cs : List (Candidate ν)} {bound : ν}

open Search

theorem mem_of_cheapestBelow (h : cheapestBelow bound cs = some c) : c ∈ cs := by
  induction cs generalizing bound with
  | nil => cases h
  | cons d rest ih =>
    unfold cheapestBelow at h
    split at h
    · rcases Option.or_eq_some_iff.1 h with h | ⟨-, h⟩
      · exact List.mem_cons_of_mem _ (ih h)
      · cases h
        exact List.mem_cons_self ..
    · exact List.mem_cons_of_mem _ (ih h)

theorem cheapestBelow_eq_none :
    cheapestBelow bound cs = none ↔ ∀ c ∈ cs, CostScale.less c.tree.cost bound = false := by
  induction cs with
  | nil => simp [cheapestBelow]
  | cons d rest ih =>
    rw [cheapestBelow, List.forall_mem_cons]
    cases hd : CostScale.less d.tree.cost bound <;> simp [ih]

theorem cheapest?_eq_none :
    cheapest? cs = none ↔ ∀ c ∈ cs, CostScale.less c.tree.cost CostScale.ceiling = false :=
  cheapestBelow_eq_none

end Choice

/-- The members of a list that are connected with a plan, each with its position. -/
def connectedFrom {ν : Type} (edges : List Edge) (plan : Node) (start : Nat) (rest : List (Tree ν)) :
    List (Tree ν × Nat) :=
  (rest.zipIdx start).filter fun m => !(connecting edges plan m.1.plan).isEmpty

theorem mem_connectedFrom {ν : Type} {edges : List Edge} {plan : Node} {rest : List (Tree ν)}
    {m : Tree ν × Nat} :
    m ∈ connectedFrom edges plan 0 rest ↔ rest[m.2]? = some m.1 ∧ connecting edges plan m.1.plan ≠ [] := by
  unfold connectedFrom
  rw [List.mem_filter, List.mem_zipIdx_iff_getElem?, Bool.not_eq_true', List.isEmpty_eq_false_iff]

/-- The candidate joins the tree with the member `m.1`, which is at position `m.2`. -/
structure Candidate.Joins {ν σ : Type} (s : Search ν σ) (tree : Tree ν) (pending : List Expr)
    (m : Tree ν × Nat) (c : Candidate ν) : Prop where
  position : c.position = m.2
  plan : ∃ tag, c.tree.plan =
    .join tag (.attaching (connecting s.edges tree.plan m.1.plan) pending tree.plan m.1.plan)
      tree.plan m.1.plan
  cost : ∃ e e', s.model.join s.estimator c.tree.plan tree.cost m.1.cost e = .ok c.tree.cost e'
  pending : c.pending = pendingAbove pending tree.plan m.1.plan

namespace Search
variable {ν σ : Type} {s : Search ν σ} {tree : Tree ν} {pending : List Expr} {a b : Session ν σ}

theorem candidate?_of_nil {i : Nat} {m : Tree ν} (h : connecting s.edges tree.plan m.plan = []) :
    s.candidate? tree pending i m = return none := by
  unfold candidate?
  rw [h]

theorem candidate?_of_ne_nil {i : Nat} {m : Tree ν} (h : connecting s.edges tree.plan m.plan ≠ []) :
    s.candidate? tree pending i m = do
      let join ← Planning.newJoin
        (.attaching (connecting s.edges tree.plan m.plan) pending tree.plan m.plan) tree.plan m.plan
      let cost ← s.joinCost join tree m
      return some ⟨i, ⟨join, cost⟩, pendingAbove pending tree.plan m.plan⟩ := by
  unfold candidate?
  split
  · exact absurd ‹_› h
  · rfl

theorem model_of_joinCost {join : Node} {l r : Tree ν} {cost : ν}
    (h : s.joinCost join l r a = .ok cost b) :
    ∃ e e', s.model.join s.estimator join l.cost r.cost e = .ok cost e' := by
  unfold joinCost Planning.estimating at h
  obtain ⟨e', h, -⟩ := Action.onPart_eq_ok.1 h
  obtain ⟨_, e, -, h⟩ := Action.bind_eq_ok.1 h
  exact ⟨e, e', h⟩

theorem candidate?_spec {i : Nat} {m : Tree ν} {found : Option (Candidate ν)}
    (h : s.candidate? tree pending i m a = .ok found b) :
    if connecting s.edges tree.plan m.plan = [] then found = none
    else ∃ c, found = some c ∧ c.Joins s tree pending (m, i) := by
  by_cases hc : connecting s.edges tree.plan m.plan = []
  · rw [candidate?_of_nil hc] at h
    obtain ⟨rfl, -⟩ := Action.pure_eq_ok.1 h
    rw [if_pos hc]
  · rw [candidate?_of_ne_nil hc] at h
    obtain ⟨join, u, hj, h⟩ := Action.bind_eq_ok.1 h
    rw [Planning.newJoin_eq] at hj
    cases hj
    obtain ⟨cost, v, hcost, h⟩ := Action.bind_eq_ok.1 h
    obtain ⟨rfl, -⟩ := Action.pure_eq_ok.1 h
    rw [if_neg hc]
    exact ⟨_, rfl, rfl, ⟨_, rfl⟩, model_of_joinCost hcost, rfl⟩

/-- There is one candidate for each member connected with the tree, in order. -/
theorem candidates_spec {i : Nat} {rest : List (Tree ν)} {cs : List (Candidate ν)}
    (h : s.candidates tree pending i rest a = .ok cs b) :
    List.Forall₂ (Candidate.Joins s tree pending)
      (connectedFrom s.edges tree.plan i rest) cs := by
  induction rest generalizing i cs a b with
  | nil =>
    obtain ⟨rfl, -⟩ := Action.pure_eq_ok.1 h
    exact .nil
  | cons m rest ih =>
    unfold candidates at h
    obtain ⟨found, u, hf, h⟩ := Action.bind_eq_ok.1 h
    obtain ⟨others, v, ho, h⟩ := Action.bind_eq_ok.1 h
    obtain ⟨rfl, -⟩ := Action.pure_eq_ok.1 h
    have hf := candidate?_spec hf
    have ho := ih ho
    unfold connectedFrom at ho ⊢
    rw [List.zipIdx_cons, List.filter_cons]
    by_cases hc : connecting s.edges tree.plan m.plan = []
    · rw [if_pos hc] at hf
      simpa [hc, hf] using ho
    · rw [if_neg hc] at hf
      obtain ⟨c, rfl, hc'⟩ := hf
      rw [if_pos (by simpa using hc)]
      exact .cons hc' ho

theorem candidates_eq_nil {rest : List (Tree ν)} {cs : List (Candidate ν)}
    (h : s.candidates tree pending 0 rest a = .ok cs b) :
    cs = [] ↔ ∀ m ∈ rest, connecting s.edges tree.plan m.plan = [] := by
  have hlen := (candidates_spec h).length_eq
  rw [← List.length_eq_zero_iff, ← hlen, List.length_eq_zero_iff, List.eq_nil_iff_forall_not_mem]
  constructor
  · intro hn m hm
    obtain ⟨i, hi⟩ := List.mem_iff_getElem?.1 hm
    by_contra hc
    exact hn (m, i) (mem_connectedFrom.2 ⟨hi, hc⟩)
  · rintro hn ⟨m, i⟩ hm
    obtain ⟨hi, hc⟩ := mem_connectedFrom.1 hm
    exact hc (hn m (List.mem_of_getElem? hi))

theorem appraise_plan {n : Node} {t : Tree ν} (h : s.appraise n a = .ok t b) : t.plan = n := by
  unfold appraise Planning.estimating at h
  obtain ⟨e, h, -⟩ := Action.onPart_eq_ok.1 h
  obtain ⟨_, _, -, h⟩ := Action.bind_eq_ok.1 h
  obtain ⟨_, _, -, h⟩ := Action.bind_eq_ok.1 h
  obtain ⟨rfl, -⟩ := Action.pure_eq_ok.1 h
  rfl

theorem map_plan_of_appraise {members : List Node} {trees : List (Tree ν)}
    (h : members.mapM s.appraise a = .ok trees b) : trees.map Tree.plan = members := by
  induction members generalizing a b trees with
  | nil =>
    obtain ⟨rfl, -⟩ := Action.pure_eq_ok.1 h
    rfl
  | cons m ms ih =>
    rw [List.mapM_cons] at h
    obtain ⟨t, u, ht, h⟩ := Action.bind_eq_ok.1 h
    obtain ⟨ts, v, hts, h⟩ := Action.bind_eq_ok.1 h
    obtain ⟨rfl, -⟩ := Action.pure_eq_ok.1 h
    rw [List.map_cons, appraise_plan ht, ih hts]

theorem base_of_appraise {n : Node} {t : Tree ν} (h : s.appraise n a = .ok t b) :
    ∃ e e', s.model.base s.estimator t.plan e = .ok t.cost e' := by
  unfold appraise Planning.estimating at h
  obtain ⟨v, h, -⟩ := Action.onPart_eq_ok.1 h
  obtain ⟨_, e, -, h⟩ := Action.bind_eq_ok.1 h
  obtain ⟨_, e', hbase, h⟩ := Action.bind_eq_ok.1 h
  obtain ⟨rfl, -⟩ := Action.pure_eq_ok.1 h
  exact ⟨e, e', hbase⟩

theorem base_of_mem_appraise {members : List Node} {trees : List (Tree ν)}
    (h : members.mapM s.appraise a = .ok trees b) :
    ∀ t ∈ trees, ∃ e e', s.model.base s.estimator t.plan e = .ok t.cost e' := by
  induction members generalizing a b trees with
  | nil =>
    obtain ⟨rfl, -⟩ := Action.pure_eq_ok.1 h
    simp
  | cons m ms ih =>
    rw [List.mapM_cons] at h
    obtain ⟨t, u, ht, h⟩ := Action.bind_eq_ok.1 h
    obtain ⟨ts, v, hts, h⟩ := Action.bind_eq_ok.1 h
    obtain ⟨rfl, -⟩ := Action.pure_eq_ok.1 h
    exact List.forall_mem_cons.2 ⟨base_of_appraise ht, ih hts⟩

section Runs
variable [CostScale ν]

/-- The moment that follows: the cheapest candidate has been joined, or, if there is none, a new
tree has been begun with the first of the remaining members. -/
inductive Next (s : Search ν σ) : Growth ν × Session ν σ → Growth ν × Session ν σ → Prop
  | join {g : Growth ν} {a b : Session ν σ} {cs : List (Candidate ν)} {c : Candidate ν}
      (h : s.candidates g.tree g.pending 0 g.remaining a = .ok cs b) (hc : cheapest? cs = some c) :
      Next s (g, a) (g.commit c, b)
  | close {g : Growth ν} {a b : Session ν σ} {cs : List (Candidate ν)} {seed : Tree ν}
      {others : List (Tree ν)} (h : s.candidates g.tree g.pending 0 g.remaining a = .ok cs b)
      (hc : cheapest? cs = none) (hr : g.remaining = seed :: others) :
      Next s (g, a) (⟨seed, others, g.pending⟩, b)

/-- Some member is connected with the tree, but all candidates reach the ceiling. -/
def Stalls (s : Search ν σ) (m : Growth ν × Session ν σ) : Prop :=
  ∃ cs b, s.candidates m.1.tree m.1.pending 0 m.1.remaining m.2 = .ok cs b ∧ cs ≠ [] ∧
    ∀ c ∈ cs, CostScale.less c.tree.cost CostScale.ceiling = false

/-- No moment of the run stalls. -/
def Unhindered (s : Search ν σ) (m : Growth ν × Session ν σ) : Prop :=
  ∀ m', Relation.ReflTransGen s.Next m m' → ¬ s.Stalls m'

/-- A run from this moment on ends with the given trees, beginning with the current one, and the
given conditions left over. -/
inductive Runs (s : Search ν σ) :
    Growth ν → Session ν σ → List Node → List Expr → Session ν σ → Prop
  | join {g : Growth ν} {a b d : Session ν σ} {cs : List (Candidate ν)} {c : Candidate ν}
      {plans : List Node} {left : List Expr}
      (h : s.candidates g.tree g.pending 0 g.remaining a = .ok cs b) (hc : cheapest? cs = some c)
      (rest : Runs s (g.commit c) b plans left d) : Runs s g a plans left d
  | close {g : Growth ν} {a b d : Session ν σ} {cs : List (Candidate ν)} {seed : Tree ν}
      {others : List (Tree ν)} {plans : List Node} {left : List Expr}
      (h : s.candidates g.tree g.pending 0 g.remaining a = .ok cs b) (hc : cheapest? cs = none)
      (hr : g.remaining = seed :: others) (rest : Runs s ⟨seed, others, g.pending⟩ b plans left d) :
      Runs s g a (g.tree.plan :: plans) left d
  | finish {g : Growth ν} {a b : Session ν σ} {cs : List (Candidate ν)}
      (h : s.candidates g.tree g.pending 0 g.remaining a = .ok cs b) (hc : cheapest? cs = none)
      (hr : g.remaining = []) : Runs s g a [g.tree.plan] g.pending b

variable {g g' : Growth ν} {d : Session ν σ} {plans : List Node} {left : List Expr}

theorem joins_of_cheapest? {cs : List (Candidate ν)} {c : Candidate ν}
    (h : s.candidates g.tree g.pending 0 g.remaining a = .ok cs b) (hc : cheapest? cs = some c) :
    ∃ m, g.remaining[c.position]? = some m ∧ connecting s.edges g.tree.plan m.plan ≠ [] ∧
      c.Joins s g.tree g.pending (m, c.position) := by
  obtain ⟨i, hi, rfl⟩ := List.getElem_of_mem (mem_of_cheapestBelow hc)
  have hj := candidates_spec h
  have hl : i < (connectedFrom s.edges g.tree.plan 0 g.remaining).length := hj.length_eq ▸ hi
  have hm := hj.get hl hi
  simp only [List.get_eq_getElem] at hm
  obtain ⟨hp, hn⟩ := mem_connectedFrom.1 (List.getElem_mem hl)
  exact ⟨_, by rw [hm.position]; exact hp, hn, rfl, hm.plan, hm.cost, hm.pending⟩

omit [CostScale ν] in
theorem perm_commit {c : Candidate ν} {m : Tree ν}
    (h : g.remaining[c.position]? = some m) : (m :: (g.commit c).remaining).Perm g.remaining := by
  obtain ⟨hl, rfl⟩ := List.getElem?_eq_some_iff.1 h
  exact List.getElem_cons_eraseIdx_perm hl

theorem length_commit {cs : List (Candidate ν)} {c : Candidate ν}
    (h : s.candidates g.tree g.pending 0 g.remaining a = .ok cs b) (hc : cheapest? cs = some c) :
    (g.commit c).remaining.length + 1 = g.remaining.length := by
  obtain ⟨m, hm, -⟩ := joins_of_cheapest? h hc
  have hl := (List.getElem?_eq_some_iff.1 hm).1
  unfold Growth.commit
  rw [List.length_eraseIdx_of_lt hl]
  omega

theorem length_grow {k : Nat} (h : s.grow k g a = .ok g' b) :
    g'.remaining.length ≤ g.remaining.length := by
  induction k generalizing g a with
  | zero =>
    obtain ⟨rfl, rfl⟩ := Action.pure_eq_ok.1 h
    exact le_rfl
  | succ k ih =>
    unfold grow at h
    obtain ⟨cs, u, hcs, h⟩ := Action.bind_eq_ok.1 h
    cases hc : cheapest? cs with
    | none =>
      rw [hc] at h
      obtain ⟨rfl, rfl⟩ := Action.pure_eq_ok.1 h
      exact le_rfl
    | some c =>
      rw [hc] at h
      have := length_commit hcs hc
      have := ih h
      omega

theorem runs_of_grow {k : Nat} (h : s.grow k g a = .ok g' b) (hk : g.remaining.length ≤ k) :
    (g'.remaining = [] → s.Runs g a [g'.tree.plan] g'.pending b) ∧
      ∀ seed others plans left d, g'.remaining = seed :: others →
        s.Runs ⟨seed, others, g'.pending⟩ b plans left d →
          s.Runs g a (g'.tree.plan :: plans) left d := by
  induction k generalizing g a with
  | zero =>
    obtain ⟨rfl, rfl⟩ := Action.pure_eq_ok.1 h
    have hr := List.length_eq_zero_iff.1 (Nat.le_zero.1 hk)
    have hcs : s.candidates g.tree g.pending 0 g.remaining a = .ok [] a := by rw [hr]; rfl
    exact ⟨.finish hcs rfl, fun _ _ _ _ _ hr' => by rw [hr] at hr'; cases hr'⟩
  | succ k ih =>
    unfold grow at h
    obtain ⟨cs, u, hcs, h⟩ := Action.bind_eq_ok.1 h
    cases hc : cheapest? cs with
    | none =>
      rw [hc] at h
      obtain ⟨rfl, rfl⟩ := Action.pure_eq_ok.1 h
      exact ⟨.finish hcs hc, fun _ _ _ _ _ => .close hcs hc⟩
    | some c =>
      rw [hc] at h
      have := length_commit hcs hc
      obtain ⟨hf, hn⟩ := ih h (by omega)
      exact ⟨fun hr => .join hcs hc (hf hr), fun _ _ _ _ _ hr hd => .join hcs hc (hn _ _ _ _ _ hr hd)⟩

/-- Growing all trees is a run from the moment at which the first member is the tree. -/
theorem runs_of_growAll {k : Nat} {seed : Tree ν} {others : List (Tree ν)}
    (h : s.growAll k (seed :: others) pending a = .ok (plans, left) d) (hk : others.length < k) :
    s.Runs ⟨seed, others, pending⟩ a plans left d := by
  induction k generalizing seed others pending a plans with
  | zero => omega
  | succ k ih =>
    unfold growAll at h
    obtain ⟨g', u, hg, h⟩ := Action.bind_eq_ok.1 h
    obtain ⟨⟨plans', left'⟩, v, hrest, h⟩ := Action.bind_eq_ok.1 h
    obtain ⟨h, rfl⟩ := Action.pure_eq_ok.1 h
    cases h
    obtain ⟨hf, hn⟩ := runs_of_grow hg le_rfl
    have hlen := length_grow hg
    cases hr : g'.remaining with
    | nil =>
      rw [hr] at hrest
      have hnil : s.growAll k [] g'.pending u = .ok ([], g'.pending) u := by cases k <;> rfl
      rw [hnil] at hrest
      cases hrest
      exact hf hr
    | cons seed' others' =>
      rw [hr] at hrest hlen
      exact hn _ _ _ _ _ hr (ih hrest (by simpa using Nat.lt_of_succ_le (hlen.trans (Nat.le_of_lt_succ hk))))

theorem eq_of_next_of_join {cs : List (Candidate ν)} {c : Candidate ν} {m : Growth ν × Session ν σ}
    (h : s.candidates g.tree g.pending 0 g.remaining a = .ok cs b) (hc : cheapest? cs = some c)
    (hm : s.Next (g, a) m) : m = (g.commit c, b) := by
  cases hm with
  | join h' hc' =>
    rw [h] at h'
    cases h'
    rw [hc] at hc'
    cases hc'
    rfl
  | close h' hc' =>
    rw [h] at h'
    cases h'
    rw [hc] at hc'
    cases hc'

theorem eq_of_next_of_close {cs : List (Candidate ν)} {m : Growth ν × Session ν σ}
    (h : s.candidates g.tree g.pending 0 g.remaining a = .ok cs b) (hc : cheapest? cs = none)
    (hm : s.Next (g, a) m) :
    ∃ seed others, g.remaining = seed :: others ∧ m = (⟨seed, others, g.pending⟩, b) := by
  cases hm with
  | join h' hc' =>
    rw [h] at h'
    cases h'
    rw [hc] at hc'
    cases hc'
  | close h' _ hr =>
    rw [h] at h'
    cases h'
    exact ⟨_, _, hr, rfl⟩

theorem stalls_of_join {cs : List (Candidate ν)} {c : Candidate ν}
    (h : s.candidates g.tree g.pending 0 g.remaining a = .ok cs b) (hc : cheapest? cs = some c) :
    ¬ s.Stalls (g, a) := by
  rintro ⟨cs', b', h', -, hall⟩
  rw [h] at h'
  cases h'
  rw [cheapest?_eq_none.2 hall] at hc
  cases hc

theorem stalls_of_close {cs : List (Candidate ν)}
    (h : s.candidates g.tree g.pending 0 g.remaining a = .ok cs b) (hc : cheapest? cs = none) :
    s.Stalls (g, a) ↔ ¬ ∀ m ∈ g.remaining, connecting s.edges g.tree.plan m.plan = [] := by
  rw [← candidates_eq_nil h]
  constructor
  · rintro ⟨cs', b', h', hn, -⟩
    rw [h] at h'
    cases h'
    exact hn
  · exact fun hn => ⟨cs, b, h, hn, cheapest?_eq_none.1 hc⟩

theorem unhindered_of_join {cs : List (Candidate ν)} {c : Candidate ν}
    (h : s.candidates g.tree g.pending 0 g.remaining a = .ok cs b) (hc : cheapest? cs = some c) :
    s.Unhindered (g, a) ↔ s.Unhindered (g.commit c, b) := by
  constructor
  · exact fun hu m hm => hu m (.head (.join h hc) hm)
  · intro hu m hm
    rcases Relation.ReflTransGen.cases_head hm with rfl | ⟨m', hn, hm⟩
    · exact stalls_of_join h hc
    · rw [eq_of_next_of_join h hc hn] at hm
      exact hu m hm

theorem unhindered_of_close {cs : List (Candidate ν)} {seed : Tree ν} {others : List (Tree ν)}
    (h : s.candidates g.tree g.pending 0 g.remaining a = .ok cs b) (hc : cheapest? cs = none)
    (hr : g.remaining = seed :: others) :
    s.Unhindered (g, a) ↔ (∀ m ∈ g.remaining, connecting s.edges g.tree.plan m.plan = []) ∧
      s.Unhindered (⟨seed, others, g.pending⟩, b) := by
  constructor
  · exact fun hu => ⟨not_not.1 fun hn => hu _ .refl ((stalls_of_close h hc).2 hn),
      fun m hm => hu m (.head (.close h hc hr) hm)⟩
  · rintro ⟨hn, hu⟩ m hm
    rcases Relation.ReflTransGen.cases_head hm with rfl | ⟨m', hn', hm⟩
    · exact fun hs => (stalls_of_close h hc).1 hs hn
    · obtain ⟨seed', others', hr', rfl⟩ := eq_of_next_of_close h hc hn'
      rw [hr] at hr'
      cases hr'
      exact hu m hm

theorem unhindered_of_finish {cs : List (Candidate ν)}
    (h : s.candidates g.tree g.pending 0 g.remaining a = .ok cs b) (hc : cheapest? cs = none)
    (hr : g.remaining = []) : s.Unhindered (g, a) := by
  intro m hm hs
  rcases Relation.ReflTransGen.cases_head hm with rfl | ⟨m', hn, -⟩
  · refine (stalls_of_close h hc).1 hs ?_
    rw [hr]
    simp
  · obtain ⟨seed, others, hr', -⟩ := eq_of_next_of_close h hc hn
    rw [hr] at hr'
    cases hr'

end Runs

end Search

end JoinOrder
