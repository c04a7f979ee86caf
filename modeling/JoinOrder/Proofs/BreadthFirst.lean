import JoinOrder.Proofs.Heap

/-!
# Walks that skip ids they have met

A breadth-first walk skips a node if it has met the id before. So it may miss nodes, unless nodes
with one id are one node. Then it reaches all of them (`Numbered.breadthFirst`), and a supply that
starts after the plan hands out greater ids only (`Numbered.id_lt_after`).
-/

namespace JoinOrder

/-- Different nodes of the plans have different ids. -/
def Numbered (plans : List Node) : Prop :=
  ∀ m ∈ plans.flatMap Node.preorder, ∀ n ∈ plans.flatMap Node.preorder, m.id = n.id → m = n

theorem le_foldl_max {k a : Nat} {ks : List Nat} (h : k ≤ a ∨ k ∈ ks) : k ≤ ks.foldl max a := by
  induction ks generalizing a with
  | nil => exact h.resolve_right List.not_mem_nil
  | cons b ks ih =>
    refine ih ?_
    rcases h with h | h
    · exact .inl (h.trans (le_max_left a b))
    · rcases List.mem_cons.1 h with rfl | h
      · exact .inl (le_max_right a k)
      · exact .inr h

theorem Numbered.mono {plans plans' : List Node} (h : Numbered plans)
    (hsub : ∀ p ∈ plans', p ∈ plans) : Numbered plans' := by
  intro m hm n hn
  rw [List.mem_flatMap] at hm hn
  obtain ⟨p, hp, hm⟩ := hm
  obtain ⟨q, hq, hn⟩ := hn
  exact h m (List.mem_flatMap.2 ⟨p, hsub p hp, hm⟩) n (List.mem_flatMap.2 ⟨q, hsub q hq, hn⟩)

namespace Node

theorem height_pos (n : Node) : 0 < n.height := by
  cases n <;> simp [height]

theorem eq_nil_of_height {level : List Node} (h : ∀ n ∈ level, n.height ≤ 0) : level = [] :=
  List.eq_nil_iff_forall_not_mem.2 fun n hn => (h n hn).not_gt n.height_pos

/-- What is closed under inputs has all that is below its nodes. -/
theorem preorder_subset_of_closed {T : List Node} (hT : ∀ n ∈ T, ∀ i ∈ n.inputs, i ∈ T) {n : Node}
    (hn : n ∈ T) : ∀ m ∈ n.preorder, m ∈ T := by
  induction n with
  | scan => simpa [preorder] using hn
  | unary tag op i ih =>
    have hi : i ∈ T := hT _ hn i (by simp [inputs])
    simpa [preorder, hn] using ih hi
  | join tag j l r ihl ihr =>
    have hl : l ∈ T := hT _ hn l (by simp [inputs])
    have hr : r ∈ T := hT _ hn r (by simp [inputs])
    intro m hm
    rw [preorder, List.mem_cons, List.mem_append] at hm
    rcases hm with rfl | hm | hm
    · exact hn
    · exact ihl hl m hm
    · exact ihr hr m hm

namespace Frontier
variable {f : Frontier} {ns : List Node}

theorem next_eq (f : Frontier) (level : List Node) :
    f.next level = (level.flatMap inputs).foldl offer f := List.foldl_flatMap.symm

theorem met_offer {n : Node} {i : Nat} : i ∈ (f.offer n).met ↔ i = n.id ∨ i ∈ f.met := by
  unfold offer
  split
  · rename_i h
    constructor
    · exact Or.inr
    · rintro (rfl | hi)
      · exact h
      · exact hi
  · exact List.mem_cons

theorem met_foldl {i : Nat} : i ∈ (ns.foldl offer f).met ↔ i ∈ f.met ∨ ∃ n ∈ ns, n.id = i := by
  induction ns generalizing f with
  | nil => simp
  | cons n ns ih =>
    rw [List.foldl_cons, ih, met_offer, List.exists_mem_cons_iff]
    constructor
    · rintro ((rfl | hi) | hn)
      · exact .inr (.inl rfl)
      · exact .inl hi
      · exact .inr (.inr hn)
    · rintro (hi | rfl | hn)
      · exact .inl (.inr hi)
      · exact .inl (.inl rfl)
      · exact .inr hn

theorem queued_foldl {n : Node} (hn : n ∈ (ns.foldl offer f).queued) : n ∈ f.queued ∨ n ∈ ns := by
  induction ns generalizing f with
  | nil => exact .inl hn
  | cons m ns ih =>
    rcases ih hn with hq | hns
    · unfold offer at hq
      split at hq
      · exact .inl hq
      · rcases List.mem_cons.1 hq with rfl | hq
        · exact .inr (List.mem_cons_self ..)
        · exact .inl hq
    · exact .inr (List.mem_cons_of_mem _ hns)

/-- An id is met by queueing a node that has it. -/
theorem exists_queued_of_met (old : List Nat)
    (hf : ∀ i ∈ f.met, i ∈ old ∨ ∃ n ∈ f.queued, n.id = i) {i : Nat}
    (hi : i ∈ (ns.foldl offer f).met) : i ∈ old ∨ ∃ n ∈ (ns.foldl offer f).queued, n.id = i := by
  induction ns generalizing f with
  | nil => exact hf i hi
  | cons m ns ih =>
    refine ih (fun k hk => ?_) hi
    unfold offer at hk ⊢
    split at hk
    · rename_i h
      rw [if_pos h]
      exact hf k hk
    · rename_i h
      rw [if_neg h]
      rcases List.mem_cons.1 hk with rfl | hk
      · exact .inr ⟨m, List.mem_cons_self .., rfl⟩
      · exact (hf k hk).imp_right fun ⟨n, hn, hid⟩ => ⟨n, List.mem_cons_of_mem _ hn, hid⟩

end Frontier

/-- The walk has left the nodes of `done` and is about to take those of `level`. -/
structure Walk (root : Node) (done : List Node) (met : List Nat) (level : List Node) : Prop where
  within : ∀ n ∈ done ++ level, n ∈ root.preorder
  found : ∀ i ∈ met, ∃ n ∈ done ++ level, n.id = i
  inputs : ∀ n ∈ done, ∀ i ∈ n.inputs, i.id ∈ met

namespace Walk
variable {root : Node} {done level : List Node} {met : List Nat}

theorem start (root : Node) : Walk root [] [root.id] [root] where
  within n hn := List.mem_singleton.1 hn ▸ root.mem_preorder_self
  found i hi := ⟨root, List.mem_singleton_self root, (List.mem_singleton.1 hi).symm⟩
  inputs n hn := by cases hn

theorem next (h : Walk root done met level) :
    Walk root (done ++ level) (Frontier.next ⟨met, []⟩ level).met
      (Frontier.next ⟨met, []⟩ level).queued where
  within n hn := by
    rcases List.mem_append.1 hn with hn | hn
    · exact h.within n hn
    · rw [Frontier.next_eq] at hn
      obtain ⟨m, hm, hi⟩ := List.mem_flatMap.1 ((Frontier.queued_foldl hn).resolve_left (by simp))
      exact mem_preorder_trans (mem_preorder_of_input hi n.mem_preorder_self)
        (h.within m (List.mem_append_right _ hm))
  found i hi := by
    rw [Frontier.next_eq] at hi ⊢
    rcases Frontier.exists_queued_of_met met (fun i hi => .inl hi) hi with hi | hi
    · obtain ⟨n, hn, hid⟩ := h.found i hi
      exact ⟨n, List.mem_append_left _ hn, hid⟩
    · obtain ⟨n, hn, hid⟩ := hi
      exact ⟨n, List.mem_append_right _ hn, hid⟩
  inputs n hn i hi := by
    rw [Frontier.next_eq, Frontier.met_foldl]
    rcases List.mem_append.1 hn with hn | hn
    · exact .inl (h.inputs n hn i hi)
    · exact .inr ⟨i, List.mem_flatMap.2 ⟨n, hn, hi⟩, rfl⟩

/-- The nodes queued are lower than those of the level they were found on. -/
theorem height_queued {depth : Nat} (hd : ∀ n ∈ level, n.height ≤ depth + 1) :
    ∀ n ∈ (Frontier.next ⟨met, []⟩ level).queued, n.height ≤ depth := by
  intro n hn
  rw [Frontier.next_eq] at hn
  obtain ⟨m, hm, hi⟩ := List.mem_flatMap.1 ((Frontier.queued_foldl hn).resolve_left (by simp))
  have hlt := height_lt hi
  have hle := hd m hm
  omega

/-- The walk goes on until no level is left. -/
theorem ends (h : Walk root done met level) (depth : Nat) (hd : ∀ n ∈ level, n.height ≤ depth) :
    ∃ met', Walk root (done ++ levels depth met level) met' [] := by
  induction depth generalizing done met level with
  | zero =>
    obtain rfl := eq_nil_of_height hd
    rw [levels, List.append_nil]
    exact ⟨met, h⟩
  | succ depth ih =>
    rw [levels, ← List.append_assoc]
    exact ih h.next (height_queued hd)

end Walk

theorem walk_breadthFirst (root : Node) : ∃ met, Walk root root.breadthFirst met [] :=
  (Walk.start root).ends root.height (List.forall_mem_singleton.2 le_rfl)

theorem breadthFirst_eq_cons (root : Node) : ∃ ns, root.breadthFirst = root :: ns := by
  obtain ⟨depth, hdepth⟩ := Nat.exists_eq_succ_of_ne_zero root.height_pos.ne'
  exact ⟨_, by rw [breadthFirst, hdepth, levels, List.singleton_append]⟩

theorem mem_breadthFirst_self (root : Node) : root ∈ root.breadthFirst := by
  obtain ⟨ns, hns⟩ := root.breadthFirst_eq_cons
  exact hns ▸ List.mem_cons_self ..

theorem mem_preorder_of_breadthFirst {root n : Node} (hn : n ∈ root.breadthFirst) :
    n ∈ root.preorder := by
  obtain ⟨met, h⟩ := root.walk_breadthFirst
  exact h.within n (List.mem_append_left _ hn)

/-- The ids of the inputs of a node on the walk are met. -/
theorem exists_met_input {root n i : Node} (hn : n ∈ root.breadthFirst) (hi : i ∈ n.inputs) :
    ∃ m ∈ root.breadthFirst, m.id = i.id := by
  obtain ⟨met, h⟩ := root.walk_breadthFirst
  simpa using h.found i.id (h.inputs n hn i hi)

/-- A supply starts after the plan above the ids that the walk meets. -/
theorem id_lt_after {root m : Node} (s : Supply) (hm : m ∈ root.breadthFirst) :
    m.id < (s.after root).nextId :=
  Nat.lt_succ_of_le (le_foldl_max (.inr (List.mem_map_of_mem hm)))

end Node

namespace Numbered
variable {root : Node} (h : Numbered [root])
include h

/-- A breadth-first walk reaches every node. -/
theorem breadthFirst : ∀ n ∈ root.preorder, n ∈ root.breadthFirst := by
  refine Node.preorder_subset_of_closed (fun n hn i hi => ?_) root.mem_breadthFirst_self
  obtain ⟨m, hm, hid⟩ := Node.exists_met_input hn hi
  have hmm := Node.mem_preorder_of_breadthFirst hm
  have hmi := Node.mem_preorder_trans (Node.mem_preorder_of_input hi i.mem_preorder_self)
    (Node.mem_preorder_of_breadthFirst hn)
  have heq := h m (by simpa using hmm) i (by simpa using hmi) hid
  exact heq ▸ hm

theorem id_lt_after (s : Supply) : ∀ n ∈ root.preorder, n.id < (s.after root).nextId :=
  fun n hn => Node.id_lt_after s (h.breadthFirst n hn)

end Numbered

end JoinOrder
