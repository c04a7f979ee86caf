import JoinOrder.Proofs.Layers

/-!
# Ids that a walk does not meet

A supply starts after a plan above the greatest id that a breadth-first walk meets, also in a session
for the plan. Nodes that were not numbered together may share an id. Of these the walk takes the
first one, and what is only below the others is hidden from it, however great its ids are
(`Building.hides`). So the ids handed out after a plan are new exactly if the walk meets the greatest
id of the plan, and an id that is not new is that of a node below a skipped one
(`Supply.hands_after`).
-/

namespace JoinOrder

namespace Supply

/-- The id is handed out sooner or later. -/
inductive Hands : Supply → Nat → Prop
  | now (s : Supply) : s.Hands s.fresh.1.id
  | later {s : Supply} {i : Nat} (h : s.fresh.2.Hands i) : s.Hands i

theorem hands_iff {s : Supply} {i : Nat} : s.Hands i ↔ s.nextId ≤ i := by
  constructor
  · intro h
    induction h with
    | now s => exact le_rfl
    | later _ ih => exact Nat.le_of_succ_le ih
  · intro h
    obtain ⟨k, rfl⟩ := Nat.exists_eq_add_of_le h
    clear h
    induction k generalizing s with
    | zero => exact .now s
    | succ k ih =>
      have hlater : s.fresh.2.Hands (s.nextId + 1 + k) := ih
      rw [Nat.add_right_comm] at hlater
      exact .later hlater

end Supply

theorem foldl_max_mem (ks : List Nat) (a : Nat) : ks.foldl max a = a ∨ ks.foldl max a ∈ ks := by
  induction ks generalizing a with
  | nil => exact .inl rfl
  | cons k ks ih =>
    rcases ih (max a k) with h | h
    · rw [List.foldl_cons, h]
      rcases max_choice a k with hk | hk
      · exact .inl hk
      · exact .inr (List.mem_cons.2 (.inl hk))
    · exact .inr (List.mem_cons_of_mem _ h)

namespace Node
variable {root n : Node}

/-- The first id handed out follows the id of a node on the walk. -/
theorem exists_nextId_after (s : Supply) (root : Node) :
    ∃ m ∈ root.breadthFirst, (s.after root).nextId = m.id + 1 := by
  have hnext : (s.after root).nextId = (root.breadthFirst.map id).foldl max 0 + 1 := rfl
  rcases foldl_max_mem (root.breadthFirst.map id) 0 with h | h
  · -- then all ids on the walk are 0, that of the root included
    have hlt := id_lt_after s root.mem_breadthFirst_self
    exact ⟨root, root.mem_breadthFirst_self, by omega⟩
  · obtain ⟨m, hm, hid⟩ := List.mem_map.1 h
    exact ⟨m, hm, by rw [hnext, hid]⟩

/-- The walk does not take the node, as it takes another one with this id. -/
def Skipped (root n : Node) : Prop :=
  n ∈ root.preorder ∧ n ∉ root.breadthFirst ∧ ∃ m ∈ root.breadthFirst, m.id = n.id

/-- A node that the walk does not take is one that is skipped, or is below such a node. -/
theorem exists_skipped (hn : n ∈ root.preorder) (hwalk : n ∉ root.breadthFirst) :
    ∃ a, root.Skipped a ∧ n ∈ a.preorder := by
  obtain ⟨k, hk⟩ := exists_atDepth hn
  induction hk with
  | root => exact absurd root.mem_breadthFirst_self hwalk
  | @input k m i hm hi ih =>
    by_cases htaken : m ∈ root.breadthFirst
    · exact ⟨i, ⟨hn, hwalk, exists_met_input htaken hi⟩, i.mem_preorder_self⟩
    · obtain ⟨a, ha, hma⟩ := ih hm.mem_preorder htaken
      have hmi := mem_preorder_of_input hi i.mem_preorder_self
      exact ⟨a, ha, mem_preorder_trans hmi hma⟩

end Node

/-- The ids handed out after a plan are not those met by the walk. They are new exactly if the walk
meets the greatest id of the plan. One that is not new is that of a node below a skipped one. -/
theorem Supply.hands_after (s : Supply) (root : Node) :
    (∀ n ∈ root.breadthFirst, ¬(s.after root).Hands n.id) ∧
      ((∀ n ∈ root.preorder, ¬(s.after root).Hands n.id) ↔
        ∃ m ∈ root.breadthFirst, ∀ n ∈ root.preorder, n.id ≤ m.id) ∧
      ∀ n ∈ root.preorder, (s.after root).Hands n.id → ∃ a, root.Skipped a ∧ n ≠ a ∧ n ∈ a.preorder := by
  simp only [hands_iff, not_le]
  refine ⟨fun n => Node.id_lt_after s, ⟨fun hnew => ?_, ?_⟩, fun n hn hnext => ?_⟩
  · obtain ⟨m, hm, hnext⟩ := Node.exists_nextId_after s root
    refine ⟨m, hm, fun n hn => ?_⟩
    have hlt := hnew n hn
    omega
  · rintro ⟨m, hm, hgreatest⟩ n hn
    exact (hgreatest n hn).trans_lt (Node.id_lt_after s hm)
  · obtain ⟨a, ha, hna⟩ := Node.exists_skipped hn fun hwalk => by
      have hlt := Node.id_lt_after s hwalk
      omega
    refine ⟨a, ha, ?_, hna⟩
    rintro rfl
    obtain ⟨-, -, m, hm, hid⟩ := ha
    have hlt := Node.id_lt_after s hm
    omega

namespace Building

/-- A cross join of a table with a limit that has the id of that table. -/
def hides : Building Node := do
  let a ← nodeWithId 1 (.scan (.ofNames "a" ["x"] none)) []
  let b ← nodeWithId 6 (.scan (.ofNames "b" ["y"] none)) []
  let limit ← nodeWithId 1 (.unary (.limit 3)) [b]
  nodeWithId 5 (.join .cross) [a, limit]

/-- The table below the limit. -/
def hidden : Node := .scan ⟨6, 1⟩ (.ofNames "b" ["y"] none)

/-- What `hides` makes. -/
def hider : Node :=
  .join ⟨5, 3⟩ .cross (.scan ⟨1, 0⟩ (.ofNames "a" ["x"] none)) (.unary ⟨1, 2⟩ (.limit 3) hidden)

theorem hands_after_skipped :
    hidden ∈ hider.preorder ∧ (Supply.initial.after hider).Hands hidden.id ∧
      ∃ a, hider.Skipped a ∧ hidden ≠ a ∧ hidden ∈ a.preorder := by
  have hmem : hidden ∈ hider.preorder := by decide
  have hhands : (Supply.initial.after hider).Hands hidden.id := Supply.hands_iff.2 (by decide)
  exact ⟨hmem, hhands, (Supply.hands_after Supply.initial hider).2.2 hidden hmem hhands⟩

/-- An id of the plan is handed out again. -/
theorem hands_after_hides : ∃ s, hides Supply.initial = .ok hider s ∧
    (∀ n ∈ hider.preorder, n.id < 2 ^ 32 - 1) ∧
      ∃ n ∈ hider.preorder, (s.after hider).Hands n.id :=
  ⟨_, rfl, by decide, hidden, by decide, Supply.hands_iff.2 (by decide)⟩

end Building

end JoinOrder
