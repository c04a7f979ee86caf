import Mathlib.Data.List.Perm.Basic
import JoinOrder.Plan.Basic

/-!
# Merged schemas

Merging is associative, the empty schema is its identity, and a schema merged with itself stays as it
is. So a tree of joins puts out the columns of its leaves, from left to right, each where it comes
first: the schema depends on the order of the leaves, and not on how they are joined. In another
order of the leaves it has the same columns (`Node.schema_by_leaves`).
-/

namespace JoinOrder

section Firsts
variable {α : Type} [DecidableEq α]

theorem firsts_filter (p : α → Bool) (as : List α) : firsts (as.filter p) = (firsts as).filter p := by
  induction as with
  | nil => rfl
  | cons a as ih =>
    cases ha : p a with
    | true =>
      rw [List.filter_cons_of_pos ha, firsts, firsts, List.filter_cons_of_pos ha, ih,
        List.filter_filter, List.filter_filter]
      simp only [Bool.and_comm]
    | false =>
      have hne : ∀ b ∈ firsts as, p b = true → b ≠ a := by
        rintro b - hb rfl
        simp [ha] at hb
      rw [List.filter_cons_of_neg (by simp [ha]), firsts, List.filter_cons_of_neg (by simp [ha]), ih,
        List.filter_filter]
      refine List.filter_congr fun b hb => ?_
      by_cases hpb : p b = true <;> simp [hpb, hne b hb]

/-- Keeping first occurrences is erasing duplicates. -/
theorem firsts_eq_eraseDups : ∀ as : List α, firsts as = as.eraseDups
  | [] => by simp [firsts]
  | a :: as => by
    have hsame : (fun b => !b == a) = fun b => decide (b ≠ a) := by
      funext b
      by_cases h : b = a <;> simp [h]
    rw [List.eraseDups_cons, hsame, ← firsts_eq_eraseDups (as.filter _), firsts_filter, firsts]
termination_by as => as.length
decreasing_by exact Nat.lt_succ_of_le (List.length_filter_le ..)

end Firsts

namespace Schema
variable {s t : Schema}

theorem merge_assoc (r s t : Schema) : (r.merge s).merge t = r.merge (s.merge t) :=
  calc (r.merge s).merge t
      = (ofList (r.columns ++ s.columns)).merge (ofList t.columns) := by
        rw [merge_eq_ofList r, ofList_columns]
    _ = (ofList r.columns).merge (ofList (s.columns ++ t.columns)) := by
        rw [merge_ofList, merge_ofList, List.append_assoc]
    _ = r.merge (s.merge t) := by rw [ofList_columns, merge_eq_ofList s]

theorem empty_merge (s : Schema) : empty.merge s = s := by
  apply Schema.ext
  simp [merge, empty]

theorem merge_empty (s : Schema) : s.merge empty = s := by
  apply Schema.ext
  simp [merge, empty]

theorem merge_self (s : Schema) : s.merge s = s := by
  apply Schema.ext
  simp [merge]

theorem sameColumns_iff :
    s.sameColumns t = true ↔ ∀ c, c ∈ s.columns ↔ c ∈ t.columns := by
  unfold sameColumns containsAll size
  simp only [Bool.and_eq_true, beq_iff_eq, List.all_eq_true, contains_iff]
  constructor
  · rintro ⟨⟨-, hts⟩, hst⟩ c
    exact ⟨hst c, hts c⟩
  · intro h
    have hperm : s.columns.Perm t.columns := (List.perm_ext_iff_of_nodup s.nodup t.nodup).2 h
    exact ⟨⟨hperm.length_eq, fun c hc => (h c).2 hc⟩, fun c hc => (h c).1 hc⟩

/-- No column occurs twice, so lists of the same columns differ in order only. -/
theorem sameColumns_iff_perm : s.sameColumns t = true ↔ s.columns.Perm t.columns :=
  sameColumns_iff.trans (List.perm_ext_iff_of_nodup s.nodup t.nodup).symm

end Schema

namespace Node

/-- The plan is a tree of joins of any kinds, above leaves with these schemas from left to right. -/
inductive JoinsOver : List Schema → Node → Prop
  | leaf (n : Node) : JoinsOver [n.schema] n
  | join {ss ts : List Schema} {l r : Node} (tag : Tag) (j : Join) (hl : JoinsOver ss l)
      (hr : JoinsOver ts r) : JoinsOver (ss ++ ts) (.join tag j l r)

namespace JoinsOver
variable {ss ts : List Schema} {m n : Node}

theorem schema_eq (h : JoinsOver ss n) : n.schema = .ofList (ss.flatMap Schema.columns) := by
  induction h with
  | leaf n => simp
  | join tag j _ _ ihl ihr => rw [schema, ihl, ihr, Schema.merge_ofList, List.flatMap_append]

theorem mem_schema (h : JoinsOver ss n) {c : Column} :
    c ∈ n.schema.columns ↔ ∃ s ∈ ss, c ∈ s.columns := by
  rw [h.schema_eq, Schema.mem_ofList, List.mem_flatMap]

theorem sameColumns (hm : JoinsOver ss m) (hn : JoinsOver ts n) (hperm : ss.Perm ts) :
    m.schema.sameColumns n.schema = true := by
  rw [Schema.sameColumns_iff]
  intro c
  rw [hm.mem_schema, hn.mem_schema]
  exact exists_congr fun s => and_congr_left' hperm.mem_iff

end JoinsOver

/-- A tree of joins puts out the columns of its leaves, without those that came before. So trees with
the same leaves in the same order have one schema, and with the same leaves in any order they have
the same columns, which is to say that one list is a permutation of the other. The first rests on
three laws of merging. -/
theorem schema_by_leaves :
    (∀ ss n, JoinsOver ss n → n.schema.columns = (ss.flatMap Schema.columns).eraseDups) ∧
    (∀ ss m n, JoinsOver ss m → JoinsOver ss n → m.schema = n.schema) ∧
    (∀ r s t : Schema, (r.merge s).merge t = r.merge (s.merge t)) ∧
    (∀ s : Schema, Schema.empty.merge s = s ∧ s.merge .empty = s ∧ s.merge s = s) ∧
    (∀ ss ts m n, ss.Perm ts → JoinsOver ss m → JoinsOver ts n →
      m.schema.sameColumns n.schema = true) ∧
    ∀ s t : Schema, s.sameColumns t = true ↔ s.columns.Perm t.columns := by
  refine ⟨?_, ?_, Schema.merge_assoc, ?_, ?_, fun _ _ => Schema.sameColumns_iff_perm⟩
  · intro ss n h
    rw [h.schema_eq]
    exact firsts_eq_eraseDups _
  · intro ss m n hm hn
    rw [hm.schema_eq, hn.schema_eq]
  · exact fun s => ⟨s.empty_merge, s.merge_empty, s.merge_self⟩
  · exact fun _ _ _ _ hperm hm hn => hm.sameColumns hn hperm

/-- Three tables, of which the last has columns of the others. -/
theorem schema_by_leaves_threeTables :
    let a : Node := .scan ⟨0, 0⟩ ⟨"a", [⟨"a", "x"⟩, ⟨"a", "y"⟩], none⟩
    let b : Node := .scan ⟨1, 1⟩ ⟨"b", [⟨"b", "z"⟩], none⟩
    let c : Node := .scan ⟨2, 2⟩ ⟨"c", [⟨"b", "z"⟩, ⟨"c", "w"⟩, ⟨"a", "x"⟩], none⟩
    let first : Node := .join ⟨4, 4⟩ .cross (.join ⟨3, 3⟩ .cross a b) c
    let second : Node := .join ⟨6, 6⟩ ⟨.full, [], []⟩ a (.join ⟨5, 5⟩ .cross b c)
    let third : Node := .join ⟨8, 8⟩ .cross c (.join ⟨7, 7⟩ ⟨.left, [], []⟩ b a)
    first.schema = second.schema ∧ first.schema.sameColumns third.schema = true ∧
      first.schema.columns.Perm third.schema.columns := by
  intro a b c first second third
  have hfirst : JoinsOver [a.schema, b.schema, c.schema] first :=
    .join _ _ (.join _ _ (.leaf a) (.leaf b)) (.leaf c)
  have hsecond : JoinsOver [a.schema, b.schema, c.schema] second :=
    .join _ _ (.leaf a) (.join _ _ (.leaf b) (.leaf c))
  have hthird : JoinsOver [c.schema, b.schema, a.schema] third :=
    .join _ _ (.leaf c) (.join _ _ (.leaf b) (.leaf a))
  obtain ⟨-, hsame, -, -, hperm, hiff⟩ := schema_by_leaves
  have hcols := hperm _ _ _ _ (List.reverse_perm [c.schema, b.schema, a.schema]) hfirst hthird
  exact ⟨hsame _ _ _ hfirst hsecond, hcols, (hiff _ _).1 hcols⟩

end Node

end JoinOrder
