import Mathlib.Data.Nat.Log
import JoinOrder.Greedy.Assembly
import JoinOrder.Proofs.Joints

/-!
# Rounds of pairing

How trees are assembled is told by two relations without a bound on the number of rounds: `Pairs` is
one round, which joins neighbours, and `Rounds` goes on until one tree is left. Every list of trees
has a round (`exists_pairs`), and a list that is not empty has an end (`exists_rounds`).

A round leaves half of the trees, so as many rounds are made as the number of trees can be halved.
Each of them puts one more join above the first tree, and at most one above any other
(`Rounds.depths_le`, `Rounds.head_depths`). The order of the trees stays, and the new joins get their
ids in the order in which they are made.
-/

namespace JoinOrder

/-- The supply after that many nodes. -/
def Supply.advance (a : Supply) (count : Nat) : Supply := ⟨a.nextId + count, a.nextCell + count⟩

/-- The tag that the supply gives to a node made when that many others have been made. -/
def Supply.tagAt (a : Supply) (count : Nat) : Tag := ⟨a.nextId + count, a.nextCell + count⟩

theorem Supply.advance_advance (a : Supply) (m n : Nat) :
    (a.advance m).advance n = a.advance (m + n) := by
  simp only [advance, Nat.add_assoc]

theorem Supply.tagAt_advance (a : Supply) (m n : Nat) : (a.advance m).tagAt n = a.tagAt (m + n) := by
  simp only [advance, tagAt, Nat.add_assoc]

theorem clog_two_le_self (n : Nat) : Nat.clog 2 n ≤ n :=
  Nat.clog_le_of_le_pow Nat.lt_two_pow_self.le

/-- For each leaf from left to right, the number of joins above it. -/
def JoinTree.depths : JoinTree → List Nat
  | leaf _ => [0]
  | join _ _ _ l r => (l.depths ++ r.depths).map (· + 1)

theorem JoinTree.length_depths (t : JoinTree) : t.depths.length = t.leaves.length := by
  induction t with
  | leaf => rfl
  | join _ _ _ l r ihl ihr => simp [depths, leaves, ihl, ihr]

theorem JoinTree.depths_ne_nil (t : JoinTree) : t.depths ≠ [] := by
  rw [← List.length_pos_iff, t.length_depths, List.length_pos_iff]
  exact t.leaves_ne_nil

namespace Assembly

/-- The next join of two neighbours, on the pending conditions that it covers. -/
def joint (a : Supply) (pending : List Expr) (l r : JoinTree) : Joint :=
  ⟨a.tagAt 0, [], pending.filter (·.coveredBy l.plan r.plan), l, r⟩

/-- One round: the neighbours among `ts` are joined to give `us`. The new joins are `Js` in order,
and leave the conditions `left`. -/
inductive Pairs : Supply → List JoinTree → List Expr → List JoinTree → List Joint → List Expr → Prop
  | none {a : Supply} {pending : List Expr} : Pairs a [] pending [] [] pending
  | odd {a : Supply} {pending : List Expr} (t : JoinTree) : Pairs a [t] pending [t] [] pending
  | pair {a : Supply} {pending left : List Expr} {l r : JoinTree} {ts us : List JoinTree}
      {Js : List Joint}
      (rest : Pairs (a.advance 1) ts (pendingAbove pending l.plan r.plan) us Js left) :
      Pairs a (l :: r :: ts) pending ((joint a pending l r).tree :: us) (joint a pending l r :: Js)
        left

/-- Rounds until one tree is left. -/
inductive Rounds : Supply → List JoinTree → List Expr → JoinTree → List Joint → List Expr → Prop
  | single {a : Supply} {pending : List Expr} (t : JoinTree) : Rounds a [t] pending t [] pending
  | round {a : Supply} {pending mid left : List Expr} {ts us : List JoinTree} {t : JoinTree}
      {Js Ks : List Joint} (several : 2 ≤ ts.length) (first : Pairs a ts pending us Js mid)
      (others : Rounds (a.advance Js.length) us mid t Ks left) :
      Rounds a ts pending t (Js ++ Ks) left

theorem exists_pairs (a : Supply) (ts : List JoinTree) (pending : List Expr) :
    ∃ us Js left, Pairs a ts pending us Js left := by
  match ts with
  | [] => exact ⟨[], [], pending, .none⟩
  | [t] => exact ⟨[t], [], pending, .odd t⟩
  | l :: r :: rest =>
    obtain ⟨us, Js, left, h⟩ :=
      exists_pairs (a.advance 1) rest (pendingAbove pending l.plan r.plan)
    exact ⟨_, _, left, .pair h⟩

section
variable {a : Supply} {ts us : List JoinTree} {t : JoinTree} {pending left : List Expr}
  {Js : List Joint}

namespace Pairs

theorem length (h : Pairs a ts pending us Js left) : us.length = (ts.length + 1) / 2 := by
  induction h with
  | none => rfl
  | odd => simp
  | pair _ ih =>
    simp only [List.length_cons, ih]
    omega

theorem leaves (h : Pairs a ts pending us Js left) :
    us.flatMap JoinTree.leaves = ts.flatMap JoinTree.leaves := by
  induction h with
  | none => rfl
  | odd => rfl
  | pair _ ih => simp [joint, JoinTree.leaves_tree, ih]

theorem edges (h : Pairs a ts pending us Js left) : ∀ J ∈ Js, J.edges = [] := by
  induction h with
  | none => simp
  | odd => simp
  | pair _ ih =>
    intro J hJ
    rcases List.mem_cons.1 hJ with rfl | hJ
    · rfl
    · exact ih J hJ

theorem tags (h : Pairs a ts pending us Js left) (i : Nat) (hi : i < Js.length) :
    Js[i].tag = a.tagAt i := by
  induction h generalizing i with
  | none => cases hi
  | odd => cases hi
  | pair _ ih =>
    cases i with
    | zero => rfl
    | succ i =>
      rw [List.getElem_cons_succ, ih i (Nat.lt_of_succ_lt_succ hi), Supply.tagAt_advance, Nat.add_comm]

theorem depths_le {m : Nat} (h : Pairs a ts pending us Js left) (hm : ∀ t ∈ ts, ∀ d ∈ t.depths, d ≤ m) :
    ∀ u ∈ us, ∀ d ∈ u.depths, d ≤ m + 1 := by
  induction h with
  | none => simp
  | odd t =>
    intro u hu d hd
    have := hm u hu d hd
    omega
  | @pair _ _ _ l r _ _ _ _ ih =>
    intro u hu d hd
    rcases List.mem_cons.1 hu with rfl | hu
    · rw [joint, Joint.tree, JoinTree.depths] at hd
      obtain ⟨e, he, rfl⟩ := List.mem_map.1 hd
      rcases List.mem_append.1 he with he | he
      · have := hm l (by simp) e he
        omega
      · have := hm r (by simp) e he
        omega
    · exact ih (fun t ht => hm t (by simp [ht])) u hu d hd

theorem head_depths (h : Pairs a ts pending us Js left) (hts : 2 ≤ ts.length) :
    (us.flatMap JoinTree.depths).head? = (ts.flatMap JoinTree.depths).head?.map (· + 1) := by
  cases h with
  | none => simp at hts
  | odd => simp at hts
  | @pair _ _ _ l r =>
    obtain ⟨d, ds, hd⟩ := List.exists_cons_of_ne_nil l.depths_ne_nil
    simp [joint, Joint.tree, JoinTree.depths, hd]

end Pairs

/-- A list that is not empty comes to one tree. -/
theorem exists_rounds (a : Supply) (ts : List JoinTree) (pending : List Expr) (hne : ts ≠ []) :
    ∃ t Js left, Rounds a ts pending t Js left := by
  induction hn : ts.length using Nat.strong_induction_on generalizing a ts pending with
  | _ n ih =>
    by_cases hone : ts.length = 1
    · obtain ⟨t, rfl⟩ := List.length_eq_one_iff.1 hone
      exact ⟨t, [], pending, .single t⟩
    · have hpos := List.length_pos_iff.2 hne
      obtain ⟨us, Js, mid, hpairs⟩ := exists_pairs a ts pending
      -- a round leaves fewer trees, but not none
      have hlen := hpairs.length
      have hus : us ≠ [] := by
        rw [← List.length_pos_iff]
        omega
      obtain ⟨t, Ks, left, hrounds⟩ := ih us.length (by omega) (a.advance Js.length) us mid hus rfl
      exact ⟨t, Js ++ Ks, left, .round (by omega) hpairs hrounds⟩

namespace Rounds

theorem leaves (h : Rounds a ts pending t Js left) : t.leaves = ts.flatMap JoinTree.leaves := by
  induction h with
  | single => simp
  | round _ first _ ih => rw [ih, first.leaves]

theorem edges (h : Rounds a ts pending t Js left) : ∀ J ∈ Js, J.edges = [] := by
  induction h with
  | single => simp
  | round _ first _ ih =>
    intro J hJ
    rcases List.mem_append.1 hJ with hJ | hJ
    · exact first.edges J hJ
    · exact ih J hJ

theorem tags (h : Rounds a ts pending t Js left) (i : Nat) (hi : i < Js.length) :
    Js[i].tag = a.tagAt i := by
  induction h generalizing i with
  | single => cases hi
  | @round _ _ _ _ _ _ _ Js Ks _ first _ ih =>
    rw [List.length_append] at hi
    by_cases hfirst : i < Js.length
    · rw [List.getElem_append_left hfirst, first.tags i hfirst]
    · rw [List.getElem_append_right (by omega), ih _ (by omega), Supply.tagAt_advance]
      congr 1
      omega

/-- As often as the number of trees can be halved, joins come above a tree. -/
theorem depths_le {m : Nat} (h : Rounds a ts pending t Js left)
    (hm : ∀ t ∈ ts, ∀ d ∈ t.depths, d ≤ m) : ∀ d ∈ t.depths, d ≤ m + Nat.clog 2 ts.length := by
  induction h generalizing m with
  | single t => simpa using hm
  | round several first _ ih =>
    intro d hd
    have := ih (first.depths_le hm) d hd
    rw [first.length] at this
    rw [Nat.clog_of_two_le Nat.one_lt_two several]
    simp only [Nat.reduceSubDiff] at this ⊢
    omega

theorem head_depths (h : Rounds a ts pending t Js left) :
    t.depths.head? = (ts.flatMap JoinTree.depths).head?.map (· + Nat.clog 2 ts.length) := by
  induction h with
  | single => simp
  | round several first _ ih =>
    rw [ih, first.head_depths several, first.length, Option.map_map,
      Nat.clog_of_two_le Nat.one_lt_two several]
    congr 1
    funext d
    simp
    omega

end Rounds
end

end Assembly

end JoinOrder
