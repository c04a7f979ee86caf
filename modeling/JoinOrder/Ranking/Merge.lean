/-!
# Merging

Two sorted lists are merged so that of equal items those of the left list come first. The merge can
begin at the front or at the back. Both give the same if the comparison is an order; if not, the
pairs that are compared differ, and so may the results.
-/

namespace JoinOrder.Ranking
variable {α : Type} (less : α → α → Bool)

/-- Merges from the front: the head of the right list is next only if it is less than the other
head. -/
def mergeUp (left right : List α) : List α := left.merge right fun a b => !less b a

/-- Merges from the back: the end of the left list is last only if the other end is less. -/
def mergeDown (left right : List α) : List α :=
  (right.reverse.merge left.reverse fun b a => !less b a).reverse

/-- Merges from the side of the shorter list. -/
def merge (left right : List α) : List α :=
  if left.length ≤ right.length then mergeUp less left right else mergeDown less left right

/-- The beginning of a merge: the items merged so far and what is left of either list. -/
structure Merging (α : Type) where
  merged : List α
  left : List α
  right : List α

/-- The first `steps` items of a merge from the front. -/
def mergeFront : (steps : Nat) → (left right : List α) → Merging α
  | steps + 1, a :: left, b :: right =>
    if less b a then
      let m := mergeFront steps (a :: left) right
      { m with merged := b :: m.merged }
    else
      let m := mergeFront steps left (b :: right)
      { m with merged := a :: m.merged }
  | _, left, right => ⟨[], left, right⟩

/-- The last `steps` items of a merge from the back. -/
def mergeBack (steps : Nat) (left right : List α) : Merging α :=
  let m := mergeFront (fun b a => less a b) steps right.reverse left.reverse
  ⟨m.merged.reverse, m.right.reverse, m.left.reverse⟩

/-- Merges from both sides at once, as many items from either side as the left list has. The right
list has as many items or one more. There is a result only if the two sides leave the same items for
the middle. If they do not, the comparison is no order, and merging panics. -/
def meet (left right : List α) : Option (List α) :=
  let front := mergeFront less left.length left right
  let back := mergeBack less left.length left right
  let fromLeft := front.left.length + back.left.length
  let fromRight := front.right.length + back.right.length
  if left.length ≤ fromLeft && right.length ≤ fromRight then
    some (front.merged ++ front.left.take (fromLeft - left.length) ++
      front.right.take (fromRight - right.length) ++ back.merged)
  else none

theorem mergeUp_perm (left right : List α) : (mergeUp less left right).Perm (left ++ right) :=
  List.merge_perm_append _

theorem mergeDown_perm (left right : List α) :
    (mergeDown less left right).Perm (left ++ right) := by
  refine (List.reverse_perm _).trans ((List.merge_perm_append _).trans ?_)
  rw [← List.reverse_append]
  exact List.reverse_perm _

/-- Nothing is lost or repeated by a merge. -/
theorem merge_perm (left right : List α) : (merge less left right).Perm (left ++ right) := by
  unfold merge
  split
  · exact mergeUp_perm less left right
  · exact mergeDown_perm less left right

/-- What a merge from the front has not reached are the ends of the two lists. -/
theorem mergeFront_isSuffix (steps : Nat) (left right : List α) :
    (mergeFront less steps left right).left <:+ left ∧
      (mergeFront less steps left right).right <:+ right := by
  induction steps generalizing left right with
  | zero => simp [mergeFront]
  | succ steps ih =>
    match left, right with
    | [], _ => simp [mergeFront]
    | _ :: _, [] => simp [mergeFront]
    | a :: left, b :: right =>
      unfold mergeFront
      split
      · exact ⟨(ih _ _).1, (ih _ _).2.trans (List.suffix_cons b right)⟩
      · exact ⟨(ih _ _).1.trans (List.suffix_cons a left), (ih _ _).2⟩

theorem mergeFront_perm (steps : Nat) (left right : List α) :
    let m := mergeFront less steps left right
    (m.merged ++ (m.left ++ m.right)).Perm (left ++ right) := by
  induction steps generalizing left right with
  | zero => simp [mergeFront]
  | succ steps ih =>
    match left, right with
    | [], _ => simp [mergeFront]
    | _ :: _, [] => simp [mergeFront]
    | a :: left, b :: right =>
      unfold mergeFront
      split
      · exact ((ih (a :: left) right).cons b).trans List.perm_middle.symm
      · exact (ih left (b :: right)).cons a

/-- What a merge from the back has not reached are the beginnings of the two lists. -/
theorem mergeBack_isPrefix (steps : Nat) (left right : List α) :
    (mergeBack less steps left right).left <+: left ∧
      (mergeBack less steps left right).right <+: right := by
  have h := mergeFront_isSuffix (fun b a => less a b) steps right.reverse left.reverse
  constructor
  · simpa [mergeBack] using List.reverse_prefix.2 h.2
  · simpa [mergeBack] using List.reverse_prefix.2 h.1

theorem mergeBack_perm (steps : Nat) (left right : List α) :
    let m := mergeBack less steps left right
    m.merged.Perm (left.drop m.left.length ++ right.drop m.right.length) := by
  intro m
  have all : (m.merged ++ (m.left ++ m.right)).Perm (left ++ right) := by
    have h := mergeFront_perm (fun b a => less a b) steps right.reverse left.reverse
    refine .trans ?_ (h.trans ?_)
    · exact (List.reverse_perm _).append <|
        List.perm_append_comm.trans ((List.reverse_perm _).append (List.reverse_perm _))
    · rw [← List.reverse_append]
      exact List.reverse_perm _
  obtain ⟨⟨l, hl⟩, ⟨r, hr⟩⟩ := mergeBack_isPrefix less steps left right
  have hl : m.left ++ l = left := hl
  have hr : m.right ++ r = right := hr
  rw [← hl, ← hr] at all ⊢
  rw [List.drop_left, List.drop_left]
  refine (List.perm_append_right_iff (m.left ++ m.right)).1 (all.trans ?_)
  rw [List.append_assoc]
  refine ((List.perm_append_comm_assoc l m.right r).append_left m.left).trans ?_
  rw [← List.append_assoc]
  exact List.perm_append_comm

/-- Nothing is lost or repeated where the two sides of a merge meet. -/
theorem meet_perm {left right merged : List α} (h : meet less left right = some merged) :
    merged.Perm (left ++ right) := by
  simp only [meet] at h
  split at h
  case isFalse => cases h
  case isTrue enough =>
    cases h
    have front := mergeFront_perm less left.length left right
    have back := mergeBack_perm less left.length left right
    obtain ⟨hl, hr⟩ := mergeFront_isSuffix less left.length left right
    simp only [Bool.and_eq_true, decide_eq_true_eq] at enough
    generalize mergeFront less left.length left right = m at *
    generalize mergeBack less left.length left right = n at *
    have rest : ∀ {ends whole : List α} {k : Nat}, ends <:+ whole → whole.length ≤ ends.length + k →
        ends.drop (ends.length + k - whole.length) = whole.drop k := by
      intro ends whole k hs hk
      have := hs.length_le
      rw [List.suffix_iff_eq_drop.1 hs, List.drop_drop, List.length_drop]
      congr 1
      omega
    have dl := List.take_append_drop (m.left.length + n.left.length - left.length) m.left
    have dr := List.take_append_drop (m.right.length + n.right.length - right.length) m.right
    rw [rest hl enough.1] at dl
    rw [rest hr enough.2] at dr
    refine .trans ?_ front
    simp only [List.append_assoc]
    refine List.Perm.append_left _ ?_
    conv => rhs; rw [← dl, ← dr, List.append_assoc]
    refine List.Perm.append_left _ ?_
    exact (back.append_left _).trans (List.perm_append_comm_assoc _ _ _)

end JoinOrder.Ranking
