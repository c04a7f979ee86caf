import JoinOrder.Ranking.Insertion
import JoinOrder.Ranking.Merge

/-!
# Ranking short lists

A block is a list so short that it is ranked without looking for an order that it already has. Its
halves are ranked by insertion, after a beginning of fixed comparisons, and merged from both sides.
There is no result where such a merge panics.
-/

namespace JoinOrder.Ranking
variable {α : Type} (less : α → α → Bool)

/-- The greatest length of a block. -/
def blockSize : Nat := 32

/-- Two items in order. -/
def pair (x y : α) : List α := if less y x then [y, x] else [x, y]

/-- Four items in order, by five comparisons: two pairs, the lesser and the greater ends of both,
and the two items left between them. -/
def four : List α → List α
  | [w, x, y, z] =>
    let (a, b) := if less x w then (x, w) else (w, x)
    let (c, d) := if less z y then (z, y) else (y, z)
    match less c a, less d b with
    | false, false => a :: pair less b c ++ [d]
    | false, true => a :: pair less c d ++ [b]
    | true, false => c :: pair less a b ++ [d]
    | true, true => c :: pair less a d ++ [b]
  | items => items

/-- Eight items in order, by merging two times four. -/
def eight (items : List α) : Option (List α) :=
  meet less (four less (items.take 4)) (four less (items.drop 4))

/-- The half of a block of the given length in order. -/
def half (length : Nat) (items : List α) : Option (List α) :=
  if 16 ≤ length then return insertAll less (← eight less (items.take 8)) (items.drop 8)
  else if 8 ≤ length then return insertAll less (four less (items.take 4)) (items.drop 4)
  else return insertion less items

/-- A block in order. -/
def block (items : List α) : Option (List α) := do
  let length := items.length
  let left ← half less length (items.take (length / 2))
  let right ← half less length (items.drop (length / 2))
  meet less left right

theorem pair_perm (x y : α) : (pair less x y).Perm [x, y] := by
  unfold pair
  split
  · exact .swap x y []
  · exact .refl _

theorem four_perm (items : List α) : (four less items).Perm items := by
  unfold four
  split
  case h_1 w x y z =>
    generalize hab : (if less x w then (x, w) else (w, x)) = ab
    generalize hcd : (if less z y then (z, y) else (y, z)) = cd
    obtain ⟨a, b⟩ := ab
    obtain ⟨c, d⟩ := cd
    have first : [a, b].Perm [w, x] := by
      split at hab
      · cases hab; exact .swap w x []
      · cases hab; exact .refl _
    have second : [c, d].Perm [y, z] := by
      split at hcd
      · cases hcd; exact .swap y z []
      · cases hcd; exact .refl _
    refine .trans ?_ (first.append second)
    have between : ∀ p q r s, (p :: pair less q r ++ [s]).Perm [p, q, r, s] := fun p q r s =>
      ((pair_perm less q r).append_right [s]).cons p
    have last : [a, c, d, b].Perm [a, b, c, d] :=
      (List.perm_append_comm : ([c, d] ++ [b]).Perm ([b] ++ [c, d])).cons a
    dsimp only
    split
    · exact between a b c d
    · exact (between a c d b).trans last
    · exact (between c a b d).trans (List.perm_append_comm_assoc [c] [a, b] [d])
    · exact (between c a d b).trans ((List.Perm.swap a c [d, b]).trans last)
  · exact .refl _

theorem eight_perm {items sorted : List α} (h : eight less items = some sorted) :
    sorted.Perm items := by
  refine (meet_perm less h).trans ?_
  have h := (four_perm less (items.take 4)).append (four_perm less (items.drop 4))
  rwa [List.take_append_drop] at h

theorem half_perm {length : Nat} {items sorted : List α}
    (h : half less length items = some sorted) : sorted.Perm items := by
  have extend : ∀ n sorted, sorted.Perm (items.take n) →
      (insertAll less sorted (items.drop n)).Perm items := by
    intro n sorted h
    have h := (insertAll_perm less sorted (items.drop n)).trans (h.append_right _)
    rwa [List.take_append_drop] at h
  unfold half at h
  split at h
  · obtain ⟨first, eight, h⟩ := Option.bind_eq_some_iff.1 h
    cases h
    exact extend 8 _ (eight_perm less eight)
  split at h
  · cases h
    exact extend 4 _ (four_perm less _)
  · cases h
    exact insertion_perm less items

/-- Nothing is lost or repeated in a block. -/
theorem block_perm {items sorted : List α} (h : block less items = some sorted) :
    sorted.Perm items := by
  obtain ⟨left, hl, h⟩ := Option.bind_eq_some_iff.1 h
  obtain ⟨right, hr, h⟩ := Option.bind_eq_some_iff.1 h
  refine (meet_perm less h).trans ?_
  have h := (half_perm less hl).append (half_perm less hr)
  rwa [List.take_append_drop] at h

end JoinOrder.Ranking
