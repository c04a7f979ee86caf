import JoinOrder.Ranking.Partition

/-!
# Stable ranking

If any two items compare, there is one way to rank them that leaves items of equal rank in order.
If some do not compare, where an item ends up depends on the pairs that are compared. So the method
is part of the result. The length of the list decides it: insertion for a few items, merging runs
for more, and in a long list partition of what has no runs. A list too long for insertion may have no
result: where comparisons contradict each other, ranking panics.
-/

namespace JoinOrder.Ranking
variable {α : Type} (less : α → α → Bool)

/-- The greatest number of items ranked by insertion. -/
def insertionLimit : Nat := 20

/-- The items in ascending order. A list of at most two blocks is cut into sorted runs only. There is
no result if the ranking panics. -/
def stable (items : List α) : Option (List α) :=
  if items.length ≤ insertionLimit then return insertion less items
  else byRuns less (partition less) (items.length ≤ 2 * blockSize) items

/-- Nothing is lost or repeated by ranking, whatever the comparison. -/
theorem stable_perm {items sorted : List α} (h : stable less items = some sorted) :
    sorted.Perm items := by
  unfold stable at h
  split at h
  · cases h; exact insertion_perm less items
  · exact byRuns_perm less (partition_perm less) h

end JoinOrder.Ranking
