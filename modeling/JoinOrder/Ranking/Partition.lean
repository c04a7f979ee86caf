import JoinOrder.Ranking.Run

/-!
# Ranking by partition

A list without runs is split at one of its items, the pivot, into the items less than it and the
others, and both parts are ranked in the same way. The pivot is a median of a few items spread over
the list. Items that turn out to equal the pivot need no further ranking.
-/

namespace JoinOrder.Ranking
variable {α : Type} (less : α → α → Bool)

/-- The item at one position is less than the item at another. -/
def lessAt (items : List α) (i j : Nat) : Bool :=
  match items[i]?, items[j]? with
  | some x, some y => less x y
  | _, _ => false

/-- The position of the median of three items. -/
def median (items : List α) (a b c : Nat) : Nat :=
  let below := lessAt less items a b
  if below == lessAt less items a c then
    if lessAt less items b c == below then b else c
  else a

/-- The position of a median of medians: each of the three positions begins a stretch of the given
length, and in a stretch of at least eight items the median is taken of three parts of it. -/
def spreadMedian (items : List α) (stretch a b c : Nat) : Nat :=
  if h : 8 ≤ stretch then
    let part := stretch / 8
    let near := fun i => spreadMedian items part i (i + 4 * part) (i + 7 * part)
    median less items (near a) (near b) (near c)
  else median less items a b c
termination_by stretch
decreasing_by all_goals omega

/-- The position of the pivot. -/
def pivotPosition (items : List α) : Nat :=
  let part := items.length / 8
  spreadMedian less items part 0 (4 * part) (7 * part)

/-- The items that have a property, and the pivot in its place among them. -/
def around (p : α → Bool) (before : List α) (pivot : α) (after : List α) : List α :=
  before.filter p ++ pivot :: after.filter p

/-- The items in ascending order, by at most the given number of splits in a row; parts that need
more are ranked by merging runs. No item is less than `floor`, if one is given, so that a pivot that
is not greater is among the least. -/
def bySplits : (splits : Nat) → (floor : Option α) → List α → Option (List α)
  | 0, _, items =>
    if items.length ≤ blockSize then block less items else byRuns less some true items
  | splits + 1, floor, items =>
    if items.length ≤ blockSize then block less items
    else
      let before := items.take (pivotPosition less items)
      match items.drop (pivotPosition less items) with
      | [] => return items
      | pivot :: after =>
        let lower := (before ++ after).filter (less · pivot)
        if floor.any (!less · pivot) || lower.isEmpty then do
          let greater ← bySplits splits none ((before ++ after).filter (less pivot ·))
          return around (!less pivot ·) before pivot after ++ greater
        else do
          let lower ← bySplits splits floor lower
          let others ← bySplits splits (some pivot) (around (!less · pivot) before pivot after)
          return lower ++ others

/-- The items in ascending order, by partition. Twice as many splits are allowed as halving the list
takes. -/
def partition (items : List α) : Option (List α) :=
  bySplits less (2 * Nat.log2 items.length) none items

theorem around_perm (p : α → Bool) (before : List α) (pivot : α) (after : List α) :
    (around p before pivot after ++ (before ++ after).filter (!p ·)).Perm
      (before ++ pivot :: after) := by
  refine .trans ?_ List.perm_middle.symm
  refine .trans ?_ ((List.filter_append_perm p (before ++ after)).cons pivot)
  simp only [List.filter_append, ← List.cons_append]
  exact List.perm_middle.append_right _

/-- Nothing is lost or repeated by splits. -/
theorem bySplits_perm {splits : Nat} {floor : Option α} {items sorted : List α}
    (h : bySplits less splits floor items = some sorted) : sorted.Perm items := by
  induction splits generalizing floor items sorted with
  | zero =>
    unfold bySplits at h
    split at h
    · exact block_perm less h
    · exact byRuns_perm less (fun h => by cases h; exact .refl _) h
  | succ splits ih =>
    unfold bySplits at h
    split at h
    · exact block_perm less h
    dsimp only at h
    have whole := List.take_append_drop (pivotPosition less items) items
    split at h
    · cases h; exact .refl _
    case h_2 pivot after tail =>
      rw [tail] at whole
      generalize items.take (pivotPosition less items) = before at whole h
      subst whole
      split at h
      · obtain ⟨greater, hg, h⟩ := Option.bind_eq_some_iff.1 h
        cases h
        refine ((ih hg).append_left _).trans ?_
        simpa using around_perm (!less pivot ·) before pivot after
      · obtain ⟨lower, hl, h⟩ := Option.bind_eq_some_iff.1 h
        obtain ⟨others, ho, h⟩ := Option.bind_eq_some_iff.1 h
        cases h
        refine ((ih hl).append (ih ho)).trans (List.perm_append_comm.trans ?_)
        simpa using around_perm (!less · pivot) before pivot after

theorem partition_perm {items sorted : List α} (h : partition less items = some sorted) :
    sorted.Perm items :=
  bySplits_perm less h

end JoinOrder.Ranking
