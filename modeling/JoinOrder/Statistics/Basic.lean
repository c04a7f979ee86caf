import JoinOrder.Operator.Basic
import JoinOrder.Quantity

/-!
# Statistics

The estimated output of a plan: how many rows, and how many distinct values in each column for
which that is known. No column is taken to have more distinct values than there are rows.
-/

namespace JoinOrder

/-- An estimate of a set of rows. -/
structure Statistics (ν : Type) where
  rows : ν
  /-- The columns whose number of distinct values is known, each with that number. -/
  distinct : List (Column × ν)

namespace Statistics
variable {ν : Type}

/-- The number of distinct values of a column, where known. -/
def distinct? (s : Statistics ν) (c : Column) : Option ν := s.distinct.lookup c

/-- A row count, and nothing known about any column. -/
def ofRows (rows : ν) : Statistics ν := ⟨rows, []⟩

/-- The same estimate with the given number of distinct values in the column `c`. -/
def withDistinct (s : Statistics ν) (c : Column) (count : ν) : Statistics ν :=
  { s with distinct := (c, count) :: s.distinct.filter (·.1 ≠ c) }

/-- Only what is known about the listed columns. -/
def project (s : Statistics ν) (columns : List Column) : Statistics ν :=
  { s with distinct := s.distinct.filter (columns.contains ·.1) }

/-- What is known about the columns of either estimate; the second one has precedence. -/
def distinctOfEither (s t : Statistics ν) : List (Column × ν) :=
  t.distinct ++ s.distinct.filter fun e => (t.distinct? e.1).isNone

section Lookup

theorem lookup_filter (p : Column → Bool) (known : List (Column × ν)) (c : Column) :
    (known.filter (p ·.1)).lookup c = if p c then known.lookup c else none := by
  induction known with
  | nil => simp
  | cons e known ih =>
    obtain ⟨d, n⟩ := e
    by_cases h : c = d
    · subst h
      by_cases hp : p c <;> simp [hp, ih]
    · by_cases hp : p d <;> simp [List.lookup_cons, hp, ih, beq_false_of_ne h]

theorem lookup_map (f : ν → ν) (known : List (Column × ν)) (c : Column) :
    (known.map fun e => (e.1, f e.2)).lookup c = (known.lookup c).map f := by
  induction known with
  | nil => rfl
  | cons e known ih =>
    obtain ⟨d, n⟩ := e
    simp only [List.map_cons, List.lookup_cons]
    cases c == d <;> simp [ih]

@[simp] theorem distinct?_ofRows (rows : ν) (c : Column) : (ofRows rows).distinct? c = none := rfl

@[simp] theorem distinct?_withDistinct (s : Statistics ν) (c d : Column) (count : ν) :
    (s.withDistinct c count).distinct? d = if d = c then some count else s.distinct? d := by
  have rest := lookup_filter (· ≠ c) s.distinct d
  by_cases h : d = c
  · simp [distinct?, withDistinct, h]
  · simp_all [distinct?, withDistinct, List.lookup_cons, beq_false_of_ne h]

@[simp] theorem distinct?_project (s : Statistics ν) (columns : List Column) (c : Column) :
    (s.project columns).distinct? c = if columns.contains c then s.distinct? c else none :=
  lookup_filter columns.contains s.distinct c

theorem lookup_distinctOfEither (s t : Statistics ν) (c : Column) :
    (s.distinctOfEither t).lookup c = (t.distinct? c).or (s.distinct? c) := by
  rw [distinctOfEither, List.lookup_append,
    lookup_filter (fun d => (t.distinct? d).isNone) s.distinct c]
  change (t.distinct? c).or _ = _
  cases t.distinct? c <;> rfl

end Lookup

section Estimates
variable [Quantity ν]
open Quantity

/-- The estimate at another row count, which also caps the distinct values. -/
def scaleTo (s : Statistics ν) (rows : ν) : Statistics ν :=
  ⟨rows, s.distinct.map fun e => (e.1, lesser e.2 rows)⟩

@[simp] theorem distinct?_scaleTo (s : Statistics ν) (rows : ν) (c : Column) :
    (s.scaleTo rows).distinct? c = (s.distinct? c).map (lesser · rows) :=
  lookup_map (lesser · rows) s.distinct c

/-- At most `count` of the rows. -/
def limit (s : Statistics ν) (count : Nat) : Statistics ν :=
  s.scaleTo (lesser s.rows (ofNat count))

/-- The rows that satisfy `count` conditions of unknown selectivity. No more conditions are meant than
a signed 32-bit exponent can count. -/
def filter (s : Statistics ν) (count : Nat) : Statistics ν :=
  s.scaleTo (s.rows * power selectivity count)

/-- The distinct values of a join column: those of the side it comes from, and where they are not
known, one for each row of that side. Every column that is not on the left is taken from the
right. -/
def distinctInJoin (onLeft : Column → Bool) (left right : Statistics ν) (c : Column) : ν :=
  let side := if onLeft c then left else right
  (side.distinct? c).getD side.rows

/-- The greatest number of distinct values on either side of an edge. -/
def joinKey (onLeft : Column → Bool) (left right : Statistics ν) (edges : List Edge) : ν :=
  let ends (e : Edge) :=
    greater (distinctInJoin onLeft left right e.left) (distinctInJoin onLeft left right e.right)
  (edges.map ends).foldl greater zero

/-- The rows that match: all pairs, divided among the values of the join key, and reduced once if
there are residual conditions. -/
def matchingRows (onLeft : Column → Bool) (left right : Statistics ν) (j : Join) : ν :=
  let pairs := left.rows * right.rows
  let keyed :=
    if j.edges.isEmpty then pairs
    else pairs / greater (joinKey onLeft left right j.edges) one
  if j.residuals.isEmpty then keyed else keyed * selectivity

/-- The rows of a join. An outer join has at least the rows of every side that it keeps. -/
def joinRows (onLeft : Column → Bool) (left right : Statistics ν) (j : Join) : ν :=
  let rows := matchingRows onLeft left right j
  match j.kind with
  | .inner => rows
  | .left => greater rows left.rows
  | .right => greater rows right.rows
  | .full => greater rows (greater left.rows right.rows)

/-- The estimate of a join; `onLeft` tells the columns of the left input. -/
def join (onLeft : Column → Bool) (left right : Statistics ν) (j : Join) : Statistics ν :=
  scaleTo ⟨left.rows, left.distinctOfEither right⟩ (joinRows onLeft left right j)

@[simp] theorem distinct?_join (onLeft : Column → Bool) (left right : Statistics ν) (j : Join)
    (c : Column) :
    (join onLeft left right j).distinct? c =
      ((right.distinct? c).or (left.distinct? c)).map
        (lesser · (joinRows onLeft left right j)) := by
  rw [join, distinct?_scaleTo, ← lookup_distinctOfEither]
  rfl

end Estimates

end Statistics

end JoinOrder
