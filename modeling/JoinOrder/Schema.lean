import JoinOrder.Column

/-!
# Schemas

The output of an operator is an ordered list of columns in which no column occurs twice. Lists are
brought into this form by keeping first occurrences. `merge_eq_ofList` says that merging two schemas
is concatenation followed by that cleaning.
-/

namespace JoinOrder

/-- The first occurrence of each element, in order. -/
def firsts {α : Type} [DecidableEq α] : List α → List α
  | [] => []
  | a :: as => a :: (firsts as).filter (· ≠ a)

section Firsts
variable {α : Type} [DecidableEq α]

/-- Nothing is lost and nothing is added. -/
@[simp] theorem mem_firsts {a : α} {as : List α} : a ∈ firsts as ↔ a ∈ as := by
  induction as with
  | nil => simp [firsts]
  | cons b bs ih => by_cases h : a = b <;> simp [firsts, ih, h]

theorem nodup_firsts (as : List α) : (firsts as).Nodup := by
  induction as with
  | nil => simp [firsts]
  | cons a as ih =>
    rw [firsts, List.nodup_cons]
    exact ⟨by simp, ih.sublist List.filter_sublist⟩

theorem firsts_of_nodup {as : List α} (h : as.Nodup) : firsts as = as := by
  induction as with
  | nil => rfl
  | cons a as ih =>
    rw [List.nodup_cons] at h
    rw [firsts, ih h.2, List.filter_eq_self.2]
    intro b hb
    simpa using fun e : b = a => h.1 (e ▸ hb)

/-- The first occurrences in `as ++ bs` are those in `as`, then those of what is new in `bs`. -/
theorem firsts_append (as bs : List α) :
    firsts (as ++ bs) = firsts as ++ (firsts bs).filter (· ∉ as) := by
  induction as with
  | nil => exact (List.filter_eq_self.2 fun _ _ => by simp).symm
  | cons a as ih =>
    rw [List.cons_append, firsts, ih, List.filter_append, List.filter_filter, firsts,
      List.cons_append]
    congr 2
    apply List.filter_congr
    intro b _
    by_cases h : b = a <;> simp [h]

end Firsts

/-- Ordered, duplicate-free output columns. -/
structure Schema where
  columns : List Column
  nodup : columns.Nodup
  deriving DecidableEq

namespace Schema

/-- No columns at all. -/
def empty : Schema := ⟨[], List.nodup_nil⟩

/-- The listed columns, each where it occurs first. -/
def ofList (columns : List Column) : Schema := ⟨firsts columns, nodup_firsts columns⟩

/-- The number of columns. -/
def size (s : Schema) : Nat := s.columns.length

/-- There is no column. -/
def isEmpty (s : Schema) : Bool := s.columns.isEmpty

/-- The column belongs to the schema. -/
def contains (s : Schema) (c : Column) : Bool := s.columns.contains c

/-- Every listed column belongs to the schema. -/
def containsAll (s : Schema) (columns : List Column) : Bool := columns.all s.contains

/-- The position of a column. -/
def indexOf? (s : Schema) (c : Column) : Option Nat := s.columns.findIdx? (· == c)

/-- The columns of `s` followed by those of `t` that `s` does not have. -/
def merge (s t : Schema) : Schema where
  columns := s.columns ++ t.columns.filter (· ∉ s.columns)
  nodup := by
    refine List.nodup_append.2 ⟨s.nodup, t.nodup.sublist List.filter_sublist, ?_⟩
    rintro a ha b hb rfl
    simp [ha] at hb

/-- The same columns, in any order. -/
def sameColumns (s t : Schema) : Bool :=
  s.size == t.size && s.containsAll t.columns && t.containsAll s.columns

/-- The columns in square brackets. -/
def render (s : Schema) : String := "[" ++ ", ".intercalate (s.columns.map Column.text) ++ "]"

@[ext] theorem ext {s t : Schema} (h : s.columns = t.columns) : s = t := by
  cases s; cases t; cases h; rfl

@[simp] theorem contains_iff {s : Schema} {c : Column} : s.contains c = true ↔ c ∈ s.columns := by
  simp [contains]

@[simp] theorem mem_ofList {c : Column} {columns : List Column} :
    c ∈ (ofList columns).columns ↔ c ∈ columns := mem_firsts

@[simp] theorem mem_merge {c : Column} {s t : Schema} :
    c ∈ (merge s t).columns ↔ c ∈ s.columns ∨ c ∈ t.columns := by
  by_cases h : c ∈ s.columns <;> simp [merge, h]

/-- Merging is concatenation, with every column kept where it occurs first. -/
theorem merge_eq_ofList (s t : Schema) : merge s t = ofList (s.columns ++ t.columns) := by
  apply Schema.ext
  change s.columns ++ t.columns.filter (· ∉ s.columns) = firsts (s.columns ++ t.columns)
  rw [firsts_append, firsts_of_nodup s.nodup, firsts_of_nodup t.nodup]

/-- A schema lists no column twice, so nothing is cleaned away. -/
@[simp] theorem ofList_columns (s : Schema) : ofList s.columns = s := Schema.ext (firsts_of_nodup s.nodup)

/-- Lists can be cleaned before or after they are put together. -/
theorem merge_ofList (xs ys : List Column) : merge (ofList xs) (ofList ys) = ofList (xs ++ ys) := by
  apply Schema.ext
  change firsts xs ++ (firsts ys).filter (· ∉ firsts xs) = firsts (xs ++ ys)
  simp only [firsts_append, mem_firsts]

end Schema

end JoinOrder
