import Mathlib.Data.List.Basic
import Mathlib.Logic.Function.Iterate
import JoinOrder.Expr.Basic

/-!
# Reading expressions back

The text of an expression says what it is, up to the order of a `NOT` and an `IS NULL` around the
same expression: `NOT a.x IS NULL` is printed for either order. `Expr.hoisted` moves every `NOT` out
of the tests for null around it, which keeps the text, and legible expressions have the same text if
and only if they become the same in this way (`Expr.render_eq_iff`). So the text of a `Settled`
expression, in which no `IS NULL` stands directly above a `NOT`, determines it.

The text is read from the left. A settled expression begins with its `NOT`s and ends with its `IS
NULL`s, and what stands between them, its core, tells where it ends: a word goes on up to the next
mark, a quoted text up to the next quote, and in brackets stand two expressions around an operator
(`Expr.Readable`).
-/

namespace JoinOrder

section Words
variable {α : Type} {w w' r r' : List α}

/-- A text is cut after the characters that it begins with and that belong to a word. -/
theorem append_inj_of_all (p : α → Bool) (hw : ∀ c ∈ w, p c = true) (hw' : ∀ c ∈ w', p c = true)
    (hr : ∀ c ∈ r.head?, p c = false) (hr' : ∀ c ∈ r'.head?, p c = false)
    (h : w ++ r = w' ++ r') : w = w' ∧ r = r' := by
  have hcut : ∀ {w r : List α}, (∀ c ∈ w, p c = true) → (∀ c ∈ r.head?, p c = false) →
      (w ++ r).takeWhile p = w := by
    intro w r hw hr
    rw [List.takeWhile_append_of_pos hw]
    cases r with
    | nil => simp
    | cons c r => simp [hr c rfl]
  have hww : w = w' := by rw [← hcut hw hr, h, hcut hw' hr']
  subst hww
  exact ⟨rfl, List.append_cancel_left h⟩

end Words

theorem toDigits_inj {m n : Nat} (h : Nat.toDigits 10 m = Nat.toDigits 10 n) : m = n := by
  rw [← Nat.ofDigitChars_ten_toDigits (n := m), h, Nat.ofDigitChars_ten_toDigits]

/-- A word ends before it. -/
def isMark (c : Char) : Bool := c = ' ' || c = '(' || c = ')' || c = '\''

/-- It can stand in a name, as letters, digits and underscores can. -/
def isPlain (c : Char) : Bool := c ≠ '.' && !isMark c

theorem isPlain_of_isAlphanum {c : Char} (h : c.isAlphanum = true ∨ c = '_') : isPlain c = true := by
  by_contra hc
  have hcases : c = '.' ∨ c = ' ' ∨ c = '(' ∨ c = ')' ∨ c = '\'' := by
    simp [isPlain, isMark] at hc
    tauto
  rcases hcases with rfl | rfl | rfl | rfl | rfl <;> revert h <;> decide

/-- The text is over, or a mark comes next. -/
def EndsWord (r : List Char) : Prop := ∀ c ∈ r.head?, isMark c = true

/-- What may follow an expression: nothing, a closing bracket, or an operator. An `IS NULL` would
belong to the expression. -/
inductive Follows : List Char → Prop
  | nil : Follows []
  | close (s : List Char) : Follows (')' :: s)
  | operator (s : List Char) {c : Char} (hc : c ≠ 'I') : Follows (' ' :: c :: s)

namespace Expr

/-- The text as a list of characters. -/
def chars (e : Expr) : List Char := e.render.toList

/-- Names are without dots and marks, and text constants without quotes. -/
def Legible : Expr → Prop
  | column c => (∀ x ∈ c.relation.toList, isPlain x = true) ∧ ∀ x ∈ c.name.toList, isPlain x = true
  | literal (.text value) => '\'' ∉ value.toList
  | literal _ => True
  | binary _ left right => left.Legible ∧ right.Legible
  | not e => e.Legible
  | isNull e => e.Legible

theorem legible_column {c : Column} (h : ∀ x, x ∈ c.relation.toList ∨ x ∈ c.name.toList →
    x.isAlphanum = true ∨ x = '_') : (column c).Legible :=
  ⟨fun x hx => isPlain_of_isAlphanum (h x (.inl hx)),
    fun x hx => isPlain_of_isAlphanum (h x (.inr hx))⟩

/-- No test for null stands directly above a negation. -/
def Settled : Expr → Prop
  | column _ => True
  | literal _ => True
  | binary _ left right => left.Settled ∧ right.Settled
  | not e => e.Settled
  | isNull e => e.Settled ∧ ∀ f, e ≠ not f

/-- The test for null of an expression, below the negations at its top. -/
def nullOf : Expr → Expr
  | not e => not e.nullOf
  | e => isNull e

/-- The expression with all negations moved out of the tests for null directly above them. -/
def hoisted : Expr → Expr
  | column c => column c
  | literal value => literal value
  | binary op left right => binary op left.hoisted right.hoisted
  | not e => not e.hoisted
  | isNull e => e.hoisted.nullOf

section Hoisting
variable {e : Expr}

theorem render_nullOf (e : Expr) : e.nullOf.render = e.render ++ " IS NULL" := by
  induction e with
  | not e ih => rw [nullOf, render, render, ih, String.append_assoc]
  | _ => rfl

theorem render_hoisted (e : Expr) : e.hoisted.render = e.render := by
  induction e with
  | column c => rfl
  | literal value => rfl
  | binary op left right ihl ihr => simp only [hoisted, render, ihl, ihr]
  | not e ih => rw [hoisted, render, render, ih]
  | isNull e ih => rw [hoisted, render_nullOf, render, ih]

theorem legible_nullOf (h : e.Legible) : e.nullOf.Legible := by
  induction e with
  | not e ih => exact ih h
  | _ => exact h

theorem legible_hoisted (h : e.Legible) : e.hoisted.Legible := by
  induction e with
  | column c => exact h
  | literal value => exact h
  | binary op left right ihl ihr => exact ⟨ihl h.1, ihr h.2⟩
  | not e ih => exact ih h
  | isNull e ih => exact legible_nullOf (ih h)

theorem settled_nullOf (h : e.Settled) : e.nullOf.Settled := by
  induction e with
  | not e ih => exact ih h
  | _ => exact ⟨h, by simp⟩

theorem settled_hoisted (e : Expr) : e.hoisted.Settled := by
  induction e with
  | column c => trivial
  | literal value => trivial
  | binary op left right ihl ihr => exact ⟨ihl, ihr⟩
  | not e ih => exact ih
  | isNull e ih => exact settled_nullOf ih

theorem nullOf_of_ne_not (h : ∀ f, e ≠ not f) : e.nullOf = isNull e := by
  cases e with
  | not f => exact absurd rfl (h f)
  | _ => rfl

theorem hoisted_of_settled (h : e.Settled) : e.hoisted = e := by
  induction e with
  | column c => rfl
  | literal value => rfl
  | binary op left right ihl ihr => rw [hoisted, ihl h.1, ihr h.2]
  | not e ih => rw [hoisted, ih h]
  | isNull e ih => rw [hoisted, ih h.1, nullOf_of_ne_not h.2]

end Hoisting

/-- It is printed as a single word. -/
inductive IsWord : Expr → Prop
  | column (c : Column) : IsWord (.column c)
  | bool (b : Bool) : IsWord (.literal (.bool b))
  | int (i : Int) : IsWord (.literal (.int i))

/-- It is neither a negation nor a test for null. -/
inductive IsCore : Expr → Prop
  | word {e : Expr} (h : e.IsWord) : IsCore e
  | text (value : String) : IsCore (.literal (.text value))
  | binary (op : BinaryOp) (left right : Expr) : IsCore (.binary op left right)

section Words
variable {e e' : Expr}

theorem chars_column (c : Column) :
    (column c).chars = c.relation.toList ++ '.' :: c.name.toList := by
  simp [chars, render, Column.text]

theorem chars_int (i : Int) : (literal (.int i)).chars =
    if 0 ≤ i then Nat.toDigits 10 i.toNat else '-' :: Nat.toDigits 10 (-i).toNat := by
  rw [chars, render, Literal.render, Int.toString_eq_repr, Int.repr_eq_if]
  split <;> simp

theorem isDigit_of_mem_int {i : Int} {x : Char} (h : x ∈ (literal (.int i)).chars) :
    x.isDigit = true ∨ x = '-' := by
  have hdigit : ∀ {n : Nat}, x ∈ Nat.toDigits 10 n → x.isDigit = true :=
    Nat.isDigit_of_mem_toDigits (by decide) (by decide)
  rw [chars_int] at h
  split at h
  · exact .inl (hdigit h)
  · rcases List.mem_cons.1 h with h | h
    · exact .inr h
    · exact .inl (hdigit h)

theorem chars_int_inj {i j : Int} (h : (literal (.int i)).chars = (literal (.int j)).chars) :
    i = j := by
  have hminus : ∀ {m : Nat} {w : List Char}, Nat.toDigits 10 m ≠ '-' :: w := by
    intro m w hm
    have hmem : '-' ∈ Nat.toDigits 10 m := by simp [hm]
    have := Nat.isDigit_of_mem_toDigits (by decide) (by decide) hmem
    revert this
    decide
  rw [chars_int, chars_int] at h
  split at h <;> split at h
  · have := toDigits_inj h
    omega
  · exact absurd h hminus
  · exact absurd h.symm hminus
  · have := toDigits_inj (List.cons.inj h).2
    omega

theorem dot_mem_column (c : Column) : '.' ∈ (column c).chars := by simp [chars_column]

theorem dot_not_mem_bool (b : Bool) : '.' ∉ (literal (.bool b)).chars := by cases b <;> decide

theorem dot_not_mem_int (i : Int) : '.' ∉ (literal (.int i)).chars := by
  intro h
  have := isDigit_of_mem_int h
  revert this
  decide

theorem letter_mem_bool (b : Bool) : 'e' ∈ (literal (.bool b)).chars := by cases b <;> decide

theorem letter_not_mem_int (i : Int) : 'e' ∉ (literal (.int i)).chars := by
  intro h
  have := isDigit_of_mem_int h
  revert this
  decide

namespace IsWord

theorem isMark_of_mem (h : e.IsWord) (hl : e.Legible) : ∀ x ∈ e.chars, isMark x = false := by
  intro x hx
  cases h with
  | column c =>
    rw [chars_column, List.mem_append, List.mem_cons] at hx
    have hplain : ∀ {y}, isPlain y = true → isMark y = false := by
      intro y hy
      simpa using (Bool.and_eq_true_iff.1 hy).2
    rcases hx with hx | rfl | hx
    · exact hplain (hl.1 x hx)
    · decide
    · exact hplain (hl.2 x hx)
  | bool b =>
    have hall : (literal (.bool b)).chars.all (!isMark ·) = true := by cases b <;> decide
    simpa using List.all_eq_true.1 hall x hx
  | int i =>
    by_contra hmark
    have hcases : x = ' ' ∨ x = '(' ∨ x = ')' ∨ x = '\'' := by
      simp [isMark] at hmark
      tauto
    have hdigit := isDigit_of_mem_int hx
    rcases hcases with rfl | rfl | rfl | rfl <;> revert hdigit <;> decide

theorem chars_ne_nil (h : e.IsWord) : e.chars ≠ [] := by
  cases h with
  | column c => simp [chars_column]
  | bool b => cases b <;> decide
  | int i =>
    rw [chars_int]
    split <;> simp

theorem chars_inj (h : e.IsWord) (h' : e'.IsWord) (hl : e.Legible) (hl' : e'.Legible)
    (heq : e.chars = e'.chars) : e = e' := by
  cases h with
  | column c =>
    cases h' with
    | column d =>
      rw [chars_column, chars_column] at heq
      obtain ⟨hrel, hname⟩ := append_inj_of_all isPlain hl.1 hl'.1 (by simp [isPlain])
        (by simp [isPlain]) heq
      obtain ⟨-, hname⟩ := List.cons.inj hname
      obtain ⟨rel, name⟩ := c
      obtain rfl := String.toList_inj.1 hrel
      obtain rfl := String.toList_inj.1 hname
      rfl
    | bool b => exact absurd (heq ▸ dot_mem_column c) (dot_not_mem_bool b)
    | int i => exact absurd (heq ▸ dot_mem_column c) (dot_not_mem_int i)
  | bool b =>
    cases h' with
    | column c => exact absurd (heq ▸ dot_mem_column c) (dot_not_mem_bool b)
    | bool b' =>
      revert heq
      cases b <;> cases b' <;> decide
    | int i => exact absurd (heq ▸ letter_mem_bool b) (letter_not_mem_int i)
  | int i =>
    cases h' with
    | column c => exact absurd (heq ▸ dot_mem_column c) (dot_not_mem_int i)
    | bool b => exact absurd (heq ▸ letter_mem_bool b) (letter_not_mem_int i)
    | int j => rw [chars_int_inj heq]

theorem chars_ne_not (h : e.IsWord) : e.chars ≠ ['N', 'O', 'T'] := by
  intro heq
  cases h with
  | column c =>
    have := dot_mem_column c
    rw [heq] at this
    revert this
    decide
  | bool b =>
    revert heq
    cases b <;> decide
  | int i =>
    have hmem : 'N' ∈ (literal (.int i)).chars := by simp [heq]
    have := isDigit_of_mem_int hmem
    revert this
    decide

end IsWord

end Words

theorem chars_text (value : String) :
    (literal (.text value)).chars = '\'' :: (value.toList ++ ['\'']) := by
  simp [chars, render, Literal.render]

theorem chars_binary (op : BinaryOp) (left right : Expr) : (binary op left right).chars =
    '(' :: (left.chars ++ ' ' :: (op.symbol.toList ++ ' ' :: (right.chars ++ [')']))) := by
  simp [chars, render]

theorem symbol_inj {op op' : BinaryOp} {r r' : List Char}
    (h : op.symbol.toList ++ ' ' :: r = op'.symbol.toList ++ ' ' :: r') : op = op' ∧ r = r' := by
  have hword : ∀ op : BinaryOp, ∀ x ∈ op.symbol.toList, decide (x ≠ ' ') = true := by
    intro op
    have hall : op.symbol.toList.all (· ≠ ' ') = true := by cases op <;> decide
    exact List.all_eq_true.1 hall
  obtain ⟨hsymbol, hrest⟩ := append_inj_of_all (· ≠ ' ') (hword op) (hword op') (by simp) (by simp) h
  refine ⟨?_, (List.cons.inj hrest).2⟩
  revert hsymbol
  cases op <;> cases op' <;> decide

/-- An operator may follow an expression. -/
theorem follows_symbol (op : BinaryOp) (s : List Char) :
    Follows (' ' :: (op.symbol.toList ++ s)) := by
  cases op <;> exact .operator _ (by decide)

/-- Read from the left, the text tells which expression it is, and where it ends. -/
def Readable (e : Expr) : Prop :=
  ∀ e' r r', e'.Settled → e'.Legible → Follows r → Follows r' → e.chars ++ r = e'.chars ++ r' →
    e = e' ∧ r = r'

/-- The same for cores, after which an `IS NULL` may follow. -/
def Delimited (e : Expr) : Prop :=
  ∀ e' r r', e'.IsCore → e'.Settled → e'.Legible → EndsWord r → EndsWord r' →
    e.chars ++ r = e'.chars ++ r' → e = e' ∧ r = r'

section Cores
variable {e e' : Expr} {r r' : List Char}

theorem IsWord.append_ne_cons (h : e.IsWord) (hl : e.Legible) {c : Char} (hc : isMark c = true) :
    e.chars ++ r ≠ c :: r' := by
  intro heq
  obtain ⟨d, w, hd⟩ := List.exists_cons_of_ne_nil h.chars_ne_nil
  rw [hd, List.cons_append] at heq
  have hmark := h.isMark_of_mem hl d (by simp [hd])
  rw [(List.cons.inj heq).1, hc] at hmark
  cases hmark

theorem IsWord.append_inj (h : e.IsWord) (hl : e.Legible) {w : List Char}
    (hw : ∀ x ∈ w, isMark x = false) (hr : EndsWord r) (hr' : EndsWord r')
    (heq : e.chars ++ r = w ++ r') : e.chars = w ∧ r = r' := by
  have hends : ∀ {r : List Char}, EndsWord r → ∀ c ∈ r.head?, (!isMark c) = false := by
    intro r hr c hc
    rw [hr c hc]
    rfl
  refine append_inj_of_all (!isMark ·) ?_ ?_ (hends hr) (hends hr') heq
  · simpa using h.isMark_of_mem hl
  · simpa using hw

theorem delimited_word (h : e.IsWord) (hl : e.Legible) : e.Delimited := by
  intro e' r r' hcore _ hl' hr hr' heq
  cases hcore with
  | word h' =>
    obtain ⟨hchars, hrest⟩ := h.append_inj hl (h'.isMark_of_mem hl') hr hr' heq
    exact ⟨h.chars_inj h' hl hl' hchars, hrest⟩
  | text value =>
    rw [chars_text] at heq
    exact absurd heq (h.append_ne_cons hl (by decide))
  | binary op left right =>
    rw [chars_binary] at heq
    exact absurd heq (h.append_ne_cons hl (by decide))

theorem delimited_text {value : String} (hl : (literal (.text value)).Legible) :
    (literal (.text value)).Delimited := by
  intro e' r r' hcore _ hl' _ _ heq
  cases hcore with
  | word h' =>
    rw [chars_text] at heq
    exact absurd heq.symm (h'.append_ne_cons hl' (by decide))
  | text value' =>
    have hquote : ∀ {t : String}, (literal (.text t)).Legible →
        ∀ x ∈ t.toList, decide (x ≠ '\'') = true := by
      intro t ht x hx
      simp only [decide_eq_true_eq]
      rintro rfl
      exact ht hx
    rw [chars_text, chars_text, List.cons_append, List.cons_append, List.append_assoc,
      List.append_assoc] at heq
    obtain ⟨hvalue, hrest⟩ := append_inj_of_all (· ≠ '\'') (hquote hl) (hquote hl') (by simp)
      (by simp) (List.cons.inj heq).2
    obtain rfl := String.toList_inj.1 hvalue
    exact ⟨rfl, List.append_cancel_left hrest⟩
  | binary op left right =>
    rw [chars_text, chars_binary] at heq
    exact absurd (List.cons.inj heq).1 (by decide)

theorem delimited_binary {op : BinaryOp} {left right : Expr} (hleft : left.Readable)
    (hright : right.Readable) : (binary op left right).Delimited := by
  intro e' r r' hcore hs' hl' _ _ heq
  cases hcore with
  | word h' =>
    rw [chars_binary] at heq
    exact absurd heq.symm (h'.append_ne_cons hl' (by decide))
  | text value =>
    rw [chars_binary, chars_text] at heq
    exact absurd (List.cons.inj heq).1 (by decide)
  | binary op' left' right' =>
    rw [chars_binary, chars_binary] at heq
    simp only [List.cons_append, List.append_assoc, List.nil_append, List.cons.injEq, true_and]
      at heq
    obtain ⟨rfl, hop⟩ := hleft left' _ _ hs'.1 hl'.1 (follows_symbol ..) (follows_symbol ..) heq
    obtain ⟨rfl, hafter⟩ := symbol_inj (List.cons.inj hop).2
    obtain ⟨rfl, hrest⟩ := hright right' _ _ hs'.2 hl'.2 (.close _) (.close _) hafter
    exact ⟨rfl, (List.cons.inj hrest).2⟩

end Cores

/-- As many negations, printed. -/
def nots : Nat → List Char
  | 0 => []
  | p + 1 => 'N' :: 'O' :: 'T' :: ' ' :: nots p

/-- As many tests for null, printed. -/
def nulls : Nat → List Char
  | 0 => []
  | q + 1 => ' ' :: 'I' :: 'S' :: ' ' :: 'N' :: 'U' :: 'L' :: 'L' :: nulls q

section Spines
variable {e c c' : Expr} {r r' : List Char} {p p' q q' : Nat}

theorem chars_not (p : Nat) (e : Expr) : (Expr.not^[p] e).chars = nots p ++ e.chars := by
  induction p with
  | zero => rfl
  | succ p ih =>
    rw [Function.iterate_succ_apply', nots]
    simp only [List.cons_append, ← ih]
    simp [chars, render]

theorem chars_isNull (q : Nat) (e : Expr) : (Expr.isNull^[q] e).chars = e.chars ++ nulls q := by
  induction q generalizing e with
  | zero => simp [nulls]
  | succ q ih =>
    rw [Function.iterate_succ_apply, ih, nulls]
    simp [chars, render]

/-- Negations at the top, then tests for null, then a core. -/
theorem exists_spine (hs : e.Settled) (hl : e.Legible) :
    ∃ p q c, e = Expr.not^[p] (Expr.isNull^[q] c) ∧ c.IsCore ∧ c.Settled ∧ c.Legible := by
  induction e with
  | column c => exact ⟨0, 0, _, rfl, .word (.column c), hs, hl⟩
  | literal value =>
    refine ⟨0, 0, _, rfl, ?_, hs, hl⟩
    cases value with
    | bool b => exact .word (.bool b)
    | int i => exact .word (.int i)
    | text t => exact .text t
  | binary op left right => exact ⟨0, 0, _, rfl, .binary op left right, hs, hl⟩
  | not e ih =>
    obtain ⟨p, q, c, rfl, hc⟩ := ih hs hl
    exact ⟨p + 1, q, c, (Function.iterate_succ_apply' ..).symm, hc⟩
  | isNull e ih =>
    obtain ⟨p, q, c, rfl, hc⟩ := ih hs.1 hl
    cases p with
    | zero => exact ⟨0, q + 1, c, (Function.iterate_succ_apply' Expr.isNull q c).symm, hc⟩
    | succ p => exact absurd (Function.iterate_succ_apply' ..) (hs.2 _)

theorem IsCore.append_ne_not (h : c.IsCore) (hl : c.Legible) (hr : EndsWord r) (s : List Char) :
    c.chars ++ r ≠ 'N' :: 'O' :: 'T' :: ' ' :: s := by
  intro heq
  cases h with
  | word h =>
    have hends : EndsWord (' ' :: s) := by simp [EndsWord, isMark]
    exact h.chars_ne_not (h.append_inj hl (w := ['N', 'O', 'T']) (by simp [isMark]) hr hends heq).1
  | text value =>
    rw [chars_text] at heq
    exact absurd (List.cons.inj heq).1 (by decide)
  | binary op left right =>
    rw [chars_binary] at heq
    exact absurd (List.cons.inj heq).1 (by decide)

theorem nots_inj (hc : c.IsCore) (hc' : c'.IsCore) (hl : c.Legible) (hl' : c'.Legible)
    (hr : EndsWord r) (hr' : EndsWord r')
    (heq : nots p ++ (c.chars ++ r) = nots p' ++ (c'.chars ++ r')) :
    p = p' ∧ c.chars ++ r = c'.chars ++ r' := by
  induction p generalizing p' with
  | zero =>
    cases p' with
    | zero => exact ⟨rfl, heq⟩
    | succ p' => exact absurd heq (hc.append_ne_not hl hr _)
  | succ p ih =>
    cases p' with
    | zero => exact absurd heq.symm (hc'.append_ne_not hl' hr' _)
    | succ p' =>
      simp only [nots, List.cons_append, List.cons.injEq, true_and] at heq
      obtain ⟨rfl, hrest⟩ := ih heq
      exact ⟨rfl, hrest⟩

theorem nulls_inj (hr : Follows r) (hr' : Follows r') (heq : nulls q ++ r = nulls q' ++ r') :
    q = q' ∧ r = r' := by
  have hnull : ∀ {r s : List Char}, Follows r → r ≠ ' ' :: 'I' :: s := by
    rintro r s h rfl
    cases h with
    | operator _ hc => exact hc rfl
  induction q generalizing q' with
  | zero =>
    cases q' with
    | zero => exact ⟨rfl, heq⟩
    | succ q' => exact absurd heq (hnull hr)
  | succ q ih =>
    cases q' with
    | zero => exact absurd heq.symm (hnull hr')
    | succ q' =>
      simp only [nulls, List.cons_append, List.cons.injEq, true_and] at heq
      obtain ⟨rfl, hrest⟩ := ih heq
      exact ⟨rfl, hrest⟩

theorem endsWord_nulls (hr : Follows r) (q : Nat) : EndsWord (nulls q ++ r) := by
  cases q with
  | zero => cases hr <;> simp [nulls, EndsWord, isMark]
  | succ q => simp [nulls, EndsWord, isMark]

theorem readable_spine (hc : c.IsCore) (hl : c.Legible) (h : c.Delimited) (p q : Nat) :
    (Expr.not^[p] (Expr.isNull^[q] c)).Readable := by
  intro e' r r' hs' hl' hr hr' heq
  obtain ⟨p', q', c', rfl, hc', hcs', hcl'⟩ := exists_spine hs' hl'
  simp only [chars_not, chars_isNull, List.append_assoc] at heq
  have hends := endsWord_nulls hr q
  have hends' := endsWord_nulls hr' q'
  -- the negations are cut off first, then the core, and the tests for null are left
  obtain ⟨rfl, hcore⟩ := nots_inj hc hc' hl hcl' hends hends' heq
  obtain ⟨rfl, hnulls⟩ := h c' _ _ hc' hcs' hcl' hends hends' hcore
  obtain ⟨rfl, rfl⟩ := nulls_inj hr hr' hnulls
  exact ⟨rfl, rfl⟩

/-- The negations and tests for null around an expression are read together with it. -/
theorem readable (hs : e.Settled) (hl : e.Legible) (p q : Nat) (hq : q = 0 ∨ ∀ f, e ≠ not f) :
    (Expr.not^[p] (Expr.isNull^[q] e)).Readable := by
  -- going down from the root, what has been passed is collected in `p` and `q`
  induction e generalizing p q with
  | column c => exact readable_spine (.word (.column c)) hl (delimited_word (.column c) hl) p q
  | literal value =>
    cases value with
    | bool b => exact readable_spine (.word (.bool b)) hl (delimited_word (.bool b) hl) p q
    | int i => exact readable_spine (.word (.int i)) hl (delimited_word (.int i) hl) p q
    | text t => exact readable_spine (.text t) hl (delimited_text hl) p q
  | binary op left right ihl ihr =>
    have hleft : left.Readable := ihl hs.1 hl.1 0 0 (.inl rfl)
    have hright : right.Readable := ihr hs.2 hl.2 0 0 (.inl rfl)
    exact readable_spine (.binary op left right) hl (delimited_binary hleft hright) p q
  | not e ih =>
    rcases hq with rfl | hq
    · exact ih hs hl (p + 1) 0 (.inl rfl)
    · exact absurd rfl (hq e)
  | isNull e ih => exact ih hs.1 hl p (q + 1) (.inr hs.2)

end Spines

theorem eq_of_render {e e' : Expr} (hl : e.Legible) (hl' : e'.Legible) (hs : e.Settled)
    (hs' : e'.Settled) (h : e.render = e'.render) : e = e' := by
  have hread : e.Readable := readable hs hl 0 0 (.inl rfl)
  exact (hread e' [] [] hs' hl' .nil .nil (by rw [chars, h, chars])).1

/-- Legible expressions have the same text if and only if they are the same up to the order in which
a negation and a test for null are applied. If no test for null stands directly above a negation, the
text determines the expression. -/
theorem render_eq_iff {e e' : Expr} (hl : e.Legible) (hl' : e'.Legible) :
    (e.render = e'.render ↔ e.hoisted = e'.hoisted) ∧
      (e.Settled → e'.Settled → e.render = e'.render → e = e') := by
  have hiff : e.render = e'.render ↔ e.hoisted = e'.hoisted := by
    constructor
    · intro h
      refine eq_of_render (legible_hoisted hl) (legible_hoisted hl') (settled_hoisted e)
        (settled_hoisted e') ?_
      rw [render_hoisted, render_hoisted, h]
    · intro h
      rw [← render_hoisted e, h, render_hoisted]
  refine ⟨hiff, fun hs hs' h => ?_⟩
  rw [← hoisted_of_settled hs, ← hoisted_of_settled hs']
  exact hiff.1 h

/-- Around a sum, both orders have one text. Two equations that begin and end alike do not. -/
theorem render_eq_iff_sum :
    let x : Expr := .column ⟨"a", "x"⟩
    let sum : Expr := .binary .plus x (.literal (.int (-1)))
    let first : Expr := .not (.binary .eq (.isNull x) x)
    let second : Expr := .not (.binary .eq x (.isNull x))
    (isNull (.not sum)).render = (Expr.not (.isNull sum)).render ∧ first.render ≠ second.render := by
  intro x sum first second
  have hx : x.Legible := legible_column (by simp)
  have hsum : sum.Legible := ⟨hx, trivial⟩
  have hnull : (isNull (.not sum)).Legible := hsum
  have hnot : (Expr.not (.isNull sum)).Legible := hsum
  have hne : ∀ f, x ≠ .not f := by simp [x]
  have hl : first.Legible := ⟨hx, hx⟩
  have hl' : second.Legible := ⟨hx, hx⟩
  refine ⟨(render_eq_iff hnull hnot).1.2 rfl, fun h => ?_⟩
  have heq := (render_eq_iff hl hl').2 ⟨⟨trivial, hne⟩, trivial⟩ ⟨trivial, trivial, hne⟩ h
  simp [first, second, x] at heq

/-- The test for null of a negation and the negation of a test for null, on one column. -/
theorem render_nullOfNot :
    let e : Expr := .isNull (.not (.column ⟨"a", "x"⟩))
    let e' : Expr := .not (.isNull (.column ⟨"a", "x"⟩))
    e.Legible ∧ e'.Legible ∧ e.render = "NOT a.x IS NULL" ∧ e'.render = "NOT a.x IS NULL" ∧
      e ≠ e' := by
  intro e e'
  have hx : (Expr.column ⟨"a", "x"⟩).Legible := legible_column (by simp)
  exact ⟨hx, hx, by decide, by decide, by simp [e, e']⟩

end Expr

end JoinOrder
