import Mathlib.Tactic.Ring

/-!
# Expressions of the C Family

The expression grammar that C and its descendants share, as the standards write
it down: one level for each precedence, where an operator joins a left part of
its own level with a right part of the next one.

Uniqueness goes through `Reading`, which goes over the words once from left to
right and never has a choice. A parser is compared with it, since its rules are
a parser's own steps.

## Main definitions

* `CExpr`: expressions.
* `Phrase`: which words make which expression.
* `Reading`: the same, as a parser that climbs the precedences does it.

## Theorems

* `Reading.phrase`: what is read is a phrase.
* `Phrase.unique_before`: no words make two expressions.
-/

namespace Mellow.Lib

section Words

def isLetter (c : Char) : Bool :=
  ('a' ≤ c && c ≤ 'z') || ('A' ≤ c && c ≤ 'Z') || c == '_'

def isDigit (c : Char) : Bool := '0' ≤ c && c ≤ '9'

theorem isDigit_repr {n : Nat} {c : Char} (hc : c ∈ (toString n).toList) : isDigit c = true := by
  have hrepr : (toString n).toList = Nat.toDigits 10 n := Nat.toList_repr
  rw [hrepr] at hc
  exact Nat.isDigit_of_mem_toDigits (by decide) (by decide) hc

theorem repr_ne_nil (n : Nat) : (toString n).toList ≠ [] := by
  have hrepr : (toString n).toList = Nat.toDigits 10 n := Nat.toList_repr
  rw [hrepr]
  exact Nat.toDigits_ne_nil

theorem toString_inj {m n : Nat} (h : toString m = toString n) : m = n := by
  have hlist : Nat.toDigits 10 m = Nat.toDigits 10 n := by
    rw [← Nat.toList_repr, ← Nat.toList_repr]
    exact congrArg String.toList h
  rw [← Nat.ofDigitChars_toDigits (b := 10) (n := m) (by decide) (by decide), hlist,
    Nat.ofDigitChars_toDigits (by decide) (by decide)]

def isName (t : String) : Bool :=
  match t.toList with
  | [] => false
  | c :: cs => isLetter c && cs.all fun c => isLetter c || isDigit c

/-- A constant starts with a digit, or with a point and a digit. -/
def isNumber (t : String) : Bool :=
  match t.toList with
  | '.' :: c :: _ => isDigit c
  | c :: _ => isDigit c
  | [] => false

/-- The precedence of a binary operator, zero for any other word. -/
def prec (t : String) : Nat :=
  if t = "," then 1
  else if t = "|" then 2
  else if t = "^" then 3
  else if t = "&" then 4
  else if t = "<<" ∨ t = ">>" then 5
  else if t = "+" ∨ t = "-" then 6
  else if t = "*" ∨ t = "/" ∨ t = "%" then 7
  else 0

def isSign (t : String) : Bool := t = "+" || t = "-" || t = "~"

theorem prec_le (t : String) : prec t ≤ 7 := by
  unfold prec
  split_ifs <;> decide

def headPrec : List String → Nat
  | [] => 0
  | t :: _ => prec t

theorem headPrec_le (ts : List String) : headPrec ts ≤ 7 := by
  cases ts with
  | nil => exact Nat.zero_le 7
  | cons t ts => exact prec_le t

end Words

/-- Expressions, with their parentheses. The arguments of a call are one. -/
inductive CExpr where
  | num (text : String)
  | name (text : String)
  | paren (e : CExpr)
  | call (f : String) (args : CExpr)
  | index (e i : CExpr)
  | member (e : CExpr) (field : String)
  | unary (op : String) (e : CExpr)
  | binary (op : String) (l r : CExpr)
  deriving DecidableEq, Repr

/-- Levels 1 to 7 are the binary operators, 8 has the signs, and 9 is closed. -/
inductive Phrase : Nat → List String → CExpr → Prop where
  | num {t : String} (h : isNumber t = true) : Phrase 9 [t] (.num t)
  | name {t : String} (h : isName t = true) : Phrase 9 [t] (.name t)
  | paren {ts : List String} {e : CExpr} (h : Phrase 1 ts e) :
      Phrase 9 ("(" :: (ts ++ [")"])) (.paren e)
  | call {f : String} {ts : List String} {e : CExpr} (hf : isName f = true) (h : Phrase 1 ts e) :
      Phrase 9 (f :: "(" :: (ts ++ [")"])) (.call f e)
  | index {a b : List String} {e i : CExpr} (h : Phrase 9 a e) (hi : Phrase 1 b i) :
      Phrase 9 (a ++ "[" :: (b ++ ["]"])) (.index e i)
  | member {a : List String} {e : CExpr} {f : String} (h : Phrase 9 a e) (hf : isName f = true) :
      Phrase 9 (a ++ [".", f]) (.member e f)
  | unary {op : String} {a : List String} {e : CExpr} (hop : isSign op = true) (h : Phrase 8 a e) :
      Phrase 8 (op :: a) (.unary op e)
  | binary {op : String} {a b : List String} {l r : CExpr} (hop : 0 < prec op)
      (hl : Phrase (prec op) a l) (hr : Phrase (prec op + 1) b r) :
      Phrase (prec op) (a ++ op :: b) (.binary op l r)
  | up {p : Nat} {ts : List String} {e : CExpr} (hp : 0 < p) (hlt : p < 9)
      (h : Phrase (p + 1) ts e) : Phrase p ts e

theorem Phrase.lower {p q : Nat} {ts : List String} {e : CExpr} (h : Phrase q ts e)
    (hp : 0 < p) (hpq : p ≤ q) (hq : q ≤ 9) : Phrase p ts e := by
  induction hd : q - p generalizing p with
  | zero =>
    have heq : p = q := by omega
    rw [heq]
    exact h
  | succ d ih => exact .up hp (by omega) (ih (by omega) (by omega) (by omega))

/-- A whole expression of a level, or the rest of one. -/
inductive Goal where
  | primary
  | suffixed
  | suffix (e : CExpr)
  | signed
  | expr (p : Nat)
  | loop (p : Nat) (e : CExpr)

/-- Going over the words once: what is read, and what is left. -/
inductive Reading : Goal → List String → CExpr → List String → Prop where
  | num {t : String} {ts : List String} (h : isNumber t = true) :
      Reading .primary (t :: ts) (.num t) ts
  | name {t : String} {ts : List String} (h : isName t = true) (hcall : ts.head? ≠ some "(") :
      Reading .primary (t :: ts) (.name t) ts
  | call {t : String} {ts rest : List String} {e : CExpr} (h : isName t = true)
      (hargs : Reading (.expr 1) ts e (")" :: rest)) :
      Reading .primary (t :: "(" :: ts) (.call t e) rest
  | paren {ts rest : List String} {e : CExpr} (h : Reading (.expr 1) ts e (")" :: rest)) :
      Reading .primary ("(" :: ts) (.paren e) rest
  | suffixed {ts ts' rest : List String} {e e' : CExpr} (h : Reading .primary ts e ts')
      (h' : Reading (.suffix e) ts' e' rest) : Reading .suffixed ts e' rest
  | bare {ts : List String} {e : CExpr} (hindex : ts.head? ≠ some "[")
      (hmember : ts.head? ≠ some ".") : Reading (.suffix e) ts e ts
  | index {t : String} {ts ts' rest : List String} {e e' i : CExpr} (ht : t = "[")
      (h : Reading (.expr 1) ts i ("]" :: ts'))
      (h' : Reading (.suffix (.index e i)) ts' e' rest) : Reading (.suffix e) (t :: ts) e' rest
  | member {t f : String} {ts rest : List String} {e e' : CExpr} (ht : t = ".")
      (hf : isName f = true) (h : Reading (.suffix (.member e f)) ts e' rest) :
      Reading (.suffix e) (t :: f :: ts) e' rest
  | sign {op : String} {ts rest : List String} {e : CExpr} (hop : isSign op = true)
      (h : Reading .signed ts e rest) : Reading .signed (op :: ts) (.unary op e) rest
  | unsigned {ts rest : List String} {e : CExpr} (hop : ∀ t ∈ ts.head?, isSign t = false)
      (h : Reading .suffixed ts e rest) : Reading .signed ts e rest
  | expr {p : Nat} {ts ts' rest : List String} {e e' : CExpr} (h : Reading .signed ts e ts')
      (h' : Reading (.loop p e) ts' e' rest) : Reading (.expr p) ts e' rest
  | done {p : Nat} {ts : List String} {e : CExpr} (h : headPrec ts < p) :
      Reading (.loop p e) ts e ts
  | step {p : Nat} {op : String} {ts ts' rest : List String} {e e' r : CExpr}
      (hop : 0 < prec op) (hp : p ≤ prec op) (hr : Reading (.expr (prec op + 1)) ts r ts')
      (h : Reading (.loop p (.binary op e r)) ts' e' rest) : Reading (.loop p e) (op :: ts) e' rest

section Soundness

/-- The words that were read make a phrase, with what was known before it. -/
def Reads : Goal → List String → CExpr → List String → Prop
  | .primary, pre, e, _ => Phrase 9 pre e
  | .suffixed, pre, e, _ => Phrase 9 pre e
  | .suffix e₀, pre, e, _ => ∀ pre₀, Phrase 9 pre₀ e₀ → Phrase 9 (pre₀ ++ pre) e
  | .signed, pre, e, _ => Phrase 8 pre e
  | .expr p, pre, e, rest => 0 < p → p ≤ 8 → Phrase p pre e ∧ headPrec rest < p
  | .loop p e₀, pre, e, rest => ∀ pre₀ q, 0 < p → p ≤ q → q ≤ 8 → headPrec (pre ++ rest) ≤ q →
      Phrase q pre₀ e₀ → Phrase p (pre₀ ++ pre) e ∧ headPrec rest < p

theorem Reading.reads {g : Goal} {ts rest : List String} {e : CExpr} (h : Reading g ts e rest) :
    ∃ pre, ts = pre ++ rest ∧ Reads g pre e rest := by
  induction h with
  | @num t ts hnum => exact ⟨[t], rfl, .num hnum⟩
  | @name t ts hname _ => exact ⟨[t], rfl, .name hname⟩
  | @call t ts rest e hname _ ih =>
    rcases ih with ⟨pre, rfl, hpre⟩
    refine ⟨t :: "(" :: (pre ++ [")"]), ?_, .call hname (hpre (by decide) (by decide)).1⟩
    simp only [List.cons_append, List.append_assoc, List.nil_append]
  | @paren ts rest e _ ih =>
    rcases ih with ⟨pre, rfl, hpre⟩
    refine ⟨"(" :: (pre ++ [")"]), ?_, .paren (hpre (by decide) (by decide)).1⟩
    simp only [List.cons_append, List.append_assoc, List.nil_append]
  | suffixed _ _ ih ih' =>
    rcases ih with ⟨pre, rfl, hpre⟩
    rcases ih' with ⟨pre', rfl, hpre'⟩
    exact ⟨pre ++ pre', (List.append_assoc ..).symm, hpre' pre hpre⟩
  | bare _ _ => exact ⟨[], rfl, fun pre₀ h => by rw [List.append_nil]; exact h⟩
  | index ht _ _ ih ih' =>
    subst ht
    rcases ih with ⟨pre, rfl, hpre⟩
    rcases ih' with ⟨pre', rfl, hpre'⟩
    refine ⟨"[" :: (pre ++ "]" :: pre'), ?_, fun pre₀ h => ?_⟩
    · simp only [List.cons_append, List.append_assoc]
    · have := hpre' _ (.index h (hpre (by decide) (by decide)).1)
      simpa only [List.append_assoc, List.cons_append, List.nil_append] using this
  | @member t f ts rest e e' ht hf _ ih =>
    subst ht
    rcases ih with ⟨pre, rfl, hpre⟩
    refine ⟨"." :: f :: pre, rfl, fun pre₀ h => ?_⟩
    have := hpre _ (.member h hf)
    simpa only [List.append_assoc, List.cons_append, List.nil_append] using this
  | @sign op ts rest e hop _ ih =>
    rcases ih with ⟨pre, rfl, hpre⟩
    exact ⟨op :: pre, rfl, .unary hop hpre⟩
  | unsigned _ _ ih =>
    rcases ih with ⟨pre, rfl, hpre⟩
    exact ⟨pre, rfl, .up (by decide) (by decide) hpre⟩
  | expr _ _ ih ih' =>
    rcases ih with ⟨pre, rfl, hpre⟩
    rcases ih' with ⟨pre', rfl, hpre'⟩
    refine ⟨pre ++ pre', (List.append_assoc ..).symm, fun hp hle => ?_⟩
    exact hpre' pre 8 hp hle (Nat.le_refl 8) (Nat.le_succ_of_le (headPrec_le _)) hpre
  | done h =>
    refine ⟨[], rfl, fun pre₀ q hp hpq hq _ hpre => ?_⟩
    rw [List.append_nil]
    exact ⟨hpre.lower hp hpq (by omega), h⟩
  | @step p op ts ts' rest e e' r hop hp _ _ ih ih' =>
    rcases ih with ⟨pre, rfl, hpre⟩
    rcases ih' with ⟨pre', rfl, hpre'⟩
    refine ⟨op :: (pre ++ pre'), ?_, fun pre₀ q hp' hpq hq hhead h₀ => ?_⟩
    · simp only [List.cons_append, List.append_assoc]
    · -- The left part is of the operator's level at least, and what follows
      -- the right part binds no tighter than the operator.
      have hle := prec_le op
      rcases hpre (Nat.succ_pos _) (by omega) with ⟨hright, hnext⟩
      have hjoin := Phrase.binary hop (h₀.lower hop hhead (by omega)) hright
      have := hpre' _ (prec op) hp' hp (by omega) (Nat.le_of_lt_succ hnext) hjoin
      simpa only [List.append_assoc, List.cons_append] using this

theorem Reading.phrase {p : Nat} {ts rest : List String} {e : CExpr}
    (h : Reading (.expr p) ts e rest) (hp : 0 < p) (hle : p ≤ 8) :
    ∃ pre, ts = pre ++ rest ∧ Phrase p pre e := by
  rcases h.reads with ⟨pre, heq, hpre⟩
  exact ⟨pre, heq, (hpre hp hle).1⟩

end Soundness

section Determinism

theorem isDigit_iff (c : Char) : isDigit c = true ↔ 48 ≤ c.toNat ∧ c.toNat ≤ 57 := by
  unfold isDigit
  rw [Bool.and_eq_true, decide_eq_true_iff, decide_eq_true_iff]
  exact Iff.rfl

theorem isLetter_iff (c : Char) : isLetter c = true ↔
    (97 ≤ c.toNat ∧ c.toNat ≤ 122) ∨ (65 ≤ c.toNat ∧ c.toNat ≤ 90) ∨ c.toNat = 95 := by
  unfold isLetter
  rw [Bool.or_eq_true, Bool.or_eq_true, Bool.and_eq_true, Bool.and_eq_true, beq_iff_eq,
    decide_eq_true_iff, decide_eq_true_iff, decide_eq_true_iff, decide_eq_true_iff, or_assoc,
    ← Char.toNat_inj]
  exact Iff.rfl

theorem isLetter_not_digit {c : Char} (h : isLetter c = true) : isDigit c = false := by
  rw [isLetter_iff] at h
  refine Bool.eq_false_iff.mpr fun hdigit => ?_
  rw [isDigit_iff] at hdigit
  omega

theorem isName_not_number {t : String} (h : isName t = true) : isNumber t = false := by
  unfold isName at h
  unfold isNumber
  cases hcs : t.toList with
  | nil => rfl
  | cons c cs =>
    rw [hcs] at h
    have hletter := (Bool.and_eq_true _ _ ▸ h : _ ∧ _).1
    -- A name does not start with a point.
    have hpoint : c ≠ '.' := by
      rintro rfl
      exact absurd hletter (by decide)
    split
    · rename_i heq
      exact absurd (List.cons_eq_cons.mp heq).1 hpoint
    · rename_i heq
      rw [← (List.cons_eq_cons.mp heq).1]
      exact isLetter_not_digit hletter
    · rfl

theorem Reading.unique {g : Goal} {ts rest : List String} {e : CExpr} (h : Reading g ts e rest) :
    ∀ {e' : CExpr} {rest' : List String}, Reading g ts e' rest' → e = e' ∧ rest = rest' := by
  induction h with
  | num hnum =>
    intro e' rest' h'
    cases h' with
    | num => exact ⟨rfl, rfl⟩
    | name hname =>
      rw [isName_not_number hname] at hnum
      cases hnum
    | call hname =>
      rw [isName_not_number hname] at hnum
      cases hnum
    | paren => exact absurd hnum (by decide)
  | name hname hcall =>
    intro e' rest' h'
    cases h' with
    | num hnum =>
      rw [isName_not_number hname] at hnum
      cases hnum
    | name => exact ⟨rfl, rfl⟩
    | call => exact absurd rfl hcall
    | paren => exact absurd hname (by decide)
  | call hname _ ih =>
    intro e' rest' h'
    cases h' with
    | num hnum =>
      rw [isName_not_number hname] at hnum
      cases hnum
    | name _ hcall => exact absurd rfl hcall
    | call _ hargs =>
      rcases ih hargs with ⟨rfl, heq⟩
      exact ⟨rfl, List.tail_eq_of_cons_eq heq⟩
    | paren => exact absurd hname (by decide)
  | paren _ ih =>
    intro e' rest' h'
    cases h' with
    | num hnum => exact absurd hnum (by decide)
    | name hname => exact absurd hname (by decide)
    | call hname => exact absurd hname (by decide)
    | paren hinner =>
      rcases ih hinner with ⟨rfl, heq⟩
      exact ⟨rfl, List.tail_eq_of_cons_eq heq⟩
  | suffixed _ _ ih ih' =>
    intro e' rest' h'
    cases h' with
    | suffixed hprimary hsuffix =>
      rcases ih hprimary with ⟨rfl, rfl⟩
      exact ih' hsuffix
  | bare hindex hmember =>
    intro e' rest' h'
    cases h' with
    | bare => exact ⟨rfl, rfl⟩
    | index ht => exact absurd (congrArg some ht) hindex
    | member ht => exact absurd (congrArg some ht) hmember
  | index ht _ _ ih ih' =>
    intro e' rest' h'
    cases h' with
    | bare hindex => exact absurd (congrArg some ht) hindex
    | index _ hinner hsuffix =>
      rcases ih hinner with ⟨rfl, heq⟩
      cases heq
      exact ih' hsuffix
    | member ht' => exact absurd (ht.symm.trans ht') (by decide)
  | member ht hf _ ih =>
    intro e' rest' h'
    cases h' with
    | bare _ hmember => exact absurd (congrArg some ht) hmember
    | index ht' => exact absurd (ht.symm.trans ht') (by decide)
    | member _ _ hsuffix => exact ih hsuffix
  | sign hop _ ih =>
    intro e' rest' h'
    cases h' with
    | sign _ hrest =>
      rcases ih hrest with ⟨rfl, rfl⟩
      exact ⟨rfl, rfl⟩
    | unsigned hno =>
      rw [hno _ rfl] at hop
      cases hop
  | unsigned hno _ ih =>
    intro e' rest' h'
    cases h' with
    | sign hop =>
      rw [hno _ rfl] at hop
      cases hop
    | unsigned _ hrest => exact ih hrest
  | expr _ _ ih ih' =>
    intro e' rest' h'
    cases h' with
    | expr hsigned hloop =>
      rcases ih hsigned with ⟨rfl, rfl⟩
      exact ih' hloop
  | done hlow =>
    intro e' rest' h'
    cases h' with
    | done => exact ⟨rfl, rfl⟩
    | step hop hp =>
      exact absurd hlow (Nat.not_lt.mpr hp)
  | step hop hp _ _ ih ih' =>
    intro e' rest' h'
    cases h' with
    | done hlow => exact absurd hlow (Nat.not_lt.mpr hp)
    | step _ _ hright hloop =>
      rcases ih hright with ⟨rfl, rfl⟩
      exact ih' hloop

end Determinism

section Completeness

variable {pre rest ts : List String} {p : Nat} {e e' : CExpr}

/-- What may follow a phrase of a level: nothing that would go on with it. -/
structure Follow (p : Nat) (ts : List String) : Prop where
  low : headPrec ts ≤ p
  call : ts.head? ≠ some "("
  index : ts.head? ≠ some "["
  member : ts.head? ≠ some "."

theorem follow_op {op : String} (hop : 0 < prec op) :
    Follow (prec op) (op :: ts) where
  low := Nat.le_refl _
  call := by
    intro h
    rw [Option.some.inj h] at hop
    exact absurd hop (by decide)
  index := by
    intro h
    rw [Option.some.inj h] at hop
    exact absurd hop (by decide)
  member := by
    intro h
    rw [Option.some.inj h] at hop
    exact absurd hop (by decide)

theorem follow_end {t : String} (hprec : prec t = 0)
    (hcall : t ≠ "(") (hindex : t ≠ "[") (hmember : t ≠ ".") : Follow p (t :: ts) where
  low := by
    change prec t ≤ p
    omega
  call := fun h => hcall (Option.some.inj h)
  index := fun h => hindex (Option.some.inj h)
  member := fun h => hmember (Option.some.inj h)

theorem isName_not_sign {t : String} (h : isName t = true) : isSign t = false := by
  refine Bool.eq_false_iff.mpr fun hsign => ?_
  simp only [isSign, Bool.or_eq_true, decide_eq_true_eq] at hsign
  rcases hsign with (rfl | rfl) | rfl <;> exact absurd h (by decide)

theorem isNumber_not_sign {t : String} (h : isNumber t = true) : isSign t = false := by
  refine Bool.eq_false_iff.mpr fun hsign => ?_
  simp only [isSign, Bool.or_eq_true, decide_eq_true_eq] at hsign
  rcases hsign with (rfl | rfl) | rfl <;> exact absurd h (by decide)

theorem Phrase.head_not_sign (h : Phrase p pre e)
    (hp : p = 9) : ∃ t ts, pre = t :: ts ∧ isSign t = false := by
  induction h with
  | num hnum => exact ⟨_, [], rfl, isNumber_not_sign hnum⟩
  | name hname => exact ⟨_, [], rfl, isName_not_sign hname⟩
  | paren => exact ⟨_, _, rfl, by decide⟩
  | call hname => exact ⟨_, _, rfl, isName_not_sign hname⟩
  | index _ _ ih =>
    rcases ih rfl with ⟨t, ts, rfl, ht⟩
    exact ⟨t, _, rfl, ht⟩
  | member _ _ ih =>
    rcases ih rfl with ⟨t, ts, rfl, ht⟩
    exact ⟨t, _, rfl, ht⟩
  | unary => cases hp
  | @binary op a b l r _ _ _ =>
    have := prec_le op
    omega
  | up _ hlt _ => omega

/-- A loop at a level and one below it are one loop below it. -/
theorem Reading.merge {g : Goal} {mid : List String} {e₀ : CExpr}
    (h : Reading g ts e mid) (hg : g = .loop (p + 1) e₀) (h' : Reading (.loop p e) mid e' rest) :
    Reading (.loop p e₀) ts e' rest := by
  induction h generalizing e₀ with
  | done =>
    cases hg
    exact h'
  | step hop hp hr _ _ ih =>
    cases hg
    exact .step hop (by omega) hr (ih rfl h')
  | _ => cases hg

theorem Reading.lower {mid : List String}
    (h : Reading (.expr (p + 1)) ts e mid) (h' : Reading (.loop p e) mid e' rest) :
    Reading (.expr p) ts e' rest := by
  cases h with
  | expr hsigned hloop => exact .expr hsigned (hloop.merge rfl h')

/-- No operator binds as tight as a sign. -/
theorem Reading.of_eight (h : Reading (.expr 8) ts e rest) :
    Reading .signed ts e rest := by
  cases h with
  | expr hsigned hloop =>
    cases hloop with
    | done => exact hsigned
    | @step _ op _ _ _ _ _ _ _ hp =>
      have := prec_le op
      omega

/-- Every phrase is read, with whatever the words after it lead to. -/
theorem Phrase.reading_on (h : Phrase p pre e) :
    (p = 9 → ∀ ts e' rest, ts.head? ≠ some "(" → Reading (.suffix e) ts e' rest →
      Reading .suffixed (pre ++ ts) e' rest) ∧
    (p ≤ 8 → ∀ ts e' rest, Follow p ts → Reading (.loop p e) ts e' rest →
      Reading (.expr p) (pre ++ ts) e' rest) := by
  -- Inside brackets the expression is read up to the closing one.
  have hclose : ∀ {ts more : List String} {e : CExpr} {t : String}, prec t = 0 → t ≠ "(" →
      t ≠ "[" → t ≠ "." →
      ((1 : Nat) ≤ 8 → ∀ ts' e' rest, Follow 1 ts' → Reading (.loop 1 e) ts' e' rest →
        Reading (.expr 1) (ts ++ ts') e' rest) →
      Reading (.expr 1) (ts ++ t :: more) e (t :: more) := by
    intro ts more e t hprec hcall hindex hmember hread
    refine hread (by decide) _ _ _ (follow_end hprec hcall hindex hmember) (.done ?_)
    change prec t < 1
    omega
  induction h with
  | num hnum => exact ⟨fun _ ts e' rest _ hs => .suffixed (.num hnum) hs, fun hle => by omega⟩
  | name hname =>
    exact ⟨fun _ ts e' rest hcall hs => .suffixed (.name hname hcall) hs, fun hle => by omega⟩
  | paren _ ih =>
    refine ⟨fun _ ts e' rest _ hs => ?_, fun hle => by omega⟩
    rw [List.cons_append, List.append_assoc]
    refine .suffixed (.paren ?_) hs
    exact hclose (by decide) (by decide) (by decide) (by decide) ih.2
  | call hname _ ih =>
    refine ⟨fun _ ts e' rest _ hs => ?_, fun hle => by omega⟩
    rw [List.cons_append, List.cons_append, List.append_assoc]
    refine .suffixed (.call hname ?_) hs
    exact hclose (by decide) (by decide) (by decide) (by decide) ih.2
  | index _ _ ih ihi =>
    refine ⟨fun _ ts e' rest _ hs => ?_, fun hle => by omega⟩
    rw [List.append_assoc, List.cons_append, List.append_assoc]
    refine ih.1 rfl _ _ _ (by decide : some "[" ≠ some "(") (.index rfl ?_ hs)
    exact hclose (by decide) (by decide) (by decide) (by decide) ihi.2
  | member _ hf ih =>
    refine ⟨fun _ ts e' rest _ hs => ?_, fun hle => by omega⟩
    rw [List.append_assoc]
    exact ih.1 rfl _ _ _ (by decide : some "." ≠ some "(") (.member rfl hf hs)
  | unary hop _ ih =>
    refine ⟨nofun, fun _ ts e' rest hfollow hloop => .expr (.sign hop ?_) hloop⟩
    refine (ih.2 (Nat.le_refl 8) _ _ _ hfollow (.done ?_)).of_eight
    exact Nat.lt_succ_of_le (headPrec_le ts)
  | @binary op a b l r hop _ _ ihl ihr =>
    have hle := prec_le op
    refine ⟨fun h => by omega, fun _ ts e' rest hfollow hloop => ?_⟩
    rw [List.append_assoc, List.cons_append]
    have hlow : headPrec ts < prec op + 1 := Nat.lt_succ_of_le hfollow.low
    refine ihl.2 (by omega) _ _ _ (follow_op hop) (.step hop (Nat.le_refl _) ?_ hloop)
    exact ihr.2 (by omega) _ _ _
      ⟨by omega, hfollow.call, hfollow.index, hfollow.member⟩ (.done hlow)
  | @up p ts e _ hlt hphrase ih =>
    refine ⟨fun h => by omega, fun hle ts e' rest hfollow hloop => ?_⟩
    by_cases htop : p = 8
    · subst htop
      refine .expr (.unsigned (fun t ht => ?_) (ih.1 rfl _ _ _ hfollow.call
        (.bare hfollow.index hfollow.member))) hloop
      rcases hphrase.head_not_sign rfl with ⟨t', ts', rfl, hsign⟩
      rw [← Option.some.inj ht]
      exact hsign
    · have hlow : headPrec ts < p + 1 := Nat.lt_succ_of_le hfollow.low
      exact (ih.2 (by omega) _ _ _
        ⟨by omega, hfollow.call, hfollow.index, hfollow.member⟩ (.done hlow)).lower hloop

theorem Phrase.reading (h : Phrase p pre e)
    (hp : p ≤ 8) (hfollow : Follow p ts) (hlow : headPrec ts < p) :
    Reading (.expr p) (pre ++ ts) e ts :=
  h.reading_on.2 hp _ _ _ hfollow (.done hlow)

/-- A text is a phrase for one expression only, also where more follows. -/
theorem Phrase.unique_before {pre' ts' : List String}
    (h : Phrase p pre e) (h' : Phrase p pre' e') (hp : p ≤ 8) (hts : Follow p ts)
    (hlow : headPrec ts < p) (hts' : Follow p ts') (hlow' : headPrec ts' < p)
    (heq : pre ++ ts = pre' ++ ts') : e = e' ∧ ts = ts' := by
  have hread := h.reading hp hts hlow
  rw [heq] at hread
  exact hread.unique (h'.reading hp hts' hlow')

end Completeness

end Mellow.Lib
