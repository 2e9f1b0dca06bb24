import Mellow.Lib.CGrammar

/-!
# Straight-Line Kernels

A kernel of a C-like language for GPUs without branches and calls: it declares
and assigns variables of type `uint`, and reads and writes one array. Arithmetic
is that of the C standard for 32-bit `int` and `uint`: a `uint` operand makes
the other one a `uint`, and then everything wraps; an `int` result that does not
fit, a division by zero and a shift by the width are faults.

## Main definitions

* `eval`: the value of an expression.
* `exec`: running a statement.
* `Kernel.run`: running a kernel for one work item.
* `StmtPhrase`: which words make which statement.
* `BodyPhrase`: which words make which statements in a row.

## Theorems

* `BodyPhrase.unique_before`: no words make two bodies.
-/

namespace Mellow.Lib

inductive Fault where
  /-- An access outside of the array. -/
  | outside
  /-- An `int` that does not fit. -/
  | overflow
  /-- A division by zero. -/
  | divisor
  /-- A shift by a negative count, or by the width or more. -/
  | shift
  /-- A text that is not a kernel at all. -/
  | malformed
  deriving DecidableEq, Repr

inductive Val where
  | int (i : Int)
  | uint (u : BitVec 32)
  deriving DecidableEq, Repr

section Values

def Val.toUint : Val → BitVec 32
  | .int i => BitVec.ofInt 32 i
  | .uint u => u

def Val.toInt : Val → Int
  | .int i => i
  | .uint u => u.toNat

def checked (i : Int) : Except Fault Val :=
  if -2147483648 ≤ i ∧ i ≤ 2147483647 then .ok (.int i) else .error .overflow

def digitValue (c : Char) : Nat :=
  if isDigit c then c.toNat - '0'.toNat
  else if 'a' ≤ c ∧ c ≤ 'f' then c.toNat - 'a'.toNat + 10
  else if 'A' ≤ c ∧ c ≤ 'F' then c.toNat - 'A'.toNat + 10
  else 16

def numeral (base : Nat) : List Char → Nat → Option Nat
  | [], n => some n
  | c :: cs, n => if digitValue c < base then numeral base cs (n * base + digitValue c) else none

def radix : List Char → Nat × List Char
  | '0' :: 'x' :: cs => (16, cs)
  | '0' :: 'X' :: cs => (16, cs)
  | '0' :: c :: cs => (8, c :: cs)
  | cs => (10, cs)

/-- The value of a constant without its suffix. -/
def literalOf (unsigned : Bool) (body : List Char) : Except Fault Val :=
  match numeral (radix body).1 (radix body).2 0 with
  | none => .error .malformed
  | some n =>
    if (radix body).2 = [] then .error .malformed
    else if unsigned then if n < 2 ^ 32 then .ok (.uint (.ofNat 32 n)) else .error .malformed
    else if n < 2 ^ 31 then .ok (.int n)
    else if (radix body).1 ≠ 10 ∧ n < 2 ^ 32 then .ok (.uint (.ofNat 32 n))
    else .error .malformed

def literal (t : String) : Except Fault Val :=
  if t.toList.getLast? = some 'u' ∨ t.toList.getLast? = some 'U' then
    literalOf true t.toList.dropLast
  else literalOf false t.toList

def unop (op : String) : Val → Except Fault Val
  | .int i =>
    if op = "+" then .ok (.int i)
    else if op = "-" then checked (-i)
    else if op = "~" then .ok (.int (-i - 1))
    else .error .malformed
  | .uint u =>
    if op = "+" then .ok (.uint u)
    else if op = "-" then .ok (.uint (-u))
    else if op = "~" then .ok (.uint (~~~u))
    else .error .malformed

def onBits (f : BitVec 32 → BitVec 32 → BitVec 32) (a b : Int) : Except Fault Val :=
  .ok (.int (f (.ofInt 32 a) (.ofInt 32 b)).toInt)

def intOp (op : String) (a b : Int) : Except Fault Val :=
  if op = "+" then checked (a + b)
  else if op = "-" then checked (a - b)
  else if op = "*" then checked (a * b)
  else if op = "/" then if b = 0 then .error .divisor else checked (a.tdiv b)
  else if op = "%" then if b = 0 then .error .divisor else do
    -- The quotient has to fit as well.
    let _ ← checked (a.tdiv b)
    checked (a.tmod b)
  else if op = "&" then onBits (· &&& ·) a b
  else if op = "|" then onBits (· ||| ·) a b
  else if op = "^" then onBits (· ^^^ ·) a b
  else .error .malformed

def uintOp (op : String) (a b : BitVec 32) : Except Fault Val :=
  if op = "+" then .ok (.uint (a + b))
  else if op = "-" then .ok (.uint (a - b))
  else if op = "*" then .ok (.uint (a * b))
  else if op = "/" then if b = 0 then .error .divisor else .ok (.uint (a / b))
  else if op = "%" then if b = 0 then .error .divisor else .ok (.uint (a % b))
  else if op = "&" then .ok (.uint (a &&& b))
  else if op = "|" then .ok (.uint (a ||| b))
  else if op = "^" then .ok (.uint (a ^^^ b))
  else .error .malformed

def shiftLeft (n : Nat) : Val → Except Fault Val
  | .int i => if i < 0 then .error .overflow else checked (i * 2 ^ n)
  | .uint u => .ok (.uint (u <<< n))

def shiftRight (n : Nat) : Val → Except Fault Val
  | .int i => .ok (.int (i / 2 ^ n))
  | .uint u => .ok (.uint (u >>> n))

def arith (op : String) : Val → Val → Except Fault Val
  | .int i, .int j => intOp op i j
  | .int i, .uint v => uintOp op (.ofInt 32 i) v
  | .uint u, b => uintOp op u b.toUint

def binop (op : String) (a b : Val) : Except Fault Val :=
  if op = "<<" then
    if b.toInt < 0 ∨ 32 ≤ b.toInt then .error .shift else shiftLeft b.toInt.toNat a
  else if op = ">>" then
    if b.toInt < 0 ∨ 32 ≤ b.toInt then .error .shift else shiftRight b.toInt.toNat a
  else arith op a b

end Values

section Decimal

variable {n : Nat}

theorem numeral_digits {cs : List Char} (hcs : ∀ c ∈ cs, isDigit c = true) :
    numeral 10 cs n = some (Nat.ofDigitChars 10 cs n) := by
  induction cs generalizing n with
  | nil => rfl
  | cons c cs ih =>
    have hc := hcs c List.mem_cons_self
    have hd : digitValue c = c.toNat - '0'.toNat := if_pos hc
    have hlt : digitValue c < 10 := by
      rw [hd]
      have : c.toNat ≤ '9'.toNat := of_decide_eq_true (Bool.and_eq_true_iff.mp hc).2
      have h9 : '9'.toNat = 57 := rfl
      have h0 : '0'.toNat = 48 := rfl
      omega
    rw [numeral, if_pos hlt, ih fun c' hc' => hcs c' (List.mem_cons_of_mem c hc'),
      Nat.ofDigitChars_cons, hd, Nat.mul_comm]

theorem repr_head (h : (Nat.toDigits 10 n).head? = some '0') : n = 0 := by
  induction n using Nat.strongRecOn with
  | ind n ih =>
    by_cases hlt : n < 10
    · rw [Nat.toDigits_of_lt_base hlt] at h
      have hall : ∀ m < 10, Nat.digitChar m = '0' → m = 0 := by decide
      exact hall n hlt (Option.some.inj h)
    · have hpos : 0 < n / 10 := Nat.div_pos (Nat.le_of_not_lt hlt) (by decide)
      have hsplit := Nat.toDigits_append_toDigits (b := 10) (by decide) hpos
        (Nat.mod_lt n (by decide))
      rw [Nat.div_add_mod] at hsplit
      have hhead : (Nat.toDigits 10 (n / 10)).head? = some '0' := by
        rw [← hsplit, List.head?_append] at h
        cases hd : Nat.toDigits 10 (n / 10) with
        | nil => exact absurd hd Nat.toDigits_ne_nil
        | cons c cs =>
          rw [hd] at h
          exact h
      have := ih (n / 10) (Nat.div_lt_self (by omega) (by decide)) hhead
      omega

theorem radix_repr (n : Nat) : radix (toString n).toList = (10, (toString n).toList) := by
  have hrepr : (toString n).toList = Nat.toDigits 10 n := Nat.toList_repr
  -- Nothing follows a zero that stands in front.
  have hzero : ∀ c cs, (toString n).toList ≠ '0' :: c :: cs := by
    intro c cs h
    have hn : n = 0 := repr_head (by rw [← hrepr, h]; rfl)
    have hone : (toString 0).toList = ['0'] := by decide
    rw [hn, hone] at h
    cases h
  unfold radix
  split
  · next h => exact absurd h (hzero _ _)
  · next h => exact absurd h (hzero _ _)
  · next h => exact absurd h (hzero _ _)
  · rfl

theorem literalOf_repr (unsigned : Bool) (n : Nat) :
    literalOf unsigned (toString n).toList =
      if unsigned then if n < 2 ^ 32 then .ok (.uint (.ofNat 32 n)) else .error .malformed
      else if n < 2 ^ 31 then .ok (.int n)
      else .error .malformed := by
  have hrepr : (toString n).toList = Nat.toDigits 10 n := Nat.toList_repr
  have hnumeral : numeral 10 (toString n).toList 0 = some n := by
    rw [numeral_digits fun c hc => isDigit_repr hc, hrepr,
      Nat.ofDigitChars_toDigits (by decide) (by decide)]
  rw [literalOf, radix_repr]
  dsimp only
  rw [hnumeral]
  dsimp only
  rw [if_neg (repr_ne_nil n), if_neg (fun h => h.1 rfl : ¬((10 : Nat) ≠ 10 ∧ n < 2 ^ 32))]

theorem literal_repr (hn : n < 2 ^ 31) : literal (toString n) = .ok (.int n) := by
  have hlast : ∀ c, isDigit c = false → (toString n).toList.getLast? ≠ some c := by
    intro c hc h
    rw [isDigit_repr (List.mem_of_getLast? h)] at hc
    cases hc
  have hnone := not_or.mpr ⟨hlast 'u' (by decide), hlast 'U' (by decide)⟩
  rw [literal, if_neg hnone, literalOf_repr, if_neg Bool.false_ne_true, if_pos hn]

theorem literal_repr_u (hn : n < 2 ^ 32) :
    literal (toString n ++ "u") = .ok (.uint (.ofNat 32 n)) := by
  have hlist : (toString n ++ "u").toList = (toString n).toList ++ ['u'] := String.toList_append
  rw [literal, hlist, if_pos (.inl List.getLast?_concat), List.dropLast_concat, literalOf_repr,
    if_pos rfl, if_pos hn]

end Decimal

section Meaning

structure Var where
  name : String
  const : Bool
  value : BitVec 32
  deriving DecidableEq, Repr

def lookup (vars : List Var) (x : String) : Option Var := vars.find? (fun v => v.name = x)

def load (buf : List (BitVec 32)) (k : Val) : Except Fault Val :=
  if k.toInt < 0 then .error .outside
  else
    match buf[k.toInt.toNat]? with
    | some w => .ok (.uint w)
    | none => .error .outside

def eval (array : String) (vars : List Var) (buf : List (BitVec 32)) : CExpr → Except Fault Val
  | .num t => literal t
  | .name x =>
    match lookup vars x with
    | some v => .ok (.uint v.value)
    | none => .error .malformed
  | .paren e => eval array vars buf e
  | .index e i =>
    if e = .name array then do load buf (← eval array vars buf i) else .error .malformed
  | .unary op e => do unop op (← eval array vars buf e)
  | .binary op l r => do binop op (← eval array vars buf l) (← eval array vars buf r)
  | .call _ _ => .error .malformed
  | .member _ _ => .error .malformed

inductive Stmt where
  | decl (const : Bool) (name : String) (e : CExpr)
  | assign (name : String) (e : CExpr)
  | store (array : String) (i e : CExpr)
  deriving DecidableEq, Repr

def setVar (x : String) (w : BitVec 32) (v : Var) : Var :=
  if v.name = x then { v with value := w } else v

def exec (array : String) (st : List Var × List (BitVec 32)) :
    Stmt → Except Fault (List Var × List (BitVec 32))
  | .decl const x e => do
    let w ← eval array st.1 st.2 e
    if x = array ∨ (lookup st.1 x).isSome then .error .malformed
    else .ok (st.1 ++ [⟨x, const, w.toUint⟩], st.2)
  | .assign x e => do
    let w ← eval array st.1 st.2 e
    if (lookup st.1 x).any (fun v => !v.const) then .ok (st.1.map (setVar x w.toUint), st.2)
    else .error .malformed
  | .store a i e => do
    let w ← eval array st.1 st.2 e
    let k ← eval array st.1 st.2 i
    if a ≠ array then .error .malformed
    else if k.toInt < 0 ∨ st.2.length ≤ k.toInt.toNat then .error .outside
    else .ok (st.1, st.2.set k.toInt.toNat w.toUint)

theorem load_uint (buf : List (BitVec 32)) (g : BitVec 32) :
    load buf (.uint g) =
      if buf.length ≤ g.toNat then .error .outside else .ok (.uint (buf.getD g.toNat 0)) := by
  have hpos : ¬(Val.uint g).toInt < 0 := by
    change ¬(g.toNat : Int) < 0
    omega
  have hnat : (Val.uint g).toInt.toNat = g.toNat := Int.toNat_natCast _
  rw [load, if_neg hpos, hnat, List.getD_eq_getElem?_getD]
  by_cases hlen : buf.length ≤ g.toNat
  · rw [if_pos hlen, List.getElem?_eq_none_iff.mpr hlen]
  · rw [if_neg hlen, List.getElem?_eq_getElem (Nat.lt_of_not_le hlen)]
    rfl

theorem exec_store {arr : String} {vs : List Var} {buf : List (BitVec 32)} {i e : CExpr} {w : Val}
    {g : BitVec 32} (he : eval arr vs buf e = .ok w) (hi : eval arr vs buf i = .ok (.uint g)) :
    exec arr (vs, buf) (.store arr i e) =
      if buf.length ≤ g.toNat then .error .outside else .ok (vs, buf.set g.toNat w.toUint) := by
  have hnat : (Val.uint g).toInt.toNat = g.toNat := Int.toNat_natCast _
  rw [exec, he, hi]
  change (if arr ≠ arr then _ else if _ ∨ _ then _ else _) = _
  rw [if_neg (fun h => h rfl), hnat]
  have hpos : ¬(Val.uint g).toInt < 0 := by
    change ¬(g.toNat : Int) < 0
    omega
  by_cases hlen : buf.length ≤ g.toNat
  · rw [if_pos hlen, if_pos (.inr hlen)]
  · simp [*]

/-- The names of the array and of the work item's number, and the statements. -/
structure Kernel where
  array : String
  thread : String
  threadConst : Bool
  body : List Stmt
  deriving DecidableEq, Repr

def Kernel.start (k : Kernel) (g : BitVec 32) : List Var := [⟨k.thread, k.threadConst, g⟩]

def Kernel.run (k : Kernel) (g : BitVec 32) (buf : List (BitVec 32)) :
    Except Fault (List (BitVec 32)) := do
  let st ← k.body.foldlM (exec k.array) (k.start g, buf)
  return st.2

end Meaning

section Scope

def CExpr.names : CExpr → List String
  | .num _ => []
  | .name x => [x]
  | .paren e => e.names
  | .call f e => f :: e.names
  | .index e i => e.names ++ i.names
  | .member e _ => e.names
  | .unary _ e => e.names
  | .binary _ l r => l.names ++ r.names

def Stmt.declared (ds : List String) : Stmt → List String
  | .decl _ x _ => x :: ds
  | .assign _ _ => ds
  | .store _ _ _ => ds

/-- A statement uses names that are declared, and declares a new one. -/
def Stmt.Scoped (ds : List String) : Stmt → Prop
  | .decl _ x e => e.names ⊆ ds ∧ x ∉ ds
  | .assign x e => x ∈ ds ∧ e.names ⊆ ds
  | .store a i e => a ∈ ds ∧ i.names ⊆ ds ∧ e.names ⊆ ds

/-- All names are declared once, and before they are used. -/
def Scoped : List String → List Stmt → Prop
  | _, [] => True
  | ds, s :: body => s.Scoped ds ∧ Scoped (s.declared ds) body

theorem scoped_append {ds : List String} {body body' : List Stmt} (h : Scoped ds body)
    (h' : Scoped (body.foldl Stmt.declared ds) body') : Scoped ds (body ++ body') := by
  induction body generalizing ds with
  | nil => exact h'
  | cons s body ih => exact ⟨h.1, ih h.2 h'⟩

end Scope

section Grammar

variable {ts ts' us us' : List String}

inductive StmtPhrase : List String → Stmt → Prop where
  | decl {x : String} {ts : List String} {e : CExpr} (hx : isName x = true) (h : Phrase 2 ts e) :
      StmtPhrase ("uint" :: x :: "=" :: (ts ++ [";"])) (.decl false x e)
  | constDecl {x : String} {ts : List String} {e : CExpr} (hx : isName x = true)
      (h : Phrase 2 ts e) :
      StmtPhrase ("const" :: "uint" :: x :: "=" :: (ts ++ [";"])) (.decl true x e)
  | assign {x : String} {ts : List String} {e : CExpr} (hx : isName x = true) (h : Phrase 2 ts e) :
      StmtPhrase (x :: "=" :: (ts ++ [";"])) (.assign x e)
  | store {a : String} {ts us : List String} {i e : CExpr} (ha : isName a = true)
      (hi : Phrase 1 us i) (h : Phrase 2 ts e) :
      StmtPhrase (a :: "[" :: (us ++ "]" :: "=" :: (ts ++ [";"]))) (.store a i e)

inductive BodyPhrase : List String → List Stmt → Prop where
  | nil : BodyPhrase [] []
  | cons {ts us : List String} {s : Stmt} {body : List Stmt} (h : StmtPhrase ts s)
      (hs : BodyPhrase us body) : BodyPhrase (ts ++ us) (s :: body)

/-- What comes before a semicolon or a bracket is one expression only. -/
theorem Phrase.unique_closed {p : Nat} {t : String} {pre pre' : List String} {e e' : CExpr}
    (h : Phrase p pre e) (h' : Phrase p pre' e') (hp : 0 < p) (hle : p ≤ 8) (hprec : prec t = 0)
    (hcall : t ≠ "(") (hindex : t ≠ "[") (hmember : t ≠ ".")
    (heq : pre ++ t :: ts = pre' ++ t :: ts') : e = e' ∧ ts = ts' := by
  have hlow : prec t < p := by omega
  rcases h.unique_before h' hle (follow_end hprec hcall hindex hmember) hlow
    (follow_end hprec hcall hindex hmember) hlow heq with ⟨he, hts⟩
  exact ⟨he, (List.cons.inj hts).2⟩

/-- The words of a statement, whatever follows them, make one statement only. -/
theorem StmtPhrase.unique_before {s s' : Stmt}
    (h : StmtPhrase ts s) (h' : StmtPhrase ts' s') (heq : ts ++ us = ts' ++ us') :
    s = s' ∧ us = us' := by
  -- What follows the equals sign is settled by the grammar for expressions.
  have hinit : ∀ {pre pre' : List String} {e e' : CExpr}, Phrase 2 pre e → Phrase 2 pre' e' →
      pre ++ [";"] ++ us = pre' ++ [";"] ++ us' → e = e' ∧ us = us' := by
    intro pre pre' e e' he he' heq
    rw [List.append_assoc, List.append_assoc] at heq
    exact he.unique_closed he' (by decide) (by decide) (by decide) (by decide) (by decide)
      (by decide) heq
  -- The first two words tell the kinds of statements apart.
  cases h with
  | @decl x ts e hx h =>
    cases h' with
    | @decl x' ts' e' hx' h' =>
      simp only [List.cons_append, List.cons.injEq, true_and] at heq
      rcases heq with ⟨rfl, heq⟩
      rcases hinit h h' heq with ⟨rfl, hus⟩
      exact ⟨rfl, hus⟩
    | constDecl => exact absurd (List.cons.inj heq).1 (by decide)
    | assign =>
      rw [(List.cons.inj (List.cons.inj heq).2).1] at hx
      exact absurd hx (by decide)
    | store =>
      rw [(List.cons.inj (List.cons.inj heq).2).1] at hx
      exact absurd hx (by decide)
  | @constDecl x ts e hx h =>
    cases h' with
    | decl => exact absurd (List.cons.inj heq).1 (by decide)
    | @constDecl x' ts' e' hx' h' =>
      simp only [List.cons_append, List.cons.injEq, true_and] at heq
      rcases heq with ⟨rfl, heq⟩
      rcases hinit h h' heq with ⟨rfl, hus⟩
      exact ⟨rfl, hus⟩
    | assign | store => exact absurd (List.cons.inj (List.cons.inj heq).2).1 (by decide)
  | @assign x ts e hx h =>
    cases h' with
    | decl hx' =>
      rw [← (List.cons.inj (List.cons.inj heq).2).1] at hx'
      exact absurd hx' (by decide)
    | constDecl => exact absurd (List.cons.inj (List.cons.inj heq).2).1 (by decide)
    | @assign x' ts' e' hx' h' =>
      simp only [List.cons_append, List.cons.injEq, true_and] at heq
      rcases heq with ⟨rfl, heq⟩
      rcases hinit h h' heq with ⟨rfl, hus⟩
      exact ⟨rfl, hus⟩
    | store => exact absurd (List.cons.inj (List.cons.inj heq).2).1 (by decide)
  | @store a ts is i e ha hi h =>
    cases h' with
    | decl hx' =>
      rw [← (List.cons.inj (List.cons.inj heq).2).1] at hx'
      exact absurd hx' (by decide)
    | constDecl | assign => exact absurd (List.cons.inj (List.cons.inj heq).2).1 (by decide)
    | @store a' ts' is' i' e' ha' hi' h' =>
      simp only [List.cons_append, List.cons.injEq, true_and] at heq
      rcases heq with ⟨rfl, heq⟩
      rw [List.append_assoc, List.append_assoc] at heq
      rcases hi.unique_closed hi' (by decide) (by decide) (by decide) (by decide) (by decide)
        (by decide) heq with ⟨rfl, heq⟩
      rcases hinit h h' (List.cons.inj heq).2 with ⟨rfl, hus⟩
      exact ⟨rfl, hus⟩

theorem StmtPhrase.head_ne {s : Stmt} (h : StmtPhrase ts s) :
    ts ++ us ≠ "\x7d" :: us' := by
  intro heq
  cases h with
  | decl | constDecl => exact absurd (List.cons.inj heq).1 (by decide)
  | assign hx =>
    rw [(List.cons.inj heq).1] at hx
    exact absurd hx (by decide)
  | store ha =>
    rw [(List.cons.inj heq).1] at ha
    exact absurd ha (by decide)

/-- Words up to a closing brace make one list of statements only. -/
theorem BodyPhrase.unique_before {body body' : List Stmt}
    (h : BodyPhrase ts body) (h' : BodyPhrase ts' body')
    (heq : ts ++ "\x7d" :: us = ts' ++ "\x7d" :: us') : body = body' ∧ us = us' := by
  induction h generalizing ts' body' with
  | nil =>
    cases h' with
    | nil => exact ⟨rfl, (List.cons.inj heq).2⟩
    | cons hs _ =>
      rw [List.append_assoc] at heq
      exact absurd heq.symm hs.head_ne
  | cons hs _ ih =>
    cases h' with
    | nil =>
      rw [List.append_assoc] at heq
      exact absurd heq hs.head_ne
    | cons hs' hbody' =>
      rw [List.append_assoc, List.append_assoc] at heq
      rcases hs.unique_before hs' heq with ⟨rfl, hrest⟩
      rcases ih hbody' hrest with ⟨rfl, hus⟩
      exact ⟨rfl, hus⟩

end Grammar

end Mellow.Lib
