import Mellow.Lib.CKernel

/-!
# Kernels as Straight-line LLVM Code

A function of LLVM without branches, on one buffer of 32-bit words. A name is
given once, and operations wrap. What LLVM leaves undefined is a fault, and so
is an access that is not to an element of the buffer; the faults are those of
`Mellow.Lib.CKernel`.

A pointer is the number of bytes from the start of the buffer, in 64 bits, and
the address of an element is computed in these. Whether there is an element
matters only once it is used.

## Main definitions

* `Instr`: instructions.
* `exec`: running one.
* `Kernel.run`: running a kernel for one work item.
* `BodyPhrase`: which words make which instructions.

## Theorems

* `BodyPhrase.unique_before`: no words make two bodies.
-/

namespace Mellow.Lib.Ssa

section Meaning

inductive Operand where
  | reg (name : String)
  | const (bits : BitVec 32)
  deriving DecidableEq, Repr

inductive Opcode where
  | add
  | sub
  | mul
  | and
  | or
  | xor
  | shl
  | lshr
  | udiv
  | urem
  deriving DecidableEq, Repr

/-- Instructions; `extract` takes the first of three components. -/
inductive Instr where
  | store (value : Operand) (ptr : String)
  | extract (dst vector : String)
  | zext (dst src : String)
  | gep (dst base index : String)
  | load (dst ptr : String)
  | binary (dst : String) (op : Opcode) (a b : Operand)
  deriving DecidableEq, Repr

inductive Value where
  | i32 (w : BitVec 32)
  | i64 (w : BitVec 64)
  | vec3 (x y z : BitVec 32)
  | ptr (offset : BitVec 64)
  deriving DecidableEq, Repr

abbrev Env := List (String × Value)

def operand (env : Env) : Operand → Except Fault (BitVec 32)
  | .const w => .ok w
  | .reg x =>
    match env.lookup x with
    | some (.i32 w) => .ok w
    | _ => .error .malformed

def Opcode.apply (a b : BitVec 32) : Opcode → Except Fault (BitVec 32)
  | .add => .ok (a + b)
  | .sub => .ok (a - b)
  | .mul => .ok (a * b)
  | .and => .ok (a &&& b)
  | .or => .ok (a ||| b)
  | .xor => .ok (a ^^^ b)
  | .shl => if 32 ≤ b.toNat then .error .shift else .ok (a <<< b.toNat)
  | .lshr => if 32 ≤ b.toNat then .error .shift else .ok (a >>> b.toNat)
  | .udiv => if b = 0 then .error .divisor else .ok (a / b)
  | .urem => if b = 0 then .error .divisor else .ok (a % b)

def element (env : Env) (buf : List (BitVec 32)) (x : String) : Except Fault Nat :=
  match env.lookup x with
  | some (.ptr offset) =>
    if offset.toNat % 4 = 0 ∧ offset.toNat / 4 < buf.length then .ok (offset.toNat / 4)
    else .error .outside
  | _ => .error .malformed

/-- A value gets a name, which is a new one. -/
def define (env : Env) (x : String) (v : Value) : Except Fault Env :=
  if (env.lookup x).isSome then .error .malformed else .ok (env ++ [(x, v)])

def exec (st : Env × List (BitVec 32)) : Instr → Except Fault (Env × List (BitVec 32))
  | .store value p => do
    let w ← operand st.1 value
    let i ← element st.1 st.2 p
    return (st.1, st.2.set i w)
  | .extract x v =>
    match st.1.lookup v with
    | some (.vec3 w _ _) => do return (← define st.1 x (.i32 w), st.2)
    | _ => .error .malformed
  | .zext x a =>
    match st.1.lookup a with
    | some (.i32 w) => do return (← define st.1 x (.i64 (w.setWidth 64)), st.2)
    | _ => .error .malformed
  | .gep x p i =>
    match st.1.lookup p, st.1.lookup i with
    | some (.ptr offset), some (.i64 k) => do return (← define st.1 x (.ptr (offset + 4 * k)), st.2)
    | _, _ => .error .malformed
  | .load x p => do
    let i ← element st.1 st.2 p
    return (← define st.1 x (.i32 (st.2.getD i 0)), st.2)
  | .binary x op a b => do
    let w ← op.apply (← operand st.1 a) (← operand st.1 b)
    return (← define st.1 x (.i32 w), st.2)

/-- A function, whose thread number may be the first of a vector. -/
structure Kernel where
  buffer : String
  thread : String
  vector : Bool
  body : List Instr
  deriving DecidableEq, Repr

def Kernel.start (k : Kernel) (x y z : BitVec 32) : Env :=
  [(k.buffer, .ptr 0), (k.thread, if k.vector then .vec3 x y z else .i32 x)]

def Kernel.run (k : Kernel) (x y z : BitVec 32) (buf : List (BitVec 32)) :
    Except Fault (List (BitVec 32)) := do
  let st ← k.body.foldlM exec (k.start x y z, buf)
  return st.2

end Meaning

section Grammar

variable {ts ts' us us' : List String}

/-- A word that may be the name of a value, without its percent sign. -/
def isLocal (t : String) : Bool := t.toList.head?.any fun c => isDigit c || isLetter c || c == '.'

def isDigits (t : String) : Bool := t.toList ≠ [] && t.toList.all isDigit

def word (t : String) : BitVec 32 := .ofNat 32 (Nat.ofDigitChars 10 t.toList 0)

inductive OperandPhrase : List String → Operand → Prop where
  | reg {n : String} (hn : isLocal n = true) : OperandPhrase ["%", n] (.reg n)
  | number {d : String} (hd : isDigits d = true) : OperandPhrase [d] (.const (word d))
  | negative {d : String} (hd : isDigits d = true) : OperandPhrase ["-", d] (.const (-word d))

def Opcode.mnemonic : Opcode → String
  | .add => "add"
  | .sub => "sub"
  | .mul => "mul"
  | .and => "and"
  | .or => "or"
  | .xor => "xor"
  | .shl => "shl"
  | .lshr => "lshr"
  | .udiv => "udiv"
  | .urem => "urem"

/-- Instructions as words. Pointers are to the address space of buffers. -/
inductive InstrPhrase : List String → Instr → Prop where
  | store {ts : List String} {v : Operand} {p : String} (hv : OperandPhrase ts v)
      (hp : isLocal p = true) :
      InstrPhrase
        ("store" :: "i32" ::
          (ts ++ [",", "ptr", "addrspace", "(", "1", ")", "%", p, ",", "align", "4"]))
        (.store v p)
  | extract {x v : String} (hx : isLocal x = true) (hv : isLocal v = true) :
      InstrPhrase
        ["%", x, "=", "extractelement", "<", "3", "x", "i32", ">", "%", v, ",", "i64", "0"]
        (.extract x v)
  | zext {x a : String} (hx : isLocal x = true) (ha : isLocal a = true) :
      InstrPhrase ["%", x, "=", "zext", "i32", "%", a, "to", "i64"] (.zext x a)
  | gep {x p i : String} {inbounds : List String} (hx : isLocal x = true) (hp : isLocal p = true)
      (hi : isLocal i = true) (hinbounds : inbounds = [] ∨ inbounds = ["inbounds"]) :
      InstrPhrase
        ("%" :: x :: "=" :: "getelementptr" ::
          (inbounds ++ ["i32", ",", "ptr", "addrspace", "(", "1", ")", "%", p, ",", "i64", "%", i]))
        (.gep x p i)
  | load {x p : String} (hx : isLocal x = true) (hp : isLocal p = true) :
      InstrPhrase
        ["%", x, "=", "load", "i32", ",", "ptr", "addrspace", "(", "1", ")", "%", p, ",",
          "align", "4"] (.load x p)
  | binary {x : String} {op : Opcode} {ts us : List String} {a b : Operand} (hx : isLocal x = true)
      (ha : OperandPhrase ts a) (hb : OperandPhrase us b) :
      InstrPhrase ("%" :: x :: "=" :: op.mnemonic :: "i32" :: (ts ++ "," :: us)) (.binary x op a b)

inductive BodyPhrase : List String → List Instr → Prop where
  | nil : BodyPhrase [] []
  | cons {ts us : List String} {i : Instr} {body : List Instr} (h : InstrPhrase ts i)
      (hs : BodyPhrase us body) : BodyPhrase (ts ++ us) (i :: body)

theorem OperandPhrase.unique_before {a a' : Operand}
    (h : OperandPhrase ts a) (h' : OperandPhrase ts' a') (heq : ts ++ us = ts' ++ us') :
    a = a' ∧ us = us' := by
  -- No digits are the percent sign or the minus sign.
  have hpercent : isDigits "%" ≠ true := by decide
  have hminus : isDigits "-" ≠ true := by decide
  cases h with
  | reg hn =>
    cases h' with
    | reg hn' =>
      simp only [List.cons_append, List.nil_append, List.cons.injEq, true_and] at heq
      exact ⟨by rw [heq.1], heq.2⟩
    | number hd' => exact absurd ((List.cons.inj heq).1 ▸ hd') hpercent
    | negative hd' => exact absurd (List.cons.inj heq).1 (by decide)
  | number hd =>
    cases h' with
    | reg hn' => exact absurd ((List.cons.inj heq).1 ▸ hd) hpercent
    | number hd' => exact ⟨by rw [(List.cons.inj heq).1], (List.cons.inj heq).2⟩
    | negative hd' => exact absurd ((List.cons.inj heq).1 ▸ hd) hminus
  | negative hd =>
    cases h' with
    | reg hn' => exact absurd (List.cons.inj heq).1 (by decide)
    | number hd' => exact absurd ((List.cons.inj heq).1 ▸ hd') hminus
    | negative hd' =>
      simp only [List.cons_append, List.nil_append, List.cons.injEq, true_and] at heq
      exact ⟨by rw [heq.1], heq.2⟩

theorem Opcode.mnemonic_inj {o o' : Opcode} (h : o.mnemonic = o'.mnemonic) : o = o' := by
  cases o <;> cases o' <;> first | rfl | exact absurd h (by decide)

theorem Opcode.mnemonic_ne (o : Opcode) :
    o.mnemonic ≠ "extractelement" ∧ o.mnemonic ≠ "zext" ∧ o.mnemonic ≠ "getelementptr" ∧
      o.mnemonic ≠ "load" := by
  cases o <;> decide

/-- The word that tells the instructions with a result apart. -/
theorem fourth_ne {x x' t t' : String} (ht : t ≠ t')
    (heq : "%" :: x :: "=" :: t :: ts = "%" :: x' :: "=" :: t' :: ts') : False := by
  simp only [List.cons.injEq, true_and] at heq
  exact ht heq.2.1

/-- No words make two instructions. -/
theorem InstrPhrase.unique_before {i i' : Instr}
    (h : InstrPhrase ts i) (h' : InstrPhrase ts' i') (heq : ts ++ us = ts' ++ us') :
    i = i' ∧ us = us' := by
  cases h with
  | store hv hp =>
    cases h' with
    | store hv' hp' =>
      simp only [List.cons_append, List.append_assoc, List.cons.injEq, true_and] at heq
      rcases hv.unique_before hv' heq with ⟨rfl, hrest⟩
      simp only [List.nil_append, List.cons.injEq, true_and] at hrest
      exact ⟨by rw [hrest.1], hrest.2⟩
    | extract | zext | gep | load | binary => exact absurd (List.cons.inj heq).1 (by decide)
  | extract =>
    cases h' with
    | store => exact absurd (List.cons.inj heq).1 (by decide)
    | extract =>
      simp only [List.cons_append, List.nil_append, List.cons.injEq, true_and] at heq
      exact ⟨by rw [heq.1, heq.2.1], heq.2.2⟩
    | zext | gep | load => exact (fourth_ne (by decide) heq).elim
    | @binary _ op => exact (fourth_ne op.mnemonic_ne.1.symm heq).elim
  | zext =>
    cases h' with
    | store => exact absurd (List.cons.inj heq).1 (by decide)
    | extract => exact (fourth_ne (by decide) heq).elim
    | zext =>
      simp only [List.cons_append, List.nil_append, List.cons.injEq, true_and] at heq
      exact ⟨by rw [heq.1, heq.2.1], heq.2.2⟩
    | gep | load => exact (fourth_ne (by decide) heq).elim
    | @binary _ op => exact (fourth_ne op.mnemonic_ne.2.1.symm heq).elim
  | gep _ _ _ hin =>
    cases h' with
    | store => exact absurd (List.cons.inj heq).1 (by decide)
    | extract | zext => exact (fourth_ne (by decide) heq).elim
    | gep _ _ _ hin' =>
      rcases hin with rfl | rfl <;> rcases hin' with rfl | rfl <;>
        simp at heq <;> exact ⟨by rw [heq.1, heq.2.1, heq.2.2.1], heq.2.2.2⟩
    | load => exact (fourth_ne (by decide) heq).elim
    | @binary _ op => exact (fourth_ne op.mnemonic_ne.2.2.1.symm heq).elim
  | load =>
    cases h' with
    | store => exact absurd (List.cons.inj heq).1 (by decide)
    | extract | zext | gep => exact (fourth_ne (by decide) heq).elim
    | load =>
      simp only [List.cons_append, List.nil_append, List.cons.injEq, true_and] at heq
      exact ⟨by rw [heq.1, heq.2.1], heq.2.2⟩
    | @binary _ op => exact (fourth_ne op.mnemonic_ne.2.2.2.symm heq).elim
  | @binary _ op _ _ _ _ _ ha hb =>
    cases h' with
    | store => exact absurd (List.cons.inj heq).1 (by decide)
    | extract => exact (fourth_ne op.mnemonic_ne.1 heq).elim
    | zext => exact (fourth_ne op.mnemonic_ne.2.1 heq).elim
    | gep => exact (fourth_ne op.mnemonic_ne.2.2.1 heq).elim
    | load => exact (fourth_ne op.mnemonic_ne.2.2.2 heq).elim
    | binary _ ha' hb' =>
      simp only [List.cons_append, List.append_assoc, List.cons.injEq, true_and] at heq
      rcases heq with ⟨rfl, hop, hoperands⟩
      rcases ha.unique_before ha' hoperands with ⟨rfl, hsecond⟩
      rcases hb.unique_before hb' (List.cons.inj hsecond).2 with ⟨rfl, hrest⟩
      exact ⟨by rw [Opcode.mnemonic_inj hop], hrest⟩

theorem InstrPhrase.operation_ne {i : Instr} {x : String}
    (h : InstrPhrase ts i) : ts ++ us ≠ "%" :: x :: "=" :: "" :: us' := by
  intro heq
  cases h with
  | store => exact absurd (List.cons.inj heq).1 (by decide)
  | extract | zext | gep | load => exact fourth_ne (by decide) heq
  | @binary _ op =>
    have hop : op.mnemonic ≠ "" := by cases op <;> decide
    exact fourth_ne hop heq

theorem InstrPhrase.head_ne {i : Instr} (h : InstrPhrase ts i) :
    ts ++ us ≠ "ret" :: us' := by
  intro heq
  cases h <;> exact absurd (List.cons.inj heq).1 (by decide)

/-- Words up to the end of a function make one list of instructions only. -/
theorem BodyPhrase.unique_before {body body' : List Instr}
    (h : BodyPhrase ts body) (h' : BodyPhrase ts' body')
    (heq : ts ++ "ret" :: us = ts' ++ "ret" :: us') : body = body' ∧ us = us' := by
  induction h generalizing ts' body' with
  | nil =>
    cases h' with
    | nil => exact ⟨rfl, (List.cons.inj heq).2⟩
    | cons hs _ =>
      rw [List.append_assoc] at heq
      exact absurd heq.symm hs.head_ne
  | cons hs _ ih =>
    cases h' with
    | nil =>
      rw [List.append_assoc] at heq
      exact absurd heq hs.head_ne
    | cons hs' hbody' =>
      rw [List.append_assoc, List.append_assoc] at heq
      rcases hs.unique_before hs' heq with ⟨rfl, hrest⟩
      rcases ih hbody' hrest with ⟨rfl, hus⟩
      exact ⟨rfl, hus⟩

end Grammar

end Mellow.Lib.Ssa
