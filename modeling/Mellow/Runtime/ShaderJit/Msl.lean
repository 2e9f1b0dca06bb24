import Mellow.Runtime.ShaderJit.Tokens

/-!
# The Metal Front End

`MslParser` of `ShaderJit.cpp` reads one kernel of the Metal language, builds a
typed tree for each expression, and writes the kernel out again as OpenCL C.

The source bounds the depth of its recursion by 64. Here the recursion is on the
room that is left, so that zero is where the source gives up. The loop over
operators passes a token in each turn, and the loop over statements counts
against a budget. A node of the tree carries what the source stores in it.

## Main definitions

* `Facts`: what is known of an expression.
* `Node`: a node of the tree.
* `expression`: the parser of expressions.
* `compileMsl`: the front end.
-/

namespace Mellow.ShaderJit

open Lib

def UINT32_MAX : Nat := 4294967295

def INT32_MAX : Nat := 2147483647

inductive Scalar where
  | int
  | uint
  deriving DecidableEq, Repr

structure Facts where
  type : Scalar := .uint
  value : BitVec 32 := 0
  constant : Bool := false
  exactIndex : Bool := false
  height : Nat := 1
  deriving DecidableEq, Repr

inductive Node where
  | literal (facts : Facts)
  | symbol (facts : Facts) (symbol : Nat)
  | load (facts : Facts)
  | unary (facts : Facts) (op : String) (left : Node)
  | binary (facts : Facts) (op : String) (left right : Node)
  deriving DecidableEq, Repr

def Node.facts : Node → Facts
  | .literal facts => facts
  | .symbol facts _ => facts
  | .load facts => facts
  | .unary facts _ _ => facts
  | .binary facts _ _ _ => facts

structure Symbol where
  source : String
  emitted : String
  immutable : Bool
  exactIndex : Bool
  deriving DecidableEq, Repr

structure Statement where
  declaration : Bool
  constant : Bool
  buffer : Bool
  symbol : Nat
  expression : Node
  deriving DecidableEq, Repr

structure BufferBinding where
  name : String
  index : Nat
  elementType : String
  writable : Bool
  deriving DecidableEq, Repr

structure Reflection where
  entry : String := ""
  buffers : List BufferBinding := []
  threadIndexName : String := ""
  requiresExactDispatch : Bool := true
  deriving DecidableEq, Repr

structure CompileResult where
  success : Bool := false
  openclSource : String := ""
  reflection : Reflection := {}
  diagnostics : List String := []
  deriving DecidableEq, Repr

def reserved : List String :=
  ["kernel", "void", "device", "uint", "int", "float", "half", "bool", "const", "return", "if",
    "else", "for", "while", "do", "switch", "case", "break", "continue", "using", "namespace",
    "metal", "thread", "threadgroup", "constant", "volatile", "atomic_uint", "auto", "struct",
    "class", "typedef", "sizeof", "true", "false", "__kernel", "__global", "global", "local",
    "private", "read_only", "write_only", "unsigned", "signed", "long", "short", "char", "double",
    "sampler_t", "size_t", "event_t", "get_global_id", "alignas", "alignof", "and", "and_eq",
    "asm", "bitand", "bitor", "catch", "char16_t", "char32_t", "compl", "concept", "const_cast",
    "constexpr", "consteval", "constinit", "co_await", "co_return", "co_yield", "decltype",
    "default", "delete", "dynamic_cast", "enum", "explicit", "export", "extern", "friend", "goto",
    "inline", "mutable", "new", "noexcept", "not", "not_eq", "nullptr", "operator", "or", "or_eq",
    "protected", "public", "register", "reinterpret_cast", "requires", "restrict", "static",
    "static_assert", "static_cast", "template", "this", "thread_local", "throw", "try", "typeid",
    "typename", "union", "virtual", "wchar_t", "xor", "xor_eq"]

structure Fields where
  entry : String
  bufferName : String := ""
  threadName : String := ""
  names : List String := []
  symbols : List Symbol := []
  statements : List Statement := []
  nodeCount : Nat := 0
  writes : Nat := 0
  deriving DecidableEq, Repr

abbrev Msl := Step Fields

def declaredName : Msl String := do
  let value ← name
  let f ← fields
  refuseIf (value ∈ reserved || value.toList.head? == some '_' ||
    value.toList.take 7 == "mellow_".toList || value ∈ f.names) "Reserved or duplicate identifier"
  editFields fun f => { f with names := value :: f.names }
  return value

def node : Msl Unit := do
  editFields fun f => { f with nodeCount := f.nodeCount + 1 }
  let f ← fields
  refuseIf (f.nodeCount > MaxAstNodes) "AST node budget exceeded"

def symbol (nameValue : String) : Msl Nat := do
  let f ← fields
  match f.symbols.findIdx? (fun s => s.source = nameValue) with
  | some i => return i
  | none => fail "Unknown or uninitialized variable"

def precedence (op : String) : Nat :=
  if op = "|" then 1
  else if op = "^" then 2
  else if op = "&" then 3
  else if op = "<<" ∨ op = ">>" then 4
  else if op = "+" ∨ op = "-" then 5
  else if op = "*" ∨ op = "/" ∨ op = "%" then 6
  else 0

section Constants

/-- The number that a character of a literal stands for, as an `unsigned`. -/
def literalDigit (c : Char) : Nat :=
  if digit c then c.toNat - '0'.toNat
  else ((c.toNat ||| 32) + (UINT32_MAX + 1) - 'a'.toNat + 10) % (UINT32_MAX + 1)

def literalValue (base : Nat) : List Char → Nat → Option Nat
  | [], value => some value
  | c :: cs, value =>
    let d := literalDigit c
    if d ≥ base ∨ value > (UINT32_MAX - d) / base then none
    else literalValue base cs (value * base + d)

def literalBase (body : List Char) : Nat := if body.take 2 = ['0', 'x'] then 16 else 10

def literalDigits (body : List Char) : List Char :=
  if literalBase body = 16 then body.drop 2 else body

def literalType (suffix : Bool) (base value : Nat) : Scalar :=
  if suffix || (base = 16 && value > INT32_MAX) then .uint else .int

/-- What a literal without its suffix is, or why it is refused. -/
def bodyFacts (suffix : Bool) (body : List Char) : Except String Facts :=
  if literalBase body = 10 ∧ body.length > 1 ∧ body.head? = some '0' then
    .error "Octal literals are unsupported"
  else
    match literalValue (literalBase body) (literalDigits body) 0 with
    | none => .error "Literal exceeds uint32"
    | some value =>
      if literalType suffix (literalBase body) value = .int ∧ value > INT32_MAX then
        .error "Unsuffixed decimal exceeds supported int32"
      else .ok
        { type := literalType suffix (literalBase body) value, value := .ofNat 32 value,
          constant := true }

def literalFacts (text : String) : Except String Facts :=
  if text.toList.getLast? = some 'u' ∨ text.toList.getLast? = some 'U' then
    bodyFacts true text.toList.dropLast
  else bodyFacts false text.toList

/-- The value that a unary operator makes of a constant. -/
def foldUnary (op : String) (value : BitVec 32) : BitVec 32 :=
  if op = "-" then 0 - value else if op = "~" then ~~~value else value

/-- The value that a binary operator makes of two constants, in 64 bits. -/
def foldBinary (op : String) (av bv : BitVec 64) : BitVec 64 :=
  if op = "+" then av + bv
  else if op = "-" then av - bv
  else if op = "*" then av * bv
  else if op = "/" then av / bv
  else if op = "%" then av % bv
  else if op = "&" then av &&& bv
  else if op = "|" then av ||| bv
  else if op = "^" then av ^^^ bv
  else if op = "<<" then av <<< bv.toNat
  else if op = ">>" then av >>> bv.toNat
  else 0

def resultType (op : String) (a b : Facts) : Scalar :=
  if op = "<<" ∨ op = ">>" then a.type
  else if a.type = .uint ∨ b.type = .uint then .uint else .int

/-- The type of a binary expression, and its value where it is constant. -/
def validateBinary (op : String) (a b : Facts) : Except String Facts :=
  if (op = "/" ∨ op = "%") ∧ (!b.constant ∨ b.value = 0) then
    .error "Division/remainder requires a nonzero constant divisor"
  else if (op = "<<" ∨ op = ">>") ∧ (!b.constant ∨ b.value.toNat ≥ 32) then
    .error "Shift count must be a constant in 0..31"
  else if !(a.constant && b.constant) then
    .ok { type := resultType op a b, height := 1 + max a.height b.height }
  else if op = "-" ∧ resultType op a b = .int ∧ a.value.toNat < b.value.toNat then
    .error "Negative signed constant subexpressions are unsupported"
  else
    let v := foldBinary op (a.value.setWidth 64) (b.value.setWidth 64)
    if resultType op a b = .int ∧ v.toNat > INT32_MAX then
      .error "Signed constant subexpression overflow"
    else .ok
      { type := resultType op a b, value := v.setWidth 32, constant := true,
        height := 1 + max a.height b.height }

def unaryFacts (op : String) (a : Facts) : Except String Facts :=
  if 1 + a.height > MaxExpressionDepth then .error "AST depth budget exceeded"
  else if op ≠ "+" ∧ a.type ≠ .uint then .error "Unary minus/complement requires uint"
  else .ok
    { type := a.type, value := if a.constant then foldUnary op a.value else 0,
      constant := a.constant, height := 1 + a.height }

def binaryFacts (op : String) (a b : Facts) : Except String Facts :=
  if 1 + max a.height b.height > MaxExpressionDepth then .error "AST depth budget exceeded"
  else validateBinary op a b

/-- Give up with the message of a failed check. -/
def checkedFacts (r : Except String Facts) : Msl Facts :=
  match r with
  | .ok f => return f
  | .error message => fail message

end Constants

section Expressions

/-- The loop of `expression`, where `right` reads a right operand. -/
def binaries (right : Nat → Msl Node) (minimum : Nat) : Nat → Node → Msl Node
  | 0, left => return left
  | fuel + 1, left => do
    let t ← peek
    if precedence t.text ≥ minimum then do
      let op ← consume
      let r ← right (precedence op + 1)
      node
      let facts ← checkedFacts (binaryFacts op left.facts r.facts)
      binaries right minimum fuel (.binary facts op left r)
    else return left

def literalNode : Msl Node := do
  node
  let text ← consume
  let facts ← checkedFacts (literalFacts text)
  return .literal facts

def symbolNode (nameValue : String) : Msl Node := do
  node
  let i ← symbol nameValue
  let f ← fields
  return .symbol { exactIndex := (f.symbols.map (·.exactIndex)).getD i false } i

mutual

def expression (room minimum : Nat) : Msl Node :=
  match room with
  | 0 => fail "Expression depth budget exceeded"
  | room + 1 => do
    let left ← primary room
    let s ← get
    binaries (expression room) minimum s.tokens.length left

def primary (room : Nat) : Msl Node :=
  match room with
  | 0 => fail "Expression depth budget exceeded"
  | room + 1 => do
    let s ← get
    if s.isAt "(" then do
      require "("
      let n ← expression room 1
      require ")"
      return n
    else if s.isAt "+" || s.isAt "-" || s.isAt "~" then do
      node
      let op ← consume
      let left ← primary room
      let facts ← checkedFacts (unaryFacts op left.facts)
      return .unary facts op left
    else if s.peek.text.toList.head?.any digit then literalNode
    else do
      let nameValue ← name
      let f ← fields
      if nameValue = f.bufferName then do
        index room
        node
        return .load {}
      else symbolNode nameValue

def index (room : Nat) : Msl Unit := do
  require "["
  match room with
  | 0 => fail "Expression depth budget exceeded"
  | room + 1 => do
    let i ← expression room 1
    require "]"
    refuseIf (!i.facts.exactIndex) "Buffer index must be the immutable current thread index"

end

def fullRoom : Nat := MaxExpressionDepth + 1

end Expressions

section Statements

def declaration (constant : Bool) : Msl Unit := do
  let n ← declaredName
  require "="
  let e ← expression fullRoom 1
  require ";"
  editFields fun f =>
    { f with
      symbols := f.symbols ++ [⟨n, "mellow_v" ++ toString f.symbols.length, constant,
        constant && e.facts.exactIndex⟩]
      statements := f.statements ++ [⟨true, constant, false, f.symbols.length, e⟩] }

def assignment (buffer : Bool) (i : Nat) : Msl Unit := do
  require "="
  let e ← expression fullRoom 1
  require ";"
  editFields fun f => { f with statements := f.statements ++ [⟨false, false, buffer, i, e⟩] }

def statement : Msl Unit := do
  let f ← fields
  refuseIf (f.statements.length ≥ MaxStatements) "Statement budget exceeded"
  let constant ← take "const"
  if ← take "uint" then declaration constant
  else do
    refuseIf constant "Only const uint local declarations are supported"
    let n ← name
    if n = f.bufferName then do
      index fullRoom
      editFields fun f => { f with writes := f.writes + 1 }
      assignment true 0
    else do
      let i ← symbol n
      let f ← fields
      refuseIf ((f.symbols.map (·.immutable)).getD i false)
        "Cannot assign an immutable local or thread index"
      assignment false i

/-- The statements up to the closing brace, as many as the budget allows. -/
def body : Nat → Msl Unit
  | 0 => do if ← take "\x7d" then pure () else statement
  | n + 1 => do
    if ← take "\x7d" then pure ()
    else do
      statement
      body n

end Statements

section Emission

def constantText (f : Facts) : String :=
  toString f.value.toNat ++ (if f.type = .uint then "u" else "")

def emit (symbols : List Symbol) : Node → String
  | .literal f => constantText f
  | .symbol f i => if f.constant then constantText f else (symbols.map (·.emitted)).getD i ""
  | .load f => if f.constant then constantText f else "mellow_buffer0[mellow_gid]"
  | .unary f op left =>
    if f.constant then constantText f else "(" ++ op ++ emit symbols left ++ ")"
  | .binary f op left right =>
    if f.constant then constantText f
    else "(" ++ emit symbols left ++ " " ++ op ++ " " ++ emit symbols right ++ ")"

def emitStatement (symbols : List Symbol) (s : Statement) : String :=
  "  " ++ (if s.declaration then if s.constant then "const uint " else "uint " else "") ++
    (if s.buffer then "mellow_buffer0[mellow_gid]"
      else (symbols.map (·.emitted)).getD s.symbol "") ++
    " = " ++ emit symbols s.expression ++ ";\n"

def kernelHead (entry : String) : String :=
  "__kernel void " ++ entry ++
    "(__global uint *mellow_buffer0) \x7b\n  const uint mellow_gid = (uint)get_global_id(0);\n"

end Emission

section Kernel

def parameter : Msl Unit := do
  if ← take "device" then do
    let f ← fields
    refuseIf (f.bufferName ≠ "") "Exactly one device uint buffer is supported"
    require "uint"
    require "*"
    let n ← declaredName
    editFields fun f => { f with bufferName := n }
    require "["
    require "["
    require "buffer"
    require "("
    let i ← decimal 31
    refuseIf (i ≠ 0) "Only buffer(0) is supported"
    require ")"
    require "]"
    require "]"
  else do
    require "uint"
    let f ← fields
    refuseIf (f.threadName ≠ "") "Exactly one scalar thread index is supported"
    let n ← declaredName
    editFields fun f => { f with threadName := n }
    require "["
    require "["
    require "thread_position_in_grid"
    require "]"
    require "]"
    editFields fun f => { f with symbols := f.symbols ++ [⟨n, "mellow_gid", true, true⟩] }

def preamble : Msl Unit := do
  whenM (take "#") do
    require "include"
    require "<"
    require "metal_stdlib"
    require ">"
  whenM (take "using") do
    require "namespace"
    require "metal"
    require ";"

def signature : Msl Unit := do
  require "kernel"
  require "void"
  let f ← fields
  let n ← name
  refuseIf (n ≠ f.entry) "Requested entry does not match the single kernel"
  require "("
  parameter
  require ","
  parameter
  require ")"
  let f ← fields
  refuseIf (f.bufferName = "" || f.threadName = "")
    "Kernel must have buffer(0) and thread_position_in_grid"

def Fields.result (f : Fields) : CompileResult where
  success := true
  openclSource :=
    "// Mellow typed MSL subset; host must enforce exact 1D dispatch.\n" ++ kernelHead f.entry ++
      String.join (f.statements.map (emitStatement f.symbols)) ++ "\x7d\n"
  reflection :=
    { entry := f.entry
      threadIndexName := f.threadName
      buffers := [⟨f.bufferName, 0, "uint", true⟩] }

def run : Msl CompileResult := do
  let f ← fields
  refuseIf (!identifier f.entry || f.entry ∈ reserved || f.entry.toList.head? == some '_')
    "Unsupported entry identifier"
  preamble
  signature
  require "\x7b"
  body MaxStatements
  require ""
  let f ← fields
  refuseIf (f.writes = 0) "Kernel must write at least one value to its current thread element"
  return f.result

def compileMsl (source entry : String) : CompileResult :=
  match lex source false with
  | .error message => { diagnostics := [message] }
  | .ok (tokens, last) =>
    match run { tokens := tokens, last := last, fields := { entry := entry } } with
    | .error message => { diagnostics := [message] }
    | .ok (result, _) => result

end Kernel

end Mellow.ShaderJit
