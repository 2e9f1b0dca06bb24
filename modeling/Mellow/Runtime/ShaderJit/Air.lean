import Mellow.Runtime.ShaderJit.Msl

/-!
# The AIR Front End

`AirParser` of `ShaderJit.cpp` reads the text of a module of AIR, with one
function and no branches. For each instruction it writes a line of OpenCL C, or
remembers what the value stands for. After the function come attributes and
metadata, which are checked.

Maps of the source are lists of pairs, as entries are only added and under new
keys. `functionAttributes_` is `none` for `-1`. Every loop passes a token in
each turn or counts against a budget.

## Main definitions

* `AirValue`: what is known of a value.
* `instruction`: one instruction.
* `metadata`: an item of metadata.
* `compileAirText`: the front end.
-/

namespace Mellow.ShaderJit.Air

open Lib

inductive AirType where
  | u32
  | index64
  | thread3
  | pointer
  deriving DecidableEq, Repr

structure AirValue where
  type : AirType
  emitted : String
  exactIndex : Bool
  elementPointer : Bool
  deriving DecidableEq, Repr

inductive Metadata where
  | integer (value : Nat)
  | string (text : String)
  | reference (value : Nat)
  | function (text : String)
  | list (items : List Metadata)

structure Fields where
  entry : String
  bufferSsa : String := ""
  threadSsa : String := ""
  body : String := ""
  bufferName : String := ""
  threadName : String := ""
  vectorThread : Bool := false
  attributesSeen : Bool := false
  functionAttributes : Option Nat := none
  instructions : Nat := 0
  stores : Nat := 0
  metadataNodes : Nat := 0
  values : List (String × AirValue) := []
  metadata : List (Nat × List Metadata) := []
  named : List (String × List Metadata) := []
  usedMetadata : List Nat := []

abbrev AirStep := Step Fields

section Values

def ssaName : AirStep String := do
  require "%"
  let t ← peek
  refuseIf (t.quoted || !(t.text.toList.head?.any fun c => digit c || alpha c || c == '.'))
    "Invalid SSA name"
  consume

def pointerType : AirStep Unit := do
  require "ptr"
  require "addrspace"
  require "("
  require "1"
  require ")"

def argumentDecorations : AirStep Unit := do
  let _ ← take "noundef"
  let t ← peek
  if t.quoted then do
    let decoration ← quoted
    refuseIf (decoration ≠ "air-buffer-no-alias") "Unsupported AIR parameter attribute"
  else pure ()

def lookup (type : AirType) : AirStep AirValue := do
  let n ← ssaName
  let f ← fields
  match f.values.lookup n with
  | none => fail "Undefined SSA value or type mismatch"
  | some v =>
    refuseIf (v.type ≠ type) "Undefined SSA value or type mismatch"
    return v

def constantBits (negative : Bool) (value : Nat) : BitVec 32 :=
  if negative then -BitVec.ofNat 32 value else .ofNat 32 value

def u32 : AirStep AirValue := do
  if ← isAt "%" then lookup .u32
  else do
    let negative ← take "-"
    let value ← decimal (if negative then INT32_MAX + 1 else UINT32_MAX)
    return ⟨.u32, toString (constantBits negative value).toNat ++ "u", false, false⟩

def define (n : String) (v : AirValue) : AirStep Unit := do
  let f ← fields
  refuseIf (f.values.lookup n).isSome "SSA value defined more than once"
  editFields fun f => { f with values := f.values ++ [(n, v)] }

def aligned : AirStep Unit := do
  require ","
  require "align"
  require "4"

end Values

section Instructions

def vectorType : AirStep Unit := do
  require "<"
  require "3"
  require "x"
  require "i32"
  require ">"

def emitLine (line : String) : AirStep Unit := editFields fun f => { f with body := f.body ++ line }

def store : AirStep Unit := do
  require "i32"
  let value ← u32
  require ","
  pointerType
  let pointer ← lookup .pointer
  refuseIf (!pointer.elementPointer) "AIR store does not address the exact thread element"
  aligned
  emitLine ("  mellow_buffer0[mellow_gid] = " ++ value.emitted ++ ";\n")
  editFields fun f => { f with stores := f.stores + 1 }

def extractelement (n : String) : AirStep Unit := do
  vectorType
  let _ ← lookup .thread3
  require ","
  require "i64"
  require "0"
  define n ⟨.u32, "mellow_gid", true, false⟩

def zext (n : String) : AirStep Unit := do
  require "i32"
  let index ← lookup .u32
  require "to"
  require "i64"
  refuseIf (!index.exactIndex) "Only thread-index zero extension is supported"
  define n ⟨.index64, "mellow_gid", true, false⟩

def getelementptr (n : String) : AirStep Unit := do
  let _ ← take "inbounds"
  require "i32"
  require ","
  pointerType
  let base ← lookup .pointer
  refuseIf base.elementPointer "AIR nested pointer arithmetic is unsupported"
  require ","
  require "i64"
  let index ← lookup .index64
  refuseIf (!index.exactIndex) "AIR GEP index must be the exact current thread index"
  define n ⟨.pointer, "mellow_buffer0 + mellow_gid", false, true⟩

def load : AirStep String := do
  require "i32"
  require ","
  pointerType
  let pointer ← lookup .pointer
  refuseIf (!pointer.elementPointer) "AIR load does not address the exact thread element"
  aligned
  return "mellow_buffer0[mellow_gid]"

def ops : List (String × String) :=
  [("add", "+"), ("sub", "-"), ("mul", "*"), ("and", "&"), ("or", "|"), ("xor", "^"), ("shl", "<<"),
    ("lshr", ">>"), ("udiv", "/"), ("urem", "%")]

def isShift (op : String) : Bool := op = "shl" || op = "lshr"

def isDivision (op : String) : Bool := op = "udiv" || op = "urem"

def stoull (text : String) : Nat := Nat.ofDigitChars 10 (text.toList.takeWhile digit) 0

def arithmetic (op : String) : AirStep String := do
  match ops.lookup op with
  | none => fail ("Unsupported AIR instruction: " ++ op)
  | some sign =>
    require "i32"
    let a ← u32
    require ","
    let atValue ← isAt "%"
    refuseIf ((isShift op || isDivision op) && atValue)
      "AIR shift/divisor must be a checked constant"
    let b ← u32
    refuseIf ((isShift op && stoull b.emitted ≥ 32) || (isDivision op && stoull b.emitted = 0))
      "AIR shift/divisor outside defined range"
    return "(" ++ a.emitted ++ " " ++ sign ++ " " ++ b.emitted ++ ")"

def ssaVariable (size : Nat) : String := "mellow_ssa" ++ toString size

def declare (n expression : String) : AirStep Unit := do
  let f ← fields
  emitLine ("  const uint " ++ ssaVariable f.values.length ++ " = " ++ expression ++ ";\n")
  define n ⟨.u32, ssaVariable f.values.length, false, false⟩

def instruction : AirStep Unit := do
  editFields fun f => { f with instructions := f.instructions + 1 }
  let f ← fields
  refuseIf (f.instructions > MaxStatements) "AIR instruction budget exceeded"
  if ← take "store" then store
  else do
    let n ← ssaName
    require "="
    let op ← consume
    if op = "extractelement" then extractelement n
    else if op = "zext" then zext n
    else if op = "getelementptr" then getelementptr n
    else do
      let expression ← (if op = "load" then load else arithmetic op)
      declare n expression

/-- The instructions up to the return, as many as the budget allows. -/
def instructions : Nat → AirStep Unit
  | 0 => do if ← isAt "ret" then pure () else instruction
  | n + 1 => do
    if ← isAt "ret" then pure ()
    else do
      instruction
      instructions n

end Instructions

section Attributes

def stringAttribute (key value : String) : Bool :=
  (key = "frame-pointer" && value = "all") || (key = "no-trapping-math" && value = "true") ||
    (key = "min-legal-vector-width" && (value = "0" || value = "96")) ||
    (key = "stack-protector-buffer-size" && value = "8")

def functionAttribute : AirStep Unit := do
  let t ← peek
  if t.quoted then do
    let key ← quoted
    require "="
    let value ← quoted
    refuseIf (!stringAttribute key value) "Unsupported AIR string attribute"
  else do
    let word ← consume
    refuseIf (word ∉ ["nounwind", "mustprogress", "willreturn", "norecurse"])
      "Unsupported AIR function attribute"

/-- The attributes up to the closing brace. -/
def attributes : Nat → AirStep Unit
  | 0 => do if ← take "\x7d" then pure () else fail "Unexpected end of input"
  | n + 1 => do
    if ← take "\x7d" then pure ()
    else do
      functionAttribute
      attributes n

def attributeDefinition : AirStep Unit := do
  require "#"
  let id ← decimal UINT32_MAX
  let f ← fields
  refuseIf (f.functionAttributes ≠ some id) "Unexpected AIR attribute group"
  require "="
  require "\x7b"
  let s ← get
  attributes s.tokens.length
  editFields fun f => { f with attributesSeen := true }

end Attributes

section Metadata

/-- Items with commas between them, with room for as many as there are
    tokens. -/
def items (item : AirStep Metadata) : Nat → AirStep (List Metadata)
  | 0 => do return [← item]
  | n + 1 => do
    let m ← item
    if ← take "," then return m :: (← items item n)
    else return [m]

/-- A piece of metadata, with room for the depth that is left. -/
def metadata : Nat → AirStep Metadata
  | 0 => fail "AIR metadata budget exceeded"
  | room + 1 => do
    editFields fun f => { f with metadataNodes := f.metadataNodes + 1 }
    let f ← fields
    refuseIf (f.metadataNodes > MaxAstNodes) "AIR metadata budget exceeded"
    if ← take "i32" then return .integer (← decimal UINT32_MAX)
    else if ← take "ptr" then do
      require "@"
      return .function (← name)
    else do
      require "!"
      let t ← peek
      if t.quoted then return .string (← quoted)
      else if ← take "\x7b" then
        if ← take "\x7d" then return .list []
        else do
          let s ← get
          let list ← items (metadata room) s.tokens.length
          require "\x7d"
          return .list list
      else return .reference (← decimal UINT32_MAX)

def topMetadata : AirStep Metadata := metadata (MaxExpressionDepth + 1)

def metadataDefinition : AirStep Unit := do
  require "!"
  let t ← peek
  if t.text.toList.head?.any digit then do
    let id ← decimal UINT32_MAX
    require "="
    let value ← topMetadata
    let f ← fields
    match value with
    | .list l =>
      refuseIf (f.metadata.lookup id).isSome "AIR metadata duplicate or non-list definition"
      editFields fun f => { f with metadata := f.metadata ++ [(id, l)] }
    | _ => fail "AIR metadata duplicate or non-list definition"
  else do
    let key ← consume
    refuseIf (key ∉ ["air.kernel", "air.version", "air.language_version"])
      ("Unsupported AIR named metadata: " ++ key)
    require "="
    let value ← topMetadata
    let f ← fields
    match value with
    | .list l =>
      refuseIf (f.named.lookup key).isSome "AIR named metadata duplicate or non-list"
      editFields fun f => { f with named := f.named ++ [(key, l)] }
    | _ => fail "AIR named metadata duplicate or non-list"

/-- The definitions up to the end, with room for as many as there are tokens. -/
def metadataDefinitions : Nat → AirStep Unit
  | 0 => pure ()
  | n + 1 => do
    if ← isAt "" then pure ()
    else do
      metadataDefinition
      metadataDefinitions n

def dereference (m : Metadata) : AirStep (List Metadata) := do
  match m with
  | .reference i =>
    let f ← fields
    match f.metadata.lookup i with
    | none => fail "Undefined AIR metadata reference"
    | some l =>
      editFields fun f =>
        { f with usedMetadata :=
            if i ∈ f.usedMetadata then f.usedMetadata else i :: f.usedMetadata }
      return l
  | _ => fail "Expected AIR metadata reference"

def named (key : String) : AirStep (List Metadata) := do
  let f ← fields
  match f.named.lookup key with
  | some [m] => dereference m
  | _ => fail "Required AIR named metadata is missing or ambiguous"

def integer (m : Metadata) (value : Nat) : Bool :=
  match m with
  | .integer n => n == value
  | _ => false

def string (m : Metadata) (value : String) : Bool :=
  match m with
  | .string t => t == value
  | _ => false

def matchesAll : List Metadata → List (Metadata → Bool) → Bool
  | [], [] => true
  | m :: ms, p :: ps => p m && matchesAll ms ps
  | _, _ => false

def anyIdentifier (m : Metadata) : Bool :=
  match m with
  | .string t => identifier t
  | _ => false

def bufferShape : List (Metadata → Bool) :=
  [(integer · 0), (string · "air.buffer"), (string · "air.location_index"), (integer · 0),
    (integer · 1), (string · "air.read_write"), (string · "air.address_space"), (integer · 1),
    (string · "air.arg_type_size"), (integer · 4), (string · "air.arg_type_align_size"),
    (integer · 4), (string · "air.arg_type_name"), (string · "uint"), (string · "air.arg_name"),
    anyIdentifier]

def threadShape (vector : Bool) : List (Metadata → Bool) :=
  [(integer · 1), (string · "air.thread_position_in_grid"), (string · "air.arg_type_name"),
    (string · (if vector then "uint3" else "uint")), (string · "air.arg_name"), anyIdentifier]

def lastText (l : List Metadata) : String :=
  match l.getLast? with
  | some (.string t) => t
  | _ => ""

def validateMetadata : AirStep Unit := do
  let version ← named "air.version"
  refuseIf (!matchesAll version [(integer · 2), (integer · 7), (integer · 0)])
    "AIR metadata version must be 2.7.0"
  let language ← named "air.language_version"
  refuseIf (!matchesAll language [(string · "Metal"), (integer · 3), (integer · 2), (integer · 0)])
    "AIR language metadata must be Metal 3.2.0"
  let kernel ← named "air.kernel"
  let f ← fields
  match kernel with
  | [.function n, outputs, arguments] =>
    refuseIf (n ≠ f.entry) "AIR kernel metadata/function mismatch"
    let outputs ← dereference outputs
    refuseIf (!outputs.isEmpty) "AIR kernel output metadata must be empty"
    let args ← dereference arguments
    match args with
    | [first, second] =>
      let buffer ← dereference first
      refuseIf (!matchesAll buffer bufferShape) "AIR buffer ABI metadata mismatch"
      let thread ← dereference second
      refuseIf (!matchesAll thread (threadShape f.vectorThread))
        "AIR thread-index ABI metadata mismatch"
      let f ← fields
      refuseIf (f.usedMetadata.length ≠ f.metadata.length)
        "AIR module contains unvalidated metadata"
      editFields fun f =>
        { f with bufferName := lastText buffer, threadName := lastText thread }
    | _ => fail "AIR kernel metadata must describe exactly two arguments"
  | _ => fail "AIR kernel metadata/function mismatch"

end Metadata

section Kernel

/-- The layout that the Metal compiler writes. -/
def validatedLayout : String :=
  "e-p:64:64:64-i1:8:8-i8:8:8-i16:16:16-i32:32:32-i64:64:64-f32:32:32-f64:64:64-v16:16:16-v24:32:32"
    ++ "-v32:32:32-v48:64:64-v64:64:64-v96:128:128-v128:128:128-v192:256:256-v256:256:256" ++
    "-v512:512:512-v1024:1024:1024-n8:16:32"

def supportedTriple (triple : String) : Bool :=
  let start := "air64_v27-apple-macosx".toList
  let version := triple.toList.drop start.length
  start.isPrefixOf triple.toList && version.head?.any digit && version.all fun c =>
    digit c || c == '.'

def targets : AirStep Unit := do
  whenM (take "source_filename") do
    require "="
    let _ ← quoted
  require "target"
  require "datalayout"
  require "="
  let layout ← quoted
  refuseIf (layout ≠ validatedLayout) "AIR data layout is not the validated 64-bit AIR 2.7 layout"
  require "target"
  require "triple"
  require "="
  let triple ← quoted
  refuseIf (!supportedTriple triple) "Only AIR 2.7 macOS target triples are supported"

def threadType : AirStep Unit := do
  if ← take "<" then do
    require "3"
    require "x"
    require "i32"
    require ">"
    editFields fun f => { f with vectorThread := true }
  else require "i32"

def parameters : AirStep Unit := do
  pointerType
  argumentDecorations
  let buffer ← ssaName
  editFields fun f => { f with bufferSsa := buffer }
  require ","
  threadType
  let _ ← take "noundef"
  let thread ← ssaName
  editFields fun f => { f with threadSsa := thread }
  refuseIf (thread = buffer) "Duplicate AIR argument"

def Fields.arguments (f : Fields) : List (String × AirValue) :=
  [(f.bufferSsa, ⟨.pointer, "mellow_buffer0", false, false⟩),
    (f.threadSsa, ⟨if f.vectorThread then .thread3 else .u32, "mellow_gid",
    !f.vectorThread, false⟩)]

def header : AirStep Unit := do
  require "define"
  let _ ← take "weak_odr"
  require "void"
  require "@"
  let f ← fields
  let n ← name
  refuseIf (n ≠ f.entry) "AIR requested entry mismatch"
  require "("
  parameters
  require ")"
  let _ ← take "local_unnamed_addr"
  whenM (take "#") do
    let id ← decimal UINT32_MAX
    editFields fun f => { f with functionAttributes := some id }
  require "\x7b"
  editFields fun f => { f with values := f.arguments }

def label : AirStep Unit := do
  let s ← get
  if s.next.peek.text = ":" then do
    let _ ← consume
    require ":"
  else pure ()

def trailer : AirStep Unit := do
  whenM (take "attributes") attributeDefinition
  let f ← fields
  refuseIf (f.functionAttributes.isSome && !f.attributesSeen) "Missing AIR function attribute group"
  let s ← get
  metadataDefinitions s.tokens.length
  validateMetadata

def Fields.result (f : Fields) : CompileResult where
  success := true
  openclSource :=
    "// Mellow AIR 2.7 SSA subset; host must enforce exact 1D dispatch.\n" ++ kernelHead f.entry ++
      f.body ++ "\x7d\n"
  reflection :=
    { entry := f.entry
      threadIndexName := f.threadName
      buffers := [⟨f.bufferName, 0, "uint", true⟩] }

def run : AirStep CompileResult := do
  let f ← fields
  refuseIf (!identifier f.entry || f.entry ∈ reserved || f.entry.toList.head? == some '_')
    "Unsupported AIR entry identifier"
  targets
  header
  label
  instructions MaxStatements
  require "ret"
  require "void"
  require "\x7d"
  trailer
  let f ← fields
  refuseIf (f.stores = 0) "AIR kernel must store to its current thread element"
  return f.result

/-- The parser's result, or a message where anything was refused. -/
def compileTokens (entry : String) : Except String (List Token × Place) → CompileResult
  | .error message => { diagnostics := [message] }
  | .ok (tokens, last) =>
    match run { tokens := tokens, last := last, fields := { entry := entry } } with
    | .error message => { diagnostics := [message] }
    | .ok (result, _) => result

def compileAirText (ir entry : String) : CompileResult := compileTokens entry (lex ir true)

end Kernel

end Mellow.ShaderJit.Air
