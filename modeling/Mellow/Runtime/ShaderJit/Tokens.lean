import Mellow.Lib.CGrammar
import Mellow.Lib.Parse

/-!
# Tokens of the Shader Compiler

`lex` and the class `Tokens` of `ShaderJit.cpp`, which both front ends are built
on. A source with a byte above 127 is refused, so characters and bytes are the
same thing below that check.

`scan` decides what starts at a character, and `lexLoop` passes over it. The
vector of tokens always ends with an empty one, of which only the place is kept.
The parser of each front end adds fields of its own to the state.

## Main definitions

* `lex`: the lexer.
* `Tokenizes`: the lexer as a relation.
* `Scan`: the state of a parser.
* `require`: passing a given token.

## Theorems

* `lex_tokenizes`: a lexer that comes through has read its tokens.
* `yields_require`: what a passed token says.
-/

namespace Mellow.ShaderJit

open Lib

def MaxSourceBytes : Nat := 65536

def MaxTokens : Nat := 8192

def MaxAstNodes : Nat := 4096

def MaxStatements : Nat := 256

def MaxExpressionDepth : Nat := 64

structure Token where
  text : String
  line : Nat
  column : Nat
  quoted : Bool
  deriving DecidableEq, Repr

section Lexer

abbrev alpha := isLetter

abbrev digit := isDigit

abbrev identifier := isName

def hex (c : Char) : Bool := digit c || ('a' ≤ c && c ≤ 'f') || ('A' ≤ c && c ≤ 'F')

structure Place where
  line : Nat
  column : Nat
  deriving DecidableEq, Repr

def Place.advance (p : Place) (c : Char) : Place :=
  if c = '\n' then ⟨p.line + 1, 1⟩ else ⟨p.line, p.column + 1⟩

/-- Something to pass over, or a token, with its length. -/
inductive Item where
  | gap (length : Nat)
  | word (text : String) (quoted : Bool) (length : Nat)

def blockLength : List Char → Option Nat
  | [] => none
  | [_] => none
  | c :: d :: cs => if c = '*' ∧ d = '/' then some 0 else (blockLength (d :: cs)).map (· + 1)

def pairs : List String :=
  ["<<", ">>", "++", "--", "+=", "-=", "*=", "/=", "%=", "&=", "|=", "^=", "==", "<=", ">=", "&&",
    "||"]

def permitted (air : Bool) : String :=
  if air then "@%!#=\x7b\x7d(),<>*:-+[]" else "#<>[]\x7b\x7d()*+-/%&|^~;,="

def Item.plain (cs : List Char) : Item := .word (String.ofList cs) false cs.length

/-- A number whose digits are `body`, with the suffix that may follow them. -/
def numberItem (air : Bool) (cs body : List Char) : Item :=
  if !air && ((cs.drop body.length).head? == some 'u' ||
      (cs.drop body.length).head? == some 'U') then
    .plain (cs.take (body.length + 1))
  else .plain body

def scanNumber (air : Bool) (cs : List Char) : Except String Item :=
  if !air && cs.take 2 == ['0', 'x'] then
    if ((cs.drop 2).takeWhile hex).isEmpty then .error "Malformed hexadecimal literal"
    else .ok (numberItem air cs (cs.take 2 ++ (cs.drop 2).takeWhile hex))
  else .ok (numberItem air cs (cs.takeWhile digit))

def scanString (cs : List Char) : Except String Item :=
  let body := cs.takeWhile (· != '"')
  if body.any (fun c => c == '\\' || c == '\n' || c == '\r') then
    .error "Escaped/multiline LLVM strings are unsupported"
  else if body.length = cs.length then .error "Unterminated LLVM string"
  else .ok (.word (String.ofList body) true (body.length + 2))

/-- A character of the punctuation, with the ones that belong to it. -/
def scanPunct (air : Bool) (p : Place) (c : Char) (cs : List Char) : Except String Item :=
  if c ∉ (permitted air).toList then
    .error ("Unsupported character at " ++ toString p.line ++ ":" ++ toString p.column)
  else
    let pair := String.ofList ((c :: cs).take 2)
    if !air && pair ∈ pairs then
      if (pair = "<<" ∨ pair = ">>") ∧ cs.tail.head? = some '=' then .ok (.plain ((c :: cs).take 3))
      else .ok (.plain ((c :: cs).take 2))
    else .ok (.plain [c])

def scan (air : Bool) (p : Place) (c : Char) (cs : List Char) : Except String Item :=
  if c = ' ' ∨ c = '\t' ∨ c = '\r' ∨ c = '\n' then .ok (.gap 1)
  else if (air && c == ';') || (!air && (c :: cs).take 2 == ['/', '/']) then
    .ok (.gap ((c :: cs).takeWhile (· != '\n')).length)
  else if !air && (c :: cs).take 2 == ['/', '*'] then
    match blockLength cs.tail with
    | none => .error "Unterminated block comment"
    | some n => .ok (.gap (n + 4))
  else if alpha c || (air && c == '.') then
    .ok (.plain ((c :: cs).takeWhile fun c => alpha c || digit c || (air && c == '.')))
  else if digit c then scanNumber air (c :: cs)
  else if air && c == '"' then scanString cs
  else scanPunct air p c cs

/-- The loop of the lexer, with the characters still to be passed over. -/
def lexLoop (air : Bool) : List Char → Nat → Place → Nat → Except String (List Token × Place)
  | [], _, p, _ => .ok ([], p)
  | c :: cs, skip + 1, p, n => lexLoop air cs skip (p.advance c) n
  | c :: cs, 0, p, n => do
    match ← scan air p c cs with
    | .gap length => lexLoop air cs (length - 1) (p.advance c) n
    | .word text quoted length =>
      if n + 1 > MaxTokens then .error "Token budget exceeded"
      else
        let (tokens, last) ← lexLoop air cs (length - 1) (p.advance c) (n + 1)
        .ok (⟨text, p.line, p.column, quoted⟩ :: tokens, last)

def lex (source : String) (air : Bool) : Except String (List Token × Place) :=
  if source.utf8ByteSize = 0 ∨ source.utf8ByteSize > MaxSourceBytes then
    .error "Source size must be 1..65536 bytes"
  else if source.toList.any (fun c => c.toNat = 0 ∨ c.toNat > 127) then
    .error "NUL and non-ASCII source are unsupported"
  else lexLoop air source.toList 0 ⟨1, 1⟩ 0

theorem utf8ByteSize_ofList (cs : List Char) :
    (String.ofList cs).utf8ByteSize = (cs.map Char.utf8Size).sum := by
  induction cs with
  | nil => rfl
  | cons c cs ih => simp [*]

theorem lex_ofList (cs : List Char) (air : Bool) :
    lex (String.ofList cs) air =
      if (cs.map Char.utf8Size).sum = 0 ∨ (cs.map Char.utf8Size).sum > MaxSourceBytes then
        .error "Source size must be 1..65536 bytes"
      else if cs.any (fun c => c.toNat = 0 ∨ c.toNat > 127) then
        .error "NUL and non-ASCII source are unsupported"
      else lexLoop air cs 0 ⟨1, 1⟩ 0 := by
  rw [lex, String.toList_ofList, utf8ByteSize_ofList]

end Lexer

section Words

variable {air : Bool} {c : Char} {cs : List Char} {ws : List String}

/-- The words that the lexer finds in a text, from anywhere. -/
def Tokenizes (air : Bool) (cs : List Char) (ws : List String) : Prop :=
  ∃ p n tokens last, lexLoop air cs 0 p n = .ok (tokens, last) ∧ ws = tokens.map (·.text)

theorem lexLoop_skip (air : Bool) (cs : List Char) (k : Nat) (p : Place) (n : Nat) :
    ∃ p', lexLoop air cs k p n = lexLoop air (cs.drop k) 0 p' n := by
  induction cs generalizing k p with
  | nil => exact ⟨p, by rw [List.drop_nil]; rfl⟩
  | cons c cs ih =>
    cases k with
    | zero => exact ⟨p, rfl⟩
    | succ k => exact ih k _

theorem Tokenizes.nil (h : Tokenizes air [] ws) : ws = [] := by
  rcases h with ⟨p, n, tokens, last, h, rfl⟩
  cases h
  rfl

theorem Tokenizes.step (h : Tokenizes air (c :: cs) ws) :
    ∃ p item, scan air p c cs = .ok item ∧
      match item with
      | .gap k => Tokenizes air (cs.drop (k - 1)) ws
      | .word text _ k => ∃ vs, ws = text :: vs ∧ Tokenizes air (cs.drop (k - 1)) vs := by
  rcases h with ⟨p, n, tokens, last, h, rfl⟩
  rw [lexLoop] at h
  cases hscan : scan air p c cs with
  | error e =>
    rw [hscan] at h
    cases h
  | ok item =>
    rw [hscan] at h
    refine ⟨p, item, hscan, ?_⟩
    cases item with
    | gap k =>
      rcases lexLoop_skip air cs (k - 1) (p.advance c) n with ⟨p', hskip⟩
      exact ⟨p', n, tokens, last, hskip ▸ h, rfl⟩
    | word text quoted k =>
      rcases lexLoop_skip air cs (k - 1) (p.advance c) (n + 1) with ⟨p', hskip⟩
      change (if n + 1 > MaxTokens then _ else _) = _ at h
      split_ifs at h with hbudget
      cases hrest : lexLoop air cs (k - 1) (p.advance c) (n + 1) with
      | error e =>
        rw [hrest] at h
        cases h
      | ok r =>
        rw [hrest] at h
        cases h
        exact ⟨_, rfl, p', n + 1, r.1, r.2, hskip ▸ hrest, rfl⟩

theorem lex_tokenizes {source : String} {tokens : List Token} {last : Place}
    (h : lex source air = .ok (tokens, last)) :
    Tokenizes air source.toList (tokens.map (·.text)) := by
  unfold lex at h
  split_ifs at h
  exact ⟨_, _, tokens, last, h, rfl⟩

end Words

section Methods

variable {F : Type}

/-- What is left of the tokens, and the fields of a parser. -/
structure Scan (F : Type) where
  tokens : List Token
  last : Place
  fields : F

/-- The steps of a parser with fields of type `F`. -/
abbrev Step (F : Type) := Parser (Scan F) String

def Scan.peek (s : Scan F) : Token := s.tokens.headD ⟨"", s.last.line, s.last.column, false⟩

def Scan.words (s : Scan F) : List String := s.tokens.map (·.text)

def Scan.isAt (s : Scan F) (text : String) : Bool := !s.peek.quoted && s.peek.text == text

def Scan.next (s : Scan F) : Scan F := { s with tokens := s.tokens.tail }

def Scan.put (s : Scan F) (f : F) : Scan F := { s with fields := f }

def peek : Step F Token := do return (← get).peek

def isAt (text : String) : Step F Bool := do return (← get).isAt text

def fields : Step F F := do return (← get).fields

def editFields (f : F → F) : Step F Unit := modify fun s => s.put (f s.fields)

def fail {α : Type} (message : String) : Step F α := do
  let s ← get
  throw (toString s.peek.line ++ ":" ++ toString s.peek.column ++ ": " ++ message)

def refuseIf (c : Bool) (message : String) : Step F Unit :=
  if c then fail message else pure ()

def take (text : String) : Step F Bool := do
  let s ← get
  if s.isAt text then do
    if text ≠ "" then set s.next else pure ()
    return true
  else return false

def require (text : String) : Step F Unit := do
  if ← take text then pure () else fail ("Expected '" ++ text ++ "'")

def pass : Step F String := do
  let s ← get
  set s.next
  return s.peek.text

def name : Step F String := do
  let t ← peek
  if t.quoted || !identifier t.text then fail "Expected an identifier" else pass

def quoted : Step F String := do
  let t ← peek
  if !t.quoted then fail "Expected a string" else pass

def consume : Step F String := do
  if ← isAt "" then fail "Unexpected end of input" else pass

def decimalValue (maximum : Nat) : List Char → Nat → Option Nat
  | [], value => some value
  | c :: cs, value =>
    let d := c.toNat - '0'.toNat
    if !digit c || value > (maximum - d) / 10 || d > maximum then none
    else decimalValue maximum cs (value * 10 + d)

def decimal (maximum : Nat) : Step F Nat := do
  let t ← peek
  refuseIf (t.quoted || t.text.isEmpty) "Expected a decimal integer"
  match decimalValue maximum t.text.toList 0 with
  | none => fail "Decimal integer outside supported range"
  | some value => do
    let _ ← pass
    return value

end Methods

section Runs

variable {F α : Type} {s s' : Scan F}
variable {message text : String} {u : Unit} {a : α} {x : Unit → Step F α}

@[simp] theorem Scan.put_words (s : Scan F) (f : F) : (s.put f).words = s.words := rfl

@[simp] theorem Scan.put_fields (s : Scan F) (f : F) : (s.put f).fields = f := rfl

theorem Scan.next_words (s : Scan F) : s.next.words = s.words.tail := List.map_tail

theorem Scan.peek_text (s : Scan F) : s.peek.text = s.words.headD "" := by
  unfold peek words
  cases s.tokens with
  | nil | cons => rfl

theorem Scan.words_of_peek {s : Scan F} (h : s.peek.text = text)
    (ht : text ≠ "") : s.words = text :: s.next.words := by
  rw [peek_text] at h
  rw [next_words]
  cases hw : s.words with
  | nil =>
    rw [hw] at h
    exact absurd h.symm ht
  | cons t ts =>
    rw [hw] at h
    exact congrArg (· :: ts) h

theorem Scan.peek_of_isAt {s : Scan F} (h : s.isAt text = true) :
    s.peek.text = text :=
  eq_of_beq (Bool.and_eq_true_iff.mp h).2

theorem yields_peek {t : Token} : Yields (peek : Step F Token) s t s' ↔ t = s.peek ∧ s' = s := by
  simp only [peek, yields_bind, yields_get, yields_pure, and_assoc, exists_eq_left, exists_and_left]

theorem yields_isAt {b : Bool} :
    Yields (isAt text : Step F Bool) s b s' ↔ b = s.isAt text ∧ s' = s := by
  simp only [isAt, yields_bind, yields_get, yields_pure, and_assoc, exists_eq_left, exists_and_left]

theorem yields_fields {f : F} :
    Yields (fields : Step F F) s f s' ↔ f = s.fields ∧ s' = s := by
  simp only [fields, yields_bind, yields_get, yields_pure, and_assoc, exists_eq_left,
    exists_and_left]

theorem yields_editFields {f : F → F} :
    Yields (editFields f : Step F Unit) s u s' ↔ s' = s.put (f s.fields) :=
  yields_modify

theorem yields_fail : ¬Yields (fail message : Step F α) s a s' := by
  intro h
  rcases yields_bind.mp h with ⟨_, _, _, h⟩
  exact yields_throw h

theorem yields_refuseIf {c : Bool} :
    Yields (refuseIf c message : Step F Unit) s u s' ↔ c = false ∧ s' = s := by
  rw [refuseIf, yields_ite]
  constructor
  · rintro (⟨_, h⟩ | ⟨hc, h⟩)
    · exact absurd h yields_fail
    · exact ⟨Bool.eq_false_iff.mpr hc, (yields_pure.mp h).2⟩
  · rintro ⟨hc, h⟩
    exact .inr ⟨Bool.eq_false_iff.mp hc, yields_pure.mpr ⟨rfl, h⟩⟩

theorem yields_fields_bind {x : F → Step F α} (h : Yields (fields >>= x) s a s') :
    Yields (x s.fields) s a s' := by
  rcases h.bind yields_fields.mp with ⟨_, _, ⟨rfl, rfl⟩, h⟩
  exact h

theorem yields_refuseIf_bind {c : Bool}
    (h : Yields (refuseIf c message >>= x) s a s') : c = false ∧ Yields (x ()) s a s' := by
  rcases h.bind yields_refuseIf.mp with ⟨_, _, ⟨hc, rfl⟩, h₁⟩
  exact ⟨hc, h₁⟩

theorem yields_editFields_bind {f : F → F}
    (h : Yields (editFields f >>= x) s a s') : Yields (x ()) (s.put (f s.fields)) a s' := by
  rcases yields_bind.mp h with ⟨_, _, hedit, h⟩
  rwa [yields_editFields.mp hedit] at h

theorem yields_take (ht : text ≠ "") {b : Bool}
    (h : Yields (take text : Step F Bool) s b s') :
    (b = true ∧ s.isAt text = true ∧ s' = s.next) ∨ (b = false ∧ s.isAt text = false ∧ s' = s) := by
  rcases yields_bind.mp h with ⟨_, _, hget, h⟩
  rw [yields_get] at hget
  rcases hget with ⟨rfl, rfl⟩
  rcases yields_ite.mp h with ⟨hat, h⟩ | ⟨hat, h⟩
  · rw [if_pos ht] at h
    cases h
    exact .inl ⟨rfl, hat, rfl⟩
  · rw [yields_pure] at h
    exact .inr ⟨h.1, Bool.eq_false_iff.mpr hat, h.2⟩

theorem yields_require (ht : text ≠ "")
    (h : Yields (require text : Step F Unit) s u s') :
    s.words = text :: s'.words ∧ s'.fields = s.fields := by
  rcases yields_bind.mp h with ⟨b, t, htake, h⟩
  rcases yields_take ht htake with ⟨rfl, hat, rfl⟩ | ⟨rfl, _, _⟩
  · rw [(yields_pure.mp h).2]
    exact ⟨Scan.words_of_peek (Scan.peek_of_isAt hat) ht, rfl⟩
  · exact absurd h yields_fail

theorem yields_require_bind (ht : text ≠ "")
    (h : Yields (require text >>= x) s a s') :
    ∃ t, s.words = text :: t.words ∧ t.fields = s.fields ∧ Yields (x ()) t a s' := by
  rcases yields_bind.mp h with ⟨_, t, hreq, h₁⟩
  rcases yields_require ht hreq with ⟨hwords, hfields⟩
  exact ⟨t, hwords, hfields, h₁⟩

theorem yields_requires (l : List String) (hl : ∀ w ∈ l, w ≠ "") {x : Step F α}
    (h : Yields (l.foldr (fun w k => require w >>= fun _ => k) x) s a s') :
    ∃ t, s.words = l ++ t.words ∧ t.fields = s.fields ∧ Yields x t a s' := by
  induction l generalizing s with
  | nil => exact ⟨s, rfl, rfl, h⟩
  | cons w l ih =>
    rcases yields_require_bind (hl w List.mem_cons_self) h with ⟨t, hw, hf, h⟩
    rcases ih (fun v hv => hl v (List.mem_cons_of_mem w hv)) h with ⟨u, hw', hf', h⟩
    exact ⟨u, by rw [hw, hw', List.cons_append], hf'.trans hf, h⟩

theorem yields_requires_last (l : List String) (w : String) (hl : ∀ v ∈ w :: l, v ≠ "")
    (h : Yields (l.foldr (fun w k => require w >>= fun _ => k) (require w : Step F Unit)) s u s') :
    s.words = l ++ w :: s'.words ∧ s'.fields = s.fields := by
  rcases yields_requires l (fun v hv => hl v (List.mem_cons_of_mem w hv)) h with ⟨t, hw, hf, h₁⟩
  rcases yields_require (hl w List.mem_cons_self) h₁ with ⟨hw₁, hf₁⟩
  exact ⟨by rw [hw, hw₁], hf₁.trans hf⟩

theorem yields_take_bind (ht : text ≠ "") {x : Bool → Step F α}
    (h : Yields (take text >>= x) s a s') :
    (∃ t, s.words = text :: t.words ∧ t.fields = s.fields ∧ Yields (x true) t a s') ∨
      Yields (x false) s a s' := by
  rcases yields_bind.mp h with ⟨b, t, htake, h₁⟩
  rcases yields_take ht htake with ⟨rfl, hat, rfl⟩ | ⟨rfl, _, rfl⟩
  · exact .inl ⟨_, Scan.words_of_peek (Scan.peek_of_isAt hat) ht, rfl, h₁⟩
  · exact .inr h₁

/-- What may be there stands behind a token that tells. -/
theorem yields_whenM_take (ht : text ≠ "") {x : Step F Unit}
    (h : Yields (whenM (take text) x) s u s') :
    (∃ t, s.words = text :: t.words ∧ t.fields = s.fields ∧ Yields x t u s') ∨ s' = s :=
  (yields_take_bind ht h).imp_right fun h => (yields_pure.mp h).2

theorem yields_pass :
    Yields (pass : Step F String) s text s' ↔ text = s.peek.text ∧ s' = s.next := by
  change Except.ok (s.peek.text, s.next) = _ ↔ _
  rw [Except.ok.injEq, Prod.mk.injEq]
  exact and_congr eq_comm eq_comm

theorem yields_name (h : Yields (name : Step F String) s text s') :
    isName text = true ∧ s.words = text :: s'.words ∧ s'.fields = s.fields := by
  rcases h.bind yields_peek.mp with ⟨t, _, ⟨rfl, rfl⟩, h⟩
  rcases yields_ite.mp h with ⟨_, h⟩ | ⟨hcheck, h⟩
  · exact absurd h yields_fail
  · rcases yields_pass.mp h with ⟨htext, rfl⟩
    simp only [Bool.or_eq_true, Bool.not_eq_true', not_or, Bool.not_eq_false] at hcheck
    have hname : isName text = true := htext ▸ hcheck.2
    refine ⟨hname, Scan.words_of_peek htext.symm ?_, rfl⟩
    rintro rfl
    exact absurd hname (by decide)

theorem yields_consume (h : Yields (consume : Step F String) s text s') :
    s.peek.text = text ∧ s' = s.next := by
  rcases h.bind yields_isAt.mp with ⟨b, _, ⟨rfl, rfl⟩, h⟩
  rcases yields_ite.mp h with ⟨_, h⟩ | ⟨_, h⟩
  · exact absurd h yields_fail
  · rcases yields_pass.mp h with ⟨htext, rfl⟩
    exact ⟨htext.symm, rfl⟩

theorem yields_decimal {maximum value : Nat}
    (h : Yields (decimal maximum : Step F Nat) s value s') :
    ∃ text, s.words = text :: s'.words ∧ text ≠ "" ∧
      decimalValue maximum text.toList 0 = some value ∧ s'.fields = s.fields := by
  rcases h.bind yields_peek.mp with ⟨t, _, ⟨rfl, rfl⟩, h₁⟩
  rcases h₁.bind yields_refuseIf.mp with ⟨_, _, ⟨hcheck, rfl⟩, h₂⟩
  rw [Bool.or_eq_false_iff] at hcheck
  cases hvalue : decimalValue maximum (Scan.peek _).text.toList 0 with
  | none =>
    rw [hvalue] at h₂
    exact absurd h₂ yields_fail
  | some v =>
    rw [hvalue] at h₂
    rcases h₂.bind yields_pass.mp with ⟨text, _, ⟨htext, rfl⟩, h₃⟩
    rcases yields_pure.mp h₃ with ⟨rfl, rfl⟩
    have hne : text ≠ "" := by
      rintro rfl
      rw [← htext] at hcheck
      exact absurd hcheck.2 (by decide)
    rw [← htext] at hvalue
    exact ⟨text, Scan.words_of_peek htext.symm hne, hne, hvalue, rfl⟩

theorem decimalValue_zero {maximum : Nat} {cs : List Char} {n : Nat}
    (h : decimalValue maximum cs n = some 0) : n = 0 ∧ ∀ c ∈ cs, c = '0' := by
  induction cs generalizing n with
  | nil => exact ⟨Option.some.inj h, nofun⟩
  | cons c cs ih =>
    rw [decimalValue] at h
    split_ifs at h with hbad
    rcases ih h with ⟨hn, hcs⟩
    have hdigit : isDigit c = true := by
      simp only [Bool.or_eq_true, not_or, Bool.not_eq_true', Bool.not_eq_false] at hbad
      exact hbad.1.1
    have hle : '0'.toNat ≤ c.toNat := of_decide_eq_true (Bool.and_eq_true_iff.mp hdigit).1
    have hc : c = '0' := by
      have : c.toNat = '0'.toNat := by omega
      exact Char.toNat_inj.mp this
    refine ⟨by omega, fun d hd => ?_⟩
    rcases List.mem_cons.mp hd with rfl | hd
    · exact hc
    · exact hcs d hd

end Runs

end Mellow.ShaderJit
