import Mellow.Lib.CLex

/-!
# Writing Expressions of the C Family

What a program prints has to be read as the expression that was meant: words
must not run together, and must not group in another way. There is a lemma for
each way of putting texts together.

## Main definitions

* `Punctuation`: what is needed of a language's operators.
* `Written`: a text that is a closed phrase wherever it is put.

## Theorems

* `Written.operation`: an operation in parentheses.
* `Written.element`: an element of an array.
-/

namespace Mellow.Lib

def isBracket (c : Char) : Bool := c ∈ "()[]\x7b\x7d;,".toList

/-- The signs, the binary operators apart from the comma, and the equals
    sign. -/
def operators : List String := ["+", "-", "~", "*", "/", "%", "&", "|", "^", "<<", ">>", "="]

/-- Operators that leave brackets, names and constants alone. -/
structure Punctuation (compound : List (List Char)) : Prop where
  nonempty : ∀ u ∈ compound, u ≠ []
  punct : ∀ u ∈ compound, ∀ c ∈ u, isPunct c = true ∧ isBracket c = false
  word : ∀ op ∈ operators, munch compound op.toList = some (op.toList, [])

section Characters

variable {compound : List (List Char)} {c : Char} {rest : List Char} {op : String}

theorem isBracket_plain (hc : isBracket c = true) :
    isPunct c = true ∧ c ≠ '.' ∧ c ≠ '/' ∧ c ≠ '*' ∧ isAlnum c = false ∧ isPlusMinus c = false := by
  have hall : "()[]\x7b\x7d;,".toList.all (fun c => isPunct c = true ∧ c ≠ '.' ∧ c ≠ '/' ∧ c ≠ '*' ∧
      isAlnum c = false ∧ isPlusMinus c = false) = true := by
    decide
  exact of_decide_eq_true (List.all_eq_true.mp hall c (of_decide_eq_true hc))

theorem stops_bracket (hc : isBracket c = true) : Stops (c :: rest) := by
  intro d hd
  rw [← Option.some.inj hd]
  rcases isBracket_plain hc with ⟨_, hdot, _, _, halnum, hsign⟩
  exact ⟨halnum, hdot, hsign⟩

theorem stops_blank : Stops (' ' :: rest) := by
  intro d hd
  rw [← Option.some.inj hd]
  decide

theorem Punctuation.joins_bracket (hp : Punctuation compound) (hc : isBracket c = true) :
    joins compound c = false := by
  rcases isBracket_plain hc with ⟨_, _, hslash, hstar, _⟩
  simp only [joins, Bool.or_eq_false_iff, beq_eq_false_iff_ne, List.any_eq_false]
  refine ⟨⟨hslash, hstar⟩, fun u hu hmem => ?_⟩
  rw [(hp.punct u hu c (List.contains_iff_mem.mp hmem)).2] at hc
  cases hc

theorem Punctuation.joins_other (hp : Punctuation compound) (hc : isPunct c = false) :
    joins compound c = false := by
  simp only [joins, Bool.or_eq_false_iff, beq_eq_false_iff_ne, List.any_eq_false]
  refine ⟨⟨?_, ?_⟩, fun u hu hmem => ?_⟩
  · rintro rfl
    cases hc
  · rintro rfl
    cases hc
  · rw [(hp.punct u hu c (List.contains_iff_mem.mp hmem)).1] at hc
    cases hc

theorem Punctuation.not_space (hp : Punctuation compound) :
    ∀ u ∈ compound, ∀ c ∈ u, isSpace c = false :=
  fun u hu c hc => (isPunct_plain (hp.punct u hu c hc).1).1

theorem Lexes.bracket (hp : Punctuation compound) {t : String} {ts : List String}
    (hc : isBracket c = true) (ht : t.toList = [c]) (h : Lexes true compound rest ts) :
    Lexes true compound (c :: rest) (t :: ts) := by
  rcases isBracket_plain hc with ⟨hpunct, hdot, hslash, _⟩
  refine .plain ht hpunct hdot hslash (List.any_eq_false.mpr fun u hu hhead => ?_) h
  cases u with
  | nil => exact hp.nonempty [] hu rfl
  | cons a u =>
    rw [List.head?_cons, Option.all_some, beq_iff_eq] at hhead
    rw [← hhead, (hp.punct _ hu a List.mem_cons_self).2] at hc
    cases hc

theorem operators_punct (hop : op ∈ operators) :
    ∀ c ∈ op.toList, isPunct c = true ∧ c ≠ '.' := by
  have hall : operators.all (fun op => op.toList.all fun c => isPunct c = true ∧ c ≠ '.') =
    true := by
    decide
  intro c hc
  exact of_decide_eq_true (List.all_eq_true.mp (List.all_eq_true.mp hall op hop) c hc)

theorem isSign_mem (hop : isSign op = true) : op ∈ operators := by
  simp only [isSign, Bool.or_eq_true, decide_eq_true_eq] at hop
  rcases hop with (rfl | rfl) | rfl <;> decide

theorem prec_mem (hop : 1 < prec op) : op ∈ operators := by
  unfold prec at hop
  split_ifs at hop with h1 h2 h3 h4 h5 h6 h7
  · cases Nat.lt_irrefl 1 hop
  · rw [h2]; decide
  · rw [h3]; decide
  · rw [h4]; decide
  · rcases h5 with rfl | rfl <;> decide
  · rcases h6 with rfl | rfl <;> decide
  · rcases h7 with rfl | rfl | rfl <;> decide
  · cases hop

theorem Lexes.operator (hp : Punctuation compound)
    {ts : List String} (hop : op ∈ operators) (hc : joins compound c = false)
    (h : Lexes true compound (c :: rest) ts) :
    Lexes true compound (op.toList ++ c :: rest) (op :: ts) :=
  .apart (hp.word op hop) (operators_punct hop) hc h

end Characters

/-- A text that is an expression, whatever stops its last word. -/
structure Written (compound : List (List Char)) (cs : List Char) (e : CExpr) : Prop where
  lexes : ∃ ws, Phrase 9 ws e ∧
    ∀ rest ts, Stops rest → Lexes true compound rest ts →
      Lexes true compound (cs ++ rest) (ws ++ ts)
  head : ∃ d ds, cs = d :: ds ∧ joins compound d = false

section Expressions

variable {compound : List (List Char)} {cs ds : List Char} {e l r : CExpr}

theorem isAlnum_not_punct {c : Char} (hc : isAlnum c = true) : isPunct c = false := by
  refine Bool.eq_false_iff.mpr fun hpunct => ?_
  rcases isPunct_plain hpunct with ⟨_, hletter, hdigit⟩
  rw [isAlnum, hletter, hdigit] at hc
  cases hc

theorem Written.name (hp : Punctuation compound) {x : String} (hx : isName x = true) :
    Written compound x.toList (.name x) where
  lexes := ⟨[x], .name hx, fun _ _ hstop h => .name hx hstop h⟩
  head := by
    unfold isName at hx
    cases hcs : x.toList with
    | nil =>
      rw [hcs] at hx
      cases hx
    | cons c cs =>
      rw [hcs] at hx
      refine ⟨c, cs, rfl, hp.joins_other (isAlnum_not_punct ?_)⟩
      rw [isAlnum, (Bool.and_eq_true_iff.mp hx).1, Bool.true_or]

/-- A constant, with a point in front only where no operator has one. -/
theorem Written.number {t : String} (ht : isConstant t = true)
    (hhead : ∀ c ∈ t.toList.head?, joins compound c = false) :
    Written compound t.toList (.num t) where
  lexes := ⟨[t], .num (Bool.and_eq_true_iff.mp ht).1, fun _ _ hstop h => .number ht hstop h⟩
  head := by
    cases hcs : t.toList with
    | nil =>
      have hnum := (Bool.and_eq_true_iff.mp ht).1
      unfold isNumber at hnum
      rw [hcs] at hnum
      cases hnum
    | cons c cs => simp [*]

theorem Written.negated (hp : Punctuation compound) {op : String} (hop : isSign op = true)
    (h : Written compound cs e) :
    Written compound ('(' :: (op.toList ++ (cs ++ [')']))) (.paren (.unary op e)) where
  lexes := by
    rcases h.lexes with ⟨ws, hws, hlex⟩
    rcases h.head with ⟨d, ds, rfl, hd⟩
    refine ⟨"(" :: (op :: ws ++ [")"]), ?_, fun rest ts hstop hrest => ?_⟩
    · exact .paren (Phrase.lower (.unary hop (.up (by decide) (by decide) hws)) (by decide)
        (by decide) (by decide))
    · have hclose := hlex (')' :: rest) (")" :: ts) (stops_bracket rfl) (.bracket hp rfl rfl hrest)
      have hsign := Lexes.operator hp (isSign_mem hop) hd hclose
      simp only [List.cons_append, List.append_assoc, List.nil_append]
      exact .bracket hp rfl rfl hsign
  head := ⟨'(', _, rfl, hp.joins_bracket rfl⟩

theorem Written.operation (hp : Punctuation compound) {op : String} (hop : 1 < prec op)
    (hl : Written compound cs l) (hr : Written compound ds r) :
    Written compound ('(' :: (cs ++ ' ' :: (op.toList ++ ' ' :: (ds ++ [')']))))
      (.paren (.binary op l r)) where
  lexes := by
    rcases hl.lexes with ⟨ls, hls, hlexl⟩
    rcases hr.lexes with ⟨rs, hrs, hlexr⟩
    have hle : prec op + 1 ≤ 9 := Nat.le_trans (Nat.succ_le_succ (prec_le op)) (by decide)
    have hpos : 0 < prec op := Nat.lt_of_succ_lt hop
    refine ⟨"(" :: (ls ++ op :: rs ++ [")"]), ?_, fun rest ts hstop hrest => ?_⟩
    · refine .paren (Phrase.lower (.binary hpos ?_ ?_) (by decide) hpos (Nat.le_of_succ_le hle))
      · exact hls.lower hpos (Nat.le_of_succ_le hle) (Nat.le_refl 9)
      · exact hrs.lower (Nat.succ_pos _) hle (Nat.le_refl 9)
    · have hclose := hlexr (')' :: rest) (")" :: ts) (stops_bracket rfl) (.bracket hp rfl rfl hrest)
      have hoperator := Lexes.operator hp (prec_mem hop) (hp.joins_other rfl)
        (.blank (c := ' ') rfl hclose)
      have hleft := hlexl _ _ stops_blank (.blank (c := ' ') rfl hoperator)
      simp only [List.cons_append, List.append_assoc, List.nil_append]
      exact .bracket hp rfl rfl hleft
  head := ⟨'(', _, rfl, hp.joins_bracket rfl⟩

theorem Written.element (hp : Punctuation compound) {a : String} (ha : isName a = true)
    (h : Written compound cs e) :
    Written compound (a.toList ++ '[' :: (cs ++ [']'])) (.index (.name a) e) where
  lexes := by
    rcases h.lexes with ⟨ws, hws, hlex⟩
    refine ⟨[a] ++ "[" :: (ws ++ ["]"]), ?_, fun rest ts hstop hrest => ?_⟩
    · exact .index (.name ha) (hws.lower (by decide) (by decide) (by decide))
    · have hclose := hlex (']' :: rest) ("]" :: ts) (stops_bracket rfl) (.bracket hp rfl rfl hrest)
      have hindex := Lexes.bracket hp (c := '[') (t := "[") rfl rfl hclose
      have hopen := Lexes.name ha (stops_bracket rfl) hindex
      simp only [List.cons_append, List.append_assoc, List.nil_append]
      exact hopen
  head := by
    rcases (Written.name hp ha).head with ⟨d, ds, hds, hd⟩
    rw [hds]
    exact ⟨d, _, rfl, hd⟩

/-- The right side of a declaration or an assignment, up to the end of its
    line. -/
theorem Written.initializer (hp : Punctuation compound) (h : Written compound cs e) :
    ∃ ws, Phrase 2 ws e ∧ ∀ rest ts, Lexes true compound rest ts →
      Lexes true compound (' ' :: '=' :: ' ' :: (cs ++ ';' :: '\n' :: rest))
        ("=" :: (ws ++ ";" :: ts)) := by
  rcases h.lexes with ⟨ws, hws, hlex⟩
  refine ⟨ws, hws.lower (by decide) (by decide) (by decide), fun rest ts hrest => ?_⟩
  have hline : Lexes true compound ('\n' :: rest) ts := .blank rfl hrest
  have hvalue := hlex (';' :: '\n' :: rest) (";" :: ts) (stops_bracket rfl)
    (.bracket hp rfl rfl hline)
  have hop : "=" ∈ operators := by decide
  have hequals := Lexes.operator hp hop (hp.joins_other (c := ' ') rfl) (.blank rfl hvalue)
  exact .blank rfl hequals

end Expressions

end Mellow.Lib
