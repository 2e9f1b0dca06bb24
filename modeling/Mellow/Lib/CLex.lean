import Mathlib.Data.List.Find
import Mellow.Lib.CGrammar

/-!
# Words of the C Family

How a text splits into words: white space and comments separate them, and a word
is as long as it can be. The operators of more than one character are a
parameter. A text outside of what is covered (quotes, letters beyond ASCII) has
no words at all.

A program that writes a text has to keep its words apart. The last section adds
one word in front of the rest of a text, under a condition on the next
character.

## Main definitions

* `munch`: the longest word in front.
* `Lexes`: a text and its words.
* `Stops`: a rest that goes on with no word.

## Theorems

* `Lexes.unique`: a text never has two lists of words.
* `Lexes.name`: a name in front of a rest.
* `Lexes.number`: a number in front of a rest.
-/

namespace Mellow.Lib

def isSpace (c : Char) : Bool :=
  c == ' ' || c == '\t' || c == '\r' || c == '\n' || c == '\x0b' || c == '\x0c'

def isAlnum (c : Char) : Bool := isLetter c || isDigit c

def isExponent (c : Char) : Bool := c == 'e' || c == 'E' || c == 'p' || c == 'P'

def isPlusMinus (c : Char) : Bool := c == '+' || c == '-'

def isPunct (c : Char) : Bool := c ∈ "[]()\x7b\x7d.&*+-~!/%<>^|?:;=,#".toList

/-- The rest of a constant, and what follows. A sign may follow an exponent. -/
def numberRest : List Char → List Char × List Char
  | [] => ([], [])
  | [c] => if isAlnum c || c == '.' then ([c], []) else ([], [c])
  | c :: d :: cs =>
    if isExponent c && isPlusMinus d then
      (c :: d :: (numberRest cs).1, (numberRest cs).2)
    else if isAlnum c || c == '.' then
      (c :: (numberRest (d :: cs)).1, (numberRest (d :: cs)).2)
    else ([], c :: d :: cs)

/-- The longest operator that a text starts with. -/
def munchPunct (compound : List (List Char)) (cs : List Char) : Option (List Char × List Char) :=
  match compound.find? (fun w => w.isPrefixOf cs) with
  | some w => some (w, cs.drop w.length)
  | none =>
    match cs with
    | [] => none
    | c :: cs => if isPunct c then some ([c], cs) else none

/-- The longest word in front. Longer operators are listed first. -/
def munch (compound : List (List Char)) : List Char → Option (List Char × List Char)
  | [] => none
  | c :: cs =>
    if isLetter c then some ((c :: cs).takeWhile isAlnum, (c :: cs).dropWhile isAlnum)
    else if isDigit c || (c == '.' && (cs.head?.any isDigit)) then
      some (c :: (numberRest cs).1, (numberRest cs).2)
    else if c == '/' && (cs.head? == some '/' || cs.head? == some '*') then none
    else munchPunct compound (c :: cs)

/-- What follows a comment of several lines. -/
def afterBlock : List Char → Option (List Char)
  | [] => none
  | [_] => none
  | c :: d :: cs => if c = '*' ∧ d = '/' then some cs else afterBlock (d :: cs)

/-- The words of a text. A comment goes on over a joined line. -/
inductive Lexes (joined : Bool) (compound : List (List Char)) : List Char → List String → Prop where
  | nil : Lexes joined compound [] []
  | blank {c : Char} {cs : List Char} {ts : List String} (hc : isSpace c = true)
      (h : Lexes joined compound cs ts) : Lexes joined compound (c :: cs) ts
  | line {cs : List Char} {ts : List String}
      (hcs : joined = true → (cs.takeWhile (· != '\n')).getLast? ≠ some '\\')
      (h : Lexes joined compound (cs.dropWhile (· != '\n')) ts) :
      Lexes joined compound ('/' :: '/' :: cs) ts
  | block {cs rest : List Char} {ts : List String} (hcs : afterBlock cs = some rest)
      (h : Lexes joined compound rest ts) : Lexes joined compound ('/' :: '*' :: cs) ts
  | word {cs w rest : List Char} {ts : List String} (hspace : ∀ c ∈ cs.head?, isSpace c = false)
      (hw : munch compound cs = some (w, rest)) (h : Lexes joined compound rest ts) :
      Lexes joined compound cs (String.ofList w :: ts)

theorem Lexes.unique {joined : Bool} {compound : List (List Char)} {cs : List Char}
    {ts ts' : List String} (h : Lexes joined compound cs ts)
    (h' : Lexes joined compound cs ts') : ts = ts' := by
  induction h generalizing ts' with
  | nil =>
    cases h' with
    | nil => rfl
    | word _ hw => cases hw
  | blank hc _ ih =>
    cases h' with
    | blank _ h' => exact ih h'
    | line | block => exact absurd hc (by decide)
    | word hspace _ _ => rw [hspace _ rfl] at hc; cases hc
  | line _ _ ih =>
    cases h' with
    | blank hc _ => exact absurd hc (by decide)
    | line _ h' => exact ih h'
    | word _ hw _ => cases hw
  | block hcs _ ih =>
    cases h' with
    | blank hc _ => exact absurd hc (by decide)
    | block hcs' h' =>
      rw [hcs] at hcs'
      rw [Option.some.inj hcs'] at ih
      exact ih h'
    | word _ hw _ => cases hw
  | word hspace hw _ ih =>
    cases h' with
    | nil | line | block => cases hw
    | blank hc _ => rw [hspace _ rfl] at hc; cases hc
    | word _ hw' h' =>
      rw [hw] at hw'
      cases hw'
      rw [ih h']

section Writing

variable {joined : Bool} {compound : List (List Char)}
variable {w : String} {rest : List Char} {ts : List String} {c d : Char}

/-- The next character cannot go on with a name or a constant. -/
def Stops (cs : List Char) : Prop :=
  ∀ c ∈ cs.head?, isAlnum c = false ∧ c ≠ '.' ∧ isPlusMinus c = false

/-- The character may change what an operator right before it is. -/
def joins (compound : List (List Char)) (d : Char) : Bool :=
  d == '/' || d == '*' || compound.any (fun u => u.contains d)

/-- Some operator of several characters starts with the character. -/
def opens (compound : List (List Char)) (c : Char) : Bool :=
  compound.any (fun u => u.head?.all (· == c))

theorem Lexes.front
    (hspace : ∀ c ∈ (w.toList ++ rest).head?, isSpace c = false)
    (hw : munch compound (w.toList ++ rest) = some (w.toList, rest))
    (h : Lexes joined compound rest ts) : Lexes joined compound (w.toList ++ rest) (w :: ts) := by
  have := Lexes.word hspace hw h
  rwa [String.ofList_toList] at this

theorem isLetter_not_space (h : isLetter c = true) : isSpace c = false := by
  refine Bool.eq_false_iff.mpr fun hs => ?_
  simp only [isSpace, Bool.or_eq_true, beq_iff_eq] at hs
  rcases hs with ((((rfl | rfl) | rfl) | rfl) | rfl) | rfl <;> exact absurd h (by decide)

theorem isDigit_not_space (h : isDigit c = true) : isSpace c = false := by
  refine Bool.eq_false_iff.mpr fun hs => ?_
  simp only [isSpace, Bool.or_eq_true, beq_iff_eq] at hs
  rcases hs with ((((rfl | rfl) | rfl) | rfl) | rfl) | rfl <;> exact absurd h (by decide)

theorem isPunct_mem (h : isPunct c = true) : c ∈ "[]()\x7b\x7d.&*+-~!/%<>^|?:;=,#".toList := by
  exact of_decide_eq_true h

theorem isPunct_plain (h : isPunct c = true) :
    isSpace c = false ∧ isLetter c = false ∧ isDigit c = false := by
  have hall : "[]()\x7b\x7d.&*+-~!/%<>^|?:;=,#".toList.all
      (fun c => isSpace c = false ∧ isLetter c = false ∧ isDigit c = false) = true := by
    decide
  exact of_decide_eq_true (List.all_eq_true.mp hall c (isPunct_mem h))

theorem Lexes.name (hw : isName w = true)
    (hrest : Stops rest) (h : Lexes joined compound rest ts) :
    Lexes joined compound (w.toList ++ rest) (w :: ts) := by
  unfold isName at hw
  cases hcs : w.toList with
  | nil =>
    rw [hcs] at hw
    cases hw
  | cons c cs =>
    rw [hcs] at hw
    dsimp only at hw
    rcases Bool.and_eq_true_iff.mp hw with ⟨hc, hall⟩
    rw [← hcs]
    refine .front ?_ ?_ h
    · rw [hcs]
      intro d hd
      rw [← Option.some.inj hd]
      exact isLetter_not_space hc
    · have hword : ∀ d ∈ w.toList, isAlnum d = true := by
        rw [hcs]
        intro d hd
        rcases List.mem_cons.mp hd with rfl | hd
        · rw [isAlnum, hc, Bool.true_or]
        · exact List.all_eq_true.mp hall d hd
      have htake : (w.toList ++ rest).takeWhile isAlnum = w.toList := by
        rw [List.takeWhile_append_of_pos hword]
        cases rest with
        | nil => rw [List.takeWhile_nil, List.append_nil]
        | cons d rest =>
          rw [List.takeWhile_cons_of_neg (by rw [(hrest d rfl).1]; exact Bool.false_ne_true),
            List.append_nil]
      have hdrop : (w.toList ++ rest).dropWhile isAlnum = rest := by
        rw [List.dropWhile_append_of_pos hword]
        cases rest with
        | nil => rfl
        | cons d rest => simp [(hrest d rfl).1]
      rw [hcs, List.cons_append] at htake hdrop ⊢
      rw [munch, if_pos hc, htake, hdrop]

/-- What is read of a constant ends where nothing goes on with it. -/
theorem numberRest_append {w : List Char} (hrest : Stops rest) :
    numberRest (w ++ rest) = ((numberRest w).1, (numberRest w).2 ++ rest) := by
  have hhead : ∀ d ds, rest = d :: ds → (isAlnum d || d == '.') = false ∧
    isPlusMinus d = false := by
    rintro d ds rfl
    rcases hrest d rfl with ⟨halnum, hdot, hsign⟩
    exact ⟨by rw [halnum, Bool.false_or, beq_eq_false_iff_ne]; exact hdot, hsign⟩
  have hnil : numberRest rest = ([], rest) := by
    cases rest with
    | nil => rfl
    | cons d ds =>
      cases ds with
      | nil => rw [numberRest, if_neg (by rw [(hhead d _ rfl).1]; exact Bool.false_ne_true)]
      | cons d' ds =>
        have hexp : (isExponent d && isPlusMinus d') = false := by
          refine Bool.eq_false_iff.mpr (fun h => ?_)
          have halnum : isAlnum d = true := by
            simp only [isExponent, Bool.and_eq_true, Bool.or_eq_true, beq_iff_eq] at h
            rcases h.1 with ((rfl | rfl) | rfl) | rfl <;> decide
          rw [(hrest d rfl).1] at halnum
          cases halnum
        rw [numberRest, if_neg (by rw [hexp]; exact Bool.false_ne_true),
          if_neg (by rw [(hhead d _ rfl).1]; exact Bool.false_ne_true)]
  -- A sign after the last character would go on with a constant.
  have hlast : ∀ c d ds, rest = d :: ds → ¬(isExponent c && isPlusMinus d) = true := by
    intro c d ds heq
    rw [(hhead d ds heq).2, Bool.and_false]
    exact Bool.false_ne_true
  induction w using numberRest.induct with
  | case1 => exact hnil
  | case2 c hc =>
    have hone : numberRest [c] = ([c], []) := if_pos hc
    rw [hone]
    cases rest with
    | nil => exact hone
    | cons d ds =>
      rw [List.singleton_append, numberRest, if_neg (hlast c d ds rfl), if_pos hc, hnil]
      rfl
  | case3 c hc =>
    have hone : numberRest [c] = ([], [c]) := if_neg hc
    rw [hone]
    cases rest with
    | nil => exact hone
    | cons d ds =>
      rw [List.singleton_append, numberRest, if_neg (hlast c d ds rfl), if_neg hc]
  | case4 c d cs hexp ih => simp [List.cons_append, numberRest, *]
  | case5 c d cs hexp hc ih =>
    rw [List.cons_append, List.cons_append, numberRest, if_neg hexp, if_pos hc,
      ← List.cons_append, ih, numberRest, if_neg hexp, if_pos hc]
  | case6 c d cs hexp hc => simp [List.cons_append, numberRest, *]

theorem numberRest_alnum {w : List Char} (hw : ∀ c ∈ w, isAlnum c = true) :
    numberRest w = (w, []) := by
  have hdot : ∀ c ∈ w, (isAlnum c || c == '.') = true := fun c hc => by rw [hw c hc, Bool.true_or]
  induction w using numberRest.induct with
  | case1 => rfl
  | case2 c hc => exact if_pos hc
  | case3 c hc => exact absurd (hdot c List.mem_cons_self) hc
  | case4 c d cs hexp ih =>
    -- A sign is neither a letter nor a digit.
    have hd := hw d (by simp)
    simp only [isPlusMinus, Bool.and_eq_true, Bool.or_eq_true, beq_iff_eq] at hexp
    rcases hexp.2 with rfl | rfl <;> exact absurd hd (by decide)
  | case5 c d cs hexp hc ih =>
    have htail := ih (fun e he => hw e (List.mem_cons_of_mem c he))
      (fun e he => hdot e (List.mem_cons_of_mem c he))
    rw [numberRest, if_neg hexp, if_pos hc, htail]
  | case6 c d cs hexp hc => exact absurd (hdot c List.mem_cons_self) hc

def isConstant (w : String) : Bool :=
  isNumber w && (numberRest w.toList.tail == (w.toList.tail, []))

theorem isConstant_alnum {cs : List Char} (hw : w.toList = c :: cs)
    (hc : isDigit c = true) (hcs : ∀ d ∈ cs, isAlnum d = true) : isConstant w = true := by
  refine Bool.and_eq_true_iff.mpr ⟨?_, ?_⟩
  · unfold isNumber
    rw [hw]
    split
    · next heq =>
        rw [(List.cons.inj heq).1] at hc
        exact absurd hc (by decide)
    · next heq =>
        rw [← (List.cons.inj heq).1]
        exact hc
    · next heq => cases heq
  · simp [hw, List.tail_cons, numberRest_alnum hcs]

theorem Lexes.number (hw : isConstant w = true)
    (hrest : Stops rest) (h : Lexes joined compound rest ts) :
    Lexes joined compound (w.toList ++ rest) (w :: ts) := by
  rcases Bool.and_eq_true_iff.mp hw with ⟨hnum, hrun⟩
  have hrun := eq_of_beq hrun
  unfold isNumber at hnum
  cases hcs : w.toList with
  | nil =>
    rw [hcs] at hnum
    cases hnum
  | cons c cs =>
    rw [hcs, List.tail_cons] at hrun
    have hstart : (isDigit c || (c == '.' && (cs ++ rest).head?.any isDigit)) = true := by
      rw [hcs] at hnum
      split at hnum
      · next c' cs' heq =>
          cases heq
          rw [List.cons_append, List.head?_cons, Option.any_some, hnum]
          exact Bool.or_true _
      · next heq =>
          cases heq
          rw [hnum, Bool.true_or]
      · next heq => cases heq
    have hletter : isLetter c = false := by
      refine Bool.eq_false_iff.mpr fun hl => ?_
      rcases Bool.or_eq_true_iff.mp hstart with hd | hd
      · rw [isLetter_not_digit hl] at hd
        cases hd
      · rw [eq_of_beq (Bool.and_eq_true_iff.mp hd).1] at hl
        exact absurd hl (by decide)
    rw [← hcs]
    refine .front ?_ ?_ h
    · rw [hcs]
      intro d hd
      rw [← Option.some.inj hd]
      rcases Bool.or_eq_true_iff.mp hstart with hd | hd
      · exact isDigit_not_space hd
      · rw [eq_of_beq (Bool.and_eq_true_iff.mp hd).1]
        decide
    · rw [hcs, List.cons_append, munch, if_neg (by rw [hletter]; exact Bool.false_ne_true),
        if_pos hstart, numberRest_append hrest, hrun]
      rfl

/-- A character that no longer operator starts with, in front of a text. -/
theorem Lexes.plain {t : String}
    (ht : t.toList = [c]) (hpunct : isPunct c = true) (hdot : c ≠ '.') (hslash : c ≠ '/')
    (hopen : opens compound c = false) (h : Lexes joined compound rest ts) :
    Lexes joined compound (c :: rest) (t :: ts) := by
  rcases isPunct_plain hpunct with ⟨hspace, hletter, hdigit⟩
  have hfind : compound.find? (fun w => w.isPrefixOf (c :: rest)) = none := by
    refine List.find?_eq_none.mpr fun u hu hpre => ?_
    refine List.any_eq_false.mp hopen u hu ?_
    cases u with
    | nil => rfl
    | cons a u =>
      have hac : (a == c) = true := (Bool.and_eq_true_iff.mp hpre).1
      exact hac
  have hmunch : munch compound (c :: rest) = some ([c], rest) := by
    simp [munch, beq_eq_false_iff_ne.mpr hdot, beq_eq_false_iff_ne.mpr hslash, munchPunct, *]
  rw [← List.singleton_append, ← ht] at hmunch ⊢
  refine .front ?_ hmunch h
  rw [ht]
  intro d hd
  rw [← Option.some.inj hd]
  exact hspace

theorem isPrefixOf_append_cons {u w : List Char} (hd : d ∉ u) :
    u.isPrefixOf (w ++ d :: rest) = u.isPrefixOf w := by
  induction u generalizing w with
  | nil => simp only [List.isPrefixOf]
  | cons a u ih =>
    have hne : (a == d) = false := beq_eq_false_iff_ne.mpr (fun h => hd (h ▸ List.mem_cons_self))
    have hu : d ∉ u := fun h => hd (List.mem_cons_of_mem a h)
    cases w with
    | nil =>
      rw [List.nil_append, List.isPrefixOf_cons_cons, hne, Bool.false_and]
      rfl
    | cons b w => rw [List.cons_append, List.isPrefixOf, List.isPrefixOf, ih hu]

theorem munchPunct_append {w : List Char} (hw : w ≠ [])
    (hd : ∀ u ∈ compound, d ∉ u) :
    munchPunct compound (w ++ d :: rest) =
      (munchPunct compound w).map fun r => (r.1, r.2 ++ d :: rest) := by
  have hfind : compound.find? (fun u => u.isPrefixOf (w ++ d :: rest)) =
      compound.find? (fun u => u.isPrefixOf w) :=
    List.find?_congr (fun u hu => isPrefixOf_append_cons (hd u hu))
  rw [munchPunct.eq_def, munchPunct.eq_def, hfind]
  cases hu : compound.find? (fun u => u.isPrefixOf w) with
  | some u =>
    have hpre : u <+: w := List.isPrefixOf_iff_prefix.mp (List.find?_eq_some_iff_append.mp hu).1
    dsimp only
    rw [Option.map_some, List.drop_append_of_le_length hpre.length_le]
  | none =>
    cases w with
    | nil => exact absurd rfl hw
    | cons c cs => simp

theorem munch_punct {cs : List Char} (hpunct : isPunct c = true) (hdot : c ≠ '.')
    (hcomment : c = '/' → ∀ e ∈ cs.head?, e ≠ '/' ∧ e ≠ '*') :
    munch compound (c :: cs) = munchPunct compound (c :: cs) := by
  rcases isPunct_plain hpunct with ⟨_, hletter, hdig⟩
  rw [munch, hletter, hdig, beq_eq_false_iff_ne.mpr hdot, Bool.false_and, Bool.false_or]
  refine (if_neg Bool.false_ne_true).trans ((if_neg Bool.false_ne_true).trans (if_neg fun h => ?_))
  simp only [Bool.and_eq_true, Bool.or_eq_true, beq_iff_eq] at h
  rcases h with ⟨hc, hnext | hnext⟩
  · exact (hcomment hc '/' hnext).1 rfl
  · exact (hcomment hc '*' hnext).2 rfl

/-- An operator in front of a text that starts with a character of no
    operator. -/
theorem Lexes.apart (hw : munch compound w.toList = some (w.toList, []))
    (hpunct : ∀ c ∈ w.toList, isPunct c = true ∧ c ≠ '.') (hd : joins compound d = false)
    (h : Lexes joined compound (d :: rest) ts) :
    Lexes joined compound (w.toList ++ d :: rest) (w :: ts) := by
  simp only [joins, Bool.or_eq_false_iff, List.any_eq_false, beq_eq_false_iff_ne] at hd
  rcases hd with ⟨⟨hslash, hstar⟩, hd⟩
  cases hcs : w.toList with
  | nil =>
    rw [hcs] at hw
    cases hw
  | cons c cs =>
    rw [hcs] at hw hpunct
    rcases hpunct c List.mem_cons_self with ⟨hc, hdot⟩
    have hcomment : c = '/' → ∀ e ∈ cs.head?, e ≠ '/' ∧ e ≠ '*' := by
      rintro rfl e he
      cases cs with
      | nil => cases he
      | cons e' cs =>
        rw [← Option.some.inj he]
        constructor
        · rintro rfl
          cases hw
        · rintro rfl
          cases hw
    -- The character after the first is one of the operator, or the next one.
    have hcomment' : c = '/' → ∀ e ∈ (cs ++ d :: rest).head?, e ≠ '/' ∧ e ≠ '*' := by
      intro heq e he
      cases cs with
      | nil =>
        rw [← Option.some.inj he]
        exact ⟨hslash, hstar⟩
      | cons e' cs => exact hcomment heq e he
    rw [munch_punct hc hdot hcomment] at hw
    have hrun : munchPunct compound (c :: cs ++ d :: rest) = some (c :: cs, d :: rest) := by
      rw [munchPunct_append (List.cons_ne_nil c cs)
        (fun u hu hmem => hd u hu (List.contains_iff_mem.mpr hmem)), hw]
      rfl
    rw [← hcs]
    refine .front ?_ ?_ h
    · rw [hcs]
      intro e he
      rw [← Option.some.inj he]
      exact (isPunct_plain hc).1
    · rw [hcs, List.cons_append, munch_punct hc hdot hcomment']
      exact hrun

theorem Lexes.comment {t : List Char} (hline : '\n' ∉ t)
    (hsplice : joined = true → t.getLast? ≠ some '\\') (h : Lexes joined compound rest ts) :
    Lexes joined compound ('/' :: '/' :: (t ++ '\n' :: rest)) ts := by
  have hkeep : ∀ c ∈ t, (c != '\n') = true := fun c hc =>
    bne_iff_ne.mpr fun heq => hline (heq ▸ hc)
  refine .line ?_ ?_
  · rw [List.takeWhile_append_of_pos hkeep, List.takeWhile_cons_of_neg (by decide), List.append_nil]
    exact hsplice
  · rw [List.dropWhile_append_of_pos hkeep, List.dropWhile_cons_of_neg (by decide)]
    exact .blank rfl h

/-- The words of a text without comments, one after the other. -/
def splitWords (compound : List (List Char)) : Nat → List Char → Option (List String)
  | _, [] => some []
  | 0, _ :: _ => none
  | n + 1, c :: cs =>
    if isSpace c then splitWords compound n cs
    else
      match munch compound (c :: cs) with
      | some (w, rest) => (splitWords compound n rest).map (String.ofList w :: ·)
      | none => none

theorem takeWhile_append_stop {p : Char → Bool} (hd : ¬p d = true) (a rest : List Char) :
    (a ++ d :: rest).takeWhile p = a.takeWhile p ∧
      (a ++ d :: rest).dropWhile p = a.dropWhile p ++ d :: rest := by
  induction a with
  | nil => exact ⟨List.takeWhile_cons_of_neg hd, List.dropWhile_cons_of_neg hd⟩
  | cons c a ih =>
    rw [List.cons_append]
    by_cases hc : p c = true
    · simp [*]
    · simp [*]

/-- A blank separates words, whatever follows it. -/
theorem munch_append {a : List Char} (ha : a ≠ []) (hspace : isSpace d = true)
    (hd : ∀ u ∈ compound, d ∉ u) :
    munch compound (a ++ d :: rest) = (munch compound a).map fun r => (r.1, r.2 ++ d :: rest) := by
  have hblank : isAlnum d = false ∧ isDigit d = false ∧ d ≠ '.' ∧ isPlusMinus d = false ∧
      d ≠ '/' ∧ d ≠ '*' := by
    simp only [isSpace, Bool.or_eq_true, beq_iff_eq] at hspace
    rcases hspace with ((((rfl | rfl) | rfl) | rfl) | rfl) | rfl <;> decide
  rcases hblank with ⟨halnum, hdigit, hdot, hsign, hslash, hstar⟩
  have hstops : Stops (d :: rest) := by
    intro c hc
    rw [← Option.some.inj hc]
    exact ⟨halnum, hdot, hsign⟩
  cases a with
  | nil => exact absurd rfl ha
  | cons c cs =>
    have hpast : ¬isAlnum d = true := by
      rw [halnum]
      exact Bool.false_ne_true
    -- The next character, if there is one, is seen in both texts.
    have hnext : (cs ++ d :: rest).head?.any isDigit = cs.head?.any isDigit ∧
        ((cs ++ d :: rest).head? == some '/' || (cs ++ d :: rest).head? == some '*') =
          (cs.head? == some '/' || cs.head? == some '*') := by
      cases cs with
      | nil => simp [*]
      | cons e cs => exact ⟨rfl, rfl⟩
    rw [List.cons_append, munch, munch, hnext.1, hnext.2]
    split
    · rcases takeWhile_append_stop hpast (c :: cs) rest with ⟨htake, hdrop⟩
      rw [← List.cons_append, htake, hdrop, Option.map_some]
    split
    · rw [numberRest_append hstops, Option.map_some]
    split
    · rfl
    · rw [← List.cons_append, munchPunct_append (List.cons_ne_nil c cs) hd]

theorem Lexes.blank_after {n : Nat} {a : List Char} {us : List String}
    (hspace : isSpace d = true) (hd : ∀ u ∈ compound, d ∉ u)
    (hsplit : splitWords compound n (a ++ [d]) = some us) (h : Lexes joined compound rest ts) :
    Lexes joined compound (a ++ d :: rest) (us ++ ts) := by
  induction n generalizing a us with
  | zero =>
    cases a with
    | nil | cons => cases hsplit
  | succ n ih =>
    cases a with
    | nil =>
      rw [List.nil_append, splitWords, if_pos hspace, splitWords] at hsplit
      rw [← Option.some.inj hsplit]
      exact .blank hspace h
    | cons c a =>
      rw [List.cons_append, splitWords] at hsplit
      by_cases hc : isSpace c = true
      · rw [if_pos hc] at hsplit
        exact .blank hc (ih hsplit)
      · rw [if_neg hc, ← List.cons_append, munch_append (List.cons_ne_nil c a) hspace hd] at hsplit
        cases hm : munch compound (c :: a) with
        | none =>
          rw [hm] at hsplit
          cases hsplit
        | some r =>
          rw [hm] at hsplit
          dsimp only [Option.map_some] at hsplit
          rcases Option.map_eq_some_iff.mp hsplit with ⟨vs, hvs, rfl⟩
          refine .word ?_ ?_ (ih hvs)
          · simp [*]
          · rw [munch_append (List.cons_ne_nil c a) hspace hd, hm, Option.map_some]

theorem Lexes.fixed (t : String) (us : List String)
    (hlast : t.toList.getLast?.any isSpace = true)
    (hcompound : ∀ u ∈ compound, ∀ c ∈ u, isSpace c = false)
    (hsplit : splitWords compound t.toList.length t.toList = some us)
    (h : Lexes joined compound rest ts) : Lexes joined compound (t.toList ++ rest) (us ++ ts) := by
  rcases (Option.any_eq_true _ _).mp hlast with ⟨d, hd, hspace⟩
  rcases List.getLast?_eq_some_iff.mp hd with ⟨a, ha⟩
  rw [ha] at hsplit
  rw [ha, List.append_assoc]
  refine Lexes.blank_after hspace (fun u hu hmem => ?_) hsplit h
  rw [hcompound u hu d hmem] at hspace
  cases hspace

end Writing

theorem drop_takeWhile (q : Char → Bool) (cs : List Char) :
    cs.drop (cs.takeWhile q).length = cs.dropWhile q :=
  (congrArg (List.drop _) List.takeWhile_append_dropWhile.symm).trans List.drop_left

end Mellow.Lib
