import Mellow.Lib.CLex
import Mellow.Runtime.ShaderJit.Tokens

/-!
# Texts of LLVM

How the text of a module splits into words by the rules of LLVM, as far as
functions of AIR need them. A sigil and its name are two words that stand next
to each other, and so are a label and its colon. A string is a word that is
marked.

For LLVM a carriage return ends a comment as a line feed does. For the lexer of
the compiler it does not.

## Main definitions

* `llvmItem`: the first word of a text, or what there is between words.
* `llvmItems`: the words that a text starts with.

## Theorems

* `Tokenizes.llvmItems`: where that makes no difference, the lexer finds them.
-/

namespace Mellow.ShaderJit.Air

open Lib

section Text

/-- A word, and whether it is a string. -/
abbrev LlvmWord := String × Bool

def isNameChar (c : Char) : Bool := isAlnum c || c == '.'

/-- The character would go on with a name. -/
def goesOn (rest : List Char) : Bool :=
  rest.head?.any fun c => isNameChar c || c == '-' || c == '$'

/-- A colon right after a word makes it a label. -/
def labelled (w : LlvmWord) : List Char → List LlvmWord × List Char
  | ':' :: rest => ([w, (":", false)], rest)
  | rest => ([w], rest)

/-- A sign, and the characters right after it. -/
def signed (c : Char) (q : Char → Bool) (cs : List Char) : Option (List LlvmWord × List Char) :=
  if cs.takeWhile q = [] ∨ goesOn (cs.dropWhile q) = true then none
  else some ([(String.ofList [c], false), (String.ofList (cs.takeWhile q), false)], cs.dropWhile q)

def llvmItem (cr : Bool) : List Char → Option (List LlvmWord × List Char)
  | [] => none
  | c :: cs =>
    if c ∈ [' ', '\t', '\r', '\n'] then some ([], cs)
    else if c = ';' then some ([], cs.dropWhile fun d => d != '\n' && !(cr && d == '\r'))
    else if c = '"' then
      let body := cs.takeWhile (· != '"')
      if '\\' ∈ body ∨ body.length = cs.length then none
      else some (labelled (String.ofList body, true) (cs.drop (body.length + 1)))
    else if c ∈ ['%', '@'] then signed c (if cs.head?.any isDigit then isDigit else isNameChar) cs
    else if c ∈ ['#', '-'] then signed c isDigit cs
    else if isDigit c then
      if goesOn ((c :: cs).dropWhile isDigit) then none
      else some (labelled (String.ofList ((c :: cs).takeWhile isDigit), false)
        ((c :: cs).dropWhile isDigit))
    else if isLetter c then
      let w := (c :: cs).takeWhile isNameChar
      let rest := (c :: cs).dropWhile isNameChar
      if goesOn rest = true ∨ ('.' ∈ w ∧ rest.head? ≠ some ':') then none
      else some (labelled (String.ofList w, false) rest)
    else if c ∈ "=(),<>[]*\x7b\x7d".toList then some ([(String.ofList [c], false)], cs)
    else none

def llvmItems (cr : Bool) : Nat → List Char → Option (List LlvmWord × List Char)
  | 0, cs => some ([], cs)
  | n + 1, cs => do
    let (ws, rest) ← llvmItem cr cs
    let (vs, rest) ← llvmItems cr n rest
    return (ws ++ vs, rest)

end Text

section Comparison

variable {c : Char} {cs rest : List Char} {vs : List String} {ws : List LlvmWord}

/-- The compiler finds the words in front of the rest of a text. -/
def Front (ws vs : List String) (rest : List Char) : Prop :=
  ∃ us, vs = ws ++ us ∧ Tokenizes true rest us

theorem notMem_of_class {q : Char → Bool} {l : List Char} (hl : l.any q = false) (hc : q c = true) :
    c ∉ l :=
  fun hmem => List.any_eq_false.mp hl c hmem hc

theorem scan_other (hc : c ∉ [' ', '\t', '\r', '\n', ';']) (p : Place) :
    scan true p c cs =
      if isLetter c || c == '.' then .ok (.plain ((c :: cs).takeWhile isNameChar))
      else if isDigit c then .ok (.plain ((c :: cs).takeWhile isDigit))
      else if c = '"' then scanString cs
      else scanPunct true p c cs := by
  simp only [List.mem_cons, List.not_mem_nil, or_false, not_or] at hc
  rcases hc with ⟨hspace, htab, hreturn, hfeed, hcomment⟩
  have hblank : ¬(c = ' ' ∨ c = '\t' ∨ c = '\r' ∨ c = '\n') :=
    not_or.mpr ⟨hspace, not_or.mpr ⟨htab, not_or.mpr ⟨hreturn, hfeed⟩⟩⟩
  simp only [scan, if_neg hblank, beq_eq_false_iff_ne.mpr hcomment, Bool.true_and, Bool.not_true,
    Bool.false_and, Bool.or_false, Bool.false_eq_true, if_false, beq_iff_eq]
  rfl

theorem front_of_scan {text : String} {quoted : Bool} {n : Nat} (h : Tokenizes true (c :: cs) vs)
    (hscan : ∀ p, scan true p c cs = .ok (.word text quoted n)) :
    Front [text] vs (cs.drop (n - 1)) := by
  rcases h.step with ⟨p, item, hitem, htail⟩
  rw [hscan p] at hitem
  cases hitem
  exact htail

theorem run_front {q : Char → Bool} (h : Tokenizes true (c :: cs) vs) (hc : q c = true)
    (hscan : ∀ p, scan true p c cs = .ok (.plain ((c :: cs).takeWhile q))) :
    Front [String.ofList ((c :: cs).takeWhile q)] vs ((c :: cs).dropWhile q) := by
  have hfront := front_of_scan h hscan
  rw [List.takeWhile_cons_of_pos hc] at hfront ⊢
  rw [List.dropWhile_cons_of_pos hc, ← drop_takeWhile]
  exact hfront

theorem digits_front (hc : isDigit c = true) (h : Tokenizes true (c :: cs) vs) :
    Front [String.ofList ((c :: cs).takeWhile isDigit)] vs ((c :: cs).dropWhile isDigit) := by
  have hletter : ¬(isLetter c || c == '.') = true := by
    intro hl
    rcases Bool.or_eq_true_iff.mp hl with hl | hl
    · rw [isLetter_not_digit hl] at hc
      cases hc
    · rw [eq_of_beq hl] at hc
      cases hc
  refine run_front h hc fun p => ?_
  rw [scan_other (notMem_of_class rfl hc), if_neg hletter, if_pos hc]

theorem name_front (hc : (isLetter c || c == '.') = true) (h : Tokenizes true (c :: cs) vs) :
    Front [String.ofList ((c :: cs).takeWhile isNameChar)] vs ((c :: cs).dropWhile isNameChar) := by
  have hname : isNameChar c = true := by
    rw [isNameChar, isAlnum, Bool.or_right_comm, hc, Bool.true_or]
  refine run_front h hname fun p => ?_
  rw [scan_other (notMem_of_class (q := fun c => isLetter c || c == '.') rfl hc), if_pos hc]

/-- The characters that are words of their own. -/
def signs : List Char := "%@#-=:(),<>[]*\x7b\x7d".toList

theorem mem_signs {l : List Char} (hl : l.all (signs.contains ·) = true) (hc : c ∈ l) : c ∈ signs :=
  List.contains_iff_mem.mp (List.all_eq_true.mp hl c hc)

theorem sign_front (hc : c ∈ signs) (h : Tokenizes true (c :: cs) vs) :
    Front [String.ofList [c]] vs cs := by
  have hall : signs.all (fun d => d ∉ [' ', '\t', '\r', '\n', ';'] ∧
      (isLetter d || d == '.') = false ∧ isDigit d = false ∧ d ≠ '"' ∧
      d ∈ (permitted true).toList) = true := by
    decide
  rcases of_decide_eq_true (List.all_eq_true.mp hall c hc) with
    ⟨hother, hletter, hdigit, hquote, hpermitted⟩
  have hscan : ∀ p, scan true p c cs = .ok (.plain [c]) := by
    simp [scan_other hother, hletter, hdigit, if_neg hquote, scanPunct,
      if_neg (not_not.mpr hpermitted)]
  exact front_of_scan h hscan

theorem Front.append {ws ws' : List String} {rest' : List Char} (h : Front ws vs rest)
    (h' : ∀ us, Tokenizes true rest us → Front ws' us rest') : Front (ws ++ ws') vs rest' := by
  rcases h with ⟨us, rfl, h⟩
  rcases h' us h with ⟨us', rfl, h'⟩
  exact ⟨us', by rw [List.append_assoc], h'⟩

theorem labelled_front {w : LlvmWord} {front : List Char} (h : Front [w.1] vs front)
    (hl : labelled w front = (ws, rest)) : Front (ws.map Prod.fst) vs rest := by
  unfold labelled at hl
  split at hl
  · cases hl
    exact h.append fun us h => sign_front (mem_signs (l := [':']) rfl List.mem_cons_self) h
  · cases hl
    exact h

theorem signed_front {q : Char → Bool} (hc : c ∈ signs)
    (hq : ∀ d ds us, cs = d :: ds → q d = true → Tokenizes true (d :: ds) us →
      Front [String.ofList ((d :: ds).takeWhile q)] us ((d :: ds).dropWhile q))
    (hitem : signed c q cs = some (ws, rest)) (h : Tokenizes true (c :: cs) vs) :
    Front (ws.map Prod.fst) vs rest := by
  unfold signed at hitem
  split_ifs at hitem with hbad
  cases hitem
  refine (sign_front hc h).append fun us h => ?_
  cases cs with
  | nil => exact absurd (.inl rfl) hbad
  | cons d ds =>
    refine hq d ds us rfl ?_ h
    by_contra hd
    exact hbad (.inl (List.takeWhile_cons_of_neg hd))

theorem string_front (h : Tokenizes true ('"' :: cs) vs)
    (hlen : (cs.takeWhile (· != '"')).length ≠ cs.length) :
    Front [String.ofList (cs.takeWhile (· != '"'))] vs
      (cs.drop ((cs.takeWhile (· != '"')).length + 1)) := by
  rcases h.step with ⟨p, item, hscan, htail⟩
  rw [scan_other (by decide)] at hscan
  change scanString cs = _ at hscan
  unfold scanString at hscan
  dsimp only at hscan
  split_ifs at hscan with hbad
  cases hscan
  exact htail

/-- One word of LLVM, where comments end with a line feed. -/
theorem item_front (hitem : llvmItem false cs = some (ws, rest)) (h : Tokenizes true cs vs) :
    Front (ws.map Prod.fst) vs rest := by
  cases cs with
  | nil => cases hitem
  | cons c cs =>
    rw [llvmItem] at hitem
    dsimp only at hitem
    split_ifs at hitem with hblank hcomment hquote hstring hsigil hhead hsign hdigit
      hgoes hletter hbad hpunct
    · rcases Prod.mk.inj (Option.some.inj hitem) with ⟨rfl, rfl⟩
      rcases h.step with ⟨p, item, hscan, htail⟩
      have hgap : scan true p c cs = .ok (.gap 1) := if_pos (by simpa using hblank)
      rw [hgap] at hscan
      cases hscan
      exact ⟨vs, rfl, htail⟩
    · rcases Prod.mk.inj (Option.some.inj hitem) with ⟨rfl, rfl⟩
      subst hcomment
      rcases h.step with ⟨p, item, hscan, htail⟩
      cases hscan
      refine ⟨vs, rfl, ?_⟩
      simp only [Bool.false_and, Bool.not_false, Bool.and_true]
      exact drop_takeWhile _ _ ▸ htail
    · subst hquote
      exact labelled_front (string_front h fun h => hstring (.inr h)) (Option.some.inj hitem)
    · exact signed_front (mem_signs rfl hsigil) (fun d ds us _ hd h => digits_front hd h) hitem h
    · refine signed_front (mem_signs rfl hsigil) (fun d ds us hcs hd h => name_front ?_ h) hitem h
      rw [hcs, List.head?_cons, Option.any_some, Bool.not_eq_true] at hhead
      rwa [isNameChar, isAlnum, hhead, Bool.or_false] at hd
    · exact signed_front (mem_signs rfl hsign) (fun d ds us _ hd h => digits_front hd h) hitem h
    · exact labelled_front (digits_front hdigit h) (Option.some.inj hitem)
    · exact labelled_front (name_front (by rw [hletter, Bool.true_or]) h) (Option.some.inj hitem)
    · rcases Prod.mk.inj (Option.some.inj hitem) with ⟨rfl, rfl⟩
      exact sign_front (mem_signs rfl hpunct) h

theorem Tokenizes.llvmItems {n : Nat} (h : Tokenizes true cs vs)
    (hitems : llvmItems false n cs = some (ws, rest)) : Front (ws.map Prod.fst) vs rest := by
  induction n generalizing cs vs ws with
  | zero =>
    cases hitems
    exact ⟨vs, rfl, h⟩
  | succ n ih =>
    rw [Air.llvmItems] at hitems
    rcases Option.bind_eq_some_iff.mp hitems with ⟨r, hitem, hitems⟩
    rcases Option.bind_eq_some_iff.mp hitems with ⟨r', hrest, hitems⟩
    cases hitems
    rw [List.map_append]
    exact (item_front hitem h).append fun us h => ih h hrest

end Comparison

end Mellow.ShaderJit.Air
