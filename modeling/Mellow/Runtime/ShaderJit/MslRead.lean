import Mellow.Runtime.ShaderJit.Agree

/-!
# Reading the Metal Language

What the parser has read when it comes through: the words of an expression make
a phrase of the grammar of C, and the tree agrees with it. The parser does not
look at what follows. Where that is a bracket or a parenthesis the phrase would
go on, so the lemmas suppose that something else follows, which every caller
goes on to check.

## Main definitions

* `Closed`: that supposition.
* `ReadsExpr`: an expression was read.

## Theorems

* `Tokenizes.words`: the lexer makes words of the grammar.
* `parser_reads`: the three methods, by induction on the depth.
-/

namespace Mellow.ShaderJit

open Lib

section Words

variable {c : Char} {cs : List Char} {text : String} {q : Bool} {n : Nat}

structure WordOk (w : String) : Prop where
  ne : w ≠ ""
  spelled : w.toList.head?.any isDigit = true → Spelled w

theorem wordOk_of_head (hc : isDigit c = false) :
    WordOk (String.ofList (c :: cs)) := by
  constructor
  · simp
  · simp [*]

theorem alnum_of_hex (h : hex c = true) : isLetter c = true ∨ isDigit c = true := by
  have hle : ∀ {a b : Char}, a ≤ b → a.toNat ≤ b.toNat := fun h => h
  simp only [hex, Bool.or_eq_true, Bool.and_eq_true, decide_eq_true_eq] at h
  rcases h with (h | ⟨h1, h2⟩) | ⟨h1, h2⟩
  · exact .inr h
  · refine .inl ?_
    simp only [isLetter, Bool.or_eq_true, Bool.and_eq_true, decide_eq_true_eq]
    exact .inl (.inl ⟨h1, Char.le_trans h2 (by decide)⟩)
  · refine .inl ?_
    simp only [isLetter, Bool.or_eq_true, Bool.and_eq_true, decide_eq_true_eq]
    exact .inl (.inr ⟨h1, Char.le_trans h2 (by decide)⟩)

theorem wordOk_number {body : List Char} (hne : body ≠ [])
    (hcs : ∀ c ∈ body, isLetter c = true ∨ isDigit c = true)
    (hmark : body.take 2 = ['0', 'x'] → (body.drop 2).head?.any hex = true) :
    WordOk (String.ofList body) := by
  refine ⟨fun h => hne ?_, fun _ => ⟨?_, ?_⟩⟩
  · have := congrArg String.toList h
    rwa [String.toList_ofList] at this
  · rwa [String.toList_ofList]
  · rwa [String.toList_ofList]

theorem Item.word_plain
    (h : Item.plain cs = .word text q n) : text = String.ofList cs := by
  cases h
  rfl

theorem numberItem_word {body rest : List Char}
    (hcs : cs = body ++ rest) (hne : body ≠ [])
    (halnum : ∀ c ∈ body, isLetter c = true ∨ isDigit c = true)
    (hmark : ∀ u : List Char, (∀ c ∈ u, c = 'u' ∨ c = 'U') →
      (body ++ u).take 2 = ['0', 'x'] → ((body ++ u).drop 2).head?.any hex = true)
    (h : numberItem false cs body = .word text q n) : WordOk text := by
  unfold numberItem at h
  split_ifs at h with hnext
  · rw [Item.word_plain h, hcs]
    rw [hcs, List.drop_left] at hnext
    have hu : ∃ c, (c = 'u' ∨ c = 'U') ∧ rest.head? = some c := by
      simp only [Bool.not_false, Bool.true_and, Bool.or_eq_true, beq_iff_eq] at hnext
      exact hnext.elim (fun h => ⟨_, .inl rfl, h⟩) fun h => ⟨_, .inr rfl, h⟩
    rcases hu with ⟨c, hc, hhead⟩
    have htake : (body ++ rest).take (body.length + 1) = body ++ [c] := by
      cases rest with
      | nil => cases hhead
      | cons d ds =>
        rw [Option.some.inj hhead, List.take_length_add_append]
        rfl
    rw [htake]
    refine wordOk_number (by simp) (fun d hd => ?_) (hmark [c] ?_)
    · rcases List.mem_append.mp hd with hd | hd
      · exact halnum d hd
      · rw [List.mem_singleton.mp hd]
        rcases hc with rfl | rfl <;> exact .inl (by decide)
    · simp [*]
  · rw [Item.word_plain h]
    have := hmark [] (by simp)
    rw [List.append_nil] at this
    exact wordOk_number hne halnum this

theorem scanNumber_word
    (hc : isDigit c = true) (h : scanNumber false (c :: cs) = .ok (.word text q n)) :
    WordOk text := by
  unfold scanNumber at h
  split_ifs at h with hhex hempty
  · have htake : (c :: cs).take 2 = ['0', 'x'] := eq_of_beq hhex
    generalize hds : ((c :: cs).drop 2).takeWhile hex = digits at h hempty
    have hhexes : ∀ d ∈ digits, hex d = true := by
      rw [← hds]
      exact List.all_eq_true.mp List.all_takeWhile
    have hcs : c :: cs = (c :: cs).take 2 ++ digits ++ ((c :: cs).drop 2).dropWhile hex := by
      rw [← hds, List.append_assoc, List.takeWhile_append_dropWhile, List.take_append_drop]
    rw [htake] at h hcs
    refine numberItem_word hcs (by simp) (fun d hd => ?_) (fun u hu _ => ?_) (Except.ok.inj h)
    · rcases List.mem_append.mp hd with hd | hd
      · rcases List.mem_cons.mp hd with rfl | hd
        · exact .inr (by decide)
        · rw [List.mem_singleton.mp hd]
          exact .inl (by decide)
      · exact alnum_of_hex (hhexes d hd)
    · cases digits with
      | nil => exact absurd rfl hempty
      | cons d ds => exact hhexes d List.mem_cons_self
  · have hcs : c :: cs = (c :: cs).takeWhile digit ++ (c :: cs).dropWhile digit :=
      List.takeWhile_append_dropWhile.symm
    have hdigits : ∀ d ∈ (c :: cs).takeWhile digit, isDigit d = true :=
      List.all_eq_true.mp List.all_takeWhile
    have hne : (c :: cs).takeWhile digit ≠ [] := by simp [List.takeWhile_cons_of_pos hc]
    refine numberItem_word hcs hne (fun d hd => .inr (hdigits d hd)) (fun u hu htake => ?_)
      (Except.ok.inj h)
    -- The second character is neither a digit nor a suffix.
    have hx : 'x' ∈ (c :: cs).takeWhile digit ++ u :=
      List.mem_of_mem_take (i := 2) (by rw [htake]; simp)
    rcases List.mem_append.mp hx with hx | hx
    · exact absurd (hdigits _ hx) (by decide)
    · exact absurd (hu _ hx) (by decide)

theorem scan_word {p : Place}
    (h : scan false p c cs = .ok (.word text q n)) : WordOk text := by
  unfold scan at h
  split_ifs at h with hblank hline hblock hword hdigit hquote
  · cases h
  · cases h
  · cases hlen : blockLength cs.tail with
    | none =>
      rw [hlen] at h
      cases h
    | some k =>
      rw [hlen] at h
      cases h
  · have hletter : isLetter c = true := by simpa using hword
    rw [Item.word_plain (Except.ok.inj h), List.takeWhile_cons_of_pos (by simp [hletter])]
    exact wordOk_of_head (isLetter_not_digit hletter)
  · exact scanNumber_word hdigit h
  · cases hquote
  · have hc : isDigit c = false := Bool.eq_false_iff.mpr hdigit
    unfold scanPunct at h
    dsimp only at h
    split_ifs at h with hok hpair hthree
    · rw [Item.word_plain (Except.ok.inj h)]
      exact wordOk_of_head hc
    · rw [Item.word_plain (Except.ok.inj h)]
      exact wordOk_of_head hc
    · rw [Item.word_plain (Except.ok.inj h)]
      exact wordOk_of_head hc

theorem Tokenizes.words {ws : List String} (h : Tokenizes false cs ws) : ∀ w ∈ ws, WordOk w := by
  induction hn : cs.length using Nat.strongRecOn generalizing cs ws with
  | ind n ih =>
    cases cs with
    | nil =>
      rw [h.nil]
      nofun
    | cons c cs =>
      have hlt : ∀ k, (cs.drop k).length < n := fun k => by
        rw [List.length_drop, ← hn, List.length_cons]
        omega
      rcases h.step with ⟨p, item, hscan, htail⟩
      cases item with
      | gap k => exact ih _ (hlt _) htail rfl
      | word text quoted k =>
        rcases htail with ⟨vs, rfl, htail⟩
        intro w hw
        rcases List.mem_cons.mp hw with rfl | hw
        · exact scan_word hscan
        · exact ih _ (hlt _) htail rfl w hw

end Words

section Steps

variable {s s' t : Scan Fields}

/-- A step of an expression passes words, and counts nodes. -/
structure Went (s s' : Scan Fields) : Prop where
  words : s'.words <:+ s.words
  fields : s'.fields = { s.fields with nodeCount := s'.fields.nodeCount }

theorem Went.refl (s : Scan Fields) : Went s s := ⟨List.suffix_refl _, rfl⟩

theorem Went.trans (h : Went s t) (h' : Went t s') : Went s s' :=
  ⟨h'.words.trans h.words, by rw [h'.fields, h.fields]⟩

theorem went_of_words (pre : List String) (hwords : s.words = pre ++ s'.words)
    (hfields : s'.fields = s.fields) : Went s s' :=
  ⟨⟨pre, hwords.symm⟩, by rw [hfields]⟩

theorem Went.bufferName (h : Went s s') : s'.fields.bufferName = s.fields.bufferName := by
  rw [h.fields]

theorem Went.symbols (h : Went s s') : s'.fields.symbols = s.fields.symbols := by rw [h.fields]

/-- What holds wherever an expression is read. -/
structure Ready (s : Scan Fields) : Prop where
  words : ∀ w ∈ s.words, WordOk w
  table : Table s.fields.bufferName s.fields.symbols

theorem Ready.went (h : Ready s) (hw : Went s s') : Ready s' where
  words w hmem := h.words w (hw.words.subset hmem)
  table := by
    rw [hw.bufferName, hw.symbols]
    exact h.table

/-- A tree agrees with an expression in the tables of a state. -/
def AgreesAt (s : Scan Fields) (n : Node) (e : CExpr) : Prop :=
  Agrees s.fields.bufferName s.fields.symbols n e

theorem Went.agrees {n : Node} {e : CExpr} (hw : Went s s') (h : AgreesAt s' n e) :
    AgreesAt s n e := by
  unfold AgreesAt at h
  rwa [hw.bufferName, hw.symbols] at h

theorem Went.agrees_to {n : Node} {e : CExpr} (hw : Went s s') (h : AgreesAt s n e) :
    AgreesAt s' n e := by
  unfold AgreesAt
  rwa [hw.bufferName, hw.symbols]

/-- Nothing that would go on with an expression. -/
structure Closed (ts : List String) : Prop where
  call : ts.head? ≠ some "("
  index : ts.head? ≠ some "["
  member : ts.head? ≠ some "."

theorem closed_cons {t : String} {ts : List String} (hcall : t ≠ "(") (hindex : t ≠ "[")
    (hmember : t ≠ ".") : Closed (t :: ts) where
  call h := hcall (Option.some.inj h)
  index h := hindex (Option.some.inj h)
  member h := hmember (Option.some.inj h)

theorem closed_op {op : String} {ts : List String} (hop : 0 < prec op) : Closed (op :: ts) :=
  have h : Follow (prec op) (op :: ts) := follow_op hop
  ⟨h.call, h.index, h.member⟩

/-- The compiler counts precedences from one, without the comma. -/
theorem prec_of_precedence {t : String} (h : 0 < precedence t) : prec t = precedence t + 1 := by
  rcases precedence_cases h with rfl | rfl | rfl | rfl | rfl | rfl | rfl | rfl | rfl | rfl <;> rfl

theorem precedence_le (t : String) : precedence t ≤ 6 := by
  unfold precedence
  split_ifs <;> decide

theorem prec_lt_of_precedence {t : String} {m : Nat} (hm : 1 ≤ m) (h : ¬precedence t ≥ m) :
    prec t < m + 1 := by
  by_cases hpos : 0 < precedence t
  · rw [prec_of_precedence hpos]
    omega
  · have hzero : precedence t = 0 := by omega
    have hle : prec t ≤ 1 := by
      unfold precedence at hzero
      unfold prec
      split_ifs at hzero ⊢ <;> omega
    exact Nat.lt_of_le_of_lt hle (Nat.succ_lt_succ hm)

theorem yields_node {u : Unit} (h : Yields node s u s') : Went s s' ∧ s'.words = s.words := by
  rcases yields_bind.mp h with ⟨_, s₁, hedit, h⟩
  rw [yields_editFields.mp hedit] at h
  rcases yields_bind.mp h with ⟨f, s₂, hf, h⟩
  rw [(yields_fields.mp hf).2] at h
  rw [(yields_refuseIf.mp h).2]
  exact ⟨⟨List.suffix_refl _, rfl⟩, rfl⟩

theorem yields_checkedFacts {r : Except String Facts} {f : Facts}
    (h : Yields (checkedFacts r) s f s') : r = .ok f ∧ s' = s := by
  cases r with
  | error message => exact absurd h yields_fail
  | ok f' =>
    rcases yields_pure.mp h with ⟨rfl, hs⟩
    exact ⟨rfl, hs⟩

theorem yields_symbol {x : String} {i : Nat} (h : Yields (symbol x) s i s') :
    s.fields.symbols.findIdx? (fun s => s.source = x) = some i ∧ s' = s := by
  rcases h.bind yields_fields.mp with ⟨f, s₁, ⟨rfl, rfl⟩, h⟩
  cases hi : s₁.fields.symbols.findIdx? (fun s => s.source = x) with
  | none =>
    rw [hi] at h
    exact absurd h yields_fail
  | some j =>
    rw [hi] at h
    rcases yields_pure.mp h with ⟨rfl, hs⟩
    exact ⟨rfl, hs⟩

end Steps

section Expressions

variable {s s' : Scan Fields}

/-- Reading an expression with `x` gives one of level `m + 1`. -/
def ReadsExpr (x : Msl Node) (m : Nat) : Prop :=
  ∀ s n s', Ready s → Yields x s n s' → Went s s' ∧
    (Closed s'.words → ∃ e, Reading (.expr (m + 1)) s.words e s'.words ∧ AgreesAt s n e)

def ReadsPrimary (x : Msl Node) : Prop :=
  ∀ s n s', Ready s → Yields x s n s' → Went s s' ∧
    (Closed s'.words → ∃ e, Reading .signed s.words e s'.words ∧ AgreesAt s n e)

/-- Reading an index, which is the number of the thread. -/
def ReadsIndex (x : Msl Unit) : Prop :=
  ∀ s u s', Ready s → Yields x s u s' → Went s s' ∧ ∃ n i ts, s.words = "[" :: ts ∧
    Reading (.expr 1) ts i ("]" :: s'.words) ∧ AgreesAt s n i ∧ n.facts.exactIndex = true

theorem binaries_reads {right : Nat → Msl Node} {m : Nat} (hm : 1 ≤ m)
    (hright : ∀ k, 1 ≤ k → k ≤ 7 → ReadsExpr (right k) k) {fuel : Nat} {left n : Node}
    (hready : Ready s) (hfuel : s.words.length ≤ fuel)
    (h : Yields (binaries right m fuel left) s n s') :
    Went s s' ∧ (Closed s'.words → Closed s.words ∧ ∀ e₀, AgreesAt s left e₀ →
      ∃ e, Reading (.loop (m + 1) e₀) s.words e s'.words ∧ AgreesAt s n e) := by
  induction fuel generalizing left s with
  | zero =>
    -- No words are left, so there is no operator either.
    rcases yields_pure.mp h with ⟨rfl, rfl⟩
    refine ⟨Went.refl _, fun hclosed => ⟨hclosed, fun e₀ he₀ => ⟨e₀, .done ?_, he₀⟩⟩⟩
    rw [List.eq_nil_of_length_eq_zero (Nat.le_zero.mp hfuel)]
    exact Nat.succ_pos m
  | succ fuel ih =>
    rcases h.bind yields_peek.mp with ⟨t, s₁, ⟨rfl, rfl⟩, h⟩
    rcases yields_ite.mp h with ⟨hprec, h⟩ | ⟨hprec, h⟩
    · rcases h.bind yields_consume with ⟨op, s₂, ⟨htext, rfl⟩, h⟩
      rw [htext] at hprec
      have hpos : 0 < precedence op := Nat.lt_of_lt_of_le hm hprec
      have hprec' := prec_of_precedence hpos
      have hle := precedence_le op
      have hwords : s₁.words = op :: s₁.next.words := by
        refine Scan.words_of_peek htext ?_
        rintro rfl
        exact absurd hpos (by decide)
      have hwent₂ : Went s₁ s₁.next := went_of_words [op] hwords rfl
      rcases yields_bind.mp h with ⟨r, s₃, hr, h⟩
      rcases hright _ (Nat.succ_pos _) (by omega) _ _ _ (hready.went hwent₂) hr with
        ⟨hwent₃, hread⟩
      rcases h.bind yields_node with ⟨_, s₄, ⟨hwent₄, hwords₄⟩, h⟩
      rcases h.bind yields_checkedFacts with ⟨f, s₅, ⟨hf, rfl⟩, hrest⟩
      have hwent : Went s₁ s₅ := (hwent₂.trans hwent₃).trans hwent₄
      have hlen : s₅.words.length ≤ fuel := by
        have h₃ := (hwent₃.trans hwent₄).words.length_le
        rw [hwords, List.length_cons] at hfuel
        omega
      rcases ih (hready.went hwent) hlen hrest with ⟨hwent₆, hloop⟩
      refine ⟨hwent.trans hwent₆, fun hclosed => ?_⟩
      rcases hloop hclosed with ⟨hclosed₅, hloop⟩
      rw [hwords]
      refine ⟨closed_op (by omega), fun e₀ he₀ => ?_⟩
      rw [hwords₄] at hclosed₅ hloop
      rcases hread hclosed₅ with ⟨e, he, hagrees⟩
      have hbinary : AgreesAt s₁ (.binary f op left r) (.binary op e₀ e) := by
        unfold binaryFacts at hf
        split_ifs at hf
        exact agrees_binary hpos he₀ (hwent₂.agrees hagrees) hf
      rcases hloop _ (hwent.agrees_to hbinary) with ⟨e', hstep, hagrees'⟩
      refine ⟨e', .step (by omega) (by omega) ?_ hstep, hwent.agrees hagrees'⟩
      rw [hprec']
      exact he
    · rcases yields_pure.mp h with ⟨rfl, rfl⟩
      refine ⟨Went.refl _, fun hclosed => ⟨hclosed, fun e₀ he₀ => ⟨e₀, .done ?_, he₀⟩⟩⟩
      have hlow := prec_lt_of_precedence hm hprec
      rw [Scan.peek_text] at hlow
      cases hw : s'.words with
      | nil => exact Nat.succ_pos m
      | cons t ts =>
        rw [hw] at hlow
        exact hlow

theorem expression_reads_succ {room m : Nat} (hm : 1 ≤ m)
    (hprimary : ReadsPrimary (primary room))
    (hexpr : ∀ k, 1 ≤ k → k ≤ 7 → ReadsExpr (expression room k) k) :
    ReadsExpr (expression (room + 1) m) m := by
  intro s n s' hready h
  rw [expression] at h
  rcases yields_bind.mp h with ⟨left, s₁, hleft, h⟩
  rcases hprimary _ _ _ hready hleft with ⟨hwent₁, hread⟩
  rcases h.bind yields_get.mp with ⟨s₂, s₃, ⟨rfl, rfl⟩, h⟩
  have hlen : s₃.words.length ≤ s₃.tokens.length := Nat.le_of_eq (List.length_map _)
  rcases binaries_reads hm hexpr (hready.went hwent₁) hlen h with ⟨hwent₂, hloop⟩
  refine ⟨hwent₁.trans hwent₂, fun hclosed => ?_⟩
  rcases hloop hclosed with ⟨hclosed₁, hloop⟩
  rcases hread hclosed₁ with ⟨e, he, hagrees⟩
  rcases hloop e (hwent₁.agrees_to hagrees) with ⟨e', he', hagrees'⟩
  exact ⟨e', .expr he he', hwent₁.agrees hagrees'⟩

theorem index_reads_succ {room : Nat} (hexpr : ReadsExpr (expression room 1) 1) :
    ReadsIndex (index (room + 1)) := by
  intro s u s' hready h
  rw [index] at h
  rcases h.bind (yields_require (by decide)) with ⟨_, s₁, ⟨hwords₁, hfields₁⟩, h⟩
  have hwent₁ : Went s s₁ := went_of_words ["["] hwords₁ hfields₁
  rcases yields_bind.mp h with ⟨n, s₂, hn, h⟩
  rcases hexpr _ _ _ (hready.went hwent₁) hn with ⟨hwent₂, hread⟩
  rcases h.bind (yields_require (by decide)) with ⟨_, s₃, ⟨hwords₃, hfields₃⟩, h⟩
  rcases yields_refuseIf.mp h with ⟨hexact, rfl⟩
  have hwent₃ : Went s₂ s' := went_of_words ["]"] hwords₃ hfields₃
  refine ⟨(hwent₁.trans hwent₂).trans hwent₃, ?_⟩
  rw [hwords₃] at hread
  rcases hread (closed_cons (by decide) (by decide) (by decide)) with ⟨i, hi, hagrees⟩
  refine ⟨n, i, s₁.words, hwords₁, hi.lower (.done Nat.zero_lt_one), hwent₁.agrees hagrees, ?_⟩
  simpa only [Bool.not_eq_false'] using hexact

theorem signed_of_primary {t : String} {ts rest : List String} {e : CExpr}
    (h : Reading .primary (t :: ts) e rest) (hclosed : Closed rest) (ht : isSign t = false) :
    Reading .signed (t :: ts) e rest := by
  refine .unsigned (fun t' ht' => ?_) (.suffixed h (.bare hclosed.index hclosed.member))
  rw [← Option.some.inj ht']
  exact ht

theorem literalNode_reads {n : Node} (hready : Ready s)
    (hdigit : s.peek.text.toList.head?.any digit = true) (h : Yields literalNode s n s') :
    Went s s' ∧
      (Closed s'.words → ∃ e, Reading .signed s.words e s'.words ∧ AgreesAt s n e) := by
  rcases h.bind yields_node with ⟨_, s₁, ⟨hwent₁, hwords₁⟩, h₁⟩
  rcases h₁.bind yields_consume with ⟨w, s₂, ⟨htext, rfl⟩, h₂⟩
  rcases h₂.bind yields_checkedFacts with ⟨f, s₃, ⟨hfacts, rfl⟩, h₃⟩
  rcases yields_pure.mp h₃ with ⟨rfl, rfl⟩
  have hpeek : s.peek.text = w := by
    rw [Scan.peek_text, ← hwords₁, ← Scan.peek_text, htext]
  rw [hpeek] at hdigit
  have hne : w ≠ "" := by
    rintro rfl
    exact absurd hdigit (by decide)
  have hwords : s₁.words = w :: s₁.next.words := Scan.words_of_peek htext hne
  have hwent : Went s s₁.next := hwent₁.trans (went_of_words [w] hwords rfl)
  refine ⟨hwent, fun hclosed => ?_⟩
  rw [← hwords₁, hwords]
  have hok : WordOk w := (hready.went hwent₁).words w (by rw [hwords]; exact List.mem_cons_self)
  have hnumber : isNumber w = true := by
    unfold isNumber
    cases hcs : w.toList with
    | nil =>
      rw [hcs] at hdigit
      cases hdigit
    | cons c cs =>
      rw [hcs, List.head?_cons, Option.any_some] at hdigit
      split
      · next heq =>
          cases heq
          exact absurd hdigit (by decide)
      · next heq =>
          cases heq
          exact hdigit
      · next heq => cases heq
  refine ⟨.num w, signed_of_primary (.num hnumber) hclosed (isNumber_not_sign hnumber), ?_⟩
  exact agrees_literal (hok.spelled hdigit) hdigit hfacts

theorem symbolNode_reads {x : String} {n : Node} (hready : Ready s)
    (h : Yields (symbolNode x) s n s') :
    Went s s' ∧ s'.words = s.words ∧ AgreesAt s n (.name x) := by
  rcases h.bind yields_node with ⟨_, s₁, ⟨hwent₁, hwords₁⟩, h₁⟩
  rcases h₁.bind yields_symbol with ⟨i, s₂, ⟨hidx, rfl⟩, h₂⟩
  rcases h₂.bind yields_fields.mp with ⟨f, s₃, ⟨rfl, rfl⟩, h₃⟩
  rcases yields_pure.mp h₃ with ⟨rfl, rfl⟩
  exact ⟨hwent₁, hwords₁, hwent₁.agrees (agrees_symbol (hready.went hwent₁).table hidx)⟩

theorem primary_reads_succ {room : Nat} (hexpr : ReadsExpr (expression room 1) 1)
    (hprimary : ReadsPrimary (primary room)) (hindex : ReadsIndex (index room)) :
    ReadsPrimary (primary (room + 1)) := by
  intro s n s' hready h
  rw [primary] at h
  rcases h.bind yields_get.mp with ⟨s₀, s₁, ⟨rfl, rfl⟩, h₁⟩
  rcases yields_ite.mp h₁ with ⟨hparen, h₂⟩ | ⟨_, h₂⟩
  · -- An expression in parentheses.
    rcases h₂.bind (yields_require (by decide)) with ⟨_, s₂, ⟨hwords₂, hfields₂⟩, h₃⟩
    have hwent₂ : Went s₁ s₂ := went_of_words ["("] hwords₂ hfields₂
    rcases yields_bind.mp h₃ with ⟨n', s₃, hn, h₄⟩
    rcases hexpr _ _ _ (hready.went hwent₂) hn with ⟨hwent₃, hread⟩
    rcases h₄.bind (yields_require (by decide)) with ⟨_, s₄, ⟨hwords₄, hfields₄⟩, h₅⟩
    rcases yields_pure.mp h₅ with ⟨rfl, rfl⟩
    have hwent₄ : Went s₃ s' := went_of_words [")"] hwords₄ hfields₄
    refine ⟨(hwent₂.trans hwent₃).trans hwent₄, fun hclosed => ?_⟩
    rw [hwords₄] at hread
    rcases hread (closed_cons (by decide) (by decide) (by decide)) with ⟨e, he, hagrees⟩
    rw [hwords₂]
    refine ⟨.paren e, signed_of_primary (.paren (he.lower (.done Nat.zero_lt_one))) hclosed
      (by decide), agrees_paren (hwent₂.agrees hagrees)⟩
  rcases yields_ite.mp h₂ with ⟨hsign, h₃⟩ | ⟨_, h₃⟩
  · -- A sign.
    rcases yields_bind.mp h₃ with ⟨_, s₂, hnode, h₄⟩
    rcases yields_node hnode with ⟨hwent₂, hwords₂⟩
    rcases yields_bind.mp h₄ with ⟨op, s₃, hop, h₅⟩
    rcases yields_consume hop with ⟨htext, rfl⟩
    rcases yields_bind.mp h₅ with ⟨left, s₄, hleft, h₆⟩
    have hpeek : s₁.peek.text = op := by
      rw [Scan.peek_text, ← hwords₂, ← Scan.peek_text, htext]
    have hop : isSign op = true := by
      simp only [Bool.or_eq_true] at hsign
      rcases hsign with (hat | hat) | hat <;> rw [← hpeek, Scan.peek_of_isAt hat] <;> decide
    have hwords₃ : s₂.words = op :: s₂.next.words := by
      refine Scan.words_of_peek htext ?_
      rintro rfl
      exact absurd hop (by decide)
    have hwent₃ : Went s₁ s₂.next := hwent₂.trans (went_of_words [op] hwords₃ rfl)
    rcases hprimary _ _ _ (hready.went hwent₃) hleft with ⟨hwent₄, hread⟩
    rcases yields_bind.mp h₆ with ⟨f, s₅, hf, h₇⟩
    rcases yields_checkedFacts hf with ⟨hfacts, rfl⟩
    rcases yields_pure.mp h₇ with ⟨rfl, rfl⟩
    refine ⟨hwent₃.trans hwent₄, fun hclosed => ?_⟩
    rcases hread hclosed with ⟨e, he, hagrees⟩
    rw [← hwords₂, hwords₃]
    exact ⟨.unary op e, .sign hop he, agrees_unary hop (hwent₃.agrees hagrees) hfacts⟩
  rcases yields_ite.mp h₃ with ⟨hdigit, h₄⟩ | ⟨_, h₄⟩
  · exact literalNode_reads hready hdigit h₄
  · -- A name: the buffer with its index, or a variable.
    rcases h₄.bind yields_name with ⟨x, s₂, ⟨hname, hwords₂, hfields₂⟩, h₅⟩
    have hwent₂ : Went s₁ s₂ := went_of_words [x] hwords₂ hfields₂
    rcases h₅.bind yields_fields.mp with ⟨f, s₃, ⟨rfl, rfl⟩, h₆⟩
    rcases yields_ite.mp h₆ with ⟨hbuffer, h₇⟩ | ⟨_, h₇⟩
    · rcases yields_bind.mp h₇ with ⟨_, s₄, hidx, h₈⟩
      rcases hindex _ _ _ (hready.went hwent₂) hidx with ⟨hwent₄, n', i, ts, hts, hi,
        hagrees, hexact⟩
      rcases h₈.bind yields_node with ⟨_, s₅, ⟨hwent₅, hwords₅⟩, h₉⟩
      rcases yields_pure.mp h₉ with ⟨rfl, rfl⟩
      refine ⟨(hwent₂.trans hwent₄).trans hwent₅, fun hclosed => ?_⟩
      rw [hwords₂, hts, hwords₅]
      rw [hwords₅] at hclosed
      have hbracket : ("[" :: ts).head? ≠ some "(" :=
        fun h => absurd (Option.some.inj h) (by decide)
      refine ⟨.index (.name x) i, .unsigned (fun t ht => ?_) (.suffixed (.name hname hbracket)
        (.index rfl hi (.bare hclosed.index hclosed.member))), ?_⟩
      · rw [← Option.some.inj ht]
        exact isName_not_sign hname
      · refine hwent₂.agrees ?_
        rw [hbuffer]
        exact agrees_load (hready.went hwent₂).table hagrees hexact
    · rcases symbolNode_reads (hready.went hwent₂) h₇ with ⟨hwent₄, hwords₄, hagrees⟩
      refine ⟨hwent₂.trans hwent₄, fun hclosed => ?_⟩
      rw [hwords₂, hwords₄]
      rw [hwords₄] at hclosed
      exact ⟨.name x, signed_of_primary (.name hname hclosed.call) hclosed (isName_not_sign hname),
        hwent₂.agrees hagrees⟩

/-- Expressions, operands and indices are read by the grammar of C. -/
theorem parser_reads (room : Nat) :
    (∀ m, 1 ≤ m → m ≤ 7 → ReadsExpr (expression room m) m) ∧ ReadsPrimary (primary room) ∧
      ReadsIndex (index room) := by
  induction room with
  | zero =>
    refine ⟨fun m _ _ s n s' _ h => absurd h yields_fail, fun s n s' _ h => absurd h yields_fail,
      fun s u s' _ h => ?_⟩
    rw [index] at h
    rcases yields_bind.mp h with ⟨_, _, _, h₁⟩
    exact absurd h₁ yields_fail
  | succ room ih =>
    rcases ih with ⟨hexpr, hprimary, hindex⟩
    have hone := hexpr 1 (Nat.le_refl 1) (by decide)
    exact ⟨fun m hm _ => expression_reads_succ hm hprimary hexpr,
      primary_reads_succ hone hprimary hindex, index_reads_succ hone⟩

theorem expression_reads (room : Nat) : ReadsExpr (expression room 1) 1 :=
  (parser_reads room).1 1 (Nat.le_refl 1) (by decide)

end Expressions

end Mellow.ShaderJit
