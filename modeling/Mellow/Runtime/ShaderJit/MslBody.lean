import Mellow.Runtime.ShaderJit.MslRead

/-!
# Statements of the Metal Language

From expressions to whole kernels. A statement and the one that the compiler
makes of it do the same to environments that the symbol table relates, and leave
them related. The compiler checks that names are declared once, which keeps
those of the table apart.

## Main definitions

* `StmtAgrees`: a statement and its output.
* `BodyAgrees`: the statements up to the closing brace.
* `MslUnit`: the words of a source and its kernel.

## Theorems

* `MslUnit.unique`: no words make two kernels.
* `run_reads`: what is accepted is a kernel.
-/

namespace Mellow.ShaderJit

open Lib

def Statement.out (st : Statement) : Stmt :=
  if st.buffer then .store "mellow_buffer0" (.name "mellow_gid") st.expression.out
  else if st.declaration then .decl st.constant (emittedName st.symbol) st.expression.out
  else .assign (emittedName st.symbol) st.expression.out

structure Statement.Proper (k : Nat) (st : Statement) : Prop where
  expression : st.expression.Proper k
  symbol : st.buffer = false → st.symbol < k
  buffer : st.buffer = true → st.declaration = false

/-- A statement of the source and one of the output do the same. -/
def StmtAgrees (array : String) (ss ss' : List Symbol) (src out : Stmt) : Prop :=
  ∀ g vs vs' buf, Matches g ss vs vs' →
    (∃ ws ws' buf', exec array (vs, buf) src = .ok (ws, buf') ∧
      exec "mellow_buffer0" (vs', buf) out = .ok (ws', buf') ∧ Matches g ss' ws ws' ∧
      buf'.length = buf.length) ∨
    (exec array (vs, buf) src = .error .outside ∧
      exec "mellow_buffer0" (vs', buf) out = .error .outside ∧ buf.length ≤ g.toNat)

section Agreement

variable {array : String} {ss : List Symbol}
variable {n : Node} {e : CExpr} {g w : BitVec 32} {vs vs' : List Var} {x : String}

theorem Agrees.cases (h : Agrees array ss n e)
    (buf : List (BitVec 32)) (hm : Matches g ss vs vs') :
    (∃ v, eval array vs buf e = .ok v ∧ eval "mellow_buffer0" vs' buf n.out = .ok v) ∨
      (eval array vs buf e = .error .outside ∧
        eval "mellow_buffer0" vs' buf n.out = .error .outside ∧ buf.length ≤ g.toNat) := by
  have hsame := h.same g vs vs' buf hm
  rcases h.outcome g vs vs' buf hm with ⟨v, hv, _⟩ | ⟨hv, hlen⟩
  · exact .inl ⟨v, hv, hsame ▸ hv⟩
  · exact .inr ⟨hv, hsame ▸ hv, hlen⟩

theorem Matches.snoc {s : Symbol} {v v' : Var}
    (h : Matches g ss vs vs') (hheld : Held g s v v') :
    Matches g (ss ++ [s]) (vs ++ [v]) (vs' ++ [v']) := by
  induction h with
  | nil => exact .cons hheld .nil
  | cons h _ ih => exact .cons h ih

theorem Matches.lookup_none (h : Matches g ss vs vs')
    {y : String} (hx : x ∉ ss.map (·.source)) (hy : y ∉ ss.map (·.emitted)) :
    lookup vs x = none ∧ lookup vs' y = none := by
  induction h with
  | nil => exact ⟨rfl, rfl⟩
  | @cons s v v' ss vs vs' hheld _ ih =>
    rw [List.map_cons, List.mem_cons, not_or] at hx hy
    rcases ih hx.2 hy.2 with ⟨hvs, hvs'⟩
    constructor
    · rw [← hvs]
      refine List.find?_cons_of_neg ?_
      rw [decide_eq_true_eq, hheld.source]
      exact fun h => hx.1 h.symm
    · rw [← hvs']
      refine List.find?_cons_of_neg ?_
      rw [decide_eq_true_eq, hheld.emitted]
      exact fun h => hy.1 h.symm

theorem setVar_of_ne {v : Var} (h : v.name ≠ x) : setVar x w v = v :=
  if_neg h

theorem Matches.assign_none (h : Matches g ss vs vs')
    {y : String} (hx : x ∉ ss.map (·.source)) (hy : y ∉ ss.map (·.emitted)) :
    vs.map (setVar x w) = vs ∧ vs'.map (setVar y w) = vs' := by
  induction h with
  | nil => exact ⟨rfl, rfl⟩
  | @cons s v v' ss vs vs' hheld _ ih =>
    rw [List.map_cons, List.mem_cons, not_or] at hx hy
    rcases ih hx.2 hy.2 with ⟨hvs, hvs'⟩
    have hv : v.name ≠ x := fun h => hx.1 (h.symm.trans hheld.source)
    have hv' : v'.name ≠ y := fun h => hy.1 (h.symm.trans hheld.emitted)
    rw [List.map_cons, List.map_cons, setVar_of_ne hv, setVar_of_ne hv', hvs, hvs']
    exact ⟨rfl, rfl⟩

theorem Matches.assign (h : Matches g ss vs vs')
    (hsrc : (ss.map (·.source)).Nodup) (hout : (ss.map (·.emitted)).Nodup) {i : Nat} {s : Symbol}
    (hs : ss[i]? = some s) (hexact : s.exactIndex = false) :
    Matches g ss (vs.map (setVar s.source w)) (vs'.map (setVar s.emitted w)) := by
  induction h generalizing i with
  | nil => exact .nil
  | @cons s₀ v v' ss vs vs' hheld hmatches ih =>
    rw [List.map_cons, List.nodup_cons] at hsrc hout
    cases i with
    | zero =>
      cases hs
      rcases hmatches.assign_none hsrc.1 hout.1 (w := w) with ⟨hvs, hvs'⟩
      rw [List.map_cons, List.map_cons, hvs, hvs']
      have hv : setVar s.source w v = { v with value := w } := if_pos hheld.source
      have hv' : setVar s.emitted w v' = { v' with value := w } := if_pos hheld.emitted
      rw [hv, hv']
      refine .cons ⟨hheld.source, hheld.emitted, rfl, fun h => ?_, hheld.assignable⟩ hmatches
      rw [hexact] at h
      cases h
    | succ i =>
      rw [List.getElem?_cons_succ] at hs
      have hmem := List.mem_of_getElem? hs
      have hv : v.name ≠ s.source := fun h =>
        hsrc.1 (hheld.source.symm.trans h ▸ List.mem_map_of_mem hmem)
      have hv' : v'.name ≠ s.emitted := fun h =>
        hout.1 (hheld.emitted.symm.trans h ▸ List.mem_map_of_mem hmem)
      rw [List.map_cons, List.map_cons, setVar_of_ne hv, setVar_of_ne hv']
      exact .cons hheld (ih hsrc.2 hout.2 hs)

theorem Table.emitted_new (ht : Table array ss) : emittedName ss.length ∉ ss.map (·.emitted) := by
  rw [ht.emitted, List.mem_map]
  rintro ⟨i, hi, hname⟩
  rw [emittedName_inj hname] at hi
  exact absurd (List.mem_range.mp hi) (Nat.lt_irrefl _)

theorem stmtAgrees_decl {const : Bool} (ht : Table array ss)
    (h : Agrees array ss n e) (hx : x ∉ ss.map (·.source)) (harray : x ≠ array) :
    StmtAgrees array ss
      (ss ++ [⟨x, emittedName ss.length, const, const && n.facts.exactIndex⟩])
      (.decl const x e) (.decl const (emittedName ss.length) n.out) := by
  intro g vs vs' buf hm
  rcases hm.lookup_none hx ht.emitted_new with ⟨hvs, hvs'⟩
  rcases h.cases buf hm with ⟨v, hsrc, hout⟩ | ⟨hsrc, hout, hlen⟩
  · refine .inl ⟨vs ++ [⟨x, const, v.toUint⟩], vs' ++ [⟨emittedName ss.length, const, v.toUint⟩],
      buf, ?_, ?_, hm.snoc ⟨rfl, rfl, rfl, fun hexact => ?_, fun hconst => ⟨hconst, hconst⟩⟩, rfl⟩
    · rw [exec, hsrc]
      refine if_neg ?_
      rw [hvs]
      exact not_or.mpr ⟨harray, Bool.false_ne_true⟩
    · rw [exec, hout]
      refine if_neg ?_
      rw [hvs']
      exact not_or.mpr ⟨emittedName_ne_buffer _, Bool.false_ne_true⟩
    · have hexact := h.exactIndex (Bool.and_eq_true_iff.mp hexact).2 g vs vs' buf hm
      rw [hsrc] at hexact
      rw [Except.ok.inj hexact]
      rfl
  · refine .inr ⟨?_, ?_, hlen⟩
    · rw [exec, hsrc]
      rfl
    · rw [exec, hout]
      rfl

theorem stmtAgrees_assign {i : Nat} (ht : Table array ss)
    (h : Agrees array ss n e) (hi : ss.findIdx? (fun s => s.source = x) = some i)
    (hmutable : (ss.map (·.immutable)).getD i false = false) :
    StmtAgrees array ss ss (.assign x e) (.assign (emittedName i) n.out) := by
  intro g vs vs' buf hm
  rcases hm.of_source hi with ⟨s, v, v', hs, rfl, hlook, hget, hheld⟩
  have hlook' := hm.of_emitted ht.emitted_nodup hs hget
  have himm : s.immutable = false := by
    rwa [List.getD_eq_getElem?_getD, List.getElem?_map, hs] at hmutable
  have hexact : s.exactIndex = false := by
    refine Bool.eq_false_iff.mpr fun hexact => ?_
    rw [ht.immutable s (List.mem_of_getElem? hs) hexact] at himm
    cases himm
  rcases hheld.assignable himm with ⟨hconst, hconst'⟩
  rw [← ht.emitted_get hs]
  rcases h.cases buf hm with ⟨w, hsrc, hout⟩ | ⟨hsrc, hout, hlen⟩
  · refine .inl ⟨_, _, buf, ?_, ?_,
      hm.assign ht.sources ht.emitted_nodup hs hexact (w := w.toUint), rfl⟩
    · rw [exec, hsrc]
      refine if_pos ?_
      rw [hlook, Option.any_some, hconst]
      rfl
    · rw [exec, hout]
      refine if_pos ?_
      rw [hlook', Option.any_some, hconst']
      rfl
  · refine .inr ⟨?_, ?_, hlen⟩
    · rw [exec, hsrc]
      rfl
    · rw [exec, hout]
      rfl

theorem stmtAgrees_store {m : Node} {i : CExpr} (ht : Table array ss) (h : Agrees array ss n e)
    (hi : Agrees array ss m i) (hexact : m.facts.exactIndex = true) :
    StmtAgrees array ss ss (.store array i e)
      (.store "mellow_buffer0" (.name "mellow_gid") n.out) := by
  intro g vs vs' buf hm
  have hidx := hi.exactIndex hexact g vs vs' buf hm
  have hidx' : eval "mellow_buffer0" vs' buf (.name "mellow_gid") = .ok (.uint g) := by
    rcases hm.thread ht with ⟨v', hlook, hval⟩
    rw [eval, hlook, ← hval]
  rcases h.cases buf hm with ⟨w, hsrc, hout⟩ | ⟨hsrc, hout, hlen⟩
  · rw [exec_store hsrc hidx, exec_store hout hidx']
    by_cases hlen : buf.length ≤ g.toNat
    · simp [*]
    · simp [*]
  · refine .inr ⟨?_, ?_, hlen⟩
    · rw [exec, hsrc]
      rfl
    · rw [exec, hout]
      rfl

end Agreement

section Reading

variable {s s' : Scan Fields} {const : Bool} {u : Unit}

structure Listed (f : Fields) : Prop where
  buffer : f.bufferName ∈ f.names
  sources : ∀ x ∈ f.symbols.map (·.source), x ∈ f.names

theorem Table.snoc {array : String} {ss : List Symbol} {x : String} {exact : Bool}
    (h : Table array ss) (hx : x ∉ ss.map (·.source)) (harray : x ≠ array) :
    Table array (ss ++ [⟨x, emittedName ss.length, const, const && exact⟩]) where
  emitted := by
    rw [List.map_append, h.emitted, List.length_append, List.length_singleton, List.range_succ,
      List.map_append]
    rfl
  sources := by
    rw [List.map_append]
    exact List.nodup_append.mpr ⟨h.sources, List.nodup_singleton _, fun a ha b hb hab => by
      rw [List.mem_singleton.mp hb] at hab
      have hax : a = x := hab
      exact hx (hax ▸ ha)⟩
  array := by
    rw [List.map_append, List.mem_append, not_or]
    exact ⟨h.array, fun hmem => harray (List.mem_singleton.mp hmem).symm⟩
  immutable s hs hexact := by
    rcases List.mem_append.mp hs with hs | hs
    · exact h.immutable s hs hexact
    · rw [List.mem_singleton.mp hs] at hexact ⊢
      exact (Bool.and_eq_true_iff.mp hexact).1
  first := by
    rcases h.first with ⟨s, ss', rfl, hexact⟩
    exact ⟨s, _, rfl, hexact⟩

theorem yields_declaredName {x : String} (h : Yields declaredName s x s') :
    isName x = true ∧ x ∉ s.fields.names ∧ s.words = x :: s'.words ∧
      s'.fields = { s.fields with names := x :: s.fields.names } := by
  rcases h.bind yields_name with ⟨y, s₁, ⟨hx, hwords, hfields⟩, h₁⟩
  rcases h₁.bind yields_fields.mp with ⟨f, s₂, ⟨rfl, rfl⟩, h₂⟩
  rcases h₂.bind yields_refuseIf.mp with ⟨_, s₃, ⟨hcheck, rfl⟩, h₃⟩
  rcases h₃.bind yields_editFields.mp with ⟨_, s₄, hedit, h₄⟩
  rcases yields_pure.mp h₄ with ⟨rfl, rfl⟩
  simp only [Bool.or_eq_false_iff, decide_eq_false_iff_not] at hcheck
  rw [hfields] at hcheck
  rw [hedit, Scan.put_fields, Scan.put_words, hfields]
  exact ⟨hx, hcheck.2, hwords, rfl⟩

structure ReadsStmt (s s' : Scan Fields) : Prop where
  ready : Ready s'
  listed : Listed s'.fields
  buffer : s'.fields.bufferName = s.fields.bufferName
  thread : s'.fields.threadName = s.fields.threadName
  entry : s'.fields.entry = s.fields.entry
  length : s.fields.symbols.length ≤ s'.fields.symbols.length
  read : ∃ pre src st, s.words = pre ++ s'.words ∧ StmtPhrase pre src ∧
    s'.fields.statements = s.fields.statements ++ [st] ∧ st.Proper s'.fields.symbols.length ∧
    StmtAgrees s.fields.bufferName s.fields.symbols s'.fields.symbols src st.out

def Fields.append (f : Fields) (st : Statement) (count : Nat) : Fields :=
  { f with nodeCount := count, statements := f.statements ++ [st] }

def Fields.declare (f : Fields) (x : String) (const : Bool) (n : Node) (count : Nat) : Fields :=
  { f with
    names := x :: f.names
    nodeCount := count
    symbols := f.symbols ++ [⟨x, emittedName f.symbols.length, const, const && n.facts.exactIndex⟩]
    statements := f.statements ++ [⟨true, const, false, f.symbols.length, n⟩] }

theorem readsStmt_append {st : Statement} {pre : List String} {src : Stmt} {w k c : Nat}
    (hready : Ready s') (hlisted : Listed s.fields)
    (hfields : s'.fields = Fields.append { s.fields with writes := w, nodeCount := k } st c)
    (hwords : s.words = pre ++ s'.words) (hphrase : StmtPhrase pre src)
    (hproper : st.Proper s.fields.symbols.length)
    (hagrees : StmtAgrees s.fields.bufferName s.fields.symbols s.fields.symbols src st.out) :
    ReadsStmt s s' := by
  refine ⟨hready, ?_, ?_, ?_, ?_, ?_, pre, src, st, hwords, hphrase, ?_, ?_, ?_⟩ <;> rw [hfields]
  exacts [⟨hlisted.buffer, hlisted.sources⟩, rfl, rfl, rfl, Nat.le_refl _, rfl, hproper, hagrees]

theorem initializer_reads {n : Node} {t s₁ : Scan Fields} (hready : Ready s)
    (heq : Yields (require "=") s u t) (h : Yields (expression fullRoom 1) t n s₁)
    (hsemi : Yields (require ";") s₁ u s') :
    Went s s' ∧ ∃ ts e, s.words = "=" :: (ts ++ [";"]) ++ s'.words ∧ Phrase 2 ts e ∧
      AgreesAt s n e := by
  rcases yields_require (by decide) heq with ⟨hwords, hfields⟩
  have hwent : Went s t := went_of_words ["="] hwords hfields
  rcases expression_reads fullRoom _ _ _ (hready.went hwent) h with ⟨hwent₁, hread⟩
  rcases yields_require (by decide) hsemi with ⟨hwords', hfields'⟩
  rw [hwords'] at hread
  rcases hread (closed_cons (by decide) (by decide) (by decide)) with ⟨e, he, hagrees⟩
  rcases he.phrase (by decide) (by decide) with ⟨ts, hts, hphrase⟩
  refine ⟨(hwent.trans hwent₁).trans (went_of_words [";"] hwords' hfields'), ts, e, ?_, hphrase,
    hwent.agrees hagrees⟩
  rw [hwords, hts, List.cons_append, List.append_assoc]
  rfl

theorem Table.emitted_length {array : String} {ss : List Symbol} (h : Table array ss) :
    emittedName ss.length = "mellow_v" ++ toString ss.length := by
  rcases h.first with ⟨s, ss', rfl, _⟩
  rfl

theorem declaration_reads (hready : Ready s) (hlisted : Listed s.fields)
    (h : Yields (declaration const) s u s') :
    Ready s' ∧ Listed s'.fields ∧ ∃ x ts e n, isName x = true ∧
      s.words = x :: "=" :: (ts ++ [";"]) ++ s'.words ∧ Phrase 2 ts e ∧
      s'.fields = s.fields.declare x const n s'.fields.nodeCount ∧
      n.Proper s.fields.symbols.length ∧
      StmtAgrees s.fields.bufferName s.fields.symbols s'.fields.symbols (.decl const x e)
        (.decl const (emittedName s.fields.symbols.length) n.out) := by
  rcases h.bind yields_declaredName with ⟨x, s₁, ⟨hx, hfresh, hwords₁, hfields₁⟩, h₁⟩
  rcases yields_bind.mp h₁ with ⟨_, s₂, heq, h₂⟩
  rcases yields_bind.mp h₂ with ⟨n, s₃, hn, h₃⟩
  rcases yields_bind.mp h₃ with ⟨_, s₄, hsemi, h₄⟩
  have hready₁ : Ready s₁ := by
    refine ⟨fun w hw => hready.words w (hwords₁ ▸ List.mem_cons_of_mem x hw), ?_⟩
    rw [hfields₁]
    exact hready.table
  rcases initializer_reads hready₁ heq hn hsemi with ⟨hwent, ts, e, hwords, hphrase, hagrees⟩
  rw [yields_editFields] at h₄
  have hsource : x ∉ s.fields.symbols.map (·.source) := fun hmem => hfresh (hlisted.sources x hmem)
  have harray : x ≠ s.fields.bufferName := fun h => hfresh (h ▸ hlisted.buffer)
  have hfields : s'.fields = s.fields.declare x const n s'.fields.nodeCount := by
    rw [h₄, Scan.put_fields, hwent.fields, hfields₁, Fields.declare, hready.table.emitted_length]
  have hagrees' : AgreesAt s n e := by
    unfold AgreesAt at hagrees
    rwa [hfields₁] at hagrees
  refine ⟨⟨fun w hw => ?_, ?_⟩, ?_, x, ts, e, n, hx, ?_, hphrase, hfields, hagrees'.proper, ?_⟩
  · rw [h₄, Scan.put_words] at hw
    exact hready₁.words w (hwent.words.subset hw)
  · rw [hfields]
    exact hready.table.snoc hsource harray
  · rw [hfields]
    refine ⟨List.mem_cons_of_mem x hlisted.buffer, fun y hy => ?_⟩
    rcases List.mem_append.mp (List.map_append ▸ hy) with hy | hy
    · exact List.mem_cons_of_mem x (hlisted.sources y hy)
    · rw [List.mem_singleton.mp hy]
      exact List.mem_cons_self
  · rw [hwords₁, hwords, h₄, Scan.put_words]
    rfl
  · rw [hfields]
    exact stmtAgrees_decl hready.table hagrees' hsource harray

theorem assignment_reads {buffer : Bool} {i : Nat} (hready : Ready s)
    (h : Yields (assignment buffer i) s u s') :
    Ready s' ∧ ∃ ts e n, s.words = "=" :: (ts ++ [";"]) ++ s'.words ∧ Phrase 2 ts e ∧
      AgreesAt s n e ∧
      s'.fields = s.fields.append ⟨false, false, buffer, i, n⟩ s'.fields.nodeCount := by
  rcases yields_bind.mp h with ⟨_, s₁, heq, h₁⟩
  rcases yields_bind.mp h₁ with ⟨n, s₂, hn, h₂⟩
  rcases yields_bind.mp h₂ with ⟨_, s₃, hsemi, h₃⟩
  rcases initializer_reads hready heq hn hsemi with ⟨hwent, ts, e, hwords, hphrase, hagrees⟩
  rw [yields_editFields] at h₃
  have hready₃ := hready.went hwent
  refine ⟨?_, ts, e, n, ?_, hphrase, hagrees, ?_⟩
  · rw [h₃]
    exact ⟨hready₃.words, hready₃.table⟩
  · rw [h₃, Scan.put_words, hwords]
  · rw [h₃, Scan.put_fields, hwent.fields, Fields.append]

/-- A declaration makes a statement, with or without `const` before its type. -/
theorem declaration_stmt {t : Scan Fields} (hready : Ready t)
    (hlisted : Listed t.fields) (h : Yields (declaration const) t u s') {pre : List String}
    (hpre : s.words = pre ++ t.words) (hfields : t.fields = s.fields)
    (hphrase : ∀ x ts e, isName x = true → Phrase 2 ts e →
      StmtPhrase (pre ++ x :: "=" :: (ts ++ [";"])) (.decl const x e)) : ReadsStmt s s' := by
  rcases declaration_reads hready hlisted h with
    ⟨hready', hlisted', x, ts, e, n, hx, hwords, hts, hfields', hproper, hagrees⟩
  rw [hfields] at hfields' hproper hagrees
  have hlen : s'.fields.symbols.length = s.fields.symbols.length + 1 := by
    rw [hfields']
    exact List.length_append
  refine ⟨hready', hlisted', by rw [hfields']; rfl, by rw [hfields']; rfl, by rw [hfields']; rfl,
    hlen ▸ Nat.le_add_right _ _, _, _, ⟨true, const, false, s.fields.symbols.length, n⟩, ?_,
    hphrase x ts e hx hts, by rw [hfields']; rfl, ?_, hagrees⟩
  · rw [hpre, hwords, List.append_assoc]
  · rw [hlen]
    exact ⟨hproper.mono (Nat.le_add_right _ _), fun _ => Nat.lt_succ_self _, nofun⟩

/-- A statement is read, and compiled to one that agrees with it. -/
theorem statement_reads (hready : Ready s) (hlisted : Listed s.fields)
    (h : Yields statement s u s') :
    s.fields.statements.length < MaxStatements ∧ ReadsStmt s s' := by
  rcases yields_refuseIf_bind (yields_fields_bind h) with ⟨hbudget, h₁⟩
  refine ⟨Nat.lt_of_not_le (of_decide_eq_false hbudget), ?_⟩
  rcases yields_take_bind (by decide) h₁ with ⟨s₁, hw₁, hf₁, h₂⟩ | h₂
  · rcases yields_take_bind (by decide) h₂ with ⟨s₂, hw₂, hf₂, h₃⟩ | h₃
    · have hpre : s.words = ["const", "uint"] ++ s₂.words := by rw [hw₁, hw₂]; rfl
      have hf := hf₂.trans hf₁
      exact declaration_stmt (hready.went (went_of_words _ hpre hf)) (hf ▸ hlisted) h₃ hpre hf
        fun x ts e hx hts => .constDecl hx hts
    · exact absurd (yields_refuseIf_bind h₃).1 (by decide)
  rcases yields_take_bind (by decide) h₂ with ⟨s₁, hw₁, hf₁, h₃⟩ | h₃
  · have hpre : s.words = ["uint"] ++ s₁.words := hw₁
    exact declaration_stmt (hready.went (went_of_words _ hpre hf₁)) (hf₁ ▸ hlisted) h₃ hpre hf₁
      fun x ts e hx hts => .decl hx hts
  rcases (yields_refuseIf_bind h₃).2.bind yields_name with ⟨x, s₁, ⟨hx, hw₁, hf₁⟩, h₄⟩
  have hwent : Went s s₁ := went_of_words [x] hw₁ hf₁
  have hready₁ := hready.went hwent
  rcases yields_ite.mp h₄ with ⟨hbuffer, h₅⟩ | ⟨_, h₅⟩
  · -- A store.
    rcases yields_bind.mp h₅ with ⟨_, s₂, hindex, h₆⟩
    rcases (parser_reads fullRoom).2.2 _ _ _ hready₁ hindex with
      ⟨hwent₂, m, i, us, hus, hi, hiagrees, hexact⟩
    have hready₂ := hready₁.went hwent₂
    have h₇ := yields_editFields_bind h₆
    rcases assignment_reads (by exact ⟨hready₂.words, hready₂.table⟩) h₇ with
      ⟨hready', ts, e, n, hwords, hphrase, hagrees, hfields⟩
    rcases hi.phrase (by decide) (by decide) with ⟨is, his, hiphrase⟩
    have hagrees' : AgreesAt s n e := (hwent.trans hwent₂).agrees hagrees
    rw [Scan.put_fields, (hwent.trans hwent₂).fields] at hfields
    refine readsStmt_append hready' hlisted hfields ?_ (.store hx hiphrase hphrase)
      ⟨hagrees'.proper, nofun, fun _ => rfl⟩ ?_
    · rw [Scan.put_words] at hwords
      rw [hw₁, hus, his, hwords]
      simp only [List.append_assoc, List.cons_append, List.nil_append]
    · rw [hbuffer]
      exact stmtAgrees_store hready.table hagrees' (hwent.agrees hiagrees) hexact
  · -- An assignment to a variable.
    rcases h₅.bind yields_symbol with ⟨i, s₂, ⟨hidx, rfl⟩, h₆⟩
    rcases yields_refuseIf_bind (yields_fields_bind h₆) with ⟨himm, h₇⟩
    rcases assignment_reads hready₁ h₇ with ⟨hready', ts, e, n, hwords, hphrase, hagrees, hfields⟩
    rw [hf₁] at hidx himm
    rw [hwent.fields] at hfields
    refine readsStmt_append hready' hlisted hfields ?_ (.assign hx hphrase)
      ⟨(hwent.agrees hagrees).proper, fun _ => (List.findIdx?_eq_some_iff_getElem.mp hidx).1, nofun⟩
      (stmtAgrees_assign hready.table (hwent.agrees hagrees) hidx himm)
    rw [hw₁, hwords]
    rfl

end Reading

/-- Statements of the source and of the output do the same. -/
def BodyAgrees (array : String) (ss : List Symbol) (srcs outs : List Stmt) : Prop :=
  ∀ g vs vs' buf, Matches g ss vs vs' →
    (∃ ws ws' buf', srcs.foldlM (exec array) (vs, buf) = .ok (ws, buf') ∧
      outs.foldlM (exec "mellow_buffer0") (vs', buf) = .ok (ws', buf')) ∨
    (srcs.foldlM (exec array) (vs, buf) = .error .outside ∧
      outs.foldlM (exec "mellow_buffer0") (vs', buf) = .error .outside ∧ buf.length ≤ g.toNat)

section Bodies

variable {s s' : Scan Fields}

theorem bodyAgrees_nil {array : String} {ss : List Symbol} : BodyAgrees array ss [] [] :=
  fun _ vs vs' buf _ => .inl ⟨vs, vs', buf, rfl, rfl⟩

theorem bodyAgrees_cons {array : String} {ss ss' : List Symbol} {src out : Stmt}
    {srcs outs : List Stmt} (h : StmtAgrees array ss ss' src out)
    (hs : BodyAgrees array ss' srcs outs) : BodyAgrees array ss (src :: srcs) (out :: outs) := by
  intro g vs vs' buf hm
  rw [List.foldlM_cons, List.foldlM_cons]
  rcases h g vs vs' buf hm with ⟨ws, ws', buf', hsrc, hout, hm', hlen⟩ | ⟨hsrc, hout, hlen⟩
  · rw [hsrc, hout, ← hlen]
    exact hs g ws ws' buf' hm'
  · rw [hsrc, hout]
    exact .inr ⟨rfl, rfl, hlen⟩

/-- What reading statements up to the closing brace does. -/
structure ReadsBody (s s' : Scan Fields) : Prop where
  words : ∀ w ∈ s'.words, WordOk w
  table : Table s'.fields.bufferName s'.fields.symbols
  buffer : s'.fields.bufferName = s.fields.bufferName
  thread : s'.fields.threadName = s.fields.threadName
  entry : s'.fields.entry = s.fields.entry
  length : s.fields.symbols.length ≤ s'.fields.symbols.length
  read : ∃ pre srcs sts, s.words = pre ++ "\x7d" :: s'.words ∧ BodyPhrase pre srcs ∧
    s'.fields.statements = s.fields.statements ++ sts ∧
    (∀ st ∈ sts, st.Proper s'.fields.symbols.length) ∧
    BodyAgrees s.fields.bufferName s.fields.symbols srcs (sts.map Statement.out)

theorem readsBody_done (hready : Ready s) (hat : s.isAt "\x7d" = true) : ReadsBody s s.next := by
  have hwords := Scan.words_of_peek (Scan.peek_of_isAt hat) (by decide)
  have hready' := hready.went (went_of_words ["\x7d"] hwords rfl)
  exact ⟨hready'.words, hready'.table, rfl, rfl, rfl, Nat.le_refl _,
    [], [], [], hwords, .nil, (List.append_nil _).symm, nofun, bodyAgrees_nil⟩

theorem body_reads {n : Nat} {u : Unit} (hready : Ready s) (hlisted : Listed s.fields)
    (hbudget : MaxStatements ≤ s.fields.statements.length + n) (h : Yields (body n) s u s') :
    ReadsBody s s' := by
  induction n generalizing s with
  | zero =>
    rcases yields_bind.mp h with ⟨b, t, htake, h₁⟩
    rcases yields_take (by decide) htake with ⟨rfl, hat, rfl⟩ | ⟨rfl, _, rfl⟩
    · simp [(yields_pure.mp h₁).2, readsBody_done, *]
    · -- The budget is used up, and the next statement is refused.
      exact absurd (statement_reads hready hlisted h₁).1 (Nat.not_lt.mpr hbudget)
  | succ n ih =>
    rcases yields_bind.mp h with ⟨b, t, htake, h₁⟩
    rcases yields_take (by decide) htake with ⟨rfl, hat, rfl⟩ | ⟨rfl, _, rfl⟩
    · simp [(yields_pure.mp h₁).2, readsBody_done, *]
    · rcases yields_bind.mp h₁ with ⟨_, s₁, hstmt, h₂⟩
      rcases (statement_reads hready hlisted hstmt).2 with
        ⟨hready₁, hlisted₁, hbuffer, hthread, hentry, hlen, pre, src, st, hwords, hphrase, hst,
          hproper, hagrees⟩
      have hbudget₁ : MaxStatements ≤ s₁.fields.statements.length + n := by
        rw [hst, List.length_append, List.length_singleton]
        omega
      rcases ih hready₁ hlisted₁ hbudget₁ h₂ with
        ⟨hok, htable, hbuffer', hthread', hentry', hlen', pre', srcs, sts, hwords', hphrase', hsts,
          hproper', hagrees'⟩
      refine ⟨hok, htable, hbuffer'.trans hbuffer, hthread'.trans hthread, hentry'.trans hentry,
        Nat.le_trans hlen hlen', pre ++ pre', src :: srcs, st :: sts, ?_,
        .cons hphrase hphrase', ?_, ?_, ?_⟩
      · rw [hwords, hwords', List.append_assoc]
      · rw [hsts, hst, List.append_assoc]
        rfl
      · intro st' hmem
        rcases List.mem_cons.mp hmem with rfl | hmem
        · exact ⟨hproper.expression.mono hlen',
            fun h => Nat.lt_of_lt_of_le (hproper.symbol h) hlen', hproper.buffer⟩
        · exact hproper' st' hmem
      · rw [hbuffer] at hagrees'
        exact bodyAgrees_cons hagrees hagrees'

end Bodies

/-- The two parameters, in either order. -/
inductive Params : List String → String → String → Prop where
  | buffer {b t z : String} (hz : z.toList ≠ [] ∧ ∀ c ∈ z.toList, c = '0') :
      Params ["device", "uint", "*", b, "[", "[", "buffer", "(", z, ")", "]", "]", ",", "uint", t,
        "[", "[", "thread_position_in_grid", "]", "]"] b t
  | thread {b t z : String} (hz : z.toList ≠ [] ∧ ∀ c ∈ z.toList, c = '0') :
      Params ["uint", t, "[", "[", "thread_position_in_grid", "]", "]", ",", "device", "uint", "*",
        b, "[", "[", "buffer", "(", z, ")", "]", "]"] b t

/-- The words of a source, and the kernel that they are. -/
inductive MslUnit (entry : String) : List String → Kernel → Prop where
  | mk {inc use ps ws : List String} {b t : String} {body : List Stmt}
      (hinc : inc = [] ∨ inc = ["#", "include", "<", "metal_stdlib", ">"])
      (huse : use = [] ∨ use = ["using", "namespace", "metal", ";"]) (hps : Params ps b t)
      (hbody : BodyPhrase ws body) :
      MslUnit entry
        (inc ++ (use ++ "kernel" :: "void" :: entry :: "(" ::
          (ps ++ ")" :: "\x7b" :: (ws ++ ["\x7d"]))))
        ⟨b, t, false, body⟩

theorem Params.unique {ps ps' us us' : List String} {b b' t t' : String} (h : Params ps b t)
    (h' : Params ps' b' t') (heq : ps ++ us = ps' ++ us') : b = b' ∧ t = t' ∧ us = us' := by
  cases h with
  | buffer =>
    cases h' with
    | buffer =>
      simp only [List.cons_append, List.nil_append, List.cons.injEq, true_and] at heq
      exact ⟨heq.1, heq.2.2.1, heq.2.2.2⟩
    | thread => exact absurd (List.cons.inj heq).1 (by decide)
  | thread =>
    cases h' with
    | buffer => exact absurd (List.cons.inj heq).1 (by decide)
    | thread =>
      simp only [List.cons_append, List.nil_append, List.cons.injEq, true_and] at heq
      exact ⟨heq.2.1, heq.1, heq.2.2.2⟩

theorem MslUnit.unique {entry : String} {ws : List String} {k k' : Kernel} (h : MslUnit entry ws k)
    (h' : MslUnit entry ws k') : k = k' := by
  cases h with
  | @mk inc use ps us b t body hinc huse hps hbody =>
    generalize hws : (inc ++ (use ++ "kernel" :: "void" :: entry :: "(" ::
      (ps ++ ")" :: "\x7b" :: (us ++ ["\x7d"])))) = ws at h'
    cases h' with
    | @mk inc' use' ps' us' b' t' body' hinc' huse' hps' hbody' =>
      have hcore : ps ++ ")" :: "\x7b" :: (us ++ ["\x7d"]) =
          ps' ++ ")" :: "\x7b" :: (us' ++ ["\x7d"]) := by
        rcases hinc with rfl | rfl <;> rcases hinc' with rfl | rfl <;>
          rcases huse with rfl | rfl <;> rcases huse' with rfl | rfl <;>
          simp at hws <;> exact hws
      rcases hps.unique hps' hcore with ⟨rfl, rfl, hrest⟩
      rw [List.cons.injEq, List.cons.injEq] at hrest
      rw [(hbody.unique_before hbody' hrest.2.2).1]

section Kernels

variable {s s' : Scan Fields} {u : Unit} {entry : String}

theorem parameter_reads (h : Yields parameter s u s') :
    (s.fields.bufferName = "" ∧ ∃ b z, isName b = true ∧ b ∉ s.fields.names ∧
      (z.toList ≠ [] ∧ ∀ c ∈ z.toList, c = '0') ∧
      s.words = ["device", "uint", "*", b, "[", "[", "buffer", "(", z, ")", "]", "]"] ++ s'.words ∧
      s'.fields = { s.fields with names := b :: s.fields.names, bufferName := b }) ∨
    (s.fields.threadName = "" ∧ ∃ t, isName t = true ∧ t ∉ s.fields.names ∧
      s.words = ["uint", t, "[", "[", "thread_position_in_grid", "]", "]"] ++ s'.words ∧
      s'.fields =
        { s.fields with
          names := t :: s.fields.names
          threadName := t
          symbols := s.fields.symbols ++ [⟨t, "mellow_gid", true, true⟩] }) := by
  rcases yields_take_bind (by decide) h with ⟨s₁, hw₁, hf₁, h₁⟩ | h₁
  · rcases yields_refuseIf_bind (yields_fields_bind h₁) with ⟨hnone, h₂⟩
    rcases yields_requires ["uint", "*"] (by decide) h₂ with ⟨s₂, hw₂, hf₂, h₃⟩
    rcases h₃.bind yields_declaredName with ⟨b, s₃, ⟨hb, hfresh, hw₃, hf₃⟩, h₄⟩
    rcases yields_requires ["[", "[", "buffer", "("] (by decide) (yields_editFields_bind h₄) with
      ⟨s₄, hw₄, hf₄, h₅⟩
    rcases h₅.bind yields_decimal with ⟨i, s₅, ⟨z, hw₅, hne, hz, hf₅⟩, h₆⟩
    rcases yields_refuseIf_bind h₆ with ⟨hzero, h₇⟩
    rcases yields_requires_last [")", "]"] "]" (by decide) h₇ with ⟨hw₆, hf₆⟩
    have hi : i = 0 := by simpa using hzero
    rw [hi] at hz
    rw [hf₁] at hnone
    rw [hf₂, hf₁] at hf₃ hfresh
    rw [Scan.put_words] at hw₄
    refine .inl ⟨not_not.mp (of_decide_eq_false hnone), b, z, hb, hfresh,
      ⟨fun h => hne (String.toList_eq_nil_iff.mp h), (decimalValue_zero hz).2⟩, ?_, ?_⟩
    · simp [*]
    · rw [hf₆, hf₅, hf₄, Scan.put_fields, hf₃]
  · rcases yields_require_bind (by decide) h₁ with ⟨s₁, hw₁, hf₁, h₂⟩
    rcases yields_refuseIf_bind (yields_fields_bind h₂) with ⟨hnone, h₃⟩
    rcases h₃.bind yields_declaredName with ⟨t, s₂, ⟨ht, hfresh, hw₂, hf₂⟩, h₄⟩
    rcases yields_requires ["[", "[", "thread_position_in_grid", "]", "]"] (by decide)
      (yields_editFields_bind h₄) with ⟨s₃, hw₃, hf₃, h₅⟩
    have h₆ : s' = s₃.put _ := yields_modify.mp h₅
    rw [hf₁] at hf₂ hfresh hnone
    rw [Scan.put_words] at hw₃
    refine .inr ⟨not_not.mp (of_decide_eq_false hnone), t, ht, hfresh, ?_, ?_⟩
    · simp [*]
    · simp [*]

theorem name_ne_empty {x : String} (h : isName x = true) : x ≠ "" := by
  rintro rfl
  exact absurd h (by decide)

/-- What holds after the signature has been read. -/
structure Signed (entry : String) (f : Fields) : Prop where
  entry : f.entry = entry
  symbols : f.symbols = [⟨f.threadName, "mellow_gid", true, true⟩]
  table : Table f.bufferName f.symbols
  listed : Listed f
  statements : f.statements = []

theorem table_thread {array thread : String} (h : array ≠ thread) :
    Table array [⟨thread, "mellow_gid", true, true⟩] where
  emitted := rfl
  sources := List.nodup_singleton _
  array hmem := h (List.mem_singleton.mp hmem)
  immutable s hs _ := by rw [List.mem_singleton.mp hs]
  first := ⟨_, _, rfl, rfl⟩

theorem signed_of {b t : String} {names : List String} (hne : b ≠ t) (hb : b ∈ names)
    (ht : t ∈ names) :
    Signed entry ⟨entry, b, t, names, [⟨t, "mellow_gid", true, true⟩], [], 0, 0⟩ :=
  ⟨rfl, rfl, table_thread hne, ⟨hb, fun _ hx => (List.mem_singleton.mp hx).symm ▸ ht⟩, rfl⟩

/-- The signature has the two parameters, in either order. -/
theorem signature_reads (hinit : s.fields = { entry := entry })
    (h : Yields signature s u s') :
    Signed entry s'.fields ∧ ∃ ps, Params ps s'.fields.bufferName s'.fields.threadName ∧
      s.words = "kernel" :: "void" :: entry :: "(" :: (ps ++ ")" :: s'.words) := by
  rcases yields_requires ["kernel", "void"] (by decide) h with ⟨s₁, hw₁, hf₁, h₁⟩
  rcases (yields_fields_bind h₁).bind yields_name with ⟨n, s₂, ⟨_, hw₂, hf₂⟩, h₂⟩
  rcases yields_refuseIf_bind h₂ with ⟨hentry, h₃⟩
  rcases yields_require_bind (by decide) h₃ with ⟨s₃, hw₃, hf₃, h₄⟩
  rcases h₄.bind parameter_reads with ⟨_, s₄, hp, h₅⟩
  rcases yields_require_bind (by decide) h₅ with ⟨s₅, hw₅, hf₅, h₆⟩
  rcases h₆.bind parameter_reads with ⟨_, s₆, hp', h₇⟩
  rcases yields_require_bind (by decide) h₇ with ⟨s₇, hw₇, hf₇, h₈⟩
  have h₉ := yields_fields_bind h₈
  rcases yields_refuseIf.mp h₉ with ⟨_, rfl⟩
  have hn : n = entry := by
    rw [hf₁, hinit] at hentry
    exact not_not.mp (of_decide_eq_false hentry)
  have hstart : s₃.fields = { entry := entry } := by rw [hf₃, hf₂, hf₁, hinit]
  have hopening : s.words = "kernel" :: "void" :: entry :: "(" :: s₃.words := by
    rw [hw₁, hw₂, hw₃, hn]
    rfl
  rcases hp with ⟨_, b, z, hb, _, hz, hw₄, hf₄⟩ | ⟨_, t, ht, _, hw₄, hf₄⟩
  · rcases hp' with ⟨hno, _⟩ | ⟨_, t, ht, hfresh, hw₆, hf₆⟩
    · rw [hf₅, hf₄] at hno
      exact absurd hno (name_ne_empty hb)
    · have hfinal : s'.fields = ⟨entry, b, t, [t, b], [⟨t, "mellow_gid", true, true⟩],
        [], 0, 0⟩ := by
        rw [hf₇, hf₆, hf₅, hf₄, hstart]
        rfl
      rw [hf₅, hf₄, hstart] at hfresh
      rw [hfinal]
      refine ⟨signed_of (fun h => hfresh (h ▸ List.mem_cons_self)) (by simp) (by simp), _,
        .buffer hz, ?_⟩
      rw [hopening, hw₄, hw₅, hw₆, hw₇]
      rfl
  · rcases hp' with ⟨_, b, z, hb, hfresh, hz, hw₆, hf₆⟩ | ⟨hno, _⟩
    · have hfinal : s'.fields = ⟨entry, b, t, [b, t], [⟨t, "mellow_gid", true, true⟩],
        [], 0, 0⟩ := by
        rw [hf₇, hf₆, hf₅, hf₄, hstart]
        rfl
      rw [hf₅, hf₄, hstart] at hfresh
      rw [hfinal]
      refine ⟨signed_of (fun h => hfresh (h ▸ List.mem_cons_self)) (by simp) (by simp), _,
        .thread hz, ?_⟩
      rw [hopening, hw₄, hw₅, hw₆, hw₇]
      rfl
    · rw [hf₅, hf₄] at hno
      exact absurd hno (name_ne_empty ht)

theorem preamble_reads (h : Yields preamble s u s') :
    s'.fields = s.fields ∧ ∃ inc use, s.words = inc ++ (use ++ s'.words) ∧
      (inc = [] ∨ inc = ["#", "include", "<", "metal_stdlib", ">"]) ∧
      (use = [] ∨ use = ["using", "namespace", "metal", ";"]) := by
  rcases yields_bind.mp h with ⟨_, t, hinc, huse⟩
  have hfirst : t.fields = s.fields ∧ ∃ inc, s.words = inc ++ t.words ∧
      (inc = [] ∨ inc = ["#", "include", "<", "metal_stdlib", ">"]) := by
    rcases yields_whenM_take (by decide) hinc with ⟨s₁, hw₁, hf₁, h₁⟩ | rfl
    · rcases yields_requires_last ["include", "<", "metal_stdlib"] ">" (by decide)
        h₁ with ⟨hw₂, hf₂⟩
      exact ⟨hf₂.trans hf₁, _, by rw [hw₁, hw₂]; rfl, .inr rfl⟩
    · exact ⟨rfl, [], rfl, .inl rfl⟩
  rcases hfirst with ⟨hf, inc, hw, hinc'⟩
  rcases yields_whenM_take (by decide) huse with ⟨s₁, hw₁, hf₁, h₁⟩ | rfl
  · rcases yields_requires_last ["namespace", "metal"] ";" (by decide) h₁ with ⟨hw₂, hf₂⟩
    exact ⟨hf₂.trans (hf₁.trans hf), inc, _, by rw [hw, hw₁, hw₂]; rfl, hinc', .inr rfl⟩
  · exact ⟨hf, inc, [], hw, hinc', .inl rfl⟩

theorem yields_require_end (hwords : ∀ w ∈ s.words, WordOk w)
    (h : Yields (require "" : Msl Unit) s u s') : s.words = [] ∧ s' = s := by
  rcases h.bind yields_bind.mp with ⟨b, t, ⟨_, _, hget, h₂⟩, h₁⟩
  rcases yields_get.mp hget with ⟨rfl, rfl⟩
  rcases yields_ite.mp h₂ with ⟨hat, h₃⟩ | ⟨_, h₃⟩
  · cases h₃
    rw [(yields_pure.mp h₁).2]
    have hpeek := Scan.peek_of_isAt hat
    rw [Scan.peek_text] at hpeek
    refine ⟨?_, rfl⟩
    cases hw : Scan.words _ with
    | nil => rfl
    | cons w ws =>
      rw [hw] at hpeek hwords
      exact absurd hpeek (hwords w List.mem_cons_self).ne
  · rw [(yields_pure.mp h₃).1] at h₁
    exact absurd h₁ yields_fail

/-- A source that is accepted is a kernel, and what is emitted agrees with
    it. -/
theorem run_reads {r : CompileResult} (hinit : s.fields = { entry := entry })
    (hwords : ∀ w ∈ s.words, WordOk w) (h : Yields run s r s') :
    ∃ (k : Kernel) (f : Fields), MslUnit entry s.words k ∧ r = f.result ∧
      f.entry = entry ∧ isName entry = true ∧
      Table f.bufferName f.symbols ∧ (∀ st ∈ f.statements, st.Proper f.symbols.length) ∧
      k.threadConst = false ∧
      BodyAgrees k.array [⟨k.thread, "mellow_gid", true, true⟩] k.body
        (f.statements.map Statement.out) := by
  rcases h.bind yields_fields.mp with ⟨f, s₁, ⟨rfl, rfl⟩, h₁⟩
  rcases h₁.bind yields_refuseIf.mp with ⟨_, s₂, ⟨hentry, rfl⟩, h₂⟩
  rcases h₂.bind preamble_reads with ⟨_, s₃, ⟨hf₃, inc, use, hw₃, hinc, huse⟩, h₃⟩
  rcases yields_bind.mp h₃ with ⟨_, s₄, hsig, h₄⟩
  rcases signature_reads (hf₃.trans hinit) hsig with ⟨hsigned, ps, hps, hw₄⟩
  rcases yields_require_bind (by decide) h₄ with ⟨s₅, hw₅, hf₅, h₅⟩
  rcases yields_bind.mp h₅ with ⟨_, s₆, hbody, h₆⟩
  have hsuffix : ∀ w ∈ s₅.words, WordOk w := fun w hw => hwords w (by
    rw [hw₃, hw₄, hw₅]
    simp [hw])
  have hready₅ : Ready s₅ := by
    refine ⟨hsuffix, ?_⟩
    rw [hf₅]
    exact hsigned.table
  rcases body_reads hready₅ (hf₅ ▸ hsigned.listed) (Nat.le_add_left _ _) hbody with
    ⟨hwords₆, htable, hbuffer, hthread, hentry₆, _, ws, srcs, sts, hw₆, hphrase, hsts,
    hproper, hagrees⟩
  rw [hf₅, hsigned.statements, List.nil_append] at hsts
  rw [hf₅] at hagrees hbuffer hthread hentry₆
  rw [hsigned.symbols] at hagrees
  rcases yields_bind.mp h₆ with ⟨_, s₇, hend, h₇⟩
  rcases yields_require_end hwords₆ hend with ⟨hw₇, rfl⟩
  rcases h₇.bind yields_fields.mp with ⟨f, s₈, ⟨rfl, rfl⟩, h₈⟩
  rcases yields_bind.mp h₈ with ⟨_, s₉, hrefuse', h₉⟩
  refine ⟨⟨s₄.fields.bufferName, s₄.fields.threadName, false, srcs⟩, s₈.fields, ?_,
    (yields_pure.mp h₉).1, hentry₆.trans hsigned.entry, ?_, htable, ?_, rfl, ?_⟩
  · rw [hw₃, hw₄, hw₅, hw₆, hw₇]
    exact .mk hinc huse hps hphrase
  · simp only [Bool.or_eq_false_iff, hinit, Bool.not_eq_false'] at hentry
    exact hentry.1.1
  · rw [hsts]
    exact hproper
  · rw [hsts]
    exact hagrees

end Kernels

end Mellow.ShaderJit
