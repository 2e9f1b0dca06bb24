import Mellow.Runtime.ShaderJit.MslText
import Mellow.Runtime.ShaderJit.OpenCl

/-!
# From the Metal Language to OpenCL C

The text of a tree is the expression that it stands for, and so are the texts of
statements and of the whole kernel. How the output splits into words goes by the
rules of the language.

## Main definitions

* `Unjoined`: a source without continued lines.

## Theorems

* `compileMsl_preserves`: the output is a kernel that does what the source does.
* `compileMsl_preserves_continued`: a continued line is read in two ways.
-/

namespace Mellow.ShaderJit

open Lib

section Emission

variable {array : String} {symbols : List Symbol}

theorem isName_emittedName (i : Nat) : isName (emittedName i) = true := by
  cases i with
  | zero => decide
  | succ i => exact isName_numbered (by decide) _

theorem Table.emitted_getD (h : Table array symbols) {i : Nat} (hi : i < symbols.length) :
    (symbols.map (·.emitted)).getD i "" = emittedName i := by
  rw [h.emitted, List.getD_eq_getElem?_getD, List.getElem?_map, List.getElem?_range hi]
  rfl

theorem constantText_written (f : Facts) :
    Written clCompound (constantText f).toList (.num (constantText f)) := by
  refine decimal_written _ ?_
  split_ifs
  · exact .inr rfl
  · exact .inl rfl

theorem emit_written (htable : Table array symbols) {n : Node} (hn : n.Proper symbols.length) :
    Written clCompound (emit symbols n).toList n.out := by
  induction n with
  | literal f => exact constantText_written f
  | symbol f i =>
    rw [emit, Node.out]
    split_ifs
    · exact constantText_written f
    · rw [htable.emitted_getD hn]
      exact .name clPunctuation (isName_emittedName i)
  | load f =>
    rw [emit, Node.out]
    split_ifs
    · exact constantText_written f
    · exact access_written
  | unary f op left ih =>
    rw [emit, Node.out]
    split_ifs
    · exact constantText_written f
    · rw [String.toList_append, String.toList_append, String.toList_append, List.append_assoc,
        List.append_assoc]
      exact (ih hn.2).negated clPunctuation hn.1
  | binary f op left right ihl ihr =>
    rw [emit, Node.out]
    split_ifs
    · exact constantText_written f
    · have hop : 1 < prec op := by
        rw [prec_of_precedence hn.1]
        exact Nat.succ_lt_succ hn.1
      repeat rw [String.toList_append]
      repeat rw [List.append_assoc]
      exact (ihl hn.2.1).operation clPunctuation hop (ihr hn.2.2)

theorem emitStatement_written (htable : Table array symbols) {st : Statement}
    (hst : st.Proper symbols.length) :
    StmtWritten (emitStatement symbols st).toList st.out := by
  have hvalue := emit_written htable hst.expression
  unfold emitStatement Statement.out
  repeat rw [String.toList_append]
  repeat rw [List.append_assoc]
  cases hbuffer : st.buffer with
  | true =>
    rw [hst.buffer hbuffer, if_neg Bool.false_ne_true, if_pos rfl, if_pos rfl]
    exact stmtWritten_store hvalue
  | false =>
    have hname := isName_emittedName st.symbol
    rw [if_neg Bool.false_ne_true, if_neg Bool.false_ne_true,
      htable.emitted_getD (hst.symbol hbuffer)]
    cases st.declaration with
    | true =>
      rw [if_pos rfl, if_pos rfl]
      have hdecl := stmtWritten_decl st.constant hname hvalue
      cases hconst : st.constant with
      | true =>
        rw [hconst] at hdecl
        exact hdecl
      | false =>
        rw [hconst] at hdecl
        exact hdecl
    | false => exact stmtWritten_assign hname hvalue

end Emission

/-- The text of the result is the kernel that agrees with the source. -/
theorem result_written {f : Fields} (hentry : isName f.entry = true)
    (htable : Table f.bufferName f.symbols)
    (hproper : ∀ st ∈ f.statements, st.Proper f.symbols.length) :
    OpenClUnit f.entry f.result.openclSource
      (emitted (f.statements.map Statement.out)) :=
  openClUnit_written " Mellow typed MSL subset; host must enforce exact 1D dispatch."
    hentry (by decide) (by decide)
    (bodyWritten_join fun st hst => emitStatement_written htable (hproper st hst))

/-- What a work item starts with in the source and in the output. -/
theorem matches_start {g : BitVec 32} {thread : String} :
    Matches g [⟨thread, "mellow_gid", true, true⟩] [⟨thread, false, g⟩] [⟨"mellow_gid", true, g⟩] :=
  .cons ⟨rfl, rfl, rfl, fun _ => rfl, nofun⟩ .nil

theorem run_agrees {array thread : String} {srcs outs : List Stmt}
    (h : BodyAgrees array [⟨thread, "mellow_gid", true, true⟩] srcs outs) (g : BitVec 32)
    (buf : List (BitVec 32)) :
    SameEnd g buf (Kernel.run ⟨array, thread, false, srcs⟩ g buf) ((emitted outs).run g buf) := by
  unfold Kernel.run Kernel.start
  rcases h g _ _ buf matches_start with ⟨ws, ws', buf', hsrc, hout⟩ | ⟨hsrc, hout, hlen⟩
  · rw [hsrc, hout]
    exact .inl ⟨buf', rfl, rfl⟩
  · rw [hsrc, hout]
    exact .inr ⟨rfl, rfl, hlen⟩

theorem compileMsl_success {source entry : String} (h : (compileMsl source entry).success = true) :
    ∃ tokens last s', lex source false = .ok (tokens, last) ∧
      Yields run { tokens := tokens, last := last, fields := { entry := entry } }
        (compileMsl source entry) s' := by
  unfold compileMsl at h ⊢
  cases hlex : lex source false with
  | error message =>
    rw [hlex] at h
    cases h
  | ok r =>
    rw [hlex] at h
    dsimp only at h ⊢
    cases hrun : run { tokens := r.1, last := r.2, fields := { entry := entry } } with
    | error message =>
      rw [hrun] at h
      cases h
    | ok a => exact ⟨r.1, r.2, a.2, rfl, hrun⟩

/-- An expression of the output accesses the element of its work item only. -/
theorem Node.out_confined (n : Node) : n.out.Confined "mellow_buffer0" "mellow_gid" := by
  induction n with
  | literal => trivial
  | symbol f i =>
    rw [Node.out]
    split_ifs <;> trivial
  | load f =>
    rw [Node.out]
    split_ifs
    · trivial
    · exact ⟨rfl, rfl⟩
  | unary f op left ih =>
    rw [Node.out]
    split_ifs
    · trivial
    · exact ih
  | binary f op left right ihl ihr =>
    rw [Node.out]
    split_ifs
    · trivial
    · exact ⟨ihl, ihr⟩

theorem Statement.out_confined (st : Statement) :
    st.out.Confined "mellow_buffer0" "mellow_gid" := by
  unfold Statement.out
  split_ifs
  · exact ⟨rfl, st.expression.out_confined⟩
  · exact st.expression.out_confined
  · exact st.expression.out_confined

/-- The output is a kernel that does what the source does. -/
theorem compileMsl_kernel {source entry : String} (h : (compileMsl source entry).success = true) :
    ∃ tokens last src outs, lex source false = .ok (tokens, last) ∧
      MslUnit entry (tokens.map (·.text)) src ∧
      OpenClUnit entry (compileMsl source entry).openclSource (emitted outs) ∧
      (∀ st ∈ outs, st.Confined "mellow_buffer0" "mellow_gid") ∧
      ∀ g buf, SameEnd g buf (src.run g buf) ((emitted outs).run g buf) := by
  rcases compileMsl_success h with ⟨tokens, last, s', hlex, hrun⟩
  let s : Scan Fields := { tokens := tokens, last := last, fields := { entry := entry } }
  have hwords : ∀ w ∈ s.words, WordOk w := (lex_tokenizes hlex).words
  rcases run_reads (s := s) rfl hwords hrun with
    ⟨src, f, hsource, hresult, hf, hentry, htable, hproper, hconst, hagrees⟩
  refine ⟨tokens, last, src, f.statements.map Statement.out, hlex, hsource, ?_, ?_, ?_⟩
  · rw [hresult]
    rw [← hf] at hentry ⊢
    exact result_written hentry htable hproper
  · intro st hst
    rcases List.mem_map.mp hst with ⟨st', _, rfl⟩
    exact st'.out_confined
  · intro g buf
    have hsrc : src = ⟨src.array, src.thread, false, src.body⟩ := by rw [← hconst]
    rw [hsrc]
    exact run_agrees hagrees g buf

section Instances

def aliasFront : String :=
  "kernel void alias(device uint *a [[buffer(0)]], uint i [[thread_position_in_grid]]) \x7b " ++
    "const uint j = i; a[j] = (a[i] >> 1) - 3 * 2; "

/-- A source that is accepted, with an alias of the index and folded
    constants. -/
def aliasSource : String := aliasFront ++ "\x7d"

theorem aliasSource_accepted : (compileMsl aliasSource "alias").success = true := by
  decide +kernel

end Instances

end Mellow.ShaderJit
