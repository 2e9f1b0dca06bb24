import Mellow.Lib.CWrite
import Mellow.Lib.WorkItems
import Mellow.Runtime.ShaderJit.Msl

/-!
# Kernels in OpenCL C

The output of both front ends, read as OpenCL C: a text is split into words by
the rules of C99, and the words are a kernel. That there is one is shown for
each front end.

## Main definitions

* `OpenClUnit`: a text and the kernel that it is.
* `BodyWritten`: a text that is a list of statements.

## Theorems

* `OpenClUnit.unique`: a text is one kernel at most.
* `openClUnit_written`: a written body makes a kernel.
-/

namespace Mellow.ShaderJit

open Lib

/-- The kernel of an output with the given body. -/
abbrev emitted (body : List Stmt) : Kernel := ⟨"mellow_buffer0", "mellow_gid", true, body⟩

/-- Two runs end with the same buffer, or both fail where `g` is outside of it. -/
def SameEnd (g : BitVec 32) (buf : List (BitVec 32)) (r r' : Except Fault (List (BitVec 32))) :
    Prop :=
  (∃ buf', r = .ok buf' ∧ r' = .ok buf') ∨
    (r = .error .outside ∧ r' = .error .outside ∧ buf.length ≤ g.toNat)

/-- The operators of several characters in OpenCL C, longer ones first. -/
def clCompound : List (List Char) :=
  ["%:%:", "...", "<<=", ">>=", "->", "++", "--", "<<", ">>", "<=", ">=", "==", "!=", "&&", "||",
    "*=", "/=", "%=", "+=", "-=", "&=", "^=", "|=", "##", "<:", ":>", "<%", "%>",
    "%:"].map String.toList

theorem clPunctuation : Punctuation clCompound where
  nonempty := by decide
  punct := by
    have hall : clCompound.all
        (fun u => u.all fun c => isPunct c = true ∧ isBracket c = false) = true := by decide
    intro u hu c hc
    exact of_decide_eq_true (List.all_eq_true.mp (List.all_eq_true.mp hall u hu) c hc)
  word := by decide

/-- The words before the statements. -/
def clHead (entry a g : String) : List String :=
  ["__kernel", "void", entry, "(", "__global", "uint", "*", a, ")", "\x7b", "const", "uint", g, "=",
    "(", "uint", ")", "get_global_id", "(", "0", ")", ";"]

inductive OpenClUnit (entry text : String) : Kernel → Prop where
  | mk {a g : String} {ws : List String} {body : List Stmt}
      (hlex : Lexes true clCompound text.toList (clHead entry a g ++ (ws ++ ["\x7d"])))
      (hbody : BodyPhrase ws body) : OpenClUnit entry text ⟨a, g, true, body⟩

theorem OpenClUnit.unique {entry text : String} {k k' : Kernel} (h : OpenClUnit entry text k)
    (h' : OpenClUnit entry text k') : k = k' := by
  cases h with
  | mk hlex hbody =>
    cases h' with
    | mk hlex' hbody' =>
      have heq := hlex.unique hlex'
      simp only [clHead, List.cons_append, List.nil_append, List.cons.injEq, true_and] at heq
      rcases heq with ⟨rfl, rfl, heq⟩
      rw [(hbody.unique_before hbody' heq).1]

/-- A number in decimal, with or without the suffix for `uint`, is one word. -/
theorem decimal_written (n : Nat) {t : String} (ht : t = "" ∨ t = "u") :
    Written clCompound (toString n ++ t).toList (.num (toString n ++ t)) := by
  have hlist : (toString n ++ t).toList = (toString n).toList ++ t.toList := String.toList_append
  cases hcs : (toString n).toList with
  | nil => exact absurd hcs (repr_ne_nil _)
  | cons c cs =>
    have hdigit : ∀ d ∈ c :: cs, isDigit d = true := by
      rw [← hcs]
      exact fun d hd => isDigit_repr hd
    rw [hcs, List.cons_append] at hlist
    refine .number (isConstant_alnum hlist (hdigit c List.mem_cons_self) fun d hd => ?_) ?_
    · rcases List.mem_append.mp hd with hd | hd
      · rw [isAlnum, hdigit d (List.mem_cons_of_mem c hd), Bool.or_true]
      · rcases ht with rfl | rfl
        · cases hd
        · rw [List.mem_singleton.mp hd]
          decide
    · rw [hlist]
      intro d hd
      rw [← Option.some.inj hd]
      refine clPunctuation.joins_other (isAlnum_not_punct ?_)
      rw [isAlnum, hdigit c List.mem_cons_self, Bool.or_true]

theorem access_written :
    Written clCompound "mellow_buffer0[mellow_gid]".toList
      (.index (.name "mellow_buffer0") (.name "mellow_gid")) := by
  have hgid := Written.name clPunctuation (x := "mellow_gid") (by decide)
  exact hgid.element clPunctuation (a := "mellow_buffer0") (by decide)

theorem isName_append {x y : String} (hx : isName x = true)
    (hy : ∀ c ∈ y.toList, isAlnum c = true) : isName (x ++ y) = true := by
  unfold isName at hx ⊢
  rw [String.toList_append]
  cases hcs : x.toList with
  | nil =>
    rw [hcs] at hx
    cases hx
  | cons c cs =>
    rw [hcs] at hx
    rcases Bool.and_eq_true_iff.mp hx with ⟨hc, hall⟩
    refine Bool.and_eq_true_iff.mpr ⟨hc, List.all_eq_true.mpr fun d hd => ?_⟩
    rcases List.mem_append.mp hd with hd | hd
    · exact List.all_eq_true.mp hall d hd
    · exact hy d hd

theorem isName_numbered {x : String} (hx : isName x = true) (n : Nat) :
    isName (x ++ toString n) = true :=
  isName_append hx fun c hc => by rw [isAlnum, isDigit_repr hc, Bool.or_true]

/-- A text that is a statement, in front of anything. -/
def StmtWritten (cs : List Char) (st : Stmt) : Prop :=
  ∃ ws, StmtPhrase ws st ∧
    ∀ rest ts, Lexes true clCompound rest ts → Lexes true clCompound (cs ++ rest) (ws ++ ts)

/-- A text that is a list of statements, in front of anything. -/
def BodyWritten (cs : List Char) (body : List Stmt) : Prop :=
  ∃ ws, BodyPhrase ws body ∧
    ∀ rest ts, Lexes true clCompound rest ts → Lexes true clCompound (cs ++ rest) (ws ++ ts)

section Statements

variable {cs : List Char} {e : CExpr}

theorem stmtWritten_decl (const : Bool) {x : String} (hx : isName x = true)
    (h : Written clCompound cs e) :
    StmtWritten ((if const then "  const uint " else "  uint ").toList ++
      (x.toList ++ (" = ".toList ++ (cs ++ ";\n".toList)))) (.decl const x e) := by
  rcases h.initializer clPunctuation with ⟨ws, hws, hlex⟩
  have hname : ∀ rest ts, Lexes true clCompound rest ts →
      Lexes true clCompound (x.toList ++ (" = ".toList ++ (cs ++ ";\n".toList)) ++ rest)
        (x :: "=" :: (ws ++ [";"]) ++ ts) := by
    intro rest ts hrest
    have := Lexes.name hx stops_blank (hlex rest ts hrest)
    simpa using this
  have hspace := clPunctuation.not_space
  cases const with
  | true =>
    refine ⟨_, .constDecl hx hws, fun rest ts hrest => ?_⟩
    rw [if_pos rfl, List.append_assoc]
    exact .fixed "  const uint " ["const", "uint"] (by decide) hspace (by decide)
      (hname rest ts hrest)
  | false =>
    refine ⟨_, .decl hx hws, fun rest ts hrest => ?_⟩
    rw [if_neg Bool.false_ne_true, List.append_assoc]
    exact .fixed "  uint " ["uint"] (by decide) hspace (by decide)
      (hname rest ts hrest)

theorem stmtWritten_assign {x : String} (hx : isName x = true) (h : Written clCompound cs e) :
    StmtWritten ("  ".toList ++ (x.toList ++ (" = ".toList ++ (cs ++ ";\n".toList))))
      (.assign x e) := by
  rcases h.initializer clPunctuation with ⟨ws, hws, hlex⟩
  refine ⟨_, .assign hx hws, fun rest ts hrest => ?_⟩
  have hname := Lexes.name hx stops_blank (hlex rest ts hrest)
  have : Lexes true clCompound (' ' :: ' ' :: _) _ := .blank rfl (.blank rfl hname)
  simpa using this

theorem stmtWritten_store (h : Written clCompound cs e) :
    StmtWritten ("  mellow_buffer0[mellow_gid]".toList ++ (" = ".toList ++ (cs ++ ";\n".toList)))
      (.store "mellow_buffer0" (.name "mellow_gid") e) := by
  rcases h.initializer clPunctuation with ⟨ws, hws, hlex⟩
  have hgid : isName "mellow_gid" = true := by decide
  have hbuffer : isName "mellow_buffer0" = true := by decide
  refine ⟨_, .store hbuffer (Phrase.lower (.name hgid) (by decide) (by decide) (by decide)) hws,
    fun rest ts hrest => ?_⟩
  have hclose := Lexes.bracket clPunctuation (c := ']') (t := "]") rfl rfl (hlex rest ts hrest)
  have hindex := Lexes.name hgid (stops_bracket rfl) hclose
  have hopen := Lexes.bracket clPunctuation (c := '[') (t := "[") rfl rfl hindex
  have hname := Lexes.name hbuffer (stops_bracket rfl) hopen
  have : Lexes true clCompound (' ' :: ' ' :: _) _ := .blank rfl (.blank rfl hname)
  simpa using this

theorem bodyWritten_nil : BodyWritten [] [] :=
  ⟨[], .nil, fun _ _ hrest => hrest⟩

theorem bodyPhrase_append {us ws : List String} {body body' : List Stmt} (h : BodyPhrase us body)
    (h' : BodyPhrase ws body') : BodyPhrase (us ++ ws) (body ++ body') := by
  induction h with
  | nil => exact h'
  | cons h _ ih =>
    rw [List.append_assoc]
    exact .cons h ih

theorem bodyWritten_append {ds : List Char} {body body' : List Stmt} (h : BodyWritten cs body)
    (h' : BodyWritten ds body') : BodyWritten (cs ++ ds) (body ++ body') := by
  rcases h with ⟨us, hus, hlex⟩
  rcases h' with ⟨ws, hws, hlex'⟩
  refine ⟨us ++ ws, bodyPhrase_append hus hws, fun rest ts hrest => ?_⟩
  rw [List.append_assoc, List.append_assoc]
  exact hlex _ _ (hlex' rest ts hrest)

theorem bodyWritten_single {st : Stmt} (h : StmtWritten cs st) : BodyWritten cs [st] := by
  rcases h with ⟨ws, hws, hlex⟩
  refine ⟨ws, ?_, hlex⟩
  rw [← List.append_nil ws]
  exact .cons hws .nil

theorem bodyWritten_join {α : Type} {f : α → String} {g : α → Stmt} {l : List α}
    (h : ∀ a ∈ l, StmtWritten (f a).toList (g a)) :
    BodyWritten (String.join (l.map f)).toList (l.map g) := by
  rw [String.toList_join]
  induction l with
  | nil => exact bodyWritten_nil
  | cons a l ih =>
    rw [List.map_cons, List.flatMap_cons, List.map_cons]
    exact bodyWritten_append (bodyWritten_single (h a List.mem_cons_self))
      (ih fun b hb => h b (List.mem_cons_of_mem a hb))

end Statements

/-- A text of `kernelHead` and statements is a kernel. -/
theorem openClUnit_written {entry text : String} (comment : String) {body : List Stmt}
    (hentry : isName entry = true) (hline : '\n' ∉ comment.toList)
    (hsplice : comment.toList.getLast? ≠ some '\\')
    (hbody : BodyWritten text.toList body) :
    OpenClUnit entry ("//" ++ comment ++ "\n" ++ kernelHead entry ++ text ++ "\x7d\n")
      (emitted body) := by
  rcases hbody with ⟨ws, hws, hlex⟩
  refine OpenClUnit.mk ?_ hws
  have hend : Lexes true clCompound ['\x7d', '\n'] ["\x7d"] :=
    .bracket clPunctuation rfl rfl (.blank rfl .nil)
  have hbody := hlex _ _ hend
  have hspace := clPunctuation.not_space
  have hhead := Lexes.fixed
    "(__global uint *mellow_buffer0) \x7b\n  const uint mellow_gid = (uint)get_global_id(0);\n"
    ["(", "__global", "uint", "*", "mellow_buffer0", ")", "\x7b", "const", "uint", "mellow_gid",
      "=", "(", "uint", ")", "get_global_id", "(", "0", ")", ";"]
    (by decide) hspace (by decide) hbody
  have hname := Lexes.name hentry (stops_bracket (c := '(') rfl) hhead
  have hkernel := Lexes.fixed "__kernel void " ["__kernel", "void"]
    (by decide) hspace (by decide) hname
  have hcomment := Lexes.comment hline (fun _ => hsplice) hkernel
  rw [kernelHead]
  repeat rw [String.toList_append]
  repeat rw [List.append_assoc]
  exact hcomment

end Mellow.ShaderJit
