import Mellow.Runtime.ShaderJit.AirRead
import Mellow.Runtime.ShaderJit.AirText

/-!
# From AIR to OpenCL C

Whole modules of AIR. The words up to the end of the function are read by the
grammar of LLVM, and what comes after does not change the output. The thread
position may be a vector, whose other components are no part of the output.

## Main definitions

* `AirUnit`: the words of a module and its kernel.
* `AirReads`: a text and the kernel that it is.
* `Keeps`: a parser that adds nothing to the output.

## Theorems

* `compileAirText_preserves`: the output is a kernel that does what the function
  does.
* `compileAirText_preserves_returned`: a carriage return in a comment is read in
  two ways.
-/

namespace Mellow.ShaderJit.Air

open Lib

inductive ThreadType : Bool → List String → Prop where
  | scalar : ThreadType false ["i32"]
  | vector : ThreadType true ["<", "3", "x", "i32", ">"]

/-- The words of a module, and its function. -/
inductive AirUnit (entry : String) (words : List String) : Ssa.Kernel → Prop where
  | mk {file odr undef noalias type undef' addr attr label ws rest : List String}
      {layout triple b t : String} {vector : Bool} {body : List Ssa.Instr}
      (hfile : file = [] ∨ ∃ f, file = ["source_filename", "=", f])
      (hodr : odr = [] ∨ odr = ["weak_odr"]) (hundef : undef = [] ∨ undef = ["noundef"])
      (hnoalias : noalias = [] ∨ noalias = ["air-buffer-no-alias"]) (htype : ThreadType vector type)
      (hundef' : undef' = [] ∨ undef' = ["noundef"])
      (haddr : addr = [] ∨ addr = ["local_unnamed_addr"]) (hattr : attr = [] ∨ ∃ n, attr = ["#", n])
      (hlabel : label = [] ∨ ∃ l, label = [l, ":"]) (hbody : Ssa.BodyPhrase ws body)
      (hwords : words =
        file ++
          "target" :: "datalayout" :: "=" :: layout :: "target" :: "triple" :: "=" :: triple ::
          "define" :: (odr ++ "void" :: "@" :: entry :: "(" :: "ptr" :: "addrspace" :: "(" :: "1" ::
          ")" :: (undef ++ (noalias ++ "%" :: b :: "," :: (type ++ (undef' ++ "%" :: t :: ")" ::
          (addr ++ (attr ++ "\x7b" :: (label ++ (ws ++ "ret" :: "void" :: "\x7d" :: rest)))))))))) :
      AirUnit entry words ⟨b, t, vector, body⟩

section Uniqueness

variable {o : List String}

/-- Words that may be there or not, and that the rest does not start with. -/
theorem optional_unique {w : String} {n : Nat} {o' r r' : List String}
    (ho : o = [] ∨ (o.head? = some w ∧ o.length = n))
    (ho' : o' = [] ∨ (o'.head? = some w ∧ o'.length = n)) (hr : r.head? ≠ some w)
    (hr' : r'.head? ≠ some w) (heq : o ++ r = o' ++ r') : r = r' := by
  have hhead : ∀ {a c : List String}, a.head? = some w → (a ++ c).head? = some w := by
    intro a c ha
    rw [List.head?_append, ha]
    rfl
  rcases ho with rfl | ⟨hw, hn⟩ <;> rcases ho' with rfl | ⟨hw', hn'⟩
  · exact heq
  · exact absurd ((List.nil_append r ▸ heq) ▸ hhead hw') hr
  · exact absurd ((List.nil_append r' ▸ heq) ▸ hhead hw) hr'
  · exact (List.append_inj heq (hn.trans hn'.symm)).2

theorem optional_single {w : String} (ho : o = [] ∨ o = [w]) :
    o = [] ∨ (o.head? = some w ∧ o.length = 1) := by
  rcases ho with rfl | rfl
  · exact .inl rfl
  · exact .inr ⟨rfl, rfl⟩

theorem ThreadType.unique {v v' : Bool} {ts ts' us us' : List String} (h : ThreadType v ts)
    (h' : ThreadType v' ts') (heq : ts ++ us = ts' ++ us') : v = v' ∧ us = us' := by
  cases h <;> cases h' <;> simp_all

theorem body_second_ne {ws rest : List String} {body : List Ssa.Instr}
    (h : Ssa.BodyPhrase ws body) : (ws ++ "ret" :: "void" :: rest).tail.head? ≠ some ":" := by
  have hlocal : ∀ x, Ssa.isLocal x = true → some x ≠ some ":" := by
    intro x hx heq
    rw [Option.some.inj heq] at hx
    exact absurd hx (by decide)
  cases h with
  | nil => exact fun h => absurd (Option.some.inj h) (by decide)
  | cons h _ =>
    cases h with
    | store => exact fun h => absurd (Option.some.inj h) (by decide)
    | extract hx | zext hx | gep hx | load hx | binary hx => exact hlocal _ hx

theorem label_unique {o' r r' : List String} (ho : o = [] ∨ ∃ l, o = [l, ":"])
    (ho' : o' = [] ∨ ∃ l, o' = [l, ":"]) (hr : r.tail.head? ≠ some ":")
    (hr' : r'.tail.head? ≠ some ":") (heq : o ++ r = o' ++ r') : r = r' := by
  rcases ho with rfl | ⟨l, rfl⟩ <;> rcases ho' with rfl | ⟨l', rfl⟩
  · exact heq
  · exact absurd (congrArg (·.tail.head?) heq) hr
  · exact absurd (congrArg (·.tail.head?) heq.symm) hr'
  · exact (List.append_inj heq rfl).2

theorem AirUnit.unique {entry : String} {ws : List String} {k k' : Ssa.Kernel}
    (h : AirUnit entry ws k) (h' : AirUnit entry ws k') : k = k' := by
  have hfixed : ∀ {w t : String} {r : List String}, t ≠ w → (t :: r).head? ≠ some w :=
    fun hne heq => hne (Option.some.inj heq)
  have hattribute : ∀ {o : List String}, (o = [] ∨ ∃ n, o = ["#", n]) →
      o = [] ∨ (o.head? = some "#" ∧ o.length = 2) := by simp
  have hsource : ∀ {o : List String}, (o = [] ∨ ∃ f, o = ["source_filename", "=", f]) →
      o = [] ∨ (o.head? = some "source_filename" ∧ o.length = 3) := by simp
  rcases h with ⟨hfile, hodr, hundef, hnoalias, htype, hundef₂, haddr, hattr, hlabel, hbody, hwords⟩
  rcases h' with ⟨hfile', hodr', hundef', hnoalias', htype', hundef₂', haddr', hattr',
    hlabel', hbody', hwords'⟩
  have heq := hwords.symm.trans hwords'
  -- The words that may be missing are told from what follows them.
  have hdefine := optional_unique (hsource hfile) (hsource hfile') (hfixed (by decide))
    (hfixed (by decide)) heq
  simp only [List.cons.injEq, true_and] at hdefine
  have hvoid := optional_unique (optional_single hodr) (optional_single hodr') (hfixed (by decide))
    (hfixed (by decide)) hdefine.2.2
  simp only [List.cons.injEq, true_and] at hvoid
  have hpercent : ∀ {o r : List String}, (o = [] ∨ o = ["air-buffer-no-alias"]) →
      (o ++ "%" :: r).head? ≠ some "noundef" := by
    rintro o r (rfl | rfl) <;> exact hfixed (by decide)
  have hdecorated := optional_unique (optional_single hundef) (optional_single hundef')
    (hpercent hnoalias) (hpercent hnoalias') hvoid
  have hbuffer := optional_unique (optional_single hnoalias) (optional_single hnoalias')
    (hfixed (by decide)) (hfixed (by decide)) hdecorated
  simp only [List.cons.injEq, true_and] at hbuffer
  rcases hbuffer with ⟨rfl, hbuffer⟩
  rcases htype.unique htype' hbuffer with ⟨rfl, hnumber⟩
  have hthread := optional_unique (optional_single hundef₂) (optional_single hundef₂')
    (hfixed (by decide)) (hfixed (by decide)) hnumber
  simp only [List.cons.injEq, true_and] at hthread
  rcases hthread with ⟨rfl, hthread⟩
  have hbrace : ∀ {o r : List String}, (o = [] ∨ ∃ n, o = ["#", n]) →
      (o ++ "\x7b" :: r).head? ≠ some "local_unnamed_addr" := by simp
  have hattributes := optional_unique (optional_single haddr) (optional_single haddr')
    (hbrace hattr) (hbrace hattr') hthread
  have hopen := optional_unique (hattribute hattr) (hattribute hattr') (hfixed (by decide))
    (hfixed (by decide)) hattributes
  have hinstr := label_unique hlabel hlabel' (body_second_ne hbody) (body_second_ne hbody')
    (List.cons.inj hopen).2
  rw [(hbody.unique_before hbody' hinstr).1]

theorem AirUnit.append {entry : String} {ws : List String} {k : Ssa.Kernel} (h : AirUnit entry ws k)
    (us : List String) : AirUnit entry (ws ++ us) k := by
  cases h with
  | mk hfile hodr hundef hnoalias htype hundef' haddr hattr hlabel hbody hwords =>
    have hmore := congrArg (· ++ us) hwords
    simp only [List.append_assoc, List.cons_append] at hmore
    exact .mk hfile hodr hundef hnoalias htype hundef' haddr hattr hlabel hbody hmore

end Uniqueness

/-- The words of a module that are no strings, apart from names and numbers. -/
def airWords : List String :=
  ["target", "datalayout", "triple", "source_filename", "define", "weak_odr", "void", "ptr",
    "addrspace", "noundef", "i32", "i64", "x", "local_unnamed_addr", "ret", "store", "align",
    "extractelement", "zext", "to", "getelementptr", "inbounds", "load", "add", "sub", "mul", "and",
    "or", "xor", "shl", "lshr", "udiv", "urem", "=", "(", ")", ",", "<", ">", "\x7b", "\x7d", ":"]

/-- The words that the text of a module starts with. -/
def AirWords (cr : Bool) (ir : String) (ws : List LlvmWord) : Prop :=
  ∃ n, (llvmItems cr n ir.toList).map Prod.fst = some ws

/-- A text, its words and its function. No string stands for a word. -/
structure AirReads (entry ir : String) (ws : List LlvmWord) (k : Ssa.Kernel) : Prop where
  words : AirWords true ir ws
  strings : ∀ w ∈ ws, w.2 = true → w.1 ∉ airWords ∧ Ssa.isDigits w.1 = false
  unit : AirUnit entry (ws.map Prod.fst) k

/-- The symbol table once the parameters are declared. -/
def parameterValues (b t : String) (vector : Bool) : List (String × AirValue) :=
  [(b, ⟨.pointer, "mellow_buffer0", false, false⟩),
    (t, ⟨if vector then .thread3 else .u32, "mellow_gid", !vector, false⟩)]

section Modules

variable {s s' : Scan Fields} {u : Unit}

theorem quoted_reads {t : String} (h : Yields (quoted : AirStep String) s t s') :
    s.words = t :: s'.words ∧ s'.fields = s.fields := by
  rcases h.bind yields_peek.mp with ⟨p, s₁, ⟨rfl, rfl⟩, h₁⟩
  rcases yields_ite.mp h₁ with ⟨_, h₂⟩ | ⟨hquoted, h₂⟩
  · exact absurd h₂ yields_fail
  · rcases yields_pass.mp h₂ with ⟨rfl, rfl⟩
    refine ⟨?_, rfl⟩
    -- The token for the end is not in quotes.
    unfold Scan.peek at hquoted ⊢
    rw [Scan.next_words]
    unfold Scan.words
    cases htokens : s₁.tokens with
    | nil =>
      rw [htokens] at hquoted
      exact absurd rfl hquoted
    | cons a tokens => rfl

theorem targets_reads (h : Yields targets s u s') :
    s'.fields = s.fields ∧ ∃ file layout triple,
    (file = [] ∨ ∃ f, file = ["source_filename", "=", f]) ∧
      s.words = file ++ "target" :: "datalayout" :: "=" :: layout :: "target" :: "triple" :: "=" ::
        triple :: s'.words := by
  rcases yields_bind.mp h with ⟨_, s₁, hfile, h₁⟩
  have hfile : s₁.fields = s.fields ∧ ∃ file, s.words = file ++ s₁.words ∧
      (file = [] ∨ ∃ f, file = ["source_filename", "=", f]) := by
    rcases yields_whenM_take (by decide) hfile with ⟨t, hw, hf, hrest⟩ | rfl
    · rcases yields_require_bind (by decide) hrest with ⟨t₁, hw₁, hf₁, h₁⟩
      rcases h₁.bind quoted_reads with ⟨f, t₂, ⟨hw₂, hf₂⟩, h₂⟩
      rw [(yields_pure.mp h₂).2]
      exact ⟨by rw [hf₂, hf₁, hf], _, by rw [hw, hw₁, hw₂]; rfl, .inr ⟨f, rfl⟩⟩
    · exact ⟨rfl, [], rfl, .inl rfl⟩
  rcases hfile with ⟨hf₁, file, hw₁, hfile⟩
  rcases yields_requires ["target", "datalayout", "="] (by decide) h₁ with ⟨s₂, hw₂, hf₂, h₂⟩
  rcases h₂.bind quoted_reads with ⟨layout, s₃, ⟨hw₃, hf₃⟩, h₃⟩
  rcases yields_requires ["target", "triple", "="] (by decide) (yields_refuseIf_bind h₃).2 with
    ⟨s₄, hw₄, hf₄, h₄⟩
  rcases h₄.bind quoted_reads with ⟨triple, s₅, ⟨hw₅, hf₅⟩, h₅⟩
  rcases yields_refuseIf.mp h₅ with ⟨_, rfl⟩
  refine ⟨by rw [hf₅, hf₄, hf₃, hf₂, hf₁], file, layout, triple, hfile, ?_⟩
  rw [hw₁, hw₂, hw₃, hw₄, hw₅]
  rfl

theorem threadType_reads (hscalar : s.fields.vectorThread = false)
    (h : Yields threadType s u s') :
    ∃ vector type, ThreadType vector type ∧ s.words = type ++ s'.words ∧
      s'.fields = { s.fields with vectorThread := vector } := by
  rcases yields_take_bind (by decide) h with ⟨s₁, hw₁, hf₁, h₁⟩ | h₁
  · rcases yields_requires ["3", "x", "i32", ">"] (by decide) h₁ with ⟨s₂, hw₂, hf₂, h₂⟩
    have hs : s' = s₂.put _ := yields_modify.mp h₂
    rw [hs, Scan.put_fields, Scan.put_words, hf₂, hf₁]
    exact ⟨true, _, .vector, by rw [hw₁, hw₂]; rfl, rfl⟩
  · rcases yields_require (by decide) h₁ with ⟨hw, hf⟩
    exact ⟨false, _, .scalar, hw, by rw [hf, ← hscalar]⟩

/-- The parameters are named, and the names are different. -/
theorem parameters_reads (hscalar : s.fields.vectorThread = false)
    (h : Yields parameters s u s') :
    ∃ undef noalias type undef' b t vector,
      s'.fields = { s.fields with bufferSsa := b, threadSsa := t, vectorThread := vector } ∧ t ≠ b ∧
      (undef = [] ∨ undef = ["noundef"]) ∧ (noalias = [] ∨ noalias = ["air-buffer-no-alias"]) ∧
      ThreadType vector type ∧ (undef' = [] ∨ undef' = ["noundef"]) ∧
      s.words = "ptr" :: "addrspace" :: "(" :: "1" :: ")" :: (undef ++
        (noalias ++ "%" :: b :: "," :: (type ++ (undef' ++ "%" :: t :: s'.words)))) := by
  rcases h.bind pointerType_reads with ⟨_, s₁, ⟨hw₁, hf₁⟩, h₁⟩
  rcases yields_bind.mp h₁ with ⟨_, s₂, hdecorations, h₂⟩
  have hdecorations : s₂.fields = s₁.fields ∧ ∃ undef noalias, s₁.words = undef ++
    (noalias ++ s₂.words) ∧
      (undef = [] ∨ undef = ["noundef"]) ∧ (noalias = [] ∨ noalias = ["air-buffer-no-alias"]) := by
    rcases hdecorations.bind (take_reads (by decide)) with ⟨_, t₁, ⟨hf, undef, hw, hundef⟩, g₁⟩
    rcases g₁.bind yields_peek.mp with ⟨p, t₂, ⟨rfl, rfl⟩, g₂⟩
    rcases yields_ite.mp g₂ with ⟨_, g₃⟩ | ⟨_, g₃⟩
    · rcases g₃.bind quoted_reads with ⟨d, t₃, ⟨hw₃, hf₃⟩, g₄⟩
      rcases yields_refuseIf.mp g₄ with ⟨hd, rfl⟩
      have hd : d = "air-buffer-no-alias" := Decidable.not_not.mp (of_decide_eq_false hd)
      exact ⟨hf₃.trans hf, undef, [d], by rw [hw, hw₃]; rfl, hundef, .inr (by rw [hd])⟩
    · rw [(yields_pure.mp g₃).2]
      exact ⟨hf, undef, [], hw, hundef, .inl rfl⟩
  rcases hdecorations with ⟨hf₂, undef, noalias, hw₂, hundef, hnoalias⟩
  rcases h₂.bind ssaName_reads with ⟨b, s₃, ⟨_, hw₃, hf₃⟩, h₃⟩
  rcases yields_require_bind (by decide) (yields_editFields_bind h₃) with ⟨s₄, hw₄, hf₄, h₄⟩
  rw [Scan.put_words] at hw₄
  rw [Scan.put_fields, hf₃, hf₂, hf₁] at hf₄
  rcases yields_bind.mp h₄ with ⟨_, s₅, hthreadType, h₅⟩
  rcases threadType_reads (by rw [hf₄]; exact hscalar) hthreadType with ⟨vector, type,
    htype, hw₅, hf₅⟩
  rcases h₅.bind (take_reads (by decide)) with ⟨_, s₆, ⟨hf₆, undef', hw₆, hundef'⟩, h₆⟩
  rcases h₆.bind ssaName_reads with ⟨t, s₇, ⟨_, hw₇, hf₇⟩, h₇⟩
  rcases yields_refuseIf.mp (yields_editFields_bind h₇) with ⟨hne, rfl⟩
  refine ⟨undef, noalias, type, undef', b, t, vector, ?_, of_decide_eq_false hne, hundef, hnoalias,
    htype, hundef', ?_⟩
  · rw [Scan.put_fields, hf₇, hf₆, hf₅, hf₄]
  · simp [*]

theorem header_reads {entry : String} (hinit : s.fields = { entry := entry })
    (h : Yields header s u s') :
    ∃ odr undef noalias type undef' addr attr b t vector,
      (odr = [] ∨ odr = ["weak_odr"]) ∧ (undef = [] ∨ undef = ["noundef"]) ∧
      (noalias = [] ∨ noalias = ["air-buffer-no-alias"]) ∧ ThreadType vector type ∧
      (undef' = [] ∨ undef' = ["noundef"]) ∧ (addr = [] ∨ addr = ["local_unnamed_addr"]) ∧
      (attr = [] ∨ ∃ n, attr = ["#", n]) ∧ t ≠ b ∧
      s'.fields.entry = entry ∧ s'.fields.body = "" ∧ s'.fields.instructions = 0 ∧
      s'.fields.values = parameterValues b t vector ∧
      s.words = "define" :: (odr ++ "void" :: "@" :: entry :: "(" :: "ptr" :: "addrspace" :: "(" ::
        "1" :: ")" :: (undef ++
          (noalias ++ "%" :: b :: "," :: (type ++ (undef' ++ "%" :: t :: ")" ::
        (addr ++ (attr ++ "\x7b" :: s'.words))))))) := by
  rcases yields_require_bind (by decide) h with ⟨s₁, hw₁, hf₁, h₁⟩
  rcases h₁.bind (take_reads (by decide)) with ⟨_, s₂, ⟨hf₂, odr, hw₂, hodr⟩, h₂⟩
  rcases yields_requires ["void", "@"] (by decide) h₂ with ⟨s₃, hw₃, hf₃, h₃⟩
  rcases (yields_fields_bind h₃).bind yields_name with ⟨n, s₄, ⟨_, hw₄, hf₄⟩, h₄⟩
  rcases yields_refuseIf_bind h₄ with ⟨hentry, h₅⟩
  rcases yields_require_bind (by decide) h₅ with ⟨s₅, hw₅, hf₅, h₆⟩
  have hf₃' : s₃.fields = { entry := entry } := by rw [hf₃, hf₂, hf₁, hinit]
  have hf₅' : s₅.fields = { entry := entry } := by rw [hf₅, hf₄, hf₃']
  have hn : n = entry := (Decidable.not_not.mp (of_decide_eq_false hentry)).trans (by rw [hf₃'])
  rcases yields_bind.mp h₆ with ⟨_, s₆, hparameters, h₇⟩
  rcases parameters_reads (by rw [hf₅']) hparameters with
    ⟨undef, noalias, type, undef', b, t, vector, hf₆, hne, hundef, hnoalias, htype, hundef', hw₆⟩
  rcases yields_require_bind (by decide) h₇ with ⟨t₁, hv₁, hg₁, k₁⟩
  rcases k₁.bind (take_reads (by decide)) with ⟨_, t₂, ⟨hg₂, addr, hv₂, haddr⟩, k₂⟩
  rcases yields_bind.mp k₂ with ⟨_, t₃, hattr, k₃⟩
  have hattr : ∃ attr a, t₂.words = attr ++ t₃.words ∧ (attr = [] ∨ ∃ n, attr = ["#", n]) ∧
      t₃.fields = { t₂.fields with functionAttributes := a } := by
    rcases yields_whenM_take (by decide) hattr with ⟨r, hw, hf, hrest⟩ | rfl
    · rcases hrest.bind yields_decimal with ⟨id, r₁, ⟨d, hwd, _, _, hfd⟩, hedit⟩
      have hs : t₃ = _ := yields_editFields.mp hedit
      rw [hs, Scan.put_fields, Scan.put_words, hfd, hf]
      exact ⟨["#", d], some id, by rw [hw, hwd]; rfl, .inr ⟨d, rfl⟩, rfl⟩
    · simp [*]
  rcases hattr with ⟨attr, a, hv₃, hattr, hg₃⟩
  rcases yields_require_bind (by decide) k₃ with ⟨t₄, hv₄, hg₄, k₄⟩
  have hs : s' = _ := yields_editFields.mp k₄
  rw [hs, Scan.put_fields, Scan.put_words, hg₄, hg₃, hg₂, hg₁, hf₆, hf₅']
  refine ⟨odr, undef, noalias, type, undef', addr, attr, b, t, vector, hodr, hundef,
    hnoalias, htype, hundef', haddr, hattr, hne, rfl, rfl, rfl, rfl, ?_⟩
  rw [hw₁, hw₂, hw₃, hw₄, hw₅, hw₆, hv₁, hv₂, hv₃, hv₄, hn]
  rfl

theorem label_reads (h : Yields label s u s') :
    s'.fields = s.fields ∧ ∃ label, (label = [] ∨ ∃ l, label = [l, ":"]) ∧ s.words = label ++
      s'.words := by
  rcases h.bind yields_get.mp with ⟨t, s₁, ⟨rfl, rfl⟩, h₁⟩
  rcases yields_ite.mp h₁ with ⟨hcolon, h₂⟩ | ⟨_, h₂⟩
  · rcases h₂.bind yields_consume with ⟨l, s₂, ⟨hl, rfl⟩, h₃⟩
    rcases yields_require (by decide) h₃ with ⟨hw, hf⟩
    refine ⟨hf, [l, ":"], .inr ⟨l, rfl⟩, ?_⟩
    -- There are two tokens at least, and the first one may be empty.
    rw [Scan.next_words] at hw
    rw [Scan.peek_text] at hl
    cases hwords : s₁.words with
    | nil => exact absurd (hwords ▸ hw) nofun
    | cons w ws =>
      rw [hwords, List.tail_cons] at hw
      rw [hwords] at hl
      rw [← hl, hw]
      rfl
  · simp [(yields_pure.mp h₂).2]

end Modules

/-- A step that leaves the output as it is. -/
def Keeps {α : Type} (x : AirStep α) : Prop :=
  ∀ s a s', Yields x s a s' → s'.fields.entry = s.fields.entry ∧ s'.fields.body = s.fields.body

section Frames

variable {α β : Type} {x : AirStep α}

theorem keeps_bind {f : α → AirStep β} (hx : Keeps x) (hf : ∀ a, Keeps (f a)) :
    Keeps (x >>= f) := by
  intro s b s' h
  rcases yields_bind.mp h with ⟨a, t, hyx, hyf⟩
  rcases hx s a t hyx with ⟨hentry, hbody⟩
  rcases hf a t b s' hyf with ⟨hentry', hbody'⟩
  exact ⟨hentry'.trans hentry, hbody'.trans hbody⟩

theorem keeps_of_fields (h : ∀ s a s', Yields x s a s' → s'.fields = s.fields) :
    Keeps x := by
  intro s a s' hx
  rw [h s a s' hx]
  exact ⟨rfl, rfl⟩

theorem keeps_pure (a : α) : Keeps (pure a) :=
  keeps_of_fields fun _ _ _ h => by rw [(yields_pure.mp h).2]

theorem keeps_fail (message : String) : Keeps (fail message : AirStep α) :=
  fun _ _ _ h => absurd h yields_fail

theorem keeps_refuseIf (c : Bool) (message : String) : Keeps (refuseIf c message) :=
  keeps_of_fields fun _ _ _ h => by rw [(yields_refuseIf.mp h).2]

theorem keeps_get : Keeps (get : AirStep (Scan Fields)) :=
  keeps_of_fields fun _ _ _ h => by rw [(yields_get.mp h).2]

theorem keeps_fields : Keeps fields :=
  keeps_of_fields fun _ _ _ h => by rw [(yields_fields.mp h).2]

theorem keeps_peek : Keeps peek :=
  keeps_of_fields fun _ _ _ h => by rw [(yields_peek.mp h).2]

theorem keeps_isAt (text : String) : Keeps (isAt text) :=
  keeps_of_fields fun _ _ _ h => by rw [(yields_isAt.mp h).2]

theorem keeps_take {text : String} (ht : text ≠ "") : Keeps (take text) :=
  keeps_of_fields fun _ _ _ h => (take_reads ht h).1

theorem keeps_require {text : String} (ht : text ≠ "") : Keeps (require text) :=
  keeps_of_fields fun _ _ _ h => (yields_require ht h).2

theorem keeps_name : Keeps name :=
  keeps_of_fields fun _ _ _ h => (yields_name h).2.2

theorem keeps_quoted : Keeps quoted :=
  keeps_of_fields fun _ _ _ h => (quoted_reads h).2

theorem keeps_consume : Keeps consume :=
  keeps_of_fields fun _ _ _ h => by
    rw [(yields_consume h).2]
    rfl

theorem keeps_decimal (maximum : Nat) : Keeps (decimal maximum) :=
  keeps_of_fields fun _ _ _ h => by
    rcases yields_decimal h with ⟨_, _, _, _, hf⟩
    exact hf

theorem keeps_editFields {f : Fields → Fields}
    (hf : ∀ g, (f g).entry = g.entry ∧ (f g).body = g.body) : Keeps (editFields f) := by
  intro s u s' h
  rw [yields_editFields.mp h]
  exact hf s.fields

theorem keeps_ite {c : Prop} [Decidable c] {y : AirStep α} (hx : Keeps x) (hy : Keeps y) :
    Keeps (if c then x else y) := by
  split_ifs
  · exact hx
  · exact hy

theorem keeps_whenM {c : AirStep Bool} {x : AirStep Unit} (hc : Keeps c) (hx : Keeps x) :
    Keeps (whenM c x) :=
  keeps_bind hc fun _ => keeps_ite hx (keeps_pure _)

theorem attributes_keeps (n : Nat) : Keeps (attributes n) := by
  have hword : Keeps functionAttribute :=
    keeps_bind keeps_peek fun _ => keeps_ite
      (keeps_bind keeps_quoted fun _ => keeps_bind (keeps_require (by decide)) fun _ =>
        keeps_bind keeps_quoted fun _ => keeps_refuseIf _ _)
      (keeps_bind keeps_consume fun _ => keeps_refuseIf _ _)
  induction n with
  | zero =>
    exact keeps_bind (keeps_take (by decide)) fun _ => keeps_ite (keeps_pure _) (keeps_fail _)
  | succ n ih =>
    exact keeps_bind (keeps_take (by decide)) fun _ =>
      keeps_ite (keeps_pure _) (keeps_bind hword fun _ => ih)

theorem attributeDefinition_keeps : Keeps attributeDefinition :=
  keeps_bind (keeps_require (by decide)) fun _ => keeps_bind (keeps_decimal _) fun _ =>
    keeps_bind keeps_fields fun _ => keeps_bind (keeps_refuseIf _ _) fun _ =>
    keeps_bind (keeps_require (by decide)) fun _ => keeps_bind (keeps_require (by decide)) fun _ =>
    keeps_bind keeps_get fun s => keeps_bind (attributes_keeps _) fun _ =>
    keeps_editFields fun _ => ⟨rfl, rfl⟩

theorem items_keeps {item : AirStep Metadata} (hitem : Keeps item) (n : Nat) :
    Keeps (items item n) := by
  induction n with
  | zero => exact keeps_bind hitem fun _ => keeps_pure _
  | succ n ih =>
    exact keeps_bind hitem fun _ => keeps_bind (keeps_take (by decide)) fun _ =>
      keeps_ite (keeps_bind ih fun _ => keeps_pure _) (keeps_pure _)

theorem metadata_keeps (room : Nat) : Keeps (metadata room) := by
  induction room with
  | zero => exact keeps_fail _
  | succ room ih =>
    refine keeps_bind (keeps_editFields fun _ => ⟨rfl, rfl⟩) fun _ =>
      keeps_bind keeps_fields fun _ =>
      keeps_bind (keeps_refuseIf _ _) fun _ => keeps_bind (keeps_take (by decide)) fun _ =>
      keeps_ite (keeps_bind (keeps_decimal _) fun _ => keeps_pure _) ?_
    refine keeps_bind (keeps_take (by decide)) fun _ => keeps_ite
      (keeps_bind (keeps_require (by decide)) fun _ => keeps_bind keeps_name fun _ =>
        keeps_pure _) ?_
    refine keeps_bind (keeps_require (by decide)) fun _ => keeps_bind keeps_peek fun _ =>
      keeps_ite (keeps_bind keeps_quoted fun _ => keeps_pure _) ?_
    refine keeps_bind (keeps_take (by decide)) fun _ => keeps_ite ?_
      (keeps_bind (keeps_decimal _) fun _ => keeps_pure _)
    exact keeps_bind (keeps_take (by decide)) fun _ => keeps_ite (keeps_pure _)
      (keeps_bind keeps_get fun _ => keeps_bind (items_keeps ih _) fun _ =>
        keeps_bind (keeps_require (by decide)) fun _ => keeps_pure _)

theorem metadataDefinition_keeps : Keeps metadataDefinition := by
  refine keeps_bind (keeps_require (by decide)) fun _ => keeps_bind keeps_peek fun _ =>
    keeps_ite ?_ ?_
  · refine keeps_bind (keeps_decimal _) fun _ => keeps_bind (keeps_require (by decide)) fun _ =>
      keeps_bind (metadata_keeps _) fun value => keeps_bind keeps_fields fun _ => ?_
    cases value with
    | list => exact keeps_bind (keeps_refuseIf _ _) fun _ => keeps_editFields fun _ => ⟨rfl, rfl⟩
    | integer | string | reference | function => exact keeps_fail _
  · refine keeps_bind keeps_consume fun _ => keeps_bind (keeps_refuseIf _ _) fun _ =>
      keeps_bind (keeps_require (by decide)) fun _ => keeps_bind (metadata_keeps _) fun value =>
      keeps_bind keeps_fields fun _ => ?_
    cases value with
    | list => exact keeps_bind (keeps_refuseIf _ _) fun _ => keeps_editFields fun _ => ⟨rfl, rfl⟩
    | integer | string | reference | function => exact keeps_fail _

theorem metadataDefinitions_keeps (n : Nat) : Keeps (metadataDefinitions n) := by
  induction n with
  | zero => exact keeps_pure _
  | succ n ih =>
    exact keeps_bind (keeps_isAt _) fun _ =>
      keeps_ite (keeps_pure _) (keeps_bind metadataDefinition_keeps fun _ => ih)

theorem dereference_keeps (m : Metadata) : Keeps (dereference m) := by
  cases m with
  | integer | string | function | list => exact keeps_fail _
  | reference i =>
    refine keeps_bind keeps_fields fun f => ?_
    cases f.metadata.lookup i with
    | none => exact keeps_fail _
    | some l => exact keeps_bind (keeps_editFields fun _ => ⟨rfl, rfl⟩) fun _ => keeps_pure _

theorem named_keeps (key : String) : Keeps (named key) := by
  refine keeps_bind keeps_fields fun f => ?_
  split
  · exact dereference_keeps _
  · exact keeps_fail _

theorem validateMetadata_keeps : Keeps validateMetadata := by
  refine keeps_bind (named_keeps _) fun _ => keeps_bind (keeps_refuseIf _ _) fun _ =>
    keeps_bind (named_keeps _) fun _ => keeps_bind (keeps_refuseIf _ _) fun _ =>
    keeps_bind (named_keeps _) fun _ => keeps_bind keeps_fields fun _ => ?_
  split
  · refine keeps_bind (keeps_refuseIf _ _) fun _ => keeps_bind (dereference_keeps _) fun _ =>
      keeps_bind (keeps_refuseIf _ _) fun _ => keeps_bind (dereference_keeps _) fun _ => ?_
    split
    · exact keeps_bind (dereference_keeps _) fun _ => keeps_bind (keeps_refuseIf _ _) fun _ =>
        keeps_bind (dereference_keeps _) fun _ => keeps_bind (keeps_refuseIf _ _) fun _ =>
        keeps_bind keeps_fields fun _ => keeps_bind (keeps_refuseIf _ _) fun _ =>
        keeps_editFields fun _ => ⟨rfl, rfl⟩
    · exact keeps_fail _
  · exact keeps_fail _

theorem trailer_keeps : Keeps trailer :=
  keeps_bind (keeps_whenM (keeps_take (by decide)) attributeDefinition_keeps) fun _ =>
    keeps_bind keeps_fields fun _ => keeps_bind (keeps_refuseIf _ _) fun _ =>
    keeps_bind keeps_get fun _ => keeps_bind (metadataDefinitions_keeps _) fun _ =>
    validateMetadata_keeps

end Frames

section Runs

variable {s s' : Scan Fields} {b t : String} {vector : Bool}

theorem related_start {x y z : BitVec 32} {body : List Ssa.Instr} :
    Related x y z (parameterValues b t vector)
      (Ssa.Kernel.start ⟨b, t, vector, body⟩ x y z) [⟨"mellow_gid", true, x⟩] where
  values := by
    have hthread : Stands x y z [⟨"mellow_gid", true, x⟩]
        ⟨if vector then .thread3 else .u32, "mellow_gid", !vector, false⟩
        (if vector then .vec3 x y z else .i32 x) := by
      cases vector with
      | true => exact .thread
      | false => exact .number (v := ⟨"mellow_gid", true, x⟩) rfl fun _ => rfl
    exact .cons ⟨rfl, .buffer⟩ (.cons ⟨rfl, hthread⟩ .nil)
  thread := rfl
  names v hv := by
    rw [List.mem_singleton.mp hv]
    exact .inl rfl

theorem known_start :
    Known (parameterValues b t vector) ["mellow_buffer0", "mellow_gid"] where
  emitted p hp htype := by
    rcases List.mem_cons.mp hp with rfl | hp
    · cases htype
    · rw [List.mem_singleton.mp hp]
      change "mellow_gid" ∈ _ ∧ isName "mellow_gid" = true
      exact ⟨by decide, by decide⟩
  names d hd := by
    rcases List.mem_cons.mp hd with rfl | hd
    · exact .inl rfl
    · exact .inr (.inl (List.mem_singleton.mp hd))
  buffer := by decide
  thread := by decide

theorem run_agrees {body : List Ssa.Instr} {outs : List Stmt}
    (h : BodyAgrees (parameterValues b t vector) body outs)
    (x y z : BitVec 32) (buf : List (BitVec 32)) :
    SameEnd x buf (Ssa.Kernel.run ⟨b, t, vector, body⟩ x y z buf) ((emitted outs).run x buf) := by
  unfold Ssa.Kernel.run Kernel.run Kernel.start
  rcases h x y z _ _ buf related_start with ⟨env', vars', buf', hsrc, hout⟩ | ⟨hsrc, hout, hlen⟩
  · rw [hsrc, hout]
    exact .inl ⟨buf', rfl, rfl⟩
  · rw [hsrc, hout]
    exact .inr ⟨rfl, rfl, hlen⟩

/-- A module that is accepted has a function, and the output agrees with it. -/
theorem run_reads {entry : String} {r : CompileResult} (hinit : s.fields = { entry := entry })
    (h : Yields run s r s') :
    ∃ (b t : String) (vector : Bool) (body : List Ssa.Instr) (f : Fields) (outs : List Stmt),
      AirUnit entry s.words ⟨b, t, vector, body⟩ ∧ r = f.result ∧ f.entry = entry ∧
      isName entry = true ∧ BodyWritten f.body.toList outs ∧
      Scoped ["mellow_buffer0", "mellow_gid"] outs ∧
      (∀ st ∈ outs, st.Confined "mellow_buffer0" "mellow_gid") ∧
      BodyAgrees (parameterValues b t vector) body outs := by
  rcases yields_refuseIf_bind (yields_fields_bind h) with ⟨hentry, h₁⟩
  rcases h₁.bind targets_reads with ⟨_, s₂, ⟨hf₂, file, layout, triple, hfile, hw₂⟩, h₂⟩
  rcases yields_bind.mp h₂ with ⟨_, s₃, hheader, h₃⟩
  rcases header_reads (hf₂.trans hinit) hheader with
    ⟨odr, undef, noalias, type, undef', addr, attr, b, t, vector, hodr, hundef, hnoalias, htype,
      hundef', haddr, hattr, _, hentry₃, hbody₃, hcount₃, hvalues₃, hw₃⟩
  rcases h₃.bind label_reads with ⟨_, s₄, ⟨hf₄, label, hlabel, hw₄⟩, h₄⟩
  rcases yields_bind.mp h₄ with ⟨_, s₅, hinstructions, h₅⟩
  have hk : Known s₄.fields.values ["mellow_buffer0", "mellow_gid"] := by
    rw [hf₄, hvalues₃]
    exact known_start
  rcases instructions_reads hk (Nat.le_add_left _ _) hinstructions with
    ⟨hentry₅, ws, body, outs, text, hw₅, hphrase, hbody₅, hwritten, hagrees, hscoped, hconfined⟩
  rcases yields_requires ["ret", "void", "\x7d"] (by decide) h₅ with ⟨s₆, hw₆, hf₆, h₆⟩
  rcases yields_bind.mp h₆ with ⟨_, t₁, htrailer, k₁⟩
  rcases trailer_keeps s₆ _ t₁ htrailer with ⟨hentry', hbody'⟩
  rcases yields_bind.mp (yields_fields_bind k₁) with ⟨_, t₂, _, k₂⟩
  rw [hf₄, hvalues₃] at hagrees
  refine ⟨b, t, vector, body, t₁.fields, outs, ?_, (yields_pure.mp k₂).1, ?_, ?_, ?_, hscoped,
    hconfined, hagrees⟩
  · rw [hw₃, hw₄, hw₅, hw₆] at hw₂
    exact .mk hfile hodr hundef hnoalias htype hundef' haddr hattr hlabel hphrase hw₂
  · rw [hentry', hf₆, hentry₅, hf₄, hentry₃]
  · simp only [Bool.or_eq_false_iff, hinit, Bool.not_eq_false'] at hentry
    exact hentry.1.1
  · simp [*]

end Runs

theorem compileAirText_success {ir entry : String} (h : (compileAirText ir entry).success = true) :
    ∃ tokens last s', lex ir true = .ok (tokens, last) ∧
      Yields run { tokens := tokens, last := last, fields := { entry := entry } }
        (compileAirText ir entry) s' := by
  unfold compileAirText at h ⊢
  cases hlex : lex ir true with
  | error message =>
    rw [hlex] at h
    cases h
  | ok r =>
    rw [hlex] at h
    unfold compileTokens at h ⊢
    dsimp only at h ⊢
    cases hrun : run { tokens := r.1, last := r.2, fields := { entry := entry } } with
    | error message =>
      rw [hrun] at h
      cases h
    | ok a => exact ⟨r.1, r.2, a.2, rfl, hrun⟩

/-- The output is a kernel that does what the function does. -/
theorem compileAirText_kernel {ir entry : String} (h : (compileAirText ir entry).success = true) :
    ∃ tokens last src outs, lex ir true = .ok (tokens, last) ∧
      AirUnit entry (tokens.map (·.text)) src ∧
      OpenClUnit entry (compileAirText ir entry).openclSource (emitted outs) ∧
      Scoped ["mellow_buffer0", "mellow_gid"] outs ∧
      (∀ st ∈ outs, st.Confined "mellow_buffer0" "mellow_gid") ∧
      ∀ x y z buf, SameEnd x buf (src.run x y z buf) ((emitted outs).run x buf) := by
  rcases compileAirText_success h with ⟨tokens, last, s', hlex, hrun⟩
  let s : Scan Fields := { tokens := tokens, last := last, fields := { entry := entry } }
  rcases run_reads (s := s) rfl hrun with
    ⟨b, t, vector, body, f, outs, hsource, hresult, hf, hentry, hwritten, hscoped,
    hconfined, hagrees⟩
  refine ⟨tokens, last, _, outs, hlex, hsource, ?_, hscoped, hconfined, run_agrees hagrees⟩
  rw [hresult]
  rw [← hf] at hentry ⊢
  exact openClUnit_written " Mellow AIR 2.7 SSA subset; host must enforce exact 1D dispatch."
    hentry (by decide) (by decide) hwritten

theorem AirUnit.of_words {entry ir : String} {tokens : List Token} {last : Place}
    {ws : List LlvmWord} {k : Ssa.Kernel} (hlex : lex ir true = .ok (tokens, last))
    (hws : AirWords false ir ws) (h : AirUnit entry (ws.map Prod.fst) k) :
    AirUnit entry (tokens.map (·.text)) k := by
  rcases hws with ⟨n, hitems⟩
  rcases Option.map_eq_some_iff.mp hitems with ⟨r, hr, rfl⟩
  rcases Tokenizes.llvmItems (lex_tokenizes hlex) hr with ⟨us, hwords, _⟩
  rw [hwords]
  exact h.append us

/-- The function and the output leave the same buffer, where a comment may run
    on to its line feed without a change to the words. The output declares its
    names before it uses them. -/
theorem compileAirText_preserves (ir entry : String)
    (h : (compileAirText ir entry).success = true) :
    ∃ tokens last src out, lex ir true = .ok (tokens, last) ∧
      (∀ k, AirUnit entry (tokens.map (·.text)) k ↔ k = src) ∧
      (∀ ws k, AirReads entry ir ws k → AirWords false ir ws → k = src) ∧
      (∀ k, OpenClUnit entry (compileAirText ir entry).openclSource k ↔ k = out) ∧
      Scoped [out.array, out.thread] out.body ∧
      ∀ x y z buf,
        (∃ buf', src.run x y z buf = .ok buf' ∧ out.run x buf = .ok buf') ∨
        (src.run x y z buf = .error .outside ∧ out.run x buf = .error .outside ∧
          buf.length ≤ x.toNat) := by
  rcases compileAirText_kernel h with ⟨tokens, last, src, outs, hlex, hsource, hout,
    hscoped, _, hrun⟩
  refine ⟨tokens, last, src, _, hlex, fun k => ⟨fun hk => hk.unique hsource, ?_⟩, ?_,
    fun k => ⟨fun hk => hk.unique hout, ?_⟩, hscoped, hrun⟩
  · rintro rfl
    exact hsource
  · intro ws k hk hws
    exact (hk.unit.of_words hlex hws).unique hsource
  · rintro rfl
    exact hout

section Instances

/-- The text of a module, with a note at the end of its function. -/
def divisionText (note : List String) : List Char :=
  (["target datalayout = \"", "e-p:64:64:64", "-i1:8:8-i8:8:8", "-i16:16:16-i32:32:32",
    "-i64:64:64-f32:32:32", "-f64:64:64-v16:16:16", "-v24:32:32-v32:32:32",
    "-v48:64:64-v64:64:64", "-v96:128:128", "-v128:128:128", "-v192:256:256", "-v256:256:256",
    "-v512:512:512", "-v1024:1024:1024", "-n8:16:32", "\"\n", "target triple = \"",
    "air64_v27-apple-", "macosx15.6.0\"\n", "define void @k(", "ptr addrspace(1) %b, ",
    "i32 %i) \x7b\n", "%1 = zext i32 %i", " to i64\n", "%2 = getelementptr ", "i32, ptr ",
    "addrspace(1) %b, ", "i64 %1\n", "%3 = load i32, ", "ptr addrspace(1) %2, ", "align 4\n",
    "%4 = udiv i32 %3, 7\n", "store i32 %4, ", "ptr addrspace(1) %2, ", "align 4\n"] ++ note ++
    ["ret void \x7d\n", "!air.kernel = !\x7b!0\x7d\n", "!air.version = !\x7b!5\x7d\n", "!air.",
    "language_version ", "= !\x7b!6\x7d\n", "!0 = !\x7bptr @k, ", "!1, !2\x7d\n",
    "!1 = !\x7b\x7d\n", "!2 = !\x7b!3, !4\x7d\n", "!3 = !\x7bi32 0, ", "!\"air.buffer\", ",
    "!\"air.", "location_index\", ", "i32 0, i32 1, ", "!\"air.read_write\", ", "!\"air.",
    "address_space\", ", "i32 1, ", "!\"air.", "arg_type_size\", ", "i32 4, ", "!\"air.arg_type_",
    "align_size\", ", "i32 4, ", "!\"air.", "arg_type_name\", ", "!\"uint\", ",
    "!\"air.arg_name\", ", "!\"b\"\x7d\n", "!4 = !\x7bi32 1, ", "!\"air.thread_",
    "position_in_grid\", ", "!\"air.", "arg_type_name\", ", "!\"uint\", ", "!\"air.arg_name\", ",
    "!\"i\"\x7d\n", "!5 = !\x7bi32 2, ", "i32 7, i32 0\x7d\n", "!6 = !\x7b!\"Metal\", ",
    "i32 3, i32 2, ", "i32 0\x7d\n"]).flatMap String.toList

/-- A text that is accepted, with its words for LLVM and for the compiler. -/
def TextFacts (entry : String) (cs : List Char) (n m : Nat) (known seen : List LlvmWord) : Prop :=
  ¬((cs.map Char.utf8Size).sum = 0 ∨ (cs.map Char.utf8Size).sum > MaxSourceBytes) ∧
    ¬cs.any (fun c => c.toNat = 0 ∨ c.toNat > 127) = true ∧
    (compileTokens entry (lexLoop true cs 0 ⟨1, 1⟩ 0)).success = true ∧
    (llvmItems true n cs).map Prod.fst = some known ∧
    (llvmItems false m cs).map Prod.fst = some seen

instance (entry : String) (cs : List Char) (n m : Nat) (known seen : List LlvmWord) :
    Decidable (TextFacts entry cs n m known seen) :=
  inferInstanceAs (Decidable (_ ∧ _))

theorem TextFacts.use {entry : String} {cs : List Char} {n m : Nat} {known seen : List LlvmWord}
    (h : TextFacts entry cs n m known seen) :
    (compileAirText (String.ofList cs) entry).success = true ∧
      AirWords true (String.ofList cs) known ∧ AirWords false (String.ofList cs) seen := by
  rcases h with ⟨hsize, hascii, hok, hknown, hseen⟩
  refine ⟨?_, ⟨n, ?_⟩, ⟨m, ?_⟩⟩
  · rwa [compileAirText, lex_ofList, if_neg hsize, if_neg hascii]
  · rwa [String.toList_ofList]
  · rwa [String.toList_ofList]

def divisionSource : String := String.ofList (divisionText [])

def divisionTriple : String := "air64_v27-apple-macosx15.6.0"

def divisionWords (note : List String) : List String :=
  ["target", "datalayout", "=", validatedLayout, "target", "triple", "=", divisionTriple, "define",
    "void", "@", "k", "(", "ptr", "addrspace", "(", "1", ")", "%", "b", ",", "i32", "%", "i", ")",
    "\x7b", "%", "1", "=", "zext", "i32", "%", "i", "to", "i64", "%", "2", "=", "getelementptr",
    "i32", ",", "ptr", "addrspace", "(", "1", ")", "%", "b", ",", "i64", "%", "1", "%", "3", "=",
    "load", "i32", ",", "ptr", "addrspace", "(", "1", ")", "%", "2", ",", "align", "4", "%", "4",
    "=", "udiv", "i32", "%", "3", ",", "7", "store", "i32", "%", "4", ",", "ptr", "addrspace",
    "(", "1", ")", "%", "2", ",", "align", "4"] ++ (note ++ ["ret", "void", "\x7d"])

def divisionKernel (note : List Ssa.Instr) : Ssa.Kernel :=
  ⟨"b", "i", false,
    [.zext "1" "i", .gep "2" "b" "1", .load "3" "2", .binary "4" .udiv (.reg "3") (.const 7),
      .store (.reg "4") "2"] ++ note⟩

theorem divisionWords_unit {ws : List String} {note : List Ssa.Instr} (h : Ssa.BodyPhrase ws note) :
    AirUnit "k" (divisionWords ws) (divisionKernel note) :=
  .mk (.inl rfl) (.inl rfl) (.inl rfl) (.inl rfl) .scalar (.inl rfl) (.inl rfl)
    (.inl rfl) (.inl rfl) (.cons (.zext (x := "1") (a := "i") rfl rfl)
      (.cons (.gep (x := "2") (p := "b") (i := "1") rfl rfl rfl (.inl rfl))
        (.cons (.load (x := "3") (p := "2") rfl rfl)
          (.cons (@Ssa.InstrPhrase.binary "4" .udiv _ _ _ _ rfl (.reg (n := "3") rfl)
              (.number (d := "7") rfl))
            (.cons (.store (p := "2") (.reg (n := "4") rfl) rfl) h)))))
    rfl

/-- The words of a module, of which the strings are marked. -/
def divisionItems (note : List String) : List LlvmWord :=
  (divisionWords note).map fun w => (w, w = validatedLayout || w = divisionTriple)

theorem divisionItems_words (note : List String) :
    (divisionItems note).map Prod.fst = divisionWords note := by
  rw [divisionItems, List.map_map]
  exact List.map_id _

theorem divisionSource_facts : TextFacts "k" (divisionText []) 138 138 (divisionItems [])
    (divisionItems []) := by
  decide +kernel

theorem divisionSource_reads :
    AirReads "k" divisionSource (divisionItems []) (divisionKernel []) where
  words := divisionSource_facts.use.2.1
  strings := by decide +kernel
  unit := divisionItems_words [] ▸ divisionWords_unit .nil

theorem compileAirText_preserves_division :
    (compileAirText divisionSource "k").success = true ∧
      AirReads "k" divisionSource (divisionItems []) (divisionKernel []) ∧
      ∃ out, (∀ k, OpenClUnit "k" (compileAirText divisionSource "k").openclSource k ↔ k = out) ∧
        Scoped [out.array, out.thread] out.body ∧
        ∀ x y z buf,
          (∃ buf', (divisionKernel []).run x y z buf = .ok buf' ∧ out.run x buf = .ok buf') ∨
          ((divisionKernel []).run x y z buf = .error .outside ∧ out.run x buf = .error .outside ∧
            buf.length ≤ x.toNat) := by
  rcases divisionSource_facts.use with ⟨haccepted, _, hseen⟩
  rcases compileAirText_preserves divisionSource "k" haccepted with
    ⟨_, _, src, out, _, _, hsrc, hout, hscoped, hrun⟩
  rw [← hsrc _ _ divisionSource_reads hseen] at hrun
  exact ⟨haccepted, divisionSource_reads, out, hout, hscoped, hrun⟩

/-- A carriage return ends a comment. -/
def returnedNote : List String :=
  ["; note\r", "store i32 0, ", "ptr addrspace(1) %2, ", "align 4\n"]

def returnedSource : String := String.ofList (divisionText returnedNote)

def returnedWords : List String :=
  ["store", "i32", "0", ",", "ptr", "addrspace", "(", "1", ")", "%", "2", ",", "align", "4"]

theorem compileAirText_preserves_returned :
    (compileAirText returnedSource "k").success = true ∧
      ∃ ws k out, AirReads "k" returnedSource ws k ∧
        OpenClUnit "k" (compileAirText returnedSource "k").openclSource out ∧
        k.run 0 0 0 [14] = .ok [0] ∧ out.run 0 [14] = .ok [2] := by
  have hfacts : TextFacts "k" (divisionText returnedNote) 161 140 (divisionItems returnedWords)
      (divisionItems []) := by
    decide +kernel
  rcases hfacts.use with ⟨haccepted, hwords, hseen⟩
  rcases compileAirText_kernel haccepted with
    ⟨tokens, last, src, outs, hlex, hsource, hout, _, _, hrun⟩
  have hstore : Ssa.BodyPhrase returnedWords [.store (.const 0) "2"] :=
    .cons (.store (p := "2") (.number (d := "0") rfl) rfl) .nil
  refine ⟨haccepted, _, _, _, ⟨hwords, by decide +kernel,
    divisionItems_words _ ▸ divisionWords_unit hstore⟩, hout, by decide, ?_⟩
  -- The compiler has the words without those of the comment.
  have hskip : AirUnit "k" (tokens.map (·.text)) (divisionKernel []) :=
    AirUnit.of_words hlex hseen (divisionItems_words [] ▸ divisionWords_unit .nil)
  have hresult : src.run 0 0 0 [14] = .ok [2] := by
    rw [hsource.unique hskip]
    decide
  rcases hrun 0 0 0 [14] with ⟨buf, hsrc, hemit⟩ | ⟨hsrc, _⟩
  · rw [hemit, ← hsrc, hresult]
  · rw [hresult] at hsrc
    cases hsrc

end Instances

end Mellow.ShaderJit.Air
