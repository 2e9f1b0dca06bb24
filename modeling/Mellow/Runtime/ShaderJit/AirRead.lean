import Mellow.Runtime.ShaderJit.AirAgree

/-!
# Reading AIR

What the parser has read when it comes through. The words of an instruction make
a phrase of the grammar of LLVM, and the lines that were added are statements
that agree with it. Words are compared by their texts: an operation in quotes
counts as that operation.

## Main definitions

* `OperandIs`: an operand, its words and its text.
* `ReadsInstr`: an instruction was read.
* `ReadsBody`: instructions up to the end were read.

## Theorems

* `instructions_reads`: the loop reads a body.
-/

namespace Mellow.ShaderJit.Air

open Lib

section Words

variable {s s' : Scan Fields} {u : Unit}

theorem ssaName_reads {n : String} (h : Yields ssaName s n s') :
    Ssa.isLocal n = true ∧ s.words = "%" :: n :: s'.words ∧ s'.fields = s.fields := by
  rcases yields_require_bind (by decide) h with ⟨s₁, hw₁, hf₁, h₁⟩
  rcases h₁.bind yields_peek.mp with ⟨t, s₂, ⟨rfl, rfl⟩, h₂⟩
  rcases yields_refuseIf_bind h₂ with ⟨hcheck, h₃⟩
  rcases yields_consume h₃ with ⟨htext, rfl⟩
  rw [htext, Bool.or_eq_false_iff, Bool.not_eq_false'] at hcheck
  have hlocal : Ssa.isLocal n = true := hcheck.2
  refine ⟨hlocal, ?_, hf₁⟩
  rw [hw₁, Scan.words_of_peek htext]
  rintro rfl
  exact absurd hlocal (by decide)

theorem take_reads {w : String} {b : Bool} (hw : w ≠ "")
    (h : Yields (take w : AirStep Bool) s b s') :
    s'.fields = s.fields ∧ ∃ o, s.words = o ++ s'.words ∧ (o = [] ∨ o = [w]) := by
  rcases yields_take hw h with ⟨_, hat, rfl⟩ | ⟨_, _, rfl⟩
  · exact ⟨rfl, _, Scan.words_of_peek (Scan.peek_of_isAt hat) hw, .inr rfl⟩
  · exact ⟨rfl, [], rfl, .inl rfl⟩

theorem pointerType_reads (h : Yields pointerType s u s') :
    s.words = "ptr" :: "addrspace" :: "(" :: "1" :: ")" :: s'.words ∧ s'.fields = s.fields :=
  yields_requires_last ["ptr", "addrspace", "(", "1"] ")" (by decide) h

theorem vectorType_reads (h : Yields vectorType s u s') :
    s.words = "<" :: "3" :: "x" :: "i32" :: ">" :: s'.words ∧ s'.fields = s.fields :=
  yields_requires_last ["<", "3", "x", "i32"] ">" (by decide) h

theorem aligned_reads (h : Yields aligned s u s') :
    s.words = "," :: "align" :: "4" :: s'.words ∧ s'.fields = s.fields :=
  yields_requires_last [",", "align"] "4" (by decide) h

theorem lookup_reads {type : AirType} {v : AirValue} (h : Yields (lookup type) s v s') :
    ∃ n, Ssa.isLocal n = true ∧ s.words = "%" :: n :: s'.words ∧ s'.fields = s.fields ∧
      s.fields.values.lookup n = some v ∧ v.type = type := by
  rcases h.bind ssaName_reads with ⟨n, s₁, ⟨hn, hw₁, hf₁⟩, h₁⟩
  have h₂ := yields_fields_bind h₁
  cases hlook : s₁.fields.values.lookup n with
  | none =>
    rw [hlook] at h₂
    exact absurd h₂ yields_fail
  | some a =>
    rw [hlook] at h₂
    rcases yields_refuseIf_bind h₂ with ⟨htype, h₃⟩
    rcases yields_pure.mp h₃ with ⟨rfl, rfl⟩
    rw [hf₁] at hlook
    exact ⟨n, hn, hw₁, hf₁, hlook, not_not.mp (of_decide_eq_false htype)⟩

theorem define_reads {n : String} {v : AirValue} (h : Yields (define n v) s u s') :
    s.fields.values.lookup n = none ∧
      s' = s.put { s.fields with values := s.fields.values ++ [(n, v)] } := by
  rcases yields_refuseIf_bind (yields_fields_bind h) with ⟨hnone, h₁⟩
  exact ⟨Option.isSome_eq_false_iff.mp hnone |> Option.isNone_iff_eq_none.mp,
    yields_editFields.mp h₁⟩

theorem decimalValue_digits {maximum : Nat} {cs : List Char} {n v : Nat}
    (h : decimalValue maximum cs n = some v) :
    (∀ c ∈ cs, isDigit c = true) ∧ v = Nat.ofDigitChars 10 cs n := by
  induction cs generalizing n with
  | nil => exact ⟨nofun, (Option.some.inj h).symm⟩
  | cons c cs ih =>
    rw [decimalValue] at h
    split_ifs at h with hbad
    rcases ih h with ⟨hcs, hv⟩
    simp only [Bool.or_eq_true, not_or, Bool.not_eq_true', Bool.not_eq_false] at hbad
    refine ⟨fun d hd => ?_, ?_⟩
    · rcases List.mem_cons.mp hd with rfl | hd
      · exact hbad.1.1
      · exact hcs d hd
    · rw [hv, Nat.ofDigitChars_cons, Nat.mul_comm]

/-- What was read for an operand: a value of the table, or a constant. -/
inductive OperandIs (vs : List (String × AirValue)) : AirValue → Ssa.Operand → CExpr → Prop where
  | reg {n : String} {a : AirValue} (ha : vs.lookup n = some a) (htype : a.type = .u32) :
      OperandIs vs a (.reg n) (.name a.emitted)
  | const {a : AirValue} {w : BitVec 32} (ha : a.emitted = toString w.toNat ++ "u") :
      OperandIs vs a (.const w) (.num a.emitted)

theorem OperandIs.agrees {vs : List (String × AirValue)} {a : AirValue} {o : Ssa.Operand}
    {e : CExpr} (h : OperandIs vs a o e) : OperandAgrees vs o e := by
  cases h with
  | reg ha htype => exact operandAgrees_reg ha htype
  | const ha =>
    rw [ha]
    exact operandAgrees_const _

/-- An operand, which is a constant where the next word is not a percent
    sign. -/
theorem u32_reads {a : AirValue} (h : Yields u32 s a s') :
    s'.fields = s.fields ∧ ∃ ws o e, s.words = ws ++ s'.words ∧ Ssa.OperandPhrase ws o ∧
      OperandIs s.fields.values a o e ∧ (s.isAt "%" = false → ∃ w, o = .const w) := by
  rcases h.bind yields_isAt.mp with ⟨b, s₁, ⟨rfl, rfl⟩, h₁⟩
  rcases yields_ite.mp h₁ with ⟨hpercent, h₂⟩ | ⟨_, h₂⟩
  · rcases lookup_reads h₂ with ⟨n, hn, hw, hf, hlook, htype⟩
    exact ⟨hf, ["%", n], .reg n, .name a.emitted, hw, .reg hn, .reg hlook htype,
      fun hno => absurd (hno.symm.trans hpercent) nofun⟩
  · have hconst : ∀ {t : Scan Fields} {negative : Bool}, Yields (do
        let value ← decimal (if negative then INT32_MAX + 1 else UINT32_MAX)
        return ⟨.u32, toString (constantBits negative value).toNat ++ "u", false, false⟩) t a s' →
        s'.fields = t.fields ∧ ∃ d, Ssa.isDigits d = true ∧ t.words = d :: s'.words ∧ a.emitted =
          toString (constantBits negative (Nat.ofDigitChars 10 d.toList 0)).toNat ++ "u" := by
      intro t negative h
      rcases h.bind yields_decimal with ⟨value, t₁, ⟨d, hw, hne, hvalue, hf⟩, h₁⟩
      rcases yields_pure.mp h₁ with ⟨rfl, rfl⟩
      rcases decimalValue_digits hvalue with ⟨hdigits, rfl⟩
      refine ⟨hf, d, Bool.and_eq_true_iff.mpr ⟨decide_eq_true fun hnil => hne ?_,
        List.all_eq_true.mpr hdigits⟩, hw, rfl⟩
      exact String.toList_eq_nil_iff.mp hnil
    rcases yields_take_bind (by decide) h₂ with ⟨s₂, hw₂, hf₂, h₃⟩ | h₃
    · rcases hconst h₃ with ⟨hf, d, hd, hw, ha⟩
      exact ⟨hf.trans hf₂, ["-", d], .const (-Ssa.word d), _, by rw [hw₂, hw]; rfl, .negative hd,
        .const ha, fun _ => ⟨_, rfl⟩⟩
    · rcases hconst h₃ with ⟨hf, d, hd, hw, ha⟩
      exact ⟨hf, [d], .const (Ssa.word d), _, hw, .number hd, .const ha, fun _ => ⟨_, rfl⟩⟩

end Words

/-- The names that the output has declared. -/
structure Known (vs : List (String × AirValue)) (ds : List String) : Prop where
  emitted : ∀ p ∈ vs, p.2.type = .u32 → p.2.emitted ∈ ds ∧ isName p.2.emitted = true
  names : ∀ d ∈ ds, d = "mellow_buffer0" ∨ d = "mellow_gid" ∨ ∃ k < vs.length, d = ssaVariable k
  buffer : "mellow_buffer0" ∈ ds
  thread : "mellow_gid" ∈ ds

section Scopes

variable {vs : List (String × AirValue)} {ds : List String} {a : AirValue} {e : CExpr}

theorem mem_of_lookup {α : Type} {l : List (String × α)} {n : String} {a : α}
    (h : l.lookup n = some a) : (n, a) ∈ l := by
  induction l with
  | nil => cases h
  | cons p l ih =>
    rw [List.lookup_cons] at h
    cases hn : n == p.1 with
    | true =>
      rw [hn] at h
      cases h
      rw [eq_of_beq hn]
      exact List.mem_cons_self
    | false =>
      rw [hn] at h
      exact List.mem_cons_of_mem p (ih h)

theorem Known.fresh (h : Known vs ds) : ssaVariable vs.length ∉ ds := by
  intro hmem
  rcases h.names _ hmem with hname | hname | ⟨k, hk, hname⟩
  · exact ssaVariable_ne_buffer _ hname
  · exact ssaVariable_ne_gid _ hname
  · exact absurd (ssaVariable_inj hname) (Nat.ne_of_gt hk)

theorem isName_ssaVariable (k : Nat) : isName (ssaVariable k) = true :=
  isName_numbered (by decide) k

theorem Known.remember (h : Known vs ds) {n : String}
    (ha : a.type = .u32 → a.emitted = "mellow_gid") : Known (vs ++ [(n, a)]) ds where
  emitted p hp htype := by
    rcases List.mem_append.mp hp with hp | hp
    · exact h.emitted p hp htype
    · rw [List.mem_singleton.mp hp] at htype ⊢
      rw [ha htype]
      exact ⟨h.thread, by decide⟩
  names d hd := by
    rw [List.length_append]
    rcases h.names d hd with hname | hname | ⟨k, hk, hname⟩
    · exact .inl hname
    · exact .inr (.inl hname)
    · exact .inr (.inr ⟨k, Nat.lt_add_right _ hk, hname⟩)
  buffer := h.buffer
  thread := h.thread

theorem Known.declare (h : Known vs ds) {n : String} :
    Known (vs ++ [(n, ⟨.u32, ssaVariable vs.length, false, false⟩)])
    (ssaVariable vs.length :: ds) where
  emitted p hp htype := by
    rcases List.mem_append.mp hp with hp | hp
    · rcases h.emitted p hp htype with ⟨hmem, hname⟩
      exact ⟨List.mem_cons_of_mem _ hmem, hname⟩
    · rw [List.mem_singleton.mp hp]
      exact ⟨List.mem_cons_self, isName_ssaVariable _⟩
  names d hd := by
    rw [List.length_append, List.length_singleton]
    rcases List.mem_cons.mp hd with rfl | hd
    · exact .inr (.inr ⟨_, Nat.lt_succ_self _, rfl⟩)
    · rcases h.names d hd with hname | hname | ⟨k, hk, hname⟩
      · exact .inl hname
      · exact .inr (.inl hname)
      · exact .inr (.inr ⟨k, Nat.lt_succ_of_lt hk, hname⟩)
  buffer := List.mem_cons_of_mem _ h.buffer
  thread := List.mem_cons_of_mem _ h.thread

/-- The text of an operand is its expression, with names that are declared. -/
theorem OperandIs.written {o : Ssa.Operand} (h : OperandIs vs a o e)
    (hk : Known vs ds) : Written clCompound a.emitted.toList e ∧ e.names ⊆ ds := by
  cases h with
  | reg ha htype =>
    rcases hk.emitted _ (mem_of_lookup ha) htype with ⟨hmem, hname⟩
    refine ⟨.name clPunctuation hname, fun x hx => ?_⟩
    rw [List.mem_singleton.mp hx]
    exact hmem
  | const ha =>
    rw [ha]
    exact ⟨decimal_written _ (.inr rfl), List.nil_subset ds⟩

theorem OperandIs.confined {o : Ssa.Operand} (h : OperandIs vs a o e)
    (array thread : String) : e.Confined array thread := by
  cases h with
  | reg | const => trivial

theorem declare_written {k : Nat} {t : String} (h : Written clCompound t.toList e) :
    BodyWritten ("  const uint " ++ ssaVariable k ++ " = " ++ t ++ ";\n").toList
      [.decl true (ssaVariable k) e] := by
  have hdecl := stmtWritten_decl true (isName_ssaVariable k) h
  repeat rw [String.toList_append]
  repeat rw [List.append_assoc]
  exact bodyWritten_single hdecl

theorem store_written {t : String} (h : Written clCompound t.toList e) :
    BodyWritten ("  mellow_buffer0[mellow_gid] = " ++ t ++ ";\n").toList
      [.store "mellow_buffer0" (.name "mellow_gid") e] := by
  have hsplit : "  mellow_buffer0[mellow_gid] = ".toList =
      "  mellow_buffer0[mellow_gid]".toList ++ " = ".toList := by decide
  rw [String.toList_append, String.toList_append, List.append_assoc, hsplit, List.append_assoc]
  exact bodyWritten_single (stmtWritten_store h)

end Scopes

/-- What reading the rest of an instruction does, after the words `pre`. -/
structure ReadsInstr (ds pre : List String) (s s' : Scan Fields) : Prop where
  entry : s'.fields.entry = s.fields.entry
  count : s'.fields.instructions = s.fields.instructions
  read : ∃ ws i outs t, pre ++ s.words = ws ++ s'.words ∧ Ssa.InstrPhrase ws i ∧
    s'.fields.body = s.fields.body ++ t ∧ BodyWritten t.toList outs ∧
    InstrAgrees s.fields.values s'.fields.values i outs ∧ Scoped ds outs ∧
    (∀ st ∈ outs, st.Confined "mellow_buffer0" "mellow_gid") ∧
    Known s'.fields.values (outs.foldl Stmt.declared ds)

section Instructions

variable {s s' : Scan Fields} {ds : List String} {u : Unit} {n t : String}

theorem store_reads (hk : Known s.fields.values ds) (h : Yields store s u s') :
    ReadsInstr ds ["store"] s s' := by
  rcases yields_require_bind (by decide) h with ⟨s₁, hw₁, hf₁, h₁⟩
  rcases h₁.bind u32_reads with ⟨a, s₂, ⟨hf₂, ts, o, e, hw₂, hphrase, his, _⟩, h₂⟩
  rcases yields_require_bind (by decide) h₂ with ⟨s₃, hw₃, hf₃, h₃⟩
  rcases h₃.bind pointerType_reads with ⟨_, s₄, ⟨hw₄, hf₄⟩, h₄⟩
  rcases h₄.bind lookup_reads with ⟨b, s₅, ⟨p, hp, hw₅, hf₅, hb, htype⟩, h₅⟩
  rcases yields_refuseIf_bind h₅ with ⟨helement, h₆⟩
  rcases h₆.bind aligned_reads with ⟨_, s₆, ⟨hw₆, hf₆⟩, h₇⟩
  have hs : s' = _ := yields_editFields.mp (yields_editFields_bind h₇)
  have hfields : s₆.fields = s.fields := by rw [hf₆, hf₅, hf₄, hf₃, hf₂, hf₁]
  rw [Scan.put_fields, hfields] at hs
  rw [hf₄, hf₃, hf₂, hf₁] at hb
  rw [hf₁] at his
  rcases his.written hk with ⟨hwritten, hnames⟩
  rw [hs]
  refine ⟨rfl, rfl, _, .store o p, [.store "mellow_buffer0" (.name "mellow_gid") e], _, ?_,
    .store hphrase hp, rfl, store_written hwritten,
    instrAgrees_store his.agrees hb htype (Bool.not_eq_eq_eq_not.mp helement),
    ⟨⟨hk.buffer, fun x hx => List.mem_singleton.mp hx ▸ hk.thread, hnames⟩, trivial⟩,
    fun st hst => List.mem_singleton.mp hst ▸ ⟨rfl, his.confined _ _⟩, hk⟩
  rw [hw₁, hw₂, hw₃, hw₄, hw₅, hw₆, Scan.put_words, Scan.put_words]
  simp only [List.cons_append, List.nil_append, List.append_assoc]

theorem readsInstr_none {pre ws : List String} {a : AirValue} {i : Ssa.Instr}
    (hk : Known s.fields.values ds)
    (hs : s'.fields = { s.fields with values := s.fields.values ++ [(n, a)] })
    (hwords : pre ++ s.words = ws ++ s'.words) (hphrase : Ssa.InstrPhrase ws i)
    (hagrees : InstrAgrees s.fields.values (s.fields.values ++ [(n, a)]) i [])
    (ha : a.type = .u32 → a.emitted = "mellow_gid") : ReadsInstr ds pre s s' where
  entry := by rw [hs]
  count := by rw [hs]
  read := by
    refine ⟨ws, i, [], "", hwords, hphrase, ?_, bodyWritten_nil, ?_, trivial, nofun, ?_⟩
    · rw [hs, String.append_empty]
    · rw [hs]
      exact hagrees
    · rw [hs]
      exact hk.remember ha

theorem extractelement_reads (hk : Known s.fields.values ds)
    (hn : Ssa.isLocal n = true) (h : Yields (extractelement n) s u s') :
    ReadsInstr ds ["%", n, "=", "extractelement"] s s' := by
  rcases h.bind vectorType_reads with ⟨_, s₁, ⟨hw₁, hf₁⟩, h₁⟩
  rcases h₁.bind lookup_reads with ⟨a, s₂, ⟨v, hv, hw₂, hf₂, ha, htype⟩, h₂⟩
  rcases yields_requires [",", "i64", "0"] (by decide) h₂ with ⟨s₃, hw₃, hf₃, h₃⟩
  rcases define_reads h₃ with ⟨hnone, hs⟩
  rw [hf₃, hf₂, hf₁] at hnone hs
  rw [hf₁] at ha
  refine readsInstr_none hk (by rw [hs]; rfl) ?_ (.extract hn hv)
    (instrAgrees_extract hnone ha htype)
    fun _ => rfl
  rw [hw₁, hw₂, hw₃, hs]
  rfl

theorem zext_reads (hk : Known s.fields.values ds)
    (hn : Ssa.isLocal n = true) (h : Yields (zext n) s u s') :
    ReadsInstr ds ["%", n, "=", "zext"] s s' := by
  rcases yields_require_bind (by decide) h with ⟨s₁, hw₁, hf₁, h₁⟩
  rcases h₁.bind lookup_reads with ⟨a, s₂, ⟨v, hv, hw₂, hf₂, ha, htype⟩, h₂⟩
  rcases yields_requires ["to", "i64"] (by decide) h₂ with ⟨s₃, hw₃, hf₃, h₃⟩
  rcases yields_refuseIf_bind h₃ with ⟨hexact, h₄⟩
  rcases define_reads h₄ with ⟨hnone, hs⟩
  rw [hf₃, hf₂, hf₁] at hnone hs
  rw [hf₁] at ha
  refine readsInstr_none hk (by rw [hs]; rfl) ?_ (.zext hn hv)
    (instrAgrees_zext hnone ha htype (Bool.not_eq_eq_eq_not.mp hexact)) nofun
  rw [hw₁, hw₂, hw₃, hs]
  rfl

theorem getelementptr_reads (hk : Known s.fields.values ds)
    (hn : Ssa.isLocal n = true) (h : Yields (getelementptr n) s u s') :
    ReadsInstr ds ["%", n, "=", "getelementptr"] s s' := by
  rcases h.bind (take_reads (by decide)) with ⟨_, s₁, ⟨hf₁, inbounds, hw₁, hinbounds⟩, h₁⟩
  rcases yields_requires ["i32", ","] (by decide) h₁ with ⟨s₂, hw₂, hf₂, h₂⟩
  rcases h₂.bind pointerType_reads with ⟨_, s₃, ⟨hw₃, hf₃⟩, h₃⟩
  rcases h₃.bind lookup_reads with ⟨a, s₄, ⟨p, hp, hw₄, hf₄, ha, hatype⟩, h₄⟩
  rcases yields_refuseIf_bind h₄ with ⟨helement, h₅⟩
  rcases yields_requires [",", "i64"] (by decide) h₅ with ⟨s₅, hw₅, hf₅, h₆⟩
  rcases h₆.bind lookup_reads with ⟨c, s₆, ⟨i, hi, hw₆, hf₆, hc, hctype⟩, h₇⟩
  rcases define_reads (yields_refuseIf_bind h₇).2 with ⟨hnone, hs⟩
  have hfields : s₃.fields = s.fields := by rw [hf₃, hf₂, hf₁]
  rw [hfields] at ha
  rw [hf₅, hf₄, hfields] at hc
  rw [hf₆, hf₅, hf₄, hfields] at hnone hs
  refine readsInstr_none hk (by rw [hs]; rfl) ?_ (.gep hn hp hi hinbounds)
    (instrAgrees_gep hnone ha hatype helement hc hctype) nofun
  rw [hw₁, hw₂, hw₃, hw₄, hw₅, hw₆, hs]
  simp only [List.cons_append, List.nil_append, List.append_assoc]
  rfl

theorem declare_reads {pre ws : List String} {i : Ssa.Instr} {e : CExpr}
    {s₀ : Scan Fields} (hk : Known s₀.fields.values ds) (hs : s.fields = s₀.fields)
    (hwords : pre ++ s₀.words = ws ++ s.words) (hphrase : Ssa.InstrPhrase ws i)
    (hwritten : Written clCompound t.toList e) (hnames : e.names ⊆ ds)
    (hconfined : e.Confined "mellow_buffer0" "mellow_gid")
    (hagrees : s₀.fields.values.lookup n = none → InstrAgrees s₀.fields.values
      (s₀.fields.values ++ [(n, ⟨.u32, ssaVariable s₀.fields.values.length, false, false⟩)]) i
      [.decl true (ssaVariable s₀.fields.values.length) e])
    (h : Yields (declare n t) s u s') : ReadsInstr ds pre s₀ s' := by
  rcases define_reads (yields_editFields_bind (yields_fields_bind h)) with ⟨hnone, hdefine⟩
  rw [Scan.put_fields, hs] at hnone hdefine
  rw [hdefine]
  exact ⟨rfl, rfl, ws, i, [.decl true (ssaVariable s₀.fields.values.length) e], _, hwords, hphrase,
    rfl, declare_written hwritten, hagrees hnone, ⟨⟨hnames, hk.fresh⟩, trivial⟩,
    fun st hst => List.mem_singleton.mp hst ▸ hconfined, hk.declare⟩

theorem load_reads {s₁ : Scan Fields} (hk : Known s.fields.values ds)
    (hn : Ssa.isLocal n = true) (h : Yields load s t s₁) (hdeclare : Yields (declare n t) s₁ u s') :
    ReadsInstr ds ["%", n, "=", "load"] s s' := by
  rcases yields_requires ["i32", ","] (by decide) h with ⟨t₁, hw₁, hf₁, h₁⟩
  rcases h₁.bind pointerType_reads with ⟨_, t₂, ⟨hw₂, hf₂⟩, h₂⟩
  rcases h₂.bind lookup_reads with ⟨a, t₃, ⟨p, hp, hw₃, hf₃, ha, htype⟩, h₃⟩
  rcases yields_refuseIf_bind h₃ with ⟨helement, h₄⟩
  rcases h₄.bind aligned_reads with ⟨_, t₄, ⟨hw₄, hf₄⟩, h₅⟩
  rcases yields_pure.mp h₅ with ⟨rfl, rfl⟩
  rw [hf₂, hf₁] at ha
  refine declare_reads (e := accessExpr) hk (by rw [hf₄, hf₃, hf₂, hf₁]) ?_ (.load hn hp)
    access_written ?_ ⟨rfl, rfl⟩
    (fun hnone => instrAgrees_load hnone ha htype (Bool.not_eq_eq_eq_not.mp helement)) hdeclare
  · rw [hw₁, hw₂, hw₃, hw₄]
    rfl
  · intro x hx
    rcases List.mem_cons.mp hx with rfl | hx
    · exact hk.buffer
    · rw [List.mem_singleton.mp hx]
      exact hk.thread

theorem ops_lookup {op c : String} (h : ops.lookup op = some c) :
    ∃ o : Ssa.Opcode, o.mnemonic = op ∧ sign o = c := by
  have hall : ∀ p ∈ ops, ∃ o : Ssa.Opcode, o.mnemonic = p.1 ∧ sign o = p.2 := by
    simp only [ops, List.forall_mem_cons, List.not_mem_nil, false_implies, implies_true, and_true]
    exact ⟨⟨.add, rfl, rfl⟩, ⟨.sub, rfl, rfl⟩, ⟨.mul, rfl, rfl⟩, ⟨.and, rfl, rfl⟩, ⟨.or, rfl, rfl⟩,
      ⟨.xor, rfl, rfl⟩, ⟨.shl, rfl, rfl⟩, ⟨.lshr, rfl, rfl⟩, ⟨.udiv, rfl, rfl⟩, ⟨.urem, rfl, rfl⟩⟩
  exact hall _ (mem_of_lookup h)

theorem sign_prec (o : Ssa.Opcode) : 1 < prec (sign o) := by
  cases o <;> decide

theorem stoull_constant (w : BitVec 32) : stoull (toString w.toNat ++ "u") = w.toNat := by
  have hrepr : (toString w.toNat).toList = Nat.toDigits 10 w.toNat := Nat.toList_repr
  have hu : "u".toList.takeWhile digit = [] := by decide
  rw [stoull, String.toList_append, List.takeWhile_append_of_pos fun c hc => isDigit_repr hc, hu,
    List.append_nil, hrepr, Nat.ofDigitChars_toDigits (by decide) (by decide)]

/-- What the checks of an operation are for. -/
theorem apply_checked {o : Ssa.Opcode} {b : AirValue} {w : BitVec 32}
    (hb : b.emitted = toString w.toNat ++ "u")
    (hcheck : ((isShift o.mnemonic && stoull b.emitted ≥ 32) ||
      (isDivision o.mnemonic && stoull b.emitted = 0)) = false) (u : BitVec 32) :
    ∃ v, o.apply u w = .ok v := by
  rw [hb, stoull_constant] at hcheck
  have hzero : w.toNat ≠ 0 → ¬w = 0 := fun hne heq => hne (by rw [heq]; rfl)
  cases o with
  | add | sub | mul | and | or | xor => exact ⟨_, rfl⟩
  | shl | lshr =>
    have hlt : ¬32 ≤ w.toNat := by simpa [isShift, isDivision, Ssa.Opcode.mnemonic] using hcheck
    exact ⟨_, if_neg hlt⟩
  | udiv | urem =>
    have hne : w.toNat ≠ 0 := by simpa [isShift, isDivision, Ssa.Opcode.mnemonic] using hcheck
    exact ⟨_, if_neg (hzero hne)⟩

theorem apply_total {o : Ssa.Opcode} (h : (isShift o.mnemonic || isDivision o.mnemonic) = false)
    (u w : BitVec 32) : ∃ v, o.apply u w = .ok v := by
  cases o with
  | add | sub | mul | and | or | xor => exact ⟨_, rfl⟩
  | shl | lshr | udiv | urem => cases h

theorem arithmetic_reads {op : String} {s₁ : Scan Fields}
    (hk : Known s.fields.values ds) (hn : Ssa.isLocal n = true) (h : Yields (arithmetic op) s t s₁)
    (hdeclare : Yields (declare n t) s₁ u s') : ReadsInstr ds ["%", n, "=", op] s s' := by
  unfold arithmetic at h
  cases hop : ops.lookup op with
  | none =>
    rw [hop] at h
    exact absurd h yields_fail
  | some c =>
    rw [hop] at h
    rcases ops_lookup hop with ⟨o, rfl, rfl⟩
    rcases yields_require_bind (by decide) h with ⟨t₁, hw₁, hf₁, h₁⟩
    rcases h₁.bind u32_reads with ⟨a, t₂, ⟨hf₂, ls, ol, l, hw₂, hphrasel, hisl, _⟩, h₂⟩
    rcases yields_require_bind (by decide) h₂ with ⟨t₃, hw₃, hf₃, h₃⟩
    rcases h₃.bind yields_isAt.mp with ⟨atValue, t₄, ⟨rfl, rfl⟩, h₄⟩
    rcases yields_refuseIf_bind h₄ with ⟨hvalue, h₅⟩
    rcases h₅.bind u32_reads with ⟨b, t₅, ⟨hf₅, rs, or, r, hw₅, hphraser, hisr, hconst⟩, h₆⟩
    rcases yields_refuseIf_bind h₆ with ⟨hcheck, h₇⟩
    rcases yields_pure.mp h₇ with ⟨rfl, rfl⟩
    rw [hf₁] at hisl
    rw [hf₃, hf₂, hf₁] at hisr
    rcases hisl.written hk with ⟨hwl, hnl⟩
    rcases hisr.written hk with ⟨hwr, hnr⟩
    have hsafe : ∀ env u w, Ssa.operand env or = .ok w → ∃ v, o.apply u w = .ok v := by
      intro env u w hw
      cases hkind : isShift o.mnemonic || isDivision o.mnemonic with
      | false => exact apply_total hkind u w
      | true =>
        -- The right operand is a constant that was checked.
        rw [hkind, Bool.true_and] at hvalue
        rcases hconst hvalue with ⟨w', rfl⟩
        cases hw
        cases hisr with
        | const hb => exact apply_checked hb hcheck u
    refine declare_reads hk (by rw [hf₅, hf₃, hf₂, hf₁]) ?_ (.binary hn hphrasel hphraser) ?_ ?_ ?_
      (fun hnone => instrAgrees_binary hnone hisl.agrees hisr.agrees hsafe) hdeclare
    · simp [*]
    · repeat rw [String.toList_append]
      repeat rw [List.append_assoc]
      exact hwl.operation clPunctuation (sign_prec o) hwr
    · exact List.append_subset.mpr ⟨hnl, hnr⟩
    · exact ⟨hisl.confined _ _, hisr.confined _ _⟩

theorem instruction_reads (hk : Known s.fields.values ds) (h : Yields instruction s u s') :
    s.fields.instructions < MaxStatements ∧ ∃ t : Scan Fields, ∃ pre : List String,
      s.words = pre ++ t.words ∧
      t.fields = { s.fields with instructions := s.fields.instructions + 1 } ∧
      ReadsInstr ds pre t s' := by
  rcases yields_refuseIf_bind (yields_fields_bind (yields_editFields_bind h)) with ⟨hbudget, h₁⟩
  refine ⟨Nat.lt_of_succ_le (Nat.le_of_not_lt (of_decide_eq_false hbudget)), ?_⟩
  rcases yields_take_bind (by decide) h₁ with ⟨t, hw, hf, h₂⟩ | h₂
  · exact ⟨t, ["store"], hw, hf, store_reads (by rw [hf]; exact hk) h₂⟩
  · rcases h₂.bind ssaName_reads with ⟨n, s₁, ⟨hn, hw₁, hf₁⟩, h₃⟩
    rcases yields_require_bind (by decide) h₃ with ⟨s₂, hw₂, hf₂, h₄⟩
    rcases h₄.bind yields_consume with ⟨op, _, ⟨htext, rfl⟩, h₅⟩
    have hf : s₂.next.fields = { s.fields with instructions := s.fields.instructions + 1 } :=
      hf₂.trans hf₁
    have hk' : Known s₂.next.fields.values ds := by
      rw [hf]
      exact hk
    have hreads : ReadsInstr ds ["%", n, "=", op] s₂.next s' := by
      rcases yields_ite.mp h₅ with ⟨rfl, h₆⟩ | ⟨_, h₆⟩
      · exact extractelement_reads hk' hn h₆
      rcases yields_ite.mp h₆ with ⟨rfl, h₇⟩ | ⟨_, h₇⟩
      · exact zext_reads hk' hn h₇
      rcases yields_ite.mp h₇ with ⟨rfl, h₈⟩ | ⟨_, h₈⟩
      · exact getelementptr_reads hk' hn h₈
      rcases yields_bind.mp h₈ with ⟨t, s₃, hexpr, h₉⟩
      rcases yields_ite.mp hexpr with ⟨rfl, h₁₀⟩ | ⟨_, h₁₀⟩
      · exact load_reads hk' hn h₁₀ h₉
      · exact arithmetic_reads hk' hn h₁₀ h₉
    -- No operation is the empty string, so that its token was a word.
    have hne : op ≠ "" := by
      rintro rfl
      rcases hreads.read with ⟨_, _, _, _, hws, hphrase, _⟩
      exact hphrase.operation_ne hws.symm
    refine ⟨s₂.next, ["%", n, "=", op], ?_, hf, hreads⟩
    rw [Scan.put_words] at hw₁
    rw [hw₁, hw₂, Scan.words_of_peek htext hne]
    rfl

end Instructions

def BodyAgrees (vs : List (String × AirValue)) (is : List Ssa.Instr) (outs : List Stmt) : Prop :=
  ∀ x y z env vars buf, Related x y z vs env vars →
    (∃ env' vars' buf', is.foldlM Ssa.exec (env, buf) = .ok (env', buf') ∧
      outs.foldlM (exec "mellow_buffer0") (vars, buf) = .ok (vars', buf')) ∨
    (is.foldlM Ssa.exec (env, buf) = .error .outside ∧
      outs.foldlM (exec "mellow_buffer0") (vars, buf) = .error .outside ∧ buf.length ≤ x.toNat)

/-- What reading instructions up to the return does. -/
structure ReadsBody (ds : List String) (s s' : Scan Fields) : Prop where
  entry : s'.fields.entry = s.fields.entry
  read : ∃ ws is outs t, s.words = ws ++ s'.words ∧ Ssa.BodyPhrase ws is ∧
    s'.fields.body = s.fields.body ++ t ∧ BodyWritten t.toList outs ∧
    BodyAgrees s.fields.values is outs ∧ Scoped ds outs ∧
    ∀ st ∈ outs, st.Confined "mellow_buffer0" "mellow_gid"

section Bodies

variable {s s' : Scan Fields} {ds : List String}

theorem bodyAgrees_cons {vs vs' : List (String × AirValue)} {i : Ssa.Instr} {is : List Ssa.Instr}
    {outs outs' : List Stmt} (h : InstrAgrees vs vs' i outs) (hs : BodyAgrees vs' is outs') :
    BodyAgrees vs (i :: is) (outs ++ outs') := by
  intro x y z env vars buf hr
  rw [List.foldlM_cons, List.foldlM_append]
  rcases h x y z env vars buf hr with
    ⟨env', vars', buf', hsrc, hout, hr', hlen⟩ | ⟨hsrc, hout, hlen⟩
  · rw [hsrc, hout, ← hlen]
    exact hs x y z env' vars' buf' hr'
  · rw [hsrc, hout]
    exact .inr ⟨rfl, rfl, hlen⟩

theorem readsBody_done (s : Scan Fields) : ReadsBody ds s s := by
  refine ⟨rfl, [], [], [], "", rfl, .nil, (String.append_empty).symm, bodyWritten_nil, ?_, trivial,
    nofun⟩
  exact fun x y z env vars buf _ => .inl ⟨env, vars, buf, rfl, rfl⟩

theorem instructions_reads {n : Nat} {u : Unit} (hk : Known s.fields.values ds)
    (hbudget : MaxStatements ≤ s.fields.instructions + n) (h : Yields (instructions n) s u s') :
    ReadsBody ds s s' := by
  induction n generalizing s ds with
  | zero =>
    rcases yields_bind.mp h with ⟨b, t, hat, h₁⟩
    rcases yields_isAt.mp hat with ⟨rfl, rfl⟩
    rcases yields_ite.mp h₁ with ⟨_, h₂⟩ | ⟨_, h₂⟩
    · rw [(yields_pure.mp h₂).2]
      exact readsBody_done t
    · -- The budget is used up, and the next instruction is refused.
      exact absurd (instruction_reads hk h₂).1 (Nat.not_lt.mpr hbudget)
  | succ n ih =>
    rcases h.bind yields_isAt.mp with ⟨b, t, ⟨rfl, rfl⟩, h₁⟩
    rcases yields_ite.mp h₁ with ⟨_, h₂⟩ | ⟨_, h₂⟩
    · rw [(yields_pure.mp h₂).2]
      exact readsBody_done t
    · rcases yields_bind.mp h₂ with ⟨_, s₁, hinstr, h₃⟩
      rcases (instruction_reads hk hinstr).2 with ⟨t₁, pre, hpre, hf₁, hentry, hcount,
        ws, i, outs, text, hws, hphrase, hbody, hwritten, hagrees, hscoped, hconfined, hk₁⟩
      have hbudget₁ : MaxStatements ≤ s₁.fields.instructions + n := by
        rw [hcount, hf₁]
        change MaxStatements ≤ t.fields.instructions + 1 + n
        omega
      rcases ih hk₁ hbudget₁ h₃ with
        ⟨hentry', ws', is, outs', text', hws', hphrase', hbody', hwritten', hagrees', hscoped',
          hconfined'⟩
      rw [hf₁] at hentry hbody hagrees
      refine ⟨hentry'.trans hentry, ws ++ ws', i :: is, outs ++ outs', text ++ text', ?_,
        .cons hphrase hphrase', ?_, ?_, bodyAgrees_cons hagrees hagrees',
        scoped_append hscoped hscoped', List.forall_mem_append.mpr ⟨hconfined, hconfined'⟩⟩
      · rw [hpre, hws, hws', List.append_assoc]
      · rw [hbody', hbody, String.append_assoc]
      · simp [String.toList_append, bodyWritten_append, *]

end Bodies

end Mellow.ShaderJit.Air
