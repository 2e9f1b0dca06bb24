import Mathlib.Data.List.Nodup
import Mellow.Runtime.ShaderJit.Fold

/-!
# Trees and Expressions

The front end turns an expression of the source into a tree, and the tree into
an expression of the output. Each kind of expression has its own lemma, and the
parser is not mentioned. All that can go wrong is an access outside of the
buffer, where the number of the thread is outside of it: the checks of the
compiler rule out the faults of C.

## Main definitions

* `Matches`: environments that the symbol table relates.
* `Agrees`: a tree and both expressions belong together.

## Theorems

* `agrees_binary`: the case of binary operators.
* `agrees_load`: the case of an element of the buffer.
-/

namespace Mellow.ShaderJit

open Lib

def emittedName : Nat → String
  | 0 => "mellow_gid"
  | i + 1 => "mellow_v" ++ toString (i + 1)

def accessExpr : CExpr := .index (.name "mellow_buffer0") (.name "mellow_gid")

def Node.out : Node → CExpr
  | .literal f => .num (constantText f)
  | .symbol f i => if f.constant then .num (constantText f) else .name (emittedName i)
  | .load f => if f.constant then .num (constantText f) else accessExpr
  | .unary f op left =>
    if f.constant then .num (constantText f) else .paren (.unary op left.out)
  | .binary f op left right =>
    if f.constant then .num (constantText f) else .paren (.binary op left.out right.out)

/-- The symbols and operators of a tree are ones that the output has. -/
def Node.Proper (k : Nat) : Node → Prop
  | .literal _ => True
  | .symbol _ i => i < k
  | .load _ => True
  | .unary _ op left => isSign op = true ∧ left.Proper k
  | .binary _ op left right => 0 < precedence op ∧ left.Proper k ∧ right.Proper k

theorem Node.Proper.mono {j k : Nat} {n : Node} (h : n.Proper j) (hjk : j ≤ k) : n.Proper k := by
  induction n with
  | literal | load => trivial
  | symbol => exact Nat.lt_of_lt_of_le h hjk
  | unary _ _ _ ih => exact ⟨h.1, ih h.2⟩
  | binary _ _ _ _ ihl ihr => exact ⟨h.1, ihl h.2.1, ihr h.2.2⟩

/-- What holds of the table of symbols, where `array` is the buffer. -/
structure Table (array : String) (symbols : List Symbol) : Prop where
  emitted : symbols.map (·.emitted) = (List.range symbols.length).map emittedName
  sources : (symbols.map (·.source)).Nodup
  array : array ∉ symbols.map (·.source)
  immutable : ∀ s ∈ symbols, s.exactIndex = true → s.immutable = true
  first : ∃ s ss, symbols = s :: ss ∧ s.exactIndex = true

/-- A variable of the source and the one of the output for the same symbol. -/
structure Held (g : BitVec 32) (s : Symbol) (v v' : Var) : Prop where
  source : v.name = s.source
  emitted : v'.name = s.emitted
  value : v.value = v'.value
  exactIndex : s.exactIndex = true → v.value = g
  assignable : s.immutable = false → v.const = false ∧ v'.const = false

/-- Environments that the symbol table relates, for the thread with number
    `g`. -/
inductive Matches (g : BitVec 32) : List Symbol → List Var → List Var → Prop where
  | nil : Matches g [] [] []
  | cons {s : Symbol} {v v' : Var} {ss : List Symbol} {vs vs' : List Var} (h : Held g s v v')
      (hs : Matches g ss vs vs') : Matches g (s :: ss) (v :: vs) (v' :: vs')

section Tables

variable {g : BitVec 32} {ss : List Symbol} {vs vs' : List Var} {array : String} {i : Nat}

theorem emittedName_ne_buffer (i : Nat) : emittedName i ≠ "mellow_buffer0" := by
  cases i with
  | zero => decide
  | succ i =>
    intro h
    have hlist := congrArg (fun s : String => s.toList.take 8) h
    unfold emittedName at hlist
    rw [String.toList_append, List.take_append_of_le_length (by decide)] at hlist
    exact absurd hlist (by decide)

theorem emittedName_inj {j : Nat} (h : emittedName i = emittedName j) : i = j := by
  -- The names after the first one start differently.
  have hv : ∀ k : Nat, "mellow_gid" ≠ "mellow_v" ++ toString k := by
    intro k h
    have hlist := congrArg (fun s : String => s.toList.take 8) h
    rw [String.toList_append, List.take_append_of_le_length (by decide)] at hlist
    exact absurd hlist (by decide)
  cases i with
  | zero =>
    cases j with
    | zero => rfl
    | succ j => exact absurd h (hv _)
  | succ i =>
    cases j with
    | zero => exact absurd h.symm (hv _)
    | succ j =>
      have hlist := congrArg String.toList h
      unfold emittedName at hlist
      rw [String.toList_append, String.toList_append] at hlist
      exact toString_inj (String.toList_inj.mp (List.append_cancel_left hlist))

theorem Table.emitted_nodup (h : Table array ss) : (ss.map (·.emitted)).Nodup := by
  rw [h.emitted]
  exact List.Nodup.map (fun _ _ => emittedName_inj) List.nodup_range

theorem Table.emitted_get (h : Table array ss) {s : Symbol} (hs : ss[i]? = some s) :
    s.emitted = emittedName i := by
  have hi : i < ss.length := (List.getElem?_eq_some_iff.mp hs).1
  have hmap : (ss.map (·.emitted))[i]? = some s.emitted := by rw [List.getElem?_map, hs]; rfl
  rw [h.emitted, List.getElem?_map, List.getElem?_range hi] at hmap
  exact (Option.some.inj hmap).symm

/-- Variables for a symbol that was looked up under its name in the source. -/
theorem Matches.of_source (h : Matches g ss vs vs') {x : String}
    (hi : ss.findIdx? (fun s => s.source = x) = some i) :
    ∃ s v v', ss[i]? = some s ∧ s.source = x ∧ lookup vs x = some v ∧ vs'[i]? = some v' ∧
      Held g s v v' := by
  induction h generalizing i with
  | nil => cases hi
  | @cons s v v' ss vs vs' hheld _ ih =>
    rw [List.findIdx?_cons] at hi
    by_cases hx : s.source = x
    · rw [if_pos (decide_eq_true hx)] at hi
      cases hi
      refine ⟨s, v, v', rfl, hx, ?_, rfl, hheld⟩
      exact List.find?_cons_of_pos (decide_eq_true (hheld.source.trans hx))
    · rw [if_neg (by simpa using hx)] at hi
      rcases Option.map_eq_some_iff.mp hi with ⟨j, hj, rfl⟩
      rcases ih hj with ⟨s', w, w', hs, hname, hlook, hget, hheld'⟩
      refine ⟨s', w, w', hs, hname, ?_, hget, hheld'⟩
      rw [← hlook]
      refine List.find?_cons_of_neg ?_
      rw [decide_eq_true_eq, hheld.source]
      exact hx

theorem Matches.of_emitted (h : Matches g ss vs vs') (hnodup : (ss.map (·.emitted)).Nodup)
    {s : Symbol} {v' : Var} (hs : ss[i]? = some s) (hv : vs'[i]? = some v') :
    lookup vs' s.emitted = some v' := by
  induction h generalizing i with
  | nil => cases hs
  | @cons s₀ v₀ v₀' ss vs vs' hheld _ ih =>
    rw [List.map_cons, List.nodup_cons] at hnodup
    cases i with
    | zero =>
      cases hs
      cases hv
      exact List.find?_cons_of_pos (decide_eq_true hheld.emitted)
    | succ i =>
      rw [List.getElem?_cons_succ] at hs hv
      rw [← ih hnodup.2 hs hv]
      refine List.find?_cons_of_neg ?_
      rw [decide_eq_true_eq, hheld.emitted]
      intro heq
      exact hnodup.1 (heq ▸ List.mem_map_of_mem (List.mem_of_getElem? hs))

theorem Matches.thread (h : Matches g ss vs vs') (ht : Table array ss) :
    ∃ v', lookup vs' "mellow_gid" = some v' ∧ v'.value = g := by
  rcases ht.first with ⟨s, ss', rfl, hexact⟩
  have hname : s.emitted = "mellow_gid" := ht.emitted_get (i := 0) rfl
  cases h with
  | @cons s v v' ss vs vs' hheld hs =>
    refine ⟨v', ?_, ?_⟩
    · rw [← hname]
      exact Matches.of_emitted (.cons hheld hs) ht.emitted_nodup (i := 0) rfl rfl
    · rw [← hheld.value]
      exact hheld.exactIndex hexact

end Tables

/-- A source expression, the tree, and the output expression. -/
structure Agrees (array : String) (ss : List Symbol) (n : Node) (e : CExpr) : Prop where
  proper : n.Proper ss.length
  sane : n.facts.Sane
  same : ∀ g vs vs' buf, Matches g ss vs vs' →
    eval array vs buf e = eval "mellow_buffer0" vs' buf n.out
  outcome : ∀ g vs vs' buf, Matches g ss vs vs' →
    (∃ v, eval array vs buf e = .ok v ∧ n.facts.Admits v) ∨
      (eval array vs buf e = .error .outside ∧ buf.length ≤ g.toNat)
  constant : n.facts.constant = true → ∀ vs buf, eval array vs buf e = .ok n.facts.val
  exactIndex : n.facts.exactIndex = true → ∀ g vs vs' buf, Matches g ss vs vs' →
    eval array vs buf e = .ok (.uint g)

section Kinds

variable {array : String} {ss : List Symbol} {n : Node} {e : CExpr}

theorem agrees_constant (hproper : n.Proper ss.length) (hfits : n.facts.Fits)
    (hconst : n.facts.constant = true) (hexact : n.facts.exactIndex = false)
    (hout : n.out = .num (constantText n.facts))
    (hval : ∀ vs buf, eval array vs buf e = .ok n.facts.val) : Agrees array ss n e where
  proper := hproper
  sane := ⟨fun _ => hconst, hfits⟩
  same g vs vs' buf _ := by
    rw [hval, hout]
    exact (literal_constantText hfits).symm
  outcome g vs vs' buf _ := by
    refine .inl ⟨_, hval vs buf, fun _ => rfl, fun htype => ?_⟩
    rw [Facts.val, htype]
    exact ⟨_, rfl⟩
  constant _ := hval
  exactIndex h := by
    rw [hexact] at h
    cases h

theorem agrees_literal {w : String} {f : Facts} (hw : Spelled w)
    (hdigit : w.toList.head?.any isDigit = true) (h : literalFacts w = .ok f) :
    Agrees array ss (.literal f) (.num w) := by
  rcases literal_facts hw hdigit h with ⟨hval, hconst, hexact, hfits⟩
  exact agrees_constant trivial hfits hconst hexact rfl fun _ _ => hval

theorem agrees_paren (h : Agrees array ss n e) :
    Agrees array ss n (.paren e) :=
  ⟨h.proper, h.sane, h.same, h.outcome, h.constant, h.exactIndex⟩

/-- What is neither constant nor known to be the number of the thread. -/
theorem agrees_plain (hproper : n.Proper ss.length) (htype : n.facts.type = .uint)
    (hconst : n.facts.constant = false) (hexact : n.facts.exactIndex = false)
    (hsame : ∀ g vs vs' buf, Matches g ss vs vs' →
      eval array vs buf e = eval "mellow_buffer0" vs' buf n.out)
    (hval : ∀ g vs vs' buf, Matches g ss vs vs' → (∃ u, eval array vs buf e = .ok (.uint u)) ∨
      (eval array vs buf e = .error .outside ∧ buf.length ≤ g.toNat)) : Agrees array ss n e where
  proper := hproper
  sane := by
    constructor
    · intro h
      rw [htype] at h
      cases h
    · intro h
      rw [htype] at h
      cases h
  same := hsame
  outcome g vs vs' buf h := by
    refine (hval g vs vs' buf h).imp (fun ⟨u, hu⟩ => ⟨_, hu, fun hc => ?_, fun _ => ⟨u, rfl⟩⟩) id
    rw [hconst] at hc
    cases hc
  constant hc := by
    rw [hconst] at hc
    cases hc
  exactIndex h := by
    rw [hexact] at h
    cases h

theorem agrees_symbol {x : String} {i : Nat} (ht : Table array ss)
    (hi : ss.findIdx? (fun s => s.source = x) = some i) :
    Agrees array ss (.symbol { exactIndex := (ss.map (·.exactIndex)).getD i false } i)
    (.name x) := by
  have hname : ∀ g vs vs' buf, Matches g ss vs vs' → ∃ s v v', ss[i]? = some s ∧ Held g s v v' ∧
      eval array vs buf (.name x) = .ok (.uint v.value) ∧
      eval "mellow_buffer0" vs' buf (.name (emittedName i)) = .ok (.uint v'.value) := by
    intro g vs vs' buf h
    rcases h.of_source hi with ⟨s, v, v', hs, _, hlook, hget, hheld⟩
    refine ⟨s, v, v', hs, hheld, ?_, ?_⟩
    · rw [eval, hlook]
    · rw [eval, ← ht.emitted_get hs, h.of_emitted ht.emitted_nodup hs hget]
  have hlt : i < ss.length := (List.findIdx?_eq_some_iff_getElem.mp hi).1
  refine ⟨hlt, ⟨nofun, nofun⟩, ?_, ?_, nofun, ?_⟩
  · intro g vs vs' buf h
    rcases hname g vs vs' buf h with ⟨s, v, v', _, hheld, hsrc, hout⟩
    rw [hsrc, hheld.value]
    exact hout.symm
  · intro g vs vs' buf h
    rcases hname g vs vs' buf h with ⟨s, v, v', _, _, hsrc, _⟩
    exact .inl ⟨_, hsrc, nofun, fun _ => ⟨_, rfl⟩⟩
  · intro hexact g vs vs' buf h
    rcases hname g vs vs' buf h with ⟨s, v, v', hs, hheld, hsrc, _⟩
    have : s.exactIndex = true := by
      change (ss.map (·.exactIndex)).getD i false = true at hexact
      rwa [List.getD_eq_getElem?_getD, List.getElem?_map, hs] at hexact
    rw [hsrc, hheld.exactIndex this]

theorem load_cases (g : BitVec 32) (buf : List (BitVec 32)) :
    (∃ u, load buf (.uint g) = .ok (.uint u)) ∨
      (load buf (.uint g) = .error .outside ∧ buf.length ≤ g.toNat) := by
  rw [load_uint]
  by_cases hlen : buf.length ≤ g.toNat
  · rw [if_pos hlen]
    exact .inr ⟨rfl, hlen⟩
  · rw [if_neg hlen]
    exact .inl ⟨_, rfl⟩

theorem eval_access {g : BitVec 32} {vs vs' : List Var} {buf : List (BitVec 32)}
    (ht : Table array ss) (h : Matches g ss vs vs') :
    eval "mellow_buffer0" vs' buf accessExpr = load buf (.uint g) := by
  rcases h.thread ht with ⟨v', hlook, hval⟩
  have hthread : eval "mellow_buffer0" vs' buf (.name "mellow_gid") = .ok (.uint g) := by
    rw [eval, hlook, ← hval]
  rw [accessExpr, eval, if_pos rfl, hthread]
  rfl

theorem agrees_load {i : CExpr} (ht : Table array ss) (h : Agrees array ss n i)
    (hexact : n.facts.exactIndex = true) :
    Agrees array ss (.load {}) (.index (.name array) i) := by
  have hsrc : ∀ g vs vs' buf, Matches g ss vs vs' →
      eval array vs buf (.index (.name array) i) = load buf (.uint g) := by
    intro g vs vs' buf hm
    rw [eval, if_pos rfl, h.exactIndex hexact g vs vs' buf hm]
    rfl
  refine agrees_plain trivial rfl rfl rfl (fun g vs vs' buf hm => ?_) fun g vs vs' buf hm => ?_
  · rw [hsrc g vs vs' buf hm]
    exact (eval_access ht hm).symm
  · rw [hsrc g vs vs' buf hm]
    exact load_cases g buf

theorem agrees_unary {op : String} {f : Facts} (hop : isSign op = true)
    (h : Agrees array ss n e) (hf : unaryFacts op n.facts = .ok f) :
    Agrees array ss (.unary f op n) (.unary op e) := by
  have hexact : f.exactIndex = false := (unaryFacts_ok hf).2.2.2.1
  have hconst : f.constant = n.facts.constant := (unaryFacts_ok hf).2.2.1
  cases hc : f.constant with
  | true =>
    rcases unop_fold hop hf hc h.sane.fits with ⟨hval, hfits⟩
    refine agrees_constant ⟨hop, h.proper⟩ hfits hc hexact (if_pos hc) fun vs buf => ?_
    rw [eval, h.constant (hconst ▸ hc) vs buf]
    exact hval
  | false =>
    rcases unop_admits hop hf hc h.sane with ⟨htype, hval⟩
    have hout : Node.out (.unary f op n) = .paren (.unary op n.out) :=
      if_neg (Bool.eq_false_iff.mp hc)
    refine agrees_plain ⟨hop, h.proper⟩ htype hc hexact (fun g vs vs' buf hm => ?_)
      fun g vs vs' buf hm => ?_
    · rw [hout, eval, eval, eval, h.same g vs vs' buf hm]
    · rcases h.outcome g vs vs' buf hm with ⟨v, hv, hadmits⟩ | ⟨hv, hlen⟩
      · rcases hval v hadmits with ⟨u, hu⟩
        refine .inl ⟨u, ?_⟩
        rw [eval, hv]
        exact hu
      · refine .inr ⟨?_, hlen⟩
        rw [eval, hv]
        rfl

theorem agrees_binary {op : String} {l r : Node} {a b : CExpr} {f : Facts}
    (hop : 0 < precedence op) (hl : Agrees array ss l a) (hr : Agrees array ss r b)
    (hf : validateBinary op l.facts r.facts = .ok f) :
    Agrees array ss (.binary f op l r) (.binary op a b) := by
  rcases validateBinary_ok hf with ⟨_, _, hconst, hexact, _⟩
  cases hc : f.constant with
  | true =>
    rcases Bool.and_eq_true_iff.mp (hconst.symm.trans hc) with ⟨hcl, hcr⟩
    rcases binop_fold hop hf hc hl.sane.fits with ⟨hval, hfits⟩
    refine agrees_constant ⟨hop, hl.proper, hr.proper⟩ hfits hc hexact (if_pos hc)
      fun vs buf => ?_
    rw [eval, hl.constant hcl vs buf, hr.constant hcr vs buf]
    exact hval
  | false =>
    have htype := (unfolded_uint hf hc hl.sane hr.sane).1
    have hout : Node.out (.binary f op l r) = .paren (.binary op l.out r.out) :=
      if_neg (Bool.eq_false_iff.mp hc)
    refine agrees_plain ⟨hop, hl.proper, hr.proper⟩ htype hc hexact (fun g vs vs' buf hm => ?_)
      fun g vs vs' buf hm => ?_
    · rw [hout, eval, eval, eval, hl.same g vs vs' buf hm, hr.same g vs vs' buf hm]
    · rw [eval]
      rcases hl.outcome g vs vs' buf hm with ⟨v, hv, hadmits⟩ | ⟨hv, hlen⟩
      · rcases hr.outcome g vs vs' buf hm with ⟨w, hw, hadmits'⟩ | ⟨hw, hlen⟩
        · rw [hv, hw]
          exact .inl (binop_admits hop hf hc hl.sane hr.sane hadmits hadmits')
        · rw [hv, hw]
          exact .inr ⟨rfl, hlen⟩
      · rw [hv]
        exact .inr ⟨rfl, hlen⟩

end Kinds

end Mellow.ShaderJit
