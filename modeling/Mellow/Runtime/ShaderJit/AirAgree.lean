import Mellow.Lib.SsaKernel
import Mellow.Runtime.ShaderJit.Agree
import Mellow.Runtime.ShaderJit.Air
import Mellow.Runtime.ShaderJit.OpenCl

/-!
# Values of AIR in the Output

A value of the function has a variable in the output, or is one of the few
things that the front end knows about: the buffer, the number of the thread, or
the address of its element. Each kind of instruction has a lemma that says what
becomes of related values, and the parser is not mentioned.

## Main definitions

* `Stands`: what an entry of the table stands for.
* `Related`: all entries stand for their values.
* `InstrAgrees`: an instruction and its statements.

## Theorems

* `instrAgrees_binary`: the case of binary operations.
* `instrAgrees_load`: the case of loads.
-/

namespace Mellow.ShaderJit.Air

open Lib

/-- What an entry stands for, for the thread with the number `x`. -/
inductive Stands (x y z : BitVec 32) (vars : List Var) : AirValue → Ssa.Value → Prop where
  | buffer {t : String} {e : Bool} : Stands x y z vars ⟨.pointer, t, e, false⟩ (.ptr 0)
  | element {t : String} {e : Bool} :
      Stands x y z vars ⟨.pointer, t, e, true⟩ (.ptr (0 + 4 * x.setWidth 64))
  | thread {t : String} {e p : Bool} : Stands x y z vars ⟨.thread3, t, e, p⟩ (.vec3 x y z)
  | index {t : String} {p : Bool} : Stands x y z vars ⟨.index64, t, true, p⟩ (.i64 (x.setWidth 64))
  | number {t : String} {e p : Bool} {v : Var} (hv : Lib.lookup vars t = some v)
      (he : e = true → v.value = x) : Stands x y z vars ⟨.u32, t, e, p⟩ (.i32 v.value)

/-- The table, the values and the variables of the output belong together. -/
structure Related (x y z : BitVec 32) (vs : List (String × AirValue)) (env : Ssa.Env)
    (vars : List Var) : Prop where
  values : List.Forall₂ (fun p q => p.1 = q.1 ∧ Stands x y z vars p.2 q.2) vs env
  thread : Lib.lookup vars "mellow_gid" = some ⟨"mellow_gid", true, x⟩
  names : ∀ v ∈ vars, v.name = "mellow_gid" ∨ ∃ k < vs.length, v.name = ssaVariable k

/-- An instruction and its statements do the same. -/
def InstrAgrees (vs vs' : List (String × AirValue)) (i : Ssa.Instr) (outs : List Stmt) : Prop :=
  ∀ x y z env vars buf, Related x y z vs env vars →
    (∃ env' vars' buf', Ssa.exec (env, buf) i = .ok (env', buf') ∧
      outs.foldlM (exec "mellow_buffer0") (vars, buf) = .ok (vars', buf') ∧
      Related x y z vs' env' vars' ∧ buf'.length = buf.length) ∨
    (Ssa.exec (env, buf) i = .error .outside ∧
      outs.foldlM (exec "mellow_buffer0") (vars, buf) = .error .outside ∧ buf.length ≤ x.toNat)

section Names

theorem ssaVariable_inj {i j : Nat} (h : ssaVariable i = ssaVariable j) : i = j := by
  have hlist := congrArg String.toList h
  rw [ssaVariable, ssaVariable, String.toList_append, String.toList_append] at hlist
  exact toString_inj (String.toList_inj.mp (List.append_cancel_left hlist))

theorem ssaVariable_take (i : Nat) : (ssaVariable i).toList.take 8 = "mellow_s".toList := by
  rw [ssaVariable, String.toList_append, List.take_append_of_le_length (by decide)]
  decide

theorem ssaVariable_ne_gid (i : Nat) : ssaVariable i ≠ "mellow_gid" := by
  intro h
  have := ssaVariable_take i
  rw [h] at this
  exact absurd this (by decide)

theorem ssaVariable_ne_buffer (i : Nat) : ssaVariable i ≠ "mellow_buffer0" := by
  intro h
  have := ssaVariable_take i
  rw [h] at this
  exact absurd this (by decide)

end Names

section Tables

variable {x y z : BitVec 32} {vs : List (String × AirValue)} {env : Ssa.Env} {vars : List Var}
variable {a : AirValue} {n : String}

/-- A variable that is declared later does not hide the others. -/
theorem lookup_append {t : String} {v v' : Var} (h : Lib.lookup vars t = some v) :
    Lib.lookup (vars ++ [v']) t = some v := by
  unfold Lib.lookup at h ⊢
  rw [List.find?_append, h]
  rfl

theorem Stands.append {w : Ssa.Value} {v : Var} (h : Stands x y z vars a w) :
    Stands x y z (vars ++ [v]) a w := by
  cases h with
  | buffer => exact .buffer
  | element => exact .element
  | thread => exact .thread
  | index => exact .index
  | number hv he => exact .number (lookup_append hv) he

/-- The table and the function have the same names. -/
theorem forall_lookup {R : AirValue → Ssa.Value → Prop}
    (h : List.Forall₂ (fun p q => p.1 = q.1 ∧ R p.2 q.2) vs env) (n : String) :
    (vs.lookup n = none ∧ env.lookup n = none) ∨
      ∃ a w, vs.lookup n = some a ∧ env.lookup n = some w ∧ R a w := by
  induction h with
  | nil => exact .inl ⟨rfl, rfl⟩
  | @cons p q vs env hpq _ ih =>
    rw [List.lookup_cons, List.lookup_cons, ← hpq.1]
    cases hn : n == p.1 with
    | true => exact .inr ⟨p.2, q.2, rfl, rfl, hpq.2⟩
    | false => exact ih

theorem Related.lookup (h : Related x y z vs env vars)
    (ha : vs.lookup n = some a) : ∃ w, env.lookup n = some w ∧ Stands x y z vars a w := by
  rcases forall_lookup h.values n with ⟨hnone, _⟩ | ⟨a', w, ha', hw, hstands⟩
  · rw [hnone] at ha
    cases ha
  · rw [ha'] at ha
    cases ha
    exact ⟨w, hw, hstands⟩

/-- A value that has a new name in the table has a new name in the function. -/
theorem Related.define (h : Related x y z vs env vars) (hn : vs.lookup n = none)
    (w : Ssa.Value) : Ssa.define env n w = .ok (env ++ [(n, w)]) := by
  rcases forall_lookup h.values n with ⟨_, hnone⟩ | ⟨a, w', ha, _⟩
  · rw [Ssa.define, hnone]
    rfl
  · rw [ha] at hn
    cases hn

theorem Related.remember (h : Related x y z vs env vars) {w : Ssa.Value}
    (hw : Stands x y z vars a w) : Related x y z (vs ++ [(n, a)]) (env ++ [(n, w)]) vars where
  values := List.rel_append h.values (.cons ⟨rfl, hw⟩ .nil)
  thread := h.thread
  names v hv := by
    rcases h.names v hv with hname | ⟨k, hk, hname⟩
    · exact .inl hname
    · refine .inr ⟨k, ?_, hname⟩
      rw [List.length_append]
      exact Nat.lt_add_right _ hk

theorem Related.fresh (h : Related x y z vs env vars) :
    Lib.lookup vars (ssaVariable vs.length) = none := by
  refine List.find?_eq_none.mpr fun v hv heq => ?_
  have hname : v.name = ssaVariable vs.length := of_decide_eq_true heq
  rcases h.names v hv with hgid | ⟨k, hk, hssa⟩
  · exact ssaVariable_ne_gid _ (hname.symm.trans hgid)
  · exact absurd (ssaVariable_inj (hssa.symm.trans hname)) (Nat.ne_of_lt hk)

theorem Related.declare (h : Related x y z vs env vars) {w : BitVec 32} {p : Bool} :
    Related x y z (vs ++ [(n, ⟨.u32, ssaVariable vs.length, false, p⟩)])
      (env ++ [(n, .i32 w)]) (vars ++ [⟨ssaVariable vs.length, true, w⟩]) where
  values := by
    refine List.rel_append (h.values.imp fun _ _ hpq => ⟨hpq.1, hpq.2.append⟩)
      (.cons ⟨rfl, ?_⟩ .nil)
    refine .number (v := ⟨ssaVariable vs.length, true, w⟩) ?_ nofun
    have hfresh := h.fresh
    unfold Lib.lookup at hfresh ⊢
    rw [List.find?_append, hfresh, Option.none_or]
    exact List.find?_cons_of_pos (decide_eq_true rfl)
  thread := lookup_append h.thread
  names v hv := by
    rw [List.length_append, List.length_singleton]
    rcases List.mem_append.mp hv with hv | hv
    · rcases h.names v hv with hname | ⟨k, hk, hname⟩
      · exact .inl hname
      · exact .inr ⟨k, Nat.lt_succ_of_lt hk, hname⟩
    · rw [List.mem_singleton.mp hv]
      exact .inr ⟨vs.length, Nat.lt_succ_self _, rfl⟩

end Tables

/-- An operand of the function and its expression have the same value. -/
def OperandAgrees (vs : List (String × AirValue)) (o : Ssa.Operand) (e : CExpr) : Prop :=
  ∀ x y z env vars buf, Related x y z vs env vars →
    ∃ w, Ssa.operand env o = .ok w ∧ eval "mellow_buffer0" vars buf e = .ok (.uint w)

section Operands

variable {vs : List (String × AirValue)}

theorem operandAgrees_reg {n : String} {a : AirValue} (ha : vs.lookup n = some a)
    (htype : a.type = .u32) : OperandAgrees vs (.reg n) (.name a.emitted) := by
  intro x y z env vars buf h
  rcases h.lookup ha with ⟨w, hw, hstands⟩
  cases hstands with
  | buffer | element | thread | index => cases htype
  | @number _ _ _ v hv he => simp [Ssa.operand, hw, eval, hv]

theorem operandAgrees_const (w : BitVec 32) :
    OperandAgrees vs (.const w) (.num (toString w.toNat ++ "u")) := by
  intro x y z env vars buf _
  refine ⟨w, rfl, ?_⟩
  rw [eval, literal_repr_u w.isLt, BitVec.ofNat_toNat, BitVec.setWidth_eq]

def sign : Ssa.Opcode → String
  | .add => "+"
  | .sub => "-"
  | .mul => "*"
  | .and => "&"
  | .or => "|"
  | .xor => "^"
  | .shl => "<<"
  | .lshr => ">>"
  | .udiv => "/"
  | .urem => "%"

/-- On `uint` the operators do what the operations do, faults included. -/
theorem binop_sign (op : Ssa.Opcode) (a b : BitVec 32) :
    binop (sign op) (.uint a) (.uint b) = (op.apply a b).map .uint := by
  have hshift : ((Val.uint b).toInt < 0 ∨ 32 ≤ (Val.uint b).toInt) ↔ 32 ≤ b.toNat := by
    change ((b.toNat : Int) < 0 ∨ 32 ≤ (b.toNat : Int)) ↔ _
    omega
  have hnat : (Val.uint b).toInt.toNat = b.toNat := Int.toNat_natCast _
  cases op with
  | add | sub | mul | and | or | xor => rfl
  | shl =>
    rw [binop, sign, if_pos rfl, hnat, Ssa.Opcode.apply]
    simp only [hshift]
    split_ifs <;> rfl
  | lshr =>
    rw [binop, sign, if_neg (by decide), if_pos rfl, hnat, Ssa.Opcode.apply]
    simp only [hshift]
    split_ifs <;> rfl
  | udiv =>
    change (if b = 0 then _ else _) = Except.map _ (if b = 0 then _ else _)
    split_ifs <;> rfl
  | urem =>
    change (if b = 0 then _ else _) = Except.map _ (if b = 0 then _ else _)
    split_ifs <;> rfl

end Operands

section Instructions

variable {vs : List (String × AirValue)}
variable {x y z : BitVec 32} {env : Ssa.Env} {vars : List Var} {n p : String} {a : AirValue}

theorem Related.gid
    (h : Related x y z vs env vars) (buf : List (BitVec 32)) :
    eval "mellow_buffer0" vars buf (.name "mellow_gid") = .ok (.uint x) := by
  rw [eval, h.thread]

theorem Related.element
    (h : Related x y z vs env vars) (buf : List (BitVec 32))
    (ha : vs.lookup p = some a) (htype : a.type = .pointer) (helement : a.elementPointer = true) :
    Ssa.element env buf p = if buf.length ≤ x.toNat then .error .outside else .ok x.toNat := by
  rcases h.lookup ha with ⟨w, hw, hstands⟩
  cases hstands with
  | buffer => cases helement
  | thread | index | number => cases htype
  | element =>
    have hoffset : (0 + 4 * x.setWidth 64 : BitVec 64).toNat = 4 * x.toNat := by
      have hx := x.isLt
      have h0 : (0 : BitVec 64).toNat = 0 := rfl
      have h4 : (4 : BitVec 64).toNat = 4 := rfl
      rw [BitVec.toNat_add, BitVec.toNat_mul, BitVec.toNat_setWidth, h0, h4]
      omega
    have hmod : 4 * x.toNat % 4 = 0 := Nat.mul_mod_right 4 _
    have hdiv : 4 * x.toNat / 4 = x.toNat := Nat.mul_div_cancel_left _ (by decide)
    rw [Ssa.element, hw]
    dsimp only
    rw [hoffset, hdiv]
    by_cases hlen : buf.length ≤ x.toNat
    · simp [*]
    · simp [*]

theorem instrAgrees_store {v : Ssa.Operand} {e : CExpr}
    (hv : OperandAgrees vs v e) (ha : vs.lookup p = some a) (htype : a.type = .pointer)
    (helement : a.elementPointer = true) :
    InstrAgrees vs vs (.store v p) [.store "mellow_buffer0" (.name "mellow_gid") e] := by
  intro x y z env vars buf h
  rcases hv x y z env vars buf h with ⟨w, hw, heval⟩
  rw [List.foldlM_cons, exec_store heval (h.gid buf), Ssa.exec, hw]
  dsimp only
  rw [h.element buf ha htype helement]
  by_cases hlen : buf.length ≤ x.toNat
  · rw [if_pos hlen, if_pos hlen]
    exact .inr ⟨rfl, rfl, hlen⟩
  · rw [if_neg hlen, if_neg hlen]
    exact .inl ⟨_, _, _, rfl, rfl, h, List.length_set⟩

theorem instrAgrees_none {i : Ssa.Instr} (hn : vs.lookup n = none)
    (hi : ∀ x y z env vars buf, Related x y z vs env vars → ∃ w, Stands x y z vars a w ∧
      Ssa.exec (env, buf) i = (Ssa.define env n w).map fun env' => (env', buf)) :
    InstrAgrees vs (vs ++ [(n, a)]) i [] := by
  intro x y z env vars buf h
  rcases hi x y z env vars buf h with ⟨w, hw, hexec⟩
  rw [hexec, h.define hn]
  exact .inl ⟨_, _, _, rfl, rfl, h.remember hw, rfl⟩

theorem instrAgrees_extract {v : String} (hn : vs.lookup n = none)
    (ha : vs.lookup v = some a) (htype : a.type = .thread3) :
    InstrAgrees vs (vs ++ [(n, ⟨.u32, "mellow_gid", true, false⟩)]) (.extract n v) [] := by
  refine instrAgrees_none hn fun x y z env vars buf h => ?_
  rcases h.lookup ha with ⟨w, hw, hstands⟩
  cases hstands with
  | buffer | element | index | number => cases htype
  | thread =>
    refine ⟨.i32 x, .number (v := ⟨"mellow_gid", true, x⟩) h.thread fun _ => rfl, ?_⟩
    rw [Ssa.exec, hw]
    rfl

theorem instrAgrees_zext {v : String} (hn : vs.lookup n = none)
    (ha : vs.lookup v = some a) (htype : a.type = .u32) (hexact : a.exactIndex = true) :
    InstrAgrees vs (vs ++ [(n, ⟨.index64, "mellow_gid", true, false⟩)]) (.zext n v) [] := by
  refine instrAgrees_none hn fun x y z env vars buf h => ?_
  rcases h.lookup ha with ⟨w, hw, hstands⟩
  cases hstands with
  | buffer | element | index | thread => cases htype
  | number _ he =>
    refine ⟨_, .index, ?_⟩
    rw [Ssa.exec, hw]
    dsimp only
    rw [he hexact]
    rfl

theorem instrAgrees_gep {i : String} {b : AirValue} (hn : vs.lookup n = none)
    (ha : vs.lookup p = some a) (hatype : a.type = .pointer) (hbase : a.elementPointer = false)
    (hb : vs.lookup i = some b) (hbtype : b.type = .index64) :
    InstrAgrees vs (vs ++ [(n, ⟨.pointer, "mellow_buffer0 + mellow_gid", false, true⟩)])
      (.gep n p i) [] := by
  refine instrAgrees_none hn fun x y z env vars buf h => ?_
  rcases h.lookup ha with ⟨w, hw, hstands⟩
  rcases h.lookup hb with ⟨w', hw', hstands'⟩
  cases hstands with
  | element => cases hbase
  | index | thread | number => cases hatype
  | buffer =>
    cases hstands' with
    | buffer | element | thread | number => cases hbtype
    | index =>
      refine ⟨_, .element, ?_⟩
      rw [Ssa.exec, hw, hw']
      rfl

theorem exec_declare
    (h : Related x y z vs env vars) {buf : List (BitVec 32)} {e : CExpr} {w : BitVec 32}
    (he : eval "mellow_buffer0" vars buf e = .ok (.uint w)) :
    exec "mellow_buffer0" (vars, buf) (.decl true (ssaVariable vs.length) e) =
      .ok (vars ++ [⟨ssaVariable vs.length, true, w⟩], buf) := by
  have hnew : ¬(ssaVariable vs.length = "mellow_buffer0" ∨
      (Lib.lookup vars (ssaVariable vs.length)).isSome = true) := by
    rw [h.fresh]
    exact not_or.mpr ⟨ssaVariable_ne_buffer _, Bool.false_ne_true⟩
  rw [exec, he]
  exact if_neg hnew

theorem instrAgrees_load (hn : vs.lookup n = none)
    (ha : vs.lookup p = some a) (htype : a.type = .pointer) (helement : a.elementPointer = true) :
    InstrAgrees vs (vs ++ [(n, ⟨.u32, ssaVariable vs.length, false, false⟩)]) (.load n p)
      [.decl true (ssaVariable vs.length) accessExpr] := by
  intro x y z env vars buf h
  have heval : eval "mellow_buffer0" vars buf accessExpr = Lib.load buf (.uint x) := by
    rw [accessExpr, eval, if_pos rfl, h.gid buf]
    rfl
  rw [load_uint] at heval
  rw [List.foldlM_cons, Ssa.exec]
  dsimp only
  rw [h.element buf ha htype helement]
  by_cases hlen : buf.length ≤ x.toNat
  · rw [if_pos hlen] at heval ⊢
    rw [exec, heval]
    exact .inr ⟨rfl, rfl, hlen⟩
  · rw [if_neg hlen] at heval ⊢
    rw [exec_declare h heval]
    refine .inl ⟨_, _, _, ?_, rfl, h.declare (n := n), rfl⟩
    change (Ssa.define env n _ >>= _) = _
    rw [h.define hn]
    rfl

theorem instrAgrees_binary {op : Ssa.Opcode} {a b : Ssa.Operand} {l r : CExpr}
    (hn : vs.lookup n = none) (ha : OperandAgrees vs a l) (hb : OperandAgrees vs b r)
    (hsafe : ∀ env u w, Ssa.operand env b = .ok w → ∃ v, op.apply u w = .ok v) :
    InstrAgrees vs (vs ++ [(n, ⟨.u32, ssaVariable vs.length, false, false⟩)])
      (.binary n op a b)
      [.decl true (ssaVariable vs.length) (.paren (.binary (sign op) l r))] := by
  intro x y z env vars buf h
  rcases ha x y z env vars buf h with ⟨u, hu, hevall⟩
  rcases hb x y z env vars buf h with ⟨w, hw, hevalr⟩
  rcases hsafe env u w hw with ⟨v, hv⟩
  have heval : eval "mellow_buffer0" vars buf (.paren (.binary (sign op) l r)) = .ok (.uint v) := by
    rw [eval, eval, hevall, hevalr]
    change binop (sign op) (.uint u) (.uint w) = _
    rw [binop_sign, hv]
    rfl
  rw [List.foldlM_cons, exec_declare h heval, Ssa.exec, hu, hw]
  refine .inl ⟨_, _, _, ?_, rfl, h.declare (n := n) (w := v), rfl⟩
  change (op.apply u w >>= _) = _
  rw [hv]
  change (Ssa.define env n _ >>= _) = _
  rw [h.define hn]
  rfl

end Instructions

end Mellow.ShaderJit.Air
