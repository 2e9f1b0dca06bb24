import Mellow.Lib.CKernel
import Mellow.Runtime.ShaderJit.Msl

/-!
# Folded Constants

The compiler computes constant expressions itself, in 64 bits and with a type
beside the value. An `int` of the compiler is never negative, and always
constant.

## Main definitions

* `Facts.val`: the value that they stand for.
* `Facts.Fits`: an `int` is at most `INT32_MAX`.

## Theorems

* `binop_fold`: folding gives what the expression means in C.
* `binop_admits`: what is not folded is unsigned.
-/

namespace Mellow.ShaderJit

open Lib

def Facts.val (f : Facts) : Val :=
  match f.type with
  | .int => .int f.value.toNat
  | .uint => .uint f.value

def Facts.Fits (f : Facts) : Prop := f.type = .int → f.value.toNat ≤ INT32_MAX

/-- What holds of the facts of every node: an `int` is a constant and fits. -/
structure Facts.Sane (f : Facts) : Prop where
  constant : f.type = .int → f.constant = true
  fits : f.Fits

/-- A value that an expression with these facts may have. -/
structure Facts.Admits (f : Facts) (v : Val) : Prop where
  constant : f.constant = true → v = f.val
  uint : f.type = .uint → ∃ u, v = .uint u

theorem Scalar.eq_int {t : Scalar} (h : t ≠ .uint) : t = .int := by
  cases t with
  | int => rfl
  | uint => exact absurd rfl h

theorem ofInt_toNat (u : BitVec 32) : BitVec.ofInt 32 u.toNat = u := by
  rw [BitVec.ofInt_natCast, BitVec.ofNat_toNat, BitVec.setWidth_eq]

theorem Facts.val_toUint (f : Facts) : f.val.toUint = f.value := by
  unfold val
  cases f.type with
  | int => exact ofInt_toNat f.value
  | uint => rfl

theorem Facts.val_toInt (f : Facts) : f.val.toInt = f.value.toNat := by
  unfold val
  cases f.type with
  | int | uint => rfl

section Operators

variable {a b : BitVec 32} {op : String} {n : Nat} {f : Facts}

theorem precedence_cases (h : 0 < precedence op) :
    op = "|" ∨ op = "^" ∨ op = "&" ∨ op = "<<" ∨ op = ">>" ∨ op = "+" ∨ op = "-" ∨ op = "*" ∨
      op = "/" ∨ op = "%" := by
  unfold precedence at h
  split_ifs at h with h1 h2 h3 h4 h5 h6
  · exact .inl h1
  · exact .inr (.inl h2)
  · exact .inr (.inr (.inl h3))
  · rcases h4 with h4 | h4
    · exact .inr (.inr (.inr (.inl h4)))
    · exact .inr (.inr (.inr (.inr (.inl h4))))
  · rcases h5 with h5 | h5
    · exact .inr (.inr (.inr (.inr (.inr (.inl h5)))))
    · simp [*]
  · simp [*]
  · exact absurd h (Nat.lt_irrefl 0)

theorem widen_toNat (a : BitVec 32) : (a.setWidth 64).toNat = a.toNat :=
  BitVec.toNat_setWidth_of_le (by decide)

theorem narrow_toNat {v : BitVec 64} (h : v.toNat ≤ INT32_MAX) :
    (v.setWidth 32).toNat = v.toNat := by
  rw [BitVec.toNat_setWidth]
  exact Nat.mod_eq_of_lt (Nat.lt_of_le_of_lt h (by decide))

theorem add_fold : (a.setWidth 64 + b.setWidth 64).toNat = a.toNat + b.toNat := by
  rw [BitVec.toNat_add, widen_toNat, widen_toNat]
  omega

theorem sub_fold (h : b.toNat ≤ a.toNat) :
    (a.setWidth 64 - b.setWidth 64).toNat = a.toNat - b.toNat := by
  rw [BitVec.toNat_sub, widen_toNat, widen_toNat]
  omega

theorem mul_fold : (a.setWidth 64 * b.setWidth 64).toNat = a.toNat * b.toNat := by
  rw [BitVec.toNat_mul, widen_toNat, widen_toNat]
  refine Nat.mod_eq_of_lt ?_
  calc a.toNat * b.toNat < 2 ^ 32 * 2 ^ 32 := Nat.mul_lt_mul'' a.isLt b.isLt
    _ = 2 ^ 64 := rfl

theorem div_fold : (a.setWidth 64 / b.setWidth 64).toNat = a.toNat / b.toNat := by
  rw [BitVec.toNat_udiv, widen_toNat, widen_toNat]

theorem mod_fold : (a.setWidth 64 % b.setWidth 64).toNat = a.toNat % b.toNat := by
  rw [BitVec.toNat_umod, widen_toNat, widen_toNat]

theorem shl_fold (h : n < 32) : (a.setWidth 64 <<< n).toNat = a.toNat * 2 ^ n := by
  rw [BitVec.toNat_shiftLeft, widen_toNat, Nat.shiftLeft_eq]
  refine Nat.mod_eq_of_lt ?_
  calc a.toNat * 2 ^ n < 2 ^ 32 * 2 ^ 32 :=
        Nat.mul_lt_mul'' a.isLt (Nat.pow_lt_pow_right (by decide) h)
    _ = 2 ^ 64 := rfl

theorem shr_fold : (a.setWidth 64 >>> n).toNat = a.toNat / 2 ^ n := by
  rw [BitVec.toNat_ushiftRight, widen_toNat, Nat.shiftRight_eq_div_pow]

/-- In 64 bits nothing of an operation on 32 bits is lost. -/
theorem uintOp_fold (hop : 0 < precedence op) (hleft : op ≠ "<<")
    (hright : op ≠ ">>") (hzero : op = "/" ∨ op = "%" → b ≠ 0) :
    uintOp op a b =
      .ok (.uint ((foldBinary op (a.setWidth 64) (b.setWidth 64)).setWidth 32)) := by
  rcases precedence_cases hop with rfl | rfl | rfl | rfl | rfl | rfl | rfl | rfl | rfl | rfl
  · simp [uintOp, foldBinary]
  · simp [uintOp, foldBinary]
  · simp [uintOp, foldBinary]
  · exact absurd rfl hleft
  · exact absurd rfl hright
  · simp [uintOp, foldBinary, BitVec.setWidth_add]
  · have : (a.setWidth 64 - b.setWidth 64).setWidth 32 = a - b := by bv_omega
    simp [uintOp, foldBinary, this]
  · simp [uintOp, foldBinary, BitVec.setWidth_mul]
  · have : (a.setWidth 64 / b.setWidth 64).setWidth 32 = a / b := by
      refine BitVec.eq_of_toNat_eq ?_
      rw [BitVec.toNat_setWidth, div_fold, BitVec.toNat_udiv]
      exact Nat.mod_eq_of_lt (Nat.lt_of_le_of_lt (Nat.div_le_self _ _) a.isLt)
    refine (if_neg (hzero (.inl rfl))).trans ?_
    exact congrArg (fun v => Except.ok (Val.uint v)) this.symm
  · have : (a.setWidth 64 % b.setWidth 64).setWidth 32 = a % b := by
      refine BitVec.eq_of_toNat_eq ?_
      rw [BitVec.toNat_setWidth, mod_fold, BitVec.toNat_umod]
      exact Nat.mod_eq_of_lt (Nat.lt_of_le_of_lt (Nat.mod_le _ _) a.isLt)
    refine (if_neg (hzero (.inr rfl))).trans ?_
    exact congrArg (fun v => Except.ok (Val.uint v)) this.symm

theorem checked_ok (h : n ≤ INT32_MAX) : checked (n : Int) = .ok (.int n) := by
  have hle : n ≤ 2147483647 := h
  exact if_pos (by omega)

theorem onBits_fold {f : BitVec 32 → BitVec 32 → BitVec 32} (h : (f a b).toNat ≤ INT32_MAX) :
    onBits f a.toNat b.toNat = .ok (.int (f a b).toNat) := by
  have hle : (f a b).toNat ≤ 2147483647 := h
  rw [onBits, ofInt_toNat, ofInt_toNat, BitVec.toInt_eq_toNat_of_lt (by omega)]

/-- Operations on two numbers, where the result fits. -/
theorem intOp_fold (hop : 0 < precedence op) (hleft : op ≠ "<<")
    (hright : op ≠ ">>") (hzero : op = "/" ∨ op = "%" → b ≠ 0)
    (hsub : op = "-" → b.toNat ≤ a.toNat)
    (hfit : (foldBinary op (a.setWidth 64) (b.setWidth 64)).toNat ≤ INT32_MAX)
    (ha : a.toNat ≤ INT32_MAX) :
    intOp op a.toNat b.toNat =
      .ok (.int (foldBinary op (a.setWidth 64) (b.setWidth 64)).toNat) := by
  have hnat : b ≠ 0 → (b.toNat : Int) ≠ 0 :=
    fun h h' => h (BitVec.eq_of_toNat_eq (by simpa using h'))
  rcases precedence_cases hop with rfl | rfl | rfl | rfl | rfl | rfl | rfl | rfl | rfl | rfl
  · have h : foldBinary "|" (a.setWidth 64) (b.setWidth 64) = (a ||| b).setWidth 64 := by
      simp [foldBinary]
    rw [h, widen_toNat] at hfit ⊢
    exact onBits_fold hfit
  · have h : foldBinary "^" (a.setWidth 64) (b.setWidth 64) = (a ^^^ b).setWidth 64 := by
      simp [foldBinary]
    rw [h, widen_toNat] at hfit ⊢
    exact onBits_fold hfit
  · have h : foldBinary "&" (a.setWidth 64) (b.setWidth 64) = (a &&& b).setWidth 64 := by
      simp [foldBinary]
    rw [h, widen_toNat] at hfit ⊢
    exact onBits_fold hfit
  · exact absurd rfl hleft
  · exact absurd rfl hright
  · have h : (foldBinary "+" (a.setWidth 64) (b.setWidth 64)).toNat = a.toNat + b.toNat :=
      add_fold
    rw [h] at hfit ⊢
    exact checked_ok hfit
  · have h : (foldBinary "-" (a.setWidth 64) (b.setWidth 64)).toNat = a.toNat - b.toNat :=
      sub_fold (hsub rfl)
    rw [h] at hfit ⊢
    rw [← checked_ok hfit, Int.ofNat_sub (hsub rfl)]
    rfl
  · have h : (foldBinary "*" (a.setWidth 64) (b.setWidth 64)).toNat = a.toNat * b.toNat :=
      mul_fold
    rw [h] at hfit ⊢
    exact checked_ok hfit
  · have h : (foldBinary "/" (a.setWidth 64) (b.setWidth 64)).toNat = a.toNat / b.toNat :=
      div_fold
    rw [h] at hfit ⊢
    rw [← checked_ok hfit]
    exact if_neg (hnat (hzero (.inl rfl)))
  · have h : (foldBinary "%" (a.setWidth 64) (b.setWidth 64)).toNat = a.toNat % b.toNat :=
      mod_fold
    rw [h] at hfit ⊢
    have hdiv : checked ((a.toNat : Int).tdiv b.toNat) = .ok (.int (a.toNat / b.toNat : Nat)) :=
      checked_ok (Nat.le_trans (Nat.div_le_self _ _) ha)
    rw [← checked_ok hfit]
    refine (if_neg (hnat (hzero (.inr rfl)))).trans ?_
    rw [hdiv]
    rfl

/-- What the compiler has checked about the operands of an operator. -/
structure Allowed (op : String) (a b : Facts) : Prop where
  divisor : op = "/" ∨ op = "%" → b.constant = true ∧ b.value ≠ 0
  shift : op = "<<" ∨ op = ">>" → b.constant = true ∧ b.value.toNat < 32

theorem validateBinary_ok {a b : Facts} (h : validateBinary op a b = .ok f) :
    Allowed op a b ∧ f.type = resultType op a b ∧ f.constant = (a.constant && b.constant) ∧
      f.exactIndex = false ∧
      (f.constant = true →
        f.value = (foldBinary op (a.value.setWidth 64) (b.value.setWidth 64)).setWidth 32 ∧
        (f.type = .int → (op = "-" → b.value.toNat ≤ a.value.toNat) ∧
          (foldBinary op (a.value.setWidth 64) (b.value.setWidth 64)).toNat ≤ INT32_MAX)) := by
  unfold validateBinary at h
  dsimp only at h
  by_cases hdiv : (op = "/" ∨ op = "%") ∧ (!b.constant ∨ b.value = 0)
  · rw [if_pos hdiv] at h
    cases h
  by_cases hshift : (op = "<<" ∨ op = ">>") ∧ (!b.constant ∨ b.value.toNat ≥ 32)
  · rw [if_neg hdiv, if_pos hshift] at h
    cases h
  rw [if_neg hdiv, if_neg hshift] at h
  have hallowed : Allowed op a b := by
    constructor
    · intro hop
      have := not_and.mp hdiv hop
      simp only [Bool.not_eq_true', not_or, Bool.not_eq_false] at this
      exact this
    · intro hop
      have := not_and.mp hshift hop
      simp only [Bool.not_eq_true', not_or, Bool.not_eq_false, ge_iff_le, Nat.not_le] at this
      exact this
  refine ⟨hallowed, ?_⟩
  by_cases hconst : (!(a.constant && b.constant)) = true
  · rw [if_pos hconst] at h
    cases h
    have hfalse : (a.constant && b.constant) = false := Bool.not_eq_true' _ ▸ hconst
    exact ⟨rfl, hfalse.symm, rfl, nofun⟩
  rw [if_neg hconst] at h
  have htrue : (a.constant && b.constant) = true := by
    simpa only [Bool.not_eq_true', Bool.not_eq_false] using hconst
  split_ifs at h with hsub hover
  cases h
  refine ⟨rfl, htrue.symm, rfl, fun _ => ⟨rfl, fun htype => ⟨fun hop => ?_, ?_⟩⟩⟩
  · exact Nat.le_of_not_lt fun hlt => hsub ⟨hop, htype, hlt⟩
  · exact Nat.le_of_not_lt fun hlt => hover ⟨htype, hlt⟩

theorem resultType_shift (a b : Facts) (h : op = "<<" ∨ op = ">>") :
    resultType op a b = a.type := if_pos h

theorem resultType_other (a b : Facts) (hleft : op ≠ "<<") (hright : op ≠ ">>") :
    resultType op a b = if a.type = .uint ∨ b.type = .uint then .uint else .int :=
  if_neg fun h => h.elim hleft hright

theorem binop_other {a b : Val} (hleft : op ≠ "<<") (hright : op ≠ ">>") :
    binop op a b = arith op a b := by
  rw [binop, if_neg hleft, if_neg hright]

/-- With a `uint` on either side both are taken as one. -/
theorem arith_uint {a b : Facts} (h : a.type = .uint ∨ b.type = .uint) :
    arith op a.val b.val = uintOp op a.value b.value := by
  unfold Facts.val
  cases hta : a.type with
  | uint =>
    cases htb : b.type with
    | int => rw [arith, Val.toUint, ofInt_toNat]
    | uint => rfl
  | int =>
    cases htb : b.type with
    | int => exact absurd h (by rw [hta, htb]; decide)
    | uint => rw [arith, ofInt_toNat]

theorem shift_count {b : Facts} (h : b.value.toNat < 32) :
    ¬(b.val.toInt < 0 ∨ 32 ≤ b.val.toInt) ∧ b.val.toInt.toNat = b.value.toNat := by
  rw [Facts.val_toInt]
  omega

theorem shiftLeft_fold {a : Facts} (hn : n < 32)
    (hfit : a.type = .int → (a.value.setWidth 64 <<< n).toNat ≤ INT32_MAX) :
    shiftLeft n a.val =
      .ok (Facts.val { type := a.type, value := (a.value.setWidth 64 <<< n).setWidth 32 }) := by
  unfold Facts.val
  cases htype : a.type with
  | int =>
    have hfit := hfit htype
    dsimp only [shiftLeft]
    rw [if_neg (by omega), narrow_toNat hfit]
    rw [shl_fold hn] at hfit ⊢
    have := checked_ok hfit
    rwa [Int.natCast_mul, Int.natCast_pow] at this
  | uint =>
    have : (a.value.setWidth 64 <<< n).setWidth 32 = a.value <<< n := by
      refine BitVec.eq_of_toNat_eq ?_
      simp
    rw [this]
    rfl

theorem shiftRight_fold {a : Facts}
    (hfit : a.type = .int → (a.value.setWidth 64 >>> n).toNat ≤ INT32_MAX) :
    shiftRight n a.val =
      .ok (Facts.val { type := a.type, value := (a.value.setWidth 64 >>> n).setWidth 32 }) := by
  unfold Facts.val
  cases htype : a.type with
  | int =>
    have hfit := hfit htype
    dsimp only [shiftRight]
    rw [narrow_toNat hfit, shr_fold, Int.natCast_ediv, Int.natCast_pow]
    rfl
  | uint =>
    have : (a.value.setWidth 64 >>> n).setWidth 32 = a.value >>> n := by
      refine BitVec.eq_of_toNat_eq ?_
      rw [BitVec.toNat_setWidth, shr_fold, BitVec.toNat_ushiftRight, Nat.shiftRight_eq_div_pow]
      exact Nat.mod_eq_of_lt (Nat.lt_of_le_of_lt (Nat.div_le_self _ _) a.value.isLt)
    rw [this]
    rfl

theorem binop_fold {a b : Facts} (hop : 0 < precedence op)
    (h : validateBinary op a b = .ok f) (hf : f.constant = true) (ha : a.Fits) :
    binop op a.val b.val = .ok f.val ∧ f.Fits := by
  rcases validateBinary_ok h with ⟨hallowed, htype, _, _, hfold⟩
  rcases hfold hf with ⟨hvalue, hint⟩
  have hfits : f.Fits := by
    intro hi
    rw [hvalue, narrow_toNat (hint hi).2]
    exact (hint hi).2
  refine ⟨?_, hfits⟩
  have hval : f.val = Facts.val { type := f.type, value := f.value } := rfl
  by_cases hleft : op = "<<"
  · have hcount := (hallowed.shift (.inl hleft)).2
    rw [resultType_shift a b (.inl hleft)] at htype
    subst hleft
    rw [binop, if_pos rfl, if_neg (shift_count hcount).1, (shift_count hcount).2, hval,
      hvalue, htype]
    exact shiftLeft_fold hcount fun hi => (hint (htype.trans hi)).2
  by_cases hright : op = ">>"
  · have hcount := (hallowed.shift (.inr hright)).2
    rw [resultType_shift a b (.inr hright)] at htype
    subst hright
    rw [binop, if_neg (by decide), if_pos rfl, if_neg (shift_count hcount).1,
      (shift_count hcount).2, hval, hvalue, htype]
    exact shiftRight_fold fun hi => (hint (htype.trans hi)).2
  have hzero : op = "/" ∨ op = "%" → b.value ≠ 0 := fun h => (hallowed.divisor h).2
  rw [resultType_other a b hleft hright] at htype
  rw [binop_other hleft hright]
  -- Two numbers of type `int` stay one; otherwise both are taken as `uint`.
  by_cases huint : a.type = .uint ∨ b.type = .uint
  · rw [if_pos huint] at htype
    have hvf : f.val = .uint f.value := by rw [Facts.val, htype]
    rw [arith_uint huint, uintOp_fold hop hleft hright hzero, hvf, hvalue]
  · rw [if_neg huint] at htype
    have hta := Scalar.eq_int (not_or.mp huint).1
    have htb := Scalar.eq_int (not_or.mp huint).2
    have hva : a.val = .int a.value.toNat := by rw [Facts.val, hta]
    have hvb : b.val = .int b.value.toNat := by rw [Facts.val, htb]
    have hvf : f.val = .int f.value.toNat := by rw [Facts.val, htype]
    rw [hva, hvb, hvf, hvalue, narrow_toNat (hint htype).2]
    exact intOp_fold hop hleft hright hzero (hint htype).1 (hint htype).2 (ha hta)

/-- Where nothing is folded, the deciding operand is unsigned. -/
theorem unfolded_uint {a b : Facts} (h : validateBinary op a b = .ok f)
    (hf : f.constant = false) (ha : a.Sane) (hb : b.Sane) :
    f.type = .uint ∧ (op = "<<" ∨ op = ">>" → a.type = .uint) ∧
      (¬(op = "<<" ∨ op = ">>") → a.type = .uint ∨ b.type = .uint) := by
  rcases validateBinary_ok h with ⟨hallowed, htype, hconst, _, _⟩
  rw [hf] at hconst
  have hshift : op = "<<" ∨ op = ">>" → a.type = .uint := by
    intro hshift
    -- The count is a constant, so the left operand is none.
    rw [(hallowed.shift hshift).1, Bool.and_true] at hconst
    refine Classical.byContradiction fun hne => ?_
    rw [ha.constant (Scalar.eq_int hne)] at hconst
    cases hconst
  have hother : ¬(op = "<<" ∨ op = ">>") → a.type = .uint ∨ b.type = .uint := by
    intro _
    refine Classical.byContradiction fun hne => ?_
    rw [ha.constant (Scalar.eq_int (not_or.mp hne).1),
      hb.constant (Scalar.eq_int (not_or.mp hne).2)] at hconst
    cases hconst
  refine ⟨?_, hshift, hother⟩
  by_cases hop : op = "<<" ∨ op = ">>"
  · rw [htype, resultType_shift a b hop, hshift hop]
  · rw [htype, resultType_other a b (not_or.mp hop).1 (not_or.mp hop).2, if_pos (hother hop)]

/-- An operation that is not folded has an unsigned result always. -/
theorem binop_admits {a b : Facts} {va vb : Val} (hop : 0 < precedence op)
    (h : validateBinary op a b = .ok f) (hf : f.constant = false) (ha : a.Sane) (hb : b.Sane)
    (hva : a.Admits va) (hvb : b.Admits vb) : ∃ u, binop op va vb = .ok (.uint u) := by
  rcases validateBinary_ok h with ⟨hallowed, _⟩
  rcases unfolded_uint h hf ha hb with ⟨_, hleftUint, huint⟩
  by_cases hshift : op = "<<" ∨ op = ">>"
  · rcases hallowed.shift hshift with ⟨hcb, hcount⟩
    rcases hva.uint (hleftUint hshift) with ⟨u, rfl⟩
    rw [hvb.constant hcb]
    rcases hshift with rfl | rfl
    · rw [binop, if_pos rfl, if_neg (shift_count hcount).1]
      exact ⟨_, rfl⟩
    · rw [binop, if_neg (by decide), if_pos rfl, if_neg (shift_count hcount).1]
      exact ⟨_, rfl⟩
  · have hleft := (not_or.mp hshift).1
    have hright := (not_or.mp hshift).2
    have harith : arith op va vb = uintOp op va.toUint vb.toUint := by
      rcases huint hshift with hta | htb
      · rcases hva.uint hta with ⟨u, rfl⟩
        rfl
      · rcases hvb.uint htb with ⟨u, rfl⟩
        cases va with
        | int | uint => rfl
    have hzero : op = "/" ∨ op = "%" → vb.toUint ≠ 0 := by
      intro hdiv
      rcases hallowed.divisor hdiv with ⟨hcb, hne⟩
      rwa [hvb.constant hcb, Facts.val_toUint]
    rw [binop_other hleft hright, harith, uintOp_fold hop hleft hright hzero]
    exact ⟨_, rfl⟩

theorem unaryFacts_ok {a : Facts} (h : unaryFacts op a = .ok f) :
    (op ≠ "+" → a.type = .uint) ∧ f.type = a.type ∧ f.constant = a.constant ∧
      f.exactIndex = false ∧ (f.constant = true → f.value = foldUnary op a.value) := by
  unfold unaryFacts at h
  split_ifs at h with h1 h2 h3
  · cases h
    refine ⟨fun hop => ?_, rfl, rfl, rfl, fun _ => rfl⟩
    exact Classical.not_not.mp fun hne => h2 ⟨hop, hne⟩
  · cases h
    refine ⟨fun hop => ?_, rfl, rfl, rfl, fun hc => absurd hc h3⟩
    exact Classical.not_not.mp fun hne => h2 ⟨hop, hne⟩

theorem unop_fold {a : Facts} (hop : isSign op = true)
    (h : unaryFacts op a = .ok f) (hf : f.constant = true) (ha : a.Fits) :
    unop op a.val = .ok f.val ∧ f.Fits := by
  rcases unaryFacts_ok h with ⟨huint, htype, _, _, hvalue⟩
  have hval : f.val = Facts.val { type := a.type, value := foldUnary op a.value } := by
    rw [Facts.val, htype, hvalue hf]
    rfl
  simp only [isSign, Bool.or_eq_true, decide_eq_true_eq] at hop
  rcases hop with (rfl | rfl) | rfl
  · refine ⟨?_, fun hi => ?_⟩
    · rw [hval, Facts.val]
      cases hta : a.type with
      | int | uint => rfl
    · rw [hvalue hf]
      exact ha (htype.symm.trans hi)
  · have hta := huint (by decide)
    refine ⟨?_, fun hi => ?_⟩
    · rw [hval, Facts.val, hta]
      exact congrArg (fun u => Except.ok (Val.uint u)) (BitVec.zero_sub a.value).symm
    · rw [htype, hta] at hi
      cases hi
  · have hta := huint (by decide)
    refine ⟨?_, fun hi => ?_⟩
    · rw [hval, Facts.val, hta]
      rfl
    · rw [htype, hta] at hi
      cases hi

theorem unop_admits {a : Facts} (hop : isSign op = true)
    (h : unaryFacts op a = .ok f) (hf : f.constant = false) (ha : a.Sane) :
    f.type = .uint ∧ ∀ va, a.Admits va → ∃ u, unop op va = .ok (.uint u) := by
  rcases unaryFacts_ok h with ⟨_, htype, hconst, _, _⟩
  have hta : a.type = .uint := by
    refine Classical.byContradiction fun hne => ?_
    rw [hconst, ha.constant (Scalar.eq_int hne)] at hf
    cases hf
  refine ⟨htype.trans hta, fun va hva => ?_⟩
  rcases hva.uint hta with ⟨u, rfl⟩
  simp only [isSign, Bool.or_eq_true, decide_eq_true_eq] at hop
  rcases hop with (rfl | rfl) | rfl
  · exact ⟨_, rfl⟩
  · exact ⟨_, rfl⟩
  · exact ⟨_, rfl⟩

end Operators

section Literals

variable {body : List Char}

/-- Letters and digits, with a digit after the mark of a hexadecimal number. -/
structure Spelled (w : String) : Prop where
  alnum : ∀ c ∈ w.toList, isLetter c = true ∨ isDigit c = true
  mark : w.toList.take 2 = ['0', 'x'] → (w.toList.drop 2).head?.any hex = true

theorem ascii_of_alnum {c : Char} (hc : isLetter c = true ∨ isDigit c = true) :
    c.toNat < 128 := by
  have hle : ∀ {a b : Char}, a ≤ b → a.toNat ≤ b.toNat := fun h => h
  simp only [isLetter, isDigit, Bool.or_eq_true, Bool.and_eq_true, decide_eq_true_eq,
    beq_iff_eq] at hc
  rcases hc with ((⟨_, h⟩ | ⟨_, h⟩) | rfl) | ⟨_, h⟩
  · exact Nat.lt_of_le_of_lt (hle h) (by decide)
  · exact Nat.lt_of_le_of_lt (hle h) (by decide)
  · decide
  · exact Nat.lt_of_le_of_lt (hle h) (by decide)

theorem digitValue_literal {c : Char} (hc : isLetter c = true ∨ isDigit c = true)
    (h : literalDigit c < 16) : digitValue c = literalDigit c := by
  have hall : ∀ n < 128, (isLetter (Char.ofNat n) = true ∨ isDigit (Char.ofNat n) = true) →
      literalDigit (Char.ofNat n) < 16 → digitValue (Char.ofNat n) =
        literalDigit (Char.ofNat n) := by
    decide
  have := hall c.toNat (ascii_of_alnum hc)
  rw [Char.ofNat_toNat] at this
  exact this hc h

/-- The digits of a literal stand for the same number, which is in range. -/
theorem literalValue_numeral {base : Nat} (hbase : 0 < base) (hle : base ≤ 16) {cs : List Char}
    {n v : Nat} (hcs : ∀ c ∈ cs, isLetter c = true ∨ isDigit c = true) (hn : n ≤ UINT32_MAX)
    (h : literalValue base cs n = some v) : numeral base cs n = some v ∧ v ≤ UINT32_MAX := by
  induction cs generalizing n with
  | nil =>
    cases h
    exact ⟨rfl, hn⟩
  | cons c cs ih =>
    rw [literalValue] at h
    split_ifs at h with hbad
    rw [not_or, Nat.not_le, Nat.not_lt] at hbad
    rcases hbad with ⟨hd, hbound⟩
    have hdigit := digitValue_literal (hcs c List.mem_cons_self) (Nat.lt_of_lt_of_le hd hle)
    have hnext : n * base + literalDigit c ≤ UINT32_MAX := by
      have hmul : n * base ≤ UINT32_MAX - literalDigit c := (Nat.le_div_iff_mul_le hbase).mp hbound
      have hsmall : literalDigit c ≤ UINT32_MAX :=
        Nat.le_of_lt (Nat.lt_of_lt_of_le hd (Nat.le_trans hle (by decide)))
      omega
    rw [numeral, hdigit, if_pos hd]
    exact ih (fun c' hc' => hcs c' (List.mem_cons_of_mem c hc')) hnext h

theorem radix_eq
    (hoctal : ¬(literalBase body = 10 ∧ body.length > 1 ∧ body.head? = some '0')) :
    radix body = (literalBase body, literalDigits body) := by
  unfold literalDigits
  by_cases hhex : body.take 2 = ['0', 'x']
  · have hbase : literalBase body = 16 := if_pos hhex
    rw [hbase, if_pos rfl]
    match body, hhex with
    | _ :: _ :: cs, rfl => rfl
  · have hbase : literalBase body = 10 := if_neg hhex
    rw [hbase] at hoctal ⊢
    rw [if_neg (by decide)]
    unfold radix
    split
    · exact absurd rfl hhex
    · exact absurd ⟨rfl, by simp, rfl⟩ hoctal
    · exact absurd ⟨rfl, by simp, rfl⟩ hoctal
    · rfl

theorem Spelled.digits_ne {w : String} (hw : Spelled w) (hdigit : w.toList.head?.any isDigit = true)
    (hbody : w.toList = body ∨ ∃ c, (c = 'u' ∨ c = 'U') ∧ w.toList = body ++ [c]) :
    body ≠ [] ∧ (body.take 2 = ['0', 'x'] → body.drop 2 ≠ []) := by
  rcases hbody with hbody | ⟨c, hc, hbody⟩
  · constructor
    · rintro rfl
      rw [hbody] at hdigit
      cases hdigit
    · intro htake hdrop
      have := hw.mark (hbody ▸ htake)
      rw [hbody, hdrop] at this
      cases this
  · have hnone : isDigit c = false ∧ hex c = false := by
      rcases hc with rfl | rfl <;> decide
    constructor
    · rintro rfl
      rw [hbody, List.nil_append, List.head?_cons, Option.any_some, hnone.1] at hdigit
      cases hdigit
    · intro htake hdrop
      match body, htake, hdrop with
      | [_, _], rfl, _ =>
        have := hw.mark (by rw [hbody]; rfl)
        rw [hbody] at this
        change hex c = true at this
        rw [hnone.2] at this
        cases this

theorem literalBase_cases (body : List Char) :
    (body.take 2 = ['0', 'x'] ∧ literalBase body = 16 ∧ literalDigits body = body.drop 2) ∨
      (literalBase body = 10 ∧ literalDigits body = body) := by
  by_cases hhex : body.take 2 = ['0', 'x']
  · have hbase : literalBase body = 16 := if_pos hhex
    exact .inl ⟨hhex, hbase, if_pos hbase⟩
  · have hbase : literalBase body = 10 := if_neg hhex
    exact .inr ⟨hbase, if_neg (by rw [hbase]; decide)⟩

/-- The type of a literal in range is the one that C gives it. -/
theorem literalType_val {suffix : Bool} {base value : Nat}
    (hmax : value ≤ UINT32_MAX)
    (hint : ¬(literalType suffix base value = .int ∧ value > INT32_MAX)) :
    (if suffix = true then
        if value < 2 ^ 32 then Except.ok (Val.uint (.ofNat 32 value)) else .error Fault.malformed
      else if value < 2 ^ 31 then .ok (.int value)
      else if base ≠ 10 ∧ value < 2 ^ 32 then .ok (.uint (.ofNat 32 value))
      else .error .malformed) =
      .ok (Facts.val { type := literalType suffix base value, value := .ofNat 32 value }) := by
  have hmax : value < 2 ^ 32 := Nat.lt_succ_of_le hmax
  by_cases huint : (suffix || (decide (base = 16) && decide (value > INT32_MAX))) = true
  · have htype : literalType suffix base value = .uint := if_pos huint
    rw [htype]
    by_cases hsuffix : suffix = true
    · rw [if_pos hsuffix, if_pos hmax]
      rfl
    · rw [Bool.eq_false_iff.mpr hsuffix, Bool.false_or, Bool.and_eq_true_iff, decide_eq_true_eq,
        decide_eq_true_eq] at huint
      have hbig : ¬value < 2 ^ 31 := Nat.not_lt.mpr huint.2
      rw [if_neg hsuffix, if_neg hbig, if_pos ⟨by omega, hmax⟩]
      rfl
  · have htype : literalType suffix base value = .int := if_neg huint
    have hsmall : value ≤ INT32_MAX := Nat.le_of_not_lt fun hlt => hint ⟨htype, hlt⟩
    have hsuffix : ¬suffix = true := fun h => huint (by rw [h, Bool.true_or])
    have hlt : value < 2 ^ 31 := Nat.lt_succ_of_le hsmall
    rw [if_neg hsuffix, if_pos hlt, htype]
    have hval : (BitVec.ofNat 32 value).toNat = value := by
      rw [BitVec.toNat_ofNat]
      exact Nat.mod_eq_of_lt hmax
    exact congrArg (fun n : Nat => Except.ok (Val.int n)) hval.symm

theorem literalOf_facts {suffix : Bool} {f : Facts}
    (hcs : ∀ c ∈ body, isLetter c = true ∨ isDigit c = true) (hne : body ≠ [])
    (hmark : body.take 2 = ['0', 'x'] → body.drop 2 ≠ []) (h : bodyFacts suffix body = .ok f) :
    literalOf suffix body = .ok f.val ∧ f.constant = true ∧ f.exactIndex = false ∧ f.Fits := by
  unfold bodyFacts at h
  split_ifs at h with hoctal
  have hradix := radix_eq hoctal
  have hbase : literalBase body = 16 ∨ literalBase body = 10 :=
    (literalBase_cases body).imp (fun h => h.2.1) And.left
  have hdigits : literalDigits body ≠ [] ∧
      ∀ c ∈ literalDigits body, isLetter c = true ∨ isDigit c = true := by
    rcases literalBase_cases body with ⟨hhex, _, heq⟩ | ⟨_, heq⟩
    · rw [heq]
      exact ⟨hmark hhex, fun c hc => hcs c (List.mem_of_mem_drop hc)⟩
    · rw [heq]
      exact ⟨hne, hcs⟩
  cases hvalue : literalValue (literalBase body) (literalDigits body) 0 with
  | none =>
    rw [hvalue] at h
    cases h
  | some value =>
    rw [hvalue] at h
    dsimp only at h
    split_ifs at h with hbig
    cases h
    rcases literalValue_numeral (by omega) (by omega) hdigits.2 (Nat.zero_le _) hvalue with
      ⟨hnumeral, hmax⟩
    refine ⟨?_, rfl, rfl, fun htype => ?_⟩
    · rw [literalOf, hradix]
      dsimp only
      rw [hnumeral]
      dsimp only
      rw [if_neg hdigits.1]
      exact literalType_val hmax hbig
    · have hle : value ≤ INT32_MAX := Nat.le_of_not_lt fun hlt => hbig ⟨htype, hlt⟩
      rw [BitVec.toNat_ofNat]
      exact Nat.le_trans (Nat.mod_le _ _) hle

theorem literal_facts {w : String} {f : Facts} (hw : Spelled w)
    (hdigit : w.toList.head?.any isDigit = true) (h : literalFacts w = .ok f) :
    literal w = .ok f.val ∧ f.constant = true ∧ f.exactIndex = false ∧ f.Fits := by
  unfold literalFacts at h
  unfold literal
  split_ifs at h ⊢ with hsuffix
  · have hlast : ∀ c, w.toList.getLast? = some c → w.toList = w.toList.dropLast ++ [c] := by
      intro c hc
      rcases List.getLast?_eq_some_iff.mp hc with ⟨body, hbody⟩
      rw [hbody, List.dropLast_concat]
    have hbody : ∃ c, (c = 'u' ∨ c = 'U') ∧ w.toList = w.toList.dropLast ++ [c] :=
      hsuffix.elim (fun h => ⟨'u', .inl rfl, hlast _ h⟩) fun h => ⟨'U', .inr rfl, hlast _ h⟩
    rcases hw.digits_ne hdigit (.inr hbody) with ⟨hne, hmark⟩
    exact literalOf_facts
      (fun c hc => hw.alnum c ((List.dropLast_sublist _).subset hc)) hne hmark h
  · rcases hw.digits_ne hdigit (.inl rfl) with ⟨hne, hmark⟩
    exact literalOf_facts hw.alnum hne hmark h

theorem literal_constantText {f : Facts} (hf : f.Fits) : literal (constantText f) = .ok f.val := by
  unfold constantText Facts.val
  cases htype : f.type with
  | int =>
    rw [if_neg (by decide), String.append_empty]
    exact literal_repr (Nat.lt_succ_of_le (hf htype))
  | uint =>
    rw [if_pos rfl, literal_repr_u f.value.isLt, BitVec.ofNat_toNat, BitVec.setWidth_eq]

end Literals

end Mellow.ShaderJit
