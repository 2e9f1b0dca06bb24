import Mellow.Lib.CKernel

/-!
# Work Items of a Kernel

Many work items run a kernel on one array, and nothing is said about whose turn
it is. The result does not depend on that where every access is to the element
with the number of the work item. In an interleaved run each of them is then at
a place of its own run, with its element as it was there.

## Main definitions

* `Stmt.Confined`: a statement with only such accesses, by its text.
* `Turn`: one statement of one work item.
* `Kernel.Safe`: a kernel of confined statements.
* `Isolated`: what holds of all runs.

## Theorems

* `Kernel.Along.final`: the final array is that of the runs alone.
* `Kernel.Safe.isolated`: safe kernels are isolated.
-/

namespace Mellow.Lib

/-- The expression accesses the array `a` at the index `t` only. -/
def CExpr.Confined (a t : String) : CExpr → Prop
  | .num _ => True
  | .name _ => True
  | .paren e => e.Confined a t
  | .call _ e => e.Confined a t
  | .index e i => e = .name a ∧ i = .name t
  | .member e _ => e.Confined a t
  | .unary _ e => e.Confined a t
  | .binary _ l r => l.Confined a t ∧ r.Confined a t

def Stmt.Confined (a t : String) : Stmt → Prop
  | .decl _ _ e => e.Confined a t
  | .assign _ e => e.Confined a t
  | .store _ i e => i = .name t ∧ e.Confined a t

def indexOf : Except Fault Val → List Int
  | .ok v => [v.toInt]
  | .error _ => []

def CExpr.touched (a : String) (vars : List Var) (buf : List (BitVec 32)) : CExpr → List Int
  | .num _ => []
  | .name _ => []
  | .paren e => e.touched a vars buf
  | .call _ e => e.touched a vars buf
  | .index e i => e.touched a vars buf ++ i.touched a vars buf ++ indexOf (eval a vars buf i)
  | .member e _ => e.touched a vars buf
  | .unary _ e => e.touched a vars buf
  | .binary _ l r => l.touched a vars buf ++ r.touched a vars buf

def Stmt.touched (a : String) (vars : List Var) (buf : List (BitVec 32)) : Stmt → List Int
  | .decl _ _ e => e.touched a vars buf
  | .assign _ e => e.touched a vars buf
  | .store _ i e => e.touched a vars buf ++ i.touched a vars buf ++ indexOf (eval a vars buf i)

section Locality

variable {a t : String} {vars vars' : List Var} {b b' c : List (BitVec 32)} {g : BitVec 32}

theorem eval_local {e : CExpr} (he : e.Confined a t) (ht : lookup vars t = some ⟨t, true, g⟩)
    (hb : b[g.toNat]? = b'[g.toNat]?) : eval a vars b e = eval a vars b' e := by
  induction e with
  | num | name | call | member => rfl
  | paren e ih => exact ih he
  | unary op e ih => rw [eval, eval, ih he]
  | binary op l r ihl ihr => rw [eval, eval, ihl he.1, ihr he.2]
  | index e i =>
    rcases he with ⟨rfl, rfl⟩
    have hload : ∀ buf, eval a vars buf (.index (.name a) (.name t)) = load buf (.uint g) := by
      intro buf
      rw [eval, if_pos rfl, eval, ht]
      rfl
    have hnat : (Val.uint g).toInt.toNat = g.toNat := Int.toNat_natCast _
    rw [hload, hload, load, load, hnat, hb]

theorem CExpr.Confined.touched {e : CExpr} (he : e.Confined a t)
    (ht : lookup vars t = some ⟨t, true, g⟩) (b : List (BitVec 32)) :
    ∀ j ∈ e.touched a vars b, j = g.toNat := by
  induction e with
  | num | name => exact nofun
  | paren e ih => exact ih he
  | call f e ih => exact ih he
  | member e f ih => exact ih he
  | unary op e ih => exact ih he
  | binary op l r ihl ihr =>
    intro j hj
    rcases List.mem_append.mp hj with hj | hj
    · exact ihl he.1 j hj
    · exact ihr he.2 j hj
  | index e i =>
    rcases he with ⟨rfl, rfl⟩
    intro j hj
    rw [CExpr.touched, eval, ht] at hj
    exact List.mem_singleton.mp hj

theorem Stmt.Confined.touched {s : Stmt} (hs : s.Confined a t)
    (ht : lookup vars t = some ⟨t, true, g⟩) (b : List (BitVec 32)) :
    ∀ j ∈ s.touched a vars b, j = g.toNat := by
  cases s with
  | decl | assign => exact CExpr.Confined.touched hs ht b
  | store a' i e =>
    rcases hs with ⟨rfl, he⟩
    intro j hj
    rw [Stmt.touched, List.append_assoc] at hj
    rcases List.mem_append.mp hj with hj | hj
    · exact he.touched ht b j hj
    · rw [CExpr.touched, eval, ht] at hj
      exact List.mem_singleton.mp hj

theorem lookup_setVar {x : String} {w : BitVec 32} (hx : x ≠ t) :
    lookup (vars.map (setVar x w)) t = lookup vars t := by
  induction vars with
  | nil => rfl
  | cons v vars ih =>
    unfold lookup at ih ⊢
    rw [List.map_cons, List.find?_cons, List.find?_cons]
    have hname : (setVar x w v).name = v.name := by
      unfold setVar
      split_ifs <;> rfl
    rw [hname]
    by_cases hv : v.name = t
    · have hsame : setVar x w v = v := if_neg fun h => hx (h.symm.trans hv)
      rw [decide_eq_true hv, hsame]
    · rw [decide_eq_false hv]
      exact ih

theorem set_getD_self (hg : g.toNat < b.length) : b.set g.toNat (b.getD g.toNat 0) = b := by
  rw [List.getD_eq_getElem?_getD, List.getElem?_eq_getElem hg]
  exact List.set_getElem_self hg

section Inversion

variable {st r : List Var × List (BitVec 32)} {x : String} {i e : CExpr}

theorem exec_decl_ok {const : Bool} :
    exec a st (.decl const x e) = .ok r ↔
      ∃ w, eval a st.1 st.2 e = .ok w ∧ ¬(x = a ∨ (lookup st.1 x).isSome) ∧
        r = (st.1 ++ [⟨x, const, w.toUint⟩], st.2) := by
  rw [exec]
  cases he : eval a st.1 st.2 e with
  | error =>
    constructor
    · intro h
      cases h
    · rintro ⟨w, hw, -⟩
      cases hw
  | ok w =>
    change (if x = a ∨ (lookup st.1 x).isSome then _ else _) = _ ↔ _
    split_ifs with hx
    · simp [*]
    · constructor
      · intro h
        exact ⟨w, rfl, hx, (Except.ok.inj h).symm⟩
      · rintro ⟨w', hw, -, rfl⟩
        cases hw
        rfl

theorem exec_assign_ok :
    exec a st (.assign x e) = .ok r ↔
      ∃ w, eval a st.1 st.2 e = .ok w ∧ (lookup st.1 x).any (fun v => !v.const) ∧
        r = (st.1.map (setVar x w.toUint), st.2) := by
  rw [exec]
  cases he : eval a st.1 st.2 e with
  | error =>
    constructor
    · intro h
      cases h
    · rintro ⟨w, hw, -⟩
      cases hw
  | ok w =>
    change (if (lookup st.1 x).any (fun v => !v.const) then _ else _) = _ ↔ _
    split_ifs with hx
    · constructor
      · intro h
        exact ⟨w, rfl, hx, (Except.ok.inj h).symm⟩
      · rintro ⟨w', hw, -, rfl⟩
        cases hw
        rfl
    · simp [*]

theorem exec_store_ok (hi : eval a st.1 st.2 i = .ok (.uint g)) :
    exec a st (.store x i e) = .ok r ↔
      ∃ w, eval a st.1 st.2 e = .ok w ∧ x = a ∧ g.toNat < st.2.length ∧
        r = (st.1, st.2.set g.toNat w.toUint) := by
  cases he : eval a st.1 st.2 e with
  | error =>
    rw [exec, he]
    constructor
    · intro h
      cases h
    · rintro ⟨w, hw, -⟩
      cases hw
  | ok w =>
    by_cases hx : x = a
    · subst hx
      rw [exec_store he hi]
      split_ifs with hlen
      · simp [*]
      · constructor
        · intro h
          exact ⟨w, rfl, rfl, Nat.lt_of_not_le hlen, (Except.ok.inj h).symm⟩
        · rintro ⟨w', hw, -, -, rfl⟩
          cases hw
          rfl
    · rw [exec, he, hi]
      change (if x ≠ a then _ else _) = _ ↔ _
      rw [if_pos hx]
      constructor
      · intro h
        cases h
      · rintro ⟨-, -, hxa, -⟩
        exact absurd hxa hx

end Inversion

theorem exec_thread {s : Stmt} (hs : s.Confined a t) (ht : lookup vars t = some ⟨t, true, g⟩)
    (h : exec a (vars, b) s = .ok (vars', c)) : lookup vars' t = some ⟨t, true, g⟩ := by
  cases s with
  | decl const x e =>
    rcases exec_decl_ok.mp h with ⟨w, -, -, hr⟩
    cases hr
    rw [lookup, List.find?_append]
    exact Option.or_eq_some_iff.mpr (.inl ht)
  | assign x e =>
    rcases exec_assign_ok.mp h with ⟨w, -, hx, hr⟩
    cases hr
    have hne : x ≠ t := by
      rintro rfl
      rw [ht] at hx
      cases hx
    exact (lookup_setVar hne).trans ht
  | store x i e =>
    rcases hs with ⟨rfl, -⟩
    rcases (exec_store_ok (g := g) (by rw [eval, ht])).mp h with ⟨w, -, -, -, hr⟩
    cases hr
    exact ht

theorem foldlM_thread {body : List Stmt} (hbody : ∀ s ∈ body, s.Confined a t)
    (ht : lookup vars t = some ⟨t, true, g⟩)
    (h : body.foldlM (exec a) (vars, b) = .ok (vars', c)) :
    lookup vars' t = some ⟨t, true, g⟩ := by
  induction body generalizing vars b with
  | nil =>
    cases h
    exact ht
  | cons s body ih =>
    rw [List.foldlM_cons] at h
    cases hs : exec a (vars, b) s with
    | error => rw [hs] at h; cases h
    | ok r =>
      rw [hs] at h
      exact ih (fun s' hs' => hbody s' (List.mem_cons_of_mem s hs'))
        (exec_thread (hbody s List.mem_cons_self) ht hs) h

/-- A statement sees one element and changes one element. -/
theorem exec_local {s : Stmt} (hs : s.Confined a t) (ht : lookup vars t = some ⟨t, true, g⟩)
    (hb : b[g.toNat]? = b'[g.toNat]?) (hg : g.toNat < b.length) (hg' : g.toNat < b'.length)
    (h : exec a (vars, b) s = .ok (vars', c)) :
    ∃ w, c = b.set g.toNat w ∧ exec a (vars, b') s = .ok (vars', b'.set g.toNat w) := by
  have hsame : b'.set g.toNat (b.getD g.toNat 0) = b' := by
    rw [List.getD_eq_getElem?_getD, hb, ← List.getD_eq_getElem?_getD]
    exact set_getD_self hg'
  cases s with
  | decl const x e =>
    rcases exec_decl_ok.mp h with ⟨w, hw, hx, hr⟩
    cases hr
    refine ⟨b.getD g.toNat 0, (set_getD_self hg).symm, exec_decl_ok.mpr ⟨w, ?_, hx, ?_⟩⟩
    · exact (eval_local hs ht hb).symm.trans hw
    · rw [hsame]
  | assign x e =>
    rcases exec_assign_ok.mp h with ⟨w, hw, hx, hr⟩
    cases hr
    refine ⟨b.getD g.toNat 0, (set_getD_self hg).symm, exec_assign_ok.mpr ⟨w, ?_, hx, ?_⟩⟩
    · exact (eval_local hs ht hb).symm.trans hw
    · rw [hsame]
  | store x i e =>
    rcases hs with ⟨rfl, hs⟩
    have hi : ∀ buf, eval a vars buf (.name t) = .ok (.uint g) := by
      intro buf
      rw [eval, ht]
    rcases (exec_store_ok (hi b)).mp h with ⟨w, hw, hx, -, hr⟩
    cases hr
    refine ⟨w.toUint, rfl, (exec_store_ok (hi b')).mpr ⟨w, ?_, hx, hg', rfl⟩⟩
    exact (eval_local hs ht hb).symm.trans hw

theorem foldlM_local {body : List Stmt} (hbody : ∀ s ∈ body, s.Confined a t)
    (ht : lookup vars t = some ⟨t, true, g⟩) (hb : b[g.toNat]? = b'[g.toNat]?)
    (hg : g.toNat < b.length) (hg' : g.toNat < b'.length)
    (h : body.foldlM (exec a) (vars, b) = .ok (vars', c)) :
    ∃ w, c = b.set g.toNat w ∧ body.foldlM (exec a) (vars, b') = .ok (vars', b'.set g.toNat w) := by
  induction body generalizing vars b b' with
  | nil =>
    cases h
    refine ⟨c.getD g.toNat 0, (set_getD_self hg).symm, ?_⟩
    rw [List.getD_eq_getElem?_getD, hb, ← List.getD_eq_getElem?_getD, set_getD_self hg']
    rfl
  | cons s body ih =>
    rw [List.foldlM_cons] at h
    cases hs : exec a (vars, b) s with
    | error => rw [hs] at h; cases h
    | ok r =>
      rw [hs] at h
      have hconfined := hbody s List.mem_cons_self
      rcases exec_local hconfined ht hb hg hg' hs with ⟨w, hw, hs'⟩
      have hlen : g.toNat < (b.set g.toNat w).length := by rwa [List.length_set]
      have hlen' : g.toNat < (b'.set g.toNat w).length := by rwa [List.length_set]
      have heq : (b.set g.toNat w)[g.toNat]? = (b'.set g.toNat w)[g.toNat]? := by simp [*]
      have hrest : body.foldlM (exec a) (r.1, b.set g.toNat w) = .ok (vars', c) := by
        rw [← hw]
        exact h
      rcases ih (fun s' hs' => hbody s' (List.mem_cons_of_mem s hs'))
        (exec_thread hconfined ht hs) heq hlen hlen' hrest with ⟨w', rfl, hrest'⟩
      -- The last of two stores to one element is the one that counts.
      refine ⟨w', List.set_set .., ?_⟩
      rw [List.set_set] at hrest'
      rw [List.foldlM_cons, hs']
      exact hrest'

end Locality

section Turns

/-- A work item: its variables, and the statements that are left. -/
structure Item where
  vars : List Var
  rest : List Stmt

structure Machine where
  items : List Item
  buf : List (BitVec 32)

inductive Turn (a : String) (m : Machine) : Machine → Prop where
  | mk {i : Nat} {vars vars' : List Var} {s : Stmt} {rest : List Stmt} {buf' : List (BitVec 32)}
      (hi : m.items[i]? = some ⟨vars, s :: rest⟩) (h : exec a (vars, m.buf) s = .ok (vars', buf')) :
      Turn a m ⟨m.items.set i ⟨vars', rest⟩, buf'⟩

/-- As many work items as there are elements, before their first statement. -/
def Kernel.launch (k : Kernel) (buf : List (BitVec 32)) : Machine :=
  ⟨(List.range buf.length).map fun i => ⟨k.start (.ofNat 32 i), k.body⟩, buf⟩

def Machine.Finished (m : Machine) : Prop := ∀ item ∈ m.items, item.rest = []

def Kernel.Reach (k : Kernel) (buf : List (BitVec 32)) (m : Machine) : Prop :=
  Relation.ReflTransGen (Turn k.array) (k.launch buf) m

/-- A work item leaves `f` of its number and of the element it found. -/
structure Isolated (k : Kernel) (f : BitVec 32 → BitVec 32 → BitVec 32) : Prop where
  /-- A work item on its own changes its element only. -/
  alone : ∀ g buf, g.toNat < buf.length →
    k.run g buf = .ok (buf.set g.toNat (f g (buf.getD g.toNat 0)))
  /-- Its statements access this element only, also where there is none. -/
  touched : ∀ g buf vars buf' pre s post, k.body = pre ++ s :: post →
    pre.foldlM (exec k.array) (k.start g, buf) = .ok (vars, buf') →
    ∀ j ∈ s.touched k.array vars buf', j = g.toNat
  /-- The order of the work items does not matter. -/
  order : ∀ (buf : List (BitVec 32)) (is : List Nat), buf.length ≤ 2 ^ 32 →
    is.Perm (List.range buf.length) →
    is.foldlM (fun b i => k.run (.ofNat 32 i) b) buf = .ok (buf.mapIdx fun i => f (.ofNat 32 i))
  /-- Among the others too a work item accesses its element only. -/
  shared : ∀ (buf : List (BitVec 32)) (m : Machine) (i : Nat) (vars : List Var) (s : Stmt)
    (rest : List Stmt), buf.length ≤ 2 ^ 32 → k.Reach buf m →
    m.items[i]? = some ⟨vars, s :: rest⟩ → ∀ j ∈ s.touched k.array vars m.buf, j = i
  /-- Nothing goes wrong. -/
  progress : ∀ (buf : List (BitVec 32)) (m : Machine) (i : Nat) (vars : List Var) (s : Stmt)
    (rest : List Stmt), buf.length ≤ 2 ^ 32 → k.Reach buf m →
    m.items[i]? = some ⟨vars, s :: rest⟩ → ∃ r, exec k.array (vars, m.buf) s = .ok r
  /-- All work items come through. -/
  finishes : ∀ (buf : List (BitVec 32)) (m : Machine), buf.length ≤ 2 ^ 32 → k.Reach buf m →
    ∃ m', Relation.ReflTransGen (Turn k.array) m m' ∧ m'.Finished
  /-- However they took turns, the array is the same in the end. -/
  final : ∀ (buf : List (BitVec 32)) (m : Machine), buf.length ≤ 2 ^ 32 → k.Reach buf m →
    m.Finished → m.buf = buf.mapIdx fun i => f (.ofNat 32 i)

end Turns

section Interleaving

variable {g : BitVec 32}

/-- Only the own element is accessed, and no work item that has one fails. -/
structure Kernel.Safe (k : Kernel) : Prop where
  const : k.threadConst = true
  confined : ∀ s ∈ k.body, s.Confined k.array k.thread
  runs : ∀ g buf, g.toNat < buf.length → ∃ buf', k.run g buf = .ok buf'

/-- The element that a work item leaves where it found `v`. -/
def Kernel.result (k : Kernel) (g v : BitVec 32) : BitVec 32 :=
  match k.run g (List.replicate (g.toNat + 1) v) with
  | .ok buf => buf.getD g.toNat 0
  | .error _ => 0

variable {k : Kernel}

theorem Kernel.Safe.lookup_start (hk : k.Safe) (g : BitVec 32) :
    lookup (k.start g) k.thread = some ⟨k.thread, true, g⟩ := by
  rw [Kernel.start, hk.const]
  exact List.find?_cons_of_pos (decide_eq_true rfl)

theorem run_eq_ok {buf buf' : List (BitVec 32)} :
    k.run g buf = .ok buf' ↔ ∃ vars, k.body.foldlM (exec k.array)
    (k.start g, buf) = .ok (vars, buf') := by
  unfold Kernel.run
  cases h : k.body.foldlM (exec k.array) (k.start g, buf) with
  | error e => simp
  | ok r =>
    constructor
    · intro hr
      cases hr
      exact ⟨r.1, rfl⟩
    · rintro ⟨vars, hr⟩
      cases hr
      rfl

/-- A work item changes its element only, and to what it would leave anywhere. -/
theorem Kernel.Safe.run_local (hk : k.Safe) {buf : List (BitVec 32)}
    (hg : g.toNat < buf.length) :
    k.run g buf = .ok (buf.set g.toNat (k.result g (buf.getD g.toNat 0))) := by
  let found := List.replicate (g.toNat + 1) (buf.getD g.toNat 0)
  have hfound : g.toNat < found.length := by
    rw [List.length_replicate]
    exact Nat.lt_succ_self _
  have hsame : found[g.toNat]? = buf[g.toNat]? := by
    rw [List.getElem?_replicate_of_lt (Nat.lt_succ_self _), List.getD_eq_getElem?_getD,
      List.getElem?_eq_getElem hg]
    rfl
  rcases hk.runs g found hfound with ⟨buf', hrun⟩
  rcases run_eq_ok.mp hrun with ⟨vars, hfold⟩
  rcases foldlM_local hk.confined (hk.lookup_start g) hsame hfound hg hfold with
    ⟨w, rfl, hfold'⟩
  have hresult : k.result g (buf.getD g.toNat 0) = w := by
    change (match k.run g found with | .ok buf => _ | .error _ => _) = w
    rw [hrun]
    dsimp only
    rw [List.getD_eq_getElem?_getD, List.getElem?_set_self hfound]
    rfl
  rw [hresult]
  exact run_eq_ok.mpr ⟨vars, hfold'⟩

theorem Kernel.Safe.touched (hk : k.Safe) {vars : List Var}
    {buf buf' : List (BitVec 32)} {pre post : List Stmt} {s : Stmt}
    (hbody : k.body = pre ++ s :: post)
    (hpre : pre.foldlM (exec k.array) (k.start g, buf) = .ok (vars, buf')) (b : List (BitVec 32)) :
    ∀ j ∈ s.touched k.array vars b, j = g.toNat := by
  have hmem : ∀ s' ∈ pre ++ s :: post, s'.Confined k.array k.thread := hbody ▸ hk.confined
  have hthread := foldlM_thread (fun s' hs' => hmem s' (List.mem_append_left _ hs'))
    (hk.lookup_start g) hpre
  exact (hmem s (List.mem_append_right _ List.mem_cons_self)).touched hthread b

/-- Work items one after the other, each of them at most once. -/
theorem Kernel.Safe.order (hk : k.Safe) {buf : List (BitVec 32)} (hlen : buf.length ≤ 2 ^ 32)
    {is : List Nat} (hnodup : is.Nodup) (his : ∀ i ∈ is, i < buf.length) :
    is.foldlM (fun b i => k.run (.ofNat 32 i) b) buf =
      .ok (buf.mapIdx fun i v => if i ∈ is then k.result (.ofNat 32 i) v else v) := by
  induction is generalizing buf with
  | nil =>
    change Except.ok buf = _
    congr 1
    exact (List.mapIdx_eq_iff.mpr fun i => by cases buf[i]? <;> rfl).symm
  | cons i is ih =>
    have hi := his i List.mem_cons_self
    have hnat : (BitVec.ofNat 32 i).toNat = i :=
      Nat.mod_eq_of_lt (Nat.lt_of_lt_of_le hi hlen)
    have hi' : (BitVec.ofNat 32 i).toNat < buf.length := by rwa [hnat]
    have hrun := hk.run_local hi'
    rw [hnat] at hrun
    rcases List.nodup_cons.mp hnodup with ⟨hnot, hnodup'⟩
    rw [List.foldlM_cons, hrun]
    change is.foldlM _ (buf.set i _) = _
    rw [ih (by rwa [List.length_set]) hnodup' fun j hj => by
      rw [List.length_set]
      exact his j (List.mem_cons_of_mem i hj)]
    congr 1
    refine List.ext_getElem? fun j => ?_
    rw [List.getElem?_mapIdx, List.getElem?_mapIdx]
    by_cases hj : j = i
    · simp [*]
    · simp [List.getElem?_set_ne (Ne.symm hj), List.mem_cons, hj, false_or]

/-- Every work item is at a place of its own run. -/
structure Kernel.Along (k : Kernel) (buf : List (BitVec 32)) (m : Machine) : Prop where
  items : m.items.length = buf.length
  length : m.buf.length = buf.length
  place : ∀ i item, m.items[i]? = some item → ∃ pre b, k.body = pre ++ item.rest ∧
    pre.foldlM (exec k.array) (k.start (.ofNat 32 i), buf) = .ok (item.vars, b) ∧ m.buf[i]? = b[i]?

variable {buf : List (BitVec 32)} {m m' : Machine}

theorem along_launch (k : Kernel) (buf : List (BitVec 32)) : k.Along buf (k.launch buf) where
  items := by rw [Kernel.launch, List.length_map, List.length_range]
  length := rfl
  place := by
    intro i item hitem
    rw [Kernel.launch, List.getElem?_map] at hitem
    rcases Option.map_eq_some_iff.mp hitem with ⟨i', hi', rfl⟩
    rcases List.getElem?_eq_some_iff.mp hi' with ⟨_, hi⟩
    rw [List.getElem_range] at hi
    subst hi
    exact ⟨[], buf, rfl, rfl, rfl⟩

/-- A statement does in the shared array what it does alone. -/
theorem Kernel.Along.next (hk : k.Safe) (hlen : buf.length ≤ 2 ^ 32) (h : k.Along buf m) {i : Nat}
    {vars : List Var} {s : Stmt} {rest : List Stmt} (hi : m.items[i]? = some ⟨vars, s :: rest⟩) :
    ∃ pre b vars' w, k.body = pre ++ s :: rest ∧
      pre.foldlM (exec k.array) (k.start (.ofNat 32 i), buf) = .ok (vars, b) ∧
      i < b.length ∧ exec k.array (vars, b) s = .ok (vars', b.set i w) ∧
      exec k.array (vars, m.buf) s = .ok (vars', m.buf.set i w) := by
  rcases h.place i _ hi with ⟨pre, b, hbody, hpre, hsame⟩
  have hlt : i < buf.length := h.items ▸ (List.getElem?_eq_some_iff.mp hi).1
  have hnat : (BitVec.ofNat 32 i).toNat = i := Nat.mod_eq_of_lt (Nat.lt_of_lt_of_le hlt hlen)
  have hmem : ∀ s' ∈ pre ++ s :: rest, s'.Confined k.array k.thread := hbody ▸ hk.confined
  have hpre' : ∀ s' ∈ pre, s'.Confined k.array k.thread :=
    fun s' hs' => hmem s' (List.mem_append_left _ hs')
  have hthread := foldlM_thread hpre' (hk.lookup_start (.ofNat 32 i)) hpre
  have hlt' : (BitVec.ofNat 32 i).toNat < buf.length := by rwa [hnat]
  have hb : b.length = buf.length := by
    rcases foldlM_local hpre' (hk.lookup_start _) rfl hlt' hlt' hpre with ⟨w, rfl, -⟩
    exact List.length_set
  -- The whole run comes through, so this statement does.
  rcases hk.runs (.ofNat 32 i) buf hlt' with ⟨buf', hrun⟩
  rcases run_eq_ok.mp hrun with ⟨last, hfold⟩
  rw [hbody, List.foldlM_append, hpre] at hfold
  change (s :: rest).foldlM (exec k.array) (vars, b) = _ at hfold
  rw [List.foldlM_cons] at hfold
  cases hs : exec k.array (vars, b) s with
  | error => rw [hs] at hfold; cases hfold
  | ok r =>
    have hconfined := hmem s (List.mem_append_right _ List.mem_cons_self)
    have hsame' : b[(BitVec.ofNat 32 i).toNat]? = m.buf[(BitVec.ofNat 32 i).toNat]? := by
      rw [hnat, hsame]
    rcases exec_local hconfined hthread hsame' (by rwa [hnat, hb]) (by rwa [hnat, h.length]) hs with
      ⟨w, hw, hs'⟩
    rw [hnat] at hw hs'
    refine ⟨pre, b, r.1, w, hbody, hpre, hb ▸ hlt, ?_, hs'⟩
    rw [hs, ← hw]

/-- A turn leaves every work item at a place of its own run. -/
theorem Turn.along (hk : k.Safe) (hlen : buf.length ≤ 2 ^ 32) (h : k.Along buf m)
    (hturn : Turn k.array m m') : k.Along buf m' := by
  rcases hturn with ⟨hi, hexec⟩
  next i vars vars' s rest buf' =>
    rcases h.next hk hlen hi with ⟨pre, b, vars₁, w, hbody, hpre, hlt, hsolo, hshared⟩
    rw [hshared] at hexec
    cases hexec
    refine ⟨List.length_set.trans h.items, List.length_set.trans h.length, ?_⟩
    intro j item hj
    by_cases hij : i = j
    · subst hij
      have hitem := List.getElem?_set_self (a := ⟨vars', rest⟩) (List.getElem?_eq_some_iff.mp hi).1
      rw [hitem] at hj
      cases hj
      refine ⟨pre ++ [s], b.set i w, ?_, ?_, ?_⟩
      · rw [List.append_assoc]
        exact hbody
      · rw [List.foldlM_append, hpre]
        change [s].foldlM (exec k.array) (vars, b) = _
        rw [List.foldlM_cons, hsolo]
        rfl
      · have hi' : i < m.buf.length := by
          rw [h.length, ← h.items]
          exact (List.getElem?_eq_some_iff.mp hi).1
        rw [List.getElem?_set_self hi', List.getElem?_set_self hlt]
    · rw [List.getElem?_set_ne hij] at hj
      rcases h.place j item hj with ⟨pre', b', hbody', hpre', hsame⟩
      exact ⟨pre', b', hbody', hpre', (List.getElem?_set_ne hij).trans hsame⟩

theorem Kernel.Reach.along (hk : k.Safe) (hlen : buf.length ≤ 2 ^ 32) (h : k.Reach buf m) :
    k.Along buf m := by
  induction h with
  | refl => exact along_launch k buf
  | tail _ hturn ih => exact hturn.along hk hlen ih

def Machine.left (m : Machine) : Nat := (m.items.map (·.rest.length)).sum

theorem sum_set {l : List Nat} {i n : Nat} (h : l[i]? = some (n + 1)) :
    (l.set i n).sum + 1 = l.sum := by
  induction l generalizing i with
  | nil => cases h
  | cons a l ih =>
    cases i with
    | zero =>
      cases h
      rw [List.set_cons_zero, List.sum_cons, List.sum_cons]
      omega
    | succ i =>
      have := ih h
      rw [List.set_cons_succ, List.sum_cons, List.sum_cons]
      omega

theorem Kernel.Along.finishes (hk : k.Safe) (hlen : buf.length ≤ 2 ^ 32) (h : k.Along buf m) :
    ∃ m', Relation.ReflTransGen (Turn k.array) m m' ∧ m'.Finished := by
  induction hn : m.left generalizing m with
  | zero =>
    refine ⟨m, .refl, fun item hitem => ?_⟩
    have hzero := List.sum_eq_zero_iff_forall_eq_nat.mp hn _ (List.mem_map_of_mem hitem)
    exact List.length_eq_zero_iff.mp hzero
  | succ n ih =>
    -- Something is left, so that some work item has a turn.
    have hsome : ∃ item ∈ m.items, item.rest ≠ [] := by
      have hpos : 0 < m.left := hn ▸ Nat.succ_pos n
      rcases List.sum_pos_iff_exists_pos_nat.mp hpos with ⟨_, hmem, hlength⟩
      rcases List.mem_map.mp hmem with ⟨item, hitem, rfl⟩
      exact ⟨item, hitem, List.ne_nil_of_length_pos hlength⟩
    rcases hsome with ⟨⟨vars, rest⟩, hmem, hne⟩
    rcases List.getElem?_of_mem hmem with ⟨i, hi⟩
    cases rest with
    | nil => exact absurd rfl hne
    | cons s rest =>
      rcases h.next hk hlen hi with ⟨_, _, vars', w, _, _, _, _, hexec⟩
      have hturn : Turn k.array m _ := .mk hi hexec
      have hleft : Machine.left ⟨m.items.set i ⟨vars', rest⟩, m.buf.set i w⟩ = n := by
        have hold : (m.items.map (·.rest.length))[i]? = some (rest.length + 1) := by
          rw [List.getElem?_map, hi]
          rfl
        have := sum_set hold
        rw [Machine.left, List.map_set]
        unfold Machine.left at hn
        dsimp only
        omega
      rcases ih (hturn.along hk hlen h) hleft with ⟨m', hsteps, hfinished⟩
      exact ⟨m', .head hturn hsteps, hfinished⟩

theorem Kernel.Along.final (hk : k.Safe) (hlen : buf.length ≤ 2 ^ 32) (h : k.Along buf m)
    (hfinished : m.Finished) : m.buf = buf.mapIdx fun i => k.result (.ofNat 32 i) := by
  refine List.ext_getElem? fun i => ?_
  rw [List.getElem?_mapIdx]
  by_cases hlt : i < buf.length
  · have hnat : (BitVec.ofNat 32 i).toNat = i := Nat.mod_eq_of_lt (Nat.lt_of_lt_of_le hlt hlen)
    have hitem := List.getElem?_eq_getElem (h.items.symm ▸ hlt : i < m.items.length)
    rcases h.place i _ hitem with ⟨pre, b, hbody, hpre, hsame⟩
    rw [hfinished _ (List.getElem_mem _), List.append_nil] at hbody
    rw [← hbody] at hpre
    have hrun := run_eq_ok.mpr ⟨_, hpre⟩
    rw [hk.run_local (by rwa [hnat])] at hrun
    cases hrun
    rw [hsame, hnat, List.getElem?_set_self hlt, List.getD_eq_getElem?_getD,
      List.getElem?_eq_getElem hlt]
    rfl
  · have hge := Nat.le_of_not_lt hlt
    rw [List.getElem?_eq_none_iff.mpr (h.length.symm ▸ hge), List.getElem?_eq_none_iff.mpr hge]
    rfl

/-- Work items of a safe kernel do not interfere. -/
theorem Kernel.Safe.isolated (hk : k.Safe) : Isolated k k.result where
  alone := fun _ _ hg => hk.run_local hg
  touched := fun _ _ _ buf' _ _ _ hbody hpre => hk.touched hbody hpre buf'
  order := by
    intro buf is hlen hperm
    have hlt : ∀ i ∈ is, i < buf.length := fun i hi => List.mem_range.mp (hperm.mem_iff.mp hi)
    rw [hk.order hlen (hperm.nodup_iff.mpr List.nodup_range) hlt]
    congr 1
    refine List.ext_getElem? fun i => ?_
    rw [List.getElem?_mapIdx, List.getElem?_mapIdx]
    by_cases hi : i < buf.length
    · have hmem : i ∈ is := hperm.mem_iff.mpr (List.mem_range.mpr hi)
      simp only [hmem, if_true]
    · simp [*]
  shared := by
    intro buf m i vars s rest hlen hreach hi j hj
    have halong := hreach.along hk hlen
    rcases halong.next hk hlen hi with ⟨_, _, _, _, hbody, hpre, _⟩
    have hlt : i < buf.length := halong.items ▸ (List.getElem?_eq_some_iff.mp hi).1
    have hnat : (BitVec.ofNat 32 i).toNat = i := Nat.mod_eq_of_lt (Nat.lt_of_lt_of_le hlt hlen)
    rw [hk.touched hbody hpre m.buf j hj, hnat]
  progress := by
    intro buf m i vars s rest hlen hreach hi
    rcases (hreach.along hk hlen).next hk hlen hi with ⟨_, _, _, _, _, _, _, _, hexec⟩
    exact ⟨_, hexec⟩
  finishes := fun _ _ hlen hreach => (hreach.along hk hlen).finishes hk hlen
  final := fun _ _ hlen hreach hfinished => (hreach.along hk hlen).final hk hlen hfinished

end Interleaving

end Mellow.Lib
