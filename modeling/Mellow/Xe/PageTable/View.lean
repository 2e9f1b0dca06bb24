import Mellow.Lib.Trie
import Mellow.Xe.PageTable.Model

/-!
# The Tree Behind the Words

Which words of the pages make up a tree. A directory word that is set is the
entry of a page in use one level down, and a leaf word one that the encoder
produced for a page outside the pool. The owner's `lookup` consults the driver's
records and the hardware's walk only the words. Words of different pages are
different memory because the pool was checked.

## Main definitions

* `Ready`: that check.
* `view`: the `Trie` of the words.
* `Coherent`: what makes the reading faithful.

## Theorems

* `Ready.child_eq`: `child` finds the tree's edges.
* `lookup_eq`: `lookup` reads its leaves.
* `hardwareWalk_eq`: so does the hardware.
-/

namespace Mellow.XeMemory

open Lib

namespace PageTable

variable {t u : PageTable}

section Pool

variable {p : Nat}

structure Ready (t : PageTable) : Prop where
  nonempty : t.pool ≠ []
  pat : t.tablePat ≤ 3
  dma : ∀ p < t.pool.length, DmaPage (t.page p).dma
  distinct : ∀ p < t.pool.length, ∀ q < t.pool.length,
    (t.page p).dma = (t.page q).dma → p = q
  separate : ∀ p < t.pool.length, ∀ q < t.pool.length, ∀ j < 512, ∀ k < 512,
    t.address p j = t.address q k → p = q ∧ j = k

theorem page_congr (hpool : u.pool = t.pool) (p : Nat) : u.page p = t.page p := by
  rw [page, page, hpool]

theorem address_congr (hpool : u.pool = t.pool) (p j : Nat) : u.address p j = t.address p j := by
  rw [address, address, page_congr hpool]

theorem findDma_congr (hpool : u.pool = t.pool) (dma : Nat) : u.findDma dma = t.findDma dma := by
  simp only [findDma, hpool, page_congr hpool]

theorem Ready.congr (h : Ready t) (hpool : u.pool = t.pool) (hpat : u.tablePat = t.tablePat) :
    Ready u where
  nonempty := hpool ▸ h.nonempty
  pat := hpat ▸ h.pat
  dma p hp := by
    rw [page_congr hpool]
    exact h.dma p (hpool ▸ hp)
  distinct p hp q hq heq := by
    rw [page_congr hpool, page_congr hpool] at heq
    exact h.distinct p (hpool ▸ hp) q (hpool ▸ hq) heq
  separate p hp q hq j hj k hk heq := by
    rw [address_congr hpool, address_congr hpool] at heq
    exact h.separate p (hpool ▸ hp) q (hpool ▸ hq) j hj k hk heq

def pde (t : PageTable) (p : Nat) : Nat := (t.page p).dma ||| pdeFlags t.tablePat

theorem Ready.encode (h : Ready t) (hp : p < t.pool.length) :
    encodeSystemPde (t.page p).dma t.tablePat = some (t.pde p) :=
  (encodeSystemPde_eq_some_iff _ _ _).mpr ⟨h.dma p hp, h.pat, rfl⟩

theorem Ready.pde_ne_zero (h : Ready t) (p : Nat) : t.pde p ≠ 0 := XeMemory.pde_ne_zero h.pat

theorem Ready.pde_address (h : Ready t) (hp : p < t.pool.length) :
    t.pde p &&& addressMask = (t.page p).dma :=
  pde_and_addressMask (h.dma p hp) h.pat

theorem findDma_some {dma c : Nat} (h : t.findDma dma = some c) :
    c < t.pool.length ∧ (t.page c).dma = dma := by
  refine ⟨List.mem_range.mp (List.mem_of_find?_eq_some h), ?_⟩
  simpa only [decide_eq_true_eq] using List.find?_some h

theorem findDma_none {dma : Nat} (h : t.findDma dma = none) (hp : p < t.pool.length) :
    (t.page p).dma ≠ dma := by
  simpa only [decide_eq_true_eq] using List.find?_eq_none.mp h p (List.mem_range.mpr hp)

theorem Ready.findDma_page (h : Ready t) (hp : p < t.pool.length) :
    t.findDma (t.page p).dma = some p := by
  cases hfind : t.findDma (t.page p).dma with
  | none => exact absurd rfl (findDma_none hfind hp)
  | some c =>
    rcases findDma_some hfind with ⟨hc, heq⟩
    rw [h.distinct c hc p hp heq]

theorem Ready.findDma_pde (h : Ready t) (hp : p < t.pool.length) :
    t.findDma (t.pde p &&& addressMask) = some p := by
  rw [h.pde_address hp, h.findDma_page hp]

end Pool

section Words

variable {k p q : Nat}

theorem Ready.word_setWord (h : Ready t) {j : Nat} (hp : p < t.pool.length)
    (hq : q < t.pool.length) (hj : j < 512) (hk : k < 512) (v : Nat) :
    (t.setWord p j v).word q k = if q = p ∧ k = j then v else t.word q k := by
  by_cases hat : q = p ∧ k = j
  · rcases hat with ⟨rfl, rfl⟩
    rw [if_pos ⟨rfl, rfl⟩]
    exact Function.update_self ..
  · rw [if_neg hat]
    exact Function.update_of_ne (fun heq => hat (h.separate q hq p hp k hk j hj heq)) _ _

theorem Ready.word_clearWords (h : Ready t) (hp : p < t.pool.length)
    (hq : q < t.pool.length) (hk : k < 512) {js : List Nat} (hjs : ∀ j ∈ js, j < 512) :
    (js.foldl (fun t j => t.setWord p j 0) t).word q k
      = if q = p ∧ k ∈ js then 0 else t.word q k := by
  induction js generalizing t with
  | nil => rw [if_neg (fun hat => absurd hat.2 List.not_mem_nil)]; rfl
  | cons j js ih =>
    have hj := hjs j List.mem_cons_self
    have hstep : Ready (t.setWord p j 0) := h.congr rfl rfl
    rw [List.foldl_cons, ih hstep hp hq (fun i hi => hjs i (List.mem_cons_of_mem _ hi)),
      h.word_setWord hp hq hj hk]
    by_cases hqp : q = p
    · by_cases hin : k ∈ js
      · simp [*]
      · simp [*]
    · simp [*]

theorem Ready.word_clear (h : Ready t) (hp : p < t.pool.length)
    (hq : q < t.pool.length) (hk : k < 512) :
    (t.clear p).word q k = if q = p then 0 else t.word q k := by
  rw [clear, h.word_clearWords hp hq hk (fun j hj => List.mem_range.mp hj)]
  simp only [List.mem_range, hk, and_true]

theorem clear_eq (t : PageTable) (p : Nat) : t.clear p = { t with mem := (t.clear p).mem } := by
  suffices h : ∀ js : List Nat, ∀ t : PageTable, js.foldl (fun t j => t.setWord p j 0) t
      = { t with mem := (js.foldl (fun t j => t.setWord p j 0) t).mem } by
    rw [clear]
    exact h _ t
  intro js
  induction js with
  | nil => exact fun _ => rfl
  | cons j js ih => exact fun t => ih (t.setWord p j 0)

theorem clear_pool (t : PageTable) (p : Nat) : (t.clear p).pool = t.pool := by rw [clear_eq]

theorem clear_tablePat (t : PageTable) (p : Nat) : (t.clear p).tablePat = t.tablePat := by
  rw [clear_eq]

theorem clear_nodes (t : PageTable) (p : Nat) : (t.clear p).nodes = t.nodes := by rw [clear_eq]

theorem setWord_pool (t : PageTable) (p j v : Nat) : (t.setWord p j v).pool = t.pool := rfl

theorem setNode_pool (t : PageTable) (p : Nat) (node : Node) :
    (t.setNode p node).pool = t.pool := rfl

theorem word_setNode (t : PageTable) (p : Nat) (node : Node) (q k : Nat) :
    (t.setNode p node).word q k = t.word q k := rfl

end Words

section Coherence

variable {j p : Nat}

/-- A directory word names a page in use, a leaf word one outside the pool. -/
structure Coherent (t : PageTable) : Prop where
  bound : ∀ p, (t.nodes p).used = true → p < t.pool.length
  blank : ∀ p, (t.nodes p).used = false → t.nodes p = Node.blank
  inner : ∀ p, (t.nodes p).used = true → (t.nodes p).level ≠ 0 → ∀ j < 512, t.word p j ≠ 0 →
    ∃ c, t.word p j = t.pde c ∧ (t.nodes c).used = true ∧ (t.nodes c).level + 1 = (t.nodes p).level
  leaves : ∀ p, (t.nodes p).used = true → (t.nodes p).level = 0 → ∀ j < 512, t.word p j ≠ 0 →
    ∃ dma pat writable, encodeSystemPte4K dma pat writable = some (t.word p j) ∧
      t.findDma dma = none

/-- The tree the words describe. Pages not in use do not count. -/
def view (t : PageTable) : Trie Nat Nat Nat where
  level p := if (t.nodes p).used = true then some (t.nodes p).level else none
  edge p j :=
    if (t.nodes p).used = true ∧ (t.nodes p).level ≠ 0 ∧ j < 512 ∧ t.word p j ≠ 0 then
      t.findDma (t.word p j &&& addressMask)
    else none
  leaf p j :=
    if (t.nodes p).used = true ∧ (t.nodes p).level = 0 ∧ j < 512 ∧ t.word p j ≠ 0 then
      some (t.word p j)
    else none

theorem view_level_eq_some {l : Nat} :
    t.view.level p = some l ↔ (t.nodes p).used = true ∧ (t.nodes p).level = l := by
  simp only [view, Option.ite_none_right_eq_some, Option.some.injEq]

theorem view_level_eq_none : t.view.level p = none ↔ (t.nodes p).used = false := by
  simp only [view, ite_eq_right_iff, reduceCtorEq, imp_false, Bool.not_eq_true]

theorem view_leaf_eq_some {v : Nat} :
    t.view.leaf p j = some v ↔ ((t.nodes p).used = true ∧ (t.nodes p).level = 0 ∧ j < 512 ∧
      t.word p j ≠ 0) ∧ t.word p j = v := by
  simp only [view, Option.ite_none_right_eq_some, Option.some.injEq]

theorem Ready.view_edge_eq_some (h : Ready t) (hc : Coherent t) {c : Nat} :
    t.view.edge p j = some c ↔ (t.nodes p).used = true ∧ (t.nodes p).level ≠ 0 ∧ j < 512 ∧
      t.word p j = t.pde c ∧ c < t.pool.length := by
  simp only [view, Option.ite_none_right_eq_some]
  constructor
  · rintro ⟨⟨hused, hlevel, hj, hword⟩, hfind⟩
    rcases hc.inner p hused hlevel j hj hword with ⟨d, hd, hdused, _⟩
    have hdlt := hc.bound d hdused
    rw [hd, h.findDma_pde hdlt] at hfind
    cases hfind
    exact ⟨hused, hlevel, hj, hd, hdlt⟩
  · rintro ⟨hused, hlevel, hj, hword, hlt⟩
    rw [hword]
    exact ⟨⟨hused, hlevel, hj, h.pde_ne_zero c⟩, h.findDma_pde hlt⟩

theorem Ready.view_edge_of_ne_zero (h : Ready t) (hc : Coherent t)
    (hused : (t.nodes p).used = true) (hlevel : (t.nodes p).level ≠ 0) (hj : j < 512)
    (hword : t.word p j ≠ 0) :
    ∃ c, t.view.edge p j = some c ∧ t.word p j = t.pde c ∧ (t.nodes c).used = true ∧
      (t.nodes c).level + 1 = (t.nodes p).level := by
  rcases hc.inner p hused hlevel j hj hword with ⟨c, hw, hcused, hclevel⟩
  exact ⟨c, (h.view_edge_eq_some hc).mpr ⟨hused, hlevel, hj, hw, hc.bound c hcused⟩, hw, hcused,
    hclevel⟩

/-- `child` follows the tree, and never finds anything invalid. -/
theorem Ready.child_eq (h : Ready t) (hc : Coherent t) {l : Nat}
    (hp : t.view.level p = some (l + 1)) (hj : j < 512) :
    t.child p j = match t.view.edge p j with
      | some c => .ok c
      | none => .error .notFound := by
  rcases view_level_eq_some.mp hp with ⟨hused, hlevel⟩
  have hne : (t.nodes p).level ≠ 0 := by omega
  by_cases hword : t.word p j = 0
  · have hnone : t.view.edge p j = none := if_neg (fun hat => hat.2.2.2 hword)
    rw [hnone, child, if_pos hword]
  · rcases h.view_edge_of_ne_zero hc hused hne hj hword with ⟨c, hedge, hpde, hcused, hclevel⟩
    have hclt := hc.bound c hcused
    rw [hedge, child, if_neg hword, hpde, h.findDma_pde hclt]
    refine if_neg ?_
    rw [h.encode hclt]
    rintro (hunused | hzero | hstep | hentry)
    · exact absurd (hunused.symm.trans hcused) (by decide)
    · exact hne hzero
    · exact hstep hclevel
    · exact hentry rfl

theorem Ready.empty_iff (h : Ready t) (hc : Coherent t)
    (hused : (t.nodes p).used = true) : t.empty p = true ↔ ¬ t.view.Inhabited p := by
  rw [empty, List.all_eq_true]
  simp only [List.mem_range, decide_eq_true_eq]
  constructor
  · rintro hzero (⟨j, c, hedge⟩ | ⟨j, v, hleaf⟩)
    · rcases (h.view_edge_eq_some hc).mp hedge with ⟨_, _, hj, hword, _⟩
      exact h.pde_ne_zero c (hword.symm.trans (hzero j hj))
    · rcases view_leaf_eq_some.mp hleaf with ⟨⟨_, _, hj, hword⟩, _⟩
      exact hword (hzero j hj)
  · intro hnone j hj
    by_contra hword
    by_cases hlevel : (t.nodes p).level = 0
    · exact hnone (Or.inr ⟨j, t.word p j, view_leaf_eq_some.mpr
        ⟨⟨hused, hlevel, hj, hword⟩, rfl⟩⟩)
    · rcases h.view_edge_of_ne_zero hc hused hlevel hj hword with ⟨c, hedge, _⟩
      exact hnone (Or.inl ⟨j, c, hedge⟩)

end Coherence

section Reading

variable {p : Nat}

def slot (va level : Nat) : Nat := (va >>> (12 + 9 * level)) &&& 511

theorem slot_lt (va level : Nat) : slot va level < 512 := by
  have h := @Nat.and_le_right (va >>> (12 + 9 * level)) 511
  unfold slot
  omega

theorem slot_eq (va level : Nat) : slot va level = va / 2 ^ (12 + 9 * level) % 512 := by
  rw [slot, Nat.shiftRight_eq_div_pow]
  exact Nat.and_two_pow_sub_one_eq_mod _ 9

/-- The entries passed on the way down from a level to the leaf table. -/
def path (va : Nat) : Nat → List Nat
  | 0 => []
  | level + 1 => slot va (level + 1) :: path va level

def mapped (t : PageTable) (va : Nat) : Option Nat := t.view.get 0 (path va 3) (slot va 0)

variable (hr : Ready t) (hc : Coherent t) (hs : t.view.Shape 0 3)

include hr hc hs in
theorem descend_eq (va : Nat) {l : Nat} (hp : t.view.level p = some l) :
    t.descend (slot va) l p = match t.view.walk p (path va l) with
      | some q => .ok q
      | none => .error .notFound := by
  induction l generalizing p with
  | zero => rfl
  | succ l ih =>
    rw [descend, hr.child_eq hc hp (slot_lt va _)]
    cases hedge : t.view.edge p (slot va (l + 1)) with
    | none =>
      rw [path, Trie.walk, hedge]
      rfl
    | some c =>
      rcases hs.edge _ _ _ hedge with ⟨m, hm, hcm⟩
      have hml : l = m := Nat.succ.inj (Option.some.inj (hp.symm.trans hm))
      rw [path, Trie.walk, hedge]
      exact ih (hml ▸ hcm)

include hc in
theorem leaf_valid {j v : Nat} (hleaf : t.view.leaf p j = some v) :
    ∃ dma pat writable, encodeSystemPte4K dma pat writable = some v ∧ t.findDma dma = none := by
  rcases view_leaf_eq_some.mp hleaf with ⟨⟨hused, hlevel, hj, hword⟩, rfl⟩
  exact hc.leaves p hused hlevel j hj hword

theorem pte_present {dma pat v : Nat} {writable : Bool}
    (h : encodeSystemPte4K dma pat writable = some v) : v &&& 1 = 1 ∧ v ≠ 0 := by
  rcases (encodeSystemPte4K_eq_some_iff _ _ _ _).mp h with ⟨hd, hp, rfl⟩
  exact ⟨pte_and_one hd hp, pte_ne_zero hd hp⟩

theorem view_leaf_eq {j : Nat} (hp : t.view.level p = some 0) (hj : j < 512) :
    t.view.leaf p j = if t.word p j = 0 then none else some (t.word p j) := by
  rcases view_level_eq_some.mp hp with ⟨hused, hlevel⟩
  by_cases hword : t.word p j = 0
  · rw [if_pos hword]
    exact if_neg (fun hat => hat.2.2.2 hword)
  · rw [if_neg hword]
    exact if_pos ⟨hused, hlevel, hj, hword⟩

include hr hc hs in
theorem lookup_eq {va : Nat} (halign : va &&& (pageSize - 1) = 0) (hva : va < vaLimit) :
    t.lookup t.owner va = match t.mapped va with
      | some v => .ok v
      | none => .error .notFound := by
  have hindices : pageTableIndices va = some (slot va) := if_neg (Nat.not_le.mpr hva)
  rw [lookup, if_neg (not_or.mpr ⟨hr.nonempty, not_not.mpr halign⟩), if_neg (not_not.mpr rfl),
    hindices, mapped, Trie.get]
  change (t.descend (slot va) 3 0 >>= _) = _
  rw [descend_eq hr hc hs va hs.top]
  cases hwalk : t.view.walk 0 (path va 3) with
  | none => rfl
  | some q =>
    have hq : t.view.level q = some 0 := (hs.walk_level hs.top hwalk).2
    have hleaf := view_leaf_eq hq (slot_lt va 0)
    change (if t.word q (slot va 0) = 0 then _ else _) = match t.view.leaf q (slot va 0) with
      | some v => Except.ok v
      | none => Except.error Status.notFound
    by_cases hword : t.word q (slot va 0) = 0
    · rw [hleaf, if_pos hword, if_pos hword]
    · rw [if_neg hword] at hleaf
      rcases leaf_valid hc hleaf with ⟨dma, pat, writable, henc, _⟩
      rw [if_neg hword, hleaf, if_neg (by rw [(pte_present henc).1]; decide)]

theorem page_eq_getElem (hp : p < t.pool.length) : t.page p = t.pool[p] :=
  List.getD_eq_getElem _ _ hp

include hr in
theorem find_page (hp : p < t.pool.length) :
    t.pool.find? (fun q => q.dma = (t.page p).dma) = some (t.page p) := by
  cases hfind : t.pool.find? (fun q => q.dma = (t.page p).dma) with
  | none =>
    have hself := List.find?_eq_none.mp hfind (t.pool[p]) (List.getElem_mem hp)
    rw [page_eq_getElem hp] at hself
    exact absurd (decide_eq_true rfl) hself
  | some x =>
    have hx : x.dma = (t.page p).dma := by
      simpa only [decide_eq_true_eq] using List.find?_some hfind
    rcases List.getElem_of_mem (List.mem_of_find?_eq_some hfind) with ⟨q, hq, rfl⟩
    rw [← page_eq_getElem hq] at hx ⊢
    rw [hr.distinct q hq p hp hx]

include hr in
theorem hardwareEntry_eq (hp : p < t.pool.length) (j : Nat) :
    hardwareEntry t.pool t.mem (t.page p).dma j
      = if t.word p j = 0 then none else some (t.word p j) := by
  rw [hardwareEntry, find_page hr hp]
  rfl

include hr hc in
theorem hardwareWalk_eq (va : Nat) {l : Nat} (hp : t.view.level p = some l) :
    hardwareWalk t.pool t.mem va l (t.page p).dma = t.view.get p (path va l) (slot va 0) := by
  induction l generalizing p with
  | zero =>
    have hlt := hc.bound p (view_level_eq_some.mp hp).1
    change hardwareEntry t.pool t.mem (t.page p).dma (slot va 0) = t.view.leaf p (slot va 0)
    rw [hardwareEntry_eq hr hlt, view_leaf_eq hp (slot_lt va 0)]
  | succ l ih =>
    rcases view_level_eq_some.mp hp with ⟨hused, hlevel⟩
    have hlt := hc.bound p hused
    change (hardwareEntry t.pool t.mem (t.page p).dma (slot va (l + 1))).bind
      (fun entry => hardwareWalk t.pool t.mem va l (entry &&& addressMask)) = _
    rw [hardwareEntry_eq hr hlt, path, Trie.get_cons]
    by_cases hword : t.word p (slot va (l + 1)) = 0
    · have hnone : t.view.edge p (slot va (l + 1)) = none := if_neg (fun hat => hat.2.2.2 hword)
      rw [if_pos hword, hnone]
      rfl
    · rcases hr.view_edge_of_ne_zero hc hused (by omega) (slot_lt va (l + 1)) hword with
        ⟨c, hedge, hpde, hcused, hclevel⟩
      rw [if_neg hword, hedge, hpde, Option.bind_some, Option.bind_some,
        hr.pde_address (hc.bound c hcused)]
      exact ih (view_level_eq_some.mpr ⟨hcused, by omega⟩)

end Reading

end PageTable

end Mellow.XeMemory
