import Mellow.Xe.PageTable.View

/-!
# Edits of the Tables as Edits of the Tree

Allocating a page and naming it is `link`, writing a leaf word is `setLeaf`, and
freeing an empty page is `unlink`. Undoing an allocation restores the tree
exactly, but not the memory: the page has been cleared.

## Main definitions

* `Same`: equality up to pages that are not in use.
* `Growable`: a page can be linked here.

## Theorems

* `Growable.view`: linking a page links the tree.
* `Same.rollback`: a rollback restores the tables.
* `Ready.view_cut`: freeing a page unlinks it.
-/

namespace Mellow.XeMemory

open Lib Function

namespace PageTable

variable {t u w : PageTable}

section Frame

/-- A page's edges and leaves depend on its node and words only. -/
theorem view_edge_congr (hpool : u.pool = t.pool) {p j : Nat} (hnode : u.nodes p = t.nodes p)
    (hword : (t.nodes p).used = true → j < 512 → u.word p j = t.word p j) :
    u.view.edge p j = t.view.edge p j := by
  simp only [view, hnode]
  by_cases hat : (t.nodes p).used = true ∧ j < 512
  · rw [hword hat.1 hat.2, findDma_congr hpool]
  · rw [if_neg (fun h => hat ⟨h.1, h.2.2.1⟩), if_neg (fun h => hat ⟨h.1, h.2.2.1⟩)]

theorem view_leaf_congr {p j : Nat} (hnode : u.nodes p = t.nodes p)
    (hword : (t.nodes p).used = true → j < 512 → u.word p j = t.word p j) :
    u.view.leaf p j = t.view.leaf p j := by
  simp only [view, hnode]
  by_cases hat : (t.nodes p).used = true ∧ j < 512
  · rw [hword hat.1 hat.2]
  · rw [if_neg (fun h => hat ⟨h.1, h.2.2.1⟩), if_neg (fun h => hat ⟨h.1, h.2.2.1⟩)]

theorem view_level_congr {p : Nat} (hnode : u.nodes p = t.nodes p) :
    u.view.level p = t.view.level p := by
  simp only [view, hnode]

theorem pde_congr (hpool : u.pool = t.pool) (hpat : u.tablePat = t.tablePat) (p : Nat) :
    u.pde p = t.pde p := by
  rw [pde, pde, page_congr hpool, hpat]

/-- The tables have everything but nodes and words in common. -/
structure Kept (u t : PageTable) : Prop where
  pool : u.pool = t.pool
  pat : u.tablePat = t.tablePat
  owner : u.owner = t.owner
  isSealed : u.isSealed = t.isSealed
  mappings : u.mappings = t.mappings

theorem Kept.trans (h : Kept w u) (h' : Kept u t) : Kept w t where
  pool := h.pool.trans h'.pool
  pat := h.pat.trans h'.pat
  owner := h.owner.trans h'.owner
  isSealed := h.isSealed.trans h'.isSealed
  mappings := h.mappings.trans h'.mappings

theorem Kept.symm (h : Kept u t) : Kept t u :=
  ⟨h.pool.symm, h.pat.symm, h.owner.symm, h.isSealed.symm, h.mappings.symm⟩

/-- The tables differ at most in pages not in use. -/
structure Same (u t : PageTable) : Prop extends Kept u t where
  nodes : u.nodes = t.nodes
  words : ∀ p, (t.nodes p).used = true → ∀ j < 512, u.word p j = t.word p j

theorem Same.refl (t : PageTable) : Same t t :=
  ⟨⟨rfl, rfl, rfl, rfl, rfl⟩, rfl, fun _ _ _ _ => rfl⟩

theorem Same.trans (h : Same w u) (h' : Same u t) : Same w t where
  toKept := h.toKept.trans h'.toKept
  nodes := h.nodes.trans h'.nodes
  words p hp j hj := (h.words p (h'.nodes ▸ hp) j hj).trans (h'.words p hp j hj)

theorem Same.view (h : Same u t) : u.view = t.view := by
  refine Trie.ext (funext fun p => ?_) (funext fun p => funext fun j => ?_)
    (funext fun p => funext fun j => ?_)
  · exact view_level_congr (congrFun h.nodes p)
  · exact view_edge_congr h.pool (congrFun h.nodes p) (fun hp hj => h.words p hp j hj)
  · exact view_leaf_congr (congrFun h.nodes p) (fun hp hj => h.words p hp j hj)

theorem Same.ready (h : Same u t) (hr : Ready t) : Ready u := hr.congr h.pool h.pat

theorem Same.coherent (h : Same u t) (hc : Coherent t) : Coherent u := by
  refine
    { bound := fun p hp => ?_, blank := fun p hp => ?_, inner := fun p hp hl j hj hw => ?_,
      leaves := fun p hp hl j hj hw => ?_ }
  · rw [h.pool]
    exact hc.bound p (h.nodes ▸ hp)
  · rw [h.nodes] at hp ⊢
    exact hc.blank p hp
  · rw [h.nodes] at hp hl ⊢
    rw [h.words p hp j hj] at hw ⊢
    simp only [pde_congr h.pool h.pat]
    exact hc.inner p hp hl j hj hw
  · rw [h.nodes] at hp hl
    rw [h.words p hp j hj] at hw ⊢
    simp only [findDma_congr h.pool]
    exact hc.leaves p hp hl j hj hw

end Frame

section Grow

/-- Allocate page `c` for a level and name it in an entry of `p`. -/
def grow (t : PageTable) (p j c l : Nat) : PageTable :=
  ((t.clear c).setNode c ⟨true, l⟩).setWord p j (t.pde c)

/-- The entry is unset and the page is not in use. -/
structure Growable (t : PageTable) (p j c l : Nat) : Prop where
  parent : t.view.level p = some (l + 1)
  index : j < 512
  unset : t.word p j = 0
  child : c < t.pool.length
  unused : (t.nodes c).used = false

variable {p j c l : Nat}

theorem grow_kept (t : PageTable) (p j c l : Nat) : Kept (t.grow p j c l) t := by
  rw [grow, setWord, setNode, clear_eq]
  exact ⟨rfl, rfl, rfl, rfl, rfl⟩

theorem grow_pool (t : PageTable) (p j c l : Nat) : (t.grow p j c l).pool = t.pool :=
  (grow_kept t p j c l).pool

theorem grow_nodes (t : PageTable) (p j c l : Nat) :
    (t.grow p j c l).nodes = update t.nodes c ⟨true, l⟩ := by
  rw [grow, setWord, setNode, clear_nodes]

theorem Growable.ne (h : Growable t p j c l) : p ≠ c := by
  rintro rfl
  have hp := (view_level_eq_some.mp h.parent).1
  rw [h.unused] at hp
  cases hp

theorem Growable.edge (h : Growable t p j c l) : t.view.edge p j = none :=
  if_neg (fun hat => hat.2.2.2 h.unset)

theorem Growable.level (h : Growable t p j c l) : t.view.level c = none :=
  view_level_eq_none.mpr h.unused

theorem Growable.word (h : Growable t p j c l) (hr : Ready t) (hc : Coherent t) {q k : Nat}
    (hq : q < t.pool.length) (hk : k < 512) :
    (t.grow p j c l).word q k
      = if q = p ∧ k = j then t.pde c else if q = c then 0 else t.word q k := by
  have hp := hc.bound p (view_level_eq_some.mp h.parent).1
  have hpool : ((t.clear c).setNode c ⟨true, l⟩).pool = t.pool := by rw [setNode_pool, clear_pool]
  have hready : Ready ((t.clear c).setNode c ⟨true, l⟩) :=
    hr.congr hpool (by rw [setNode, clear_tablePat])
  rw [grow, hready.word_setWord (by rw [hpool]; exact hp) (by rw [hpool]; exact hq) h.index hk,
    word_setNode, hr.word_clear h.child hq hk]

/-- Growing the tables adds an empty node to the tree. -/
theorem Growable.view (h : Growable t p j c l) (hr : Ready t) (hc : Coherent t) :
    (t.grow p j c l).view = t.view.link p j c l := by
  have hpused := (view_level_eq_some.mp h.parent).1
  have hne := h.ne
  have hnode : ∀ q, q ≠ c → (t.grow p j c l).nodes q = t.nodes q := fun q hq => by
    rw [grow_nodes, update_of_ne hq]
  have hself : (t.grow p j c l).nodes c = ⟨true, l⟩ := by
    rw [grow_nodes, update_self]
  -- The new page reads zero everywhere.
  have hzero : ∀ k < 512, (t.grow p j c l).word c k = 0 := fun k hk => by
    rw [h.word hr hc h.child hk, if_neg (fun hat => hne hat.1.symm), if_pos rfl]
  refine Trie.ext (funext fun q => ?_) (funext fun q => funext fun k => ?_)
    (funext fun q => funext fun k => ?_)
  · by_cases hq : q = c
    · subst hq
      exact (view_level_eq_some.mpr (by rw [hself]; exact ⟨rfl, rfl⟩)).trans (if_pos rfl).symm
    · exact (view_level_congr (hnode q hq)).trans (if_neg hq).symm
  · by_cases hat : q = p ∧ k = j
    · rcases hat with ⟨rfl, rfl⟩
      rcases view_level_eq_some.mp h.parent with ⟨_, hlevel⟩
      have hword : (t.grow q k c l).word q k = t.pde c := by
        rw [h.word hr hc (hc.bound q hpused) h.index, if_pos ⟨rfl, rfl⟩]
      refine Eq.trans (if_pos ?_) (Eq.trans ?_ (if_pos ⟨rfl, rfl⟩).symm)
      · rw [hnode q hne, hword]
        exact ⟨hpused, by omega, h.index, hr.pde_ne_zero c⟩
      · rw [hword, findDma_congr (grow_pool t q k c l), hr.findDma_pde h.child]
    · refine Eq.trans ?_ (if_neg hat).symm
      by_cases hq : q = c
      · subst hq
        rw [show t.view.edge q k = none from if_neg (fun hat => by
          rw [h.unused] at hat; exact absurd hat.1 (by decide))]
        exact if_neg (fun hat => hat.2.2.2 (hzero k hat.2.2.1))
      · refine view_edge_congr (grow_pool t p j c l) (hnode q hq) fun hused hk => ?_
        rw [h.word hr hc (hc.bound q hused) hk, if_neg hat, if_neg hq]
  · by_cases hq : q = c
    · subst hq
      rw [show (t.view.link p j q l).leaf q k = none from if_neg (fun hat => by
        rw [h.unused] at hat; exact absurd hat.1 (by decide))]
      exact if_neg (fun hat => hat.2.2.2 (hzero k hat.2.2.1))
    · by_cases hat : q = p ∧ k = j
      · -- The changed entry belongs to a directory, which has no leaves.
        rcases hat with ⟨rfl, rfl⟩
        rcases view_level_eq_some.mp h.parent with ⟨_, hlevel⟩
        rw [show (t.view.link q k c l).leaf q k = none from if_neg (fun hat => by omega)]
        refine if_neg fun hat => ?_
        rw [hnode q hq] at hat
        omega
      · refine view_leaf_congr (hnode q hq) fun hused hk => ?_
        rw [h.word hr hc (hc.bound q hused) hk, if_neg hat, if_neg hq]

theorem Growable.coherent (h : Growable t p j c l) (hr : Ready t) (hc : Coherent t) :
    Coherent (t.grow p j c l) := by
  have hnode : ∀ q, q ≠ c → (t.grow p j c l).nodes q = t.nodes q := fun q hq => by
    rw [grow_nodes, update_of_ne hq]
  have hself : (t.grow p j c l).nodes c = ⟨true, l⟩ := by
    rw [grow_nodes, update_self]
  have hpde := pde_congr (grow_pool t p j c l) (grow_kept t p j c l).pat
  -- A word that is set is the new entry or an old word of an old page.
  have hcases : ∀ q k, ((t.grow p j c l).nodes q).used = true → k < 512 →
      (t.grow p j c l).word q k ≠ 0 → (q = p ∧ k = j ∧ (t.grow p j c l).word q k = t.pde c) ∨
        (q ≠ c ∧ (t.nodes q).used = true ∧ (t.grow p j c l).word q k = t.word q k) := by
    intro q k hq hk hw
    have hlt : q < t.pool.length := by
      by_cases hqc : q = c
      · exact hqc ▸ h.child
      · rw [hnode q hqc] at hq
        exact hc.bound q hq
    rw [h.word hr hc hlt hk] at hw ⊢
    by_cases hat : q = p ∧ k = j
    · exact Or.inl ⟨hat.1, hat.2, if_pos hat⟩
    · rw [if_neg hat] at hw ⊢
      by_cases hqc : q = c
      · exact absurd (if_pos hqc) hw
      · rw [if_neg hqc, hnode q hqc] at *
        exact Or.inr ⟨hqc, hq, rfl⟩
  have hplevel := (view_level_eq_some.mp h.parent).2
  refine
    { bound := fun q hq => ?_, blank := fun q hq => ?_, inner := fun q hq hl k hk hw => ?_,
      leaves := fun q hq hl k hk hw => ?_ }
  · rw [grow_pool]
    by_cases hqc : q = c
    · exact hqc ▸ h.child
    · rw [hnode q hqc] at hq
      exact hc.bound q hq
  · by_cases hqc : q = c
    · rw [hqc, hself] at hq
      cases hq
    · rw [hnode q hqc] at hq ⊢
      exact hc.blank q hq
  · simp only [hpde]
    rcases hcases q k hq hk hw with ⟨rfl, rfl, hnew⟩ | ⟨hqc, hused, hold⟩
    · refine ⟨c, hnew, ?_⟩
      rw [hself, hnode q h.ne]
      exact ⟨rfl, hplevel.symm⟩
    · rw [hnode q hqc] at hl ⊢
      rw [hold] at hw ⊢
      rcases hc.inner q hused hl k hk hw with ⟨d, hd, hdused, hdlevel⟩
      have hdc : d ≠ c := by
        rintro rfl
        rw [h.unused] at hdused
        cases hdused
      exact ⟨d, hd, by rw [hnode d hdc]; exact ⟨hdused, hdlevel⟩⟩
  · simp only [findDma_congr (grow_pool t p j c l)]
    rcases hcases q k hq hk hw with ⟨rfl, rfl, _⟩ | ⟨hqc, hused, hold⟩
    · rw [hnode q h.ne] at hl
      omega
    · rw [hnode q hqc] at hl
      rw [hold] at hw ⊢
      exact hc.leaves q hused hl k hk hw

end Grow

section Undo

/-- The edge lies inside the pool and the tables. -/
def InPool (t : PageTable) (e : Edge) : Prop :=
  e.parent < t.pool.length ∧ e.child < t.pool.length ∧ e.index < 512

theorem undo_kept (t : PageTable) (e : Edge) : Kept (t.undo e) t := by
  rw [undo, setNode, clear_eq, setWord]
  exact ⟨rfl, rfl, rfl, rfl, rfl⟩

theorem rollback_cons (t : PageTable) (e : Edge) (es : List Edge) :
    t.rollback (e :: es) = (t.undo e).rollback es := List.foldl_cons ..

theorem undo_nodes (t : PageTable) (e : Edge) :
    (t.undo e).nodes = update t.nodes e.child Node.blank := by
  rw [undo, setNode, clear_nodes, setWord]

theorem Ready.word_undo (hr : Ready t) {e : Edge} (he : InPool t e) {q k : Nat}
    (hq : q < t.pool.length) (hk : k < 512) :
    (t.undo e).word q k
      = if q = e.child then 0 else if q = e.parent ∧ k = e.index then 0 else t.word q k := by
  have hready : Ready (t.setWord e.parent e.index 0) := hr.congr rfl rfl
  rw [undo, word_setNode, hready.word_clear he.2.1 hq hk, hr.word_setWord he.1 hq he.2.2 hk]

/-- Undoing an edge does not look at pages that are not in use. -/
theorem Same.undo (h : Same u t) (hr : Ready t)
    (hbound : ∀ p, (t.nodes p).used = true → p < t.pool.length) {e : Edge} (he : InPool t e) :
    Same (u.undo e) (t.undo e) := by
  refine
    { toKept := ((undo_kept u e).trans h.toKept).trans (undo_kept t e).symm
      nodes := by rw [undo_nodes, undo_nodes, h.nodes]
      words := fun p hp j hj => ?_ }
  · rw [undo_nodes] at hp
    by_cases hpc : p = e.child
    · rw [hpc, update_self] at hp
      cases hp
    · rw [update_of_ne hpc] at hp
      have hlt := hbound p hp
      have heu : InPool u e := by rw [InPool, h.pool]; exact he
      rw [(h.ready hr).word_undo heu (h.pool ▸ hlt) hj, hr.word_undo he hlt hj, h.words p hp j hj]

theorem Same.rollback (h : Same u t) (hr : Ready t)
    (hbound : ∀ p, (t.nodes p).used = true → p < t.pool.length) {es : List Edge}
    (hes : ∀ e ∈ es, InPool t e) : Same (u.rollback es) (t.rollback es) := by
  induction es generalizing u t with
  | nil => exact h
  | cons e es ih =>
    have he := hes e List.mem_cons_self
    have hkept := undo_kept t e
    rw [rollback_cons, rollback_cons]
    refine ih (h.undo hr hbound he) (hr.congr hkept.pool hkept.pat) (fun p hp => ?_)
      fun f hf => ?_
    · rw [hkept.pool]
      rw [undo_nodes] at hp
      by_cases hpc : p = e.child
      · exact hpc ▸ he.2.1
      · rw [update_of_ne hpc] at hp
        exact hbound p hp
    · rw [InPool, hkept.pool]
      exact hes f (List.mem_cons_of_mem _ hf)

/-- Undoing the newest edge leaves only a page not in use changed. -/
theorem Growable.undo {p j c l : Nat} (h : Growable t p j c l) (hr : Ready t) (hc : Coherent t) :
    Same ((t.grow p j c l).undo ⟨p, c, j⟩) t := by
  have hp := hc.bound p (view_level_eq_some.mp h.parent).1
  have hready : Ready (t.grow p j c l) := hr.congr (grow_pool t p j c l) (grow_kept t p j c l).pat
  have hin : InPool (t.grow p j c l) ⟨p, c, j⟩ := by
    rw [InPool, grow_pool]
    exact ⟨hp, h.child, h.index⟩
  refine
    { toKept := (undo_kept _ _).trans (grow_kept t p j c l)
      nodes := ?_
      words := fun q hq k hk => ?_ }
  · rw [undo_nodes, grow_nodes, update_idem]
    exact update_eq_self_iff.mpr (hc.blank c h.unused).symm
  · have hqc : q ≠ c := by
      rintro rfl
      rw [h.unused] at hq
      cases hq
    have hlt := hc.bound q hq
    rw [hready.word_undo hin (by rw [grow_pool]; exact hlt) hk, if_neg hqc]
    by_cases hat : q = p ∧ k = j
    · rw [if_pos hat, hat.1, hat.2, h.unset]
    · rw [if_neg hat, h.word hr hc hlt hk, if_neg hat, if_neg hqc]

/-- So rolling back past a new edge is rolling back to where it was made. -/
theorem Growable.rollback {p j c l : Nat} (h : Growable t p j c l) (hr : Ready t)
    (hc : Coherent t) {es : List Edge} (hes : ∀ e ∈ es, InPool t e) :
    Same ((t.grow p j c l).rollback (⟨p, c, j⟩ :: es)) (t.rollback es) := by
  rw [rollback_cons]
  exact (h.undo hr hc).rollback hr hc.bound hes

end Undo

section Leaf

variable {p j : Nat}

theorem Ready.view_setLeaf (hr : Ready t) (hc : Coherent t) (hp : t.view.level p = some 0)
    (hj : j < 512) (v : Nat) :
    (t.setWord p j v).view = t.view.setLeaf p j (if v = 0 then none else some v) := by
  rcases view_level_eq_some.mp hp with ⟨hused, hlevel⟩
  have hlt := hc.bound p hused
  refine Trie.ext rfl (funext fun q => funext fun k => ?_) (funext fun q => funext fun k => ?_)
  · by_cases hq : q = p
    · -- A leaf table has no edges before or after.
      subst hq
      exact (if_neg (fun hat => hat.2.1 hlevel)).trans (if_neg (fun hat => hat.2.1 hlevel)).symm
    · refine view_edge_congr (setWord_pool t p j v) rfl fun hqused hk => ?_
      rw [hr.word_setWord hlt (hc.bound q hqused) hj hk, if_neg (fun hat => hq hat.1)]
  · by_cases hat : q = p ∧ k = j
    · rcases hat with ⟨rfl, rfl⟩
      have hword : (t.setWord q k v).word q k = v := by
        rw [hr.word_setWord hlt hlt hj hj, if_pos ⟨rfl, rfl⟩]
      rw [show (t.view.setLeaf q k (if v = 0 then none else some v)).leaf q k
        = if v = 0 then none else some v from if_pos ⟨rfl, rfl⟩,
        view_leaf_eq (t := t.setWord q k v) hp hj, hword]
    · refine Eq.trans (view_leaf_congr (t := t) rfl (fun hqused hk => ?_)) (if_neg hat).symm
      rw [hr.word_setWord hlt (hc.bound q hqused) hj hk, if_neg hat]

theorem Ready.coherent_setLeaf (hr : Ready t) (hc : Coherent t) (hp : t.view.level p = some 0)
    (hj : j < 512) {v : Nat} (hv : v ≠ 0 → ∃ dma pat writable,
      encodeSystemPte4K dma pat writable = some v ∧ t.findDma dma = none) :
    Coherent (t.setWord p j v) := by
  rcases view_level_eq_some.mp hp with ⟨hused, hlevel⟩
  have hlt := hc.bound p hused
  refine { bound := hc.bound, blank := hc.blank, inner := fun q hq hl k hk hw => ?_,
           leaves := fun q hq hl k hk hw => ?_ }
  · have hqp : q ≠ p := fun hqp => hl (hqp ▸ hlevel)
    rw [hr.word_setWord hlt (hc.bound q hq) hj hk, if_neg (fun hat => hqp hat.1)] at hw ⊢
    exact hc.inner q hq hl k hk hw
  · rw [hr.word_setWord hlt (hc.bound q hq) hj hk] at hw ⊢
    by_cases hat : q = p ∧ k = j
    · rw [if_pos hat] at hw ⊢
      exact hv hw
    · rw [if_neg hat] at hw ⊢
      exact hc.leaves q hq hl k hk hw

end Leaf

section Cut

variable {p j c : Nat}

/-- Free page `c` and unset the entry of `p` naming it. -/
def cut (t : PageTable) (p j c : Nat) : PageTable := (t.setWord p j 0).setNode c Node.blank

theorem cut_kept (t : PageTable) (p j c : Nat) : Kept (t.cut p j c) t :=
  ⟨rfl, rfl, rfl, rfl, rfl⟩

theorem Ready.word_cut (hr : Ready t) (hc : Coherent t) (hpc : t.view.edge p j = some c)
    {q k : Nat} (hq : q < t.pool.length) (hk : k < 512) :
    (t.cut p j c).word q k = if q = p ∧ k = j then 0 else t.word q k := by
  rcases (hr.view_edge_eq_some hc).mp hpc with ⟨hused, _, hj, _, _⟩
  exact hr.word_setWord (hc.bound p hused) hq hj hk 0

theorem Ready.view_cut (hr : Ready t) (hc : Coherent t) (hpc : t.view.edge p j = some c) :
    (t.cut p j c).view = t.view.unlink p j c := by
  have hnode : ∀ q, q ≠ c → (t.cut p j c).nodes q = t.nodes q :=
    fun q hq => update_of_ne hq _ _
  have hself : (t.cut p j c).nodes c = Node.blank := update_self ..
  rcases (hr.view_edge_eq_some hc).mp hpc with ⟨_, hlevel, _⟩
  refine Trie.ext (funext fun q => ?_) (funext fun q => funext fun k => ?_)
    (funext fun q => funext fun k => ?_)
  · by_cases hq : q = c
    · subst hq
      exact (view_level_eq_none.mpr (by rw [hself]; rfl)).trans (if_pos rfl).symm
    · exact (view_level_congr (hnode q hq)).trans (if_neg hq).symm
  · by_cases hq : q = c
    · subst hq
      refine Eq.trans (if_neg (fun hat => ?_)) (if_pos (Or.inl rfl)).symm
      rw [hself] at hat
      exact absurd hat.1 (by decide)
    · by_cases hat : q = p ∧ k = j
      · refine Eq.trans (if_neg (fun h => ?_)) (if_pos (Or.inr hat)).symm
        rw [hnode q hq] at h
        rw [hr.word_cut hc hpc (hc.bound q h.1) h.2.2.1, if_pos hat] at h
        exact h.2.2.2 rfl
      · refine Eq.trans (view_edge_congr (cut_kept t p j c).pool (hnode q hq) (fun hused hk => ?_))
          (if_neg (not_or.mpr ⟨hq, hat⟩)).symm
        rw [hr.word_cut hc hpc (hc.bound q hused) hk, if_neg hat]
  · by_cases hq : q = c
    · subst hq
      refine Eq.trans (if_neg (fun hat => ?_)) (if_pos rfl).symm
      rw [hself] at hat
      exact absurd hat.1 (by decide)
    · refine Eq.trans ?_ (if_neg hq).symm
      by_cases hat : q = p ∧ k = j
      · rcases hat with ⟨rfl, rfl⟩
        refine Eq.trans (if_neg (fun hat => ?_)) (if_neg (fun hat => hlevel hat.2.1)).symm
        rw [hnode q hq] at hat
        exact hlevel hat.2.1
      · refine view_leaf_congr (hnode q hq) fun hused hk => ?_
        rw [hr.word_cut hc hpc (hc.bound q hused) hk, if_neg hat]

/-- The page that is freed was named nowhere else. -/
theorem Ready.coherent_cut (hr : Ready t) (hc : Coherent t) (hs : t.view.Shape 0 3)
    (hpc : t.view.edge p j = some c) : Coherent (t.cut p j c) := by
  have hself : (t.cut p j c).nodes c = Node.blank := update_self ..
  have hused : ∀ q, ((t.cut p j c).nodes q).used = true →
      q ≠ c ∧ (t.cut p j c).nodes q = t.nodes q := by
    intro q hq
    have hqc : q ≠ c := by
      rintro rfl
      rw [hself] at hq
      cases hq
    exact ⟨hqc, update_of_ne hqc _ _⟩
  refine { bound := fun q hq => ?_, blank := fun q hq => ?_, inner := fun q hq hl k hk hw => ?_,
           leaves := fun q hq hl k hk hw => ?_ }
  · rw [(hused q hq).2] at hq
    exact hc.bound q hq
  · by_cases hqc : q = c
    · rw [hqc, hself]
    · rw [show (t.cut p j c).nodes q = t.nodes q from update_of_ne hqc _ _] at hq ⊢
      exact hc.blank q hq
  · rcases hused q hq with ⟨_, hnode⟩
    rw [hnode] at hq hl ⊢
    rw [hr.word_cut hc hpc (hc.bound q hq) hk] at hw ⊢
    by_cases hat : q = p ∧ k = j
    · rw [if_pos hat] at hw
      exact absurd rfl hw
    · rw [if_neg hat] at hw ⊢
      rcases hc.inner q hq hl k hk hw with ⟨d, hd, hdused, hdlevel⟩
      have hdc : d ≠ c := by
        rintro rfl
        have hedge := (hr.view_edge_eq_some hc).mpr ⟨hq, hl, hk, hd, hc.bound d hdused⟩
        exact hat (hs.unique q k p j d hedge hpc)
      refine ⟨d, hd, ?_⟩
      rw [show (t.cut p j c).nodes d = t.nodes d from update_of_ne hdc _ _]
      exact ⟨hdused, hdlevel⟩
  · rcases hused q hq with ⟨_, hnode⟩
    rw [hnode] at hq hl
    rw [hr.word_cut hc hpc (hc.bound q hq) hk] at hw ⊢
    by_cases hat : q = p ∧ k = j
    · rw [if_pos hat] at hw
      exact absurd rfl hw
    · rw [if_neg hat] at hw ⊢
      exact hc.leaves q hq hl k hk hw

end Cut

end PageTable

end Mellow.XeMemory
