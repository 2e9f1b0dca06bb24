import Mellow.Lib.Slots
import Mellow.Xe.PageTable.Edit

/-!
# Mapping and Unmapping

`map4K` creates the tables that are missing and writes the leaf, or rolls back.
`unmap4K` clears the leaf and frees the tables this leaves empty, from the
bottom up. While either is at work one table may be empty that must not stay so.
The loop of `map4K` fails exactly when more tables are missing than pages are
left.

## Main definitions

* `Hole`: the table that may be empty.
* `missing`: the tables a mapping would have to create.

## Theorems

* `Mappable.spec`: what `map4K` does.
* `unmap4K_spec`: what `unmap4K` does.
-/

namespace Mellow.XeMemory

open Lib

namespace PageTable

variable {t u : PageTable}

/-- The invariant of the tables, one node excepted from being inhabited. -/
structure Hole (t : PageTable) (node : Nat) : Prop where
  ready : Ready t
  coherent : Coherent t
  shape : t.view.Shape 0 3
  full : Trie.FullBut 0 t.view node

/-- The invariant between calls. The root may always be empty. -/
abbrev Inv (t : PageTable) : Prop := Hole t 0

theorem Same.hole (h : Same u t) {node : Nat} (ht : Hole t node) : Hole u node where
  ready := h.ready ht.ready
  coherent := h.coherent ht.coherent
  shape := h.view ▸ ht.shape
  full := h.view ▸ ht.full

section Build

variable {c j l level node p : Nat} {edits : List Edge}

def unusedPages (t : PageTable) : Nat :=
  (List.range t.pool.length).countP fun i => !(t.nodes i).used

def missing (t : PageTable) (va : Nat) : Nat → Nat → Nat
  | 0, _ => 0
  | level + 1, p => match t.view.edge p (slot va (level + 1)) with
    | some c => t.missing va level c
    | none => level + 1

theorem allocate_some (h : t.allocate l = some (c, u)) :
    c < t.pool.length ∧ (t.nodes c).used = false ∧ u = (t.clear c).setNode c ⟨true, l⟩ := by
  rcases Option.map_eq_some_iff.mp h with ⟨i, hi, heq⟩
  injection heq with hic hu
  subst hic
  refine ⟨List.mem_range.mp (List.mem_of_find?_eq_some hi), ?_, hu.symm⟩
  simpa only [Bool.not_eq_true'] using List.find?_some hi

theorem Ready.allocated_pde (h : Ready t) (hc : c < t.pool.length) (l : Nat) :
    encodeSystemPde (((t.clear c).setNode c ⟨true, l⟩).page c).dma
      ((t.clear c).setNode c ⟨true, l⟩).tablePat = some (t.pde c) := by
  have hpool : ((t.clear c).setNode c ⟨true, l⟩).pool = t.pool := by rw [setNode_pool, clear_pool]
  have hpat : ((t.clear c).setNode c ⟨true, l⟩).tablePat = t.tablePat := by
    rw [setNode, clear_tablePat]
  rw [page_congr hpool, hpat, h.encode hc]

theorem allocate_none (h : t.allocate l = none) : t.unusedPages = 0 := by
  have hnone := List.find?_eq_none.mp (Option.map_eq_none_iff.mp h)
  exact List.countP_eq_zero.mpr hnone

theorem Growable.unusedPages (h : Growable t p j c l) :
    t.unusedPages = (t.grow p j c l).unusedPages + 1 := by
  rw [PageTable.unusedPages, PageTable.unusedPages, grow_pool]
  refine countP_range_succ h.child ?_ ?_ fun i hi => ?_
  · rw [h.unused]
    rfl
  · rw [grow_nodes, Function.update_self]
    rfl
  · rw [grow_nodes, Function.update_of_ne hi]

theorem Growable.hole (h : Growable t p j c l) (ht : Hole t p) :
    Hole (t.grow p j c l) c where
  ready := ht.ready.congr (grow_kept t p j c l).pool (grow_kept t p j c l).pat
  coherent := h.coherent ht.ready ht.coherent
  shape := by
    rw [h.view ht.ready ht.coherent]
    exact ht.shape.shape_link h.parent h.edge h.level
  full := by
    rw [h.view ht.ready ht.coherent]
    exact Trie.fullBut_link ht.full

theorem Growable.missing (h : Growable t p j c l) (ht : Hole t p) (va : Nat) :
    (t.grow p j c l).missing va l c = l := by
  cases l with
  | zero => rfl
  | succ l =>
    have hnone : (t.grow p j c (l + 1)).view.edge c (slot va (l + 1)) = none := by
      rw [h.view ht.ready ht.coherent]
      refine Eq.trans (if_neg (fun hat => h.ne hat.1.symm)) ?_
      exact (ht.shape.absent h.level).1 _
    rw [PageTable.missing, hnone]

/-- What the loop of `map4K` has done once it reaches the leaf table. -/
structure Built (va level : Nat) (t : PageTable) (node : Nat) (edits : List Edge)
    (t' : PageTable) (leaf : Nat) (edits' : List Edge) : Prop where
  kept : Kept t' t
  hole : Hole t' leaf
  bottom : t'.view.level leaf = some 0
  arrives : t'.view.walk node (path va level) = some leaf
  edges : ∀ q k c, t.view.edge q k = some c → t'.view.edge q k = some c
  gets : ∀ route i, t'.view.get 0 route i = t.view.get 0 route i
  undoes : Same (t'.rollback edits') (t.rollback edits)
  inPool : ∀ e ∈ edits', InPool t' e

/-- At the leaf table, or out of pages with everything as it was. -/
def BuildPost (va level : Nat) (t : PageTable) (node : Nat) (edits : List Edge) :
    Except (Status × PageTable) (PageTable × Nat × List Edge) → Prop
  | .ok (t', leaf, edits') => t.missing va level node ≤ t.unusedPages ∧
      Built va level t node edits t' leaf edits'
  | .error (e, t') => e = .noSpace ∧ t.unusedPages < t.missing va level node ∧
      Same t' (t.rollback edits)

variable {r : Except (Status × PageTable) (PageTable × Nat × List Edge)}

theorem BuildPost.follow {va next : Nat}
    (hedge : t.view.edge node (slot va (level + 1)) = some next)
    (h : BuildPost va level t next edits r) : BuildPost va (level + 1) t node edits r := by
  have hmissing : t.missing va (level + 1) node = t.missing va level next := by
    rw [PageTable.missing, hedge]
  rcases r with ⟨e, t'⟩ | ⟨t', leaf, edits'⟩
  · rcases h with ⟨he, hspace, hsame⟩
    exact ⟨he, hmissing ▸ hspace, hsame⟩
  · rcases h with ⟨hspace, hb⟩
    refine ⟨hmissing ▸ hspace, { hb with arrives := ?_ }⟩
    rw [path, Trie.walk, hb.edges _ _ _ hedge]
    exact hb.arrives

theorem BuildPost.create {va : Nat} (hg : Growable t node (slot va (level + 1)) c level)
    (ht : Hole t node) (hes : ∀ e ∈ edits, InPool t e)
    (h : BuildPost va level (t.grow node (slot va (level + 1)) c level) c
      (⟨node, c, slot va (level + 1)⟩ :: edits) r) : BuildPost va (level + 1) t node edits r := by
  have hmissing : t.missing va (level + 1) node = level + 1 := by
    rw [PageTable.missing, hg.edge]
  have hbelow := hg.missing ht va
  have hspent := hg.unusedPages
  have hback := hg.rollback ht.ready ht.coherent hes
  have hroot : (0 : Nat) ≠ c := by
    rintro rfl
    cases hg.level.symm.trans ht.shape.top
  have hview := hg.view ht.ready ht.coherent
  rcases r with ⟨e, t'⟩ | ⟨t', leaf, edits'⟩
  · rcases h with ⟨he, hspace, hsame⟩
    exact ⟨he, by omega, hsame.trans hback⟩
  · rcases h with ⟨hspace, hb⟩
    refine ⟨by omega,
      { kept := hb.kept.trans (grow_kept _ _ _ _ _)
        hole := hb.hole
        bottom := hb.bottom
        arrives := ?_
        edges := fun q k d hd => hb.edges q k d ?_
        gets := fun route i => ?_
        undoes := hb.undoes.trans hback
        inPool := hb.inPool }⟩
    · have hnew : (t.grow node (slot va (level + 1)) c level).view.edge node (slot va (level + 1))
          = some c := by
        rw [hview]
        exact if_pos ⟨rfl, rfl⟩
      rw [path, Trie.walk, hb.edges _ _ _ hnew]
      exact hb.arrives
    · rw [hview]
      refine Eq.trans (if_neg ?_) hd
      rintro ⟨rfl, rfl⟩
      cases hg.edge.symm.trans hd
    · rw [hb.gets, hview]
      exact ht.shape.get_link hg.parent hg.edge hg.level hroot route i

/-- The loop of `map4K` ends in one of these two ways. -/
theorem build_spec (va : Nat) (h : Hole t node)
    (hn : t.view.level node = some level) (hes : ∀ e ∈ edits, InPool t e) :
    BuildPost va level t node edits (build (slot va) level t node edits) := by
  induction level generalizing t node edits with
  | zero =>
    exact ⟨Nat.zero_le _, ⟨⟨rfl, rfl, rfl, rfl, rfl⟩, h, hn, rfl, fun _ _ _ hq => hq,
      fun _ _ => rfl, Same.refl _, hes⟩⟩
  | succ level ih =>
    have hslot := slot_lt va (level + 1)
    have hchild := h.ready.child_eq h.coherent hn hslot
    cases hedge : t.view.edge node (slot va (level + 1)) with
    | some next =>
      rw [hedge] at hchild
      rw [build, hchild]
      -- A table with an entry is not the empty one.
      have hole : Hole t next := by
        refine ⟨h.ready, h.coherent, h.shape, fun c l hc hroot hne => ?_⟩
        by_cases hcn : c = node
        · exact Or.inl ⟨_, next, hcn ▸ hedge⟩
        · exact h.full c l hc hroot hcn
      rcases h.shape.edge _ _ _ hedge with ⟨m, hm, hnext⟩
      have hml : level = m := Nat.succ.inj (Option.some.inj (hn.symm.trans hm))
      exact .follow hedge (ih hole (hml ▸ hnext) hes)
    | none =>
      rw [hedge] at hchild
      rw [build, hchild]
      cases halloc : t.allocate level with
      | none =>
        have hzero := allocate_none halloc
        refine ⟨rfl, ?_, Same.refl _⟩
        rw [PageTable.missing, hedge]
        change t.unusedPages < level + 1
        omega
      | some r =>
        rcases r with ⟨c, t₁⟩
        rcases allocate_some halloc with ⟨hc, hunused, rfl⟩
        have hunset : t.word node (slot va (level + 1)) = 0 := by
          by_contra hword
          rcases view_level_eq_some.mp hn with ⟨hused, hlevel⟩
          rcases h.ready.view_edge_of_ne_zero h.coherent hused (by omega) hslot hword with
            ⟨d, hd, _⟩
          cases hedge.symm.trans hd
        have hg : Growable t node (slot va (level + 1)) c level :=
          ⟨hn, hslot, hunset, hc, hunused⟩
        have hentry := h.ready.allocated_pde hc level
        simp only [hentry]
        have hcreated := hg.hole h
        refine .create hg h hes (ih hcreated ?_ (fun e he => ?_))
        · rw [hg.view h.ready h.coherent]
          exact if_pos rfl
        · rw [InPool, grow_pool]
          rcases List.mem_cons.mp he with rfl | he
          · exact ⟨h.coherent.bound node (view_level_eq_some.mp hn).1, hc, hslot⟩
          · exact hes e he

end Build

section Map

/-- A page-aligned virtual address the tables can hold. -/
def Page (va : Nat) : Prop := va &&& (pageSize - 1) = 0 ∧ va < vaLimit

theorem page_iff (va : Nat) : Page va ↔ va % 2 ^ 12 = 0 ∧ va < 2 ^ 48 := by
  rw [Page, show va &&& (pageSize - 1) = va % 2 ^ 12 from Nat.and_two_pow_sub_one_eq_mod va 12,
    show vaLimit = 2 ^ 48 by decide]

theorem page_inj {va vb : Nat} (ha : Page va) (hb : Page vb) (hpath : path va 3 = path vb 3)
    (hslot : slot va 0 = slot vb 0) : va = vb := by
  rcases (page_iff va).mp ha with ⟨halign, hva⟩
  rcases (page_iff vb).mp hb with ⟨hblign, hvb⟩
  simp only [path, List.cons.injEq, and_true, slot_eq] at hpath hslot
  norm_num at hpath hslot
  omega

/-- The arguments `map4K` accepts, and the entry it writes for them. -/
structure Mappable (t : PageTable) (owner va dma pat : Nat) (writable : Bool) (pte : Nat) :
    Prop where
  page : Page va
  owner : owner = t.owner
  open_ : t.isSealed = false
  entry : encodeSystemPte4K dma pat writable = some pte
  outside : t.findDma dma = none

variable {owner va dma pat pte : Nat} {writable : Bool}

theorem pageTableIndices_eq (hva : va < vaLimit) : pageTableIndices va = some (slot va) :=
  if_neg (Nat.not_le.mpr hva)

/-- With arguments it accepts, `map4K` is the loop and the write. -/
theorem Mappable.map4K_eq (hm : Mappable t owner va dma pat writable pte) (hr : Ready t) :
    t.map4K owner va dma pat writable = match build (slot va) 3 t 0 [] with
      | .error failed => failed
      | .ok (t', node, edits) =>
        if t'.word node (slot va 0) ≠ 0 then (.busy, t'.rollback edits)
        else (.ok, { t'.setWord node (slot va 0) pte with mappings := t'.mappings + 1 }) := by
  rw [map4K, if_neg (not_or.mpr ⟨hr.nonempty, not_not.mpr hm.page.1⟩),
    if_neg (not_not.mpr hm.owner), if_neg (by rw [hm.open_]; decide)]
  rcases hbuild : build (slot va) 3 t 0 [] with failed | ⟨t', node, edits⟩
  · simp only [pageTableIndices_eq hm.page.2, hm.entry, hm.outside, hbuild]
  · simp only [pageTableIndices_eq hm.page.2, hm.entry, hm.outside, hbuild]

theorem map4K_refuse (h : ¬ ∃ pte, Mappable t owner va dma pat writable pte) :
    (t.map4K owner va dma pat writable).1 ≠ .ok ∧
      (t.map4K owner va dma pat writable).1 ≠ .noSpace ∧
      (t.map4K owner va dma pat writable).2 = t := by
  unfold map4K
  by_cases hargs : t.pool = [] ∨ va &&& (pageSize - 1) ≠ 0
  · rw [if_pos hargs]
    exact ⟨nofun, nofun, rfl⟩
  rw [if_neg hargs]
  by_cases howner : owner ≠ t.owner
  · rw [if_pos howner]
    exact ⟨nofun, nofun, rfl⟩
  rw [if_neg howner]
  by_cases hsealed : t.isSealed = true
  · rw [if_pos hsealed]
    exact ⟨nofun, nofun, rfl⟩
  rw [if_neg hsealed]
  by_cases hva : va < vaLimit
  · rw [pageTableIndices_eq hva]
    cases hentry : encodeSystemPte4K dma pat writable with
    | none => exact ⟨nofun, nofun, rfl⟩
    | some pte =>
      cases hfind : t.findDma dma with
      | some c => exact ⟨nofun, nofun, rfl⟩
      | none =>
        exact absurd ⟨pte, ⟨⟨not_not.mp (fun hne => hargs (Or.inr hne)), hva⟩,
          not_not.mp howner, Bool.not_eq_true _ ▸ hsealed, hentry, hfind⟩⟩ h
  · rw [show pageTableIndices va = none from if_pos (Nat.le_of_not_lt hva)]
    exact ⟨nofun, nofun, rfl⟩

structure MapDone (t : PageTable) (va pte : Nat) (t' : PageTable) : Prop where
  inv : Inv t'
  pool : t'.pool = t.pool
  owner : t'.owner = t.owner
  isSealed : t'.isSealed = t.isSealed
  mappings : t'.mappings = t.mappings + 1
  fresh : t.mapped va = none
  gets : ∀ route i, t'.view.get 0 route i
    = if route = path va 3 ∧ i = slot va 0 then some pte else t.view.get 0 route i

/-- What `map4K` does with arguments it accepts. -/
theorem Mappable.spec (hm : Mappable t owner va dma pat writable pte) (h : Inv t) :
    ((t.map4K owner va dma pat writable).1 = .noSpace ∧ t.unusedPages < t.missing va 3 0 ∧
        Same (t.map4K owner va dma pat writable).2 t) ∨
      (t.missing va 3 0 ≤ t.unusedPages ∧
        (((t.map4K owner va dma pat writable).1 = .busy ∧ t.mapped va ≠ none ∧
            Same (t.map4K owner va dma pat writable).2 t) ∨
          ((t.map4K owner va dma pat writable).1 = .ok ∧
            MapDone t va pte (t.map4K owner va dma pat writable).2))) := by
  have hpost : BuildPost va 3 t 0 [] (build (slot va) 3 t 0 []) :=
    build_spec va h h.shape.top (fun e he => absurd he List.not_mem_nil)
  rw [hm.map4K_eq h.ready]
  generalize build (slot va) 3 t 0 [] = result at hpost ⊢
  rcases result with ⟨e, t'⟩ | ⟨t', leaf, edits⟩
  · rcases hpost with ⟨rfl, hspace, hsame⟩
    exact Or.inl ⟨rfl, hspace, hsame⟩
  · rcases hpost with ⟨hspace, hb⟩
    refine Or.inr ⟨hspace, ?_⟩
    have hslot := slot_lt va 0
    -- The leaf table was reached along the path of the address.
    have hget : t.mapped va = t'.view.leaf leaf (slot va 0) := by
      rw [mapped, ← hb.gets, Trie.get, hb.arrives]
      rfl
    rw [view_leaf_eq hb.bottom hslot] at hget
    by_cases hword : t'.word leaf (slot va 0) ≠ 0
    · rw [if_neg hword] at hget
      refine Or.inl ?_
      simp only [if_pos hword]
      exact ⟨trivial, by rw [hget]; exact Option.some_ne_none _, hb.undoes⟩
    · rw [if_pos (not_not.mp hword)] at hget
      refine Or.inr ?_
      simp only [if_neg hword]
      have hvalid := (pte_present hm.entry).2
      have hview := hb.hole.ready.view_setLeaf hb.hole.coherent hb.bottom hslot pte
      rw [if_neg hvalid] at hview
      refine ⟨trivial,
        { inv :=
            { ready := hb.hole.ready.congr rfl rfl
              coherent := ?_
              shape := ?_
              full := ?_ }
          pool := hb.kept.pool
          owner := hb.kept.owner
          isSealed := hb.kept.isSealed
          mappings := congrArg (· + 1) hb.kept.mappings
          fresh := hget
          gets := fun route i => ?_ }⟩
      · have hc := hb.hole.ready.coherent_setLeaf hb.hole.coherent hb.bottom hslot
          (fun _ => ⟨dma, pat, writable, hm.entry,
          (findDma_congr hb.kept.pool dma).trans hm.outside⟩)
        exact ⟨hc.bound, hc.blank, hc.inner, hc.leaves⟩
      · change (t'.setWord leaf (slot va 0) pte).view.Shape 0 3
        rw [hview]
        exact hb.hole.shape.shape_setLeaf hb.bottom _
      · change Trie.FullBut 0 (t'.setWord leaf (slot va 0) pte).view 0
        rw [hview]
        exact Trie.fullBut_setLeaf hb.hole.full pte 0
      · change (t'.setWord leaf (slot va 0) pte).view.get 0 route i = _
        rw [hview, hb.hole.shape.get_setLeaf hb.arrives, hb.gets]

end Map

section Unmap

variable {above : List Nat}

/-- The tables above a node, nearest first, up to the root. -/
def Chain (t : PageTable) (va : Nat) : Nat → Nat → List Nat → Prop
  | _, node, [] => node = 0
  | level, node, parent :: above =>
    t.view.edge parent (slot va (level + 1)) = some node ∧ Chain t va (level + 1) parent above

/-- The descent of `unmap4K` follows a walk. -/
theorem trail_spec (h : Inv t) (va : Nat) {level node : Nat}
    (hn : t.view.level node = some level) (hchain : Chain t va level node above) :
    match t.view.walk node (path va level) with
    | some leaf => ∃ above', t.trail (slot va) level node above = .ok (leaf, above') ∧
        Chain t va 0 leaf above'
    | none => t.trail (slot va) level node above = .error .notFound := by
  induction level generalizing node above with
  | zero => exact ⟨above, rfl, hchain⟩
  | succ level ih =>
    have hchild := h.ready.child_eq h.coherent hn (slot_lt va (level + 1))
    rw [trail, hchild, path, Trie.walk]
    cases hedge : t.view.edge node (slot va (level + 1)) with
    | none => rfl
    | some next =>
      rcases h.shape.edge _ _ _ hedge with ⟨m, hm, hnext⟩
      have hml : level = m := Nat.succ.inj (Option.some.inj (hn.symm.trans hm))
      exact ih (hml ▸ hnext) ⟨hedge, hchain⟩

/-- Cutting off a node does not disturb the chain above its parent. -/
theorem Chain.cut {va l c p : Nat} (h : Hole t c) {j : Nat}
    (hc : t.view.level c = some l) (hpc : t.view.edge p j = some c) {m d : Nat}
    (hd : t.view.level d = some m) (hlm : l + 1 ≤ m) (hchain : Chain t va m d above) :
    Chain (t.cut p j c) va m d above := by
  rcases h.shape.edge _ _ _ hpc with ⟨lp, hp, hc'⟩
  have hlp : l = lp := Option.some.inj (hc.symm.trans hc')
  induction above generalizing m d with
  | nil => exact hchain
  | cons q above ih =>
    rcases hchain with ⟨hqd, hrest⟩
    rcases h.shape.edge _ _ _ hqd with ⟨n, hq, hd'⟩
    have hmn : m = n := Option.some.inj (hd.symm.trans hd')
    refine ⟨?_, ih (hmn ▸ hq) (by omega) hrest⟩
    rw [h.ready.view_cut h.coherent hpc]
    refine Eq.trans (if_neg ?_) hqd
    -- The edge starts two levels above the node that is cut off.
    rintro (rfl | ⟨rfl, _⟩)
    · have := Option.some.inj (hc.symm.trans hq)
      omega
    · have := Option.some.inj (hp.symm.trans hq)
      omega

/-- Cutting off an empty node moves the hole up to its parent. -/
theorem Hole.cut {c p j : Nat} (h : Hole t c) (hpc : t.view.edge p j = some c)
    (hempty : ¬ t.view.Inhabited c) : Hole (t.cut p j c) p where
  ready := h.ready.congr rfl rfl
  coherent := h.ready.coherent_cut h.coherent h.shape hpc
  shape := by
    rw [h.ready.view_cut h.coherent hpc]
    exact h.shape.shape_unlink hpc hempty
  full := by
    rw [h.ready.view_cut h.coherent hpc]
    exact Trie.fullBut_unlink h.full

/-- Pruning closes the hole and changes no leaf. -/
theorem prune_spec (va : Nat) {level node : Nat} (h : Hole t node)
    (hn : t.view.level node = some level) (hchain : Chain t va level node above) :
    Inv (prune (slot va) t level node above) ∧ Kept (prune (slot va) t level node above) t ∧
      ∀ route i, (prune (slot va) t level node above).view.get 0 route i
        = t.view.get 0 route i := by
  induction above generalizing t level node with
  | nil =>
    cases hchain
    exact ⟨h, ⟨rfl, rfl, rfl, rfl, rfl⟩, fun _ _ => rfl⟩
  | cons parent above ih =>
    rcases hchain with ⟨hpc, hrest⟩
    have hused := (view_level_eq_some.mp hn).1
    rw [prune]
    by_cases hempty : t.empty node = true
    · rw [if_pos hempty]
      have hnone := (h.ready.empty_iff h.coherent hused).mp hempty
      have hroot := h.shape.edge_ne_root hpc
      rcases h.shape.edge _ _ _ hpc with ⟨m, hp, hn'⟩
      have hlm : level = m := Option.some.inj (hn.symm.trans hn')
      subst hlm
      have hpn : parent ≠ node := by
        rintro rfl
        have := Option.some.inj (hn.symm.trans hp)
        omega
      have hlevel : (t.cut parent (slot va (level + 1)) node).view.level parent
          = some (level + 1) := by
        rw [h.ready.view_cut h.coherent hpc]
        exact (if_neg hpn).trans hp
      rcases ih (h.cut hpc hnone) hlevel (hrest.cut h hn hpc hp (Nat.le_refl _)) with
        ⟨hinv, hkept, hgets⟩
      refine ⟨hinv, hkept.trans (cut_kept t _ _ _), fun route i => (hgets route i).trans ?_⟩
      rw [h.ready.view_cut h.coherent hpc]
      exact h.shape.get_unlink hpc hnone (Ne.symm hroot) route i
    · rw [if_neg hempty]
      have hfull : t.view.Inhabited node := by
        by_contra hnone
        exact hempty ((h.ready.empty_iff h.coherent hused).mpr hnone)
      refine ⟨⟨h.ready, h.coherent, h.shape, fun c l hc hroot _ => ?_⟩,
        ⟨rfl, rfl, rfl, rfl, rfl⟩, fun _ _ => rfl⟩
      by_cases hcn : c = node
      · exact hcn ▸ hfull
      · exact h.full c l hc hroot hcn

structure UnmapDone (t : PageTable) (va : Nat) (t' : PageTable) : Prop where
  inv : Inv t'
  pool : t'.pool = t.pool
  owner : t'.owner = t.owner
  isSealed : t'.isSealed = t.isSealed
  mappings : t'.mappings = t.mappings - 1
  page : Page va
  present : t.mapped va ≠ none
  gets : ∀ route i, t'.view.get 0 route i
    = if route = path va 3 ∧ i = slot va 0 then none else t.view.get 0 route i

/-- A lookup refuses, or is the owner's of a page that is mapped. -/
theorem lookup_cases (h : Inv t) (owner va : Nat) :
    (∃ e, t.lookup owner va = .error e ∧ e ≠ .ok) ∨
      ∃ v, t.lookup owner va = .ok v ∧ Page va ∧ owner = t.owner ∧ t.mapped va = some v := by
  by_cases hgood : Page va ∧ owner = t.owner
  · rcases hgood with ⟨hpage, rfl⟩
    have heq := lookup_eq h.ready h.coherent h.shape hpage.1 hpage.2
    cases hmap : t.mapped va with
    | none => simp [*]
    | some v => simp [*]
  · refine Or.inl ?_
    unfold lookup
    by_cases hargs : t.pool = [] ∨ va &&& (pageSize - 1) ≠ 0
    · simp [*]
    rw [if_neg hargs]
    by_cases howner : owner ≠ t.owner
    · simp [*]
    rw [if_neg howner]
    have halign : va &&& (pageSize - 1) = 0 := not_not.mp (fun hne => hargs (Or.inr hne))
    have hva : ¬ va < vaLimit := fun hva => hgood ⟨⟨halign, hva⟩, not_not.mp howner⟩
    rw [show pageTableIndices va = none from if_pos (Nat.le_of_not_lt hva)]
    exact ⟨.invalid, rfl, nofun⟩

/-- `unmap4K` refuses and changes nothing, or removes one mapping. -/
theorem unmap4K_spec (h : Inv t) (owner va : Nat) :
    ((t.unmap4K owner va).1 ≠ .ok ∧ (t.unmap4K owner va).2 = t) ∨
      ((t.unmap4K owner va).1 = .ok ∧ UnmapDone t va (t.unmap4K owner va).2) := by
  unfold unmap4K
  by_cases hsealed : t.isSealed = true
  · rw [if_pos hsealed]
    exact Or.inl ⟨nofun, rfl⟩
  rw [if_neg hsealed]
  rcases lookup_cases h owner va with ⟨e, hlook, he⟩ | ⟨v, hlook, hpage, _, hmap⟩
  · rw [hlook]
    exact Or.inl ⟨he, rfl⟩
  · refine Or.inr ?_
    have htrail := trail_spec h va h.shape.top (show Chain t va 3 0 [] from rfl)
    rw [mapped, Trie.get] at hmap
    rcases Option.bind_eq_some_iff.mp hmap with ⟨leaf, hwalk, hleaf⟩
    rw [hwalk] at htrail
    rcases htrail with ⟨above, htrail, hchain⟩
    rw [hlook, pageTableIndices_eq hpage.2]
    simp only [Option.getD_some, htrail]
    have hslot := slot_lt va 0
    have hbottom : t.view.level leaf = some 0 := (h.shape.walk_level h.shape.top hwalk).2
    -- The table with the leaf word cleared, before any pruning.
    let t₁ : PageTable := { t.setWord leaf (slot va 0) 0 with mappings := t.mappings - 1 }
    have hview : t₁.view = t.view.setLeaf leaf (slot va 0) none :=
      h.ready.view_setLeaf h.coherent hbottom hslot 0
    have hcoherent := h.ready.coherent_setLeaf h.coherent hbottom hslot (v := 0)
      (fun hne => absurd rfl hne)
    have hole : Hole t₁ leaf :=
      { ready := h.ready.congr rfl rfl
        coherent := ⟨hcoherent.bound, hcoherent.blank, hcoherent.inner, hcoherent.leaves⟩
        shape := by
          rw [hview]
          exact h.shape.shape_setLeaf hbottom none
        full := by
          rw [hview]
          exact Trie.fullBut_unsetLeaf h.full }
    have hedges : ∀ {l d} {ps : List Nat}, Chain t va l d ps → Chain t₁ va l d ps := by
      intro l d ps
      induction ps generalizing l d with
      | nil => exact id
      | cons p ps ih =>
        rintro ⟨hpd, hrest⟩
        exact ⟨by rw [hview]; exact hpd, ih hrest⟩
    rcases prune_spec va hole (by rw [hview]; exact hbottom) (hedges hchain) with
      ⟨hinv, hkept, hgets⟩
    refine ⟨trivial,
      { inv := hinv
        pool := hkept.pool
        owner := hkept.owner
        isSealed := hkept.isSealed
        mappings := hkept.mappings
        page := hpage
        present := ?_
        gets := fun route i => ?_ }⟩
    · simp [mapped, Trie.get, *]
    · rw [hgets, hview, h.shape.get_setLeaf hwalk]

end Unmap

end PageTable

end Mellow.XeMemory
