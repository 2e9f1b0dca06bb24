import Mathlib.Data.Finmap
import Mellow.Xe.PageTable.Ops

/-!
# The Tables Are a Finite Map

What the page table builder is for: a finite map from virtual pages to leaf
entries, computed from the calls and their statuses alone.

## Main definitions

* `Shadow`: that map.
* `Refines`: lookup, the hardware's walk and the counter agree with it.

## Theorems

* `Holds.step`: every call keeps the agreement.
* `run_refines`: the tables refine the map.
-/

namespace Mellow.XeMemory

open Lib Function

namespace PageTable

variable {t : PageTable}

section Initialize

variable {owner pat : Nat} {pool : List TablePage} {mem : Nat → Nat}

def pooled (mem : Nat → Nat) (owner : Nat) (pool : List TablePage) (pat : Nat) : PageTable :=
  { fresh mem with pool := pool, owner := owner, tablePat := pat }

structure Accepts (pool : List TablePage) (pat : Nat) : Prop where
  nonempty : pool ≠ []
  narrow : pat ≤ 3
  usable : ∀ p ∈ pool, p.Usable pat
  apart : pool.Pairwise fun q p => p.Apart q

/-- What a successful `initializePool` has accepted. -/
theorem initializePool_ok (h : ((fresh mem).initializePool owner pool pat).1 = .ok) :
    Accepts pool pat ∧ ((fresh mem).initializePool owner pool pat).2
      = ((pooled mem owner pool pat).clear 0).setNode 0 ⟨true, 3⟩ := by
  unfold initializePool at h ⊢
  rw [if_neg (fun hne => hne rfl)] at h ⊢
  by_cases hargs : owner = 0 ∨ pool = [] ∨ pool.length > maxPages ∨ pat > 3
  · rw [if_pos hargs] at h
    cases h
  rw [if_neg hargs] at h ⊢
  simp only [not_or, Nat.not_lt, gt_iff_lt] at hargs
  by_cases hpool : (∀ p ∈ pool, p.Usable pat) ∧ pool.Pairwise fun q p => p.Apart q
  · rw [if_neg (not_not.mpr hpool)]
    refine ⟨⟨hargs.2.1, hargs.2.2.2, hpool.1, hpool.2⟩, ?_⟩
    have hfirst : (List.range pool.length).find? (fun i => !((fresh mem).nodes i).used)
        = some 0 := by
      cases hlen : pool.length with
      | zero => exact absurd (List.length_eq_zero_iff.mp hlen) hargs.2.1
      | succ n =>
        rw [List.range_succ_eq_map]
        exact List.find?_cons_of_pos rfl
    change ((((pooled mem owner pool pat).allocate 3).map Prod.snd).getD _) = _
    rw [allocate, show (List.range (pooled mem owner pool pat).pool.length).find?
      (fun i => !((pooled mem owner pool pat).nodes i).used) = some 0 from hfirst]
    rfl
  · rw [if_pos hpool] at h
    cases h

theorem apart_words {p q : TablePage} (h : p.Apart q) {j k : Nat} (hj : j < 512) (hk : k < 512) :
    p.words + 8 * j ≠ q.words + 8 * k := by
  have hgap := h.2
  simp only [pageSize] at hgap
  by_cases hle : p.words ≤ q.words
  · rw [if_pos hle] at hgap
    omega
  · rw [if_neg hle] at hgap
    omega

theorem Accepts.ready (h : Accepts pool pat) : Ready (pooled mem owner pool pat) := by
  have hpage : ∀ p (hp : p < pool.length), (pooled mem owner pool pat).page p = pool[p] :=
    fun p hp => page_eq_getElem (t := pooled mem owner pool pat) hp
  -- Of two different pages one comes first, and the check compared them.
  have hapart : ∀ p (hp : p < pool.length) q (hq : q < pool.length), p ≠ q →
      (pool[p]).Apart pool[q] ∨ (pool[q]).Apart pool[p] := by
    intro p hp q hq hne
    have hall := List.pairwise_iff_getElem.mp h.apart
    rcases Nat.lt_or_gt_of_ne hne with hlt | hlt
    · exact Or.inr (hall p q hp hq hlt)
    · exact Or.inl (hall q p hq hp hlt)
  refine
    { nonempty := h.nonempty, pat := h.narrow, dma := (fun p hp => ?_)
      distinct := fun p hp q hq heq => ?_, separate := fun p hp q hq j hj k hk heq => ?_ }
  · rw [hpage p hp]
    rcases Option.isSome_iff_exists.mp (h.usable _ (List.getElem_mem hp)).2.2.2 with ⟨e, he⟩
    exact ((encodeSystemPde_eq_some_iff _ _ _).mp he).1
  · rw [hpage p hp, hpage q hq] at heq
    by_contra hne
    rcases hapart p hp q hq hne with hpq | hqp
    · exact hpq.1 heq
    · exact hqp.1 heq.symm
  · rw [address, address, hpage p hp, hpage q hq] at heq
    by_cases hpq : p = q
    · subst hpq
      exact ⟨rfl, by omega⟩
    · rcases hapart p hp q hq hpq with happ | happ
      · exact absurd heq (apart_words happ hj hk)
      · exact absurd heq.symm (apart_words happ hk hj)

theorem Ready.root_inv (h : Ready t) (hblank : ∀ p, t.nodes p = Node.blank) :
    Inv ((t.clear 0).setNode 0 ⟨true, 3⟩) ∧
      ∀ route i, ((t.clear 0).setNode 0 ⟨true, 3⟩).view.get 0 route i = none := by
  have hpos : 0 < t.pool.length := List.length_pos_iff.mpr h.nonempty
  have hpool : ((t.clear 0).setNode 0 ⟨true, 3⟩).pool = t.pool := by rw [setNode_pool, clear_pool]
  have hnodes : ((t.clear 0).setNode 0 ⟨true, 3⟩).nodes
      = update t.nodes 0 ⟨true, 3⟩ := by rw [setNode, clear_nodes]
  have hused : ∀ p, (((t.clear 0).setNode 0 ⟨true, 3⟩).nodes p).used = true → p = 0 := by
    intro p hp
    by_contra hne
    rw [hnodes, update_of_ne hne, hblank] at hp
    cases hp
  have hself : ((t.clear 0).setNode 0 ⟨true, 3⟩).nodes 0 = ⟨true, 3⟩ := by
    rw [hnodes, update_self]
  have hword : ∀ k < 512, ((t.clear 0).setNode 0 ⟨true, 3⟩).word 0 k = 0 := fun k hk => by
    rw [word_setNode, h.word_clear hpos hpos hk, if_pos rfl]
  have hready : Ready ((t.clear 0).setNode 0 ⟨true, 3⟩) :=
    h.congr hpool (by rw [setNode, clear_tablePat])
  have hunused : ∀ p, p ≠ 0 → ((t.clear 0).setNode 0 ⟨true, 3⟩).nodes p = Node.blank :=
    fun p hp => by rw [hnodes, update_of_ne hp, hblank]
  generalize (t.clear 0).setNode 0 ⟨true, 3⟩ = u at *
  have hedge : ∀ p j, u.view.edge p j = none := fun p j => by
    refine if_neg (fun hat => ?_)
    have hp := hused p hat.1
    subst hp
    exact hat.2.2.2 (hword j hat.2.2.1)
  have hleaf : ∀ p j, u.view.leaf p j = none := fun p j => by
    refine if_neg (fun hat => ?_)
    have hp := hused p hat.1
    subst hp
    exact hat.2.2.2 (hword j hat.2.2.1)
  have hlevel : ∀ p l, u.view.level p = some l → p = 0 ∧ l = 3 := fun p l hp => by
    rcases view_level_eq_some.mp hp with ⟨hup, rfl⟩
    refine ⟨hused p hup, ?_⟩
    rw [hused p hup, hself]
  refine ⟨⟨hready, ?_, ?_, ?_⟩, fun route i => Trie.get_none_of_empty (hedge 0) (hleaf 0) route i⟩
  · refine
      { bound := fun p hp => ?_, blank := fun p hp => hunused p (fun hz => ?_)
        inner := fun p hp _ j hj hw => ?_, leaves := fun p hp _ j hj hw => ?_ }
    · rw [hused p hp, hpool]
      exact hpos
    · rw [hz, hself] at hp
      cases hp
    · rw [hused p hp] at hw
      exact absurd (hword j hj) hw
    · rw [hused p hp] at hw
      exact absurd (hword j hj) hw
  · exact
      { top := view_level_eq_some.mpr (by rw [hself]; exact ⟨rfl, rfl⟩)
        below := fun p l hp hne => absurd (hlevel p l hp).1 hne
        edge := fun p j c hc => by rw [hedge] at hc; cases hc
        leaf := fun p j v hv => by rw [hleaf] at hv; cases hv
        parent := fun c l hc hne => absurd (hlevel c l hc).1 hne
        unique := fun p j q k c hc => by rw [hedge] at hc; cases hc }
  · exact fun c l hc hne => absurd (hlevel c l hc).1 hne

end Initialize

section Shadow

variable {va : Nat} {u : PageTable}

abbrev Shadow := Finmap fun _ : Nat => Nat

/-- What one call with its status does to the map. -/
def Shadow.record (m : Shadow) : Call × Status → Shadow
  | (.map4K _ va dma pat writable, .ok) =>
    match encodeSystemPte4K dma pat writable with
    | some pte => m.insert va pte
    | none => m
  | (.unmap4K _ va, .ok) => m.erase va
  | _ => m

def Shadow.replay (events : List (Call × Status)) : Shadow := events.foldl Shadow.record ∅

/-- Lookup and hardware return the map's values, and the counter its size. -/
structure Refines (owner : Nat) (t : PageTable) (m : Shadow) : Prop where
  lookup : ∀ va, Page va → t.lookup owner va = match m.lookup va with
    | some pte => .ok pte
    | none => .error .notFound
  hardware : ∀ va, Page va → hardwareWalk t.pool t.mem va 3 (t.page 0).dma = m.lookup va
  size : t.mappedPages = m.keys.card

/-- A call that succeeds had something to do. -/
def Shadow.Genuine (m : Shadow) : Call → Prop
  | .map4K _ va dma pat writable =>
    Page va ∧ va ∉ m ∧ ∃ pte, encodeSystemPte4K dma pat writable = some pte
  | .unmap4K _ va => Page va ∧ va ∈ m
  | _ => True

structure Holds (owner : Nat) (t : PageTable) (m : Shadow) : Prop where
  inv : Inv t
  owner : t.owner = owner
  mapped : ∀ va, Page va → t.mapped va = m.lookup va
  pages : ∀ va ∈ m, Page va
  size : t.mappings = m.keys.card

theorem Shadow.record_of_ne_ok (m : Shadow) {c : Call} {s : Status} (h : s ≠ .ok) :
    m.record (c, s) = m := by
  cases s with
  | ok => exact absurd rfl h
  | _ => cases c <;> rfl

theorem card_keys_insert {m : Shadow} {pte : Nat} (h : va ∉ m) :
    (m.insert va pte).keys.card = m.keys.card + 1 := by
  have hkeys : (m.insert va pte).keys = insert va m.keys := by
    ext x
    rw [Finset.mem_insert, Finmap.mem_keys, Finmap.mem_keys, Finmap.mem_insert]
  rw [hkeys, Finset.card_insert_of_notMem (fun hin => h (Finmap.mem_keys.mp hin))]

variable {owner : Nat} {m : Shadow}

/-- Sealing touches neither the words nor the tree. -/
theorem Hole.reseal (h : Inv t) : Inv { t with isSealed := true } where
  ready := h.ready.congr rfl rfl
  coherent := ⟨h.coherent.bound, h.coherent.blank, h.coherent.inner, h.coherent.leaves⟩
  shape := h.shape
  full := h.full

theorem Holds.mem_iff (h : Holds owner t m) (hva : Page va) :
    va ∈ m ↔ t.mapped va ≠ none := by
  rw [h.mapped va hva, Ne, Finmap.lookup_eq_none, not_not]

/-- A table that differs only in pages not in use holds the same map. -/
theorem Holds.same (h : Holds owner t m) (hsame : Same u t) : Holds owner u m where
  inv := hsame.hole h.inv
  owner := hsame.owner.trans h.owner
  mapped va hva := by
    rw [PageTable.mapped, hsame.view]
    exact h.mapped va hva
  pages := h.pages
  size := hsame.mappings.trans h.size

theorem Holds.insert {pte : Nat} (h : Holds owner t m) (hva : Page va)
    (hdone : MapDone t va pte u) : Holds owner u (m.insert va pte) where
  inv := hdone.inv
  owner := hdone.owner.trans h.owner
  mapped vb hvb := by
    rw [PageTable.mapped, hdone.gets]
    by_cases hab : vb = va
    · rw [if_pos ⟨by rw [hab], by rw [hab]⟩, hab, Finmap.lookup_insert]
    · rw [if_neg (fun hat => hab (page_inj hvb hva hat.1 hat.2)), Finmap.lookup_insert_of_ne _ hab]
      exact h.mapped vb hvb
  pages vb hvb := by
    rcases Finmap.mem_insert.mp hvb with rfl | hvb
    · exact hva
    · exact h.pages vb hvb
  size := by
    have hnew : va ∉ m := fun hin => (h.mem_iff hva).mp hin hdone.fresh
    rw [card_keys_insert hnew, hdone.mappings, h.size]

theorem Holds.erase (h : Holds owner t m)
    (hdone : UnmapDone t va u) : Holds owner u (m.erase va) where
  inv := hdone.inv
  owner := hdone.owner.trans h.owner
  mapped vb hvb := by
    rw [PageTable.mapped, hdone.gets]
    by_cases hab : vb = va
    · rw [if_pos ⟨by rw [hab], by rw [hab]⟩, hab, Finmap.lookup_erase]
    · rw [if_neg (fun hat => hab (page_inj hvb hdone.page hat.1 hat.2)), Finmap.lookup_erase_ne hab]
      exact h.mapped vb hvb
  pages vb hvb := h.pages vb (Finmap.mem_erase.mp hvb).2
  size := by
    have hin := Finmap.mem_keys.mpr ((h.mem_iff hdone.page).mpr hdone.present)
    rw [Finmap.keys_erase, Finset.card_erase_of_mem hin, hdone.mappings, h.size]

theorem Holds.refused (h : Holds owner t m) {c : Call} {s : Status} (hs : s ≠ .ok)
    (hsame : Same u t) : Holds owner u (m.record (c, s)) ∧ (s = .ok → m.Genuine c) := by
  rw [Shadow.record_of_ne_ok m hs]
  exact ⟨h.same hsame, fun hok => absurd hok hs⟩

/-- One call with its status keeps the tables and the map together. -/
theorem Holds.step (h : Holds owner t m) (c : Call) :
    Holds owner (t.step c).2 (m.record (c, (t.step c).1)) ∧
      ((t.step c).1 = .ok → m.Genuine c) := by
  cases c with
  | map4K o va dma pat writable =>
    simp only [PageTable.step]
    by_cases hm : ∃ pte, Mappable t o va dma pat writable pte
    · rcases hm with ⟨pte, hm⟩
      rcases hm.spec h.inv with ⟨hs, _, hsame⟩ | ⟨_, ⟨hs, _, hsame⟩ | ⟨hs, hdone⟩⟩
      · exact h.refused (by rw [hs]; decide) hsame
      · exact h.refused (by rw [hs]; decide) hsame
      · rw [hs, Shadow.record, hm.entry]
        refine ⟨h.insert hm.page hdone, fun _ => ⟨hm.page, fun hin => ?_, pte, hm.entry⟩⟩
        exact (h.mem_iff hm.page).mp hin hdone.fresh
    · rcases map4K_refuse hm with ⟨hs, _, hsame⟩
      exact h.refused hs (hsame.symm ▸ Same.refl t)
  | unmap4K o va =>
    simp only [PageTable.step]
    rcases unmap4K_spec h.inv o va with ⟨hs, hsame⟩ | ⟨hs, hdone⟩
    · exact h.refused hs (hsame.symm ▸ Same.refl t)
    · rw [hs]
      exact ⟨h.erase hdone, fun _ => ⟨hdone.page, (h.mem_iff hdone.page).mpr hdone.present⟩⟩
  | lookup o va => exact ⟨h, fun _ => trivial⟩
  | sealRoot o =>
    refine ⟨?_, fun _ => trivial⟩
    change Holds owner (t.sealRoot o).2 m
    unfold sealRoot
    by_cases hpool : t.pool = []
    · exact absurd hpool h.inv.ready.nonempty
    rw [if_neg hpool]
    by_cases howner : o ≠ t.owner
    · rw [if_pos howner]
      exact h
    · rw [if_neg howner]
      exact ⟨h.inv.reseal, h.owner, h.mapped, h.pages, h.size⟩

theorem Holds.run (h : Holds owner t m) (calls : List Call) :
    Holds owner (t.run calls) ((t.trace calls).foldl Shadow.record m) := by
  induction calls generalizing t m with
  | nil => exact h
  | cons c calls ih => exact ih (h.step c).1

theorem Holds.refines (h : Holds owner t m) : Refines owner t m where
  lookup va hva := by
    rw [← h.mapped va hva, ← h.owner]
    exact lookup_eq h.inv.ready h.inv.coherent h.inv.shape hva.1 hva.2
  hardware va hva := by
    rw [← h.mapped va hva]
    exact hardwareWalk_eq h.inv.ready h.inv.coherent va h.inv.shape.top
  size := h.size

theorem holds_initializePool {mem : Nat → Nat} {pool : List TablePage} {pat : Nat}
    (h : ((fresh mem).initializePool owner pool pat).1 = .ok) :
    Holds owner ((fresh mem).initializePool owner pool pat).2 ∅ := by
  rcases initializePool_ok h with ⟨haccepts, heq⟩
  rcases haccepts.ready.root_inv (fun _ => rfl) with ⟨hinv, hgets⟩
  rw [heq]
  refine
    { inv := hinv
      owner := ?_
      mapped := fun va _ => hgets _ _
      pages := fun va hva => absurd hva Finmap.notMem_empty
      size := ?_ }
  · rw [setNode, clear_eq]
    rfl
  · rw [setNode, clear_eq]
    rfl

end Shadow

/-- The tables are a finite map. After any calls on an initialised table, the
    owner's lookup and the hardware's walk return what the successful mappings
    and unmappings say, and the counter is the number of bindings. A mapping
    only succeeds on a page that is not mapped, an unmapping on one that is. -/
theorem run_refines (mem : Nat → Nat) (owner : Nat) (pool : List TablePage) (pat : Nat)
    (h : ((fresh mem).initializePool owner pool pat).1 = .ok) (calls : List Call) :
    Refines owner (((fresh mem).initializePool owner pool pat).2.run calls)
        (Shadow.replay (((fresh mem).initializePool owner pool pat).2.trace calls)) ∧
      ∀ c, ((((fresh mem).initializePool owner pool pat).2.run calls).step c).1 = .ok →
        (Shadow.replay (((fresh mem).initializePool owner pool pat).2.trace calls)).Genuine c := by
  have hrun := (holds_initializePool h).run calls
  exact ⟨hrun.refines, fun c => (hrun.step c).2⟩

/-- A pool of four pages, and one page mapped, unmapped and mapped again. -/
theorem run_refines_four_pages :
    ((fresh fun _ => 0).initializePool 1
        [⟨0x1000, 0x10000⟩, ⟨0x2000, 0x11000⟩, ⟨0x3000, 0x12000⟩, ⟨0x4000, 0x13000⟩] 0).1 = .ok ∧
      Refines 1 (((fresh fun _ => 0).initializePool 1
        [⟨0x1000, 0x10000⟩, ⟨0x2000, 0x11000⟩, ⟨0x3000, 0x12000⟩, ⟨0x4000, 0x13000⟩] 0).2.run
          [.map4K 1 0x5000 0x9000 0 true, .unmap4K 1 0x5000, .map4K 1 0x5000 0xa000 0 false])
        (Shadow.replay (((fresh fun _ => 0).initializePool 1
          [⟨0x1000, 0x10000⟩, ⟨0x2000, 0x11000⟩, ⟨0x3000, 0x12000⟩, ⟨0x4000, 0x13000⟩] 0).2.trace
            [.map4K 1 0x5000 0x9000 0 true, .unmap4K 1 0x5000, .map4K 1 0x5000 0xa000 0 false])) :=
  ⟨by decide, (run_refines (fun _ => 0) 1
    [⟨0x1000, 0x10000⟩, ⟨0x2000, 0x11000⟩, ⟨0x3000, 0x12000⟩, ⟨0x4000, 0x13000⟩] 0 (by decide)
      [.map4K 1 0x5000 0x9000 0 true, .unmap4K 1 0x5000, .map4K 1 0x5000 0xa000 0 false]).1⟩

end PageTable

end Mellow.XeMemory
