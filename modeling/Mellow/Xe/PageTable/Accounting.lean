import Mathlib.Data.Set.Card
import Mellow.Xe.PageTable.Refine

/-!
# Every Table Page Is Accounted For

A table page is leaked when it is in use and nothing names it, or when it is
empty and never freed. A table serves the region of addresses that share its
upper bits, and is there exactly when the region holds a mapping; the route to
it spells out the region. So a mapping fails for want of pages exactly when more
regions of its address are empty than pages are unused.

## Main definitions

* `Tidy`: a page in use is named once, reached and not empty.
* `liveRegions`: the regions that hold a mapping.
* `toCreate`: how many tables a mapping needs.

## Theorems

* `run_tidy`: every reachable table is tidy.
-/

namespace Mellow.XeMemory

open Lib

namespace PageTable

variable {t : PageTable}

section Definitions

def Live (t : PageTable) (va : Nat) : Prop := ∃ pte, t.lookup t.owner va = .ok pte

/-- The part of an address above a table at the given level. -/
def region (va level : Nat) : Nat := va >>> (12 + 9 * (level + 1))

def liveRegions (t : PageTable) (level : Nat) : Set Nat :=
  {r | ∃ va, t.Live va ∧ region va level = r}

open Classical in
/-- How many tables mapping an address has to create. -/
noncomputable def toCreate (t : PageTable) (va : Nat) : Nat :=
  ∑ level ∈ Finset.range 3, if region va level ∈ t.liveRegions level then 0 else 1

structure Names (t : PageTable) (p j c : Nat) : Prop where
  used : (t.nodes p).used = true
  directory : (t.nodes p).level = (t.nodes c).level + 1
  index : j < 512
  word : t.word p j = t.pde c

/-- The pages in use are a tree, with nothing leaked, shared or exposed. -/
structure Tidy (t : PageTable) : Prop where
  root : t.nodes 0 = ⟨true, 3⟩
  below : ∀ p, (t.nodes p).used = true → p ≠ 0 → (t.nodes p).level < 3
  inPool : ∀ p, (t.nodes p).used = true → p < t.pool.length
  names : ∀ p, (t.nodes p).used = true → (t.nodes p).level ≠ 0 → ∀ j < 512, t.word p j ≠ 0 →
    ∃ c, t.Names p j c ∧ (t.nodes c).used = true
  parent : ∀ c, (t.nodes c).used = true → c ≠ 0 → ∃! e : Nat × Nat, t.Names e.1 e.2 c
  reached : ∀ c, (t.nodes c).used = true →
    Relation.ReflTransGen (fun p c => ∃ j, t.Names p j c) 0 c
  inhabited : ∀ c, (t.nodes c).used = true → c ≠ 0 → ∃ j < 512, t.word c j ≠ 0
  count : t.usedPages = 1 + (t.liveRegions 2).ncard + (t.liveRegions 1).ncard
    + (t.liveRegions 0).ncard
  hidden : ∀ p, (t.nodes p).used = true → (t.nodes p).level = 0 → ∀ j < 512, t.word p j ≠ 0 →
    ∀ q < t.pool.length, t.word p j &&& addressMask ≠ (t.page q).dma
  space : ∀ owner va dma pat writable pte, t.Mappable owner va dma pat writable pte →
    ¬ t.Live va → ((t.map4K owner va dma pat writable).1 = .noSpace ↔
      t.pool.length - t.usedPages < t.toCreate va)

end Definitions

section Digits

/-- The number with the given digits, most significant first. -/
def number (ds : List Nat) : Nat := ds.foldl (fun n d => n * 512 + d) 0

theorem number_concat (ds : List Nat) (d : Nat) : number (ds ++ [d]) = number ds * 512 + d := by
  rw [number, List.foldl_append]
  rfl

theorem number_inj {a b : List Nat} (hlen : a.length = b.length) (ha : ∀ d ∈ a, d < 512)
    (hb : ∀ d ∈ b, d < 512) (h : number a = number b) : a = b := by
  induction a using List.reverseRecOn generalizing b with
  | nil => exact (List.eq_nil_of_length_eq_zero hlen.symm).symm
  | append_singleton a d ih =>
    rcases List.eq_nil_or_concat b with rfl | ⟨b, e, rfl⟩
    · simp only [List.length_append, List.length_singleton, List.length_nil] at hlen
      omega
    · rw [List.concat_eq_append] at hlen hb h ⊢
      rw [number_concat, number_concat] at h
      have hd := ha d (List.mem_append_right _ List.mem_cons_self)
      have he := hb e (List.mem_append_right _ List.mem_cons_self)
      simp only [List.length_append, List.length_singleton, Nat.add_right_cancel_iff] at hlen
      rw [ih hlen (fun x hx => ha x (List.mem_append_left _ hx))
        (fun x hx => hb x (List.mem_append_left _ hx)) (by omega), show d = e by omega]

/-- The entries passed on the way from the root down to a level. -/
def upper (va level : Nat) : List Nat := (path va 3).take (3 - level)

theorem path_split (va : Nat) {l : Nat} (hl : l ≤ 3) : path va 3 = upper va l ++ path va l := by
  interval_cases l <;> rfl

theorem upper_length (va l : Nat) : (upper va l).length = 3 - l := by
  rw [upper, List.length_take]
  exact Nat.min_eq_left (Nat.sub_le 3 l)

theorem upper_lt (va l : Nat) : ∀ d ∈ upper va l, d < 512 := by
  intro d hd
  have hin := List.mem_of_mem_take hd
  simp only [path, List.mem_cons, List.not_mem_nil, or_false] at hin
  rcases hin with rfl | rfl | rfl <;> exact slot_lt va _

theorem number_upper {va l : Nat} (hva : Page va) (hl : l < 3) :
    number (upper va l) = region va l := by
  rcases (page_iff va).mp hva with ⟨_, hlt⟩
  rw [region, Nat.shiftRight_eq_div_pow]
  interval_cases l <;>
  · simp only [upper, path, slot_eq, number, List.take, List.foldl]
    norm_num
    omega

theorem exists_page {ds : List Nat} (hlen : ds.length = 3) (hds : ∀ d ∈ ds, d < 512) {i : Nat}
    (hi : i < 512) : ∃ va, Page va ∧ path va 3 = ds ∧ slot va 0 = i := by
  match ds, hlen with
  | [a, b, c], _ =>
    have ha := hds a List.mem_cons_self
    have hb := hds b (List.mem_cons_of_mem _ List.mem_cons_self)
    have hc := hds c (List.mem_cons_of_mem _ (List.mem_cons_of_mem _ List.mem_cons_self))
    refine ⟨(((a * 512 + b) * 512 + c) * 512 + i) * 4096, (page_iff _).mpr ⟨?_, ?_⟩, ?_, ?_⟩
    · norm_num
    · norm_num
      omega
    · simp only [path, slot_eq, List.cons.injEq, and_true]
      norm_num
      omega
    · simp only [slot_eq]
      norm_num
      omega

end Digits

section Regions

variable {va l p : Nat} {route : List Nat}

theorem Hole.live_iff (h : Inv t) (va : Nat) : t.Live va ↔ Page va ∧ t.mapped va ≠ none := by
  constructor
  · rintro ⟨pte, hlook⟩
    rcases lookup_cases h t.owner va with ⟨e, herr, _⟩ | ⟨v, _, hpage, _, hmap⟩
    · cases hlook.symm.trans herr
    · simp [*]
  · rintro ⟨hpage, hmap⟩
    rcases Option.ne_none_iff_exists'.mp hmap with ⟨v, hv⟩
    refine ⟨v, ?_⟩
    rw [lookup_eq h.ready h.coherent h.shape hpage.1 hpage.2, hv]

theorem Hole.walk_lt (h : Inv t) {q : Nat}
    (hwalk : t.view.walk p route = some q) : ∀ d ∈ route, d < 512 := by
  induction route generalizing p with
  | nil => exact fun d hd => absurd hd List.not_mem_nil
  | cons i route ih =>
    rcases Option.bind_eq_some_iff.mp hwalk with ⟨c, hc, hrest⟩
    intro d hd
    rcases List.mem_cons.mp hd with rfl | hd
    · exact ((h.ready.view_edge_eq_some h.coherent).mp hc).2.2.1
    · exact ih hrest d hd

/-- Below every table there is a mapping. -/
theorem Hole.live_under (h : Inv t) (hl : l < 3)
    (hroute : t.view.walk 0 route = some p) (hp : t.view.level p = some l) :
    ∃ va, t.Live va ∧ upper va l = route := by
  have hne : p ≠ 0 := by
    rintro rfl
    have := Option.some.inj (hp.symm.trans h.shape.top)
    omega
  rcases h.shape.live_below h.full hp hne with ⟨below, i, v, hbelow, hget⟩
  rcases Option.bind_eq_some_iff.mp hget with ⟨q, hq, hleaf⟩
  -- The route to the table and the rest of the way make a full path.
  have hfull : t.view.walk 0 (route ++ below) = some q := by
    rw [Trie.walk_append, hroute]
    exact hq
  have hlen : route.length = 3 - l := by
    rcases h.shape.walk_level h.shape.top hroute with ⟨hle, hlevel⟩
    have := Option.some.inj (hp.symm.trans hlevel)
    omega
  have hi : i < 512 := (view_leaf_eq_some.mp hleaf).1.2.2.1
  rcases exists_page (by rw [List.length_append]; omega) (h.walk_lt hfull) hi with
    ⟨va, hpage, hpath, hslot⟩
  refine ⟨va, (h.live_iff va).mpr ⟨hpage, ?_⟩, ?_⟩
  · simp [mapped, Trie.get, *]
  · rw [upper, hpath, ← hlen, List.take_left]

/-- A mapped address leads through a table at every level. -/
theorem Hole.walk_upper (h : Inv t) (hl : l < 3) (hlive : t.Live va) :
    ∃ p, t.view.walk 0 (upper va l) = some p ∧ t.view.level p = some l := by
  rcases Option.ne_none_iff_exists'.mp ((h.live_iff va).mp hlive).2 with ⟨v, hv⟩
  rcases Option.bind_eq_some_iff.mp hv with ⟨q, hq, _⟩
  rw [path_split va (Nat.le_of_lt hl), Trie.walk_append] at hq
  rcases Option.bind_eq_some_iff.mp hq with ⟨p, hp, _⟩
  refine ⟨p, hp, ?_⟩
  rw [(h.shape.walk_level h.shape.top hp).2, upper_length]
  congr 1
  omega

/-- A region holds a mapping exactly when its table is there. -/
theorem Hole.mem_liveRegions (h : Inv t) (hl : l < 3) (hva : Page va) :
    region va l ∈ t.liveRegions l ↔ ∃ p, t.view.walk 0 (upper va l) = some p := by
  constructor
  · rintro ⟨vb, hlive, hregion⟩
    have hvb := ((h.live_iff vb).mp hlive).1
    rw [← number_upper hva hl, ← number_upper hvb hl] at hregion
    have hsame := number_inj (by rw [upper_length, upper_length]) (upper_lt vb l) (upper_lt va l)
      hregion
    rcases h.walk_upper hl hlive with ⟨p, hp, _⟩
    exact ⟨p, hsame ▸ hp⟩
  · rintro ⟨p, hp⟩
    have hlevel := (h.shape.walk_level h.shape.top hp).2
    rw [upper_length, show 3 - (3 - l) = l by omega] at hlevel
    rcases h.live_under hl hp hlevel with ⟨vb, hlive, hupper⟩
    refine ⟨vb, hlive, ?_⟩
    rw [← number_upper hva hl, ← number_upper ((h.live_iff vb).mp hlive).1 hl, hupper]

open Classical in
/-- The number spelled by the route to a page. -/
noncomputable def routeNumber (t : PageTable) (p : Nat) : Nat :=
  if h : ∃ route, t.view.walk 0 route = some p then number h.choose else 0

theorem Hole.routeNumber_eq (h : Inv t)
    (hroute : t.view.walk 0 route = some p) : t.routeNumber p = number route := by
  have hex : ∃ route, t.view.walk 0 route = some p := ⟨route, hroute⟩
  rw [routeNumber, dif_pos hex, h.shape.walk_inj hex.choose_spec hroute]

/-- The tables at a level are as many as the regions that hold a mapping. -/
theorem Hole.ncard_level (h : Inv t) (hl : l < 3) :
    {p | t.view.level p = some l}.ncard = (t.liveRegions l).ncard := by
  have himage : t.liveRegions l = t.routeNumber '' {p | t.view.level p = some l} := by
    ext r
    constructor
    · rintro ⟨va, hlive, rfl⟩
      rcases h.walk_upper hl hlive with ⟨p, hp, hlevel⟩
      refine ⟨p, hlevel, ?_⟩
      rw [h.routeNumber_eq hp, number_upper ((h.live_iff va).mp hlive).1 hl]
    · rintro ⟨p, hlevel, rfl⟩
      rcases h.shape.walk_surj hlevel with ⟨route, hroute⟩
      rcases h.live_under hl hroute hlevel with ⟨va, hlive, hupper⟩
      refine ⟨va, hlive, ?_⟩
      rw [h.routeNumber_eq hroute, ← hupper, number_upper ((h.live_iff va).mp hlive).1 hl]
  have hinj : Set.InjOn t.routeNumber {p | t.view.level p = some l} := by
    intro p hp q hq heq
    rcases h.shape.walk_surj hp with ⟨rp, hrp⟩
    rcases h.shape.walk_surj hq with ⟨rq, hrq⟩
    rw [h.routeNumber_eq hrp, h.routeNumber_eq hrq] at heq
    have hlp := h.shape.walk_level h.shape.top hrp
    have hlq := h.shape.walk_level h.shape.top hrq
    have hlen : rp.length = rq.length := by
      have h1 := Option.some.inj (hlp.2.symm.trans hp)
      have h2 := Option.some.inj (hlq.2.symm.trans hq)
      have h3 := hlp.1
      have h4 := hlq.1
      omega
    have hsame := number_inj hlen (h.walk_lt hrp) (h.walk_lt hrq) heq
    rw [hsame] at hrp
    exact Option.some.inj (hrp.symm.trans hrq)
  rw [himage, hinj.ncard_image]

end Regions

section Counting

theorem usedPages_eq (hc : Coherent t) :
    t.usedPages = {p | (t.nodes p).used = true}.ncard := by
  have hset : {p | (t.nodes p).used = true}
      = ((Finset.range t.pool.length).filter fun p => (t.nodes p).used = true : Finset Nat) := by
    ext p
    simp only [Set.mem_ofPred_eq, Finset.coe_filter, Finset.mem_range]
    exact ⟨fun hp => ⟨hc.bound p hp, hp⟩, fun hp => hp.2⟩
  rw [hset, Set.ncard_coe_finset, usedPages, List.countP_eq_length_filter]
  change _ = ((List.range t.pool.length).filter fun p => decide ((t.nodes p).used = true)).length
  simp only [Bool.decide_eq_true]

theorem unusedPages_eq (t : PageTable) : t.unusedPages = t.pool.length - t.usedPages := by
  have hsum := List.length_eq_countP_add_countP (fun i => (t.nodes i).used)
    (l := List.range t.pool.length)
  rw [List.length_range] at hsum
  have hnot : (List.range t.pool.length).countP (fun i => decide ¬ (t.nodes i).used = true)
      = t.unusedPages := by
    refine List.countP_congr fun i _ => ?_
    simp only [Bool.not_eq_true, decide_eq_true_eq, Bool.not_eq_true']
  rw [hnot] at hsum
  have hused : t.usedPages = (List.range t.pool.length).countP fun i => (t.nodes i).used := rfl
  omega

theorem Hole.usedPages_eq_levels (h : Inv t) :
    t.usedPages = 1 + {p | t.view.level p = some 2}.ncard + {p | t.view.level p = some 1}.ncard
      + {p | t.view.level p = some 0}.ncard := by
  have hfin : ∀ l, {p | t.view.level p = some l}.Finite := fun l =>
    (Set.finite_lt_nat t.pool.length).subset
      (fun p hp => h.coherent.bound p (view_level_eq_some.mp hp).1)
  have hdisj : ∀ l m, l ≠ m →
      Disjoint {p | t.view.level p = some l} {p | t.view.level p = some m} := by
    intro l m hlm
    refine Set.disjoint_left.mpr (fun p hp hq => hlm ?_)
    exact Option.some.inj (hp.symm.trans hq)
  have htop : {p | t.view.level p = some 3} = {0} := by
    ext p
    constructor
    · intro hp
      by_contra hne
      have := h.shape.below p 3 hp hne
      omega
    · rintro rfl
      exact h.shape.top
  have hall : {p | (t.nodes p).used = true}
      = {p | t.view.level p = some 3} ∪ {p | t.view.level p = some 2}
        ∪ {p | t.view.level p = some 1} ∪ {p | t.view.level p = some 0} := by
    ext p
    simp only [Set.mem_union, Set.mem_ofPred_eq, view_level_eq_some, ← and_or_left]
    refine ⟨fun hp => ⟨hp, ?_⟩, fun hp => hp.1⟩
    by_cases hroot : p = 0
    · have htop := (view_level_eq_some.mp h.shape.top).2
      rw [hroot]
      omega
    · have := h.shape.below p _ (view_level_eq_some.mpr ⟨hp, rfl⟩) hroot
      omega
  rw [usedPages_eq h.coherent, hall,
    Set.ncard_union_eq (by
      simp only [Set.disjoint_union_left]
      exact ⟨⟨hdisj 3 0 (by decide), hdisj 2 0 (by decide)⟩, hdisj 1 0 (by decide)⟩)
      (((hfin 3).union (hfin 2)).union (hfin 1)) (hfin 0),
    Set.ncard_union_eq (by
      simp only [Set.disjoint_union_left]
      exact ⟨hdisj 3 1 (by decide), hdisj 2 1 (by decide)⟩) ((hfin 3).union (hfin 2)) (hfin 1),
    Set.ncard_union_eq (hdisj 3 2 (by decide)) (hfin 3) (hfin 2), htop, Set.ncard_singleton]

/-- The missing tables are those of the regions without a mapping. -/
theorem Hole.missing_eq (h : Inv t) {va : Nat} (hva : Page va) :
    t.missing va 3 0 = t.toCreate va := by
  have hmem2 : region va 2 ∈ t.liveRegions 2 ↔ ∃ p, t.view.edge 0 (slot va 3) = some p :=
    (h.mem_liveRegions (by omega) hva).trans (by
      simp only [upper, path, List.take, Trie.walk, Option.bind_fun_some])
  have hmem1 : region va 1 ∈ t.liveRegions 1 ↔ ∃ p c2, t.view.edge 0 (slot va 3) = some c2 ∧
      t.view.edge c2 (slot va 2) = some p :=
    (h.mem_liveRegions (by omega) hva).trans (by
      simp only [upper, path, List.take, Trie.walk, Option.bind_fun_some,
        Option.bind_eq_some_iff])
  have hmem0 : region va 0 ∈ t.liveRegions 0 ↔ ∃ p c2, t.view.edge 0 (slot va 3) = some c2 ∧
      ∃ c1, t.view.edge c2 (slot va 2) = some c1 ∧ t.view.edge c1 (slot va 1) = some p :=
    (h.mem_liveRegions (by omega) hva).trans (by
      simp only [upper, path, List.take, Trie.walk, Option.bind_fun_some,
        Option.bind_eq_some_iff])
  simp only [missing]
  rw [toCreate, Finset.sum_range_succ, Finset.sum_range_succ, Finset.sum_range_succ,
    Finset.sum_range_zero]
  -- The first table that is missing is followed by missing ones only.
  cases h3 : t.view.edge 0 (slot va 3) with
  | none => simp [*]
  | some c2 =>
    rw [h3] at hmem2 hmem1 hmem0
    cases h2 : t.view.edge c2 (slot va 2) with
    | none => simp [*]
    | some c1 =>
      have hin1 := hmem1.mpr ⟨c1, c2, rfl, h2⟩
      cases h1 : t.view.edge c1 (slot va 1) with
      | none => simp [*]
      | some c0 => simp [*]

end Counting

section Tidiness

theorem Hole.names_iff (h : Inv t) {p j c : Nat} :
    t.view.edge p j = some c ↔ t.Names p j c ∧ (t.nodes c).used = true := by
  constructor
  · intro hedge
    rcases (h.ready.view_edge_eq_some h.coherent).mp hedge with ⟨hused, hlevel, hj, hword, _⟩
    rcases h.shape.edge _ _ _ hedge with ⟨l, hp, hc⟩
    rcases view_level_eq_some.mp hp with ⟨_, hpl⟩
    rcases view_level_eq_some.mp hc with ⟨hcused, hcl⟩
    exact ⟨⟨hused, by omega, hj, hword⟩, hcused⟩
  · rintro ⟨hn, hcused⟩
    have hdir := hn.directory
    exact (h.ready.view_edge_eq_some h.coherent).mpr
      ⟨hn.used, by omega, hn.index, hn.word, h.coherent.bound c hcused⟩

/-- The route to a page is a chain of entries from the root. -/
theorem Hole.reached (h : Inv t) {c : Nat} (hc : (t.nodes c).used = true) :
    Relation.ReflTransGen (fun p c => ∃ j, t.Names p j c) 0 c := by
  rcases h.shape.walk_surj (view_level_eq_some.mpr ⟨hc, rfl⟩) with ⟨route, hroute⟩
  clear hc
  induction route using List.reverseRecOn generalizing c with
  | nil =>
    cases hroute
    exact .refl
  | append_singleton route j ih =>
    rcases Trie.walk_concat hroute with ⟨p, hp, hedge⟩
    exact (ih hp).tail ⟨j, (h.names_iff.mp hedge).1⟩

theorem Hole.hidden (h : Inv t) {p j : Nat} (hused : (t.nodes p).used = true)
    (hlevel : (t.nodes p).level = 0) (hj : j < 512) (hword : t.word p j ≠ 0) {q : Nat}
    (hq : q < t.pool.length) : t.word p j &&& addressMask ≠ (t.page q).dma := by
  rcases h.coherent.leaves p hused hlevel j hj hword with ⟨dma, pat, writable, henc, hfind⟩
  rcases (encodeSystemPte4K_eq_some_iff _ _ _ _).mp henc with ⟨hd, hp, heq⟩
  rw [heq, pte_and_addressMask hd hp]
  exact Ne.symm (findDma_none hfind hq)

theorem Hole.space (h : Inv t) {owner va dma pat : Nat} {writable : Bool} {pte : Nat}
    (hm : t.Mappable owner va dma pat writable pte) :
    (t.map4K owner va dma pat writable).1 = .noSpace ↔
      t.pool.length - t.usedPages < t.toCreate va := by
  rw [← unusedPages_eq, ← h.missing_eq hm.page]
  rcases hm.spec h with ⟨hs, hspace, _⟩ | ⟨hspace, hrest⟩
  · exact ⟨fun _ => hspace, fun _ => hs⟩
  · have hnot : ¬ t.unusedPages < t.missing va 3 0 := Nat.not_lt.mpr hspace
    rcases hrest with ⟨_, hmap, _⟩ | ⟨hs, _⟩
    · simp [*]
    · simp [*]

theorem Hole.tidy (h : Inv t) : Tidy t where
  root := by
    rcases view_level_eq_some.mp h.shape.top with ⟨hused, hlevel⟩
    rw [← hused, ← hlevel]
  below p hp hne := h.shape.below p _ (view_level_eq_some.mpr ⟨hp, rfl⟩) hne
  inPool := h.coherent.bound
  names p hp hl j hj hw := by
    rcases h.ready.view_edge_of_ne_zero h.coherent hp hl hj hw with ⟨c, hedge, _⟩
    exact ⟨c, h.names_iff.mp hedge⟩
  parent c hc hne := by
    rcases h.shape.parent c _ (view_level_eq_some.mpr ⟨hc, rfl⟩) hne with ⟨p, j, hedge⟩
    refine ⟨(p, j), (h.names_iff.mp hedge).1, fun e he => ?_⟩
    rcases h.shape.unique _ _ _ _ _ (h.names_iff.mpr ⟨he, hc⟩) hedge with ⟨hp, hj⟩
    exact Prod.ext hp hj
  reached c hc := h.reached hc
  inhabited c hc hne := by
    rcases h.full c _ (view_level_eq_some.mpr ⟨hc, rfl⟩) hne hne with ⟨j, d, hd⟩ | ⟨j, v, hv⟩
    · rcases (h.ready.view_edge_eq_some h.coherent).mp hd with ⟨_, _, hj, hword, _⟩
      exact ⟨j, hj, hword ▸ h.ready.pde_ne_zero d⟩
    · rcases view_leaf_eq_some.mp hv with ⟨⟨_, _, hj, hword⟩, _⟩
      exact ⟨j, hj, hword⟩
  count := by
    rw [h.usedPages_eq_levels, h.ncard_level (by omega), h.ncard_level (by omega),
      h.ncard_level (by omega)]
  hidden _ hp hl _ hj hw _ hq := h.hidden hp hl hj hw hq
  space _ _ _ _ _ _ hm _ := h.space hm

end Tidiness

/-- No table page is leaked or shared. After any calls on an initialised table,
    failed ones included, the pages in use are a tidy tree. -/
theorem run_tidy (mem : Nat → Nat) (owner : Nat) (pool : List TablePage) (pat : Nat)
    (h : ((fresh mem).initializePool owner pool pat).1 = .ok) (calls : List Call) :
    Tidy (((fresh mem).initializePool owner pool pat).2.run calls) :=
  ((holds_initializePool h).run calls).inv.tidy

/-- On three pages a mapping fails half-way for want of a fourth. -/
theorem run_tidy_three_pages :
    ((fresh fun _ => 0).initializePool 1
        [⟨0x1000, 0x10000⟩, ⟨0x2000, 0x11000⟩, ⟨0x3000, 0x12000⟩] 0).1 = .ok ∧
      Tidy (((fresh fun _ => 0).initializePool 1
        [⟨0x1000, 0x10000⟩, ⟨0x2000, 0x11000⟩, ⟨0x3000, 0x12000⟩] 0).2.run
          [.map4K 1 0x5000 0x9000 0 true]) :=
  ⟨by decide, run_tidy (fun _ => 0) 1
    [⟨0x1000, 0x10000⟩, ⟨0x2000, 0x11000⟩, ⟨0x3000, 0x12000⟩] 0 (by decide)
      [.map4K 1 0x5000 0x9000 0 true]⟩

end PageTable

end Mellow.XeMemory
