import Mathlib.Data.List.Induction

/-!
# Radix Trees in a Pool of Nodes

A multi-level table is a tree only by discipline: nothing in the pool stops two
parents from naming the same child. Under the discipline a node is reached along
one path, so a change to one entry is invisible along every other.

Building a path leaves its newest node empty for a moment, and tearing one down
does the same from below.

## Main definitions

* `Trie`: the bare representation.
* `Shape`: every edge drops one level, and every node but the root has one
  parent entry.
* `FullBut`: no node is empty, with one exception.

## Theorems

* `Shape.walk_inj`: a node is reached along one path.
* `Shape.get_link`: a new edge changes no lookup.
* `Shape.get_setLeaf`: a new leaf changes one.
-/

namespace Mellow.Lib

/-- Nodes with their levels, the children their entries name and the values
    their entries hold. A node without a level is not allocated. -/
@[ext]
structure Trie (P I V : Type) where
  level : P → Option Nat
  edge : P → I → Option P
  leaf : P → I → Option V

namespace Trie

variable {P I V : Type} {t : Trie P I V} {root : P} {depth : Nat}

def walk (t : Trie P I V) : P → List I → Option P
  | p, [] => some p
  | p, i :: path => (t.edge p i).bind fun c => t.walk c path

def get (t : Trie P I V) (p : P) (path : List I) (i : I) : Option V :=
  (t.walk p path).bind fun q => t.leaf q i

def Inhabited (t : Trie P I V) (c : P) : Prop :=
  (∃ j d, t.edge c j = some d) ∨ ∃ j v, t.leaf c j = some v

/-- The tree discipline. -/
structure Shape (root : P) (depth : Nat) (t : Trie P I V) : Prop where
  top : t.level root = some depth
  below : ∀ p l, t.level p = some l → p ≠ root → l < depth
  edge : ∀ p j c, t.edge p j = some c → ∃ l, t.level p = some (l + 1) ∧ t.level c = some l
  leaf : ∀ p j v, t.leaf p j = some v → t.level p = some 0
  parent : ∀ c l, t.level c = some l → c ≠ root → ∃ p j, t.edge p j = some c
  unique : ∀ p j q k c, t.edge p j = some c → t.edge q k = some c → p = q ∧ j = k

/-- Every node but the root and possibly `h` has an entry set. -/
def FullBut (root : P) (t : Trie P I V) (h : P) : Prop :=
  ∀ c l, t.level c = some l → c ≠ root → c ≠ h → t.Inhabited c

section Walk

variable {c p : P}

theorem walk_append (t : Trie P I V) (p : P) (a b : List I) :
    t.walk p (a ++ b) = (t.walk p a).bind fun q => t.walk q b := by
  induction a generalizing p with
  | nil => rfl
  | cons i a ih => simp [List.cons_append, walk, Option.bind_assoc, *]

theorem walk_concat {path : List I} {i : I}
    (h : t.walk p (path ++ [i]) = some c) : ∃ q, t.walk p path = some q ∧ t.edge q i = some c := by
  rw [walk_append] at h
  rcases Option.bind_eq_some_iff.mp h with ⟨q, hq, hlast⟩
  refine ⟨q, hq, ?_⟩
  simpa only [walk, Option.bind_fun_some] using hlast

theorem Shape.walk_level (h : Shape root depth t) {q : P} {path : List I} {l : Nat}
    (hp : t.level p = some l) (hw : t.walk p path = some q) :
    path.length ≤ l ∧ t.level q = some (l - path.length) := by
  induction path generalizing p l with
  | nil =>
    cases hw
    exact ⟨Nat.zero_le l, hp⟩
  | cons i path ih =>
    rcases Option.bind_eq_some_iff.mp hw with ⟨c, hc, hrest⟩
    rcases h.edge p i c hc with ⟨m, hm, hlc⟩
    have hl : l = m + 1 := Option.some.inj (hp.symm.trans hm)
    rcases ih hlc hrest with ⟨hlen, hlq⟩
    subst hl
    refine ⟨Nat.succ_le_succ hlen, ?_⟩
    rw [hlq, List.length_cons, Nat.add_sub_add_right]

theorem Shape.edge_ne_root (h : Shape root depth t) {j : I} (hc : t.edge p j = some c) :
    c ≠ root := by
  rintro rfl
  rcases h.edge p j c hc with ⟨l, hp, hroot⟩
  have hl : depth = l := Option.some.inj (h.top.symm.trans hroot)
  by_cases hpc : p = c
  · rw [hpc, h.top] at hp
    have := Option.some.inj hp
    omega
  · have := h.below p _ hp hpc
    omega

/-- Paths of one length to a node are the same path. -/
theorem Shape.walk_inj_length (h : Shape root depth t) {a b : List I}
    (hlen : a.length = b.length) (ha : t.walk root a = some c) (hb : t.walk root b = some c) :
    a = b := by
  induction a using List.reverseRecOn generalizing b c with
  | nil => exact (List.eq_nil_of_length_eq_zero hlen.symm).symm
  | append_singleton a i ih =>
    rcases List.eq_nil_or_concat b with rfl | ⟨b, k, rfl⟩
    · simp only [List.length_append, List.length_singleton, List.length_nil] at hlen
      omega
    · rw [List.concat_eq_append] at hlen hb ⊢
      rcases walk_concat ha with ⟨p, hp, hpc⟩
      rcases walk_concat hb with ⟨q, hq, hqc⟩
      rcases h.unique p i q k c hpc hqc with ⟨rfl, rfl⟩
      simp only [List.length_append, List.length_singleton, Nat.add_right_cancel_iff] at hlen
      rw [ih hlen hp hq]

theorem Shape.walk_inj (h : Shape root depth t) {a b : List I}
    (ha : t.walk root a = some c) (hb : t.walk root b = some c) : a = b := by
  refine h.walk_inj_length ?_ ha hb
  rcases h.walk_level h.top ha with ⟨hla, hca⟩
  rcases h.walk_level h.top hb with ⟨hlb, hcb⟩
  have := Option.some.inj (hca.symm.trans hcb)
  omega

theorem Shape.walk_surj (h : Shape root depth t) {l : Nat} (hc : t.level c = some l) :
    ∃ path, t.walk root path = some c := by
  -- Climb to the parent, which is one level nearer the root.
  induction hn : depth - l generalizing c l with
  | zero =>
    by_cases hroot : c = root
    · exact ⟨[], by rw [hroot]; rfl⟩
    · have := h.below c l hc hroot
      omega
  | succ n ih =>
    by_cases hroot : c = root
    · exact ⟨[], by rw [hroot]; rfl⟩
    · rcases h.parent c l hc hroot with ⟨p, j, hpc⟩
      rcases h.edge p j c hpc with ⟨m, hp, hlc⟩
      have hm : l = m := Option.some.inj (hc.symm.trans hlc)
      subst hm
      rcases ih hp (by omega) with ⟨path, hpath⟩
      refine ⟨path ++ [j], ?_⟩
      rw [walk_append, hpath]
      simp only [Option.bind_some, walk, hpc]

theorem get_cons (t : Trie P I V) (p : P) (k : I) (path : List I) (i : I) :
    t.get p (k :: path) i = (t.edge p k).bind fun c => t.get c path i := by
  simp only [get, walk, Option.bind_assoc]

theorem Shape.live_below (h : Shape root depth t) (hfull : FullBut root t root) {l : Nat}
    (hc : t.level c = some l) (hroot : c ≠ root) :
    ∃ path i v, path.length = l ∧ t.get c path i = some v := by
  induction l generalizing c with
  | zero =>
    rcases hfull c 0 hc hroot hroot with ⟨j, d, hd⟩ | ⟨j, v, hv⟩
    · rcases h.edge c j d hd with ⟨m, hm, _⟩
      cases hc.symm.trans hm
    · exact ⟨[], j, v, rfl, hv⟩
  | succ l ih =>
    rcases hfull c _ hc hroot hroot with ⟨j, d, hd⟩ | ⟨j, v, hv⟩
    · rcases h.edge c j d hd with ⟨m, hm, hld⟩
      have hml : l = m := Nat.succ.inj (Option.some.inj (hc.symm.trans hm))
      subst hml
      rcases ih hld (h.edge_ne_root hd) with ⟨path, i, v, hlen, hv⟩
      refine ⟨j :: path, i, v, by rw [List.length_cons, hlen], ?_⟩
      rw [get_cons, hd]
      exact hv
    · cases hc.symm.trans (h.leaf c j v hv)

theorem Shape.absent (h : Shape root depth t) (hc : t.level c = none) :
    (∀ k, t.edge c k = none) ∧ (∀ k, t.leaf c k = none) ∧ ∀ q k, t.edge q k ≠ some c := by
  refine ⟨fun k => ?_, fun k => ?_, fun q k hq => ?_⟩
  · by_contra hne
    rcases Option.ne_none_iff_exists'.mp hne with ⟨d, hd⟩
    rcases h.edge c k d hd with ⟨m, hm, _⟩
    cases hc.symm.trans hm
  · by_contra hne
    rcases Option.ne_none_iff_exists'.mp hne with ⟨v, hv⟩
    cases hc.symm.trans (h.leaf c k v hv)
  · rcases h.edge q k c hq with ⟨m, _, hm⟩
    cases hc.symm.trans hm

theorem get_none_of_empty (hedge : ∀ k, t.edge c k = none) (hleaf : ∀ k, t.leaf c k = none)
    (path : List I) (i : I) : t.get c path i = none := by
  cases path with
  | nil => exact hleaf i
  | cons k path => rw [get_cons, hedge k, Option.bind_none]

end Walk

section Changes

variable [DecidableEq P] [DecidableEq I] {p c : P} {j : I} {l : Nat}

/-- Allocate `c` at a level and name it in an entry of `p`. -/
def link (t : Trie P I V) (p : P) (j : I) (c : P) (l : Nat) : Trie P I V where
  level q := if q = c then some l else t.level q
  edge q k := if q = p ∧ k = j then some c else t.edge q k
  leaf := t.leaf

/-- Free `c`, with whatever it holds, and unset the entry of `p` naming it. -/
def unlink (t : Trie P I V) (p : P) (j : I) (c : P) : Trie P I V where
  level q := if q = c then none else t.level q
  edge q k := if q = c ∨ (q = p ∧ k = j) then none else t.edge q k
  leaf q k := if q = c then none else t.leaf q k

/-- Set or unset one value. -/
def setLeaf (t : Trie P I V) (p : P) (j : I) (o : Option V) : Trie P I V where
  level := t.level
  edge := t.edge
  leaf q k := if q = p ∧ k = j then o else t.leaf q k

theorem Shape.get_link (h : Shape root depth t) (hp : t.level p = some (l + 1))
    (hj : t.edge p j = none) (hc : t.level c = none) {q : P} (hq : q ≠ c) (path : List I) (i : I) :
    (t.link p j c l).get q path i = t.get q path i := by
  have hpc : p ≠ c := by
    rintro rfl
    cases hc.symm.trans hp
  rcases h.absent hc with ⟨hedge, hleaf, hparent⟩
  induction path generalizing q with
  | nil => rfl
  | cons k path ih =>
    rw [get_cons, get_cons]
    by_cases hqk : q = p ∧ k = j
    · -- The only new edge leads to the empty node.
      rcases hqk with ⟨rfl, rfl⟩
      rw [hj, Option.bind_none, show (t.link q k c l).edge q k = some c from if_pos ⟨rfl, rfl⟩]
      rw [Option.bind_some]
      refine get_none_of_empty (t := t.link q k c l) (fun k' => ?_) hleaf path i
      exact (if_neg (fun hc' => hpc hc'.1.symm)).trans (hedge k')
    · rw [show (t.link p j c l).edge q k = t.edge q k from if_neg hqk]
      cases hd : t.edge q k with
      | none => rfl
      | some d => exact ih (fun hdc => hparent q k (hdc ▸ hd))

theorem Shape.shape_link (h : Shape root depth t) (hp : t.level p = some (l + 1))
    (hj : t.edge p j = none) (hc : t.level c = none) : Shape root depth (t.link p j c l) := by
  have hpc : p ≠ c := by
    rintro rfl
    cases hc.symm.trans hp
  have hroot : root ≠ c := by
    rintro rfl
    cases hc.symm.trans h.top
  rcases h.absent hc with ⟨_, _, hparent⟩
  have hlevel : ∀ {q m}, q ≠ c → t.level q = some m → (t.link p j c l).level q = some m :=
    fun hq hm => (if_neg hq).trans hm
  have hself : (t.link p j c l).level c = some l := if_pos rfl
  refine
    { top := hlevel hroot h.top
      below := fun q m hq hne => ?_
      edge := fun q k d hd => ?_
      leaf := fun q k v hv => ?_
      parent := fun d m hd hne => ?_
      unique := fun q k q' k' d hd hd' => ?_ }
  · by_cases hqc : q = c
    · subst hqc
      have hml : l = m := Option.some.inj (hself.symm.trans hq)
      by_cases hproot : p = root
      · rw [hproot, h.top] at hp
        have := Option.some.inj hp
        omega
      · have := h.below p _ hp hproot
        omega
    · exact h.below q m ((if_neg hqc).symm.trans hq) hne
  · by_cases hqk : q = p ∧ k = j
    · rcases hqk with ⟨rfl, rfl⟩
      have hdc : c = d := Option.some.inj ((if_pos ⟨rfl, rfl⟩).symm.trans hd)
      subst hdc
      exact ⟨l, hlevel hpc hp, hself⟩
    · have hold : t.edge q k = some d := (if_neg hqk).symm.trans hd
      rcases h.edge q k d hold with ⟨m, hq, hdm⟩
      have hqc : q ≠ c := by
        rintro rfl
        cases hc.symm.trans hq
      exact ⟨m, hlevel hqc hq, hlevel (fun hdc => hparent q k (hdc ▸ hold)) hdm⟩
  · have hq := h.leaf q k v hv
    refine hlevel ?_ hq
    rintro rfl
    cases hc.symm.trans hq
  · by_cases hdc : d = c
    · exact ⟨p, j, (if_pos ⟨rfl, rfl⟩).trans (congrArg some hdc.symm)⟩
    · rcases h.parent d m ((if_neg hdc).symm.trans hd) hne with ⟨q, k, hqk⟩
      refine ⟨q, k, (if_neg ?_).trans hqk⟩
      rintro ⟨rfl, rfl⟩
      cases hj.symm.trans hqk
  · have hnew : ∀ {q k}, (t.link p j c l).edge q k = some d →
        (q = p ∧ k = j ∧ c = d) ∨ t.edge q k = some d := by
      intro q k hqk
      by_cases hat : q = p ∧ k = j
      · exact Or.inl ⟨hat.1, hat.2, Option.some.inj ((if_pos hat).symm.trans hqk)⟩
      · exact Or.inr ((if_neg hat).symm.trans hqk)
    rcases hnew hd with ⟨rfl, rfl, rfl⟩ | hold
    · rcases hnew hd' with ⟨rfl, rfl, _⟩ | hold'
      · exact ⟨rfl, rfl⟩
      · exact absurd hold' (hparent q' k')
    · rcases hnew hd' with ⟨rfl, rfl, rfl⟩ | hold'
      · exact absurd hold (hparent q k)
      · exact h.unique q k q' k' d hold hold'

/-- The exception moves down to the new node. -/
theorem fullBut_link (hfull : FullBut root t p) : FullBut root (t.link p j c l) c := by
  intro d m hd hroot hdc
  have hold : t.level d = some m := (if_neg hdc).symm.trans hd
  by_cases hdp : d = p
  · exact Or.inl ⟨j, c, if_pos ⟨hdp, rfl⟩⟩
  · rcases hfull d m hold hroot hdp with ⟨k, e, he⟩ | hleaf
    · exact Or.inl ⟨k, e, (if_neg (fun hat => hdp hat.1)).trans he⟩
    · exact Or.inr hleaf

theorem link_unlink (hpc : t.edge p j = some c) (hne : p ≠ c) (hc : t.level c = some l)
    (hempty : ¬ t.Inhabited c) : (t.unlink p j c).link p j c l = t := by
  have hedge : ∀ k, t.edge c k = none := fun k =>
    Option.eq_none_iff_forall_ne_some.mpr (fun d hd => hempty (Or.inl ⟨k, d, hd⟩))
  have hleaf : ∀ k, t.leaf c k = none := fun k =>
    Option.eq_none_iff_forall_ne_some.mpr (fun v hv => hempty (Or.inr ⟨k, v, hv⟩))
  refine Trie.ext (funext fun q => ?_) (funext fun q => funext fun k => ?_)
    (funext fun q => funext fun k => ?_)
  · by_cases hq : q = c
    · exact (if_pos hq).trans (hq ▸ hc.symm)
    · exact (if_neg hq).trans (if_neg hq)
  · by_cases hat : q = p ∧ k = j
    · rcases hat with ⟨rfl, rfl⟩
      exact (if_pos ⟨rfl, rfl⟩).trans hpc.symm
    · refine (if_neg hat).trans ?_
      by_cases hq : q = c
      · exact (if_pos (Or.inl hq)).trans (hq ▸ (hedge k).symm)
      · exact if_neg (not_or.mpr ⟨hq, hat⟩)
  · by_cases hq : q = c
    · exact (if_pos hq).trans (hq ▸ (hleaf k).symm)
    · exact if_neg hq

theorem Shape.shape_unlink (h : Shape root depth t) (hpc : t.edge p j = some c)
    (hempty : ¬ t.Inhabited c) : Shape root depth (t.unlink p j c) := by
  have hroot := h.edge_ne_root hpc
  have hkeep : ∀ {q k d}, (t.unlink p j c).edge q k = some d →
      q ≠ c ∧ t.edge q k = some d ∧ d ≠ c := by
    intro q k d hd
    by_cases hgone : q = c ∨ (q = p ∧ k = j)
    · cases (if_pos hgone).symm.trans hd
    · have hold : t.edge q k = some d := (if_neg hgone).symm.trans hd
      refine ⟨fun hq => hgone (Or.inl hq), hold, fun hdc => hgone (Or.inr ?_)⟩
      exact h.unique q k p j c (hdc ▸ hold) hpc
  have hlevel : ∀ {q m}, (t.unlink p j c).level q = some m → q ≠ c ∧ t.level q = some m := by
    intro q m hq
    by_cases hqc : q = c
    · cases (if_pos hqc).symm.trans hq
    · exact ⟨hqc, (if_neg hqc).symm.trans hq⟩
  refine
    { top := (if_neg (Ne.symm hroot)).trans h.top
      below := fun q m hq hne => h.below q m (hlevel hq).2 hne
      edge := fun q k d hd => ?_
      leaf := fun q k v hv => ?_
      parent := fun d m hd hne => ?_
      unique := fun q k q' k' d hd hd' => h.unique q k q' k' d (hkeep hd).2.1 (hkeep hd').2.1 }
  · rcases hkeep hd with ⟨hqc, hold, hdc⟩
    rcases h.edge q k d hold with ⟨m, hq, hdm⟩
    exact ⟨m, (if_neg hqc).trans hq, (if_neg hdc).trans hdm⟩
  · by_cases hqc : q = c
    · cases (if_pos hqc).symm.trans hv
    · exact (if_neg hqc).trans (h.leaf q k v ((if_neg hqc).symm.trans hv))
  · rcases hlevel hd with ⟨hdc, hold⟩
    rcases h.parent d m hold hne with ⟨q, k, hqk⟩
    refine ⟨q, k, (if_neg ?_).trans hqk⟩
    rintro (rfl | ⟨rfl, rfl⟩)
    · exact hempty (Or.inl ⟨k, d, hqk⟩)
    · exact hdc (Option.some.inj (hqk.symm.trans hpc))

theorem Shape.get_unlink (h : Shape root depth t) (hpc : t.edge p j = some c)
    (hempty : ¬ t.Inhabited c) {q : P} (hq : q ≠ c) (path : List I) (i : I) :
    (t.unlink p j c).get q path i = t.get q path i := by
  rcases h.edge p j c hpc with ⟨m, hp, hc⟩
  have hne : p ≠ c := by
    rintro rfl
    have := Option.some.inj (hp.symm.trans hc)
    omega
  have hback := (h.shape_unlink hpc hempty).get_link ((if_neg hne).trans hp)
    (if_pos (Or.inr ⟨rfl, rfl⟩)) (if_pos rfl) hq path i
  rw [link_unlink hpc hne hc hempty] at hback
  exact hback.symm

theorem fullBut_unlink (hfull : FullBut root t c) : FullBut root (t.unlink p j c) p := by
  intro d m hd hroot hdp
  have hdc : d ≠ c := by
    rintro rfl
    cases (if_pos rfl).symm.trans hd
  rcases hfull d m ((if_neg hdc).symm.trans hd) hroot hdc with ⟨k, e, he⟩ | ⟨k, v, hv⟩
  · refine Or.inl ⟨k, e, (if_neg ?_).trans he⟩
    rintro (hdc' | hat)
    · exact hdc hdc'
    · exact hdp hat.1
  · exact Or.inr ⟨k, v, (if_neg hdc).trans hv⟩

theorem walk_setLeaf (o : Option V) (q : P) (path : List I) :
    (t.setLeaf p j o).walk q path = t.walk q path := by
  induction path generalizing q with
  | nil => rfl
  | cons k path ih => exact congrArg _ (funext fun d => ih d)

theorem Shape.shape_setLeaf (h : Shape root depth t) (hp : t.level p = some 0) (o : Option V) :
    Shape root depth (t.setLeaf p j o) where
  top := h.top
  below := h.below
  edge := h.edge
  leaf q k v hv := by
    by_cases hat : q = p ∧ k = j
    · rw [hat.1]
      exact hp
    · exact h.leaf q k v ((if_neg hat).symm.trans hv)
  parent := h.parent
  unique := h.unique

theorem Shape.get_setLeaf (h : Shape root depth t) {path : List I}
    (hpath : t.walk root path = some p) (o : Option V) (path' : List I) (i : I) :
    (t.setLeaf p j o).get root path' i
      = if path' = path ∧ i = j then o else t.get root path' i := by
  unfold get
  rw [walk_setLeaf]
  by_cases hsame : path' = path
  · subst hsame
    rw [hpath]
    by_cases hij : i = j
    · rw [if_pos ⟨rfl, hij⟩]
      exact if_pos ⟨rfl, hij⟩
    · rw [if_neg (fun hat => hij hat.2)]
      exact if_neg (fun hat => hij hat.2)
  · rw [if_neg (fun hat => hsame hat.1)]
    cases hq : t.walk root path' with
    | none => rfl
    | some q =>
      refine if_neg (fun hat => hsame ?_)
      exact h.walk_inj hq (hat.1 ▸ hpath)

theorem fullBut_setLeaf (hfull : FullBut root t p) (v : V) (q : P) :
    FullBut root (t.setLeaf p j (some v)) q := by
  intro d m hd hroot _
  by_cases hdp : d = p
  · exact Or.inr ⟨j, v, if_pos ⟨hdp, rfl⟩⟩
  · rcases hfull d m hd hroot hdp with hedge | ⟨k, w, hw⟩
    · exact Or.inl hedge
    · exact Or.inr ⟨k, w, (if_neg (fun hat => hdp hat.1)).trans hw⟩

theorem fullBut_unsetLeaf (hfull : FullBut root t root) :
    FullBut root (t.setLeaf p j none) p := by
  intro d m hd hroot hdp
  rcases hfull d m hd hroot hroot with hedge | ⟨k, w, hw⟩
  · exact Or.inl hedge
  · exact Or.inr ⟨k, w, (if_neg (fun hat => hdp hat.1)).trans hw⟩

end Changes

end Trie

end Mellow.Lib
