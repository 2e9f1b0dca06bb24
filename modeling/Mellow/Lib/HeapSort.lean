import Mathlib.Data.List.Nodup
import Mathlib.Logic.Equiv.Basic
import Mathlib.Order.Lattice

/-!
# Heap Sort in Place

An array is a function on positions, and the parent of `c` is `(c - 1) / 2`. In
the middle of a sift one position may be smaller than its children.

## Main definitions

* `heapSort`: the sort.
* `Shuffled`: an array whose elements have moved.
* `Sifting`: a heap but for one position, whose children are below its parent.

## Theorems

* `heapSort_sorted`: the array is sorted.
-/

namespace Mellow.Lib

section Algorithm

variable {α : Type} [LinearOrder α]

def exchange (w : Nat → α) (i j : Nat) : Nat → α := w ∘ Equiv.swap i j

def greaterChild (w : Nat → α) (root count : Nat) : Nat :=
  let child := root * 2 + 1
  if child + 1 < count ∧ w child < w (child + 1) then child + 1 else child

/-- Move an element down to its place among the first `count`. -/
def siftLoop (count : Nat) : Nat → (Nat → α) → Nat → Nat → α
  | 0, w, _ => w
  | fuel + 1, w, root =>
    if root < count / 2 then
      if w root ≥ w (greaterChild w root count) then w
      else siftLoop count fuel (exchange w root (greaterChild w root count))
        (greaterChild w root count)
    else w

def sift (w : Nat → α) (root count : Nat) : Nat → α := siftLoop count count w root

def buildHeap (count : Nat) : Nat → (Nat → α) → Nat → α
  | 0, w => w
  | i + 1, w => buildHeap count i (sift w i count)

def extractMax : Nat → (Nat → α) → Nat → α
  | 0, w => w
  | 1, w => w
  | r + 2, w => extractMax (r + 1) (sift (exchange w 0 (r + 1)) 0 (r + 1))

def heapSort (w : Nat → α) (count : Nat) : Nat → α :=
  extractMax count (buildHeap count (count / 2) w)

end Algorithm

/-- The first `n` elements in another order. -/
def Shuffled {α : Type} (n : Nat) (w w' : Nat → α) : Prop :=
  ∃ σ : Equiv.Perm Nat, (∀ i, n ≤ i → σ i = i) ∧ w' = w ∘ σ

section Shuffling

variable {α : Type} {n : Nat} {u v w : Nat → α} {i : Nat}

theorem Shuffled.refl (n : Nat) (w : Nat → α) : Shuffled n w w :=
  ⟨Equiv.refl Nat, fun _ _ => rfl, rfl⟩

theorem Shuffled.trans (h : Shuffled n u v) (h' : Shuffled n v w) : Shuffled n u w := by
  rcases h with ⟨σ, hσ, rfl⟩
  rcases h' with ⟨τ, hτ, rfl⟩
  refine ⟨τ.trans σ, fun i hi => ?_, rfl⟩
  rw [Equiv.trans_apply, hτ i hi, hσ i hi]

theorem Shuffled.mono {m : Nat} (h : Shuffled m v w) (hm : m ≤ n) : Shuffled n v w := by
  rcases h with ⟨σ, hσ, heq⟩
  exact ⟨σ, fun i hi => hσ i (Nat.le_trans hm hi), heq⟩

theorem shuffled_exchange {j : Nat} (hi : i < n) (hj : j < n) : Shuffled n w (exchange w i j) :=
  ⟨Equiv.swap i j, fun _ hk => Equiv.swap_apply_of_ne_of_ne (by omega) (by omega), rfl⟩

theorem Shuffled.above (h : Shuffled n v w) (hi : n ≤ i) : w i = v i := by
  rcases h with ⟨σ, hσ, rfl⟩
  exact congrArg v (hσ i hi)

theorem Shuffled.lt_iff {σ : Equiv.Perm Nat} (hσ : ∀ i, n ≤ i → σ i = i) (i : Nat) :
    σ i < n ↔ i < n := by
  refine ⟨fun hi => ?_, fun hi => ?_⟩
  · by_contra hge
    rw [hσ i (Nat.le_of_not_lt hge)] at hi
    exact hge hi
  · by_contra hge
    have heq := σ.injective (hσ (σ i) (Nat.le_of_not_lt hge))
    omega

theorem Shuffled.below (h : Shuffled n v w) (hi : i < n) : ∃ j, j < n ∧ w i = v j := by
  rcases h with ⟨σ, hσ, rfl⟩
  exact ⟨σ i, (lt_iff hσ i).mpr hi, rfl⟩

theorem Shuffled.perm (h : Shuffled n v w) :
    ((List.range n).map w).Perm ((List.range n).map v) := by
  rcases h with ⟨σ, hσ, rfl⟩
  rw [← List.map_map]
  refine List.Perm.map v ((List.perm_ext_iff_of_nodup (List.nodup_range.map σ.injective)
    List.nodup_range).mpr fun a => ?_)
  rw [List.mem_map, List.mem_range]
  refine ⟨fun ⟨b, hb, heq⟩ => heq ▸ (lt_iff hσ b).mpr (List.mem_range.mp hb), fun ha => ?_⟩
  refine ⟨σ.symm a, List.mem_range.mpr ((lt_iff hσ _).mp ?_), Equiv.apply_symm_apply σ a⟩
  rwa [Equiv.apply_symm_apply]

theorem exchange_left (w : Nat → α) (i j : Nat) : exchange w i j i = w j :=
  congrArg w (Equiv.swap_apply_left i j)

theorem exchange_right (w : Nat → α) (i j : Nat) : exchange w i j j = w i :=
  congrArg w (Equiv.swap_apply_right i j)

theorem exchange_other (w : Nat → α) {j k : Nat} (hi : k ≠ i) (hj : k ≠ j) :
    exchange w i j k = w k :=
  congrArg w (Equiv.swap_apply_of_ne_of_ne hi hj)

end Shuffling

section Sorting

variable {α : Type} [LinearOrder α] {lo n root : Nat} {w : Nat → α}

/-- From position `lo` on, no element is greater than its parent. -/
def HeapFrom (w : Nat → α) (lo n : Nat) : Prop :=
  ∀ c, 0 < c → c < n → lo ≤ (c - 1) / 2 → w c ≤ w ((c - 1) / 2)

/-- A heap, up to the children of `root`. -/
structure Sifting (w : Nat → α) (lo n root : Nat) : Prop where
  except : ∀ c, 0 < c → c < n → lo ≤ (c - 1) / 2 → (c - 1) / 2 ≠ root → w c ≤ w ((c - 1) / 2)
  grand : 0 < root → lo ≤ (root - 1) / 2 → ∀ c, 0 < c → c < n → (c - 1) / 2 = root →
    w c ≤ w ((root - 1) / 2)

/-- The greater child goes up, and its place is the next to be looked at. -/
theorem Sifting.move {child : Nat} (h : Sifting w lo n root) (hpos : 0 < child)
    (hparent : (child - 1) / 2 = root) (hlt : w root < w child)
    (hmax : ∀ c, 0 < c → c < n → (c - 1) / 2 = root → w c ≤ w child) (hchild : child < n) :
    Sifting (exchange w root child) lo n child := by
  refine ⟨fun c hc hn hlo hne => ?_, fun _ hlo c hc hn hcc => ?_⟩
  · by_cases hcr : c = root
    · subst hcr
      rw [exchange_left, exchange_other w (by omega) hne]
      exact h.grand hc hlo child hpos hchild hparent
    by_cases hcc : c = child
    · simp [exchange_right, exchange_left, le_of_lt, *]
    rw [exchange_other w hcr hcc]
    by_cases hp : (c - 1) / 2 = root
    · rw [hp, exchange_left]
      exact hmax c hc hn hp
    · simp [exchange_other w hp hne, h.except, *]
  · rw [hparent] at hlo ⊢
    rw [exchange_left, exchange_other w (by omega) (by omega), ← hcc]
    exact h.except c hc hn (by omega) (by omega)

theorem greaterChild_spec (hroot : root < n / 2) :
    greaterChild w root n < n ∧ 0 < greaterChild w root n ∧ (greaterChild w root n - 1) / 2 = root ∧
      ∀ c, 0 < c → c < n → (c - 1) / 2 = root → w c ≤ w (greaterChild w root n) := by
  have hchild : ∀ c, 0 < c → (c - 1) / 2 = root → c = root * 2 + 1 ∨
    c = root * 2 + 1 + 1 := by omega
  unfold greaterChild
  dsimp only
  split_ifs with hboth
  · refine ⟨hboth.1, by omega, by omega, fun c hc _ hp => ?_⟩
    rcases hchild c hc hp with rfl | rfl
    · exact le_of_lt hboth.2
    · exact le_refl _
  · refine ⟨by omega, by omega, by omega, fun c hc hn hp => ?_⟩
    rcases hchild c hc hp with rfl | rfl
    · exact le_refl _
    · exact le_of_not_gt fun hlt => hboth ⟨hn, hlt⟩

/-- By induction on the positions that are left: each turn moves down. -/
theorem siftLoop_heap {fuel : Nat} (h : Sifting w lo n root) (hfuel : n ≤ root + fuel) :
    HeapFrom (siftLoop n fuel w root) lo n := by
  induction fuel generalizing w root with
  | zero => exact fun c hc hn hlo => h.except c hc hn hlo (by omega)
  | succ fuel ih =>
    rw [siftLoop]
    split_ifs with hroot hle
    · rcases greaterChild_spec (w := w) hroot with ⟨_, _, _, hmax⟩
      intro c hc hn hlo
      by_cases hp : (c - 1) / 2 = root
      · rw [hp]
        exact le_trans (hmax c hc hn hp) hle
      · exact h.except c hc hn hlo hp
    · rcases greaterChild_spec (w := w) hroot with ⟨hlt, hpos, hparent, hmax⟩
      exact ih (h.move hpos hparent (lt_of_not_ge hle) hmax hlt) (by omega)
    · exact fun c hc hn hlo => h.except c hc hn hlo (by omega)

theorem siftLoop_shuffled {fuel : Nat} : ∀ {w : Nat → α} {root : Nat},
    Shuffled n w (siftLoop n fuel w root) := by
  induction fuel with
  | zero => exact fun {w _} => .refl n w
  | succ fuel ih =>
    intro w root
    rw [siftLoop]
    split_ifs with hroot
    · exact .refl n w
    · exact (shuffled_exchange (by omega) (greaterChild_spec hroot).1).trans ih
    · exact .refl n w

theorem sift_heap (h : HeapFrom w (lo + 1) n) : HeapFrom (sift w lo n) lo n :=
  siftLoop_heap ⟨fun c hc hn hlo hne => h c hc hn (by omega), fun _ hlo => by omega⟩ (by omega)

theorem buildHeap_heap {i : Nat} :
    ∀ {w : Nat → α}, HeapFrom w i n → HeapFrom (buildHeap n i w) 0 n := by
  induction i with
  | zero => exact fun h => h
  | succ i ih => exact fun h => ih (sift_heap h)

theorem buildHeap_shuffled {i : Nat} : ∀ {w : Nat → α}, Shuffled n w (buildHeap n i w) := by
  induction i with
  | zero => exact fun {w} => .refl n w
  | succ i ih => exact siftLoop_shuffled.trans ih

theorem HeapFrom.le_top (h : HeapFrom w 0 n) : ∀ i, i < n → w i ≤ w 0 := by
  intro i
  induction i using Nat.strongRecOn with
  | ind i ih =>
    intro hi
    by_cases hzero : i = 0
    · rw [hzero]
    · exact le_trans (h i (by omega) hi (Nat.zero_le _)) (ih _ (by omega) (by omega))

/-- A heap of the first `r` elements, and the greater ones in order behind it. -/
structure Extracting (w : Nat → α) (r n : Nat) : Prop where
  heap : HeapFrom w 0 r
  sorted : ∀ i j, r ≤ i → i ≤ j → j < n → w i ≤ w j
  above : ∀ i j, i < r → r ≤ j → j < n → w i ≤ w j

theorem Extracting.step {r : Nat} (h : Extracting w (r + 2) n) :
    Extracting (sift (exchange w 0 (r + 1)) 0 (r + 1)) (r + 1) n := by
  have hshuffled : Shuffled (r + 1) (exchange w 0 (r + 1))
    (sift (exchange w 0 (r + 1)) 0 (r + 1)) :=
    siftLoop_shuffled
  have hlast : sift (exchange w 0 (r + 1)) 0 (r + 1) (r + 1) = w 0 := by
    rw [hshuffled.above (Nat.le_refl _), exchange_right]
  have hbehind : ∀ i, r + 2 ≤ i → sift (exchange w 0 (r + 1)) 0 (r + 1) i = w i := by
    intro i hi
    rw [hshuffled.above (by omega), exchange_other w (by omega) (by omega)]
  have hfront : ∀ i, i < r + 1 →
      ∃ j, j < r + 2 ∧ sift (exchange w 0 (r + 1)) 0 (r + 1) i = w j := by
    intro i hi
    rcases hshuffled.below hi with ⟨j, hj, heq⟩
    by_cases hzero : j = 0
    · exact ⟨r + 1, by omega, by rw [heq, hzero, exchange_left]⟩
    · exact ⟨j, by omega, by rw [heq, exchange_other w hzero (by omega)]⟩
  refine ⟨sift_heap fun c hc hn hlo => ?_, fun i j hi hij hj => ?_, fun i j hi hj hn => ?_⟩
  · rw [exchange_other w (by omega) (by omega), exchange_other w (by omega) (by omega)]
    exact h.heap c hc (by omega) (Nat.zero_le _)
  · by_cases hij' : i = j
    · rw [hij']
    rw [hbehind j (by omega)]
    by_cases hir : i = r + 1
    · rw [hir, hlast]
      exact h.above 0 j (by omega) (by omega) hj
    · rw [hbehind i (by omega)]
      exact h.sorted i j (by omega) hij hj
  · rcases hfront i hi with ⟨k, hk, heq⟩
    rw [heq]
    by_cases hjr : j = r + 1
    · rw [hjr, hlast]
      exact h.heap.le_top k hk
    · rw [hbehind j (by omega)]
      exact h.above k j hk (by omega) hn

theorem extractMax_sorted {r : Nat} : ∀ {w : Nat → α}, Extracting w r n → r ≤ n →
    Shuffled n w (extractMax r w) ∧ ∀ i j, i ≤ j → j < n → extractMax r w i ≤ extractMax r w j := by
  induction r with
  | zero => exact fun {w} h _ => ⟨.refl n w, fun i j => h.sorted i j (Nat.zero_le _)⟩
  | succ r ih =>
    cases r with
    | zero =>
      refine fun {w} h _ => ⟨.refl n w, fun i j hij hj => ?_⟩
      by_cases hi : i = 0
      · by_cases hj' : j = 0
        · rw [hi, hj']
        · exact h.above i j (by omega) (by omega) hj
      · exact h.sorted i j (by omega) hij hj
    | succ r =>
      intro w h hr
      rcases ih h.step (by omega) with ⟨hshuffled, hsorted⟩
      have hsift : Shuffled (r + 1) (exchange w 0 (r + 1))
        (sift (exchange w 0 (r + 1)) 0 (r + 1)) :=
        siftLoop_shuffled
      exact ⟨((shuffled_exchange (by omega) (by omega)).trans (hsift.mono (by omega))).trans
        hshuffled, hsorted⟩

/-- The first `n` elements come out in order, and none is lost. -/
theorem heapSort_sorted (w : Nat → α) (n : Nat) :
    Shuffled n w (heapSort w n) ∧ ∀ i j, i ≤ j → j < n → heapSort w n i ≤ heapSort w n j := by
  have hheap : HeapFrom (buildHeap n (n / 2) w) 0 n :=
    buildHeap_heap fun c hc hn hlo => by omega
  rcases extractMax_sorted ⟨hheap, fun i j hi hij hj => by omega, fun i j _ hj hn => by omega⟩
    (Nat.le_refl n) with ⟨hshuffled, hsorted⟩
  exact ⟨buildHeap_shuffled.trans hshuffled, hsorted⟩

/-- Two equal elements stand next to each other afterwards, and only then. -/
theorem heapSort_adjacent (w : Nat → α) (n : Nat) :
    (∃ i, 0 < i ∧ i < n ∧ heapSort w n (i - 1) = heapSort w n i) ↔
      ∃ i j, i < j ∧ j < n ∧ w i = w j := by
  rcases heapSort_sorted w n with ⟨⟨σ, hσ, heq⟩, hsorted⟩
  have hin := Shuffled.lt_iff hσ
  constructor
  · rintro ⟨i, hpos, hi, hi'⟩
    rw [heq] at hi'
    have hne : σ (i - 1) ≠ σ i := fun h => by have := σ.injective h; omega
    have ha := (hin (i - 1)).mpr (by omega)
    have hb := (hin i).mpr hi
    rcases Nat.lt_or_gt_of_ne hne with hlt | hgt
    · exact ⟨σ (i - 1), σ i, hlt, hb, hi'⟩
    · exact ⟨σ i, σ (i - 1), hgt, ha, hi'.symm⟩
  · rintro ⟨i, j, hij, hj, hw⟩
    -- The places the two went to, and everything between them, hold the same element.
    have hplace : ∀ k, heapSort w n (σ.symm k) = w k := fun k => by
      rw [heq, Function.comp_apply, Equiv.apply_symm_apply]
    have hin' : ∀ k, k < n → σ.symm k < n :=
      fun k hk => (hin _).mp (by rwa [Equiv.apply_symm_apply])
    have hnext : ∀ a b, a < b → b < n → heapSort w n a = heapSort w n b →
        heapSort w n (a + 1 - 1) = heapSort w n (a + 1) := by
      intro a b hab hb hab'
      refine le_antisymm (hsorted _ _ (by omega) (by omega)) ?_
      rw [Nat.add_sub_cancel, hab']
      exact hsorted _ _ (by omega) hb
    have hne : σ.symm i ≠ σ.symm j := fun h => by have := σ.symm.injective h; omega
    rcases Nat.lt_or_gt_of_ne hne with hlt | hgt
    · exact ⟨σ.symm i + 1, by omega, by have := hin' j hj; omega,
        hnext _ _ hlt (hin' j hj) (by rw [hplace, hplace, hw])⟩
    · exact ⟨σ.symm j + 1, by omega, by have := hin' i (by omega); omega,
        hnext _ _ hgt (hin' i (by omega)) (by rw [hplace, hplace, hw])⟩

end Sorting

end Mellow.Lib
