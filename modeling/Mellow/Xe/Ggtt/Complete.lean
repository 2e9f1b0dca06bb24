import Mellow.Xe.Ggtt.Paths

/-!
# Reserve Finds What Is Free

When `reserve` reports no space, the table is full, the generations are used up,
or no aligned place in any range is clear. The bound on its attempts is never
what ends a search.

## Main definitions

* `Full`: nothing can be reserved.
* `Placed`: the lowest place in the first range that has one.

## Theorems

* `reserve_complete`: `reserve` fails only where nothing is free.
-/

namespace Mellow.Ggtt

open Lib Function

variable {E : Type} {m : Manager}

/-- The checks before the search let the request through. -/
structure Passes (io : Backend E) (s : World E) (owner epoch bytes alignment : Nat) : Prop where
  current : epoch = s.obj.epoch
  up : (live io s).1 = true
  named : owner ≠ 0
  some : bytes ≠ 0
  pages : bytes % pageSize = 0
  size : bytes / pageSize ≤ maxPages
  least : pageSize ≤ alignment
  most : alignment ≤ 1 <<< 32
  power : alignment &&& (alignment - 1) = 0

def Full (m : Manager) (bytes alignment : Nat) : Prop :=
  (∀ i, (m.slots i).state ≠ .free) ∨ m.serial = 0 ∨
    ∀ g ∈ m.ranges, ∀ p, ¬ m.Suits bytes alignment g p

variable {io : Backend E} {s : World E} {owner epoch bytes alignment : Nat}

theorem live_obj (io : Backend E) (s : World E) : (live io s).2.obj = s.obj := by
  have hspec : Spec (fun t => t.obj = s.obj) (live io) (fun _ t => t.obj = s.obj) := by
    refine spec_bind (R := fun _ t => t.obj = s.obj) (fun t ht => ht) fun m => ?_
    exact spec_ite (fun _ => spec_ask _ _ fun t _ _ ht => ht) fun _ => spec_pure _ fun t ht => ht
  exact hspec s rfl

theorem reserve_eq (h : Passes io s owner epoch bytes alignment) :
    reserve io owner epoch bytes alignment s = match s.obj.place bytes alignment with
      | none => (.error .noSpace, (live io s).2)
      | some base => insert owner ⟨base, bytes⟩ (live io s).2 := by
  have hargs : ¬ (owner = 0 ∨ bytes = 0 ∨ bytes % pageSize ≠ 0 ∨ bytes / pageSize > maxPages ∨
      alignment < pageSize ∨ alignment > 1 <<< 32 ∨ alignment &&& (alignment - 1) ≠ 0) := by
    have := h.size
    have := h.least
    have := h.most
    rintro (hno | hno | hno | hno | hno | hno | hno)
    · exact h.named hno
    · exact h.some hno
    · exact hno h.pages
    · omega
    · omega
    · omega
    · exact hno h.power
  unfold reserve
  change (if epoch ≠ s.obj.epoch then _ else _ : Op E (Except Status Handle)) s = _
  rw [if_neg (not_not.mpr h.current)]
  change (if (!(live io s).1) = true then _ else _ : Op E (Except Status Handle)) (live io s).2 = _
  rw [h.up, if_neg (by decide), if_neg hargs]
  change (match (live io s).2.obj.place bytes alignment with | none => _ | some base => _ :
    Op E (Except Status Handle)) (live io s).2 = _
  rw [live_obj]
  cases s.obj.place bytes alignment <;> rfl

/-- An insertion fails only for want of a slot or a generation. -/
theorem insert_fails {r : Range} :
    (∃ e, m.insert owner r = .error e) ↔
      (∀ i, (m.slots i).state ≠ .free) ∨ m.serial = 0 := by
  unfold Manager.insert
  by_cases hserial : m.serial = 0
  · simp [*]
  rw [if_neg hserial]
  cases hslot : m.freeSlot with
  | none =>
    refine ⟨fun _ => .inl fun i hfree => ?_, fun _ => ⟨_, rfl⟩⟩
    have hnone := List.find?_eq_none.mp hslot i (List.mem_finRange i)
    exact hnone (decide_eq_true hfree)
  | some i =>
    have hfree : (m.slots i).state = .free := by
      simpa only [decide_eq_true_eq] using List.find?_some hslot
    refine ⟨fun ⟨e, he⟩ => absurd he nofun, ?_⟩
    rintro (hall | hzero)
    · exact absurd hfree (hall i)
    · exact absurd hzero hserial

theorem insert_eq (owner : Nat) (r : Range) (s : World E) :
    insert owner r s = match s.obj.insert owner r with
      | .error e => (.error e, s)
      | .ok (h, m) => (.ok h, s.put { s.obj with mgr := m }) := by
  unfold insert
  change (match s.obj.insert owner r with | .error e => _ | .ok (h, m) => _ :
    Op E (Except Status Handle)) s = _
  cases s.obj.insert owner r <;> rfl

theorem insert_error {r : Range} {e : Status} (h : m.insert owner r = .error e) :
    e = .noSpace := by
  unfold Manager.insert at h
  split at h
  · cases h
    rfl
  · split at h <;> cases h
    rfl

/-- It went to the lowest place in the first range that has one. -/
def Placed (m : Manager) (bytes alignment : Nat) (h : Handle) (m' : Manager) : Prop :=
  ∃ before g after p i, m.ranges = before ++ g :: after ∧
    (∀ g' ∈ before, ∀ q, ¬ m.Suits bytes alignment g' q) ∧
    IsLeast { q | m.Suits bytes alignment g q } p ∧
    h.slot = i.val ∧ (m.slots i).state = .free ∧ (m'.slots i).state = .reserved ∧
    (m'.slots i).range = ⟨p, bytes⟩ ∧ ∀ j, j ≠ i → m'.slots j = m.slots j

theorem insert_placed {m' : Manager} {r : Range} {h : Handle}
    (hins : m.insert owner r = .ok (h, m')) :
    ∃ i : Fin maxMappings, h.slot = i.val ∧ (m.slots i).state = .free ∧
      (m'.slots i).state = .reserved ∧ (m'.slots i).range = r ∧ ∀ j, j ≠ i →
      m'.slots j = m.slots j := by
  unfold Manager.insert at hins
  split at hins
  · cases hins
  · split at hins
    · cases hins
    · rename_i i hslot
      cases hins
      have hfree : (m.slots i).state = .free := by
        simpa only [decide_eq_true_eq] using List.find?_some hslot
      refine ⟨i, rfl, hfree, ?_, ?_, fun j hj => update_of_ne hj _ _⟩
      · change ((update m.slots i _) i).state = _
        rw [update_self]
        rfl
      · change ((update m.slots i _) i).range = _
        rw [update_self]
        rfl

/-- For all granted ranges and all slots in use: `reserve` reports that there is
    no space exactly when there is none, and otherwise takes the lowest place.
    The bound on its attempts changes nothing. -/
theorem reserve_complete (io : Backend E) (s : World E) (owner epoch bytes alignment : Nat)
    (hplaced : ∀ i, (s.obj.slots i).state ≠ .free → (s.obj.slots i).range.Valid)
    (hgranted : ∀ g ∈ s.obj.ranges, g.Valid) (hpass : Passes io s owner epoch bytes alignment) :
    ((reserve io owner epoch bytes alignment s).1 = .error .noSpace ↔
        Full s.obj.mgr bytes alignment) ∧
      (¬ Full s.obj.mgr bytes alignment → ∃ h,
        (reserve io owner epoch bytes alignment s).1 = .ok h ∧
          Placed s.obj.mgr bytes alignment h (reserve io owner epoch bytes alignment s).2.obj.mgr) ∧
      ∀ g ∈ s.obj.ranges,
        Seeks (Fitting bytes (g.address + g.bytes)) (s.obj.jump bytes alignment)
          (alignUp g.address alignment)
          (s.obj.search bytes alignment (g.address + g.bytes) (maxMappings + 1)
            (alignUp g.address alignment)) := by
  have hsome : ∀ base, s.obj.place bytes alignment = some base → _ := fun _ =>
    place_some hplaced hgranted hpass.some hpass.least hpass.most hpass.power
  have hnone := place_none hplaced hgranted hpass.some hpass.least hpass.most hpass.power
  have hplace : (∃ h, (reserve io owner epoch bytes alignment s).1 = .ok h ∧
        Placed s.obj.mgr bytes alignment h (reserve io owner epoch bytes alignment s).2.obj.mgr ∧
        ¬ Full s.obj.mgr bytes alignment) ∨
      ((reserve io owner epoch bytes alignment s).1 = .error .noSpace ∧
        Full s.obj.mgr bytes alignment) := by
    rw [reserve_eq hpass]
    cases hfind : s.obj.place bytes alignment with
    | none => exact .inr ⟨rfl, .inr (.inr (hnone hfind))⟩
    | some base =>
      dsimp only
      rw [insert_eq, live_obj]
      cases hins : s.obj.insert owner ⟨base, bytes⟩ with
      | error e =>
        refine .inr ⟨congrArg Except.error (insert_error hins), ?_⟩
        exact (insert_fails.mp ⟨e, hins⟩).imp_right .inl
      | ok hm =>
        rcases hsome base hfind with ⟨before, g, after, hranges, hbefore, hleast⟩
        rcases insert_placed hins with ⟨i, hslot, hfree, hstate, hrange, hrest⟩
        refine .inl ⟨hm.1, rfl, ⟨before, g, after, base, i, hranges, hbefore, hleast, hslot, hfree,
          hstate, hrange, hrest⟩, ?_⟩
        rintro (hall | hzero | hno)
        · exact absurd hfree (hall i)
        · have hfail : ∃ e, s.obj.insert owner ⟨base, bytes⟩ = .error e :=
            insert_fails.mpr (.inr hzero)
          rcases hfail with ⟨e, he⟩
          exact absurd (he.symm.trans hins) nofun
        · exact hno g (hranges ▸ List.mem_append_right _ List.mem_cons_self) base hleast.1
  refine ⟨?_, fun hroom => ?_, fun g hg => ?_⟩
  · rcases hplace with ⟨h, hok, _, hroom⟩ | ⟨hno, hfull⟩
    · simp [*]
    · exact ⟨fun _ => hfull, fun _ => hno⟩
  · rcases hplace with ⟨h, hok, hp, _⟩ | ⟨_, hfull⟩
    · exact ⟨h, hok, hp⟩
    · exact absurd hfull hroom
  · rcases alignment_pow hpass.least hpass.most hpass.power with ⟨k, _, hk, rfl⟩
    have hend := (hgranted g hg).end_le
    have hle32 : (2 : Nat) ^ k ≤ 2 ^ 32 := Nat.pow_le_pow_right (by omega) hk
    exact search_seeks bytes hk hplaced _ (alignUp_dvd (by omega) (by omega))

def agreeable : Backend Unit :=
  { answer := fun _ e => (true, e), lands := fun _ _ _ => true, dma := fun _ _ => 0 }

def secondTaken : World Unit :=
  run agreeable [.initializeManager 1 [⟨0, 0x4000⟩] true, .reserveAt 7 1 ⟨0x1000, 0x1000⟩]
    (fun _ => 0) ()

theorem reserve_complete_second :
    (reserve agreeable 7 1 0x2000 0x1000 secondTaken).1 = .ok ⟨1, 2⟩ ∧
      ((reserve agreeable 7 1 0x2000 0x1000 secondTaken).1 = .error .noSpace ↔
        Full secondTaken.obj.mgr 0x2000 0x1000) := by
  have hwf : Wf secondTaken := (run_reaches agreeable _ (fun _ => 0) ()).2.1
  have hpass : Passes agreeable secondTaken 7 1 0x2000 0x1000 := by
    constructor <;> decide
  exact ⟨by decide, (reserve_complete agreeable secondTaken 7 1 0x2000 0x1000
    (fun i => (hwf.slots i).placed) hwf.granted hpass).1⟩

end Mellow.Ggtt
