import Mathlib.Data.List.ReduceOption
import Mellow.Xe.Ggtt.Stale

/-!
# Ranges and Handles

A slot in use has a range of its own, inside one that was granted, and a
generation that no other slot ever had. So a handle that was handed back is
refused for good. Generations come from a counter that wraps to zero and stays
there.

## Main definitions

* `Manager.bound`: the counter without the wrap.
* `Numbered`: generations in use are below the bound, and distinct.
* `HandleSafe`: what holds after any calls.

## Theorems

* `step_identity`: what a step does to slots and their generations.
* `run_handles`: every reachable state is safe.
-/

namespace Mellow.Ggtt

open Lib Function

variable {E : Type}

def Manager.Live (m : Manager) (i : Fin maxMappings) : Prop := (m.slots i).state ≠ .free

/-- What no generation has reached yet. -/
def Manager.bound (m : Manager) : Nat := if m.serial = 0 then 2 ^ 64 else m.serial

section Identity

/-- No slot is in use in `t` that was not in `s`, under the same identity. -/
def Keeps (s t : Manager) : Prop :=
  t.ranges = s.ranges ∧ t.serial = s.serial ∧ ∀ j, t.Live j → s.Live j ∧
    (t.slots j).generation = (s.slots j).generation ∧ (t.slots j).range = (s.slots j).range

def freedHandle (l : Entry Hw Event) : Option Handle :=
  match l.event with
  | .freed i => some ⟨i, (l.obj.slots i).generation⟩
  | .call _ _ => none

def freedHandles (log : Log) : List Handle := log.filterMap freedHandle

variable {s t : World E}

theorem live_setSlot (m : Manager) (i : Fin maxMappings) (x : Slot) (j : Fin maxMappings) :
    (m.setSlot i x).Live j ↔ if j = i then x.state ≠ .free else m.Live j := by
  unfold Manager.Live Manager.setSlot
  dsimp only
  split_ifs with hji
  · rw [hji, update_self]
  · rw [update_of_ne hji]

theorem keeps_setSlot {m : Manager} {i : Fin maxMappings} {x : Slot} (hlive : m.Live i)
    (hgen : x.generation = (m.slots i).generation) (hrange : x.range = (m.slots i).range) :
    Keeps m (m.setSlot i x) := by
  refine ⟨rfl, rfl, fun j hj => ?_⟩
  rw [live_setSlot] at hj
  change _ ∧ (update m.slots i x j).generation = _ ∧
    (update m.slots i x j).range = _
  by_cases hji : j = i
  · simp [*]
  · rw [if_neg hji] at hj
    rw [update_of_ne hji]
    exact ⟨hj, rfl, rfl⟩

theorem stays_setSlot {m : Manager} {i : Fin maxMappings} {x : Slot} (hx : x.state ≠ .free)
    (j : Fin maxMappings) (hj : m.Live j) : (m.setSlot i x).Live j := by
  rw [live_setSlot]
  split_ifs
  · exact hx
  · exact hj

theorem keeps_empty (m : Manager) (i : Fin maxMappings) : Keeps m (m.setSlot i Slot.empty) := by
  refine ⟨rfl, rfl, fun j hj => ?_⟩
  rw [live_setSlot] at hj
  change _ ∧ (update m.slots i Slot.empty j).generation = _ ∧
    (update m.slots i Slot.empty j).range = _
  by_cases hji : j = i
  · rw [if_pos hji] at hj
    exact absurd rfl hj
  · rw [if_neg hji] at hj
    rw [update_of_ne hji]
    exact ⟨hj, rfl, rfl⟩

theorem live_empty (m : Manager) (i j : Fin maxMappings) :
    (m.setSlot i Slot.empty).Live j ↔ j ≠ i ∧ m.Live j := by
  rw [live_setSlot]
  split_ifs with hji
  · exact ⟨fun h => absurd rfl h, fun h => absurd hji h.1⟩
  · exact ⟨fun h => ⟨hji, h⟩, fun h => h.2⟩

/-- What a step does to the identity of slots. -/
inductive Identity (s t : World E) : Prop where
  | keep (hkeeps : Keeps s.obj.mgr t.obj.mgr) (hstays : ∀ j, s.obj.Live j → t.obj.Live j)
      (hfreed : freedHandles t.log = freedHandles s.log)
  | start (hnone : ∀ i, ¬s.obj.Live i) (hslots : t.obj.slots = s.obj.slots)
      (hserial : t.obj.serial = s.obj.serial) (hfreed : freedHandles t.log = freedHandles s.log)
  | reserve (i : Fin maxMappings) (owner : Nat) (r : Range) (hfits : s.obj.Fits r)
      (hserial : s.obj.serial ≠ 0) (hfree : ¬s.obj.Live i)
      (hmgr : t.obj.mgr = s.obj.mgr.enter i owner r)
      (hfreed : freedHandles t.log = freedHandles s.log)
  | free (i : Fin maxMappings) (hlive : s.obj.Live i) (hkeeps : Keeps s.obj.mgr t.obj.mgr)
      (hothers : ∀ j, t.obj.Live j ↔ j ≠ i ∧ s.obj.Live j) (hfreed : freedHandles t.log =
        ⟨i, (s.obj.slots i).generation⟩ :: freedHandles s.log)

theorem step_identity (hinv : Inv s) (h : Step s t) : Identity s t := by
  have hrefl : Keeps s.obj.mgr s.obj.mgr := ⟨rfl, rfl, fun j hj => ⟨hj, rfl, rfl⟩⟩
  have hlive : ∀ {i}, s.obj.slots i ≠ Slot.empty → s.obj.Live i :=
    fun hne hfree => hne ((hinv.wf.slots _).free hfree)
  -- Most moves replace a slot in use by one that still is.
  have hset : ∀ {u : World E} {i : Fin maxMappings} {x : Slot},
      u.obj.mgr = s.obj.mgr.setSlot i x → s.obj.Live i → x.state ≠ .free →
      x.generation = (s.obj.slots i).generation → x.range = (s.obj.slots i).range →
      freedHandles u.log = freedHandles s.log → Identity s u := by
    intro u i x hmgr hl hx hgen hrange hfreed
    refine .keep ?_ ?_ hfreed
    · rw [hmgr]
      exact keeps_setSlot hl hgen hrange
    · rw [hmgr]
      exact stays_setSlot hx
  have hin : ∀ {i st}, (s.obj.slots i).state = st → st ≠ .free → s.obj.Live i :=
    fun hst hne hfree => hne (hst.symm.trans hfree)
  cases h with
  | hold i b pat e hres hheld huse =>
    have hl := hin hres (by decide)
    exact hset rfl hl hl rfl rfl rfl
  | reserve i owner r hfree hfits hserial hopen =>
    exact .reserve i owner r hfits hserial (not_not.mpr hfree) rfl rfl
  | move hm =>
    cases hm with
    | hear q a e hb => exact .keep hrefl (fun _ hj => hj) rfl
    | start epoch ranges e hnew hgrant =>
      exact .start (fun i hi => hi (hinv.dormant (.inl hnew) i)) rfl rfl rfl
    | quarantine i hl => exact hset rfl hl nofun rfl rfl rfl
    | touch i hq hheld hclear =>
      have hl := hin hq (by decide)
      exact hset rfl hl hl rfl rfl rfl
    | write i page pte landed ok e hq htouch hclear hpage =>
      refine .keep ?_ (fun j hj => ?_) rfl
      · rw [stored_mgr]
        exact hrefl
      · rw [stored_mgr]
        exact hj
    | clear i htouch hq husers hzero hflush =>
      have hl := hin hq (by decide)
      exact hset rfl hl hl rfl rfl rfl
    | publish i hq htouch hclear => exact hset rfl (hin hq (by decide)) nofun rfl rfl rfl
    | drop i e hheld husers hdone =>
      have hl : s.obj.Live i := hlive fun hempty => by
        rw [hempty] at hheld
        cases hheld
      exact .free i hl (keeps_empty _ i) (live_empty _ i) rfl
    | free i hl hheld husers => exact .free i hl (keeps_empty _ i) (live_empty _ i) rfl
    | use i hpub =>
      have hl := hin hpub (by decide)
      exact hset rfl hl hl rfl rfl rfl
    | unuse i husers =>
      have hl : s.obj.Live i := hlive fun hempty => by
        rw [hempty] at husers
        exact husers rfl
      exact hset rfl hl hl rfl rfl rfl
    | close e hfree => exact .keep hrefl (fun _ hj => hj) rfl

end Identity

section Numbers

/-- Ranges in use were granted, and generations are their own. -/
structure Numbered (s : World E) : Prop where
  within : ∀ i, s.obj.Live i → ∃ g ∈ s.obj.ranges, (s.obj.slots i).range.Within g
  serial : s.obj.serial < 2 ^ 64
  positive : ∀ i, s.obj.Live i → (s.obj.slots i).generation ≠ 0
  below : ∀ i, s.obj.Live i → (s.obj.slots i).generation < s.obj.bound
  distinct : ∀ i j, s.obj.Live i → s.obj.Live j → i ≠ j →
    (s.obj.slots i).generation ≠ (s.obj.slots j).generation
  gone : ∀ h ∈ freedHandles s.log, h.generation < s.obj.bound ∧
    ∀ i, s.obj.Live i → (s.obj.slots i).generation ≠ h.generation

variable {s t : World E}

theorem bound_enter {m m' : Manager} {i : Fin maxMappings} {owner : Nat} {r : Range}
    (hm : m' = m.enter i owner r) (hserial : m.serial ≠ 0) (hlt : m.serial < 2 ^ 64) :
    m'.bound = m.serial + 1 ∧ m.bound = m.serial := by
  refine ⟨?_, if_neg hserial⟩
  have hnext : m'.serial = (m.serial + 1) % 2 ^ 64 := by rw [hm, Manager.enter]
  unfold Manager.bound
  split_ifs with hzero
  · omega
  · omega

theorem slots_enter {m m' : Manager} {i : Fin maxMappings} {owner : Nat} {r : Range}
    (hm : m' = m.enter i owner r) : m'.slots i = (m.slots i).reserve owner m.epoch m.serial r ∧
      ∀ j, j ≠ i → m'.slots j = m.slots j := by
  subst hm
  exact ⟨update_self .., fun j hj => update_of_ne hj ..⟩

theorem Numbered.keep (h : Numbered s) (hkeeps : Keeps s.obj.mgr t.obj.mgr)
    (hfreed : ∀ h ∈ freedHandles t.log, h.generation < s.obj.bound ∧
      ∀ i, t.obj.Live i → (t.obj.slots i).generation ≠ h.generation) : Numbered t := by
  rcases hkeeps with ⟨hranges, hserial, hslots⟩
  have hbound : t.obj.bound = s.obj.bound := by
    unfold Manager.bound
    rw [hserial]
  refine ⟨fun i hi => ?_, hserial ▸ h.serial, fun i hi => ?_, fun i hi => ?_,
    fun i j hi hj hij => ?_,
    fun x hx => hbound ▸ hfreed x hx⟩
  · simp [(hslots i hi).2.2, h.within, *]
  · simp [(hslots i hi).2.1, h.positive, *]
  · simp [(hslots i hi).2.1, h.below, *]
  · simp [(hslots i hi).2.1, (hslots j hj).2.1, h.distinct, *]

theorem Numbered.start (h : Numbered s) (hnone : ∀ i, ¬s.obj.Live i)
    (hslots : t.obj.slots = s.obj.slots) (hserial : t.obj.serial = s.obj.serial)
    (hfreed : freedHandles t.log = freedHandles s.log) : Numbered t := by
  have hnone' : ∀ i, ¬t.obj.Live i := by
    intro i
    unfold Manager.Live
    rw [hslots]
    exact hnone i
  have hbound : t.obj.bound = s.obj.bound := by
    unfold Manager.bound
    rw [hserial]
  refine ⟨fun i hi => absurd hi (hnone' i), hserial ▸ h.serial, fun i hi => absurd hi (hnone' i),
    fun i hi => absurd hi (hnone' i), fun i _ hi => absurd hi (hnone' i), fun x hx => ?_⟩
  rw [hfreed] at hx
  exact ⟨hbound ▸ (h.gone x hx).1, fun i hi => absurd hi (hnone' i)⟩

theorem Numbered.reserve (h : Numbered s) {i : Fin maxMappings} {owner : Nat} {r : Range}
    (hfits : s.obj.Fits r) (hserial : s.obj.serial ≠ 0)
    (hmgr : t.obj.mgr = s.obj.mgr.enter i owner r)
    (hfreed : freedHandles t.log = freedHandles s.log) : Numbered t := by
  have hbounds := bound_enter hmgr hserial h.serial
  obtain ⟨hnew, hold⟩ := slots_enter hmgr
  have hlive : ∀ j, j ≠ i → t.obj.Live j → s.obj.Live j := by
    intro j hj hl
    unfold Manager.Live at hl ⊢
    rwa [← hold j hj]
  have hbelow : ∀ j, j ≠ i → t.obj.Live j →
      (t.obj.slots j).generation < s.obj.serial := by
    intro j hj hl
    rw [hold j hj, ← hbounds.2]
    exact h.below j (hlive j hj hl)
  have hgen : (t.obj.slots i).generation = s.obj.serial := by rw [hnew]; rfl
  refine ⟨fun j hj => ?_, ?_, fun j hj => ?_, fun j hj => ?_, fun j k hj hk hjk => ?_,
    fun x hx => ?_⟩
  · by_cases hji : j = i
    · subst hji
      rw [hnew, hmgr]
      exact hfits.2.2.1
    · rw [hold j hji, hmgr]
      exact h.within j (hlive j hji hj)
  · rw [hmgr]
    exact Nat.mod_lt _ (by norm_num)
  · by_cases hji : j = i
    · subst hji
      rw [hgen]
      exact hserial
    · rw [hold j hji]
      exact h.positive j (hlive j hji hj)
  · rw [hbounds.1]
    by_cases hji : j = i
    · subst hji
      rw [hgen]
      exact Nat.lt_succ_self _
    · exact Nat.lt_succ_of_lt (hbelow j hji hj)
  · by_cases hji : j = i
    · subst hji
      rw [hgen]
      exact (Nat.ne_of_lt (hbelow k (Ne.symm hjk) hk)).symm
    · by_cases hki : k = i
      · subst hki
        rw [hgen]
        exact Nat.ne_of_lt (hbelow j hji hj)
      · rw [hold j hji, hold k hki]
        exact h.distinct j k (hlive j hji hj) (hlive k hki hk) hjk
  · rw [hfreed] at hx
    rcases h.gone x hx with ⟨hlt, hne⟩
    rw [hbounds.2] at hlt
    rw [hbounds.1]
    refine ⟨Nat.lt_succ_of_lt hlt, fun j hj => ?_⟩
    by_cases hji : j = i
    · subst hji
      rw [hgen]
      exact (Nat.ne_of_lt hlt).symm
    · rw [hold j hji]
      exact hne j (hlive j hji hj)

theorem Numbered.free (h : Numbered s) {i : Fin maxMappings} (hlive : s.obj.Live i)
    (hkeeps : Keeps s.obj.mgr t.obj.mgr) (hothers : ∀ j, t.obj.Live j ↔ j ≠ i ∧ s.obj.Live j)
    (hfreed : freedHandles t.log = ⟨i, (s.obj.slots i).generation⟩ :: freedHandles s.log) :
    Numbered t := by
  refine h.keep hkeeps fun x hx => ?_
  rw [hfreed] at hx
  rcases List.mem_cons.mp hx with rfl | hx
  · refine ⟨h.below i hlive, fun j hj => ?_⟩
    rw [(hkeeps.2.2 j hj).2.1]
    exact h.distinct j i (hkeeps.2.2 j hj).1 hlive ((hothers j).mp hj).1
  · refine ⟨(h.gone x hx).1, fun j hj => ?_⟩
    rw [(hkeeps.2.2 j hj).2.1]
    exact (h.gone x hx).2 j (hkeeps.2.2 j hj).1

theorem step_numbered (hinv : Inv s) (h : Step s t) (hn : Numbered s) : Numbered t := by
  rcases step_identity hinv h with ⟨hkeeps, _, hfreed⟩ | ⟨hnone, hslots, hserial, hfreed⟩ |
    ⟨i, owner, r, hfits, hserial, _, hmgr, hfreed⟩ | ⟨i, hlive, hkeeps, hothers, hfreed⟩
  · refine hn.keep hkeeps fun x hx => ?_
    rw [hfreed] at hx
    refine ⟨(hn.gone x hx).1, fun j hj => ?_⟩
    rw [(hkeeps.2.2 j hj).2.1]
    exact (hn.gone x hx).2 j (hkeeps.2.2 j hj).1
  · exact hn.start hnone hslots hserial hfreed
  · exact hn.reserve hfits hserial hmgr hfreed
  · exact hn.free hlive hkeeps hothers hfreed

/-- Every path keeps generations apart. -/
theorem reaches_numbered (hinv : Inv s) (h : Reaches s t) (hn : Numbered s) : Numbered t := by
  induction h with
  | refl => exact hn
  | tail hpath hstep ih => exact step_numbered (reaches_inv hpath hinv) hstep ih

theorem reaches_bound (hinv : Inv s) (h : Reaches s t) (hn : Numbered s) :
    s.obj.bound ≤ t.obj.bound ∧ (s.obj.serial = 0 → t.obj.serial = 0) := by
  induction h with
  | refl => exact ⟨Nat.le_refl _, id⟩
  | @tail u v hpath hstep ih =>
    have hkept : v.obj.serial = u.obj.serial →
        s.obj.bound ≤ v.obj.bound ∧ (s.obj.serial = 0 → v.obj.serial = 0) := by
      intro hserial
      unfold Manager.bound at ih ⊢
      rw [hserial]
      exact ih
    rcases step_identity (reaches_inv hpath hinv) hstep with ⟨hkeeps, _⟩ | ⟨_, _, hserial, _⟩ |
      ⟨i, owner, r, _, hserial, _, hmgr, _⟩ | ⟨_, _, hkeeps, _⟩
    · exact hkept hkeeps.2.1
    · exact hkept hserial
    · have hbounds := bound_enter hmgr hserial (reaches_numbered hinv hpath hn).serial
      refine ⟨?_, fun hzero => absurd (ih.2 hzero) hserial⟩
      rw [hbounds.1]
      have := ih.1
      rw [hbounds.2] at this
      omega
    · exact hkept hkeeps.2.1

def Manager.Names (m : Manager) (h : Handle) : Prop :=
  ∃ i : Fin maxMappings, h.slot = i ∧ m.Live i ∧ (m.slots i).generation = h.generation

/-- A handle that names a slot does so until it is handed back. -/
theorem step_names (hinv : Inv s) (h : Step s t) {x : Handle} (hx : s.obj.Names x) :
    t.obj.Names x ∨ x ∈ freedHandles t.log := by
  rcases hx with ⟨i, hslot, hlive, hgen⟩
  rcases step_identity hinv h with ⟨hkeeps, hstays, _⟩ | ⟨hnone, _⟩ |
    ⟨j, owner, r, _, _, hfree, hmgr, _⟩ | ⟨j, _, hkeeps, hothers, hfreed⟩
  · have hl := hstays i hlive
    exact .inl ⟨i, hslot, hl, (hkeeps.2.2 i hl).2.1.trans hgen⟩
  · exact absurd hlive (hnone i)
  · have hij : i ≠ j := by
      rintro rfl
      exact hfree hlive
    have hsame := (slots_enter hmgr).2 i hij
    refine .inl ⟨i, hslot, ?_, ?_⟩
    · unfold Manager.Live
      rwa [hsame]
    · rwa [hsame]
  · by_cases hij : i = j
    · subst hij
      right
      rw [hfreed, ← hslot, hgen]
      exact List.mem_cons_self
    · have hl := (hothers i).mpr ⟨hij, hlive⟩
      exact .inl ⟨i, hslot, hl, (hkeeps.2.2 i hl).2.1.trans hgen⟩

theorem step_freed (hinv : Inv s) (h : Step s t) {x : Handle} (hx : x ∈ freedHandles s.log) :
    x ∈ freedHandles t.log := by
  rcases step_identity hinv h with ⟨_, _, hfreed⟩ | ⟨_, _, _, hfreed⟩ |
    ⟨_, _, _, _, _, _, _, hfreed⟩ | ⟨_, _, _, _, hfreed⟩ <;> rw [hfreed]
  · exact hx
  · exact hx
  · exact hx
  · exact List.mem_cons_of_mem _ hx

theorem reaches_names (hinv : Inv s) (h : Reaches s t) {x : Handle}
    (hx : s.obj.Names x ∨ x ∈ freedHandles s.log) :
    t.obj.Names x ∨ x ∈ freedHandles t.log := by
  induction h with
  | refl => exact hx
  | tail hpath hstep ih =>
    have hinv' := reaches_inv hpath hinv
    rcases ih with ih | ih
    · exact step_names hinv' hstep ih
    · exact .inr (step_freed hinv' hstep ih)

end Numbers

section Grants

def grant (io : Backend E) : Call → Op E (Option Handle)
  | .reserve owner epoch bytes alignment => do
    return (← reserve io owner epoch bytes alignment).toOption
  | .reserveAt owner epoch r => do
    return (← reserveAt io owner epoch r).toOption
  | .initializeManager epoch ranges complete => do
    let _ ← step io (.initializeManager epoch ranges complete)
    return none
  | .publish owner epoch h b pat => do
    let _ ← step io (.publish owner epoch h b pat)
    return none
  | .published owner epoch h b => do
    let _ ← step io (.published owner epoch h b)
    return none
  | .retain owner epoch h b => do
    let _ ← step io (.retain owner epoch h b)
    return none
  | .release owner epoch h => do
    let _ ← step io (.release owner epoch h)
    return none
  | .retire owner epoch h => do
    let _ ← step io (.retire owner epoch h)
    return none
  | .close => do
    let _ ← step io .close
    return none

def issued (io : Backend E) (calls : List Call) (s : World E) : List Handle :=
  (runAll (grant io) calls s).1.reduceOption

theorem grant_step (io : Backend E) (c : Call) (s : World E) :
    (grant io c s).2 = (step io c s).2 := by
  cases c <;> rfl

theorem issued_cons (io : Backend E) (c : Call) (calls : List Call) (s : World E) :
    issued io (c :: calls) s =
      (grant io c s).1.toList ++ issued io calls (step io c s).2 := by
  rw [← grant_step]
  change ((grant io c s).1 :: (runAll (grant io) calls (grant io c s).2).1).reduceOption = _
  cases (grant io c s).1 with
  | none | some => rfl

/-- A reservation that succeeds, and one that does not. -/
def Reserved (m : Manager) (r : Except Status Handle) (s : World E) : Prop :=
  match r with
  | .error _ => s.obj.mgr = m
  | .ok h => m.serial ≠ 0 ∧ ∃ (i : Fin maxMappings) (owner : Nat) (range : Range), 
      h = ⟨i, m.serial⟩ ∧ s.obj.mgr = m.enter i owner range

variable {io : Backend E} {m : Manager}

theorem insert_reserved (owner : Nat) (r : Range) :
    Spec (fun s => s.obj.mgr = m) (insert owner r : Op E (Except Status Handle)) (Reserved m) := by
  refine bind_mgr (fun _ h => h) ?_
  unfold Manager.insert
  split_ifs with hserial
  · exact spec_pure _ fun _ hs => hs
  · cases m.freeSlot with
    | none => exact spec_pure _ fun _ hs => hs
    | some i => exact fun s _ => ⟨hserial, i, owner, r, rfl, rfl⟩

theorem manager_stable (m : Manager) : Stable fun s : World E => s.obj.mgr = m :=
  fun _ _ _ _ _ hs => hs

theorem reserveAt_reserved (owner epoch : Nat) (r : Range) :
    Spec (fun s => s.obj.mgr = m) (reserveAt io owner epoch r) (Reserved m) := by
  refine bind_mgr (fun _ h => h) ?_
  refine spec_guard (fun _ hs => hs) ?_
  refine spec_bind (live_spec (manager_stable m)) fun _ => ?_
  refine spec_guard (fun _ hs => hs) ?_
  refine spec_guard (fun _ hs => hs) ?_
  refine bind_mgr (fun _ h => h) ?_
  exact spec_unless (fun _ hs => hs) fun _ => insert_reserved owner r

theorem reserve_reserved (owner epoch bytes alignment : Nat) :
    Spec (fun s => s.obj.mgr = m) (reserve io owner epoch bytes alignment) (Reserved m) := by
  refine bind_mgr (fun _ h => h) ?_
  refine spec_guard (fun _ hs => hs) ?_
  refine spec_bind (live_spec (manager_stable m)) fun _ => ?_
  refine spec_guard (fun _ hs => hs) ?_
  refine spec_guard (fun _ hs => hs) ?_
  refine bind_mgr (fun _ h => h) ?_
  cases m.place bytes alignment with
  | none => exact spec_pure _ fun _ hs => hs
  | some base => exact insert_reserved owner _

/-- What a call does to the handles. -/
structure Granted (s t : World E) (o : Option Handle) : Prop where
  fresh : ∀ h ∈ o, s.obj.bound ≤ h.generation ∧ h.generation < t.obj.bound ∧
    t.obj.Names h
  known : ∀ i, t.obj.Live i → ⟨i, (t.obj.slots i).generation⟩ ∈ o ∨
    (s.obj.Live i ∧ (t.obj.slots i).generation = (s.obj.slots i).generation)

variable {s t : World E} {c : Call}

theorem Reserved.granted (hn : Numbered s) {r : Except Status Handle} (h : Reserved s.obj.mgr r t) :
    Granted s t r.toOption := by
  cases r with
  | error e =>
    have hmgr : t.obj.mgr = s.obj.mgr := h
    refine ⟨nofun, fun i hi => .inr ?_⟩
    rw [hmgr] at hi ⊢
    exact ⟨hi, rfl⟩
  | ok x =>
    rcases h with ⟨hserial, i, owner, range, rfl, hmgr⟩
    have hbounds := bound_enter hmgr hserial hn.serial
    obtain ⟨hnew, hold⟩ := slots_enter hmgr
    refine ⟨fun x hx => ?_, fun j hj => ?_⟩
    · cases hx
      refine ⟨Nat.le_of_eq hbounds.2, by rw [hbounds.1]; exact Nat.lt_succ_self _, i, rfl, ?_, ?_⟩
      · unfold Manager.Live
        rw [hnew]
        exact nofun
      · rw [hnew]
        rfl
    · by_cases hji : j = i
      · subst hji
        left
        rw [hnew]
        rfl
      · unfold Manager.Live at hj ⊢
        rw [hold j hji] at hj ⊢
        exact .inr ⟨hj, rfl⟩

/-- Only reservations grant handles, and the others make no slot in use. -/
theorem step_granted (hinv : Inv s) (hidle : Idle s) (hn : Numbered s)
    (hn' : Numbered (step io c s).2) : Granted s (step io c s).2 (grant io c s).1 := by
  by_cases hc : c.reserves = false
  · have hnone : (grant io c s).1 = none := by cases c <;> first | rfl | cases hc
    rw [hnone]
    refine ⟨nofun, fun i hi => .inr ?_⟩
    have hpos := hn'.positive i hi
    have hsame := ((step_quiet io hinv.wf hidle hc).kept i).resolve_left hpos
    refine ⟨fun hfree => hpos ?_, hsame⟩
    rw [hsame, (hinv.wf.slots i).free hfree]
    rfl
  · cases c with
    | reserve owner epoch bytes alignment =>
      exact Reserved.granted hn (reserve_reserved owner epoch bytes alignment s rfl)
    | reserveAt owner epoch r => exact Reserved.granted hn (reserveAt_reserved owner epoch r s rfl)
    | _ => exact absurd rfl hc

end Grants

section Runs

variable {s : World E}

structure Ledger (s t : World E) (hs : List Handle) : Prop where
  order : hs.Pairwise fun h h' => h.generation < h'.generation
  fresh : ∀ h ∈ hs, s.obj.bound ≤ h.generation ∧ h.generation < t.obj.bound
  kept : ∀ h ∈ hs, t.obj.Names h ∨ h ∈ freedHandles t.log
  known : ∀ i, t.obj.Live i → ⟨i, (t.obj.slots i).generation⟩ ∈ hs ∨
    (s.obj.Live i ∧ (t.obj.slots i).generation = (s.obj.slots i).generation)

variable {io : Backend E}

theorem Ledger.cons {u t : World E} {o : Option Handle} {hs : List Handle}
    (hinv : Inv u) (hpath : Reaches u t) (hbound : s.obj.bound ≤ u.obj.bound)
    (hbound' : u.obj.bound ≤ t.obj.bound) (ho : Granted s u o) (h : Ledger u t hs) :
    Ledger s t (o.toList ++ hs) := by
  refine ⟨?_, fun x hx => ?_, fun x hx => ?_, fun i hi => ?_⟩
  · refine List.pairwise_append.mpr ⟨?_, h.order, fun x hx y hy => ?_⟩
    · simp
    · have := (ho.fresh x (Option.mem_toList.mp hx)).2.1
      exact Nat.lt_of_lt_of_le this (h.fresh y hy).1
  · rcases List.mem_append.mp hx with hx | hx
    · have := ho.fresh x (Option.mem_toList.mp hx)
      exact ⟨this.1, Nat.lt_of_lt_of_le this.2.1 hbound'⟩
    · exact ⟨Nat.le_trans hbound (h.fresh x hx).1, (h.fresh x hx).2⟩
  · rcases List.mem_append.mp hx with hx | hx
    · exact reaches_names hinv hpath (.inl (ho.fresh x (Option.mem_toList.mp hx)).2.2)
    · exact h.kept x hx
  · rcases h.known i hi with hmem | ⟨hlive, hgen⟩
    · exact .inl (List.mem_append_right _ hmem)
    · rcases ho.known i hlive with hmem | ⟨hlive', hgen'⟩
      · rw [hgen]
        exact .inl (List.mem_append_left _ (Option.mem_toList.mpr hmem))
      · exact .inr ⟨hlive', hgen.trans hgen'⟩

theorem runAll_ledger (io : Backend E) (calls : List Call) (hinv : Inv s)
    (hidle : Idle s) (hn : Numbered s) :
    Reaches s (runAll (step io) calls s).2 ∧
      Ledger s (runAll (step io) calls s).2 (issued io calls s) := by
  induction calls generalizing s with
  | nil => exact ⟨.refl, .nil, nofun, nofun, fun i hi => .inr ⟨hi, rfl⟩⟩
  | cons c calls ih =>
    rcases step_reaches io hinv.wf hidle c with ⟨hpath, hidle'⟩
    have hinv' := reaches_inv hpath hinv
    have hn' := reaches_numbered hinv hpath hn
    rcases ih hinv' hidle' hn' with ⟨hrest, hledger⟩
    rw [issued_cons]
    change Reaches s (runAll (step io) calls (step io c s).2).2 ∧
      Ledger s (runAll (step io) calls (step io c s).2).2 _
    exact ⟨hpath.trans hrest, hledger.cons hinv' hrest (reaches_bound hinv hpath hn).1
      (reaches_bound hinv' hrest hn').1 (step_granted hinv hidle hn hn')⟩

def Call.handle? : Call → Option Handle
  | .publish _ _ h _ _ => some h
  | .published _ _ h _ => some h
  | .retain _ _ h _ => some h
  | .release _ _ h => some h
  | .retire _ _ h => some h
  | .initializeManager _ _ _ => none
  | .reserve _ _ _ _ => none
  | .reserveAt _ _ _ => none
  | .close => none

theorem get_error {m : Manager} {owner epoch : Nat} {h : Handle} {e : Status}
    (hget : m.get owner epoch h = .error e) : e ≠ .ok := by
  rintro rfl
  unfold Manager.get at hget
  dsimp only at hget
  split_ifs at hget <;> cases hget

/-- `get` refuses handles that were handed back. -/
theorem Numbered.stale (hn : Numbered s) {h : Handle}
    (hh : h ∈ freedHandles s.log) (owner epoch : Nat) :
    ∃ e, e ≠ .ok ∧ s.obj.get owner epoch h = .error e := by
  cases hget : s.obj.get owner epoch h with
  | error e => exact ⟨e, get_error hget, rfl⟩
  | ok i =>
    rcases get_ok hget with ⟨_, _, hlive, hgen, _⟩
    exact absurd hgen ((hn.gone h hh).2 i hlive)

section Refused

variable {s : World E} {owner epoch : Nat} {h : Handle} {e : Status}

theorem mgr_bind {α : Type} (f : Manager → Op E α) (s : World E) :
    (mgr >>= f) s = f s.obj.mgr s := rfl

theorem publish_refused (hget : s.obj.get owner epoch h = .error e) (b : Backing) (pat : Nat) :
    publish io owner epoch h b pat s = (e, s) := by
  unfold publish
  rw [mgr_bind, hget]
  rfl

theorem published_refused (hget : s.obj.get owner epoch h = .error e) (b : Backing) :
    published io owner epoch h b s = (.error e, s) := by
  unfold published
  rw [mgr_bind, hget]
  rfl

theorem bind_refused {α β : Type} {p : Op E α} {f : α → Op E β} {a : α} (hp : p s = (a, s)) :
    (p >>= f) s = f a s := by
  change f (p s).1 (p s).2 = _
  rw [hp]

theorem step_refused {c : Call} (hc : c.handle? = some h)
    (hget : ∀ owner epoch, ∃ e, e ≠ .ok ∧ s.obj.get owner epoch h = .error e) :
    (step io c s).1 ≠ .ok ∧ (step io c s).2 = s := by
  suffices hstep : ∃ e, e ≠ .ok ∧ step io c s = (e, s) by
    rcases hstep with ⟨e, hne, heq⟩
    rw [heq]
    exact ⟨hne, rfl⟩
  cases c with
  | publish owner epoch h' b pat =>
    cases hc
    rcases hget owner epoch with ⟨e, hne, he⟩
    exact ⟨e, hne, publish_refused he b pat⟩
  | published owner epoch h' b =>
    cases hc
    rcases hget owner epoch with ⟨e, hne, he⟩
    exact ⟨e, hne, bind_refused (published_refused he b)⟩
  | retain owner epoch h' b =>
    cases hc
    rcases hget owner epoch with ⟨e, hne, he⟩
    exact ⟨e, hne, bind_refused (published_refused he b)⟩
  | release owner epoch h' =>
    cases hc
    rcases hget owner epoch with ⟨e, hne, he⟩
    refine ⟨e, hne, ?_⟩
    change release io owner epoch h s = _
    unfold release
    rw [mgr_bind, he]
    rfl
  | retire owner epoch h' =>
    cases hc
    rcases hget owner epoch with ⟨e, hne, he⟩
    refine ⟨e, hne, ?_⟩
    change retire io owner epoch h s = _
    unfold retire
    rw [mgr_bind, he]
    rfl
  | initializeManager | reserve | reserveAt | close => cases hc

end Refused

end Runs

/-- What holds where `hs` are the handles that were returned. -/
structure HandleSafe (io : Backend E) (s : World E) (hs : List Handle) : Prop where
  aligned : ∀ i, s.obj.Live i → (s.obj.slots i).range.address % pageSize = 0 ∧
    (s.obj.slots i).range.bytes % pageSize = 0 ∧ (s.obj.slots i).range.bytes ≠ 0
  within : ∀ i, s.obj.Live i → ∃ g ∈ s.obj.ranges, (s.obj.slots i).range.Within g
  disjoint : ∀ i j, s.obj.Live i → s.obj.Live j → i ≠ j →
    ∀ a, ¬((s.obj.slots i).range.Has a ∧ (s.obj.slots j).range.Has a)
  positive : ∀ i, s.obj.Live i → (s.obj.slots i).generation ≠ 0
  distinct : ∀ i j, s.obj.Live i → s.obj.Live j → i ≠ j →
    (s.obj.slots i).generation ≠ (s.obj.slots j).generation
  /-- Generations increase, and slots in use have one of them. -/
  increasing : hs.Pairwise fun h h' => h.generation < h'.generation
  given : ∀ i, s.obj.Live i → ⟨i, (s.obj.slots i).generation⟩ ∈ hs
  /-- A handle names a slot in use, or it was handed back. -/
  kept : ∀ h ∈ hs, s.obj.Names h ∨ h ∈ freedHandles s.log
  /-- Handles that were handed back are refused by everything. -/
  stale : ∀ h ∈ freedHandles s.log,
    (∀ owner epoch, ∃ e, e ≠ .ok ∧ s.obj.get owner epoch h = .error e) ∧
    ∀ c : Call, c.handle? = some h → (step io c s).1 ≠ .ok ∧ (step io c s).2 = s
  /-- Once generations have run out nothing is reserved. -/
  exhausted : s.obj.serial = 0 → ∀ calls, issued io calls s = []

theorem start_numbered (pte : Nat → Nat) (env : E) : Numbered (start pte env) where
  within := fun _ hi => absurd rfl hi
  serial := by
    change 1 < 2 ^ 64
    norm_num
  positive := fun _ hi => absurd rfl hi
  below := fun _ hi => absurd rfl hi
  distinct := fun _ _ hi => absurd rfl hi
  gone := nofun

/-- Ranges and handles over every sequence of calls. -/
theorem run_handles (io : Backend E) (calls : List Call) (pte : Nat → Nat) (env : E) :
    HandleSafe io (run io calls pte env) (issued io calls (start pte env)) := by
  have hinv₀ := start_inv pte env
  rcases runAll_ledger io calls hinv₀ (start_idle pte env) (start_numbered pte env) with
    ⟨hpath, hledger⟩
  have hinv := reaches_inv hpath hinv₀
  have hn := reaches_numbered hinv₀ hpath (start_numbered pte env)
  have hidle := (run_reaches io calls pte env).2.2
  refine ⟨fun i hi => ?_, hn.within, fun i j hi hj hij a ha => ?_, hn.positive, hn.distinct,
    hledger.order, fun i hi => ?_, hledger.kept, fun h hh => ⟨hn.stale hh, fun c hc => ?_⟩,
    fun hzero calls' => ?_⟩
  · rcases (hinv.wf.slots i).placed hi with ⟨hbytes, haddress, hpages, _⟩
    exact ⟨haddress, hpages, hbytes⟩
  · exact hinv.apart i j hi hj hij (overlap_of_has ha.1 ha.2)
  · exact (hledger.known i hi).resolve_right fun h => h.1 rfl
  · exact step_refused hc (hn.stale hh)
  · -- A handle would have a generation at the bound, and below it.
    rcases runAll_ledger io calls' hinv hidle hn with ⟨hpath', hledger'⟩
    refine List.eq_nil_iff_forall_not_mem.mpr fun h hh => ?_
    have hfresh := hledger'.fresh h hh
    have hzero' := (reaches_bound hinv hpath' hn).2 hzero
    have hbound : (run io calls pte env).obj.bound = 2 ^ 64 := if_pos hzero
    have hbound' : (runAll (step io) calls' (run io calls pte env)).2.obj.bound = 2 ^ 64 :=
      if_pos hzero'
    exact absurd (hbound' ▸ hfresh.2) (Nat.not_lt.mpr (hbound ▸ hfresh.1))

end Mellow.Ggtt
