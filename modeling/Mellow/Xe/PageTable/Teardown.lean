import Mellow.Xe.PageTable.Accounting

/-!
# Sealing and Tearing Down

A sealed table is given to the hardware and never changes again. A table that is
not sealed can be emptied by its owner, in any order.

## Theorems

* `run_emptied`: every call succeeds, and no page of the pool is lost.
* `run_sealed`: the hardware finds the same pages ever after.
-/

namespace Mellow.XeMemory

open Lib

namespace PageTable

variable {t : PageTable} {owner va : Nat} {m : Shadow}

theorem step_sealed (h : t.isSealed = true) (c : Call) : (t.step c).2 = t := by
  cases c with
  | map4K => simp only [step, map4K, h, if_true]; split_ifs <;> rfl
  | unmap4K => simp [step, unmap4K, h]
  | lookup => rfl
  | sealRoot =>
    -- Sealing once more sets a flag that is set.
    have hflag : { t with isSealed := true } = t := by rw [← h]
    simp only [step, sealRoot]
    split_ifs <;> simp [hflag]

theorem run_of_sealed (h : t.isSealed = true) (calls : List Call) : t.run calls = t := by
  induction calls with
  | nil => rfl
  | cons c calls ih => rw [run, List.foldl_cons, step_sealed h c]; exact ih

/-- Unmapping is never refused where there is something to unmap. -/
theorem Hole.unmap4K_ok (h : Inv t) (hopen : t.isSealed = false) (hpage : Page va)
    (hmap : t.mapped va ≠ none) : (t.unmap4K t.owner va).1 = .ok := by
  rcases Option.ne_none_iff_exists'.mp hmap with ⟨v, hv⟩
  have hlook := lookup_eq h.ready h.coherent h.shape hpage.1 hpage.2
  have htrail := trail_spec h va h.shape.top (show Chain t va 3 0 [] from rfl)
  rw [hv] at hlook
  rw [mapped, Trie.get] at hv
  rcases Option.bind_eq_some_iff.mp hv with ⟨leaf, hwalk, -⟩
  rw [hwalk] at htrail
  rcases htrail with ⟨above, htrail, -⟩
  simp [unmap4K, hopen, hlook, pageTableIndices_eq hpage.2, htrail]

/-- The pages of the map can be unmapped one after the other, in any order. -/
theorem Holds.drain (vas : List Nat) : ∀ {t m}, Holds owner t m → t.isSealed = false →
    vas.Nodup → (∀ va, va ∈ vas ↔ va ∈ m) →
    (∀ e ∈ t.trace (vas.map (.unmap4K owner)), e.2 = .ok) ∧
      ∃ m', Holds owner (t.run (vas.map (.unmap4K owner))) m' ∧ ∀ va, va ∉ m' := by
  induction vas with
  | nil =>
    intro t m h _ _ hall
    exact ⟨nofun, m, h, fun va hva => by simpa using (hall va).mpr hva⟩
  | cons va rest ih =>
    intro t m h hopen hnodup hall
    have hin : va ∈ m := (hall va).mp List.mem_cons_self
    have hpage := h.pages va hin
    have hok := h.inv.unmap4K_ok hopen hpage ((h.mem_iff hpage).mp hin)
    rw [h.owner] at hok
    rcases unmap4K_spec h.inv owner va with ⟨hne, -⟩ | ⟨-, hdone⟩
    · exact absurd hok hne
    rw [List.nodup_cons] at hnodup
    have hrest := ih (h.erase hdone) (hdone.isSealed.trans hopen) hnodup.2 fun vb => by
      rw [Finmap.mem_erase, ← hall vb, List.mem_cons]
      grind
    refine ⟨fun e he => ?_, hrest.2⟩
    rcases List.mem_cons.mp he with rfl | he
    · exact hok
    · exact hrest.1 e he

theorem Holds.emptied (h : Holds owner t m) (hm : ∀ va, va ∉ m) :
    t.usedPages = 1 ∧ t.mappedPages = 0 := by
  have hlive : ∀ l, t.liveRegions l = ∅ := by
    intro l
    refine Set.eq_empty_of_forall_notMem ?_
    rintro r ⟨va, hva, -⟩
    rcases (h.inv.live_iff va).mp hva with ⟨hpage, hmap⟩
    exact hm va ((h.mem_iff hpage).mpr hmap)
  have hkeys : m.keys = ∅ := Finset.eq_empty_of_forall_notMem fun va hva =>
    hm va (Finmap.mem_keys.mp hva)
  refine ⟨by simp [h.inv.tidy.count, hlive], ?_⟩
  rw [mappedPages, h.size, hkeys, Finset.card_empty]

/-- After any calls on an initialised table that was not sealed, the owner can
    unmap all pages in any order, and only the root is in use when that is
    done. -/
theorem run_emptied (mem : Nat → Nat) (owner : Nat) (pool : List TablePage) (pat : Nat)
    (h : ((fresh mem).initializePool owner pool pat).1 = .ok) (calls : List Call)
    (hopen : (((fresh mem).initializePool owner pool pat).2.run calls).isSealed = false) :
    let t := ((fresh mem).initializePool owner pool pat).2.run calls
    let m := Shadow.replay (((fresh mem).initializePool owner pool pat).2.trace calls)
    t.mappedPages = m.keys.card ∧ ∀ vas : List Nat, vas.Perm m.keys.toList →
      (∀ e ∈ t.trace (vas.map (.unmap4K owner)), e.2 = .ok) ∧
      (t.run (vas.map (.unmap4K owner))).usedPages = 1 ∧
      (t.run (vas.map (.unmap4K owner))).mappedPages = 0 := by
  intro t m
  have hrun : Holds owner t m := (holds_initializePool h).run calls
  refine ⟨hrun.size, fun vas hperm => ?_⟩
  have hall : ∀ va, va ∈ vas ↔ va ∈ m := fun va => by
    rw [hperm.mem_iff, Finset.mem_toList, Finmap.mem_keys]
  have hnodup : vas.Nodup := hperm.nodup_iff.mpr m.keys.nodup_toList
  rcases hrun.drain vas hopen hnodup hall with ⟨hok, m', hm, hnone⟩
  exact ⟨hok, hm.emptied hnone⟩

def fourPages : List TablePage :=
  [⟨0x1000, 0x10000⟩, ⟨0x2000, 0x11000⟩, ⟨0x3000, 0x12000⟩, ⟨0x4000, 0x13000⟩]

/-- A table of four pages with one page mapped. -/
def oneMapped : PageTable :=
  ((fresh fun _ => 0).initializePool 1 fourPages 0).2.run [.map4K 1 0x5000 0x9000 0 true]

theorem replay_oneMapped :
    Shadow.replay (((fresh fun _ => 0).initializePool 1 fourPages 0).2.trace
      [.map4K 1 0x5000 0x9000 0 true]) = Finmap.singleton 0x5000 0x9003 := by
  decide +kernel

theorem run_emptied_one :
    oneMapped.mappedPages = 1 ∧ (∀ e ∈ oneMapped.trace [.unmap4K 1 0x5000], e.2 = .ok) ∧
      (oneMapped.run [.unmap4K 1 0x5000]).usedPages = 1 ∧
      (oneMapped.run [.unmap4K 1 0x5000]).mappedPages = 0 := by
  have h := run_emptied (fun _ => 0) 1 fourPages 0 (by decide) [.map4K 1 0x5000 0x9000 0 true]
    (by decide +kernel)
  simp only [replay_oneMapped, Finmap.keys_singleton] at h
  exact ⟨h.1, h.2 [0x5000] (by simp)⟩

/-- After any calls on an initialised table the owner can seal it, and from the
    root that it is given the hardware finds the same pages ever after. -/
theorem run_sealed (mem : Nat → Nat) (owner : Nat) (pool : List TablePage) (pat : Nat)
    (h : ((fresh mem).initializePool owner pool pat).1 = .ok) (calls : List Call) :
    let t := ((fresh mem).initializePool owner pool pat).2.run calls
    let m := Shadow.replay (((fresh mem).initializePool owner pool pat).2.trace calls)
    ∃ root, (t.sealRoot owner).1 = .ok root ∧ ∀ more va, Page va →
      hardwareWalk ((t.sealRoot owner).2.run more).pool ((t.sealRoot owner).2.run more).mem
        va 3 root = m.lookup va := by
  intro t m
  have hrun : Holds owner t m := (holds_initializePool h).run calls
  have hseal : t.sealRoot owner = (.ok (t.page 0).dma, { t with isSealed := true }) := by
    rw [sealRoot, if_neg hrun.inv.ready.nonempty, if_neg (not_not.mpr hrun.owner.symm)]
  rw [hseal]
  refine ⟨_, rfl, fun more va hva => ?_⟩
  rw [run_of_sealed rfl more]
  exact hrun.refines.hardware va hva

theorem run_sealed_one : ∃ root, (oneMapped.sealRoot 1).1 = .ok root ∧
    hardwareWalk ((oneMapped.sealRoot 1).2.run [.unmap4K 1 0x5000]).pool
      ((oneMapped.sealRoot 1).2.run [.unmap4K 1 0x5000]).mem 0x5000 3 root = some 0x9003 := by
  have h := run_sealed (fun _ => 0) 1 fourPages 0 (by decide) [.map4K 1 0x5000 0x9000 0 true]
  simp only [replay_oneMapped] at h
  exact h.imp fun root h => ⟨h.1, h.2 [.unmap4K 1 0x5000] 0x5000 ⟨by decide, by decide⟩⟩

end PageTable

end Mellow.XeMemory
