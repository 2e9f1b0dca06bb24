import Mellow.Xe.Bridge.Model
import Mellow.Xe.Submission.Moves
import Mellow.Xe.VirtualMemory.Uses

/-!
# Counting Uses through the Bridge

The queue hands the bridge descriptors by value, and the bridge turns them back
into handles. A descriptor of a live allocation resolves for as long as the
allocation is left in place. What happens in between to the transport and to
other handles makes no difference.

## Main definitions

* `Good`: descriptors that resolve.
* `Recounts`: a change of the counts alone.

## Theorems

* `retained_uses`: a run of retains counts each descriptor once.
* `releases_uses`: a run of releases takes them back, and none of it fails.
-/

namespace Mellow.XeMemory

open Lib MellowXe Function

namespace Bridge

open VirtualMemory

variable {V T : Type}

/-- The descriptor matches a live allocation. -/
structure Mapped (vm : VirtualMemory) (r : Resource) : Prop where
  named : Named r
  generation : (vm.slots (handleOf r).slot).generation = r.mappingGeneration
  owner : (vm.slots (handleOf r).slot).owner = r.owner
  state : (vm.slots (handleOf r).slot).state = .bound ∨
    (vm.slots (handleOf r).slot).state = .retiring
  describes : Describes r (vm.slots (handleOf r).slot)

section Resolve

variable {vm : VirtualMemory} {r : Resource} {s : Sys VirtualMemory V VirtualMemory.Event}

theorem resolve_some {allow : Bool} {h : Handle} (hs : resolve vm r allow = some h) :
    h = handleOf r ∧ Mapped vm r := by
  unfold resolve at hs
  split at hs
  · cases hs
  · rename_i hnamed
    split at hs
    · cases hs
    · rename_i a ha
      rcases inspect_some ha with ⟨rfl, _, _, hgen, _, howner, _⟩
      split at hs
      · cases hs
      · rename_i hstate
        split at hs
        · cases hs
        · rename_i hdesc
          cases hs
          refine ⟨rfl, not_not.mp hnamed, hgen, howner, ?_, not_not.mp hdesc⟩
          by_cases hbound : (vm.slots (handleOf r).slot).state = .bound
          · exact Or.inl hbound
          · exact Or.inr (not_not.mp fun hno => hstate ⟨hbound, hno⟩).2

/-- A slot an allocation lives in lies inside a table that exists. -/
theorem inside_of_mapped (hinv : Inv s)
    (hm : Mapped s.obj r) :
    s.obj.ready = true ∧ (handleOf r).slot < s.obj.capacity := by
  have hlive : (s.obj.slots (handleOf r).slot).state ≠ .free := by
    rcases hm.state with h | h <;> rw [h] <;> decide
  have hin := (hinv.sound _).inside hlive
  refine ⟨?_, hin⟩
  by_contra hready
  have := hinv.unready (Bool.eq_false_of_not_eq_true hready)
  omega

theorem resolve_of_mapped (hinv : Inv s)
    (hm : Mapped s.obj r) : resolve s.obj r true = some (handleOf r) := by
  rcases inside_of_mapped hinv hm with ⟨hready, hin⟩
  have hnamed := hm.named
  have hlook : s.obj.inspect r.owner (handleOf r) = some (s.obj.slots (handleOf r).slot) := by
    unfold VirtualMemory.inspect
    have hbounds : ¬ (s.obj.ready = false ∨ (handleOf r).slot ≥ s.obj.capacity ∨
        (handleOf r).generation = 0 ∨ r.owner = 0) := by
      rw [hready]
      rintro (h | h | h | h)
      · cases h
      · omega
      · exact hnamed.2.2.2.1 h
      · exact hnamed.2.2.1 h
    rw [if_neg hbounds]
    dsimp only
    rw [if_pos]
    refine ⟨?_, ?_, hm.generation, hm.owner⟩ <;> rcases hm.state with h | h <;> rw [h] <;> decide
  unfold resolve
  rw [if_neg (not_not.mpr hnamed), hlook]
  dsimp only
  rw [if_neg, if_neg (not_not.mpr hm.describes)]
  rintro ⟨hbound, hret⟩
  rcases hm.state with h | h
  · exact hbound h
  · exact hret ⟨rfl, h⟩

/-- Its owner may call on it, too. -/
theorem lookup_of_mapped (hinv : Inv s)
    (hm : Mapped s.obj r) : s.obj.lookup r.owner (handleOf r) = .ok (handleOf r).slot := by
  rcases inside_of_mapped hinv hm with ⟨hready, hin⟩
  have hnamed := hm.named
  have hgen := hm.generation
  unfold VirtualMemory.lookup
  rw [if_neg, if_neg, if_neg, if_neg]
  · rcases hm.state with h | h <;> rw [h] <;> decide
  · rintro (h | h)
    · exact hnamed.2.2.1 h
    · exact h hm.owner
  · rintro (h | h | h)
    · rcases hm.state with h' | h' <;> rw [h'] at h <;> cases h
    · rcases hm.state with h' | h' <;> rw [h'] at h <;> cases h
    · exact h hgen
  · rw [hready]
    rintro (h | h | h)
    · cases h
    · omega
    · exact hnamed.2.2.2.1 h

/-- Only what is written in the slot matters, and not the count. -/
theorem Mapped.keeps {vm' : VirtualMemory} (hm : Mapped vm r)
    (hk : (vm.slots (handleOf r).slot).Keeps (vm'.slots (handleOf r).slot)) : Mapped vm' r where
  named := hm.named
  generation := hk.generation.trans hm.generation
  owner := hk.owner.trans hm.owner
  state := hk.state
  describes := by
    rcases hm.describes with ⟨haddr, hbytes, hpin⟩
    refine ⟨hk.address.trans haddr, hk.bytes.trans hbytes, ?_⟩
    rw [hk.pin, hk.bytes]
    exact hpin

end Resolve

section Counting

/-- The address space is sound and no release has failed. -/
structure Good (b : Bridge V T) : Prop where
  inv : Inv b.vm
  sound : b.faulted = false

/-- Nothing but counts has changed in the address space. -/
structure Recounts (b b' : Bridge V T) : Prop where
  good : Good b'
  log : b'.vm.log = b.vm.log
  mapped : ∀ r, Mapped b.vm.obj r → Mapped b'.vm.obj r

variable {b b' c : Bridge V T} {r : Resource}

theorem Good.recounts (h : Good b) : Recounts b b := ⟨h, rfl, fun _ hm => hm⟩

theorem Recounts.trans (h : Recounts b b') (h' : Recounts b' c) : Recounts b c :=
  ⟨h'.good, h'.log.trans h.log, fun r hm => h'.mapped r (h.mapped r hm)⟩

theorem recount_recounts (hb : Good b) {i : Nat} (n : Nat)
    (hstate : (b.vm.obj.slots i).state = .bound ∨ (b.vm.obj.slots i).state = .retiring) :
    Recounts b
      { b with vm := turned b.vm i [] { b.vm.obj.slots i with activeUses := n } b.vm.env } where
  good := ⟨recount_inv hstate hb.inv, hb.sound⟩
  log := rfl
  mapped _ hm := hm.keeps (recount_keeps b.vm i n _ hm.state)

theorem forward_recounts {α : Type} (f : T → α × T) (hb : Good b) :
    Recounts b (forward f b).2 ∧ (forward f b).2.vm = b.vm :=
  ⟨⟨⟨hb.inv, hb.sound⟩, rfl, fun _ hm => hm⟩, rfl⟩

theorem retain_true (hb : Good b) (h : retain r b = (true, b')) :
    Recounts b b' ∧ Mapped b'.vm.obj r ∧ uses b'.vm.obj
      = update (uses b.vm.obj) (handleOf r) (uses b.vm.obj (handleOf r) + 1) := by
  unfold retain at h
  rw [if_neg (by rw [hb.sound]; decide)] at h
  split at h
  · cases h
  · rename_i k hk
    rcases resolve_some hk with ⟨rfl, hm⟩
    rcases retainUse_result r.owner (handleOf r) b.vm with ⟨hl, hbound, hres⟩ | ⟨hne, _⟩
    · rw [hres] at h
      cases h
      have hlive : (b.vm.obj.slots (handleOf r).slot).state ≠ .free := by
        rw [hbound]
        decide
      have hrec := recount_recounts hb
        ((b.vm.obj.slots (handleOf r).slot).activeUses + 1) (Or.inl hbound)
      refine ⟨hrec, hrec.mapped r hm, ?_⟩
      rw [uses_recount b.vm _ _ hlive, uses_of_lookup hl, hm.generation]
      rfl
    · rw [Prod.mk.injEq, decide_eq_true_eq] at h
      exact absurd h.1 hne

theorem retain_false (h : retain r b = (false, b')) : b' = b := by
  unfold retain at h
  split at h
  · cases h
    rfl
  · split at h
    · cases h
      rfl
    · rename_i k hk
      rcases retainUse_result r.owner k b.vm with ⟨_, _, hres⟩ | ⟨_, hsame⟩
      · rw [hres] at h
        cases h
      · rw [Prod.mk.injEq, hsame] at h
        exact h.2.symm

theorem release_mapped (hb : Good b) (hm : Mapped b.vm.obj r)
    (hu : uses b.vm.obj (handleOf r) ≠ 0) :
    Recounts b (release r b) ∧ uses (release r b).vm.obj
      = update (uses b.vm.obj) (handleOf r) (uses b.vm.obj (handleOf r) - 1) := by
  have hl := lookup_of_mapped hb.inv hm
  rw [uses_of_lookup hl] at hu ⊢
  have hres := releaseUse_of_lookup hl hm.state hu
  have hlive : (b.vm.obj.slots (handleOf r).slot).state ≠ .free := by
    rcases hm.state with h | h <;> rw [h] <;> decide
  have heq : release r b = { b with
      vm := turned b.vm (handleOf r).slot [] { b.vm.obj.slots (handleOf r).slot with
        activeUses := (b.vm.obj.slots (handleOf r).slot).activeUses - 1 } b.vm.env } := by
    unfold release
    rw [resolve_of_mapped hb.inv hm]
    dsimp only
    rw [hres, if_pos rfl]
  rw [heq]
  refine ⟨recount_recounts hb _ hm.state, ?_⟩
  rw [uses_recount b.vm _ _ hlive, hm.generation]
  rfl

variable (transport : MellowXe.SubmissionBackend T)

/-- How often a list of descriptors names a handle. -/
def share (h : Handle) (rs : List Resource) : Nat := rs.countP fun r => handleOf r = h

theorem share_cons (h : Handle) (r : Resource) (rs : List Resource) :
    share h (r :: rs) = share h rs + if handleOf r = h then 1 else 0 := by
  unfold share
  rw [List.countP_cons]
  simp only [decide_eq_true_eq]

theorem share_reverse (h : Handle) (rs : List Resource) : share h rs.reverse = share h rs :=
  List.countP_reverse

theorem retained_uses (rs : List Resource) : ∀ b : Bridge V T, Good b →
    Retained (backend transport) rs b b' →
    Recounts b b' ∧ (∀ r ∈ rs, Mapped b'.vm.obj r) ∧
      ∀ h, uses b'.vm.obj h = uses b.vm.obj h + share h rs := by
  induction rs with
  | nil =>
    intro b hb hret
    cases hret
    exact ⟨hb.recounts, fun r hr => absurd hr List.not_mem_nil, fun h => rfl⟩
  | cons r rs ih =>
    intro b hb hret
    rcases hret with ⟨b₁, hfirst, hrest⟩
    rcases retain_true hb hfirst with ⟨hrec, hm, huses⟩
    rcases ih b₁ hrec.good hrest with ⟨hrec', hmapped, hcount⟩
    refine ⟨hrec.trans hrec', ?_, fun h => ?_⟩
    · intro x hx
      rcases List.mem_cons.mp hx with rfl | hx
      · exact hrec'.mapped x hm
      · exact hmapped x hx
    · rw [hcount, huses, share_cons, update_apply]
      by_cases hh : h = handleOf r
      · rw [if_pos hh, if_pos hh.symm, hh]
        omega
      · rw [if_neg hh, if_neg (Ne.symm hh)]
        omega

/-- A run of releases takes each of them back, if they were all counted. -/
theorem releases_uses (rs : List Resource) : ∀ b : Bridge V T, Good b →
    (∀ r ∈ rs, Mapped b.vm.obj r) → (∀ h, share h rs ≤ uses b.vm.obj h) →
    Recounts b (releases (backend transport) rs b) ∧ ∀ h,
      uses b.vm.obj h = uses (releases (backend transport) rs b).vm.obj h + share h rs := by
  induction rs with
  | nil =>
    intro b hb _ _
    exact ⟨hb.recounts, fun h => rfl⟩
  | cons r rs ih =>
    intro b hb hmapped hle
    -- The first of them is counted, so its release goes through.
    have hfirst := hle (handleOf r)
    rw [share_cons, if_pos rfl] at hfirst
    rcases release_mapped hb (hmapped r List.mem_cons_self) (by omega) with ⟨hrec, huses⟩
    have hstep : ∀ h, uses b.vm.obj h
        = uses (release r b).vm.obj h + if handleOf r = h then 1 else 0 := by
      intro h
      rw [huses, update_apply]
      by_cases hh : h = handleOf r
      · rw [if_pos hh, if_pos hh.symm, hh]
        omega
      · rw [if_neg hh, if_neg (Ne.symm hh)]
        omega
    rcases ih (release r b) hrec.good
      (fun x hx => hrec.mapped x (hmapped x (List.mem_cons_of_mem r hx)))
      (fun h => by
        have := hle h
        rw [hstep h, share_cons] at this
        omega) with ⟨hrec', hcount⟩
    refine ⟨hrec.trans hrec', fun h => ?_⟩
    rw [hstep h, hcount h, share_cons]
    rw [Nat.add_assoc]
    rfl

theorem submit_recounts {batch : BatchSnapshot} {answer : BackendAcceptance}
    (hb : Good b) (h : (backend transport).submit batch b = (answer, b')) :
    Recounts b b' ∧ b'.vm = b.vm := by
  change (if b.faulted = true then _ else forward (transport.submit batch) b) = _ at h
  rw [if_neg (by rw [hb.sound]; decide)] at h
  have hsame := forward_recounts (transport.submit batch) hb
  rw [h] at hsame
  exact hsame

/-- Retaining and giving everything back. -/
theorem undone_recounts {rs : List Resource} {b b₁ b₂ : Bridge V T} (hb : Good b)
    (hret : Retained (backend transport) rs b b₁) (hrec : Recounts b₁ b₂) (hvm : b₂.vm = b₁.vm) :
    Recounts b (releases (backend transport) rs.reverse b₂) ∧
      ∀ h, uses (releases (backend transport) rs.reverse b₂).vm.obj h = uses b.vm.obj h := by
  rcases retained_uses transport rs b hb hret with ⟨hrec₁, hmapped, hcount⟩
  rcases releases_uses transport rs.reverse b₂ hrec.good
    (fun r hr => hrec.mapped r (hmapped r (List.mem_reverse.mp hr)))
    (fun h => by
      rw [hvm, hcount, share_reverse]
      omega) with ⟨hrec₂, hback⟩
  refine ⟨(hrec₁.trans hrec).trans hrec₂, fun h => ?_⟩
  have := hback h
  rw [hvm, hcount, share_reverse] at this
  omega

end Counting

end Bridge

end Mellow.XeMemory
