import Mellow.Lib.FirstFit
import Mellow.Xe.Ggtt.Step

/-!
# Where Reserve Places a Mapping

`reserve` walks each granted range from its first aligned address, jumping past
every slot the candidate overlaps. This is first fit with the slots in use as
obstacles. With every jump there is one slot less ahead, so the attempts never
run out.

## Main definitions

* `Manager.Suits`: a place that is free.
* `Manager.jump`: where a jump goes.

## Theorems

* `search_seeks`: the search ends as the loop without a bound does.
* `place_fits`: the place that is found is free.
-/

namespace Mellow.Ggtt

open Lib

/-- The end of a valid range does not wrap when aligned. -/
theorem Range.Valid.end_le {r : Range} (h : r.Valid) : r.address + r.bytes ≤ 2 ^ 32 := by
  rcases h with ⟨_, _, _, hb, ha⟩
  have hshift : 1 <<< 32 = 2 ^ 32 := by decide
  rw [hshift] at hb ha
  omega

/-- Aligned, inside the granted range and clear of every slot in use. -/
def Manager.Suits (m : Manager) (bytes alignment : Nat) (g : Range) (p : Nat) : Prop :=
  alignment ∣ p ∧ g.address ≤ p ∧ p + bytes ≤ g.address + g.bytes ∧
    ∀ i, (m.slots i).state ≠ .free → ¬ (Range.mk p bytes).Overlap (m.slots i).range

def Manager.Taken (m : Manager) (i : Fin maxMappings) : Prop := (m.slots i).state ≠ .free

instance (m : Manager) : DecidablePred m.Taken := fun i =>
  inferInstanceAs (Decidable ((m.slots i).state ≠ .free))

def Manager.first (m : Manager) (i : Fin maxMappings) : Nat := (m.slots i).range.address

def Manager.last (m : Manager) (i : Fin maxMappings) : Nat :=
  (m.slots i).range.address + (m.slots i).range.bytes

def Fitting (bytes stop base : Nat) : Prop := base < stop ∧ bytes ≤ stop - base

instance (bytes stop : Nat) : DecidablePred (Fitting bytes stop) := fun _ =>
  inferInstanceAs (Decidable (_ ∧ _))

/-- One pass of the search. -/
def Manager.jump (m : Manager) (bytes alignment base : Nat) : Option Nat :=
  some (m.nextPlace base bytes alignment)

theorem search_eq_seek (m : Manager) (bytes alignment stop fuel : Nat) : ∀ base,
    m.search bytes alignment stop fuel base
      = seek (Fitting bytes stop) (m.jump bytes alignment) fuel base := by
  induction fuel with
  | zero => exact fun _ => rfl
  | succ k ih =>
    intro base
    unfold Manager.search seek
    rw [Manager.jump, Option.bind_some]
    dsimp only
    rw [ih]
    rfl

section

variable {m : Manager} {k bytes : Nat}

theorem nextPlace_eq_past (m : Manager) (base bytes alignment : Nat) :
    m.nextPlace base bytes alignment =
      past (fun i => (m.slots i).state ≠ .free ∧ (Range.mk base bytes).Overlap (m.slots i).range)
        (fun i => alignUp (m.last i) alignment) (List.finRange maxMappings) base := rfl

theorem nextPlace_cases (m : Manager) (base bytes alignment : Nat) :
    m.nextPlace base bytes alignment = base ∨
      ∃ i ∈ List.finRange maxMappings, Hits m.Taken m.first m.last bytes base i ∧
        m.nextPlace base bytes alignment = alignUp (m.last i) alignment := by
  rw [nextPlace_eq_past]
  exact past_cases _ base

theorem clear_iff {base : Nat} :
    Clear m.Taken m.first m.last (List.finRange maxMappings) bytes base ↔
      ∀ i, (m.slots i).state ≠ .free → ¬ (Range.mk base bytes).Overlap (m.slots i).range :=
  ⟨fun h i hlive hover => h i (List.mem_finRange i) ⟨hlive, hover⟩,
    fun h i _ hhit => h i hhit.1 hhit.2⟩

variable (hk : k ≤ 32) (hplaced : ∀ i, (m.slots i).state ≠ .free → (m.slots i).range.Valid)

include hk hplaced

theorem last_room {i : Fin maxMappings} (hlive : (m.slots i).state ≠ .free) :
    m.last i + 2 ^ k ≤ 2 ^ 64 := by
  have hle32 : (2 : Nat) ^ k ≤ 2 ^ 32 := Nat.pow_le_pow_right (by omega) hk
  have hvalid : m.last i ≤ 2 ^ 32 := (hplaced i hlive).end_le
  omega

variable (bytes) in
/-- A jump is right: it goes to the aligned end of a slot in the way. -/
theorem search_leaps (stop : Nat) :
    Leaps (Fitting bytes stop)
      (fun p => 2 ^ k ∣ p ∧ Clear m.Taken m.first m.last (List.finRange maxMappings) bytes p)
      (fun b => 2 ^ k ∣ b) (m.jump bytes (2 ^ k)) where
  stay b hb _ hj := by
    have hstay : m.nextPlace b bytes (2 ^ k) = b := Option.some.inj hj
    rw [nextPlace_eq_past] at hstay
    refine ⟨hb, clear_of_past hstay (fun i _ hhit => hhit) fun i _ hhit => ?_⟩
    exact le_alignUp (by omega) (last_room hk hplaced hhit.1)
  skip b c hb _ hj hne := by
    have hc : m.nextPlace b bytes (2 ^ k) = c := Option.some.inj hj
    rcases nextPlace_cases m b bytes (2 ^ k) with hstay | ⟨i, hi, hhit, hend⟩
    · exact absurd (hc.symm.trans hstay) hne
    · have hroom := last_room hk hplaced hhit.1
      have hlt : b < m.last i := hhit.2.1
      have hle := le_alignUp (by omega) hroom
      rw [hc] at hend
      subst hend
      refine ⟨alignUp_dvd (by omega) hroom, by omega, fun p hbp hpc hgood => ?_⟩
      exact not_clear_of_hits hi hhit hbp (lt_of_lt_alignUp (by omega) hroom hgood.1 hpc) hgood.2
  lost b _ _ hj := absurd hj nofun
  down p q hle hfit := ⟨by have := hfit.1; omega, by have := hfit.2; omega⟩

variable (bytes) in
/-- With every jump there is one slot less ahead. -/
theorem search_seeks (stop : Nat) {base : Nat} (hbase : 2 ^ k ∣ base) :
    Seeks (Fitting bytes stop) (m.jump bytes (2 ^ k)) base
      (m.search bytes (2 ^ k) stop (maxMappings + 1) base) := by
  rw [search_eq_seek]
  refine seek_seeks (μ := ahead m.Taken m.last (List.finRange maxMappings))
    (fun b c hb hfit hj hne =>
    ⟨((search_leaps bytes hk hplaced stop).skip b c hb hfit hj hne).1, ?_⟩) _ base hbase ?_
  · have hc : m.nextPlace b bytes (2 ^ k) = c := Option.some.inj hj
    rcases nextPlace_cases m b bytes (2 ^ k) with hstay | ⟨i, hi, hhit, hend⟩
    · exact absurd (hc.symm.trans hstay) hne
    · have hle := le_alignUp (by omega) (last_room hk hplaced hhit.1)
      exact ahead_lt hi hhit.1 hhit.2.1 (by omega)
  · refine Nat.lt_succ_of_le ?_
    exact Nat.le_trans List.countP_le_length (Nat.le_of_eq List.length_finRange)

omit hplaced in
theorem suits_iff {g : Range} (hg : g.Valid) (hbytes : bytes ≠ 0) {p : Nat} :
    m.Suits bytes (2 ^ k) g p ↔ alignUp g.address (2 ^ k) ≤ p ∧
      (2 ^ k ∣ p ∧ Clear m.Taken m.first m.last (List.finRange maxMappings) bytes p) ∧
      Fitting bytes (g.address + g.bytes) p := by
  have hle32 : (2 : Nat) ^ k ≤ 2 ^ 32 := Nat.pow_le_pow_right (by omega) hk
  have hend := hg.end_le
  have hroom : g.address + 2 ^ k ≤ 2 ^ 64 := by omega
  have hup := le_alignUp (x := g.address) (k := k) (by omega) hroom
  rw [clear_iff]
  constructor
  · rintro ⟨hdvd, hlo, hhi, hclear⟩
    refine ⟨?_, ⟨hdvd, hclear⟩, by omega, by omega⟩
    by_contra hlt
    have := lt_of_lt_alignUp (by omega) hroom hdvd (by omega)
    omega
  · rintro ⟨hlo, ⟨hdvd, hclear⟩, hlt, hfit⟩
    exact ⟨hdvd, by omega, by omega, hclear⟩

/-- The search in one range finds the lowest place that suits, if there is
    one. -/
theorem search_suits {g : Range} (hg : g.Valid) (hbytes : bytes ≠ 0) :
    match m.search bytes (2 ^ k) (g.address + g.bytes) (maxMappings + 1)
        (alignUp g.address (2 ^ k)) with
    | some p => IsLeast { q | m.Suits bytes (2 ^ k) g q } p
    | none => ∀ q, ¬ m.Suits bytes (2 ^ k) g q := by
  have hle32 : (2 : Nat) ^ k ≤ 2 ^ 32 := Nat.pow_le_pow_right (by omega) hk
  have hend := hg.end_le
  have hbase : 2 ^ k ∣ alignUp g.address (2 ^ k) := alignUp_dvd (by omega) (by omega)
  have hseeks := search_seeks bytes hk hplaced (g.address + g.bytes) hbase
  have hleaps := search_leaps bytes hk hplaced (g.address + g.bytes)
  simp only [suits_iff hk hg hbytes]
  generalize m.search bytes (2 ^ k) (g.address + g.bytes) (maxMappings + 1)
    (alignUp g.address (2 ^ k)) = r at hseeks
  cases r with
  | some p => exact hseeks.least hleaps hbase
  | none => exact fun q hq => hseeks.none hleaps hbase q hq.1 hq.2.2 hq.2.1

end

theorem alignment_pow {alignment : Nat} (hlo : pageSize ≤ alignment) (hhi : alignment ≤ 1 <<< 32)
    (hpow : alignment &&& (alignment - 1) = 0) : ∃ k, 12 ≤ k ∧ k ≤ 32 ∧ alignment = 2 ^ k := by
  have hne : alignment ≠ 0 := by unfold pageSize at hlo; omega
  rcases (Nat.and_sub_one_eq_zero_iff_isPowerOfTwo hne).mp hpow with ⟨k, rfl⟩
  have hshift : 1 <<< 32 = 2 ^ 32 := by decide
  rw [hshift] at hhi
  exact ⟨k, (Nat.pow_le_pow_iff_right (a := 2) (by omega)).mp hlo,
    (Nat.pow_le_pow_iff_right (by omega)).mp hhi, rfl⟩

section

variable {m : Manager} {bytes alignment : Nat}
  (hplaced : ∀ i, (m.slots i).state ≠ .free → (m.slots i).range.Valid)
  (hgranted : ∀ g ∈ m.ranges, g.Valid) (hbytes : bytes ≠ 0) (hlo : pageSize ≤ alignment)
  (hhi : alignment ≤ 1 <<< 32) (hpow : alignment &&& (alignment - 1) = 0)

include hplaced hgranted hbytes hlo hhi hpow

/-- The lowest place that suits in the first range that has one. -/
theorem place_some {base : Nat} (h : m.place bytes alignment = some base) :
    ∃ before g after, m.ranges = before ++ g :: after ∧
      (∀ g' ∈ before, ∀ q, ¬ m.Suits bytes alignment g' q) ∧
      IsLeast { q | m.Suits bytes alignment g q } base := by
  rcases alignment_pow hlo hhi hpow with ⟨k, _, hk, rfl⟩
  rcases List.findSome?_eq_some_iff.mp h with ⟨before, g, after, hranges, hfound, hnone⟩
  have hmem : g ∈ m.ranges := hranges ▸ List.mem_append_right _ List.mem_cons_self
  have hg := search_suits (m := m) hk hplaced (hgranted g hmem) hbytes
  rw [hfound] at hg
  refine ⟨before, g, after, hranges, fun g' hg' => ?_, hg⟩
  have hmem' : g' ∈ m.ranges := hranges ▸ List.mem_append_left _ hg'
  have hg'' := search_suits (m := m) hk hplaced (hgranted g' hmem') hbytes
  rw [hnone g' hg'] at hg''
  exact hg''

theorem place_none (h : m.place bytes alignment = none) :
    ∀ g ∈ m.ranges, ∀ q, ¬ m.Suits bytes alignment g q := by
  rcases alignment_pow hlo hhi hpow with ⟨k, _, hk, rfl⟩
  intro g hmem
  have hg := search_suits (m := m) hk hplaced (hgranted g hmem) hbytes
  rw [List.findSome?_eq_none_iff.mp h g hmem] at hg
  exact hg

theorem place_fits {base : Nat} (hpages : bytes % pageSize = 0) (hmax : bytes / pageSize ≤ maxPages)
    (h : m.place bytes alignment = some base) : m.Fits ⟨base, bytes⟩ := by
  rcases place_some hplaced hgranted hbytes hlo hhi hpow h with ⟨before, g, after,
    hranges, _, hleast⟩
  rcases alignment_pow hlo hhi hpow with ⟨k, hk12, _, rfl⟩
  have hmem : g ∈ m.ranges := hranges ▸ List.mem_append_right _ List.mem_cons_self
  have hge := (hgranted g hmem).end_le
  rcases hleast.1 with ⟨hdvd, hlo, hhi, hclear⟩
  have hshift : 1 <<< 32 = 2 ^ 32 := by decide
  -- The alignment is a multiple of the page size, so the place is on a page.
  have hpage : base % pageSize = 0 :=
    Nat.mod_eq_zero_of_dvd (Nat.dvd_trans (Nat.pow_dvd_pow 2 hk12) hdvd)
  have hvalid : (Range.mk base bytes).Valid := by
    refine ⟨hbytes, hpage, hpages, ?_, ?_⟩
    · rw [hshift]
      change bytes ≤ 2 ^ 32
      omega
    · rw [hshift]
      change base ≤ 2 ^ 32 - bytes
      omega
  exact ⟨hvalid, hmax, ⟨g, hmem, hlo, hhi⟩, hclear⟩

end

end Mellow.Ggtt
