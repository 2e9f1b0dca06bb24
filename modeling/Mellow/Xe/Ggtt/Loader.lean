import Mellow.Lib.Bytes
import Mellow.Xe.Ggtt.Paths

/-!
# The Loader Reads What Was Published

Before it starts the GuC, the loader reads the entries of its regions through
the registers of the GGTT, in halves, and compares them with a formula of its
own. The manager writes entries through the ported encoder.

## Main definitions

* `verifyGgtt`: the loader's check.
* `ReadsTable`: reads that give the halves of a table's entries.

## Theorems

* `loader_agrees`: what is published passes, and what passes could be published.
-/

namespace Mellow

namespace Ggtt

open Lib

variable {E : Type} {io : Backend E} {i : Fin maxMappings} {r : Range} {b : Backing} {pat : Nat}

def Mapped (i : Fin maxMappings) (r : Range) (b : Backing) (pat : Nat) (s : World E) : Prop :=
  (s.obj.slots i).range = r ∧ (s.obj.slots i).backing = b ∧ (s.obj.slots i).pat = pat

theorem mapped_stable : Stable (E := E) (Mapped i r b pat) := fun _ _ _ _ _ hs => hs

theorem setSlot_mapped {f : Slot → Slot} (hf : ∀ x, (f x).range = x.range ∧
      (f x).backing = x.backing ∧ (f x).pat = x.pat) :
    Spec (Mapped i r b pat) (setSlot i f : Op E Unit) (fun _ => Mapped i r b pat) := by
  refine spec_edit _ fun s hs => ?_
  unfold Mapped
  rw [Sys.put, setSlot_slots, Function.update_self]
  rcases hf (s.obj.slots i) with ⟨hrange, hbacking, hpat⟩
  exact ⟨hrange.trans hs.1, hbacking.trans hs.2.1, hpat.trans hs.2.2⟩

theorem writePages_mapped (pages : List Nat) :
    Spec (Mapped i r b pat) (writePages io i pages) (fun _ => Mapped i r b pat) := by
  have hkeep : ∀ {α : Type} (a : α), Spec (Mapped i r b pat) (pure a : Op E α)
      (fun _ => Mapped i r b pat) := fun a => spec_pure a fun _ hs => hs
  induction pages with
  | nil => exact hkeep _
  | cons page rest ih =>
    unfold writePages
    refine spec_bind (live_spec mapped_stable) fun up => spec_ite (fun _ => hkeep _) fun _ => ?_
    refine bind_slot_any fun sl => spec_pre (fun s hs => hs.1) ?_
    cases expected io sl page with
    | none => exact hkeep _
    | some pte =>
      refine spec_bind (setSlot_mapped fun _ => ⟨rfl, rfl, rfl⟩) fun _ => ?_
      refine spec_bind (R := fun _ => Mapped i r b pat)
        (writePte_spec _ _ fun s landed ok e hs => ?_)
        fun ok => spec_ite (fun _ => hkeep _) fun _ => ?_
      · unfold Mapped
        rw [stored_mgr]
        exact hs
      refine spec_bind (spec_post (read_spec mapped_stable _) fun _ _ h => h.1) fun a => ?_
      cases a with
      | none => exact hkeep _
      | some actual => exact spec_ite (fun _ => hkeep _) fun _ => ih

theorem verify_entries {P : World E → Prop} (hP : Stable P) {hw : Hw}
    (hobj : ∀ s, P s → s.obj = hw) (sl : Slot) (pages : List Nat) :
    Spec P (verify io sl false pages) (fun ok s => P s ∧
      (ok = true → ∀ page ∈ pages, expected io sl page = some (hw.pte (sl.entry page)))) := by
  induction pages with
  | nil => exact spec_pure _ fun s hs => ⟨hs, fun _ _ h => absurd h List.not_mem_nil⟩
  | cons page rest ih =>
    unfold verify
    cases hwant : expected io sl page with
    | none => exact spec_pure _ fun s hs => ⟨hs, fun h => absurd h (by decide)⟩
    | some want =>
      refine spec_bind (read_spec hP _) fun a => ?_
      cases a with
      | none => exact spec_pure _ fun s hs => ⟨hs.1, fun h => absurd h (by decide)⟩
      | some actual =>
        refine spec_unless (fun s hs => ⟨hs.1, fun h => absurd h (by decide)⟩) fun heq s hs => ?_
        have hpte : some want = some (hw.pte (sl.entry page)) := by
          rw [← hobj s hs.1, ← hs.2 actual rfl]
          exact congrArg some (not_not.mp heq).symm
        rcases ih s hs.1 with ⟨hP', hrest⟩
        refine ⟨hP', fun hok p hp => ?_⟩
        rcases List.mem_cons.mp hp with rfl | hp
        · exact hwant.trans hpte
        · exact hrest hok p hp

def Entries (io : Backend E) (r : Range) (b : Backing) (pat : Nat) (pte : Nat → Nat) : Prop :=
  ∀ page < b.pageCount, PortedXe.encodeGgtt (io.dma b.dmaPages page) pat false 46 =
    .ok (pte (r.address + page * pageSize))

theorem abandon_ne (i : Fin maxMappings) {st : Status} (hst : st ≠ .ok) {P : World E → Prop} :
    Spec P (abandon io i st) (fun a _ => a ≠ .ok) := by
  refine spec_bind (R := fun _ _ => True) (fun _ _ => trivial) fun _ => ?_
  exact spec_unless (fun _ _ => hst) fun _ => spec_pure _ fun _ _ => nofun

theorem install_entries (owner : Nat) : Spec (Mapped i r b pat) (install io i owner b)
    (fun st s => st = .ok → Entries io r b pat s.obj.pte) := by
  have hno : ∀ {P : World E → Prop} {x : Op E Status}, Spec P x (fun st _ => st ≠ .ok) →
      Spec P x (fun st s => st = .ok → Entries io r b pat s.obj.pte) :=
    fun h => spec_post h fun _ _ hne hok => absurd hok hne
  refine spec_bind (R := fun _ => Mapped i r b pat) (fun _ hs => hs) fun m => ?_
  refine spec_bind (consult_spec mapped_stable _ fun _ => trivial) fun owns => ?_
  refine bind_slot_any fun sl => spec_pre (fun s hs => hs.1) ?_
  refine spec_ite (fun _ => hno (spec_bind (R := fun _ _ => True) (fun _ _ => trivial) fun _ =>
    abandon_ne i (by decide))) fun _ => ?_
  refine spec_bind (R := fun _ => Mapped i r b pat) (fun s hs => ?_) fun free => ?_
  · have hobj : Stable fun t : World E => t.obj = s.obj := fun _ _ _ _ _ ht => ht
    have hend : (readZero io sl sl.pages s).2.obj = s.obj :=
      (readZero_spec hobj (fun _ ht => ht) sl sl.pages s rfl).1
    change Mapped i r b pat _
    unfold Mapped
    rw [hend]
    exact hs
  refine spec_ite (fun _ => hno (spec_bind (R := fun _ _ => True) (fun _ _ => trivial) fun _ =>
    spec_pure _ fun _ _ => nofun)) fun _ => ?_
  refine spec_bind (setSlot_mapped fun _ => ⟨rfl, rfl, rfl⟩) fun _ => ?_
  refine spec_bind (writePages_mapped _) fun w => ?_
  cases w with
  | refused => exact spec_pure _ fun _ _ => nofun
  | failed => exact hno (abandon_ne i (by decide))
  | done =>
    refine bind_slot_any fun sl => spec_each fun t ht => ?_
    -- From here on nothing but callbacks comes before the state is set.
    have hstable : Stable fun u : World E => u.obj = t.obj := fun _ _ _ _ _ hu => hu
    refine spec_pre (P := fun u => u.obj = t.obj) (fun u hu => congrArg Sys.obj hu) ?_
    refine spec_bind (R := fun ok u => u.obj = t.obj ∧ (ok = true → ∀ page ∈ sl.pages,
        expected io sl page = some (t.obj.pte (sl.entry page)))) ?_ fun ok => ?_
    · refine spec_andM (live_spec hstable) (fun _ hu => ⟨hu, nofun⟩) ?_
      refine spec_andM (consult_spec hstable _ fun _ => trivial) (fun _ hu => ⟨hu, nofun⟩) ?_
      exact verify_entries hstable (fun _ hu => hu) sl sl.pages
    · refine spec_ite (fun _ => hno (abandon_ne i (by decide))) fun hok => ?_
      refine spec_bind (R := fun _ u => Entries io r b pat u.obj.pte) (spec_edit _ fun u hu => ?_)
        fun _ => spec_pure _ fun _ hu _ => hu
      intro page hpage
      rcases ht with ⟨⟨hrange, hbacking, hpat⟩, rfl⟩
      have hentry := hu.2 (by simpa using hok) page
        (List.mem_range.mpr (by rw [hbacking]; exact hpage))
      unfold expected at hentry
      rw [hbacking, hpat] at hentry
      have hpte : (u.put (u.obj.setSlot i ((u.obj.slots i).withState .published))).obj.pte =
          t.obj.pte := by
        rw [← hu.1]
        rfl
      rw [hpte, ← hrange]
      cases henc : PortedXe.encodeGgtt (io.dma b.dmaPages page) pat false 46 with
      | error e => rw [henc] at hentry; cases hentry
      | ok v => rw [henc] at hentry; exact congrArg Except.ok (Option.some.inj hentry)

theorem publish_entries (owner epoch : Nat) (h : Handle) (b : Backing) (pat : Nat)
    (s : World E) (hok : (publish io owner epoch h b pat s).1 = .ok) :
    ∃ i, s.obj.get owner epoch h = .ok i ∧
      b.pageCount = (s.obj.slots i).range.bytes / pageSize ∧
      Entries io (s.obj.slots i).range b pat (publish io owner epoch h b pat s).2.obj.pte := by
  suffices hspec : Spec (fun t => t.obj.mgr = s.obj.mgr) (publish io owner epoch h b pat)
      (fun st t => st = .ok → ∃ i, s.obj.get owner epoch h = .ok i ∧
        b.pageCount = (s.obj.slots i).range.bytes / pageSize ∧
        Entries io (s.obj.slots i).range b pat t.obj.pte) from hspec s rfl hok
  have hstable : Stable fun t : World E => t.obj.mgr = s.obj.mgr := fun _ _ _ _ _ ht => ht
  refine bind_mgr (fun _ ht => ht) ?_
  cases hget : s.obj.get owner epoch h with
  | error e =>
    refine spec_pure _ fun _ _ he => ?_
    have hne : e ≠ .ok := by
      unfold Manager.get at hget
      dsimp only at hget
      split_ifs at hget <;> cases hget <;> exact nofun
    exact absurd he hne
  | ok i =>
    refine bind_slot (fun _ ht => ht) ?_
    refine spec_guard (fun _ _ hst => ?_) ?_
    · split_ifs at hst
    refine spec_bind (live_spec hstable) fun _ => spec_unless (fun _ _ => nofun)
      fun _ => spec_unless (fun _ _ => nofun) fun huse => ?_
    refine bind_mgr (fun _ ht => ht) ?_
    refine spec_bind (consult_spec hstable _ fun _ => trivial) fun _ =>
      spec_guard (fun _ _ => nofun) ?_
    refine spec_bind (R := fun _ t => t.obj.mgr = s.obj.mgr) (spec_ask _ _ fun _ _ _ ht => ht)
      fun _ =>
      spec_guard (fun _ _ => nofun) ?_
    refine spec_bind (R := fun _ => Mapped i (s.obj.slots i).range b pat)
      (spec_edit _ fun t ht => ?_) fun _ => ?_
    · unfold Mapped
      rw [Sys.put, setSlot_slots, Function.update_self]
      exact ⟨congrArg (fun m => (m.slots i).range) ht, rfl, rfl⟩
    · refine spec_post (install_entries owner) fun st t hst hok => ?_
      exact ⟨i, rfl, (not_not.mp huse).2.2.2.2.1, hst hok⟩

end Ggtt

namespace XeGuCFirmware

open Lib

inductive Error
  | none | invalid | mapping | io
deriving DecidableEq, Repr

def gucGgttTop : Nat := 0xfee00000

/-- A region of memory for the GuC. Pointers are numbers, and zero is null. -/
structure Region where
  owner : Nat
  generation : Nat
  ggtt : Nat
  bytes : Nat
  cpu : Nat
  dmaPages : Nat
  pageCount : Nat
  pinCookie : Nat
deriving DecidableEq, Repr

def span (base bytes limit : Nat) : Bool :=
  decide (base < limit) && decide (bytes ≠ 0) && decide (bytes ≤ limit - base)

def regionValid (r : Region) : Bool :=
  decide (r.owner ≠ 0) && decide (r.generation ≠ 0) && decide (r.cpu ≠ 0) &&
    decide (r.pinCookie ≠ 0) && decide (r.dmaPages ≠ 0) && decide (r.bytes ≠ 0) &&
    decide (r.bytes ≤ 64 * 1024 * 1024) && decide (r.bytes &&& 4095 = 0) &&
    decide (r.ggtt &&& 4095 = 0) && decide (r.ggtt ≥ 4 * 1024 * 1024) &&
    span r.ggtt r.bytes gucGgttTop && decide (r.pageCount = r.bytes / 4096) &&
    decide (r.cpu ≤ 2 ^ 64 - 1 - r.bytes)

/-- The register of a page's entry, computed in 32 bits. -/
def register (r : Region) (i : Nat) : Nat := (0x800000 + (r.ggtt / 4096 + i) * 8 % 2 ^ 32) % 2 ^ 32

abbrev Read32 (E : Type) := Nat → E → Option Nat × E

/-- The pages one by one. The upper half is read twice. -/
def verifyPages {E : Type} (read32 : Read32 E) (dma : Nat → Nat) (r : Region) :
    List Nat → E → Error × E
  | [], e => (.none, e)
  | i :: rest, e =>
    if dma i &&& 4095 ≠ 0 ∨ dma i ≥ 1 <<< 46 then (.mapping, e)
    else match read32 (register r i + 4) e with
      | (none, e) => (.io, e)
      | (some hi, e) => match read32 (register r i) e with
        | (none, e) => (.io, e)
        | (some lo, e) => match read32 (register r i + 4) e with
          | (none, e) => (.io, e)
          | (some again, e) =>
            if hi ≠ again ∨ hi <<< 32 ||| lo ≠ dma i ||| 1 ||| 3 <<< 52 then (.mapping, e)
            else verifyPages read32 dma r rest e

def verifyGgtt {E : Type} (read32 : Option (Read32 E)) (dma : Nat → Nat) (r : Region) (e : E) :
    Error × E :=
  match read32 with
  | none => (.invalid, e)
  | some read32 =>
    if regionValid r = false then (.invalid, e)
    else verifyPages read32 dma r (List.range r.pageCount) e

/-- Reads that succeed give the halves of the entries of a table. -/
def ReadsTable {E : Type} (read32 : Read32 E) (pte : Nat → Nat) : Prop :=
  ∀ page v e, ((read32 (0x800000 + 8 * page) e).1 = some v → v = pte (page * 4096) % 2 ^ 32) ∧
    ((read32 (0x800000 + 8 * page + 4) e).1 = some v → v = pte (page * 4096) / 2 ^ 32)

/-- The pages of a valid region have their registers in the window. -/
theorem register_eq {r : Region} (hr : regionValid r = true) {i : Nat} (hi : i < r.pageCount) :
    register r i = 0x800000 + 8 * (r.ggtt / 4096 + i) ∧ register r i + 8 ≤ 0x1000000 ∧
      (r.ggtt / 4096 + i) * 4096 = r.ggtt + i * 4096 := by
  have hmask : r.ggtt &&& 4095 = r.ggtt % 4096 := Nat.and_two_pow_sub_one_eq_mod r.ggtt 12
  simp only [regionValid, span, Bool.and_eq_true, decide_eq_true_eq, hmask] at hr
  unfold gucGgttTop at hr
  have hbelow : (r.ggtt / 4096 + i) * 8 < 0x7f8000 := by omega
  have hregister : register r i = 0x800000 + 8 * (r.ggtt / 4096 + i) := by
    unfold register
    rw [Nat.mod_eq_of_lt (b := 2 ^ 32) (by omega), Nat.mod_eq_of_lt (by omega), Nat.mul_comm]
  rw [hregister]
  omega

section Agreement

variable {E : Type} {read32 : Read32 E} {dma pte : Nat → Nat} {r : Region}

/-- The loader's formula is the encoder's. -/
theorem encodeGgtt_iff {d v : Nat} : PortedXe.encodeGgtt d 3 false 46 = .ok v ↔
    ¬ (d &&& 4095 ≠ 0 ∨ d ≥ 1 <<< 46) ∧ v = d ||| 1 ||| 3 <<< 52 := by
  have hflags : d ||| PortedXe.xelpgGgttPteFlags false 3 = d ||| 1 ||| 3 <<< 52 := by
    rw [Nat.or_assoc]
    rfl
  have hvalid : PortedXe.ValidAddress d 46 12 ↔ ¬ (d &&& 4095 ≠ 0 ∨ d ≥ 1 <<< 46) := by
    have hshift : d >>> 46 = 0 ↔ d < 2 ^ 46 := by
      rw [Nat.shiftRight_eq_div_pow]
      omega
    unfold PortedXe.ValidAddress
    rw [hshift]
    exact ⟨fun h => not_or.mpr ⟨not_not.mpr h.2.1, Nat.not_le.mpr h.2.2⟩, fun h =>
      ⟨by decide, not_not.mp (not_or.mp h).1, Nat.not_le.mp (not_or.mp h).2⟩⟩
  unfold PortedXe.encodeGgtt
  rw [hflags, if_neg (by decide : ¬ 3 > 3), ← hvalid]
  by_cases h : PortedXe.ValidAddress d 46 12
  · rw [if_neg (not_not.mpr h)]
    exact ⟨fun heq => ⟨h, (Except.ok.inj heq).symm⟩, fun hv => congrArg Except.ok hv.2.symm⟩
  · rw [if_pos h]
    exact ⟨nofun, fun hv => absurd hv.1 h⟩

theorem join (v : Nat) : (v / 2 ^ 32) <<< 32 ||| v % 2 ^ 32 = v := by
  rw [Nat.or_comm, or_shift _ (Nat.mod_lt _ (by decide))]
  omega

/-- Pages pass exactly where they hold the encoder's entries. -/
theorem verifyPages_iff (hreads : ReadsTable read32 pte) (hr : regionValid r = true) {l : List Nat}
    (hl : ∀ i ∈ l, i < r.pageCount) : ∀ e,
    ((verifyPages read32 dma r l e).1 = .none → ∀ i ∈ l,
      PortedXe.encodeGgtt (dma i) 3 false 46 = .ok (pte (r.ggtt + i * 4096))) ∧
    ((∀ reg e, (read32 reg e).1 ≠ none) → (∀ i ∈ l,
      PortedXe.encodeGgtt (dma i) 3 false 46 = .ok (pte (r.ggtt + i * 4096))) →
      (verifyPages read32 dma r l e).1 = .none) := by
  induction l with
  | nil => exact fun e => ⟨fun _ => nofun, fun _ _ => rfl⟩
  | cons i rest ih =>
    intro e
    have ih := ih fun j hj => hl j (List.mem_cons_of_mem i hj)
    rcases register_eq hr (hl i List.mem_cons_self) with ⟨hreg, _, haddress⟩
    have hlow : ∀ {v e e'}, read32 (register r i) e = (some v, e') →
        v = pte (r.ggtt + i * 4096) % 2 ^ 32 := by
      intro v e e' h
      rw [hreg] at h
      rw [← haddress]
      exact (hreads _ v e).1 (congrArg Prod.fst h)
    have hhigh : ∀ {v e e'}, read32 (register r i + 4) e = (some v, e') →
        v = pte (r.ggtt + i * 4096) / 2 ^ 32 := by
      intro v e e' h
      rw [hreg] at h
      rw [← haddress]
      exact (hreads _ v e).2 (congrArg Prod.fst h)
    unfold verifyPages
    by_cases hd : dma i &&& 4095 ≠ 0 ∨ dma i ≥ 1 <<< 46
    · rw [if_pos hd]
      exact ⟨nofun, fun _ h => absurd hd (encodeGgtt_iff.mp (h i List.mem_cons_self)).1⟩
    rw [if_neg hd]
    -- The three reads. One that fails ends the check, and has no place where all succeed.
    rcases h₁ : read32 (register r i + 4) e with ⟨_ | hi, e₁⟩
    · exact ⟨nofun, fun h => absurd (congrArg Prod.fst h₁) (h _ _)⟩
    dsimp only
    rcases h₂ : read32 (register r i) e₁ with ⟨_ | lo, e₂⟩
    · exact ⟨nofun, fun h => absurd (congrArg Prod.fst h₂) (h _ _)⟩
    dsimp only
    rcases h₃ : read32 (register r i + 4) e₂ with ⟨_ | again, e₃⟩
    · exact ⟨nofun, fun h => absurd (congrArg Prod.fst h₃) (h _ _)⟩
    dsimp only
    rw [hhigh h₁, hlow h₂, hhigh h₃, join]
    by_cases heq : pte (r.ggtt + i * 4096) = dma i ||| 1 ||| 3 <<< 52
    · rw [if_neg (by rw [not_or, not_not, not_not]; exact ⟨rfl, heq⟩)]
      refine ⟨fun h => List.forall_mem_cons.mpr ⟨encodeGgtt_iff.mpr ⟨hd, heq⟩, (ih e₃).1 h⟩,
        fun hall h => (ih e₃).2 hall (List.forall_mem_cons.mp h).2⟩
    · rw [if_pos (.inr heq)]
      exact ⟨nofun, fun _ h => absurd (encodeGgtt_iff.mp (h i List.mem_cons_self)).2 heq⟩

end Agreement

/-- What was published passes the loader's check over the same table, where all
    reads succeed. What passes over a stable table is what would be published.
    And the registers of a valid region never leave the window of the GGTT. -/
theorem loader_agrees {E F : Type} (io : Ggtt.Backend E) (r : Region) (read32 : Read32 F) (e : F) :
    (∀ owner epoch h b (s : Sys Ggtt.Hw E Ggtt.Event), regionValid r = true →
      (Ggtt.publish io owner epoch h b 3 s).1 = .ok →
      (∀ i, s.obj.get owner epoch h = .ok i →
        (s.obj.slots i).range = ⟨r.ggtt, r.bytes⟩) →
      ReadsTable read32 (Ggtt.publish io owner epoch h b 3 s).2.obj.pte →
      (∀ reg e, (read32 reg e).1 ≠ none) →
      (verifyGgtt (some read32) (io.dma b.dmaPages) r e).1 = .none) ∧
    (∀ dma pte, ReadsTable read32 pte → (verifyGgtt (some read32) dma r e).1 = .none →
      ∀ i < r.pageCount, PortedXe.encodeGgtt (dma i) 3 false 46 = .ok (pte (r.ggtt + i * 4096))) ∧
    (regionValid r = true → ∀ i < r.pageCount,
      register r i = 0x800000 + 8 * (r.ggtt / 4096 + i) ∧ register r i + 8 ≤
        0x800000 + 0x800000) := by
  have hrange : ∀ i ∈ List.range r.pageCount, i < r.pageCount := fun i hi => List.mem_range.mp hi
  refine ⟨fun owner epoch h b s hr hok hplace hreads hall => ?_,
    fun dma pte hreads hnone i hi => ?_,
    fun hr i hi => ⟨(register_eq hr hi).1, (register_eq hr hi).2.1⟩⟩
  · rcases Ggtt.publish_entries owner epoch h b 3 s hok with ⟨i, hget, hcount, hentries⟩
    rw [hplace i hget] at hcount hentries
    have hpages : r.pageCount = b.pageCount := by
      have hvalid := hr
      simp only [regionValid, Bool.and_eq_true, decide_eq_true_eq] at hvalid
      rw [hcount]
      exact hvalid.1.2
    rw [verifyGgtt, hr]
    refine (verifyPages_iff hreads hr hrange e).2 hall fun j hj => ?_
    exact hentries j (hpages ▸ hrange j hj)
  · unfold verifyGgtt at hnone
    dsimp only at hnone
    split_ifs at hnone with hr
    exact (verifyPages_iff hreads (Bool.eq_true_of_not_eq_false hr) hrange e).1 hnone i
      (List.mem_range.mpr hi)

/-- A backend that grants everything, with its memory from one megabyte on. -/
def granting : Ggtt.Backend Unit :=
  ⟨fun _ e => (true, e), fun _ _ _ => true, fun _ i => 0x100000 + i * 4096⟩

/-- A manager with one page of the table reserved. -/
def reservedPage : Sys Ggtt.Hw Unit Ggtt.Event :=
  Ggtt.run granting [.initializeManager 1 [⟨0x400000, 0x2000⟩] true,
    .reserveAt 1 1 ⟨0x400000, 0x1000⟩] (fun _ => 0) ()

/-- The table after a publication into that page. -/
def publishedPage : Ggtt.Status × Sys Ggtt.Hw Unit Ggtt.Event :=
  Ggtt.publish granting 1 1 ⟨0, 1⟩ ⟨1, 1, 1, 1, 1⟩ 3 reservedPage

def readPublished : Read32 Unit := fun reg e =>
  let pte := publishedPage.2.obj.pte ((reg - 0x800000) / 8 * 4096)
  (some (if (reg - 0x800000) % 8 = 0 then pte % 2 ^ 32 else pte / 2 ^ 32), e)

theorem readPublished_table : ReadsTable readPublished publishedPage.2.obj.pte := by
  intro page v e
  refine ⟨fun h => ?_, fun h => ?_⟩
  · have hpage : (0x800000 + 8 * page - 0x800000) / 8 = page := by omega
    rw [readPublished, hpage, if_pos (by omega)] at h
    exact (Option.some.inj h).symm
  · have hpage : (0x800000 + 8 * page + 4 - 0x800000) / 8 = page := by omega
    rw [readPublished, hpage, if_neg (by omega)] at h
    exact (Option.some.inj h).symm

theorem loader_agrees_page :
    publishedPage.1 = .ok ∧
      (verifyGgtt (some readPublished) (granting.dma 1) ⟨1, 1, 0x400000, 0x1000, 1, 1, 1, 1⟩ ()).1 =
        .none := by
  have hok : publishedPage.1 = .ok := by decide
  have hplace : ∀ i, reservedPage.obj.get 1 1 ⟨0, 1⟩ = .ok i →
      (reservedPage.obj.slots i).range = ⟨0x400000, 0x1000⟩ := by
    decide
  exact ⟨hok, (loader_agrees granting ⟨1, 1, 0x400000, 0x1000, 1, 1, 1, 1⟩ readPublished ()).1 1 1
    ⟨0, 1⟩ ⟨1, 1, 1, 1, 1⟩ reservedPage (by decide) hok hplace readPublished_table fun _ _ => nofun⟩

end XeGuCFirmware

end Mellow
