import Mellow.Lib.Prog

/-!
# Reading a Log

For objects whose duties are about the past. Loops that poll a register are
quiet, and what `latest` says about other events survives them.

## Main definitions

* `latest`: the last thing of some kind that a log says.
* `Quiet`: the object is the same, and only harmless lines were added.

## Theorems

* `Quiet.latest`: quiet lines change nothing that is latest.
-/

namespace Mellow.Lib

variable {S E Ev α β : Type} {f : Ev → Option β} {lines log : List (Entry S Ev)}

/-- The last thing in a log that `f` picks out. -/
def latest (f : Ev → Option β) : List (Entry S Ev) → Option β
  | [] => none
  | l :: log =>
    match f l.event with
    | some b => some b
    | none => latest f log

theorem latest_cons_some {l : Entry S Ev} {b : β} (h : f l.event = some b)
    (log : List (Entry S Ev)) : latest f (l :: log) = some b := by
  rw [latest, h]

theorem latest_cons_none {l : Entry S Ev} (h : f l.event = none)
    (log : List (Entry S Ev)) : latest f (l :: log) = latest f log := by
  rw [latest, h]

theorem latest_append_none
    (h : ∀ l ∈ lines, f l.event = none) (log : List (Entry S Ev)) :
    latest f (lines ++ log) = latest f log := by
  induction lines with
  | nil => rfl
  | cons l lines ih =>
    rw [List.cons_append, latest_cons_none (h l List.mem_cons_self)]
    exact ih fun l' hl' => h l' (List.mem_cons_of_mem l hl')

theorem latest_append_ne {b : β}
    (h : ∀ l ∈ lines, f l.event ≠ some b) (hlog : latest f log ≠ some b) :
    latest f (lines ++ log) ≠ some b := by
  induction lines with
  | nil => exact hlog
  | cons l lines ih =>
    have hrest := ih fun l' hl' => h l' (List.mem_cons_of_mem l hl')
    cases hl : f l.event with
    | none =>
      rw [List.cons_append, latest_cons_none hl]
      exact hrest
    | some c =>
      rw [List.cons_append, latest_cons_some hl, ← hl]
      exact h l List.mem_cons_self

theorem chron_append {R : Entry S Ev → List (Entry S Ev) → Prop}
    (h : ∀ l ∈ lines, ∀ before, R l before) (hlog : Chron R log) : Chron R (lines ++ log) := by
  induction lines with
  | nil => exact hlog
  | cons l lines ih =>
    exact ⟨h l List.mem_cons_self _, ih fun l' hl' => h l' (List.mem_cons_of_mem l hl')⟩

theorem chron_suffix {R : Entry S Ev → List (Entry S Ev) → Prop}
    (h : Chron R (lines ++ log)) : Chron R log := by
  induction lines with
  | nil => exact h
  | cons l lines ih => exact ih h.2

def Grows (q : Ev → Prop) (log log' : List (Entry S Ev)) : Prop :=
  ∃ lines, log' = lines ++ log ∧ ∀ l ∈ lines, q l.event

section

variable {q : Ev → Prop} {log log' log'' : List (Entry S Ev)}

theorem Grows.refl (log : List (Entry S Ev)) : Grows q log log := ⟨[], rfl, nofun⟩

theorem Grows.trans (h : Grows q log log') (h' : Grows q log' log'') : Grows q log log'' := by
  rcases h with ⟨lines, rfl, hlines⟩
  rcases h' with ⟨lines', rfl, hlines'⟩
  refine ⟨lines' ++ lines, (List.append_assoc _ _ _).symm, fun l hl => ?_⟩
  exact (List.mem_append.mp hl).elim (hlines' l) (hlines l)

theorem Grows.split (h : Grows q log log'') {lines lines' : List (Entry S Ev)}
    (hlog : log' = lines ++ log) (hlog' : log'' = lines' ++ log') :
    Grows q log log' ∧ Grows q log' log'' := by
  rcases h with ⟨all, hall, hq⟩
  have heq : all = lines' ++ lines := by
    rw [hlog', hlog, ← List.append_assoc] at hall
    exact (List.append_cancel_right hall).symm
  subst heq
  exact ⟨⟨lines, hlog, fun l hl => hq l (List.mem_append_right _ hl)⟩,
    ⟨lines', hlog', fun l hl => hq l (List.mem_append_left _ hl)⟩⟩

theorem Grows.line {l : Entry S Ev} (hl : q l.event) (log : List (Entry S Ev)) :
    Grows q log (l :: log) := by
  refine ⟨[l], rfl, fun l' hl' => ?_⟩
  rw [List.mem_singleton.mp hl']
  exact hl

end

/-- From `t` to `s` only harmless lines were added. -/
structure Quiet (q : Ev → Prop) (t s : Sys S E Ev) : Prop where
  obj : s.obj = t.obj
  lines : ∃ lines, s.log = lines ++ t.log ∧ ∀ l ∈ lines, l.obj = t.obj ∧ q l.event

section

variable {q : Ev → Prop} {s t u : Sys S E Ev}

theorem Quiet.refl (s : Sys S E Ev) : Quiet q s s := ⟨rfl, [], rfl, nofun⟩

theorem Quiet.trans (h : Quiet q t s) (h' : Quiet q s u) : Quiet q t u := by
  rcases h.lines with ⟨lines, hlog, hlines⟩
  rcases h'.lines with ⟨lines', hlog', hlines'⟩
  refine ⟨h'.obj.trans h.obj, lines' ++ lines, by rw [hlog', hlog, List.append_assoc], ?_⟩
  intro l hl
  rcases List.mem_append.mp hl with hl | hl
  · exact ⟨(hlines' l hl).1.trans h.obj, (hlines' l hl).2⟩
  · exact hlines l hl

theorem Quiet.heard (h : Quiet q t s) {ev : Ev} (hev : q ev) (e : E) :
    Quiet q t (s.heard ev e) := by
  refine h.trans ⟨rfl, [⟨s.obj, ev⟩], rfl, ?_⟩
  intro l hl
  rw [List.mem_singleton.mp hl]
  exact ⟨rfl, hev⟩

theorem Quiet.latest (h : Quiet q t s) {f : Ev → Option β} (hf : ∀ ev, q ev → f ev = none) :
    latest f s.log = latest f t.log := by
  rcases h.lines with ⟨lines, hlog, hlines⟩
  rw [hlog]
  exact latest_append_none (fun l hl => hf _ (hlines l hl).2) t.log

theorem Quiet.latest_ne (h : Quiet q t s) {f : Ev → Option β} {b : β}
    (hf : ∀ ev, q ev → f ev ≠ some b)
    (ht : Lib.latest f t.log ≠ some b) : Lib.latest f s.log ≠ some b := by
  rcases h.lines with ⟨lines, hlog, hlines⟩
  rw [hlog]
  exact latest_append_ne (fun l hl => hf _ (hlines l hl).2) ht

theorem Quiet.chron (h : Quiet q t s) {R : Entry S Ev → List (Entry S Ev) → Prop}
    (hR : ∀ l before, q l.event → R l before) (ht : Chron R t.log) : Chron R s.log := by
  rcases h.lines with ⟨lines, hlog, hlines⟩
  rw [hlog]
  exact chron_append (fun l hl before => hR l before (hlines l hl).2) ht

theorem Quiet.forall_mem (h : Quiet q t s) {R : Entry S Ev → Prop} (hR : ∀ l, q l.event → R l)
    (ht : ∀ l ∈ t.log, R l) : ∀ l ∈ s.log, R l := by
  rcases h.lines with ⟨lines, hlog, hlines⟩
  intro l hl
  rw [hlog] at hl
  rcases List.mem_append.mp hl with hl | hl
  · exact hR l (hlines l hl).2
  · exact ht l hl

theorem quiet_ask (f : E → α × E) {ev : α → Ev} (hev : ∀ a, q (ev a)) :
    Spec (Quiet q t) (ask f ev) (fun _ s => Quiet q t s) :=
  spec_ask f ev fun _ a e hs => hs.heard (hev a) e

end

end Mellow.Lib
