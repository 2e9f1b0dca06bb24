import Mathlib.Logic.Relation

/-!
# Programs Run Against an Environment

What an object with callbacks does next depends on what the environment answers.
The environment is a type without structure, so what holds for every environment
holds for every sequence of answers. Each line of the log carries the object as
it stood, so a rule about when a callback is made is a property of log lines.

## Main definitions

* `Sys`: the object, the environment and the log.
* `Prog`: programs over it.
* `Spec`: Hoare triples.
* `runAll`: running a list of calls.

## Theorems

* `spec_bind`: the rule for sequences.
* `spec_runAll`: what each call keeps survives any sequence of calls.
-/

namespace Mellow.Lib

/-- The object as it stood, and what was asked with its answer. -/
structure Entry (S Ev : Type) where
  obj : S
  event : Ev

/-- An object, its environment's state, and the log, newest line first. -/
structure Sys (S E Ev : Type) where
  obj : S
  env : E
  log : List (Entry S Ev)

/-- The system after one answer. -/
def Sys.heard {S E Ev : Type} (s : Sys S E Ev) (ev : Ev) (e : E) : Sys S E Ev :=
  { s with env := e, log := ⟨s.obj, ev⟩ :: s.log }

/-- The system after several answers, newest first. -/
def Sys.heardAll {S E Ev : Type} (s : Sys S E Ev) (evs : List Ev) (e : E) : Sys S E Ev :=
  { s with env := e, log := evs.map (Entry.mk s.obj) ++ s.log }

def Sys.put {S E Ev : Type} (s : Sys S E Ev) (o : S) : Sys S E Ev :=
  { s with obj := o }

/-- Every line of the log satisfies `P` against the lines before it. -/
def Chron {S Ev : Type} (P : Entry S Ev → List (Entry S Ev) → Prop) : List (Entry S Ev) → Prop
  | [] => True
  | e :: before => P e before ∧ Chron P before

/-- A program: from a system to a result and the system it leaves. -/
def Prog (S E Ev α : Type) : Type := Sys S E Ev → α × Sys S E Ev

section

variable {S E Ev α β γ : Type} {x : Prog S E Ev α}

instance : Monad (Prog S E Ev) where
  pure a := fun s => (a, s)
  bind x f := fun s => f (x s).1 (x s).2

def look : Prog S E Ev S := fun s => (s.obj, s)

def edit (f : S → S) : Prog S E Ev Unit := fun s => ((), s.put (f s.obj))

variable (f : E → α × E)

/-- Ask the environment, and log the question with its answer. -/
def ask (ev : α → Ev) : Prog S E Ev α := fun s =>
  ((f s.env).1, s.heard (ev (f s.env).1) (f s.env).2)

def note (ev : Ev) : Prog S E Ev Unit := fun s => ((), s.heard ev s.env)

/-- Read something of the environment that asking does not disturb. -/
def peek (f : E → α) : Prog S E Ev α := fun s => (f s.env, s)

/-- Take an answer from the environment without a line in the log. -/
def draw : Prog S E Ev α := fun s => ((f s.env).1, { s with env := (f s.env).2 })

/-- The Hoare triple. Programs are total. -/
def Spec (P : Sys S E Ev → Prop) (x : Prog S E Ev α) (Q : α → Sys S E Ev → Prop) : Prop :=
  ∀ s, P s → Q (x s).1 (x s).2

variable {P P' : Sys S E Ev → Prop} {Q Q' : α → Sys S E Ev → Prop}

theorem spec_pure (a : α) (h : ∀ s, P s → Q a s) : Spec P (pure a : Prog S E Ev α) Q :=
  fun s hs => h s hs

theorem spec_bind {R : α → Sys S E Ev → Prop} {T : β → Sys S E Ev → Prop}
    {f : α → Prog S E Ev β}
    (hx : Spec P x R) (hf : ∀ a, Spec (R a) (f a) T) : Spec P (x >>= f) T :=
  fun s hs => hf _ _ (hx s hs)

theorem spec_pre (hP : ∀ s, P' s → P s) (h : Spec P x Q) : Spec P' x Q :=
  fun s hs => h s (hP s hs)

theorem spec_post (h : Spec P x Q)
    (hQ : ∀ a s, Q a s → Q' a s) : Spec P x Q' :=
  fun s hs => hQ _ _ (h s hs)

theorem spec_and (h : Spec P x Q) (h' : Spec P x Q') :
    Spec P x (fun a s => Q a s ∧ Q' a s) :=
  fun s hs => ⟨h s hs, h' s hs⟩

theorem spec_each (h : ∀ t, P t → Spec (fun s => s = t) x Q) : Spec P x Q :=
  fun s hs => h s hs s rfl

theorem spec_at {t : Sys S E Ev} (ht : P t) (h : Spec P x Q) : Spec (fun s => s = t) x Q :=
  spec_pre (fun _ hs => hs ▸ ht) h

theorem spec_look : Spec P (look : Prog S E Ev S) (fun o s => P s ∧ o = s.obj) :=
  fun _ hs => ⟨hs, rfl⟩

theorem spec_edit {T : Unit → Sys S E Ev → Prop} (f : S → S)
    (h : ∀ s, P s → T () (s.put (f s.obj))) : Spec P (edit f) T :=
  fun s hs => h s hs

/-- Asking, for whatever answer comes back. -/
theorem spec_ask (ev : α → Ev) (h : ∀ s a e, P s → Q a (s.heard (ev a) e)) : Spec P (ask f ev) Q :=
  fun s hs => h s _ _ hs

theorem spec_asked (ev : α → Ev)
    (h : ∀ s, P s → Q (f s.env).1 (s.heard (ev (f s.env).1) (f s.env).2)) : Spec P (ask f ev) Q :=
  fun s hs => h s hs

theorem spec_note {T : Unit → Sys S E Ev → Prop} (ev : Ev)
    (h : ∀ s, P s → T () (s.heard ev s.env)) : Spec P (note ev) T :=
  fun s hs => h s hs

theorem spec_peek (f : E → α) (h : ∀ s a, P s → Q a s) : Spec P (peek f) Q :=
  fun s hs => h s _ hs

theorem spec_draw (h : ∀ s, P s → Q (f s.env).1 { s with env := (f s.env).2 }) :
    Spec P (draw f) Q :=
  fun s hs => h s hs

theorem look_bind (f : S → Prog S E Ev α) (s : Sys S E Ev) : (look >>= f) s = f s.obj s := rfl

/-- Where the object is known, reading it is no step at all. -/
theorem spec_bind_look {o : S} {f : S → Prog S E Ev α} (ho : ∀ s, P s → s.obj = o)
    (h : Spec P (f o) Q) : Spec P (look >>= f) Q := by
  intro s hs
  change Q (f s.obj s).1 (f s.obj s).2
  rw [ho s hs]
  exact h s hs

theorem spec_bind_look_at {s : Sys S E Ev} {f : S → Prog S E Ev α}
    (h : Spec (fun t => t = s) (f s.obj) Q) : Spec (fun t => t = s) (look >>= f) Q :=
  spec_bind_look (fun _ ht => congrArg Sys.obj ht) h

/-- A pure precondition can be moved out of the triple. -/
theorem spec_given {c : Prop} (h : c → Spec P x Q) :
    Spec (fun s => P s ∧ c) x Q :=
  fun s hs => h hs.2 s hs.1

theorem spec_ite {c : Prop} [Decidable c] {y : Prog S E Ev α}
    (hx : c → Spec P x Q) (hy : ¬ c → Spec P y Q) : Spec P (if c then x else y) Q := by
  by_cases hc : c
  · rw [if_pos hc]
    exact hx hc
  · rw [if_neg hc]
    exact hy hc

/-- A test that ends the program. -/
theorem spec_unless {c : Prop} [Decidable c] {a : α} (ha : ∀ s, P s → Q a s)
    (hx : ¬ c → Spec P x Q) : Spec P (if c then pure a else x) Q :=
  spec_ite (fun _ => spec_pure a ha) hx

/-- A test that ends the program, whatever it was about. -/
theorem spec_guard {c : Prop} [Decidable c] {a : α} (ha : ∀ s, P s → Q a s)
    (hx : Spec P x Q) : Spec P (if c then pure a else x) Q :=
  spec_unless ha fun _ => hx

/-- Short-circuit conjunction. -/
theorem spec_andM {R T : Bool → Sys S E Ev → Prop} {x y : Prog S E Ev Bool}
    (hx : Spec P x R) (hno : ∀ s, R false s → T false s) (hy : Spec (R true) y T) :
    Spec P (x <&&> y) T := by
  refine spec_bind hx fun b => ?_
  cases b with
  | false => exact spec_pure false hno
  | true => exact hy

/-- Run a list of calls in order, collecting the results. -/
def runAll (step : β → Prog S E Ev γ) : List β → Prog S E Ev (List γ)
  | [] => pure []
  | c :: cs => do
    let r ← step c
    let rs ← runAll step cs
    return r :: rs

variable (step : β → Prog S E Ev γ)

/-- A predicate that each of some calls preserves survives all of them. -/
theorem spec_runAll_mem : ∀ cs : List β,
    (∀ c ∈ cs, Spec P (step c) (fun _ => P)) → Spec P (runAll step cs) (fun _ => P) := by
  intro cs
  induction cs with
  | nil => exact fun _ => spec_pure [] (fun _ hs => hs)
  | cons c cs ih =>
    intro h
    refine spec_bind (h c List.mem_cons_self) fun r => ?_
    have hrest := ih (fun c' hc' => h c' (List.mem_cons_of_mem c hc'))
    exact spec_bind hrest (fun rs => spec_pure _ (fun _ hs => hs))

/-- A predicate that each call preserves survives any sequence of calls. -/
theorem spec_runAll (h : ∀ c, Spec P (step c) (fun _ => P)) (cs : List β) :
    Spec P (runAll step cs) (fun _ => P) :=
  spec_runAll_mem step cs (fun c _ => h c)

theorem runAll_append (cs cs' : List β) (s : Sys S E Ev) :
    (runAll step (cs ++ cs') s).2 = (runAll step cs' (runAll step cs s).2).2 := by
  induction cs generalizing s with
  | nil => rfl
  | cons c cs ih => exact ih (step c s).2

end

end Mellow.Lib
