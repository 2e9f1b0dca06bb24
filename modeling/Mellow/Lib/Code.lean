import Mellow.Lib.Prog

/-!
# Code, Alone and Among Others

Code that runs on several contexts has two readings. Alone it runs from start to
end. Among others only its single operations are indivisible, and after each of
them the others may move the state by `rely` steps.

## Main definitions

* `Code`: a tree of operations.
* `exec`: running it alone.
* `wp`: its meaning among others.
* `Turn`: a context that makes calls, one at a time, and the others.

## Theorems

* `Turns.sound`: what each call restores and the others keep holds throughout.
-/

namespace Mellow.Lib

/-- A program over operations `O`, where `A o` is the type of answers to `o`. -/
inductive Code (O : Type) (A : O → Type) (α : Type) : Type where
  | ret (a : α)
  | op (o : O) (next : A o → Code O A α)

namespace Code

variable {O : Type} {A : O → Type} {α β : Type}

def bind : Code O A α → (α → Code O A β) → Code O A β
  | .ret a, f => f a
  | .op o next, f => .op o fun a => (next a).bind f

instance monadCode : Monad (Code O A) where
  pure := .ret
  bind := bind

def perform (o : O) : Code O A (A o) := .op o .ret

section Alone

variable {S E Ev : Type} {P : Sys S E Ev → Prop}

def exec (run : (o : O) → Prog S E Ev (A o)) : Code O A α → Prog S E Ev α
  | .ret a => pure a
  | .op o next => run o >>= fun a => exec run (next a)

theorem exec_bind (run : (o : O) → Prog S E Ev (A o)) (c : Code O A α) (f : α → Code O A β) :
    exec run (c >>= f) = exec run c >>= fun a => exec run (f a) := by
  induction c with
  | ret a => rfl
  | op o next ih =>
    funext s
    exact congrFun (ih (run o s).1) (run o s).2

/-- What every operation keeps, all code keeps. -/
theorem spec_kept {run : (o : O) → Prog S E Ev (A o)} (h : ∀ o, Spec P (run o) (fun _ => P))
    (c : Code O A α) : Spec P (exec run c) (fun _ => P) := by
  induction c with
  | ret a => exact spec_pure a fun _ hs => hs
  | op o next ih => exact spec_bind (h o) ih

end Alone

section Among

variable {σ : Type} (act : (o : O) → σ → A o → σ → Prop) (rely : σ → σ → Prop) {c : Code O A α}

def Stable (P : σ → Prop) (s : σ) : Prop := ∀ s', Relation.ReflTransGen rely s s' → P s'

/-- The states from which the code ends with `Q`, whatever others do in
    between. -/
def wp : Code O A α → (α → σ → Prop) → σ → Prop
  | .ret a, Q => Stable rely (Q a)
  | .op o next, Q => Stable rely fun s => ∀ a s', act o s a s' → wp (next a) Q s'

variable {act rely} {s s' : σ} {Q : α → σ → Prop}

theorem wp_later (h : wp act rely c Q s) (hs : rely s s') :
    wp act rely c Q s' := by
  cases c with
  | ret | op => exact fun t ht => h t (.head hs ht)

theorem wp_bind {f : α → Code O A β} {T : β → σ → Prop}
    (h : wp act rely c (fun a => wp act rely (f a) T) s) : wp act rely (c >>= f) T s := by
  induction c generalizing s with
  | ret a => exact h s .refl
  | op o next ih => exact fun t ht a t' hact => ih a (h t ht a t' hact)

def Kept (rely : σ → σ → Prop) (B : σ → Prop) : Prop := ∀ s s', B s → rely s s' → B s'

theorem Kept.stable {B : σ → Prop} (hB : Kept rely B) (h : B s) : Stable rely B s := by
  intro t ht
  induction ht with
  | refl => exact h
  | tail _ hstep ih => exact hB _ _ ih hstep

theorem wp_post {Q' : α → σ → Prop} (h : wp act rely c Q s)
    (hQ : ∀ a s, Q a s → Q' a s) : wp act rely c Q' s := by
  induction c generalizing s with
  | ret a => exact fun t ht => hQ a t (h t ht)
  | op o next ih => exact fun t ht a t' ha => ih a (h t ht a t' ha)

/-- The triple for code among others. -/
def Among (act : (o : O) → σ → A o → σ → Prop) (rely : σ → σ → Prop) (B : σ → Prop)
    (c : Code O A α) (Q : α → σ → Prop) : Prop :=
  ∀ s, B s → wp act rely c Q s

section Rules

variable {B B' : σ → Prop} {Q' : α → σ → Prop} {c : Code O A α}

theorem among_bind {f : α → Code O A β} {T : β → σ → Prop}
    (hc : Among act rely B c Q) (hf : ∀ a, Among act rely (Q a) (f a) T) :
    Among act rely B (c >>= f) T :=
  fun s hs => wp_bind (wp_post (hc s hs) hf)

theorem among_pre (hB : ∀ s, B' s → B s) (h : Among act rely B c Q) :
    Among act rely B' c Q :=
  fun s hs => h s (hB s hs)

theorem among_post (h : Among act rely B c Q) (hQ : ∀ a s, Q a s → Q' a s) :
    Among act rely B c Q' :=
  fun s hs => wp_post (h s hs) hQ

theorem among_pure (hB : Kept rely B) {a : α} (h : ∀ s, B s → Q a s) :
    Among act rely B (pure a : Code O A α) Q :=
  fun _ hs t ht => h t (hB.stable hs t ht)

/-- One operation, between assertions that others keep. -/
theorem among_perform {o : O} {R : A o → σ → Prop} (hB : Kept rely B) (hR : ∀ a, Kept rely (R a))
    (h : ∀ s a s', B s → act o s a s' → R a s') : Among act rely B (perform o) R :=
  fun _ hs t ht a t' ha => (hR a).stable (h t a t' (hB.stable hs t ht) ha)

theorem among_ite {p : Prop} [Decidable p] {d : Code O A α} (hc : p → Among act rely B c Q)
    (hd : ¬p → Among act rely B d Q) : Among act rely B (if p then c else d) Q := by
  by_cases hp : p
  · rw [if_pos hp]
    exact hc hp
  · rw [if_neg hp]
    exact hd hp

end Rules

end Among

section Turns

variable {σ : Type} (act : (o : O) → σ → A o → σ → Prop) (rely : σ → σ → Prop)
  (calls : Code O A α → Prop) (mayBegin : σ → Prop)

/-- One step of the system: of others, or of the context that makes calls. -/
inductive Turn : Option (Code O A α) × σ → Option (Code O A α) × σ → Prop
  | other (c : Option (Code O A α)) {s s' : σ} (h : rely s s') : Turn (c, s) (c, s')
  | begin {c : Code O A α} {s : σ} (hc : calls c) (hs : mayBegin s) : Turn (none, s) (some c, s)
  | op {o : O} {next : A o → Code O A α} {s s' : σ} {a : A o} (h : act o s a s') :
      Turn (some (.op o next), s) (some (next a), s')
  | done (a : α) (s : σ) : Turn (some (.ret a), s) (none, s)

variable {act rely calls mayBegin}

def Holds (act : (o : O) → σ → A o → σ → Prop) (rely : σ → σ → Prop) (J : σ → Prop) :
    Option (Code O A α) × σ → Prop
  | (none, s) => J s
  | (some c, s) => wp act rely c (fun _ => J) s

theorem Turn.holds {J : σ → Prop} (hrely : Kept rely J)
    (hcalls : ∀ c s, calls c → mayBegin s → J s → wp act rely c (fun _ => J) s)
    {x y : Option (Code O A α) × σ} (hstep : Turn act rely calls mayBegin x y)
    (hx : Holds act rely J x) : Holds act rely J y := by
  cases hstep with
  | other c h =>
    cases c with
    | none => exact hrely _ _ hx h
    | some c => exact wp_later hx h
  | begin hc hs => exact hcalls _ _ hc hs hx
  | op h => exact hx _ .refl _ _ h
  | done a s => exact hx s .refl

theorem Turns.sound {J : σ → Prop} (hrely : Kept rely J)
    (hcalls : ∀ c s, calls c → mayBegin s → J s → wp act rely c (fun _ => J) s)
    {x y : Option (Code O A α) × σ}
    (hsteps : Relation.ReflTransGen (Turn act rely calls mayBegin) x y)
    (hx : Holds act rely J x) : Holds act rely J y := by
  induction hsteps with
  | refl => exact hx
  | tail _ hstep ih => exact hstep.holds hrely hcalls ih

end Turns

end Code

end Mellow.Lib
