import Mellow.Xe.Interrupt.Model

/-!
# Masking Among Interrupts

`filter` runs between any two operations of `start` and `service`. Both sides
write `state_` and the tile master, in two separate steps each. Accesses succeed
here and admission holds, and there is at most one `filter` at a time.

The interrupt side is idle, or has seen `state_` armed and not acted on it, or
owes the write that masks delivery. A `service` that runs while the write is
owed reads delivery enabled and fails, since `batchReady` is false whenever
`state_` is armed.

## Main definitions

* `Machine`: the controller and what remains of a `filter`.
* `Assertion`: what holds while the write is owed, and what holds otherwise.
* `Race`: all interleavings.

## Theorems

* `Assertion.kept`: the interrupt side disturbs none of it.
* `mask_agrees`: `state_` and the tile master agree whenever neither side is
  running.
-/

namespace Mellow.Interrupt

open Lib Lib.Code

/-- `isr` is what remains of the `filter` that is running. -/
structure Machine where
  phase : Phase
  enabled : Bool
  mem : Memory
  isr : Option (Ctl Bool)

/-- One operation, where accesses succeed and admission holds. -/
def act : (o : Op) → Machine → o.Answer → Machine → Prop
  | .load, s, a, s' => a = s.phase ∧ s' = s
  | .store p, s, _, s' => s' = { s with phase := p }
  | .compareExchange expected desired, s, a, s' =>
    (s.phase = expected ∧ a = true ∧ s' = { s with phase := desired }) ∨
      (s.phase ≠ expected ∧ a = false ∧ s' = s)
  | .admitted _, s, a, s' => a = true ∧ s' = s
  | .read32 reg, s, a, s' => s' = s ∧ ∃ v, a = some v ∧ (reg = .tileMaster → v.msb = s.enabled)
  | .write32 reg v, s, a, s' => a = true ∧
    s' = if reg = .tileMaster then { s with enabled := v.msb } else s
  | .nowMicros, s, _, s' => s' = s
  | .identity _ _, s, _, s' => s' = s
  | .otherMaster _ _, s, _, s' => s' = s
  | .fields, s, a, s' => a = s.mem ∧ s' = s
  | .record f, s, _, s' => s' = { s with mem := f s.mem }

inductive Irq : Machine → Machine → Prop
  | enter {s : Machine} (h : s.isr = none) : Irq s { s with isr := some filter }
  | op {s s' : Machine} {o : Op} {next : o.Answer → Ctl Bool} {a : o.Answer}
      (h : s.isr = some (.op o next)) (hact : act o s a s') :
      Irq s { s' with isr := some (next a) }
  | leave {s : Machine} {b : Bool} (h : s.isr = some (.ret b)) : Irq s { s with isr := none }

section Stages

def Over : Ctl Bool → Prop
  | .ret _ => True
  | .op _ _ => False

/-- The write that masks delivery is still to come. -/
def Owing : Ctl Bool → Prop
  | .op .fields next => ∀ m, m.bound = true → Owing (next m)
  | .op (.admitted _) next => Owing (next true)
  | .op (.write32 .tileMaster v) next => v.msb = false ∧ Over (next true)
  | _ => False

/-- `state_` was seen armed. -/
def Loaded : Ctl Bool → Prop
  | .ret _ => True
  | .op .fields next => ∀ m, m.bound = true → Loaded (next m)
  | .op (.admitted _) next => Loaded (next true)
  | .op (.read32 .tileMaster) next => ∀ v, Loaded (next (some v))
  | .op (.compareExchange .armed .masked) next => Owing (next true)
  | .op (.store .fault) next => Owing (next ())
  | _ => False

def afterArmed : Ctl Bool := do
  if !(← admitted) then return false
  match ← read .tileMaster with
  | none =>
    let _ ← fail .ioFailure
    return true
  | some level =>
    if level &&& 1 = 0 then return false
    if !(← perform (.compareExchange .armed .masked)) then return false
    if !(← write .tileMaster 0) then
      let _ ← fail .ioFailure
    return true

theorem filter_eq :
    filter = .op .load fun p => if p ≠ .armed then .ret false else afterArmed := rfl

theorem owing_write {f : Bool → Ctl Bool} (h : Over (f true)) :
    Owing (write .tileMaster 0 >>= f) := by
  intro m hm
  change Owing (((if (!m.bound) = true then _ else _ : Ctl Bool).bind _).bind f)
  rw [hm]
  exact ⟨rfl, h⟩

theorem loaded_fail (status : Status) : Loaded (fail status >>= fun _ => return true) := by
  intro m hm
  change Owing (((if (!m.bound) = true then _ else _ : Ctl Bool).bind _).bind _)
  rw [hm]
  intro m' hm'
  change Owing ((((if (!m'.bound) = true then _ else _ : Ctl Bool).bind _).bind _).bind _)
  rw [hm']
  exact ⟨rfl, trivial⟩

theorem afterArmed_loaded : Loaded afterArmed := by
  intro m hm
  change Loaded ((if (!m.bound) = true then _ else _ : Ctl Bool).bind _)
  rw [hm]
  change Loaded (read .tileMaster >>= _)
  intro m' hm'
  change Loaded (((if (!m'.bound) = true then _ else _ : Ctl Bool).bind _).bind _)
  rw [hm']
  intro v
  change Loaded ((if v = allOnes then none else some v : Option Word) |> fun x =>
    Code.bind (pure x) _)
  by_cases hv : v = allOnes
  · rw [if_pos hv]
    exact loaded_fail .ioFailure
  · rw [if_neg hv]
    change Loaded (if v &&& 1 = 0 then _ else _)
    by_cases hlevel : v &&& 1 = 0
    · rw [if_pos hlevel]
      trivial
    · rw [if_neg hlevel]
      exact owing_write trivial

end Stages

section Assertions

variable {s : Machine}

def Idle (isr : Option (Ctl Bool)) : Prop :=
  isr = none ∨ isr = some filter ∨ ∃ b, isr = some (.ret b)

/-- `calm` is to hold while nothing is owed, `owed` while the write is; the
    proofs are what the interrupt side needs to keep it. -/
structure Assertion where
  calm : Phase → Bool → Memory → Prop
  owed : Phase → Bool → Memory → Prop
  commit : ∀ e m, calm .armed e m → owed .masked e m ∧ owed .fault e m
  mask : ∀ p e m, owed p e m → calm p false m

def Assertion.At (A : Assertion) (s : Machine) : Prop :=
  s.mem.bound = true ∧
    ((Idle s.isr ∧ A.calm s.phase s.enabled s.mem) ∨
      (∃ c, s.isr = some c ∧ Loaded c ∧ s.phase = .armed ∧ A.calm s.phase s.enabled s.mem) ∨
      ∃ c, s.isr = some c ∧ Owing c ∧ A.owed s.phase s.enabled s.mem)

instance : CoeFun Assertion fun _ => Machine → Prop := ⟨Assertion.At⟩

namespace Assertion

variable {A A' : Assertion}

theorem fresh (hb : s.mem.bound = true) (h : A.calm s.phase s.enabled s.mem) :
    A { s with isr := some (if s.phase ≠ .armed then .ret false else afterArmed) } := by
  refine ⟨hb, ?_⟩
  by_cases hp : s.phase = .armed
  · rw [if_neg (not_not.mpr hp)]
    exact .inr (.inl ⟨afterArmed, rfl, afterArmed_loaded, hp, h⟩)
  · rw [if_pos hp]
    exact .inl ⟨.inr (.inr ⟨false, rfl⟩), h⟩

theorem loaded {s' : Machine} (hb : s.mem.bound = true)
    (hp : s.phase = .armed) (h : A.calm s.phase s.enabled s.mem) {o : Op}
    {next : o.Answer → Ctl Bool} (hl : Loaded (.op o next)) {a : o.Answer} (hact : act o s a s') :
    A { s' with isr := some (next a) } := by
  cases o with
  | fields =>
    rcases hact with ⟨rfl, rfl⟩
    exact ⟨hb, .inr (.inl ⟨_, rfl, hl _ hb, hp, h⟩)⟩
  | admitted epoch =>
    rcases hact with ⟨rfl, rfl⟩
    exact ⟨hb, .inr (.inl ⟨_, rfl, hl, hp, h⟩)⟩
  | read32 reg =>
    rcases hact with ⟨rfl, v, rfl, _⟩
    cases reg with
    | tileMaster => exact ⟨hb, .inr (.inl ⟨_, rfl, hl v, hp, h⟩)⟩
    | _ => exact hl.elim
  | compareExchange expected desired =>
    cases expected with
    | armed =>
      cases desired with
      | masked =>
        rcases hact with ⟨_, rfl, rfl⟩ | ⟨hne, _⟩
        · exact ⟨hb, .inr (.inr ⟨_, rfl, hl, (A.commit _ _ (hp ▸ h)).1⟩)⟩
        · exact absurd hp hne
      | _ => exact hl.elim
    | _ => exact hl.elim
  | store p =>
    cases hact
    cases p with
    | fault => exact ⟨hb, .inr (.inr ⟨_, rfl, hl, ((A.commit _ _ (hp ▸ h)).2)⟩)⟩
    | _ => exact hl.elim
  | _ => exact hl.elim

theorem owing {s' : Machine} (hb : s.mem.bound = true)
    (h : A.owed s.phase s.enabled s.mem) {o : Op} {next : o.Answer → Ctl Bool}
    (ho : Owing (.op o next)) {a : o.Answer} (hact : act o s a s') :
    A { s' with isr := some (next a) } := by
  cases o with
  | fields =>
    rcases hact with ⟨rfl, rfl⟩
    exact ⟨hb, .inr (.inr ⟨_, rfl, ho _ hb, h⟩)⟩
  | admitted epoch =>
    rcases hact with ⟨rfl, rfl⟩
    exact ⟨hb, .inr (.inr ⟨_, rfl, ho, h⟩)⟩
  | write32 reg v =>
    cases reg with
    | tileMaster =>
      rcases hact with ⟨rfl, rfl⟩
      rcases ho with ⟨hv, hover⟩
      refine ⟨hb, .inl ⟨?_, ?_⟩⟩
      · cases hnext : next true with
        | ret b => exact .inr (.inr ⟨b, by rw [← hnext]⟩)
        | op o' next' =>
          rw [hnext] at hover
          exact hover.elim
      · rw [if_pos rfl]
        dsimp only
        rw [hv]
        exact A.mask _ _ _ h
    | _ => exact ho.elim
  | _ => exact ho.elim

/-- Nothing is owed while no `filter` is running. -/
theorem At.alone (h : A s) (hisr : s.isr = none) : A.calm s.phase s.enabled s.mem := by
  rcases h with ⟨_, ⟨_, h⟩ | ⟨c, hc, _⟩ | ⟨c, hc, _⟩⟩
  · exact h
  · exact absurd (hisr.symm.trans hc) nofun
  · exact absurd (hisr.symm.trans hc) nofun

theorem kept (A : Assertion) : Kept Irq A := by
  rintro s s' h hstep
  have hcalm := h.alone
  rcases h with ⟨hb, hcases⟩
  cases hstep with
  | enter hisr => exact ⟨hb, .inl ⟨.inr (.inl rfl), hcalm hisr⟩⟩
  | leave hisr =>
    rcases hcases with ⟨_, h⟩ | ⟨c, _, _, _, h⟩ | ⟨c, hc, ho, _⟩
    · exact ⟨hb, .inl ⟨.inl rfl, h⟩⟩
    · exact ⟨hb, .inl ⟨.inl rfl, h⟩⟩
    · rw [hisr] at hc
      cases hc
      exact ho.elim
  | op hisr hact =>
    rcases hcases with ⟨hidle, h⟩ | ⟨c, hc, hl, hp, h⟩ | ⟨c, hc, ho, h⟩
    · rw [hisr] at hidle
      rcases hidle with hnone | hfilter | ⟨b, hret⟩
      · cases hnone
      · rw [filter_eq] at hfilter
        cases hfilter
        rcases hact with ⟨rfl, rfl⟩
        exact fresh hb h
      · cases hret
    · rw [hisr] at hc
      cases hc
      exact loaded hb hp h hl hact
    · rw [hisr] at hc
      cases hc
      exact owing hb h ho hact

theorem kept_and (P : Prop) : Kept Irq fun s => A s ∧ P :=
  fun t t' h hr => ⟨A.kept t t' h.1 hr, h.2⟩

/-- A step of the workloop, which does not move the interrupt side. -/
theorem At.map {s' : Machine} (h : A s) (hisr : s'.isr = s.isr)
    (hb : s'.mem.bound = s.mem.bound)
    (hphase : A.calm s.phase s.enabled s.mem → s.phase = .armed → s'.phase = .armed)
    (hcalm : A.calm s.phase s.enabled s.mem → A'.calm s'.phase s'.enabled s'.mem)
    (howed : A.owed s.phase s.enabled s.mem → A'.owed s'.phase s'.enabled s'.mem) :
    A' s' := by
  refine ⟨hb.trans h.1, ?_⟩
  rw [hisr]
  rcases h.2 with ⟨hidle, h⟩ | ⟨c, hc, hl, hp, h⟩ | ⟨c, hc, ho, h⟩
  · exact .inl ⟨hidle, hcalm h⟩
  · exact .inr (.inl ⟨c, hc, hl, hphase h hp, hcalm h⟩)
  · exact .inr (.inr ⟨c, hc, ho, howed h⟩)

theorem At.mono (h : A s) (hcalm : ∀ p e m, A.calm p e m → p = s.phase → A'.calm p e m)
    (howed : ∀ p e m, A.owed p e m → p = s.phase → A'.owed p e m) : A' s :=
  h.map rfl rfl (fun _ hp => hp) (fun h => hcalm _ _ _ h rfl) fun h => howed _ _ _ h rfl

end Assertion

end Assertions

section Operations

variable {s : Machine}

/-- A triple of the workloop, with the interrupt side among it. -/
def Loop {α : Type} (B : Machine → Prop) (c : Ctl α) (Q : α → Machine → Prop) : Prop :=
  Among act Irq B c Q

variable {A A' : Assertion}

theorem perform_loop {o : Op} (ho : ∀ s a s', act o s a s' → s' = s) :
    Loop A (perform o) (fun _ => A) :=
  among_perform A.kept (fun _ => A.kept) fun s a s' h hact => by
    rw [ho s a s' hact]
    exact h

theorem fields_loop : Loop A fields (fun _ => A) :=
  perform_loop fun _ _ _ h => h.2

theorem admitted_loop : Loop A admitted (fun b s => A s ∧ b = true) := by
  have hbound : Loop A fields (fun m s => A s ∧ m.bound = true) := by
    refine among_perform A.kept (fun _ => Assertion.kept_and _) ?_
    rintro s m s' h ⟨rfl, rfl⟩
    exact ⟨h, h.1⟩
  refine among_bind hbound fun m => among_ite (fun hno => ?_) fun _ => ?_
  · rintro s ⟨_, hb⟩
    rw [hb] at hno
    cases hno
  · refine among_pre (fun s h => h.1) (among_perform A.kept (fun _ => Assertion.kept_and _) ?_)
    rintro s b s' h ⟨rfl, rfl⟩
    exact ⟨h, rfl⟩

theorem admitted_bind {α : Type} {c d : Ctl α} {Q : α → Machine → Prop} (hc : Loop A c Q) :
    Loop A (do if !(← admitted) then d else c) Q := by
  refine among_bind admitted_loop fun b => ?_
  rintro s ⟨h, rfl⟩
  exact hc s h

theorem read_loop (reg : Reg) : Loop A (read reg) (fun _ => A) := by
  refine admitted_bind (among_bind (perform_loop fun _ _ _ h => h.1) fun a => ?_)
  cases a with
  | none | some => exact among_pure A.kept fun _ h => h

theorem write_loop {reg : Reg} (hreg : reg ≠ .tileMaster) (v : Word) :
    Loop A (write reg v) (fun b s => A s ∧ b = true) := by
  refine admitted_bind (among_perform A.kept (fun _ => Assertion.kept_and _) ?_)
  rintro s b s' h ⟨rfl, rfl⟩
  rw [if_neg hreg]
  exact ⟨h, rfl⟩

theorem writeTile_loop (v : Word) (hcalm : ∀ p e m, A.calm p e m → A'.calm p v.msb m)
    (howed : ∀ p e m, A.owed p e m → A'.owed p v.msb m) :
    Loop A (write .tileMaster v) (fun b s => A' s ∧ b = true) := by
  refine admitted_bind (among_perform A.kept (fun _ => Assertion.kept_and _) ?_)
  rintro s b s' h ⟨rfl, rfl⟩
  rw [if_pos rfl]
  exact ⟨h.map rfl rfl (fun _ hp => hp) (hcalm _ _ _) (howed _ _ _), rfl⟩

theorem write_bind {α : Type} {P R : Machine → Prop} {reg : Reg} {v : Word} {c d : Ctl α}
    {Q : α → Machine → Prop} (hw : Loop P (write reg v) (fun b s => R s ∧ b = true))
    (hc : Loop R c Q) : Loop P (do if !(← write reg v) then d else c) Q := by
  refine among_bind hw fun b => ?_
  rintro s ⟨h, rfl⟩
  exact hc s h

/-- A store to `state_`, where the interrupt side has not seen it armed. -/
theorem store_loop (p : Phase) (harmed : ∀ e m, ¬A.calm .armed e m)
    (hcalm : ∀ q e m, A.calm q e m → A'.calm p e m)
    (howed : ∀ q e m, A.owed q e m → A'.owed p e m) :
    Loop A (perform (.store p)) (fun _ => A') := by
  refine among_perform A.kept (fun _ => A'.kept) ?_
  rintro s _ s' h rfl
  exact h.map rfl rfl (fun hc hp => absurd (hp ▸ hc) (harmed _ _)) (hcalm _ _ _) (howed _ _ _)

theorem record_loop (f : Memory → Memory) (hf : ∀ m, (f m).bound = m.bound)
    (hcalm : ∀ p e m, A.calm p e m → A'.calm p e (f m))
    (howed : ∀ p e m, A.owed p e m → A'.owed p e (f m)) :
    Loop A (record f) (fun _ => A') := by
  refine among_perform A.kept (fun _ => A'.kept) ?_
  rintro s _ s' h rfl
  exact h.map rfl (hf s.mem) (fun _ hp => hp) (hcalm _ _ _) (howed _ _ _)

theorem load_loop (P : Phase → Prop) {B B' : Assertion} (hyes : ∀ s, A s → P s.phase → B s)
    (hno : ∀ s, A s → ¬P s.phase → B' s) :
    Loop A (perform .load) (fun p s => (P p → B s) ∧ (¬P p → B' s)) := by
  refine among_perform A.kept (fun p t t' h hr => ?_) ?_
  · exact ⟨fun hp => B.kept t t' (h.1 hp) hr, fun hp => B'.kept t t' (h.2 hp) hr⟩
  · rintro s p s' h ⟨rfl, rfl⟩
    exact ⟨hyes s' h, hno s' h⟩

end Operations

section Loops

variable {s : Machine}

/-- A batch that is being collected or handed out. -/
def Body : Assertion where
  calm p e _ := p = .workloop ∧ e = false
  owed _ _ _ := False
  commit := nofun
  mask := nofun

def Faulted : Assertion where
  calm p e _ := p = .fault ∧ e = false
  owed p _ _ := p = .fault
  commit := nofun
  mask _ _ _ h := ⟨h, rfl⟩

def Ready : Assertion where
  calm p _ m := (p = .stopped ∨ p = .workloop) ∧ m.batchReady = false
  owed _ _ _ := False
  commit := nofun
  mask := nofun

/-- What `state_` says of the enable bit and of the batch. -/
def Agrees (p : Phase) (e : Bool) (m : Memory) : Prop :=
  (p = .armed → e = true) ∧ (p ≠ .stopped ∧ p ≠ .armed → e = false) ∧
    (p ≠ .workloop ∧ p ≠ .fault → m.batchReady = false)

theorem agrees_masked {p : Phase} {m : Memory}
    (h : (p = .masked ∧ m.batchReady = false) ∨ p = .fault) : Agrees p false m := by
  rcases h with ⟨rfl, hready⟩ | rfl
  · exact ⟨nofun, fun _ => rfl, fun _ => hready⟩
  · exact ⟨nofun, fun _ => rfl, fun hne => absurd rfl hne.2⟩

def Between : Assertion where
  calm := Agrees
  owed p _ m := (p = .masked ∧ m.batchReady = false) ∨ p = .fault
  commit _ _ h := ⟨.inl ⟨rfl, h.2.2 ⟨nofun, nofun⟩⟩, .inr rfl⟩
  mask _ _ _ := agrees_masked

theorem between_pure {α : Type} (a : α) : Loop Between (pure a : Ctl α) (fun _ => Between) :=
  among_pure Between.kept fun _ h => h

theorem Faulted.between (h : Faulted s) : Between s := by
  refine h.mono (fun p e m hcalm _ => ?_) fun p e m howed _ => .inr howed
  rcases hcalm with ⟨rfl, rfl⟩
  exact agrees_masked (.inr rfl)

/-- A fault masks delivery. -/
theorem fail_loop {A : Assertion} (harmed : ∀ e m, ¬A.calm .armed e m) (status : Status) :
    Loop A (fail status) (fun a s => Faulted s ∧ a = status) := by
  let stored : Assertion :=
    ⟨fun p _ _ => p = .fault, fun p _ _ => p = .fault, nofun, fun _ _ _ h => h⟩
  have hstore : Loop A (perform (.store .fault)) (fun _ => stored) :=
    store_loop .fault harmed (fun _ _ _ _ => rfl) fun _ _ _ _ => rfl
  refine among_bind hstore fun _ => among_bind admitted_loop fun b => ?_
  rintro s ⟨h, rfl⟩
  have hwrite : Loop stored (write .tileMaster 0) (fun b s => Faulted s ∧ b = true) :=
    writeTile_loop 0 (fun p e m h => ⟨h, rfl⟩) fun p e m h => h
  have hlast : Loop Faulted (pure status) (fun a s => Faulted s ∧ a = status) :=
    among_pure Faulted.kept fun _ h => ⟨h, rfl⟩
  exact among_bind hwrite (fun _ => among_pre (fun _ h => h.1) hlast) s h

def Ended (a : Status) (s : Machine) : Prop := (a = .ok ∧ Body s) ∨ (a ≠ .ok ∧ Faulted s)

theorem ended_kept (a : Status) : Kept Irq (Ended a) := by
  rintro s s' (⟨ha, h⟩ | ⟨ha, h⟩) hr
  · exact .inl ⟨ha, Body.kept s s' h hr⟩
  · exact .inr ⟨ha, Faulted.kept s s' h hr⟩

theorem body_fail {status : Status} (hne : status ≠ .ok) : Loop Body (fail status) Ended :=
  among_post (fail_loop (A := Body) nofun status) fun _ _ h => .inr ⟨h.2 ▸ hne, h.1⟩

theorem body_pure : Loop Body (pure .ok : Ctl Status) Ended :=
  among_pure Body.kept fun _ h => .inl ⟨rfl, h⟩

theorem ended_bind {c d : Ctl Status} (hc : Loop Body c Ended) (hd : Loop Body d Ended) :
    Loop Body (do
      let s ← c
      if s ≠ .ok then return s
      d) Ended := by
  refine among_bind hc fun a => among_ite (fun ha => ?_) fun ha => ?_
  · exact among_pure (ended_kept a) fun _ h => h
  · refine among_pre (fun s h => ?_) hd
    rcases h with ⟨_, h⟩ | ⟨hne, _⟩
    · exact h
    · exact absurd hne ha

theorem body_write (reg : Reg) (hreg : reg ≠ .tileMaster) (v : Word) {c : Ctl Status}
    (hc : Loop Body c Ended) :
    Loop Body (do if !(← write reg v) then fail .ioFailure else c) Ended :=
  write_bind (write_loop hreg v) hc

theorem body_record (f : Memory → Memory) (hf : ∀ m, (f m).bound = m.bound) :
    Loop Body (record f) (fun _ => Body) :=
  record_loop f hf (fun _ _ _ h => h) fun _ _ _ h => h

theorem poll_loop (bank began left : Nat) : Loop Body (poll bank began left) (fun _ => Body) := by
  induction left with
  | zero => exact among_pure Body.kept fun _ h => h
  | succ left ih =>
    refine among_bind (read_loop _) fun a => ?_
    cases a with
    | none => exact among_pure Body.kept fun _ h => h
    | some v =>
      refine among_ite (fun _ => among_pure Body.kept fun _ h => h) fun _ => ?_
      refine among_bind (perform_loop fun _ _ _ h => h) fun now => ?_
      exact among_ite (fun _ => among_pure Body.kept fun _ h => h) fun _ => ih

theorem captureBit_loop (bank bit : Nat) : Loop Body (captureBit bank bit) Ended := by
  refine body_write (.selectorRegister bank) nofun _
    (among_bind (perform_loop fun _ _ _ h => h) fun began => ?_)
  refine among_bind (poll_loop bank began _) fun a => ?_
  cases a with
  | none => exact body_fail (by decide)
  | some a =>
    cases a with
    | none => exact body_fail (by decide)
    | some v =>
      exact body_write (.identityRegister bank) nofun _
        (among_bind (body_record _ fun _ => rfl) fun _ => body_pure)

theorem captureBits_loop (bank : Nat) (dw : Word) (bits : List Nat) :
    Loop Body (captureBits bank dw bits) Ended := by
  induction bits with
  | nil => exact body_pure
  | cons bit bits ih =>
    exact among_ite (fun _ => ih) fun _ => ended_bind (captureBit_loop bank bit) ih

theorem captureBank_loop (master : Word) (bank : Nat) :
    Loop Body (captureBank master bank) Ended := by
  refine among_ite (fun _ => body_pure) fun _ => among_bind (read_loop _) fun a => ?_
  cases a with
  | none => exact body_fail (by decide)
  | some dw =>
    exact ended_bind (captureBits_loop bank dw _) (body_write (.bankStatus bank) nofun _ body_pure)

theorem captureBanks_loop (master : Word) (banks : List Nat) :
    Loop Body (captureBanks master banks) Ended := by
  induction banks with
  | nil => exact body_pure
  | cons bank banks ih => exact ended_bind (captureBank_loop master bank) ih

/-- A call that found a batch to work on. -/
def Work : Assertion where
  calm p e _ := p = .workloop ∧ e = false
  owed p e m := p = .workloop ∧ e = true ∧ m.batchReady = false
  commit := nofun
  mask _ _ _ h := ⟨h.1, rfl⟩

theorem Work.body (h : Work s) (hno : s.enabled = false ∨ s.mem.batchReady = true) :
    Body s := by
  refine h.map rfl rfl (fun _ hp => hp) id fun howed => ?_
  rcases hno with hno | hno
  · exact absurd (hno.symm.trans howed.2.1) nofun
  · exact absurd (hno.symm.trans howed.2.2) nofun

theorem work_fail {status : Status} (hne : status ≠ .ok) : Loop Work (fail status) Ended :=
  among_post (fail_loop (A := Work) nofun status) fun _ _ h => .inr ⟨h.2 ▸ hne, h.1⟩

theorem msb_of_masked {v : Word} (h : v &&& masterEnable = 0) : v.msb = false := by
  have hmsb := congrArg BitVec.msb h
  rw [BitVec.msb_and] at hmsb
  exact (Bool.and_true v.msb).symm.trans hmsb

theorem msb_masked (v : Word) : (v &&& ~~~masterEnable).msb = false := by
  rw [BitVec.msb_and]
  exact Bool.and_false v.msb

/-- What `collect` first reads: if delivery is not enabled nothing is owed. -/
theorem readTile_loop : Loop Work (read .tileMaster)
    (fun a s => Work s ∧ ∀ v, a = some v → v &&& masterEnable = 0 → Body s) := by
  have hkept : ∀ a : Option Word,
      Kept Irq fun s => Work s ∧ ∀ v, a = some v → v &&& masterEnable = 0 → Body s :=
    fun a t t' h hr => ⟨Work.kept t t' h.1 hr,
      fun v ha hv => Body.kept t t' (h.2 v ha hv) hr⟩
  have hread : Loop Work (perform (.read32 .tileMaster)) (fun a s => Work s ∧
      ∀ v, a = some v → v &&& masterEnable = 0 → Body s) := by
    refine among_perform Work.kept hkept ?_
    rintro s a s' h ⟨rfl, v, rfl, hv⟩
    refine ⟨h, fun w hw hmask => Work.body h (.inl ?_)⟩
    cases hw
    rw [← hv rfl]
    exact msb_of_masked hmask
  refine admitted_bind (among_bind hread fun a => ?_)
  cases a with
  | none => exact among_pure (hkept none) fun _ h => h
  | some v =>
    refine among_pure (hkept (some v)) fun s h => ⟨h.1, fun w hw hmask => h.2 w ?_ hmask⟩
    by_cases hv : v = allOnes
    · rw [if_pos hv] at hw
      cases hw
    · rwa [if_neg hv] at hw

theorem collect_loop : Loop Work collect Ended := by
  refine among_bind readTile_loop fun a => ?_
  cases a with
  | none => exact among_pre (fun _ h => h.1) (work_fail (by decide))
  | some tile =>
    refine among_ite (fun _ => among_pre (fun _ h => h.1) (work_fail (by decide))) fun hen => ?_
    -- Delivery is masked from here on, and stays so.
    refine among_pre (fun s h => h.2 tile rfl (not_not.mp hen)) ?_
    refine among_ite (fun _ => body_fail (by decide)) fun _ => ?_
    refine among_ite (fun _ => among_bind (body_record _ fun _ => rfl) fun _ => body_pure)
      fun _ => ?_
    refine write_bind (R := Body) (writeTile_loop _
      (fun p e m h => ⟨h.1, msb_masked tile⟩) fun p e m h => h) ?_
    refine among_bind (read_loop .gfxMaster) fun a => ?_
    cases a with
    | none => exact body_fail (by decide)
    | some master =>
      refine body_write .gfxMaster nofun _ (among_bind (body_record _ fun _ => rfl) fun _ => ?_)
      exact ended_bind (captureBanks_loop master _)
        (among_bind (body_record _ fun _ => rfl) fun _ => body_pure)

/-- `rearm` before its write, and after it. -/
def Arming : Assertion where
  calm p _ m := (p = .armed ∨ p = .masked ∨ p = .fault) ∧ m.batchReady = false
  owed p _ m := (p = .masked ∨ p = .fault) ∧ m.batchReady = false
  commit _ _ h := ⟨⟨.inl rfl, h.2⟩, .inr rfl, h.2⟩
  mask _ _ _ h := ⟨.inr h.1, h.2⟩

def Enabled : Assertion where
  calm p e m := ((p = .armed ∧ e = true) ∨ p = .masked ∨ p = .fault) ∧ m.batchReady = false
  owed := Arming.owed
  commit _ _ h := ⟨⟨.inl rfl, h.2⟩, .inr rfl, h.2⟩
  mask _ _ _ h := ⟨.inr h.1, h.2⟩

/-- `rearm` where it has seen that the interrupt side came first. -/
def Undoing : Assertion where
  calm := Arming.owed
  owed := Arming.owed
  commit e m h := by rcases h.1 with h | h <;> cases h
  mask _ _ _ h := h

theorem enabled_load : Loop Enabled (perform .load)
    (fun p s => (p = .armed → Between s) ∧ (p ≠ .armed → Undoing s)) := by
  refine load_loop _ (fun s h hp => h.mono (fun p e m hc hps => ?_) fun p e m ho hps => ?_)
    fun s h hp => h.mono (fun p e m hc hps => ?_) fun p e m ho _ => ho
  · rcases hc with ⟨⟨rfl, rfl⟩ | rfl | rfl, hready⟩
    · exact ⟨fun _ => rfl, fun hne => absurd rfl hne.2, fun _ => hready⟩
    · exact absurd (hps.trans hp) nofun
    · exact absurd (hps.trans hp) nofun
  · rcases ho with ⟨rfl | rfl, _⟩
    · exact absurd (hps.trans hp) nofun
    · exact absurd (hps.trans hp) nofun
  · rcases hc with ⟨⟨rfl, _⟩ | hpast, hready⟩
    · exact absurd hps.symm hp
    · exact ⟨hpast, hready⟩

/-- `rearm` leaves state and enable bit in agreement. -/
theorem rearm_loop : Loop Ready rearm (fun _ => Between) := by
  have hstore : Loop Ready (perform (.store .armed)) (fun _ => Arming) := by
    refine store_loop .armed (fun e m h => ?_)
      (fun q e m h => ⟨.inl rfl, h.2⟩) nofun
    rcases h.1 with h | h <;> cases h
  have henable : Loop Arming (write .tileMaster masterEnable) (fun b s => Enabled s ∧
    b = true) := by
    refine writeTile_loop _ (fun p e m h => ⟨?_, h.2⟩) fun p e m h => h
    exact h.1.imp_left fun hp => ⟨hp, rfl⟩
  have hmask : Loop Undoing (write .tileMaster 0) (fun b s => Between s ∧ b = true) := by
    refine writeTile_loop _ (fun p e m h => agrees_masked ?_) fun p e m h => ?_
    · exact h.1.imp_left fun hp => ⟨hp, h.2⟩
    · exact h.1.imp_left fun hp => ⟨hp, h.2⟩
  refine among_bind hstore fun _ => write_bind henable ?_
  refine among_bind enabled_load fun after => among_ite (fun hne => ?_) fun heq => ?_
  · exact write_bind (among_pre (fun s h => h.2 hne) hmask) (between_pure _)
  · exact among_pre (fun s h => h.1 (not_not.mp heq)) (between_pure _)

theorem Body.between (h : Body s) : Between s := by
  refine h.mono (fun p e m hcalm _ => ?_) nofun
  rcases hcalm with ⟨rfl, rfl⟩
  exact ⟨nofun, fun _ => rfl, fun hne => absurd rfl hne.1⟩

/-- How handing out ends: with everything drained, or with a status. -/
def Handed (a : Option Status) (s : Machine) : Prop := (a = none ∧ Body s) ∨ (a ≠ none ∧ Between s)

theorem handed_none : Loop Body (pure none : Ctl (Option Status)) Handed :=
  among_pure Body.kept fun _ h => .inl ⟨rfl, h⟩

theorem handed_some (st : Status) : Loop Body (pure (some st) : Ctl (Option Status)) Handed :=
  among_pure Body.kept fun _ h => .inr ⟨nofun, Body.between h⟩

theorem handed_fail (st : Status) : Loop Body (do return some (← fail st)) Handed :=
  among_bind (fail_loop (A := Body) nofun st) fun _ =>
    among_pre (fun _ h => h.1) (among_pure Faulted.kept
      fun _ h => .inr ⟨nofun, Faulted.between h⟩)

theorem deliver_loop (fuel : Nat) : Loop Body (deliver fuel) Handed := by
  induction fuel with
  | zero => exact handed_none
  | succ fuel ih =>
    refine among_bind fields_loop fun m => among_ite (fun _ => ?_) fun _ => handed_none
    refine admitted_bind (among_bind (perform_loop fun _ _ _ h => h) fun h => ?_)
    cases h with
    | more => exact handed_some .pending
    | failed => exact handed_fail .unsupported
    | drained => exact among_bind (body_record _ fun _ => rfl) fun _ => ih

theorem deliverOther_loop : Loop Body deliverOther Handed := by
  refine among_bind fields_loop fun m => among_ite (fun _ => ?_) fun _ => handed_none
  refine admitted_bind (among_bind (perform_loop fun _ _ _ h => h) fun h => ?_)
  cases h with
  | more => exact handed_some .pending
  | failed => exact handed_fail .unsupported
  | drained => exact among_bind (body_record _ fun _ => rfl) fun _ => handed_none

theorem handed_bind {c : Ctl (Option Status)} {d : Ctl Status} (hc : Loop Body c Handed)
    (hd : Loop Body d (fun _ => Between)) :
    Loop Body (do
      match ← c with
      | some s => return s
      | none => d) (fun _ => Between) := by
  refine among_bind hc fun a => ?_
  cases a with
  | none => exact among_pre (fun s h => h.elim (fun h => h.2) fun h => absurd rfl h.1) hd
  | some st =>
    refine among_pre (fun s h => ?_) (between_pure st)
    exact h.elim (fun h => absurd h.1 nofun) fun h => h.2

theorem handOut_loop : Loop Body handOut (fun _ => Between) := by
  have hclose : Loop Body (record fun m => { m with batchReady := false }) (fun _ => Ready) :=
    record_loop _ (fun _ => rfl) (fun p e m h => ⟨.inr h.1, rfl⟩) nofun
  refine among_bind fields_loop fun m => handed_bind (deliver_loop _) ?_
  exact handed_bind deliverOther_loop (among_bind hclose fun _ => rearm_loop)

end Loops

section Calls

variable {s : Machine}

/-- A call that has begun, with delivery still enabled if a write is owed. -/
def Begun : Assertion where
  calm := Agrees
  owed p e m := Between.owed p e m ∧ e = true
  commit _ _ h := ⟨⟨.inl ⟨rfl, h.2.2 ⟨nofun, nofun⟩⟩, h.1 rfl⟩, .inr rfl, h.1 rfl⟩
  mask _ _ _ h := agrees_masked h.1

theorem Begun.between (h : Begun s) : Between s :=
  h.mono (fun _ _ _ h _ => h) fun _ _ _ h _ => h.1

theorem Between.begun (h : Between s) (hisr : s.isr = none) : Begun s :=
  ⟨h.1, .inl ⟨.inl hisr, h.alone hisr⟩⟩

def Found : Assertion where
  calm p e m := ((p = .masked ∧ m.batchReady = false) ∨ p = .workloop) ∧ e = false
  owed p e m := p = .masked ∧ e = true ∧ m.batchReady = false
  commit e m h := by rcases h.1 with ⟨h, _⟩ | h <;> cases h
  mask _ _ _ h := ⟨.inl ⟨h.1, h.2.2⟩, rfl⟩

theorem Begun.found (h : Begun s) (hp : s.phase = .masked ∨ s.phase = .workloop) :
    Found s := by
  refine h.mono (fun p e m hc hps => ?_) fun p e m ho hps => ?_
  · rw [← hps] at hp
    refine ⟨hp.imp_left fun hp => ⟨hp, hc.2.2 ?_⟩, hc.2.1 ?_⟩ <;> rcases hp with rfl | rfl <;>
      exact ⟨nofun, nofun⟩
  · rcases ho with ⟨⟨rfl, hready⟩ | rfl, he⟩
    · exact ⟨rfl, he, hready⟩
    · rcases hp with hp | hp
      · exact absurd (hps.trans hp) nofun
      · exact absurd (hps.trans hp) nofun

theorem service_loop : Loop Begun service (fun _ => Between) := by
  have hload := load_loop (fun p => p = .masked ∨ p = .workloop) (fun _ h => Begun.found h)
    fun _ h _ => Begun.between h
  have hstore : Loop Found (perform (.store .workloop)) (fun _ => Work) := by
    refine store_loop .workloop (fun e m h => ?_) (fun q e m h => ⟨rfl, h.2⟩)
      fun q e m h => ⟨rfl, h.2⟩
    rcases h.1 with ⟨h, _⟩ | h <;> cases h
  have hfields : Loop Work fields (fun m s => Work s ∧ (m.batchReady = true → Body s)) := by
    refine among_perform Work.kept (fun m t t' ht hr => ?_) ?_
    · exact ⟨Work.kept t t' ht.1 hr, fun hm => Body.kept t t' (ht.2 hm) hr⟩
    · rintro s m s' h ⟨rfl, rfl⟩
      exact ⟨h, fun hm => Work.body h (.inr hm)⟩
  refine among_bind hload fun state => among_ite (fun hfault => ?_) fun _ =>
    among_ite (fun hno => ?_) fun hyes => ?_
  · exact among_pre (fun s h => h.2 (by rw [hfault]; decide)) (between_pure _)
  · exact among_pre (fun s h => h.2 (not_or.mpr hno)) (between_pure _)
  · have hstate : state = .masked ∨ state = .workloop := by
      by_contra hnone
      exact hyes (not_or.mp hnone)
    refine among_pre (fun s h => h.1 hstate) ?_
    refine admitted_bind (among_bind hstore fun _ => among_bind hfields fun m => ?_)
    refine among_ite (fun _ => among_pre (fun s h => h.1) ?_) fun hready => ?_
    · refine among_bind collect_loop fun a => among_ite (fun ha => ?_) fun ha => ?_
      · refine among_pre (fun s h => ?_) (between_pure a)
        exact h.elim (fun h => absurd h.1 ha) fun h => Faulted.between h.2
      · exact among_pre (fun s h => h.elim (fun h => h.2) fun h => absurd h.1 ha) handOut_loop
    · refine among_pre (fun s h => h.2 ?_) handOut_loop
      cases hm : m.batchReady with
      | true => rfl
      | false => exact absurd (by rw [hm]; rfl) hready

theorem Begun.ready (h : Begun s) (hp : s.phase = .stopped) : Ready s := by
  refine h.mono (fun p e m hc hps => ?_) fun p e m ho hps => ?_
  · rw [hps, hp] at hc ⊢
    exact ⟨.inl rfl, hc.2.2 ⟨nofun, nofun⟩⟩
  · rcases ho with ⟨⟨rfl, _⟩ | rfl, _⟩
    · exact absurd (hps.trans hp) nofun
    · exact absurd (hps.trans hp) nofun

theorem start_loop : Loop Begun start (fun _ => Between) := by
  have hload := load_loop (fun p => p = .stopped) (fun _ h => Begun.ready h)
    fun _ h _ => Begun.between h
  refine among_bind fields_loop fun m => among_ite (fun _ => ?_) fun _ => ?_
  · exact among_pure Begun.kept fun _ h => Begun.between h
  · refine among_bind hload fun state => among_ite (fun hne => ?_) fun heq => ?_
    · exact among_pre (fun s h => h.2 hne) (between_pure _)
    · exact among_pre (fun s h => h.1 (not_not.mp heq)) (admitted_bind rearm_loop)

def LoopCall (c : Ctl Status) : Prop := c = start ∨ c = service

/-- One step of either side. A call begins only while no `filter` is running. -/
abbrev Race : Option (Ctl Status) × Machine → Option (Ctl Status) × Machine → Prop :=
  Turn act Irq LoopCall fun s => s.isr = none

def Machine.start (m : Memory) (enabled : Bool) : Machine :=
  ⟨.stopped, enabled, { m with bound := true, batchReady := false }, none⟩

theorem start_between (m : Memory) (enabled : Bool) : Between (Machine.start m enabled) :=
  ⟨rfl, .inl ⟨.inl rfl, nofun, fun h => absurd rfl h.1, fun _ => rfl⟩⟩

/-- State and enable bit agree whenever neither side is running. -/
theorem mask_agrees (m : Memory) (enabled : Bool) (s : Machine)
    (hsteps : Relation.ReflTransGen Race (none, Machine.start m enabled) (none, s))
    (hisr : s.isr = none) :
    (s.phase = .armed → s.enabled = true) ∧
      (s.phase = .masked ∨ s.phase = .workloop ∨ s.phase = .fault → s.enabled = false) := by
  have hholds : Between s := by
    refine Turns.sound Between.kept (fun c t hc ht hJ => ?_) hsteps
      (start_between m enabled)
    rcases hc with rfl | rfl
    · exact start_loop t (Between.begun hJ ht)
    · exact service_loop t (Between.begun hJ ht)
  have hcalm := hholds.alone hisr
  refine ⟨hcalm.1, fun h => hcalm.2.1 ?_⟩
  rcases h with h | h | h <;> rw [h] <;> exact ⟨nofun, nofun⟩

/-- A `filter` that comes after a `start` masks what was enabled. -/
theorem mask_agrees_masked : ∃ s, Relation.ReflTransGen Race
    (none, Machine.start { configured := true } false) (none, s) ∧ s.phase = .masked ∧
    s.enabled = false := by
  let s : Phase → Bool → Option (Ctl Bool) → Machine := fun p e isr =>
    ⟨p, e, { configured := true, bound := true, batchReady := false }, isr⟩
  have harm : Relation.ReflTransGen Race (none, s .stopped false none)
    (none, s .armed true none) := by
    refine .head (.begin (.inl rfl) rfl) ?_
    refine .head (.op (o := Op.fields) ⟨rfl, rfl⟩) ?_
    refine .head (.op (o := Op.load) ⟨rfl, rfl⟩) ?_
    refine .head (.op (o := Op.fields) ⟨rfl, rfl⟩) ?_
    refine .head (.op (o := Op.admitted 0) ⟨rfl, rfl⟩) ?_
    refine .head (.op (o := Op.store .armed) (a := ()) rfl) ?_
    refine .head (.op (o := Op.fields) ⟨rfl, rfl⟩) ?_
    refine .head (.op (o := Op.admitted 0) ⟨rfl, rfl⟩) ?_
    refine .head (.op (o := Op.write32 .tileMaster masterEnable) ⟨rfl, rfl⟩) ?_
    refine .head (.op (o := Op.load) ⟨rfl, rfl⟩) ?_
    exact .single (.done Status.ok _)
  have hmask : Relation.ReflTransGen Race (none, s .armed true none)
    (none, s .masked false none) := by
    refine .head (.other none (.enter rfl)) ?_
    refine .head (.other none (.op (o := Op.load) rfl ⟨rfl, rfl⟩)) ?_
    refine .head (.other none (.op (o := Op.fields) rfl ⟨rfl, rfl⟩)) ?_
    refine .head (.other none (.op (o := Op.admitted 0) rfl ⟨rfl, rfl⟩)) ?_
    refine .head (.other none (.op (o := Op.fields) rfl ⟨rfl, rfl⟩)) ?_
    refine .head (.other none (.op (o := Op.admitted 0) rfl ⟨rfl, rfl⟩)) ?_
    refine .head (.other none (.op (o := Op.read32 .tileMaster) rfl
      ⟨rfl, masterEnable ||| 1, rfl, fun _ => rfl⟩)) ?_
    refine .head (.other none (.op (o := Op.compareExchange .armed .masked) rfl
      (.inl ⟨rfl, rfl, rfl⟩))) ?_
    refine .head (.other none (.op (o := Op.fields) rfl ⟨rfl, rfl⟩)) ?_
    refine .head (.other none (.op (o := Op.admitted 0) rfl ⟨rfl, rfl⟩)) ?_
    refine .head (.other none (.op (o := Op.write32 .tileMaster 0) rfl ⟨rfl, rfl⟩)) ?_
    exact .single (.other none (.leave rfl))
  exact ⟨_, harm.trans hmask, rfl,
    (mask_agrees { configured := true } false _ (harm.trans hmask) rfl).2 (.inl rfl)⟩

end Calls

end Mellow.Interrupt
