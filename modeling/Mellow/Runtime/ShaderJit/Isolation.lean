import Mellow.Runtime.ShaderJit.AirEmit
import Mellow.Runtime.ShaderJit.MslEmit

/-!
# Isolation of Work Items

Neither front end lets a kernel compute an index: both check that it comes down
to the number of the work item, and write this number in its place. So every
access of the output is confined, by its text.

## Theorems

* `compile_isolated`: what is compiled is isolated.
-/

namespace Mellow.ShaderJit

open Lib

/-- A confined output that fails outside of the buffer only is safe. -/
theorem safe_of_confined {outs : List Stmt}
    (hconfined : ∀ st ∈ outs, st.Confined "mellow_buffer0" "mellow_gid")
    (hruns : ∀ g buf, ∃ r, SameEnd g buf r ((emitted outs).run g buf)) : (emitted outs).Safe where
  const := rfl
  confined := hconfined
  runs := fun g buf hg => by
    rcases hruns g buf with ⟨_, ⟨buf', _, hok⟩ | ⟨_, _, hlen⟩⟩
    · exact ⟨buf', hok⟩
    · exact absurd hlen (Nat.not_le_of_lt hg)

/-- Work items of the output do not interfere, whichever front end wrote it. -/
theorem compile_isolated (source entry : String) (r : CompileResult)
    (hr : r = compileMsl source entry ∨ r = Air.compileAirText source entry)
    (h : r.success = true) :
    ∃ k f, (∀ k', OpenClUnit entry r.openclSource k' ↔ k' = k) ∧ Isolated k f := by
  have hkernel : ∃ outs, OpenClUnit entry r.openclSource (emitted outs) ∧
      (emitted outs).Safe := by
    rcases hr with rfl | rfl
    · rcases compileMsl_kernel h with ⟨_, _, src, outs, _, _, hunit, hconfined, hrun⟩
      exact ⟨outs, hunit, safe_of_confined hconfined fun g buf => ⟨_, hrun g buf⟩⟩
    · rcases Air.compileAirText_kernel h with ⟨_, _, src, outs, _, _, hunit, _, hconfined, hrun⟩
      exact ⟨outs, hunit, safe_of_confined hconfined fun g buf => ⟨_, hrun g 0 0 buf⟩⟩
  rcases hkernel with ⟨outs, hunit, hsafe⟩
  refine ⟨_, _, fun k' => ⟨fun hk => hk.unique hunit, ?_⟩, hsafe.isolated⟩
  rintro rfl
  exact hunit

theorem compile_isolated_alias :
    (compileMsl aliasSource "alias").success = true ∧
      ∃ k f, (∀ k', OpenClUnit "alias" (compileMsl aliasSource "alias").openclSource k' ↔ k' = k) ∧
        Isolated k f :=
  ⟨aliasSource_accepted, compile_isolated aliasSource "alias" _ (.inl rfl) aliasSource_accepted⟩

end Mellow.ShaderJit
