import Draft.Consensus.Run

/-!
# Runs with a history

A system is run together with notes on its steps.  The notes are read by no
step, so the runs with notes are the runs of the system.
-/

namespace Draft.Consensus

variable {σ ε η : Type*} (step : σ → ε → Option σ) (note : σ → ε → σ → η → η)

def noted (p : σ × η) (e : ε) : Option (σ × η) :=
  (step p.1 e).map fun t => (t, note p.1 e t p.2)

variable {step note}

theorem noted_eq_some {p q : σ × η} {e : ε} :
    noted step note p e = some q ↔
      step p.1 e = some q.1 ∧ q.2 = note p.1 e q.1 p.2 := by
  unfold noted
  rw [Option.map_eq_some_iff]
  constructor
  · rintro ⟨t, ht, rfl⟩
    exact ⟨ht, rfl⟩
  · rintro ⟨hstep, hnote⟩
    exact ⟨q.1, hstep, by rw [← hnote]⟩

end Draft.Consensus
