import Mathlib.Data.Finset.Card

/-!
# Majorities

Two majorities of one finite set of members have a member in common.
-/

namespace Draft.Consensus

variable {N : Type*}

def IsMajority (members quorum : Finset N) : Prop :=
  quorum ⊆ members ∧ members.card < 2 * quorum.card

theorem IsMajority.meet [DecidableEq N] {members P Q : Finset N} (hP : IsMajority members P)
    (hQ : IsMajority members Q) : ∃ n, n ∈ P ∧ n ∈ Q := by
  have hcard : members.card < P.card + Q.card := by
    have hp := hP.2
    have hq := hQ.2
    omega
  obtain ⟨n, hn⟩ := Finset.inter_nonempty_of_card_lt_card_add_card hP.1 hQ.1 hcard
  exact ⟨n, (Finset.mem_inter.mp hn).1, (Finset.mem_inter.mp hn).2⟩

end Draft.Consensus
