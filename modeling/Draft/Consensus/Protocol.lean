import Mathlib.Logic.Function.Basic
import Draft.Consensus.LogMatching
import Draft.Consensus.Majority

/-!
# A replicated log with elected leaders

The abstract protocol.  A node campaigns in a new term with the log it has, a
majority of votes makes that log the log of the term, and from then on the
nodes of that term append to it or adopt a prefix of it.  A node only adopts a
prefix of its own log when the prefix is the whole of it.

A list is *decided* when it is part of the base, or when a majority adopted
the log of a term up to an entry that was created in this term.
-/

namespace Draft.Consensus

variable {N α : Type*}

structure Protocol (N α : Type*) where
  current : N → Nat
  log : N → List α
  leaders : Leaders α
  /-- The log a node campaigned with in a term. -/
  candidateLog : Nat → N → Option (List α)
  ballot : N → Nat → N → Prop
  /-- How far a node adopted the log of a term. -/
  adopted : N → Nat → Nat

/-- The order of `request_vote`: the last terms first, then the lengths. -/
def UpToDate (term : α → Nat) (candidate voter : List α) : Prop :=
  ∀ y, voter.getLast? = some y →
    ∃ x, candidate.getLast? = some x ∧
      (term y < term x ∨ term y = term x ∧ voter.length ≤ candidate.length)

namespace Protocol

variable [DecidableEq N]

/-! ## Steps -/

section Updates

variable (s : Protocol N α)

def raise (n : N) (t : Nat) : Protocol N α :=
  { s with current := Function.update s.current n t }

def addBallot (n : N) (t : Nat) (c : N) : Protocol N α :=
  { s with ballot := fun m u d => s.ballot m u d ∨ (m = n ∧ u = t ∧ d = c) }

def campaign (n : N) (t : Nat) : Protocol N α :=
  { s with
    current := Function.update s.current n t
    candidateLog := Function.update s.candidateLog t
      (Function.update (s.candidateLog t) n (some (s.log n)))
    ballot := fun m u d => s.ballot m u d ∨ (m = n ∧ u = t ∧ d = n) }

def elect (t : Nat) (g : List α) : Protocol N α :=
  { s with leaders :=
    { elected := fun u => s.leaders.elected u ∨ u = t
      log := Function.update s.leaders.log t g } }

def adopt (n : N) (t k : Nat) : Protocol N α :=
  { s with
    log := Function.update s.log n ((s.leaders.log t).take k)
    adopted := fun m u => if m = n ∧ u = t then max (s.adopted n t) k else s.adopted m u }

def extend (n : N) (t : Nat) (x : α) : Protocol N α :=
  { s with
    leaders := { s.leaders with
      log := Function.update s.leaders.log t (s.leaders.log t ++ [x]) }
    log := Function.update s.log n (s.leaders.log t ++ [x])
    adopted := fun m u =>
      if m = n ∧ u = t then (s.leaders.log t).length + 1 else s.adopted m u }

end Updates

variable (term : α → Nat) (members : Finset N) (base : List α)

inductive Step (s : Protocol N α) : Protocol N α → Prop
  | raise (n : N) (t : Nat) (ht : s.current n ≤ t) : Step s (s.raise n t)
  | campaign (n : N) (t : Nat) (ht : s.current n < t) (hb : ∀ x ∈ base, term x ≤ t) :
      Step s (s.campaign n t)
  | vote (n : N) (t : Nat) (c : N) (g : List α) (ht : s.current n = t)
      (hfree : ∀ d, s.ballot n t d → d = c) (hc : s.candidateLog t c = some g)
      (hg : UpToDate term g (s.log n)) : Step s (s.addBallot n t c)
  | elect (t : Nat) (c : N) (g : List α) (Q : Finset N) (hc : s.candidateLog t c = some g)
      (hQ : IsMajority members Q) (hvotes : ∀ n ∈ Q, s.ballot n t c)
      (hnew : ¬ s.leaders.elected t) : Step s (s.elect t g)
  | adopt (n : N) (t k : Nat) (ht : s.current n = t) (he : s.leaders.elected t)
      (hk : k ≤ (s.leaders.log t).length)
      (hkeep : (s.leaders.log t).take k <+: s.log n → (s.log n).length ≤ k) :
      Step s (s.adopt n t k)
  | extend (n : N) (t : Nat) (x : α) (ht : s.current n = t) (he : s.leaders.elected t)
      (hlog : s.log n = s.leaders.log t) (hx : term x = t) : Step s (s.extend n t x)

/-! ## Decided lists -/

/-- The leader of `t` created the entry at position `i` of its log itself. -/
def Own (s : Protocol N α) (t i : Nat) : Prop :=
  s.leaders.elected t ∧ base.length ≤ i ∧
    ∃ x, (s.leaders.log t)[i]? = some x ∧ term x = t

def Decided (s : Protocol N α) (t : Nat) (p : List α) : Prop :=
  p <+: base ∨
    ∃ u i, u ≤ t ∧ s.Own term base u i ∧ p <+: (s.leaders.log u).take (i + 1) ∧
      ∃ Q, IsMajority members Q ∧ ∀ n ∈ Q, i < s.adopted n u

/-- A majority left term `t` without adopting position `i` of its log. -/
def Blocked (s : Protocol N α) (t i : Nat) : Prop :=
  ∃ Q, IsMajority members Q ∧ ∀ n ∈ Q, t < s.current n ∧ s.adopted n t ≤ i

/-! ## The invariant -/

def Ordered (g : List α) : Prop :=
  ∀ i j x y, base.length ≤ i → i ≤ j → g[i]? = some x → g[j]? = some y → term x ≤ term y

def Bounded (g : List α) (t : Nat) : Prop :=
  ∀ i x, base.length ≤ i → g[i]? = some x → term x ≤ t

structure Inv (s : Protocol N α) : Prop where
  /-- The term of a leader is not below the base. -/
  base_le : ∀ t, s.leaders.elected t → ∀ x ∈ base, term x ≤ t
  log_follows : ∀ n, Follows term base s.leaders (s.log n)
  log_ordered : ∀ n, Ordered term base (s.log n)
  log_bounded : ∀ n, Bounded term base (s.log n) (s.current n)
  leader_follows : ∀ t, s.leaders.elected t → Follows term base s.leaders (s.leaders.log t)
  leader_ordered : ∀ t, s.leaders.elected t → Ordered term base (s.leaders.log t)
  leader_bounded : ∀ t, s.leaders.elected t → Bounded term base (s.leaders.log t) t
  candidate_term : ∀ t c g, s.candidateLog t c = some g →
    t ≤ s.current c ∧ ∀ x ∈ base, term x ≤ t
  candidate_follows : ∀ t c g, s.candidateLog t c = some g → Follows term base s.leaders g
  candidate_ordered : ∀ t c g, s.candidateLog t c = some g → Ordered term base g
  /-- A candidate has no entry of its own term yet. -/
  candidate_below : ∀ t c g, s.candidateLog t c = some g →
    ∀ i x, base.length ≤ i → g[i]? = some x → term x < t
  ballot_term : ∀ n t c, s.ballot n t c → t ≤ s.current n ∧ ∃ g, s.candidateLog t c = some g
  ballot_unique : ∀ n t c d, s.ballot n t c → s.ballot n t d → c = d
  elected_votes : ∀ t, s.leaders.elected t →
    ∃ c Q, IsMajority members Q ∧ ∀ n ∈ Q, s.ballot n t c
  adopted_le : ∀ n t, 0 < s.adopted n t →
    s.leaders.elected t ∧ t ≤ s.current n ∧ s.adopted n t ≤ (s.leaders.log t).length
  /-- What a node adopted of its current term is in its log. -/
  held : ∀ n t, s.current n = t → (s.leaders.log t).take (s.adopted n t) <+: s.log n
  /-- What a term may still decide is in the log of every later leader, -/
  later_leader : ∀ t u i, t < u → s.Own term base t i → s.leaders.elected u →
    (s.leaders.log t).take (i + 1) <+: s.leaders.log u ∨ s.Blocked members t i
  /-- in the log of every node that adopted it, -/
  kept : ∀ n t i, s.Own term base t i → i < s.adopted n t →
    (s.leaders.log t).take (i + 1) <+: s.log n ∨ s.Blocked members t i
  /-- and in the log of every candidate such a node voted for later. -/
  voted_kept : ∀ n t u c g i, t < u → s.Own term base t i → i < s.adopted n t →
    s.ballot n u c → s.candidateLog u c = some g →
    (s.leaders.log t).take (i + 1) <+: g ∨ s.Blocked members t i

end Protocol

end Draft.Consensus
