import Draft.Raft.Frames

/-!
# The vote file

The term and the vote live in a mapped file and change by single writes.  A
server can be killed between two of them, and then starts again from what the
file holds.
-/

namespace Draft

open Consensus Raft

structure VoteState where
  currTerm : Nat
  votedFor : Bytes
  deriving DecidableEq, Repr

inductive VoteWrite where
  /-- `voted_for()[0] = 0`. -/
  | clear
  /-- `curr_term() = term`, or `++curr_term()`. -/
  | term (term : Nat)
  /-- `memcpy` to `voted_for()`. -/
  | vote (id : Bytes)
  deriving DecidableEq, Repr

namespace VoteState

def write (f : VoteState) : VoteWrite → VoteState
  | .clear => { f with votedFor := [] }
  | .term term => { f with currTerm := term }
  | .vote id => { f with votedFor := id }

def writes (f : VoteState) (ws : List VoteWrite) : VoteState := ws.foldl write f

@[simp] theorem writes_nil (f : VoteState) : f.writes [] = f := rfl

theorem writes_append (f : VoteState) (ws vs : List VoteWrite) :
    f.writes (ws ++ vs) = (f.writes ws).writes vs := List.foldl_append

end VoteState

/-! ## The writes of each function -/

namespace Raft

variable (s : Raft)

def voteState : VoteState := { currTerm := s.currTerm, votedFor := s.votedFor }

def stepDownWrites (newTerm : Nat) : List VoteWrite := [.term newTerm]

def acceptTermWrites (term : Nat) : List VoteWrite := .clear :: stepDownWrites term

def leaderElectionWrites : List VoteWrite := [.term (s.currTerm + 1), .vote s.selfId]

def preVoteWrites : List VoteWrite :=
  if s.cluster.length = 1 ∧ s.contains s.selfId then s.leaderElectionWrites else []

def checkoutWrites : List VoteWrite :=
  if s.cluster.length / 2 < s.preVotesGranted then s.leaderElectionWrites else []

def onPreVoteWrites (res : Option VoteRes) : List VoteWrite :=
  if s.role ≠ .follower then []
  else if res.any (·.voteGranted) then
    { s with preVotesGranted := s.preVotesGranted + 1 }.checkoutWrites
  else { s with preVotesRefused := s.preVotesRefused + 1 }.checkoutWrites

/-- `step_down` of a callback, for a response with a newer term. -/
def answerWrites (term : Nat) : List VoteWrite :=
  if s.currTerm < term then stepDownWrites term else []

/-- `step_down` of a handler, for a request with a newer term. -/
def requestWrites (term : Nat) : List VoteWrite :=
  if s.currTerm < term then acceptTermWrites term else []

def handleRequestVoteWrites (req : VoteReq) : List VoteWrite :=
  let t := s.heedCandidate req.term
  s.requestWrites req.term ++
    if req.term < t.currTerm then []
    else if t.votedFor ≠ [] ∧ req.candidateId ≠ t.votedFor then []
    else if t.logAhead req then []
    else if req.candidateId ≠ t.votedFor then [.term req.term, .vote req.candidateId]
    else []

def serveWrites : Request → List VoteWrite
  | .timeoutNow _ => s.preVoteWrites
  | .preVote _ => []
  | .requestVote req => s.handleRequestVoteWrites req
  | .appendEntries req => s.requestWrites req.term
  | .dataTransfer req => s.requestWrites req.term
  | .doneTransfer req => s.requestWrites req.term

def finishWrites : Request → Option Response → List VoteWrite
  | .preVote _, some (.vote res) => s.onPreVoteWrites (some res)
  | .preVote _, none => s.onPreVoteWrites none
  | .requestVote _, some (.vote res) =>
      if s.role ≠ .candidate ∨ res.voteGranted then [] else s.answerWrites res.term
  | .appendEntries _, some (.append res) =>
      if s.role ≠ .leader ∨ res.success then [] else s.answerWrites res.term
  | .dataTransfer _, some (.data res) => if res.success then [] else s.answerWrites res.term
  | .doneTransfer _, some (.data res) => if res.success then [] else s.answerWrites res.term
  | _, _ => []

end Raft

/-! ## What a server does with its vote -/

structure Voter where
  selfId : Bytes
  file : VoteState
  ballots : List (Nat × Bytes)

namespace Voter

inductive Change (v : Voter) : List VoteWrite → Voter → Prop
  | raise (term : Nat) (h : v.file.currTerm < term) :
      Change v [.term term] { v with file := { v.file with currTerm := term } }
  | accept (term : Nat) (h : v.file.currTerm < term) :
      Change v [.clear, .term term] { v with file := { currTerm := term, votedFor := [] } }
  | elect :
      Change v [.term (v.file.currTerm + 1), .vote v.selfId]
        { v with
          file := { currTerm := v.file.currTerm + 1, votedFor := v.selfId }
          ballots := v.ballots ++ [(v.file.currTerm + 1, v.selfId)] }
  | grant (candidate : Bytes) (hfree : v.file.votedFor = []) (hne : candidate ≠ []) :
      Change v [.term v.file.currTerm, .vote candidate]
        { v with
          file := { v.file with votedFor := candidate }
          ballots := v.ballots ++ [(v.file.currTerm, candidate)] }
  | again (hne : v.file.votedFor ≠ []) :
      Change v [] { v with ballots := v.ballots ++ [(v.file.currTerm, v.file.votedFor)] }

inductive Changes (v : Voter) : List VoteWrite → Voter → Prop
  | refl : Changes v [] v
  | tail {ws vs : List VoteWrite} {u t : Voter} (h : Changes v ws u) (k : Change u vs t) :
      Changes v (ws ++ vs) t

/-- Every vote was for somebody, one a term; the file has the one of the current term. -/
structure Once (v : Voter) : Prop where
  self : v.selfId ≠ []
  cast : ∀ b ∈ v.ballots,
    b.1 ≤ v.file.currTerm ∧ (b.1 = v.file.currTerm → v.file.votedFor = b.2) ∧ b.2 ≠ []
  unique : ∀ t c d, (t, c) ∈ v.ballots → (t, d) ∈ v.ballots → c = d

variable {v u : Voter} {ws vs : List VoteWrite}

theorem Change.once (h : v.Once) (hchange : v.Change ws u) : u.Once := by
  have older : ∀ {term : Nat} {votedFor : Bytes}, v.file.currTerm < term → ∀ b ∈ v.ballots,
      b.1 ≤ term ∧ (b.1 = term → votedFor = b.2) ∧ b.2 ≠ [] := by
    intro term votedFor hterm b hb
    have := (h.cast b hb).1
    exact ⟨by omega, fun _ => by omega, (h.cast b hb).2.2⟩
  have fresh : ∀ {term : Nat} {candidate : Bytes}, (∀ c, (term, c) ∈ v.ballots → c = candidate) →
      ∀ t c d, (t, c) ∈ v.ballots ++ [(term, candidate)] →
        (t, d) ∈ v.ballots ++ [(term, candidate)] → c = d := by
    intro term candidate hsame t c d hc hd
    simp only [List.mem_append, List.mem_singleton, Prod.mk.injEq] at hc hd
    rcases hc with hc | ⟨rfl, rfl⟩ <;> rcases hd with hd | ⟨hd, rfl⟩
    · exact h.unique t c d hc hd
    · exact hsame c (hd ▸ hc)
    · exact (hsame d hd).symm
    · rfl
  cases hchange with
  | raise term hterm => exact ⟨h.self, older hterm, h.unique⟩
  | accept term hterm => exact ⟨h.self, older hterm, h.unique⟩
  | elect =>
      refine ⟨h.self, fun b hb => ?_, fresh fun c hc => ?_⟩
      · rcases List.mem_append.mp hb with hb | hb
        · exact older (Nat.lt_succ_self _) b hb
        · obtain rfl := List.mem_singleton.mp hb
          exact ⟨le_rfl, fun _ => rfl, h.self⟩
      · exact absurd (h.cast _ hc).1 (by simp)
  | grant candidate hfree hne =>
      have hnone : ∀ c, (v.file.currTerm, c) ∉ v.ballots := fun c hc =>
        (h.cast _ hc).2.2 (((h.cast _ hc).2.1 rfl).symm.trans hfree)
      refine ⟨h.self, fun b hb => ?_, fresh fun c hc => absurd hc (hnone c)⟩
      rcases List.mem_append.mp hb with hb | hb
      · refine ⟨(h.cast b hb).1, fun hterm => ?_, (h.cast b hb).2.2⟩
        exact absurd (hterm ▸ hb : (v.file.currTerm, b.2) ∈ v.ballots) (hnone b.2)
      · obtain rfl := List.mem_singleton.mp hb
        exact ⟨le_rfl, fun _ => rfl, hne⟩
  | again hne =>
      refine ⟨h.self, fun b hb => ?_, fresh fun c hc => ((h.cast _ hc).2.1 rfl).symm⟩
      rcases List.mem_append.mp hb with hb | hb
      · exact h.cast b hb
      · obtain rfl := List.mem_singleton.mp hb
        exact ⟨le_rfl, fun _ => rfl, hne⟩

theorem Changes.once (h : v.Once) (hchanges : v.Changes ws u) : u.Once := by
  induction hchanges with
  | refl => exact h
  | tail _ hchange ih => exact hchange.once ih

theorem Changes.single (h : v.Change ws u) : v.Changes ws u := .tail .refl h

theorem Changes.trans {t : Voter} (h : v.Changes ws u) (k : u.Changes vs t) :
    v.Changes (ws ++ vs) t := by
  induction k with
  | refl => rwa [List.append_nil]
  | tail _ hchange ih =>
      rw [← List.append_assoc]
      exact .tail ih hchange

theorem Changes.selfId (h : v.Changes ws u) : u.selfId = v.selfId := by
  induction h with
  | refl => rfl
  | tail _ hchange ih => cases hchange <;> exact ih

theorem Change.file (hchange : v.Change ws u) : u.file = v.file.writes ws := by
  cases hchange <;> rfl

theorem Changes.file (hchanges : v.Changes ws u) : u.file = v.file.writes ws := by
  induction hchanges with
  | refl => rfl
  | tail _ hchange ih => rw [hchange.file, ih, VoteState.writes_append]

/-! ## Killed between two writes -/

def Knows (f : VoteState) (ballots : List (Nat × Bytes)) : Prop :=
  ∀ b ∈ ballots, b.1 ≤ f.currTerm ∧ (b.1 = f.currTerm → f.votedFor = b.2)

variable {ballots : List (Nat × Bytes)}

theorem Change.knows_take (hchange : v.Change ws u) (h : Knows v.file ballots)
    (hne : ∀ b ∈ ballots, b.2 ≠ []) (k : Nat)
    (hclear : (ws.take k).getLast? = some .clear → ∀ c, (v.file.currTerm, c) ∉ ballots) :
    Knows (v.file.writes (ws.take k)) ballots := by
  have later : ∀ {term : Nat} {votedFor : Bytes}, v.file.currTerm < term →
      Knows { currTerm := term, votedFor := votedFor } ballots := by
    intro term votedFor hterm b hb
    have := (h b hb).1
    exact ⟨by dsimp only; omega, fun heq => by dsimp only at heq; omega⟩
  cases hchange with
  | raise term hterm =>
      cases k with
      | zero => exact h
      | succ k => simpa [VoteState.writes, VoteState.write] using later hterm
  | accept term hterm =>
      match k with
      | 0 => exact h
      | 1 =>
          intro b hb
          refine ⟨(h b hb).1, fun hcurrent => absurd hb ?_⟩
          obtain ⟨t, c⟩ := b
          obtain rfl : t = v.file.currTerm := hcurrent
          exact hclear rfl c
      | k + 2 => simpa [VoteState.writes, VoteState.write] using later hterm
  | elect =>
      match k with
      | 0 => exact h
      | 1 => exact later (Nat.lt_succ_self _)
      | k + 2 => simpa [VoteState.writes, VoteState.write] using later (Nat.lt_succ_self _)
  | grant candidate hfree hcandidate =>
      match k with
      | 0 => exact h
      | 1 => exact h
      | k + 2 =>
          intro b hb
          simp only [List.take_succ_cons, List.take_nil, VoteState.writes, VoteState.write,
            List.foldl_cons, List.foldl_nil]
          exact ⟨(h b hb).1, fun hterm => absurd ((h b hb).2 hterm ▸ hfree) (hne b hb)⟩
  | again hvoted => simpa using h

private theorem Changes.knows (hchanges : v.Changes ws u) (h : v.Once) : Knows u.file v.ballots := by
  have grows : ∀ b ∈ v.ballots, b ∈ u.ballots := by
    induction hchanges with
    | refl => exact fun _ hb => hb
    | tail _ hchange ih =>
        intro b hb
        have := ih b hb
        cases hchange <;> simp_all
  intro b hb
  have hcast := (hchanges.once h).cast b (grows b hb)
  exact ⟨hcast.1, hcast.2.1⟩

theorem Changes.currTerm_le (hchanges : v.Changes ws u) : v.file.currTerm ≤ u.file.currTerm := by
  induction hchanges with
  | refl => exact le_rfl
  | tail _ hchange ih =>
      refine ih.trans ?_
      cases hchange with
      | raise term hterm => exact hterm.le
      | accept term hterm => exact hterm.le
      | elect => exact Nat.le_succ _
      | grant => exact le_rfl
      | again => exact le_rfl

/-- Only a cleared vote of the current term is forgotten. -/
theorem Changes.knows_take (hchanges : v.Changes ws u) (h : v.Once) (k : Nat)
    (hclear : (ws.take k).getLast? = some .clear → ∀ c, (v.file.currTerm, c) ∉ v.ballots) :
    Knows (v.file.writes (ws.take k)) v.ballots := by
  have hne : ∀ b ∈ v.ballots, b.2 ≠ [] := fun b hb => (h.cast b hb).2.2
  induction hchanges generalizing k with
  | refl =>
      rw [List.take_nil]
      exact fun b hb => ⟨(h.cast b hb).1, (h.cast b hb).2.1⟩
  | tail hbefore hchange ih =>
      rename_i ws vs u t
      by_cases hk : k ≤ ws.length
      · rw [List.take_append_of_le_length hk] at hclear ⊢
        exact ih k hclear
      · have htake : (ws ++ vs).take k = ws ++ vs.take (k - ws.length) := by
          rw [List.take_append, List.take_of_length_le (by omega)]
        rw [htake] at hclear ⊢
        rw [VoteState.writes_append, ← hbefore.file]
        refine hchange.knows_take (hbefore.knows h) hne _ fun hlast c hc => ?_
        have hcurrent : u.file.currTerm = v.file.currTerm :=
          le_antisymm (h.cast _ hc).1 hbefore.currTerm_le
        have hlast' : (ws ++ vs.take (k - ws.length)).getLast? = some .clear := by
          rw [List.getLast?_append, hlast]
          rfl
        exact hclear hlast' c (hcurrent ▸ hc)

theorem Once.restart (h : v.Once) {f : VoteState} (hknows : Knows f v.ballots) :
    Once { v with file := f } :=
  ⟨h.self, fun b hb => ⟨(hknows b hb).1, (hknows b hb).2, (h.cast b hb).2.2⟩, h.unique⟩

end Voter

/-! ## The functions of a server -/

namespace Raft

variable {s t u : Raft} {ws vs : List VoteWrite}

def voter (s : Raft) : Voter :=
  { selfId := s.selfId, file := s.voteState, ballots := s.ballots }

def asked (s : Raft) : List Bytes := s.sent.filterMap (·.request.asked)

structure Votes (s : Raft) (ws : List VoteWrite) (t : Raft) : Prop where
  changes : s.voter.Changes ws t.voter
  asked : ∀ c ∈ t.asked, c ∈ s.asked ∨ c = s.selfId

theorem Votes.of_eq (hvoter : t.voter = s.voter) (hasked : t.asked = s.asked) : Votes s [] t :=
  ⟨hvoter ▸ .refl, fun _ hc => .inl (hasked ▸ hc)⟩

theorem Votes.of_standing (h : t.standing = s.standing) : Votes s [] t := by
  have helection := election_of_standing h
  refine .of_eq ?_ (congrArg Prod.snd h)
  rw [voter, voter, voteState, voteState, helection]

theorem Votes.selfId (h : Votes s ws t) : t.selfId = s.selfId := h.changes.selfId

theorem Votes.trans (h : Votes s ws t) (k : Votes t vs u) : Votes s (ws ++ vs) u :=
  ⟨h.changes.trans k.changes, fun c hc => (k.asked c hc).elim (h.asked c) fun heq =>
    .inr (heq.trans h.selfId)⟩

theorem Votes.congr (h : Votes s ws t) (k : Votes t [] u) : Votes s ws u := by
  simpa using h.trans k

theorem Votes.after (k : Votes t ws u) (h : Votes s [] t) : Votes s ws u := h.trans k

/-! ### Terms -/

private theorem votes_stepDown {term : Nat} (h : s.currTerm < term) (leader : Bytes) :
    Votes s (stepDownWrites term) (s.stepDown term leader) := by
  have raised : Votes s (stepDownWrites term) { s with
      heartbeatTimer := false, role := .follower, currTerm := term, electionTimer := true } :=
    ⟨.single (.raise term h), fun _ hc => .inl hc⟩
  exact raised.congr (.of_standing (endLeadershipTransfer_frame .standing rfl leader))

private theorem votes_acceptTerm {term : Nat} (h : s.currTerm < term) (leader : Bytes) :
    Votes s (acceptTermWrites term) (s.acceptTerm term leader) := by
  have accepted : Votes s (acceptTermWrites term) { s with
      votedFor := [], heartbeatTimer := false, role := .follower, currTerm := term,
      electionTimer := true } :=
    ⟨.single (.accept term h), fun _ hc => .inl hc⟩
  exact accepted.congr (.of_standing (endLeadershipTransfer_frame .standing rfl leader))

private theorem votes_heedCandidate (term : Nat) :
    Votes s (s.requestWrites term) (s.heedCandidate term) := by
  unfold requestWrites heedCandidate
  split
  · exact votes_acceptTerm ‹_› _
  · exact .of_eq rfl rfl

private theorem votes_heedLeader (term : Nat) (leader : Bytes) :
    Votes s (s.requestWrites term) (s.heedLeader term leader) := by
  unfold requestWrites heedLeader
  split
  · exact votes_acceptTerm ‹_› _
  · exact .of_eq rfl rfl

private theorem votes_followSender (term : Nat) (leader : Bytes) :
    Votes s (s.requestWrites term) (s.followSender term leader) := by
  unfold requestWrites followSender
  split
  · exact (votes_acceptTerm ‹_› leader).congr (.of_eq rfl rfl)
  · exact .of_eq rfl rfl

/-! ### Elections -/

private theorem votes_stepUp : Votes s [] s.stepUp := by
  have lead : Votes s [] s.becomeLeader := .of_eq rfl rfl
  exact lead.congr (.of_standing (appendEntries_frame .standing rfl))

private theorem votes_leaderElection : Votes s s.leaderElectionWrites s.leaderElection := by
  have candidate : Votes s s.leaderElectionWrites s.becomeCandidate :=
    ⟨.single .elect, fun _ hc => .inl hc⟩
  unfold leaderElection
  dsimp only
  split
  · exact candidate.congr votes_stepUp
  · refine candidate.congr ⟨.refl, fun c hc => ?_⟩
    simp only [requestVotes, invokeAll, asked, List.filterMap_append, List.mem_append] at hc
    refine hc.imp_right fun hmem => ?_
    obtain ⟨o, ho, hasked⟩ := List.mem_filterMap.mp hmem
    obtain ⟨n, -, rfl⟩ := List.mem_map.mp ho
    exact (Option.some.inj hasked).symm

theorem votes_preVote (early : Bool) : Votes s s.preVoteWrites (s.preVote early) := by
  unfold preVoteWrites preVote
  split
  · exact votes_leaderElection
  · let t : Raft := { s with
      preVotesGranted := if s.contains s.selfId then 1 else 0, preVotesRefused := 0,
      role := .follower }
    have calls : (t.invokeAll s.others fun _ => .preVote (s.voteReq early)).standing =
        t.standing :=
      invokeAll_frame (p := .standing) fun _ => rfl
    exact (Votes.of_standing calls).after (.of_eq rfl rfl)

private theorem votes_checkout : Votes s s.checkoutWrites s.checkout := by
  unfold checkoutWrites checkout
  split
  · exact votes_leaderElection
  split
  · exact .of_eq rfl rfl
  · exact .of_eq rfl rfl

private theorem votes_onPreVote (res : Option VoteRes) :
    Votes s (s.onPreVoteWrites res) (s.onPreVote res) := by
  unfold onPreVoteWrites onPreVote
  split
  · exact .of_eq rfl rfl
  split
  · exact votes_checkout.after (.of_eq rfl rfl)
  · exact votes_checkout.after (.of_eq rfl rfl)

private theorem votes_answer (term : Nat) (leader : Bytes) :
    Votes s (s.answerWrites term) (if s.currTerm < term then s.stepDown term leader else s) := by
  unfold answerWrites
  split
  · exact votes_stepDown ‹_› leader
  · exact .of_eq rfl rfl

/-! ### The service -/

private theorem votes_handleRequestVote {req : VoteReq} (hne : req.candidateId ≠ []) :
    Votes s (s.handleRequestVoteWrites req) (s.handleRequestVote req).1 := by
  have heed := votes_heedCandidate (s := s) req.term
  have hterm : req.term ≤ (s.heedCandidate req.term).currTerm := by
    unfold heedCandidate
    split
    · exact (stepDown_currTerm _ _ _).ge
    · omega
  unfold handleRequestVoteWrites handleRequestVote
  dsimp only
  refine heed.trans ?_
  generalize s.heedCandidate req.term = u at hterm ⊢
  split
  · exact .of_eq rfl rfl
  rename_i hcurrent
  have heq : req.term = u.currTerm := by omega
  split
  · exact .of_eq rfl rfl
  rename_i hfree
  split
  · exact .of_eq rfl rfl
  split
  · rename_i hother
    have hnone : u.votedFor = [] := by
      by_contra hvoted
      exact hfree ⟨hvoted, hother⟩
    rw [heq]
    exact ⟨.single (.grant req.candidateId hnone hne), fun _ hc => .inl hc⟩
  · rename_i hsame
    rw [not_not.mp hsame] at hne ⊢
    exact ⟨.single (.again hne), fun _ hc => .inl hc⟩

theorem votes_serve (recent : Bool) {req : Request} (hne : ∀ c ∈ req.asked, c ≠ []) :
    Votes s (s.serveWrites req) (s.serve recent req).1 := by
  cases req with
  | timeoutNow req =>
      have timer : Votes s [] { s with electionTimer := false } := .of_eq rfl rfl
      exact (votes_preVote true).after timer
  | preVote req => exact .of_eq rfl rfl
  | requestVote req => exact votes_handleRequestVote (hne _ rfl)
  | appendEntries req =>
      change Votes s (s.requestWrites req.term) (s.handleAppendEntries req).1
      unfold handleAppendEntries
      split
      · rw [requestWrites, if_neg (by omega)]
        exact .of_eq rfl rfl
      · exact (votes_heedLeader req.term req.leaderId).congr
          (.of_standing (acceptEntries_frame .standing rfl rfl req))
  | dataTransfer req =>
      change Votes s (s.requestWrites req.term) (s.handleDataTransfer req).1
      unfold handleDataTransfer
      split
      · rw [requestWrites, if_neg (by omega)]
        exact .of_eq rfl rfl
      · refine (votes_followSender req.term req.leaderId).congr (.of_standing ?_)
        dsimp only
        split
        · exact beginTransfer_frame .standing rfl rfl req
        · rfl
  | doneTransfer req =>
      change Votes s (s.requestWrites req.term) (s.handleDoneTransfer req).1
      unfold handleDoneTransfer
      split
      · rw [requestWrites, if_neg (by omega)]
        exact .of_eq rfl rfl
      · refine (votes_followSender req.term req.leaderId).congr (.of_eq ?_ ?_) <;>
        · dsimp only
          split <;> rfl

/-! ### Callbacks -/

theorem votes_finish (id : Bytes) (quick : Bool) (req : Request) (res : Option Response) :
    Votes s (s.finishWrites req res) (s.finish id quick req res) := by
  have same : Votes s [] s := .of_eq rfl rfl
  cases req with
  | timeoutNow req =>
      match res with
      | none => exact .of_standing (onTimeoutNow_frame .standing id _)
      | some (.vote res) => exact .of_standing (onTimeoutNow_frame .standing id _)
      | some (.append res) => exact same
      | some (.data res) => exact same
  | preVote req =>
      match res with
      | none => exact votes_onPreVote none
      | some (.vote res) => exact votes_onPreVote (some res)
      | some (.append res) => exact same
      | some (.data res) => exact same
  | requestVote req =>
      match res with
      | none => exact same
      | some (.vote res) =>
          simp only [finishWrites, finish, onRequestVote]
          by_cases hrole : s.role ≠ .candidate
          · simpa [hrole] using same
          by_cases hgranted : res.voteGranted = true
          · simp only [hrole, hgranted, or_true, if_true, if_false]
            split
            · exact same
            unfold countVote
            dsimp only
            split
            · exact votes_stepUp.after (.of_eq rfl rfl)
            · exact .of_eq rfl rfl
          · simpa [hrole, hgranted] using votes_answer (s := s) res.term []
      | some (.append res) => exact same
      | some (.data res) => exact same
  | appendEntries req =>
      match res with
      | none =>
          simp only [finishWrites, finish, onAppendEntries]
          split
          · exact .of_standing (handleCatchUpServerAppendEntries_frame .standing rfl quick)
          · exact same
      | some (.vote res) => exact same
      | some (.append res) =>
          simp only [finishWrites, finish, onAppendEntries]
          by_cases hrole : s.role ≠ .leader
          · simpa [hrole] using same
          by_cases hsuccess : res.success = true
          · simpa [hrole, hsuccess] using
              Votes.of_standing
                (onAppendSuccess_frame (s := s) .standing rfl id res.matchIndex quick)
          · have hwrites : ¬ (s.role ≠ .leader ∨ res.success = true) := not_or.mpr ⟨hrole, hsuccess⟩
            rw [if_neg hwrites, if_neg hrole, if_neg hsuccess]
            unfold answerWrites
            split
            · exact votes_stepDown ‹_› id
            · exact .of_standing (onAppendInconsistent_frame .standing rfl id _)
      | some (.data res) => exact same
  | dataTransfer req =>
      match res with
      | none =>
          simp only [finishWrites, finish, onDataTransfer]
          split
          · exact .of_standing (doDataTransfer_frame .standing rfl id)
          · exact same
      | some (.vote res) => exact same
      | some (.append res) => exact same
      | some (.data res) =>
          have moved : Votes s [] { s with sender := s.sender.advance } := .of_eq rfl rfl
          simp only [finishWrites, finish, onDataTransfer]
          split
          · exact (Votes.of_standing (onDataSuccess_frame .standing rfl id)).after moved
          · exact (votes_answer res.term id).after moved
  | doneTransfer req =>
      match res with
      | none =>
          simp only [finishWrites, finish, onDoneTransfer]
          split
          · exact .of_standing (doDoneTransfer_frame .standing rfl id)
          · exact same
      | some (.vote res) => exact same
      | some (.append res) => exact same
      | some (.data res) =>
          simp only [finishWrites, finish, onDoneTransfer]
          split
          · exact .of_standing ((appendEntriesTo_frame .standing id).trans rfl)
          · exact votes_answer res.term id

end Raft

end Draft
