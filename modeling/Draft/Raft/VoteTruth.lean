import Draft.Raft.VoteCrash

/-!
# The vote that is on file

The name in the vote file is that of a candidate the server voted for in the
term on file, as long as no callback raises the term of a server that has
voted: the callbacks step down without clearing the vote.
-/

namespace Draft

open Consensus Raft

/-! ## Raising the term -/

/-- Some write raises the term with neither a cleared vote before nor a new vote after it. -/
def raisesAlone : List VoteWrite → Bool
  | .clear :: .term _ :: ws => raisesAlone ws
  | .term _ :: .vote _ :: ws => raisesAlone ws
  | .term _ :: _ => true
  | _ :: ws => raisesAlone ws
  | [] => false

namespace Voter

def Truthful (v : Voter) : Prop :=
  v.file.votedFor ≠ [] → (v.file.currTerm, v.file.votedFor) ∈ v.ballots

variable {v u : Voter} {ws : List VoteWrite}

theorem Change.truthful (hchange : v.Change ws u) (rest : List VoteWrite)
    (hrest : ∀ id, rest.head? ≠ some (.vote id)) :
    (∀ id, (ws ++ rest).head? ≠ some (.vote id)) ∧
      (raisesAlone (ws ++ rest) = false →
        raisesAlone rest = false ∧ (v.Truthful → u.Truthful)) := by
  cases hchange with
  | raise term hterm =>
      refine ⟨by simp, fun halone => ?_⟩
      cases rest with
      | nil => simp [raisesAlone] at halone
      | cons first _ =>
          cases first with
          | vote id => simp at hrest
          | clear => simp [raisesAlone] at halone
          | term _ => simp [raisesAlone] at halone
  | accept term hterm =>
      refine ⟨by simp, fun halone => ⟨by simpa [raisesAlone] using halone, fun _ hne => ?_⟩⟩
      exact absurd rfl hne
  | elect =>
      refine ⟨by simp, fun halone => ⟨by simpa [raisesAlone] using halone, fun _ _ => ?_⟩⟩
      simp
  | grant candidate hfree hne =>
      refine ⟨by simp, fun halone => ⟨by simpa [raisesAlone] using halone, fun _ _ => ?_⟩⟩
      simp
  | again hne =>
      refine ⟨by simpa using hrest, fun halone => ⟨by simpa using halone, fun _ _ => ?_⟩⟩
      simp

theorem Changes.truthful (hchanges : v.Changes ws u) (rest : List VoteWrite)
    (hrest : ∀ id, rest.head? ≠ some (.vote id)) (halone : raisesAlone (ws ++ rest) = false) :
    raisesAlone rest = false ∧ (v.Truthful → u.Truthful) := by
  induction hchanges generalizing rest with
  | refl => exact ⟨halone, fun h => h⟩
  | tail _ hchange ih =>
      rw [List.append_assoc] at halone
      obtain ⟨hhead, hlast⟩ := hchange.truthful rest hrest
      obtain ⟨halone, hfirst⟩ := ih _ hhead halone
      obtain ⟨halone, hsecond⟩ := hlast halone
      exact ⟨halone, fun h => hsecond (hfirst h)⟩

end Voter

/-! ## Which events raise it alone -/

namespace Raft

variable {s : Raft}

def learns (s : Raft) : Request → Response → Bool
  | .requestVote _, .vote res =>
      s.role = .candidate && !res.voteGranted && decide (s.currTerm < res.term)
  | .appendEntries _, .append res =>
      s.role = .leader && !res.success && decide (s.currTerm < res.term)
  | .dataTransfer _, .data res => !res.success && decide (s.currTerm < res.term)
  | .doneTransfer _, .data res => !res.success && decide (s.currTerm < res.term)
  | _, _ => false

private theorem preVoteWrites_raises : raisesAlone s.preVoteWrites = false := by
  unfold preVoteWrites
  split <;> rfl

private theorem onPreVoteWrites_raises (res : Option VoteRes) :
    raisesAlone (s.onPreVoteWrites res) = false := by
  unfold onPreVoteWrites checkoutWrites
  repeat' split
  all_goals rfl

private theorem requestWrites_raises (term : Nat) : raisesAlone (s.requestWrites term) = false := by
  unfold requestWrites
  split <;> rfl

private theorem serveWrites_raises (req : Request) : raisesAlone (s.serveWrites req) = false := by
  cases req with
  | timeoutNow req => exact preVoteWrites_raises
  | preVote req => rfl
  | requestVote req =>
      simp only [serveWrites, handleRequestVoteWrites, requestWrites, acceptTermWrites,
        stepDownWrites]
      repeat' split
      all_goals rfl
  | appendEntries req => exact requestWrites_raises req.term
  | dataTransfer req => exact requestWrites_raises req.term
  | doneTransfer req => exact requestWrites_raises req.term

private theorem finishWrites_none (req : Request) : raisesAlone (s.finishWrites req none) = false := by
  cases req with
  | preVote req => exact onPreVoteWrites_raises none
  | _ => rfl

private theorem answerWrites_raises (p : Prop) [Decidable p] (term : Nat) :
    raisesAlone (if p then [] else s.answerWrites term) = false ∨
      ¬ p ∧ s.currTerm < term ∧ (if p then [] else s.answerWrites term) = [.term term] := by
  unfold answerWrites
  split
  · exact .inl rfl
  · rename_i hp
    split
    · exact .inr ⟨hp, ‹_›, rfl⟩
    · exact .inl rfl

private theorem finishWrites_some (req : Request) (res : Response) :
    raisesAlone (s.finishWrites req (some res)) = false ∨
      s.learns req res = true ∧ ∃ term, s.finishWrites req (some res) = [.term term] := by
  cases req with
  | timeoutNow req => cases res <;> exact .inl rfl
  | preVote req =>
      cases res with
      | vote res => exact .inl (onPreVoteWrites_raises _)
      | _ => exact .inl rfl
  | requestVote req =>
      cases res with
      | vote res =>
          refine (answerWrites_raises (s.role ≠ .candidate ∨ res.voteGranted = true)
            res.term).imp_right fun ⟨hnot, hlt, hwrites⟩ => ⟨?_, _, hwrites⟩
          simpa [learns, hlt] using hnot
      | _ => exact .inl rfl
  | appendEntries req =>
      cases res with
      | append res =>
          refine (answerWrites_raises (s.role ≠ .leader ∨ res.success = true)
            res.term).imp_right fun ⟨hnot, hlt, hwrites⟩ => ⟨?_, _, hwrites⟩
          simpa [learns, hlt] using hnot
      | _ => exact .inl rfl
  | dataTransfer req =>
      cases res with
      | data res =>
          refine (answerWrites_raises (res.success = true) res.term).imp_right
            fun ⟨hnot, hlt, hwrites⟩ => ⟨?_, _, hwrites⟩
          simpa [learns, hlt] using hnot
      | _ => exact .inl rfl
  | doneTransfer req =>
      cases res with
      | data res =>
          refine (answerWrites_raises (res.success = true) res.term).imp_right
            fun ⟨hnot, hlt, hwrites⟩ => ⟨?_, _, hwrites⟩
          simpa [learns, hlt] using hnot
      | _ => exact .inl rfl

def RefusedForVote (s : Raft) (req : VoteReq) : Prop :=
  (s.heedCandidate req.term).currTerm ≤ req.term ∧ (s.heedCandidate req.term).votedFor ≠ [] ∧
    req.candidateId ≠ (s.heedCandidate req.term).votedFor

theorem RefusedForVote.cast {req : VoteReq} (h : s.RefusedForVote req) (htruth : s.voter.Truthful) :
    ∃ c, c ≠ req.candidateId ∧ (req.term, c) ∈ s.ballots := by
  obtain ⟨hterm, hvoted, hne⟩ := h
  unfold heedCandidate at hterm hvoted hne
  split at hterm
  · rename_i hlt
    have hcleared := congrArg Election.votedFor
      (stepDown_election { s with votedFor := [] } req.term [])
    rw [if_pos hlt] at hvoted
    exact absurd hcleared hvoted
  · rename_i hge
    rw [if_neg hge] at hvoted hne
    have hmem := htruth hvoted
    exact ⟨s.votedFor, Ne.symm hne, by rwa [show req.term = s.currTerm by omega]⟩

end Raft

/-! ## Runs -/

namespace World

variable {w w' : World}

/-- No callback raises the term of a server that has voted. -/
def KeepsVoteTrue (w : World) : Event → Prop
  | .succeed i _ => ∀ c ∈ w.calls[i]?, ∀ res ∈ c.response,
      (w.servers c.src).learns c.request res = true → (w.servers c.src).votedFor = []
  | _ => True

instance (w : World) : (e : Event) → Decidable (w.KeepsVoteTrue e)
  | .succeed .. => by unfold KeepsVoteTrue; infer_instance
  | .electionTimeout _ | .heartbeatTimeout _ | .leadershipTransferTimeout _ | .append ..
  | .transferLeadership .. | .addServer .. | .delServer .. | .popCommitted _ | .applyNext _
  | .compact _ | .writeFiles .. | .handle .. | .fail .. => isTrue trivial

private theorem voteWrites_raises (e : Event) :
    raisesAlone (w.voteWrites e) = false ∨ ∃ i quick c res, e = .succeed i quick ∧
      w.calls[i]? = some c ∧ c.response = some res ∧
      (w.servers c.src).learns c.request res = true ∧ ∃ term, w.voteWrites e = [.term term] := by
  cases e with
  | electionTimeout id => exact .inl preVoteWrites_raises
  | handle i recent =>
      cases hc : w.calls[i]? with
      | none => exact .inl (by simp only [voteWrites, hc]; rfl)
      | some c =>
          simp only [voteWrites, hc]
          exact .inl (serveWrites_raises c.request)
  | succeed i quick =>
      cases hc : w.calls[i]? with
      | none => exact .inl (by simp only [voteWrites, hc]; rfl)
      | some c =>
          simp only [voteWrites, hc]
          cases hres : c.response with
          | none => exact .inl (finishWrites_none c.request)
          | some res =>
              rcases finishWrites_some (s := w.servers c.src) c.request res with
                hraises | ⟨hlearns, hwrites⟩
              · exact .inl hraises
              · exact .inr ⟨i, quick, c, res, rfl, hc, hres, hlearns, hwrites⟩
  | fail i quick =>
      cases hc : w.calls[i]? with
      | none => exact .inl (by simp only [voteWrites, hc]; rfl)
      | some c =>
          simp only [voteWrites, hc]
          exact .inl (finishWrites_none c.request)
  | _ => exact .inl rfl

structure VotesTrue (w : World) : Prop extends w.OneVote where
  truthful : ∀ id ∈ w.ids, (w.servers id).voter.Truthful

private theorem votesTrue_step {e : Event} (h : w.VotesTrue) (hkeeps : w.KeepsVoteTrue e)
    (hstep : w.step e = some w') : w'.VotesTrue := by
  have hone := oneVote_step h.toOneVote hstep
  obtain ⟨id, t, hvote⟩ := voteStep h.toOneVote hstep
  have hchanges := hvote.votes.changes
  have htruth := h.truthful id hvote.mem
  have hnew : t.voter.Truthful := by
    rcases voteWrites_raises e with hraises | ⟨i, quick, c, res, rfl, hc, hres, hlearns, term, hws⟩
    · have hnil := hchanges.truthful [] (by simp) (by simpa using hraises)
      exact hnil.2 htruth
    · -- there was no vote on file, and there is none now
      have hsrc : c.src = id := by
        have := hvote.actor
        simpa [actor, hc] using this
      have hblank : (w.servers id).votedFor = [] :=
        hsrc ▸ hkeeps c hc res hres hlearns
      intro hvoted
      have hfile := hchanges.file
      rw [hws] at hfile
      rw [hfile] at hvoted
      exact absurd hblank hvoted
  have hvoter := hvote.voter
  obtain ⟨calls, rfl, -⟩ := hvote.step
  refine ⟨hone, fun j hj => ?_⟩
  by_cases hjid : j = id
  · subst hjid
    rw [hvoter]
    exact hnew
  · rw [act_of_ne _ _ hjid]
    exact h.truthful j hj

/--
From a start without votes, along a run in which no callback raises the term of
a server that has voted, the vote on file was given in the term on file, and a
candidate is refused for a vote only if one was given in the term it asks for.
-/
theorem voted_for_true {es : List Event} (hstart : w.Unvoted)
    (hblank : ∀ id ∈ w.ids, (w.servers id).votedFor = [])
    (halong : Along step KeepsVoteTrue w es) (hrun : run step w es = some w') :
    ∀ id ∈ w'.ids,
      ((w'.servers id).votedFor ≠ [] →
        ((w'.servers id).currTerm, (w'.servers id).votedFor) ∈ (w'.servers id).ballots) ∧
      ∀ req, (w'.servers id).RefusedForVote req →
        ∃ c, c ≠ req.candidateId ∧ (req.term, c) ∈ (w'.servers id).ballots := by
  have hinit : w.VotesTrue :=
    ⟨hstart.oneVote, fun id hid hvoted => absurd (hblank id hid) hvoted⟩
  have h : w'.VotesTrue := run_invariant (P := VotesTrue)
    (fun _ _ _ hkeeps h hstep => votesTrue_step h hkeeps hstep) halong hinit hrun
  exact fun id hid => ⟨h.truthful id hid, fun req hrefused => hrefused.cast (h.truthful id hid)⟩

theorem voted_for_true_elected :
    ∃ w', run step (cluster ["a:1", "b:1", "c:1"] true)
        [.electionTimeout (ascii "a:1"), .handle 0 false, .succeed 0 false, .handle 3 false,
          .succeed 3 false] = some w' ∧
      (w'.servers (ascii "c:1")).votedFor = ascii "a:1" ∧
      ((w'.servers (ascii "c:1")).currTerm, (w'.servers (ascii "c:1")).votedFor) ∈
        (w'.servers (ascii "c:1")).ballots := by
  refine ⟨_, (Option.some_get (by decide)).symm, by decide, ?_⟩
  exact (voted_for_true (w := cluster ["a:1", "b:1", "c:1"] true) (by decide) (by decide)
    (by decide) (Option.some_get (by decide)).symm (ascii "c:1") (by decide)).1 (by decide)

/--
Candidate `a` of term 2 learns of term 3 from `b`.  Its vote for itself is then on
file for term 3, and `b` is refused.
-/
theorem stale_vote_refuses :
    ∃ (es : List Event) (w : World), run step (cluster ["a:1", "b:1", "c:1"] true) es = some w ∧
      ((w.servers (ascii "a:1")).votedFor ≠ [] ∧
        ((w.servers (ascii "a:1")).currTerm, (w.servers (ascii "a:1")).votedFor) ∉
          (w.servers (ascii "a:1")).ballots) ∧
      ∃ c ∈ w.calls, c.src = ascii "b:1" ∧ c.dst = ascii "a:1" ∧
        c.response = some (.vote ⟨3, false⟩) :=
  ⟨[.electionTimeout (ascii "a:1"), .handle 0 false, .succeed 0 false,
      .electionTimeout (ascii "b:1"), .handle 5 false, .succeed 5 false,
      .electionTimeout (ascii "b:1"), .handle 9 false, .succeed 9 false, .handle 2 false,
      .succeed 2 false, .handle 10 false],
    _, (Option.some_get (by decide)).symm, by decide, by decide⟩

end World

end Draft
