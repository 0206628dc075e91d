import Draft.Raft.CatchingUp
import Draft.Raft.OwnEntries

/-!
# Answers to reconfigurations

The commit rule answers a reconfiguration with OK when the newest configuration
entry of the log is committed, whichever reconfiguration that entry is of.  The
entry of the reconfiguration itself is noted beside the run.
-/

namespace Draft

open Consensus Raft

def Request.replicates : Request → Bool
  | .appendEntries _ | .dataTransfer _ => true
  | _ => false

namespace Raft

variable {s t u v : Raft}

/-! ## Where the commit rule runs -/

def appendEntriesAdjusts (s : Raft) : List Raft :=
  let s := { s with heartbeatTimer := true }
  if s.role ≠ .leader then []
  else
    let s := s.invokeAll (s.others.filter (!·.transferDataTo)) fun n =>
      .appendEntries (s.appendEntriesReq n)
    if s.cluster.length = 1 ∧ s.contains s.selfId then [s] else []

def stepUpAdjusts (s : Raft) : List Raft := s.becomeLeader.appendEntriesAdjusts

def leaderElectionAdjusts (s : Raft) : List Raft :=
  let s := s.becomeCandidate
  if s.cluster.length = 1 ∧ s.votes ≠ 0 then s.stepUpAdjusts else []

def preVoteAdjusts (s : Raft) : List Raft :=
  if s.cluster.length = 1 ∧ s.contains s.selfId then s.leaderElectionAdjusts else []

def checkoutAdjusts (s : Raft) : List Raft :=
  if s.cluster.length / 2 < s.preVotesGranted then s.leaderElectionAdjusts else []

def onPreVoteAdjusts (s : Raft) (res : Option VoteRes) : List Raft :=
  if s.role ≠ .follower then []
  else if res.any (·.voteGranted) then
    { s with preVotesGranted := s.preVotesGranted + 1 }.checkoutAdjusts
  else { s with preVotesRefused := s.preVotesRefused + 1 }.checkoutAdjusts

def countVoteAdjusts (s : Raft) : List Raft :=
  let s := { s with votes := s.votes + 1 }
  if s.cluster.length / 2 < s.votes then s.stepUpAdjusts else []

def onRequestVoteAdjusts (s : Raft) (res : Option VoteRes) : List Raft :=
  match res with
  | none => []
  | some res =>
      if s.role ≠ .candidate then []
      else if res.voteGranted then
        if res.term < s.currTerm then [] else s.countVoteAdjusts
      else []

def handleCatchUpAdjusts (s : Raft) (quick : Bool) : List Raft :=
  match s.recfg with
  | none => []
  | some r =>
      if s.roundsLeft r.rounds then []
      else if quick && s.caughtUp r.n then (s.deployReconfiguration r).appendEntriesAdjusts
      else []

def onAppendSuccessAdjusts (s : Raft) (id : Bytes) (matchIndex : Nat) (quick : Bool) : List Raft :=
  let s := s.recordMatch id matchIndex
  let t := s.adjustCommitIndex
  s ::
    if t.faulted then []
    else
      let t := if t.transferringLeaderTo id then t.handleTransferLeaderTo id else t
      if t.newly id then t.handleCatchUpAdjusts quick else []

def onAppendEntriesAdjusts (s : Raft) (id : Bytes) (res : Option AppendEntriesRes)
    (quick : Bool) : List Raft :=
  match res with
  | none => if s.newly id then s.handleCatchUpAdjusts quick else []
  | some res =>
      if s.role ≠ .leader then []
      else if res.success then s.onAppendSuccessAdjusts id res.matchIndex quick
      else []

def finishAdjusts (s : Raft) (id : Bytes) (quick : Bool) : Request → Option Response → List Raft
  | .preVote _, some (.vote res) => s.onPreVoteAdjusts (some res)
  | .preVote _, none => s.onPreVoteAdjusts none
  | .requestVote _, some (.vote res) => s.onRequestVoteAdjusts (some res)
  | .appendEntries _, some (.append res) => s.onAppendEntriesAdjusts id (some res) quick
  | .appendEntries _, none => s.onAppendEntriesAdjusts id none quick
  | _, _ => []

def serveAdjusts (s : Raft) : Request → List Raft
  | .timeoutNow _ => { s with electionTimer := false }.preVoteAdjusts
  | _ => []

def delServerAdjusts (s : Raft) (name : Bytes) : List Raft :=
  let address := s.makeId name
  if s.role ≠ .leader then []
  else
    match s.cluster.find? (·.1 = address) with
    | none => []
    | some (_, n) =>
        if s.recfg.isSome then []
        else if s.cluster.length = 1 then []
        else
          let s :=
            { s with cluster := s.cluster.filter (·.1 ≠ address) }.appendConfiguration
          if address = s.selfId then []
          else (s.makeConfig n .serverRemoval).appendEntriesAdjusts

/-- Only the commit rule moves the commit index, in the listed states one after the other. -/
def CommitsThrough : Nat → List Raft → Nat → Prop
  | commit, [], commit' => commit' = commit
  | commit, u :: us, commit' =>
      u.commitIndex = commit ∧ CommitsThrough u.adjustCommitIndex.commitIndex us commit'

private theorem commits_of_books (h : t.books = s.books) :
    CommitsThrough s.commitIndex [] t.commitIndex := commitIndex_of_books h

private theorem commits_stepDown (s : Raft) (term : Nat) (leader : Bytes) :
    CommitsThrough s.commitIndex [] (s.stepDown term leader).commitIndex :=
  congrArg Replica.commitIndex (stepDown_replica s term leader)

private theorem commits_appendEntries {commit : Nat} (h : s.commitIndex = commit) :
    CommitsThrough commit s.appendEntriesAdjusts s.appendEntries.commitIndex := by
  subst h
  unfold appendEntriesAdjusts appendEntries
  dsimp only
  split
  · rfl
  split
  · exact ⟨rfl, rfl⟩
  · rfl

private theorem commits_leaderElection :
    CommitsThrough s.commitIndex s.leaderElectionAdjusts s.leaderElection.commitIndex := by
  unfold leaderElectionAdjusts leaderElection
  dsimp only
  split
  · exact commits_appendEntries rfl
  · rfl

private theorem commits_preVote (early : Bool) :
    CommitsThrough s.commitIndex s.preVoteAdjusts (s.preVote early).commitIndex := by
  unfold preVoteAdjusts preVote
  split
  · exact commits_leaderElection
  · rfl

private theorem commits_onPreVote (res : Option VoteRes) :
    CommitsThrough s.commitIndex (s.onPreVoteAdjusts res) (s.onPreVote res).commitIndex := by
  have counted : ∀ u : Raft, CommitsThrough u.commitIndex u.checkoutAdjusts
      u.checkout.commitIndex := by
    intro u
    unfold checkoutAdjusts checkout
    split
    · exact commits_leaderElection
    split <;> rfl
  unfold onPreVoteAdjusts onPreVote
  split
  · rfl
  split
  · exact counted { s with preVotesGranted := s.preVotesGranted + 1 }
  · exact counted { s with preVotesRefused := s.preVotesRefused + 1 }

private theorem commits_countVote :
    CommitsThrough s.commitIndex s.countVoteAdjusts s.countVote.commitIndex := by
  unfold countVoteAdjusts countVote
  dsimp only
  split
  · exact commits_appendEntries rfl
  · rfl

private theorem commits_onRequestVote (res : Option VoteRes) :
    CommitsThrough s.commitIndex (s.onRequestVoteAdjusts res)
      (s.onRequestVote res).commitIndex := by
  unfold onRequestVoteAdjusts onRequestVote
  cases res with
  | none => rfl
  | some res =>
      dsimp only
      split
      · rfl
      split
      · split
        · rfl
        · exact commits_countVote
      split
      · exact commits_stepDown s _ _
      · rfl

private theorem commits_handleCatchUp (quick : Bool) :
    CommitsThrough s.commitIndex (s.handleCatchUpAdjusts quick)
      (s.handleCatchUpServerAppendEntries quick).commitIndex := by
  have deployed : ∀ r, (s.deployReconfiguration r).commitIndex = s.commitIndex := by
    intro r
    unfold deployReconfiguration
    dsimp only
    repeat' split
    all_goals rfl
  have round : ∀ r id, ({ s with recfg := some r }.appendEntriesTo id).commitIndex =
      s.commitIndex := fun r id =>
    commitIndex_of_books (s := { s with recfg := some r }) (appendEntriesTo_frame .books id)
  unfold handleCatchUpAdjusts handleCatchUpServerAppendEntries
  cases s.recfg with
  | none => rfl
  | some r =>
      dsimp only
      cases s.roundsLeft r.rounds with
      | true => exact round _ _
      | false =>
          cases quick && s.caughtUp r.n with
          | true => exact commits_appendEntries (deployed r)
          | false => rfl

private theorem commits_onAppendSuccess (id : Bytes) (matchIndex : Nat) (quick : Bool) :
    CommitsThrough s.commitIndex (s.onAppendSuccessAdjusts id matchIndex quick)
      (s.onAppendSuccess id matchIndex quick).commitIndex := by
  unfold onAppendSuccessAdjusts onAppendSuccess
  refine ⟨rfl, ?_⟩
  generalize (s.recordMatch id matchIndex).adjustCommitIndex = t
  dsimp only
  split
  · rfl
  have handed : (if t.transferringLeaderTo id then t.handleTransferLeaderTo id else t).commitIndex =
      t.commitIndex := by
    split
    · exact commitIndex_of_books (handleTransferLeaderTo_frame .books id)
    · rfl
  rw [← handed]
  generalize (if t.transferringLeaderTo id then t.handleTransferLeaderTo id else t) = u
  split
  · exact commits_handleCatchUp quick
  · rfl

private theorem commits_onAppendEntries (id : Bytes) (res : Option AppendEntriesRes) (quick : Bool) :
    CommitsThrough s.commitIndex (s.onAppendEntriesAdjusts id res quick)
      (s.onAppendEntries id res quick).commitIndex := by
  unfold onAppendEntriesAdjusts onAppendEntries
  cases res with
  | none =>
      dsimp only
      split
      · exact commits_handleCatchUp quick
      · rfl
  | some res =>
      dsimp only
      split
      · rfl
      split
      · exact commits_onAppendSuccess id _ quick
      split
      · exact commits_stepDown s _ id
      · exact commits_of_books (onAppendInconsistent_frame .books rfl id _)

private theorem commits_onDataTransfer (id : Bytes) (res : Option DataRes) :
    CommitsThrough s.commitIndex [] (s.onDataTransfer id res).commitIndex := by
  unfold onDataTransfer
  dsimp only
  repeat' split
  all_goals first
    | rfl
    | exact commits_of_books (doDataTransfer_frame .books rfl id)
    | exact commits_of_books (s := { s with sender := s.sender.advance })
        (onDataSuccess_frame .books rfl id)
    | exact commits_stepDown { s with sender := s.sender.advance } _ id

private theorem commits_onDoneTransfer (id : Bytes) (res : Option DataRes) :
    CommitsThrough s.commitIndex [] (s.onDoneTransfer id res).commitIndex := by
  unfold onDoneTransfer
  repeat' split
  all_goals first
    | rfl
    | exact commits_of_books (s := s.initTransfer.modifyNode id _) (appendEntriesTo_frame .books id)
    | exact commits_stepDown s _ id

private theorem commits_finish (s : Raft) (id : Bytes) (quick : Bool) (req : Request)
    (res : Option Response) :
    CommitsThrough s.commitIndex (s.finishAdjusts id quick req res)
      (s.finish id quick req res).commitIndex := by
  cases req with
  | timeoutNow req =>
      rcases res with _ | ⟨res | _ | _⟩
      · exact commits_of_books (onTimeoutNow_frame .books id none)
      · exact commits_of_books (onTimeoutNow_frame .books id (some res))
      all_goals rfl
  | preVote req =>
      rcases res with _ | ⟨res | _ | _⟩
      · exact commits_onPreVote none
      · exact commits_onPreVote (some res)
      all_goals rfl
  | requestVote req =>
      rcases res with _ | ⟨res | _ | _⟩
      · rfl
      · exact commits_onRequestVote (some res)
      all_goals rfl
  | appendEntries req =>
      rcases res with _ | ⟨_ | res | _⟩
      · exact commits_onAppendEntries id none quick
      · rfl
      · exact commits_onAppendEntries id (some res) quick
      · rfl
  | dataTransfer req =>
      rcases res with _ | ⟨_ | _ | res⟩
      · exact commits_onDataTransfer id none
      · rfl
      · rfl
      · exact commits_onDataTransfer id (some res)
  | doneTransfer req =>
      rcases res with _ | ⟨_ | _ | res⟩
      · exact commits_onDoneTransfer id none
      · rfl
      · rfl
      · exact commits_onDoneTransfer id (some res)

private theorem commits_serve (s : Raft) (recent : Bool) {req : Request} (h : req.replicates = false) :
    CommitsThrough s.commitIndex (s.serveAdjusts req) (s.serve recent req).1.commitIndex := by
  cases req with
  | timeoutNow req => exact commits_preVote (s := { s with electionTimer := false }) true
  | preVote req => rfl
  | requestVote req => exact congrArg Replica.commitIndex (handleRequestVote_replica s req)
  | doneTransfer req => exact congrArg Replica.commitIndex (handleDoneTransfer_replica s req)
  | _ => cases h

private theorem commits_delServer (name : Bytes) :
    CommitsThrough s.commitIndex (s.delServerAdjusts name) (s.delServer name).commitIndex := by
  unfold delServerAdjusts delServer
  dsimp only
  split
  · rfl
  cases s.cluster.find? (·.1 = s.makeId name) with
  | none => rfl
  | some p =>
      dsimp only
      split
      · rfl
      split
      · rfl
      split
      · have transferred : ∀ (v : Raft) (latest : Bytes),
            (v.leadershipTransfer latest).1.commitIndex = v.commitIndex :=
          fun v latest => commitIndex_of_books (leadershipTransfer_frame .books latest)
        split <;> exact transferred _ _
      · exact commits_appendEntries rfl

/-! ## What is pending -/

def pending (s : Raft) : Option Bool :=
  s.recfg.map fun r => r.entryAdded || r.type = .serverRemoval

private theorem busy_iff : s.busy = true ↔ s.pending = some true := by
  unfold busy pending
  cases s.recfg with
  | none => simp
  | some r => simp

private theorem pending_eq_plan (s : Raft) :
    s.pending = s.plan.map fun p => p.entryAdded || p.type = .serverRemoval := by
  rw [pending, plan, Option.map_map]
  rfl

structure Abides (s t : Raft) : Prop where
  log : t.log = s.log
  pending : t.pending = s.pending ∨ t.pending = none

namespace Abides

theorem refl (s : Raft) : Abides s s := ⟨rfl, .inl rfl⟩

theorem trans (h : Abides s t) (k : Abides t u) : Abides s u := by
  refine ⟨k.log.trans h.log, ?_⟩
  rcases k.pending with hsame | hnone
  · rw [hsame]
    exact h.pending
  · exact .inr hnone

theorem after (k : Abides t u) (h : Abides s t) : Abides s u := h.trans k

theorem of_eq (hlog : t.log = s.log) (hrecfg : t.recfg = s.recfg) : Abides s t :=
  ⟨hlog, .inl (by rw [Raft.pending, hrecfg, Raft.pending])⟩

private theorem carried (h : Carries s t) (hlog : t.log = s.log) : Abides s t := by
  refine ⟨hlog, ?_⟩
  rw [pending_eq_plan, pending_eq_plan]
  rcases h.plan with hsame | hnone
  · exact .inl (by rw [hsame])
  · exact .inr (by rw [hnone]; rfl)

end Abides

private theorem abides_recordMatch (id : Bytes) (matchIndex : Nat) :
    Abides s (s.recordMatch id matchIndex) := by
  refine ⟨rfl, .inl ?_⟩
  simp only [pending, recordMatch, modifyNode, Option.map_map]
  congr 1
  funext r
  by_cases h : r.n.id = id <;> simp [h]

private theorem abides_appendEntriesAdjusts (hu : u ∈ s.appendEntriesAdjusts) : Abides s u := by
  unfold appendEntriesAdjusts at hu
  dsimp only at hu
  split at hu
  · cases hu
  split at hu
  · rw [List.mem_singleton.mp hu]
    exact .of_eq rfl rfl
  · cases hu

private theorem abides_leaderElectionAdjusts (hu : u ∈ s.leaderElectionAdjusts) : Abides s u := by
  unfold leaderElectionAdjusts at hu
  dsimp only at hu
  split at hu
  · exact (abides_appendEntriesAdjusts hu).after (.of_eq rfl rfl)
  · cases hu

private theorem abides_preVoteAdjusts (hu : u ∈ s.preVoteAdjusts) : Abides s u := by
  unfold preVoteAdjusts at hu
  split at hu
  · exact abides_leaderElectionAdjusts hu
  · cases hu

private theorem abides_onPreVoteAdjusts {res : Option VoteRes} (hu : u ∈ s.onPreVoteAdjusts res) :
    Abides s u := by
  have counted : ∀ t : Raft, u ∈ t.checkoutAdjusts → Abides s t → Abides s u := by
    intro t hu ht
    unfold checkoutAdjusts at hu
    split at hu
    · exact ht.trans (abides_leaderElectionAdjusts hu)
    · cases hu
  unfold onPreVoteAdjusts at hu
  split at hu
  · cases hu
  split at hu
  · exact counted _ hu (.of_eq rfl rfl)
  · exact counted _ hu (.of_eq rfl rfl)

private theorem abides_onRequestVoteAdjusts {res : Option VoteRes} (hu : u ∈ s.onRequestVoteAdjusts res) :
    Abides s u := by
  unfold onRequestVoteAdjusts countVoteAdjusts at hu
  split at hu
  · cases hu
  split at hu
  · cases hu
  split at hu
  · split at hu
    · cases hu
    dsimp only at hu
    split at hu
    · exact (abides_appendEntriesAdjusts hu).after (.of_eq rfl rfl)
    · cases hu
  · cases hu

/-! ## The entry of a reconfiguration -/

/--
What is pending with its entry was so before, and what the log kept it keeps; or
it has just got its entry, the last one of the log.
-/
def Onward (s t : Raft) : Prop :=
  t.pending = some true →
    (s.pending = some true ∧ ∀ x, s.log.ChainedTo x → t.log.ChainedTo x) ∨
      (s.pending ≠ some true ∧ ∃ x, x.config = true ∧ x.index = s.log.lastEntryIndex + 1 ∧
        t.log = s.log.append [x])

private theorem Abides.onward (h : Abides s t) : Onward s t := by
  intro ht
  rcases h.pending with hsame | hnone
  · exact .inl ⟨hsame ▸ ht, fun x hx => h.log.symm ▸ hx⟩
  · rw [hnone] at ht
    cases ht

private theorem Onward.abides (h : Onward s t) (k : Abides t u) : Onward s u := by
  intro hu
  rcases k.pending with hsame | hnone
  · rw [k.log]
    exact h (hsame ▸ hu)
  · rw [hnone] at hu
    cases hu

theorem Abides.then (h : Abides s t) (k : Onward t u) (hadded : t.pending ≠ none) :
    Onward s u := by
  intro hu
  rcases h.pending with hsame | hnone
  · rw [← h.log, ← hsame]
    exact k hu
  · exact absurd hnone hadded

private theorem newly_pending {id : Bytes} (h : s.newly id = true) : s.pending ≠ none := by
  unfold newly at h
  unfold pending
  cases hr : s.recfg with
  | none => simp [hr] at h
  | some r => simp

private theorem onward_deployReconfiguration {r : Reconfiguration} (hr : s.recfg = some r)
    (htype : r.type = .serverAddition) : Onward s (s.deployReconfiguration r) := by
  unfold deployReconfiguration
  split
  · exact (Abides.refl s).onward
  · rename_i hadded
    intro _
    refine .inr ⟨?_, ?_⟩
    · simp [pending, hr, hadded, htype]
    · dsimp only
      split
      · exact ⟨_, rfl, rfl, rfl⟩
      · exact ⟨_, rfl, rfl, rfl⟩

private theorem onward_catchUp {id : Bytes} (h : s.newly id = true) (quick : Bool) :
    Onward s (s.handleCatchUpServerAppendEntries quick) := by
  unfold handleCatchUpServerAppendEntries
  split
  · exact (Abides.refl s).onward
  rename_i r hr
  obtain ⟨p, hp, -, htype⟩ := newly_iff.mp h
  have hrtype : r.type = .serverAddition := by
    rw [plan, hr] at hp
    rw [← htype, ← Option.some.inj hp]
    rfl
  split
  · have round : Abides s { s with recfg := some { r with rounds := r.rounds + 1 } } :=
      ⟨rfl, .inl (by simp [pending, hr])⟩
    refine (round.trans (.carried (carries_appendEntriesTo _) ?_)).onward
    exact log_of_books (appendEntriesTo_frame .books _)
  split
  · exact (onward_deployReconfiguration hr hrtype).abides
      (.carried carries_appendEntries (appendEntries_log _))
  · have ended : Abides s (s.completeReconfiguration (ascii "TIMEOUT")) := ⟨rfl, .inr rfl⟩
    exact ended.onward

private theorem onward_catchUpAdjusts {id : Bytes} (h : s.newly id = true) {quick : Bool}
    (hu : u ∈ s.handleCatchUpAdjusts quick) : Onward s u := by
  unfold handleCatchUpAdjusts at hu
  split at hu
  · cases hu
  rename_i r hr
  obtain ⟨p, hp, -, htype⟩ := newly_iff.mp h
  have hrtype : r.type = .serverAddition := by
    rw [plan, hr] at hp
    rw [← htype, ← Option.some.inj hp]
    rfl
  split at hu
  · cases hu
  split at hu
  · exact (onward_deployReconfiguration hr hrtype).abides (abides_appendEntriesAdjusts hu)
  · cases hu

private theorem onward_onAppendSuccess (id : Bytes) (matchIndex : Nat) (quick : Bool) :
    Onward s (s.onAppendSuccess id matchIndex quick) ∧
      ∀ u ∈ s.onAppendSuccessAdjusts id matchIndex quick, Onward s u := by
  have matched := abides_recordMatch (s := s) id matchIndex
  have adjusted : Abides s (s.recordMatch id matchIndex).adjustCommitIndex :=
    matched.trans (.carried carries_adjustCommitIndex (adjustCommitIndex_log _))
  have next : ∀ t : Raft, Abides s t →
      Onward s (if t.newly id then t.handleCatchUpServerAppendEntries quick else t) ∧
        ∀ u ∈ if t.newly id then t.handleCatchUpAdjusts quick else [], Onward s u := by
    intro t ht
    split
    · rename_i hnewly
      exact ⟨ht.then (onward_catchUp hnewly quick) (newly_pending hnewly),
        fun u hu => ht.then (onward_catchUpAdjusts hnewly hu) (newly_pending hnewly)⟩
    · exact ⟨ht.onward, fun u hu => by cases hu⟩
  have transferred : ∀ t : Raft, Abides s t →
      Abides s (if t.transferringLeaderTo id then t.handleTransferLeaderTo id else t) := by
    intro t ht
    split
    · exact ht.trans (.carried (carries_handleTransferLeaderTo id)
        (log_of_books (handleTransferLeaderTo_frame .books id)))
    · exact ht
  unfold onAppendSuccess onAppendSuccessAdjusts
  dsimp only
  constructor
  · split
    · exact adjusted.onward
    · exact (next _ (transferred _ adjusted)).1
  · intro u hu
    rcases List.mem_cons.mp hu with rfl | hu
    · exact matched.onward
    split at hu
    · cases hu
    · exact (next _ (transferred _ adjusted)).2 u hu

private theorem onward_onAppendEntries (id : Bytes) (res : Option AppendEntriesRes) (quick : Bool) :
    Onward s (s.onAppendEntries id res quick) ∧
      ∀ u ∈ s.onAppendEntriesAdjusts id res quick, Onward s u := by
  have none : Onward s s ∧ ∀ u ∈ ([] : List Raft), Onward s u :=
    ⟨(Abides.refl s).onward, fun u hu => by cases hu⟩
  unfold onAppendEntries onAppendEntriesAdjusts
  cases res with
  | none =>
      dsimp only
      split
      · rename_i hnewly
        exact ⟨onward_catchUp hnewly quick, fun u hu => onward_catchUpAdjusts hnewly hu⟩
      · exact none
  | some res =>
      dsimp only
      split
      · exact none
      split
      · exact onward_onAppendSuccess id res.matchIndex quick
      split
      · refine ⟨(Abides.carried (carries_stepDown _ _) (stepDown_log _ _ _)).onward, none.2⟩
      · refine ⟨(Abides.carried (carries_onAppendInconsistent _ _) ?_).onward, none.2⟩
        exact log_of_books (onAppendInconsistent_frame .books rfl id _)

private theorem onward_finish (s : Raft) (id : Bytes) (quick : Bool) (req : Request)
    (res : Option Response) :
    Onward s (s.finish id quick req res) ∧
      ∀ u ∈ s.finishAdjusts id quick req res, Onward s u := by
  have quiet : ∀ {t : Raft} {l : List Raft}, Abides s t → l = [] →
      Onward s t ∧ ∀ u ∈ l, Onward s u := by
    rintro t l ht rfl
    exact ⟨ht.onward, fun u hu => by cases hu⟩
  cases req with
  | timeoutNow req =>
      rcases res with _ | ⟨res | _ | _⟩
      · exact quiet (.carried (carries_onTimeoutNow id none)
          (log_of_books (onTimeoutNow_frame .books id none))) rfl
      · exact quiet (.carried (carries_onTimeoutNow id (some res))
          (log_of_books (onTimeoutNow_frame .books id (some res)))) rfl
      · exact quiet (.refl s) rfl
      · exact quiet (.refl s) rfl
  | preVote req =>
      have counted : ∀ v, Onward s (s.onPreVote v) ∧ ∀ u ∈ s.onPreVoteAdjusts v, Onward s u :=
        fun v => ⟨(Abides.carried (carries_onPreVote v) (onPreVote_log s v)).onward,
          fun u hu => (abides_onPreVoteAdjusts hu).onward⟩
      rcases res with _ | ⟨res | _ | _⟩
      · exact counted none
      · exact counted (some res)
      · exact quiet (.refl s) rfl
      · exact quiet (.refl s) rfl
  | requestVote req =>
      have counted : ∀ v, Onward s (s.onRequestVote v) ∧
          ∀ u ∈ s.onRequestVoteAdjusts v, Onward s u := fun v =>
        ⟨(Abides.carried (carries_onRequestVote v) (onRequestVote_log s v)).onward,
          fun u hu => (abides_onRequestVoteAdjusts hu).onward⟩
      rcases res with _ | ⟨res | _ | _⟩
      · exact quiet (.refl s) rfl
      · exact counted (some res)
      · exact quiet (.refl s) rfl
      · exact quiet (.refl s) rfl
  | appendEntries req =>
      rcases res with _ | ⟨_ | res | _⟩
      · exact onward_onAppendEntries id none quick
      · exact quiet (.refl s) rfl
      · exact onward_onAppendEntries id (some res) quick
      · exact quiet (.refl s) rfl
  | dataTransfer req =>
      have moved : ({ s with sender := s.sender.advance } : Raft).books = s.books := rfl
      have sent : ∀ v, (s.onDataTransfer id v).log = s.log := by
        intro v
        unfold onDataTransfer
        cases v with
        | none =>
            dsimp only
            split
            · exact log_of_books (doDataTransfer_frame .books rfl id)
            · rfl
        | some res =>
            dsimp only
            split
            · exact log_of_books ((onDataSuccess_frame .books rfl id).trans moved)
            split
            · exact stepDown_log _ _ _
            · rfl
      rcases res with _ | ⟨_ | _ | res⟩
      · exact quiet (.carried (carries_onDataTransfer id none) (sent none)) rfl
      · exact quiet (.refl s) rfl
      · exact quiet (.refl s) rfl
      · exact quiet (.carried (carries_onDataTransfer id (some res)) (sent (some res))) rfl
  | doneTransfer req =>
      have sent : ∀ v, (s.onDoneTransfer id v).log = s.log := by
        intro v
        unfold onDoneTransfer
        cases v with
        | none =>
            dsimp only
            split
            · exact log_of_books (doDoneTransfer_frame .books rfl id)
            · rfl
        | some res =>
            have node : (s.initTransfer.modifyNode id fun n =>
                { n with transferDataTo := false }).books = s.initTransfer.books :=
              modifyNode_frame .books id _
            dsimp only
            split
            · exact log_of_books ((appendEntriesTo_frame .books id).trans node)
            split
            · exact stepDown_log s _ _
            · rfl
      rcases res with _ | ⟨_ | _ | res⟩
      · exact quiet (.carried (carries_onDoneTransfer id none) (sent none)) rfl
      · exact quiet (.refl s) rfl
      · exact quiet (.refl s) rfl
      · exact quiet (.carried (carries_onDoneTransfer id (some res)) (sent (some res))) rfl

private theorem onward_appended (hrecfg : s.recfg = none) {cluster : List (Bytes × Node)}
    (hlog : u.log = ({ s with cluster := cluster } : Raft).appendConfiguration.log) :
    Onward s u :=
  fun _ => .inr ⟨by simp [pending, hrecfg], _, rfl, rfl, hlog⟩

private theorem onward_delServer (name : Bytes) : Onward s (s.delServer name) := by
  have refused : ∀ status, Onward s (s.refuse status) := fun status =>
    (Abides.of_eq rfl rfl).onward
  unfold delServer
  dsimp only
  split
  · exact refused _
  split
  · exact refused _
  split
  · exact refused _
  rename_i hbusy
  have hrecfg : s.recfg = none := by simpa using hbusy
  split
  · exact refused _
  split
  · have kept : ∀ (v : Raft) (latest : Bytes), (v.leadershipTransfer latest).1.log = v.log :=
      fun v latest => log_of_books (leadershipTransfer_frame .books latest)
    split
    · exact onward_appended hrecfg (kept _ _)
    · exact onward_appended hrecfg (kept _ _)
  · exact onward_appended hrecfg (appendEntries_log _)

private theorem onward_delServerAdjusts {name : Bytes} (hu : u ∈ s.delServerAdjusts name) :
    Onward s u := by
  unfold delServerAdjusts at hu
  dsimp only at hu
  split at hu
  · cases hu
  split at hu
  · cases hu
  split at hu
  · cases hu
  rename_i hbusy
  split at hu
  · cases hu
  split at hu
  · cases hu
  · exact onward_appended (by simpa using hbusy) (abides_appendEntriesAdjusts hu).log

private theorem onward_of_books (h : t.books = s.books) : Onward s t := by
  intro ht
  have hbusy : s.busy = true := busy_of_books h ▸ busy_iff.mpr ht
  exact .inl ⟨busy_iff.mp hbusy, fun x hx => (log_of_books h).symm ▸ hx⟩

/-! ## When the commit rule answers -/

def Completes (s : Raft) : Prop := s.recfg.isSome ∧ s.adjustCommitIndex.recfg = none

instance (s : Raft) : Decidable s.Completes := inferInstanceAs (Decidable (_ ∧ _))

private theorem commitReconfiguration_completes {oldCommit : Nat} (hsome : t.recfg.isSome)
    (hnone : (t.commitReconfiguration oldCommit).recfg = none) :
    oldCommit < t.log.cfgEntryIndex ∧
      t.log.cfgEntryIndex ≤ (t.commitReconfiguration oldCommit).commitIndex := by
  have hcommit := congrArg Replica.commitIndex (commitReconfiguration_replica t oldCommit)
  rw [hcommit]
  unfold commitReconfiguration at hnone
  dsimp only at hnone
  split at hnone
  · rename_i hcond
    exact ⟨hcond.1, hcond.2.1⟩
  · rw [hnone] at hsome
    cases hsome

private theorem Completes.bounds (h : s.Completes) : s.commitIndex % 2 ^ 32 < s.log.cfgEntryIndex ∧
    s.log.cfgEntryIndex ≤ s.adjustCommitIndex.commitIndex := by
  obtain ⟨hsome, hnone⟩ := h
  have alone : ∀ (t : Raft) (old : Nat), t.recfg = s.recfg → t.log = s.log →
      ((t.commitAlone old).commitReconfiguration old).recfg = none →
      old < s.log.cfgEntryIndex ∧ s.log.cfgEntryIndex ≤
        ((t.commitAlone old).commitReconfiguration old).commitIndex := by
    intro t old hrecfg hlog hnone
    have hkept : (t.commitAlone old).recfg = s.recfg ∧ (t.commitAlone old).log = s.log := by
      unfold commitAlone
      repeat' split
      all_goals exact ⟨hrecfg, hlog⟩
    have hbounds := commitReconfiguration_completes (hkept.1.symm ▸ hsome) hnone
    rwa [hkept.2] at hbounds
  unfold adjustCommitIndex at hnone ⊢
  split at hnone
  · rw [hnone] at hsome
    cases hsome
  rename_i hread
  rw [if_neg hread]
  refine alone _ _ ?_ ?_ hnone
  · split <;> rfl
  · split <;> rfl

def own (s t : Raft) (x : Option LogEntry) : Option LogEntry :=
  if t.pending = some true then
    if s.pending = some true then x else t.log.entries.getLast?
  else none

theorem Onward.own (h : Onward s t) (hcons : s.log.Consecutive) {x : Option LogEntry}
    (hx : s.pending = some true → ∃ e ∈ x, s.log.ChainedTo e) (ht : t.pending = some true) :
    ∃ e ∈ s.own t x, t.log.ChainedTo e := by
  unfold Raft.own
  rw [if_pos ht]
  rcases h ht with ⟨hs, hkeeps⟩ | ⟨hs, e, hconfig, hindex, hlog⟩
  · rw [if_pos hs]
    obtain ⟨e, he, hkept⟩ := hx hs
    exact ⟨e, he, hkeeps e hkept⟩
  · rw [if_neg hs, hlog]
    exact ⟨e, by simp [EntryLogger.append], .last hcons hconfig hindex⟩

private theorem pending_of_plan (h : t.plan = s.plan ∨ t.plan = none) :
    t.pending = s.pending ∨ t.pending = none := by
  rw [pending_eq_plan, pending_eq_plan]
  rcases h with hsame | hnone
  · exact .inl (by rw [hsame])
  · exact .inr (by rw [hnone]; rfl)

private theorem abides_serveAdjusts {req : Request} (hu : u ∈ s.serveAdjusts req) : Abides s u := by
  unfold serveAdjusts at hu
  split at hu
  · exact (abides_preVoteAdjusts hu).after (.of_eq rfl rfl)
  · cases hu

end Raft

/-! ## Runs -/

/-- The event may remove entries from the log of the server that takes it. -/
def Event.removes : Event → Bool
  | .handle .. | .compact _ => true
  | _ => false

namespace World

variable {w w' : World}

/-- The states of an event in which the commit rule runs. -/
def adjusts (w : World) : Event → Raft → List Raft
  | .electionTimeout _, s => { s with electionTimer := false }.preVoteAdjusts
  | .heartbeatTimeout _, s => { s with heartbeatTimer := false }.appendEntriesAdjusts
  | .delServer _ address, s => s.delServerAdjusts address
  | .handle i _, s =>
      match w.calls[i]? with
      | none => []
      | some c => s.serveAdjusts c.request
  | .succeed i quick, s =>
      match w.calls[i]? with
      | none => []
      | some c => s.finishAdjusts c.dst quick c.request c.response
  | .fail i quick, s =>
      match w.calls[i]? with
      | none => []
      | some c => s.finishAdjusts c.dst quick c.request none
  | _, _ => []

/-- The listed states are those in which the functions of the event run the commit rule. -/
theorem adjusts_commit {e : Event} (s : Raft)
    (h : ∀ i recent, e = .handle i recent → ∀ c ∈ w.calls[i]?, c.request.replicates = false) :
    CommitsThrough s.commitIndex (w.adjusts e s) (w.reaction e s).commitIndex := by
  cases e with
  | electionTimeout id => exact commits_preVote (s := { s with electionTimer := false }) false
  | heartbeatTimeout id => exact commits_appendEntries rfl
  | leadershipTransferTimeout id =>
      simp only [reaction, adjusts]
      split
      · rfl
      · unfold onLeadershipTransferTimeout
        dsimp only
        repeat' split
        all_goals rfl
  | append id data =>
      simp only [reaction, adjusts, Raft.append]
      split <;> rfl
  | transferLeadership id address =>
      exact commits_of_books (leadershipTransfer_frame .books address)
  | addServer id address => exact commits_of_books (addServer_frame .books rfl address)
  | delServer id address => exact commits_delServer address
  | popCommitted id => exact commits_of_books (popCommitted_frame .books)
  | applyNext id => exact commits_of_books (applyNext_frame .books rfl)
  | compact id =>
      simp only [reaction, adjusts, Raft.compact]
      split <;> rfl
  | writeFiles id files => rfl
  | handle i recent =>
      simp only [reaction, adjusts]
      cases hc : w.calls[i]? with
      | none => rfl
      | some c => exact commits_serve s recent (h i recent rfl c hc)
  | succeed i quick =>
      simp only [reaction, adjusts]
      cases w.calls[i]? with
      | none => rfl
      | some c => exact commits_finish s _ quick _ _
  | fail i quick =>
      simp only [reaction, adjusts]
      cases w.calls[i]? with
      | none => rfl
      | some c => exact commits_finish s _ quick _ _

private theorem adjusts_onward {e : Event} {s u : Raft} (hu : u ∈ w.adjusts e s) : Onward s u := by
  cases e with
  | electionTimeout id =>
      exact ((abides_preVoteAdjusts hu).after (.of_eq rfl rfl)).onward
  | heartbeatTimeout id =>
      exact ((abides_appendEntriesAdjusts hu).after (.of_eq rfl rfl)).onward
  | delServer id address => exact onward_delServerAdjusts hu
  | handle i recent =>
      simp only [adjusts] at hu
      split at hu
      · cases hu
      · exact (abides_serveAdjusts hu).onward
  | succeed i quick =>
      simp only [adjusts] at hu
      split at hu
      · cases hu
      · exact (onward_finish s _ quick _ _).2 u hu
  | fail i quick =>
      simp only [adjusts] at hu
      split at hu
      · cases hu
      · exact (onward_finish s _ quick _ _).2 u hu
  | _ => cases hu

private theorem reaction_onward {e : Event} (h : e.removes = false) (s : Raft) :
    Onward s (w.reaction e s) := by
  cases e with
  | electionTimeout id =>
      have timer : Abides s { s with electionTimer := false } := .of_eq rfl rfl
      exact (timer.trans (.carried (carries_preVote false) (preVote_log _ false))).onward
  | heartbeatTimeout id =>
      have timer : Abides s { s with heartbeatTimer := false } := .of_eq rfl rfl
      exact (timer.trans (.carried carries_appendEntries (appendEntries_log _))).onward
  | leadershipTransferTimeout id =>
      simp only [reaction]
      split
      · exact (Abides.refl s).onward
      · refine (Abides.carried (carries_onLeadershipTransferTimeout _) ?_).onward
        unfold onLeadershipTransferTimeout
        dsimp only
        repeat' split
        all_goals rfl
  | append id data =>
      have same : (s.append data).pending = s.pending := by
        unfold Raft.append
        split <;> rfl
      intro ht
      refine .inl ⟨same ▸ ht, fun x hx => ?_⟩
      change (s.append data).log.ChainedTo x
      unfold Raft.append
      split
      · exact hx
      · exact hx.append_plain rfl
  | transferLeadership id address => exact onward_of_books (leadershipTransfer_frame .books address)
  | addServer id address => exact onward_of_books (addServer_frame .books rfl address)
  | delServer id address => exact onward_delServer address
  | popCommitted id => exact onward_of_books (popCommitted_frame .books)
  | applyNext id => exact onward_of_books (applyNext_frame .books rfl)
  | compact id => cases h
  | writeFiles id files => exact onward_of_books (s := s) rfl
  | handle i recent => cases h
  | succeed i quick =>
      simp only [reaction]
      split
      · exact (Abides.refl s).onward
      · exact (onward_finish s _ quick _ _).1
  | fail i quick =>
      simp only [reaction]
      split
      · exact (Abides.refl s).onward
      · exact (onward_finish s _ quick _ _).1

private theorem removes_pending {e : Event} (h : e.removes = true) {s : Raft}
    (ht : (w.reaction e s).pending = some true) : s.pending = some true := by
  have hplan : (w.reaction e s).plan = s.plan ∨ (w.reaction e s).plan = none := by
    cases e with
    | compact id => exact carries_compact.plan
    | handle i recent =>
        simp only [reaction]
        split
        · exact .inl rfl
        · exact serve_plan recent _
    | _ => cases h
  rcases pending_of_plan hplan with hsame | hnone
  · exact hsame ▸ ht
  · rw [hnone] at ht
    cases ht

/-- The entry of the pending reconfiguration of each server, kept up over the steps of a run. -/
def noteOwn (w : World) (_ : Event) (w' : World) (a : Bytes → Option LogEntry) :
    Bytes → Option LogEntry :=
  fun id => (w.servers id).own (w'.servers id) (a id)

structure Owned (p : World × (Bytes → Option LogEntry)) : Prop where
  logs : p.1.Upheld logsInOrder
  chained : ∀ id ∈ p.1.ids, (p.1.servers id).pending = some true →
    ∃ x ∈ p.2 id, (p.1.servers id).log.ChainedTo x

/--
Where the commit rule runs for an addition without an entry, every configuration
entry is committed already, as the old commit index is held in 32 bits; requests
name below a base only what is held there; and what a server handles while a
reconfiguration of its own is pending leaves the entry of it alone.
-/
def OwnFirst (p : World × (Bytes → Option LogEntry)) (e : Event) : Prop :=
  p.1.NamesHeld e ∧
    ∀ id ∈ p.1.actor e,
      (∀ u ∈ p.1.adjusts e (p.1.servers id), u.pending = some false →
        u.log.cfgEntryIndex ≤ u.commitIndex % 2 ^ 32) ∧
      ((p.1.servers id).pending = some true → ∀ x ∈ p.2 id, p.1.Spares x e)

instance (p : World × (Bytes → Option LogEntry)) (e : Event) : Decidable (OwnFirst p e) := by
  unfold OwnFirst
  infer_instance

private theorem chainedTo_removes {e : Event} {id : Bytes} {x : LogEntry} (h : w.Upheld logsInOrder)
    (hactor : w.actor e = some id) (hid : id ∈ w.ids) (hremoves : e.removes = true)
    (hnames : w.NamesHeld e) (hspares : w.Spares x e) (hx : (w.servers id).log.ChainedTo x) :
    (w.reaction e (w.servers id)).log.ChainedTo x := by
  obtain ⟨full, hholds⟩ := (h.servers id hid).ledger
  cases e with
  | compact i =>
      obtain rfl : i = id := by simpa [actor] using hactor
      exact chainedTo_compact hholds hspares hx
  | handle i recent =>
      cases hc : w.calls[i]? with
      | none => simp [actor, hc] at hactor
      | some c =>
          obtain rfl : c.dst = id := by simpa [actor, hc] using hactor
          simp only [reaction, hc]
          exact chainedTo_serve hholds recent (h.requests c (List.mem_of_getElem? hc))
            (hnames c hc) (hspares c hc) hx
  | _ => cases hremoves

private theorem owned_step {p q : World × (Bytes → Option LogEntry)} {e : Event} (h : Owned p)
    (hfirst : OwnFirst p e) (hstep : noted step noteOwn p e = some q) : Owned q := by
  obtain ⟨hworld, hnote⟩ := noted_eq_some.mp hstep
  obtain ⟨i, hactor, hi, hw⟩ := step_reaction hworld
  refine ⟨logsInOrder_step h.logs hfirst.1 hworld, fun id hid hpending => ?_⟩
  replace hid : id ∈ p.1.ids := by
    rw [hw] at hid
    exact hid
  rw [hnote]
  simp only [noteOwn]
  by_cases hsame : id = i
  swap
  · have hstill : q.1.servers id = p.1.servers id := by rw [hw, act_of_ne _ _ hsame]
    rw [hstill] at hpending ⊢
    rw [own, if_pos hpending, if_pos hpending]
    exact h.chained id hid hpending
  subst hsame
  have hpost : (q.1.servers id).toReplica = (p.1.reaction e (p.1.servers id)).toReplica ∧
      (q.1.servers id).pending = (p.1.reaction e (p.1.servers id)).pending := by
    rw [hw, act_self]
    exact ⟨rfl, rfl⟩
  have hown : (p.1.servers id).own (q.1.servers id) (p.2 id) =
      (p.1.servers id).own (p.1.reaction e (p.1.servers id)) (p.2 id) := by
    simp only [own, hpost.1, hpost.2]
  rw [hown, hpost.1]
  rw [hpost.2] at hpending
  cases hremoves : e.removes with
  | false =>
      obtain ⟨full, hholds⟩ := (h.logs.servers id hid).ledger
      exact (reaction_onward hremoves _).own hholds.consecutive (h.chained id hid) hpending
  | true =>
      have hbefore := removes_pending hremoves hpending
      obtain ⟨x, hx, hchained⟩ := h.chained id hid hbefore
      refine ⟨x, ?_, chainedTo_removes h.logs hactor hid hremoves hfirst.1
        ((hfirst.2 id hactor).2 hbefore x hx) hchained⟩
      rw [own, if_pos hpending, if_pos hbefore]
      exact hx

/--
In a run in which the commit rule runs for an addition without an entry only
when every configuration entry is committed, and in which nothing is handled
that conflicts with the entry of a pending reconfiguration or takes its place, a
reconfiguration is answered when its own entry is committed.
-/
theorem answered_own {p p' q : World × (Bytes → Option LogEntry)} {es : List Event} {e : Event}
    {id : Bytes} {u : Raft} (hstart : ∀ id, (p.1.servers id).recfg = none)
    (horder : p.1.InOrder) (halong : Along (noted step noteOwn) OwnFirst p es)
    (hfirst : OwnFirst p' e) (hrun : run (noted step noteOwn) p es = some p')
    (hstep : noted step noteOwn p' e = some q) (hactor : p'.1.actor e = some id)
    (hu : u ∈ p'.1.adjusts e (p'.1.servers id)) (hcompletes : u.Completes) :
    ∃ x ∈ (p'.1.servers id).own u (p'.2 id),
      x ∈ u.log.entries ∧ x.index ≤ u.adjustCommitIndex.commitIndex := by
  have howned : Owned p' := by
    refine run_invariant (fun _ _ _ hin h hstep => owned_step h hin hstep) halong ?_ hrun
    refine ⟨horder.logs, fun j _ hj => ?_⟩
    simp [pending, hstart j] at hj
  have hid : id ∈ p'.1.ids := by
    obtain ⟨j, hj, hmem, -⟩ := step_reaction (noted_eq_some.mp hstep).1
    rw [hactor] at hj
    exact Option.some.inj hj ▸ hmem
  obtain ⟨hold, hcommit⟩ := hcompletes.bounds
  have hpending : u.pending = some true := by
    cases hu' : u.pending with
    | none =>
        have hsome := hcompletes.1
        simp [pending] at hu'
        simp [hu'] at hsome
    | some added =>
        cases added with
        | true => rfl
        | false => exact absurd hold (Nat.not_lt.mpr ((hfirst.2 id hactor).1 u hu hu'))
  obtain ⟨full, hholds⟩ := (howned.logs.servers id hid).ledger
  obtain ⟨x, hx, hchained⟩ :=
    (adjusts_onward hu).own hholds.consecutive (howned.chained id hid) hpending
  exact ⟨x, hx, hchained.mem, hchained.index_le.trans hcommit⟩

private theorem inOrder_leaderAndServer : leaderAndServer.InOrder where
  regular := by
    intro id _
    have hlog : ((cluster ["a:1"] false).servers []).log.Holds
        [{ term := 1, index := 1, data := ascii "a:1", config := true }] := by decide
    have h : World.InOrder
        { ids := [id], servers := (cluster ["a:1"] false).servers, calls := [] } :=
      inOrder_boot hlog
    obtain ⟨hlogged, hnext, hrecfg, hsent⟩ := h.regular id (by simp)
    exact ⟨hlogged, hnext, hrecfg, hsent⟩
  requests := by simp [leaderAndServer, cluster, World.boot]

def ownAddition : List Event :=
  [.electionTimeout (ascii "a:1"), .addServer (ascii "a:1") (ascii "10.0.0.4:1"),
    .handle 0 false, .succeed 0 true, .handle 1 false, .succeed 1 true, .handle 2 false]

theorem answered_own_addition :
    ∃ p u, run (noted step noteOwn) (leaderAndServer, fun _ => none) ownAddition = some p ∧
      u ∈ p.1.adjusts (.succeed 2 true) (p.1.servers (ascii "a:1")) ∧ u.Completes ∧
      ∃ x ∈ (p.1.servers (ascii "a:1")).own u (p.2 (ascii "a:1")),
        x ∈ u.log.entries ∧ x.index ≤ u.adjustCommitIndex.commitIndex := by
  have hrun := (Option.some_get (show (run (noted step noteOwn)
    (leaderAndServer, fun _ => none) ownAddition).isSome by decide)).symm
  have hstep := (Option.some_get (show (noted step noteOwn ((run (noted step noteOwn)
    (leaderAndServer, fun _ => none) ownAddition).get (by decide)) (.succeed 2 true)).isSome
      by decide)).symm
  have hu := List.getElem_mem (l := ((run (noted step noteOwn) (leaderAndServer, fun _ => none)
    ownAddition).get (by decide)).1.adjusts (.succeed 2 true) (((run (noted step noteOwn)
      (leaderAndServer, fun _ => none) ownAddition).get (by decide)).1.servers (ascii "a:1")))
    (n := 0) (by decide)
  refine ⟨_, _, hrun, hu, by decide, ?_⟩
  exact answered_own (fun _ => rfl) inOrder_leaderAndServer (by decide) (by decide) hrun hstep
    (by decide) hu (by decide)

/--
The entry that makes the servers a cluster is still to be committed when the
addition begins, and it is committed with the entry `x`.
-/
def inheritedEntry : List Event :=
  [.electionTimeout (ascii "a:1"), .handle 0 false, .succeed 0 false, .handle 1 false,
    .succeed 1 false, .addServer (ascii "a:1") (ascii "10.0.0.4:1"),
    .append (ascii "a:1") (ascii "x"), .heartbeatTimeout (ascii "a:1"), .handle 4 false]

theorem answered_inherited :
    ¬ ∀ (p p' q : World × (Bytes → Option LogEntry)) (es : List Event) (e : Event) (id : Bytes)
      (u : Raft), (∀ id, (p.1.servers id).recfg = none) → p.1.InOrder →
      run (noted step noteOwn) p es = some p' → noted step noteOwn p' e = some q →
      p'.1.actor e = some id → u ∈ p'.1.adjusts e (p'.1.servers id) →
      u.commitIndex < 2 ^ 64 → u.Completes →
      ∃ x ∈ (p'.1.servers id).own u (p'.2 id),
        x ∈ u.log.entries ∧ x.index ≤ u.adjustCommitIndex.commitIndex := by
  intro h
  have hrun := (Option.some_get (show (run (noted step noteOwn)
    (cluster ["a:1", "b:1"] false, fun _ => none) inheritedEntry).isSome by decide)).symm
  have hstep := (Option.some_get (show (noted step noteOwn ((run (noted step noteOwn)
    (cluster ["a:1", "b:1"] false, fun _ => none) inheritedEntry).get (by decide))
    (.succeed 4 true)).isSome by decide)).symm
  have hu := List.getElem_mem (l := ((run (noted step noteOwn)
    (cluster ["a:1", "b:1"] false, fun _ => none) inheritedEntry).get (by decide)).1.adjusts
      (.succeed 4 true) (((run (noted step noteOwn) (cluster ["a:1", "b:1"] false, fun _ => none)
        inheritedEntry).get (by decide)).1.servers (ascii "a:1"))) (n := 0) (by decide)
  have hlog : ((cluster ["a:1", "b:1"] false).servers []).log.Holds
      [{ term := 1, index := 1, data := ascii "a:1,b:1", config := true }] := by decide
  obtain ⟨x, hx, -⟩ := h _ _ _ inheritedEntry (.succeed 4 true) (ascii "a:1") _ (fun _ => rfl)
    (inOrder_boot hlog) hrun hstep (by decide) hu (by decide) (by decide)
  exact absurd hx (by decide +revert)

end World

end Draft
