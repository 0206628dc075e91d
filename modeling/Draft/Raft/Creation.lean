import Draft.Raft.CommittedWork
import Draft.Raft.Frames

/-!
# New entries

An entry comes into being when a server appends it to its own log: for a client,
when a new server has caught up, or when a server is removed.  The entries a run
creates are read off its steps.
-/

namespace Draft

open Consensus Raft

/-! ## What a server makes of its log -/

namespace Raft

variable {s t u : Raft}

inductive Makes (s t : Raft) : Prop
  | kept (hlog : t.log = s.log)
  | made (data : Bytes) (config : Bool) (hrole : s.role = .leader)
      (hidle : config = true → s.busy = false) (helection : t.toElection = s.toElection)
      (hlog : t.log =
        s.log.append [s.log.makeEntry data (s.log.lastEntryIndex + 1) s.currTerm config])

theorem Makes.of_books (h : t.books = s.books) : Makes s t := .kept (log_of_books h)

theorem Makes.after (h : Makes t u) (hlog : t.log = s.log) (hbusy : t.busy = s.busy)
    (helection : t.toElection = s.toElection) : Makes s u := by
  cases h with
  | kept hkept => exact .kept (hkept.trans hlog)
  | made data config hrole hidle hsame hmade =>
      refine .made data config (helection ▸ hrole) (hbusy ▸ hidle) (hsame.trans helection) ?_
      rw [hmade, hlog, helection]

theorem Makes.before (h : Makes s t) (hlog : u.log = t.log)
    (helection : u.toElection = t.toElection) : Makes s u := by
  cases h with
  | kept hkept => exact .kept (hlog.trans hkept)
  | made data config hrole hidle hsame hmade =>
      exact .made data config hrole hidle (helection.trans hsame) (hlog.trans hmade)

/-! ### Elections leave the log alone -/

@[simp] theorem appendEntries_log (s : Raft) : s.appendEntries.log = s.log := by
  rcases appendEntries_replica s with h | ⟨u, hu, h⟩
  · rw [h]
  · rw [h, adjustCommitIndex_log, hu]

private theorem stepUp_log (s : Raft) : s.stepUp.log = s.log := appendEntries_log _

private theorem leaderElection_log (s : Raft) : s.leaderElection.log = s.log := by
  unfold leaderElection
  dsimp only
  split
  · exact stepUp_log _
  · rfl

theorem preVote_log (s : Raft) (early : Bool) : (s.preVote early).log = s.log := by
  unfold preVote
  split
  · exact leaderElection_log s
  · rfl

private theorem checkout_log (s : Raft) : s.checkout.log = s.log := by
  unfold checkout
  split
  · exact leaderElection_log s
  split <;> rfl

theorem onPreVote_log (s : Raft) (res : Option VoteRes) : (s.onPreVote res).log = s.log := by
  unfold onPreVote
  split
  · rfl
  split <;> exact checkout_log _

theorem stepDown_log (s : Raft) (term : Nat) (leader : Bytes) :
    (s.stepDown term leader).log = s.log := by
  rw [stepDown_replica]

theorem onRequestVote_log (s : Raft) (res : Option VoteRes) :
    (s.onRequestVote res).log = s.log := by
  unfold onRequestVote countVote
  dsimp only
  repeat' split
  all_goals first
    | rfl
    | exact stepUp_log _
    | exact stepDown_log s _ _

/-! ### Configurations -/

private theorem makes_deployReconfiguration {r : Reconfiguration} (hr : s.recfg = some r)
    (htype : r.type = .serverAddition) (hrole : r.entryAdded = false → s.role = .leader) :
    Makes s (s.deployReconfiguration r) := by
  unfold deployReconfiguration
  split
  · exact .kept rfl
  · rename_i hadded
    have hfalse : r.entryAdded = false := Bool.not_eq_true _ ▸ hadded
    have hidle : s.busy = false := by simp [busy, hr, hfalse, htype]
    dsimp only
    split
    · exact .made _ true (hrole hfalse) (fun _ => hidle) rfl rfl
    · exact .made _ true (hrole hfalse) (fun _ => hidle) rfl rfl

/-- The callback that would append the configuration of a new server runs at the leader. -/
def DeploysAsLeader (s : Raft) (quick : Bool) : Prop :=
  ∀ r ∈ s.recfg, ¬ s.roundsLeft r.rounds → (quick && s.caughtUp r.n) → r.entryAdded = false →
    s.role = .leader

instance (s : Raft) (quick : Bool) : Decidable (s.DeploysAsLeader quick) := by
  unfold DeploysAsLeader
  infer_instance

theorem newly_addition {id : Bytes} {r : Reconfiguration} (h : s.newly id)
    (hr : s.recfg = some r) : r.type = .serverAddition := by
  simp only [newly, hr, Bool.and_eq_true, decide_eq_true_eq] at h
  exact h.2

private theorem makes_handleCatchUp {id : Bytes} {quick : Bool} (hnewly : s.newly id)
    (h : s.DeploysAsLeader quick) : Makes s (s.handleCatchUpServerAppendEntries quick) := by
  unfold handleCatchUpServerAppendEntries
  split
  · exact .kept rfl
  · rename_i r hr
    split
    · exact .kept ((log_of_books (appendEntriesTo_frame .books _)).trans rfl)
    split
    · rename_i hrounds hcaught
      exact (makes_deployReconfiguration hr (newly_addition hnewly hr) fun hadded =>
        h r hr hrounds hcaught hadded).before
        (appendEntries_log _) (election_of_standing (appendEntries_frame .standing rfl))
    · exact .kept rfl

private theorem makes_delServer (name : Bytes) : Makes s (s.delServer name) := by
  have removed : ∀ cluster, s.role = .leader → s.busy = false →
      Makes s (appendConfiguration { s with cluster := cluster }) :=
    fun _ hrole hidle => .made _ true hrole (fun _ => hidle) rfl rfl
  unfold delServer
  dsimp only
  split
  · exact .kept rfl
  rename_i hrole
  split
  · exact .kept rfl
  split
  · exact .kept rfl
  rename_i hnone
  have hidle : s.busy = false := by
    simp [busy, Option.not_isSome_iff_eq_none.mp hnone]
  split
  · exact .kept rfl
  have hmade := removed (s.cluster.filter (·.1 ≠ s.makeId name)) (not_not.mp hrole) hidle
  generalize appendConfiguration { s with cluster := s.cluster.filter (·.1 ≠ s.makeId name) } = u
    at hmade ⊢
  split
  · have hlog : (u.leadershipTransfer u.latestServer).1.log = u.log :=
      log_of_books (leadershipTransfer_frame .books _)
    have helection : (u.leadershipTransfer u.latestServer).1.toElection = u.toElection :=
      election_of_standing (leadershipTransfer_frame .standing _)
    split
    · exact hmade.before hlog helection
    · exact hmade.before hlog helection
  · exact hmade.before (appendEntries_log _)
      (election_of_standing (appendEntries_frame .standing rfl))

/-! ### Callbacks -/

private theorem commitReconfiguration_recfg (s : Raft) (oldCommit : Nat) :
    (s.commitReconfiguration oldCommit).recfg = s.recfg ∨
      (s.commitReconfiguration oldCommit).recfg = none ∧ s.log.cfgEntryIndex ≤ s.commitIndex := by
  unfold commitReconfiguration
  dsimp only
  split
  · rename_i hcommitted
    exact .inr ⟨rfl, hcommitted.2.1⟩
  · exact .inl rfl

private theorem commitAlone_recfg (s : Raft) (oldCommit : Nat) :
    (s.commitAlone oldCommit).recfg = s.recfg := by
  unfold commitAlone
  repeat' split
  all_goals rfl

/-- The commit rule ends a reconfiguration only when its entry is committed. -/
theorem adjustCommitIndex_recfg (s : Raft) : s.adjustCommitIndex.recfg = s.recfg ∨
    s.adjustCommitIndex.recfg = none ∧
      s.log.cfgEntryIndex ≤ s.adjustCommitIndex.commitIndex := by
  have counted : ∀ u : Raft, u.recfg = s.recfg → u.log = s.log → ∀ oldCommit,
      ((u.commitAlone oldCommit).commitReconfiguration oldCommit).recfg = s.recfg ∨
        ((u.commitAlone oldCommit).commitReconfiguration oldCommit).recfg = none ∧
          s.log.cfgEntryIndex ≤
            ((u.commitAlone oldCommit).commitReconfiguration oldCommit).commitIndex := by
    intro u hrecfg hlog oldCommit
    have hsame := commitReconfiguration_replica (u.commitAlone oldCommit) oldCommit
    have hlog' : (u.commitAlone oldCommit).log = s.log := by
      rcases commitAlone_replica u oldCommit with h | ⟨-, h⟩ <;> rw [h] <;> exact hlog
    rcases commitReconfiguration_recfg (u.commitAlone oldCommit) oldCommit with h | ⟨h, hle⟩
    · exact .inl (h.trans ((commitAlone_recfg u oldCommit).trans hrecfg))
    · exact .inr ⟨h, by rw [hsame, ← hlog']; exact hle⟩
  unfold adjustCommitIndex
  split
  · exact .inl rfl
  dsimp only
  split
  · rename_i i _
    exact counted (s.commitTo i) rfl rfl _
  · exact counted s rfl rfl _

private theorem makes_onAppendSuccess (hrole : s.role = .leader) (id : Bytes) (matchIndex : Nat)
    (quick : Bool) : Makes s (s.onAppendSuccess id matchIndex quick) := by
  have hlog : ((s.recordMatch id matchIndex).adjustCommitIndex).log = s.log :=
    adjustCommitIndex_log _
  have helection : ((s.recordMatch id matchIndex).adjustCommitIndex).toElection = s.toElection :=
    election_of_standing (adjustCommitIndex_frame .standing rfl)
  have hbusy : ((s.recordMatch id matchIndex).adjustCommitIndex).recfg.isSome →
      ((s.recordMatch id matchIndex).adjustCommitIndex).busy = s.busy := by
    intro hsome
    have hmatch := busy_of_books (recordMatch_frame .books (s := s) id matchIndex)
    rcases adjustCommitIndex_recfg (s.recordMatch id matchIndex) with hrecfg | ⟨hrecfg, -⟩
    · rw [← hmatch, busy, hrecfg]
      rfl
    · simp [hrecfg] at hsome
  unfold onAppendSuccess
  dsimp only
  generalize (s.recordMatch id matchIndex).adjustCommitIndex = u at hlog helection hbusy ⊢
  split
  · exact .kept hlog
  have continued : ∀ t : Raft, t.log = u.log → t.recfg = u.recfg →
      t.toElection = u.toElection →
      Makes s (if t.newly id then t.handleCatchUpServerAppendEntries quick else t) := by
    intro t hlog' hrecfg' helection'
    have hlead : t.role = .leader :=
      (congrArg Election.role (helection'.trans helection)).trans hrole
    split
    · rename_i hnewly
      have hsome : u.recfg.isSome := by
        rw [← hrecfg']
        unfold newly at hnewly
        split at hnewly
        · rename_i r hr
          rw [hr]
          rfl
        · cases hnewly
      have hsame : t.busy = u.busy := by rw [busy, busy, hrecfg']
      exact (makes_handleCatchUp hnewly fun _ _ _ _ _ => hlead).after (hlog'.trans hlog)
        (hsame.trans (hbusy hsome)) (helection'.trans helection)
    · exact .kept (hlog'.trans hlog)
  split
  · refine continued _ (log_of_books (handleTransferLeaderTo_frame .books id)) ?_
      (election_of_standing (handleTransferLeaderTo_frame .standing id))
    unfold handleTransferLeaderTo
    split <;> rfl
  · exact continued _ rfl rfl rfl

private theorem makes_onAppendEntries (id : Bytes) (res : Option AppendEntriesRes) (quick : Bool)
    (h : res = none → s.newly id → s.DeploysAsLeader quick) :
    Makes s (s.onAppendEntries id res quick) := by
  unfold onAppendEntries
  split
  · split
    · exact makes_handleCatchUp ‹_› (h rfl ‹_›)
    · exact .kept rfl
  split
  · exact .kept rfl
  rename_i hrole
  split
  · exact makes_onAppendSuccess (not_not.mp hrole) id _ quick
  split
  · exact .kept (stepDown_log s _ _)
  · exact .of_books (onAppendInconsistent_frame .books rfl id _)

private theorem makes_finish (id : Bytes) (quick : Bool) (req : Request) (res : Option Response)
    (h : ∀ r, req = .appendEntries r → res = none → s.newly id → s.DeploysAsLeader quick) :
    Makes s (s.finish id quick req res) := by
  cases req with
  | timeoutNow req =>
      rcases res with - | ⟨res⟩ | ⟨res⟩ | ⟨res⟩
      · exact .of_books (onTimeoutNow_frame .books id _)
      · exact .of_books (onTimeoutNow_frame .books id _)
      · exact .kept rfl
      · exact .kept rfl
  | preVote req =>
      rcases res with - | ⟨res⟩ | ⟨res⟩ | ⟨res⟩
      · exact .kept (onPreVote_log s none)
      · exact .kept (onPreVote_log s _)
      · exact .kept rfl
      · exact .kept rfl
  | requestVote req =>
      rcases res with - | ⟨res⟩ | ⟨res⟩ | ⟨res⟩
      · exact .kept rfl
      · exact .kept (onRequestVote_log s _)
      · exact .kept rfl
      · exact .kept rfl
  | appendEntries req =>
      rcases res with - | ⟨res⟩ | ⟨res⟩ | ⟨res⟩
      · exact makes_onAppendEntries id none quick fun _ => h req rfl rfl
      · exact .kept rfl
      · exact makes_onAppendEntries id (some res) quick fun hnone => by cases hnone
      · exact .kept rfl
  | dataTransfer req =>
      rcases res with - | ⟨res⟩ | ⟨res⟩ | ⟨res⟩
      · simp only [finish, onDataTransfer]
        split
        · exact .of_books (doDataTransfer_frame .books rfl id)
        · exact .kept rfl
      · exact .kept rfl
      · exact .kept rfl
      · have moved : ({ s with sender := s.sender.advance } : Raft).books = s.books := rfl
        simp only [finish, onDataTransfer]
        split
        · exact .of_books ((onDataSuccess_frame .books rfl id).trans moved)
        split
        · exact .kept (stepDown_log _ _ _)
        · exact .kept rfl
  | doneTransfer req =>
      rcases res with - | ⟨res⟩ | ⟨res⟩ | ⟨res⟩
      · simp only [finish, onDoneTransfer]
        split
        · exact .of_books (doDoneTransfer_frame .books rfl id)
        · exact .kept rfl
      · exact .kept rfl
      · exact .kept rfl
      · simp only [finish, onDoneTransfer]
        split
        · have node : (s.initTransfer.modifyNode id fun n =>
              { n with transferDataTo := false }).books = s.initTransfer.books :=
            modifyNode_frame .books id _
          exact .of_books ((appendEntriesTo_frame .books id).trans node)
        split
        · exact .kept (stepDown_log s _ _)
        · exact .kept rfl

/-! ## Terms and offices -/

structure Terms (s t : Raft) : Prop where
  term : s.currTerm ≤ t.currTerm
  office : (t.elections = s.elections ∧
      (t.role = .leader → s.role = .leader ∧ t.currTerm = s.currTerm)) ∨
    t.elections = s.elections ++ [t.currTerm]

private theorem Terms.of_election (h : t.toElection = s.toElection) : Terms s t := by
  refine ⟨by rw [h], .inl ⟨by rw [h], fun hrole => ?_⟩⟩
  rw [h] at hrole ⊢
  exact ⟨hrole, rfl⟩

theorem Terms.of_standing (h : t.standing = s.standing) : Terms s t :=
  .of_election (election_of_standing h)

private theorem Terms.retired (hterm : s.currTerm ≤ t.currTerm) (hrole : t.role ≠ .leader)
    (helections : t.elections = s.elections) : Terms s t :=
  ⟨hterm, .inl ⟨helections, fun hlead => absurd hlead hrole⟩⟩

theorem Terms.trans (h : Terms s t) (helections : t.elections = s.elections) (k : Terms t u) :
    Terms s u := by
  refine ⟨h.term.trans k.term, ?_⟩
  rcases k.office with ⟨hsame, hlead⟩ | hwon
  · refine .inl ⟨hsame.trans helections, fun hrole => ?_⟩
    obtain ⟨hrole', hterm'⟩ := hlead hrole
    rcases h.office with ⟨-, hlead'⟩ | hwon
    · exact ⟨(hlead' hrole').1, hterm'.trans (hlead' hrole').2⟩
    · simp [helections] at hwon
  · exact .inr (hwon.trans (helections ▸ rfl))

theorem Terms.congr (h : Terms s t) (k : u.toElection = t.toElection) : Terms s u := by
  obtain ⟨hterm, hoffice⟩ := h
  exact ⟨k ▸ hterm, by rw [k]; exact hoffice⟩

private theorem stepUp_election (s : Raft) :
    s.stepUp.toElection = { s.toElection with
      role := .leader, elections := s.elections ++ [s.currTerm] } :=
  election_of_standing (appendEntries_frame .standing rfl)

private theorem terms_stepUp (s : Raft) : Terms s s.stepUp :=
  ⟨by rw [stepUp_election], .inr (by rw [stepUp_election])⟩

private theorem terms_stepDown {term : Nat} (h : s.currTerm ≤ term) (leader : Bytes) :
    Terms s (s.stepDown term leader) := by
  have helection := stepDown_election s term leader
  refine .retired ?_ ?_ ?_ <;> rw [helection]
  · exact h
  · simp

private theorem terms_leaderElection (s : Raft) : Terms s s.leaderElection := by
  have candidate : Terms s s.becomeCandidate := .retired (Nat.le_succ _) (by simp [becomeCandidate,
    castVote]) rfl
  unfold leaderElection
  dsimp only
  split
  · exact candidate.trans rfl (terms_stepUp _)
  · exact candidate.congr rfl

private theorem terms_preVote (s : Raft) (early : Bool) : Terms s (s.preVote early) := by
  unfold preVote
  split
  · exact terms_leaderElection s
  · exact .retired le_rfl (by simp [invokeAll]) rfl

private theorem terms_checkout (s : Raft) : Terms s s.checkout := by
  unfold checkout
  split
  · exact terms_leaderElection s
  split <;> exact .of_election rfl

private theorem terms_onPreVote (s : Raft) (res : Option VoteRes) : Terms s (s.onPreVote res) := by
  have counted : ∀ u : Raft, u.toElection = s.toElection → Terms s u.checkout := fun u hu =>
    (Terms.of_election hu).trans (by rw [hu]) (terms_checkout u)
  unfold onPreVote
  split
  · exact .of_election rfl
  split
  · exact counted _ rfl
  · exact counted _ rfl

private theorem terms_onRequestVote (s : Raft) (res : Option VoteRes) : Terms s (s.onRequestVote res) := by
  unfold onRequestVote countVote
  dsimp only
  split
  · exact .of_election rfl
  split
  · exact .of_election rfl
  rename_i hrole
  have hvote : Terms s { s with votes := s.votes + 1 } :=
    .retired le_rfl (by simp [not_not.mp hrole]) rfl
  split
  · split
    · exact .of_election rfl
    split
    · exact hvote.trans rfl (terms_stepUp _)
    · exact hvote
  split
  · exact terms_stepDown (by omega) _
  · exact .of_election rfl

private theorem terms_acceptTerm {term : Nat} (h : s.currTerm ≤ term) (leader : Bytes) :
    Terms s (s.acceptTerm term leader) ∧ (s.acceptTerm term leader).elections = s.elections := by
  have helection := stepDown_election { s with votedFor := [] } term leader
  refine ⟨.retired ?_ ?_ ?_, ?_⟩ <;> rw [acceptTerm, helection]
  · exact h
  · simp

/-! ### Requests -/

private theorem terms_handleRequestVote (s : Raft) (req : VoteReq) :
    Terms s (s.handleRequestVote req).1 := by
  have heed : Terms s (s.heedCandidate req.term) := by
    unfold heedCandidate
    split
    · exact (terms_acceptTerm (by omega) _).1
    · exact .of_election rfl
  unfold handleRequestVote
  dsimp only
  repeat' split
  all_goals first
    | exact heed
    | exact ⟨heed.term, heed.office⟩

theorem terms_heedLeader {term : Nat} (h : s.currTerm ≤ term) (leader : Bytes) :
    Terms s (s.heedLeader term leader) ∧ (s.heedLeader term leader).role = .follower := by
  unfold heedLeader
  split
  · exact ⟨(terms_acceptTerm h leader).1, stepDown_role _ _ _⟩
  · exact ⟨.retired le_rfl (by simp) rfl, rfl⟩

theorem terms_followSender {term : Nat} (h : s.currTerm ≤ term) (leader : Bytes) :
    Terms s (s.followSender term leader) ∧ (s.followSender term leader).role = .follower := by
  unfold followSender
  split
  · obtain ⟨hterms, helections⟩ := terms_acceptTerm h leader
    exact ⟨.retired hterms.term (by simp) helections, rfl⟩
  · exact ⟨.retired le_rfl (by simp) rfl, rfl⟩

private theorem terms_serve (s : Raft) (recent : Bool) (req : Request) :
    Terms s (s.serve recent req).1 ∧
      ((s.serve recent req).1.role = .leader → (s.serve recent req).1.log = s.log) := by
  cases req with
  | timeoutNow req =>
      have timer : Terms s { s with electionTimer := false } := .of_election rfl
      exact ⟨timer.trans rfl (terms_preVote _ true), fun _ => preVote_log _ true⟩
  | preVote req => exact ⟨.of_election rfl, fun _ => rfl⟩
  | requestVote req =>
      refine ⟨terms_handleRequestVote s req, fun _ => ?_⟩
      exact congrArg Replica.log (handleRequestVote_replica s req)
  | appendEntries req =>
      change Terms s (s.handleAppendEntries req).1 ∧
        ((s.handleAppendEntries req).1.role = .leader → (s.handleAppendEntries req).1.log = s.log)
      unfold handleAppendEntries
      split
      · exact ⟨.of_election rfl, fun _ => rfl⟩
      · obtain ⟨hterms, hrole⟩ :=
          terms_heedLeader (show s.currTerm ≤ req.term by omega) req.leaderId
        have helection := election_of_standing
          (acceptEntries_frame .standing rfl rfl (s := s.heedLeader req.term req.leaderId) req)
        refine ⟨hterms.congr helection, fun hlead => ?_⟩
        rw [helection, hrole] at hlead
        cases hlead
  | dataTransfer req =>
      change Terms s (s.handleDataTransfer req).1 ∧
        ((s.handleDataTransfer req).1.role = .leader → (s.handleDataTransfer req).1.log = s.log)
      unfold handleDataTransfer
      split
      · exact ⟨.of_election rfl, fun _ => rfl⟩
      · obtain ⟨hterms, hrole⟩ :=
          terms_followSender (show s.currTerm ≤ req.term by omega) req.leaderId
        dsimp only
        split
        · have helection := election_of_standing
            (beginTransfer_frame (s := s.followSender req.term req.leaderId) .standing rfl rfl
              req)
          refine ⟨hterms.congr helection, fun hlead => ?_⟩
          rw [helection, hrole] at hlead
          cases hlead
        · refine ⟨hterms, fun hlead => ?_⟩
          rw [hrole] at hlead
          cases hlead
  | doneTransfer req =>
      change Terms s (s.handleDoneTransfer req).1 ∧
        ((s.handleDoneTransfer req).1.role = .leader → (s.handleDoneTransfer req).1.log = s.log)
      unfold handleDoneTransfer
      split
      · exact ⟨.of_election rfl, fun _ => rfl⟩
      · obtain ⟨hterms, hrole⟩ :=
          terms_followSender (show s.currTerm ≤ req.term by omega) req.leaderId
        dsimp only
        split
        · refine ⟨hterms, fun hlead => ?_⟩
          rw [hrole] at hlead
          cases hlead
        · refine ⟨hterms.congr rfl, fun hlead => ?_⟩
          change (s.followSender req.term req.leaderId).role = .leader at hlead
          rw [hrole] at hlead
          cases hlead

/-! ### Callbacks -/

private theorem terms_onAppendEntries (s : Raft) (id : Bytes) (res : Option AppendEntriesRes)
    (quick : Bool) : Terms s (s.onAppendEntries id res quick) := by
  unfold onAppendEntries
  split
  · split
    · exact .of_standing (handleCatchUpServerAppendEntries_frame .standing rfl quick)
    · exact .of_election rfl
  split
  · exact .of_election rfl
  split
  · exact .of_standing (onAppendSuccess_frame .standing rfl id _ quick)
  split
  · exact terms_stepDown (by omega) id
  · exact .of_standing (onAppendInconsistent_frame .standing rfl id _)

private theorem terms_onDataTransfer (s : Raft) (id : Bytes) (res : Option DataRes) :
    Terms s (s.onDataTransfer id res) := by
  have moved : Terms s { s with sender := s.sender.advance } := .of_election rfl
  unfold onDataTransfer
  split
  · split
    · exact .of_standing (doDataTransfer_frame .standing rfl id)
    · exact .of_election rfl
  dsimp only
  split
  · exact moved.trans rfl (.of_standing (onDataSuccess_frame .standing rfl id))
  split
  · exact moved.trans rfl (terms_stepDown (by dsimp only; omega) id)
  · exact moved

private theorem terms_onDoneTransfer (s : Raft) (id : Bytes) (res : Option DataRes) :
    Terms s (s.onDoneTransfer id res) := by
  unfold onDoneTransfer
  split
  · split
    · exact .of_standing (doDoneTransfer_frame .standing rfl id)
    · exact .of_election rfl
  split
  · exact .of_standing ((appendEntriesTo_frame .standing id).trans rfl)
  split
  · exact terms_stepDown (by omega) id
  · exact .of_election rfl

private theorem terms_finish (s : Raft) (id : Bytes) (quick : Bool) (req : Request)
    (res : Option Response) : Terms s (s.finish id quick req res) := by
  unfold finish
  split
  all_goals first
    | exact .of_standing (onTimeoutNow_frame .standing id _)
    | exact terms_onPreVote s _
    | exact terms_onRequestVote s _
    | exact terms_onAppendEntries s id _ quick
    | exact terms_onDataTransfer s id _
    | exact terms_onDoneTransfer s id _
    | exact .of_election rfl

/-! ## The last index -/

@[simp] theorem lastEntryIndex_append (log : EntryLogger) (e : LogEntry) :
    (log.append [e]).lastEntryIndex = e.index := by
  simp [EntryLogger.append, EntryLogger.lastEntryIndex, EntryLogger.lastEntry]

private theorem Makes.lastEntryIndex_le (h : Makes s t) :
    s.log.lastEntryIndex ≤ t.log.lastEntryIndex := by
  cases h with
  | kept hlog => rw [hlog]
  | made data config hrole hidle helection hlog =>
      rw [hlog, lastEntryIndex_append]
      exact Nat.le_succ _

private theorem compact_lastEntryIndex {full : List Entry} (h : s.Logged full) :
    s.compact.log.lastEntryIndex = s.log.lastEntryIndex := by
  obtain ⟨hholds, -⟩ := h.holds.drop_getD h.commit_le
  unfold Raft.compact
  split
  · rfl
  · dsimp only
    split
    · rename_i hindex
      rw [hindex.2, hholds.lastEntryIndex_eq, h.holds.lastEntryIndex_eq]
    · rfl

private theorem compact_length (s : Raft) : s.compact.log.entries.length ≤ s.log.entries.length := by
  have hdrop : ∀ i, ((s.log.drop i).getD s.log).entries.length ≤ s.log.entries.length := by
    intro i
    unfold EntryLogger.drop
    split
    · exact le_rfl
    split
    · exact le_rfl
    · simp [EntryLogger.copyStates]
  unfold Raft.compact
  split
  · exact le_rfl
  · dsimp only
    split
    · exact hdrop _
    · exact le_rfl

end Raft

/-! ## Steps -/

def Request.isAppendEntries : Request → Bool
  | .appendEntries _ => true
  | _ => false

namespace World

variable {w w' : World} {e : Event}

/-- The entries that a step creates, with their server: what is new at the end of its log. -/
def made (w : World) (e : Event) (w' : World) : List (Bytes × LogEntry) :=
  match e, w.actor e with
  | .handle .., _ => []
  | _, none => []
  | _, some id =>
      ((w'.servers id).log.entries.drop (w.servers id).log.entries.length).map fun x => (id, x)

def creations (w : World) : List Event → List (Bytes × LogEntry)
  | [] => []
  | e :: es =>
      match w.step e with
      | none => []
      | some w' => w.made e w' ++ w'.creations es

/-- The failed call that makes a new server a member finds its server leader. -/
def ByLeader (w : World) : Event → Prop
  | .fail i quick => ∀ c ∈ w.calls[i]?, c.request.isAppendEntries →
      (w.servers c.src).newly c.dst → (w.servers c.src).DeploysAsLeader quick
  | _ => True

/-- A server that is elected is the first one in its term. -/
def WinsFresh (w : World) (e : Event) : Prop :=
  ∀ w', w.step e = some w' → ∀ id ∈ w.actor e,
    ∀ t ∈ (w'.servers id).elections.drop (w.servers id).elections.length,
      ∀ j ∈ w.ids, t ∉ (w.servers j).elections

structure CreatesOnce (w : World) (e : Event) : Prop where
  byLeader : w.ByLeader e
  winsFresh : w.WinsFresh e
  preserves : w.Preserves e

instance (w : World) (e : Event) : Decidable (w.ByLeader e) := by
  unfold ByLeader
  split
  · exact inferInstanceAs (Decidable (∀ c ∈ _, _))
  · infer_instance

instance (w : World) (e : Event) : Decidable (w.WinsFresh e) :=
  match h : w.step e with
  | none => isTrue (by simp [WinsFresh, h])
  | some w' =>
      decidable_of_iff (∀ id ∈ w.actor e,
        ∀ t ∈ (w'.servers id).elections.drop (w.servers id).elections.length,
          ∀ j ∈ w.ids, t ∉ (w.servers j).elections) (by simp [WinsFresh, h])

instance (w : World) (e : Event) : Decidable (w.CreatesOnce e) :=
  decidable_of_iff (w.ByLeader e ∧ w.WinsFresh e ∧ w.Preserves e)
    ⟨fun h => ⟨h.1, h.2.1, h.2.2⟩, fun h => ⟨h.1, h.2, h.3⟩⟩

structure Creates (w : World) (e : Event) (w' : World) (id : Bytes) (t : Raft) : Prop where
  actor : w.actor e = some id
  mem : id ∈ w.ids
  act : ∃ calls, w' = { w with calls := calls }.act id t
  terms : Terms (w.servers id) t
  last : w.InOrder → w.ByLeader e → t.role = .leader → t.elections = (w.servers id).elections →
    (w.servers id).log.lastEntryIndex ≤ t.log.lastEntryIndex
  made : w.ByLeader e → w.made e w' = [] ∨
    ∃ x, w.made e w' = [(id, x)] ∧ (w.servers id).role = .leader ∧
    (x.config = true → (w.servers id).busy = false) ∧
    t.toElection = (w.servers id).toElection ∧ x.term = (w.servers id).currTerm ∧
    x.index = (w.servers id).log.lastEntryIndex + 1 ∧ t.log.lastEntryIndex = x.index

private theorem made_of_makes {id : Bytes} {t : Raft} {calls : List Call}
    (hactor : w.actor e = some id) (hmem : id ∈ w.ids)
    (hw' : w' = { w with calls := calls }.act id t) (hterms : Terms (w.servers id) t)
    (hmakes : w.ByLeader e → Makes (w.servers id) t) : Creates w e w' id t := by
  refine ⟨hactor, hmem, ⟨calls, hw'⟩, hterms,
    fun _ hby _ _ => (hmakes hby).lastEntryIndex_le, fun hby => ?_⟩
  have hlog : (w'.servers id).log = t.log := by
    rw [hw', act_self]
  by_cases hhandle : ∃ i recent, e = .handle i recent
  · obtain ⟨i, recent, rfl⟩ := hhandle
    exact .inl rfl
  · have hmade : w.made e w' =
        (t.log.entries.drop (w.servers id).log.entries.length).map fun x => (id, x) := by
      unfold made
      rw [hactor]
      split
      · exact absurd ⟨_, _, rfl⟩ hhandle
      · rename_i hnone
        cases hnone
      · rename_i hsome
        cases hsome
        rw [hlog]
    cases hmakes hby with
    | kept hkept => exact .inl (by rw [hmade, hkept, List.drop_length, List.map_nil])
    | made data config hrole hidle helection hnew =>
        refine .inr ⟨(w.servers id).log.makeEntry data ((w.servers id).log.lastEntryIndex + 1)
          (w.servers id).currTerm config, ?_, hrole, hidle, helection, rfl, rfl, ?_⟩
        · rw [hmade, hnew, EntryLogger.append, List.drop_left, List.map_singleton]
        · rw [hnew, lastEntryIndex_append]

private theorem creates_local {id : Bytes} {f : Raft → Raft} (hactor : w.actor e = some id)
    (hterms : Terms (w.servers id) (f (w.servers id)))
    (hmakes : Makes (w.servers id) (f (w.servers id)))
    (hstep : w.local_ id f = some w') : ∃ id t, Creates w e w' id t := by
  unfold World.local_ at hstep
  split at hstep
  · rename_i hid
    cases hstep
    exact ⟨id, _, made_of_makes hactor hid.1 rfl hterms fun _ => hmakes⟩
  · cases hstep

private theorem creates_finish {i : Nat} {c : Call} {response : Option Response} {quick : Bool}
    (hactor : w.actor e = some c.src)
    (hlead : w.ByLeader e → ∀ r, c.request = .appendEntries r → response = none →
      (w.servers c.src).newly c.dst → (w.servers c.src).DeploysAsLeader quick)
    (hstep : w.finishCall i c response quick = some w') : ∃ id t, Creates w e w' id t := by
  unfold finishCall at hstep
  split at hstep
  · rename_i hsrc
    cases hstep
    exact ⟨c.src, _, made_of_makes hactor hsrc.1 rfl (terms_finish _ _ _ _ _)
      fun hby => makes_finish _ _ _ _ (hlead hby)⟩
  · cases hstep

theorem creates_step (hstep : w.step e = some w') :
    ∃ id t, Creates w e w' id t := by
  have quiet : ∀ {s t : Raft}, t.standing = s.standing → t.books = s.books →
      Terms s t ∧ Makes s t := fun hstanding hbooks => ⟨.of_standing hstanding, .of_books hbooks⟩
  cases e with
  | electionTimeout id =>
      simp only [World.step] at hstep
      split at hstep
      · have timer : Terms (w.servers id) { w.servers id with electionTimer := false } :=
          .of_election rfl
        exact creates_local rfl (timer.trans rfl (terms_preVote _ false))
          (.kept (preVote_log _ false)) hstep
      · cases hstep
  | heartbeatTimeout id =>
      simp only [World.step] at hstep
      split at hstep
      · exact creates_local rfl (.of_standing ((appendEntries_frame .standing rfl).trans rfl))
          (.kept (appendEntries_log _)) hstep
      · cases hstep
  | leadershipTransferTimeout id =>
      simp only [World.step] at hstep
      split at hstep
      · cases hstep
      · rename_i node _
        refine creates_local (f := fun s => s.onLeadershipTransferTimeout node) rfl
          (.of_standing (onLeadershipTransferTimeout_frame .standing rfl node)) (.kept ?_) hstep
        unfold onLeadershipTransferTimeout
        dsimp only
        repeat' split
        all_goals rfl
  | append id data =>
      refine creates_local (f := fun s => s.append data) rfl
        (.of_standing (append_frame .standing rfl data)) ?_ hstep
      unfold Raft.append
      split
      · exact .kept rfl
      · exact .made data false (not_not.mp ‹_›) (fun hconfig => by cases hconfig) rfl rfl
  | transferLeadership id address =>
      obtain ⟨hterms, hmakes⟩ :=
        quiet (leadershipTransfer_frame (s := w.servers id) .standing address)
          (leadershipTransfer_frame .books address)
      exact creates_local (f := fun s => (s.leadershipTransfer address).1) rfl hterms hmakes hstep
  | addServer id address =>
      obtain ⟨hterms, hmakes⟩ := quiet (addServer_frame .standing rfl (s := w.servers id) address)
        (addServer_frame .books rfl address)
      exact creates_local (f := fun s => s.addServer address) rfl hterms hmakes hstep
  | delServer id address =>
      exact creates_local (f := fun s => s.delServer address) rfl
        (.of_standing (delServer_frame .standing rfl address)) (makes_delServer address) hstep
  | popCommitted id =>
      exact creates_local (f := popCommitted) rfl (.of_standing (popCommitted_frame .standing))
        (.of_books (popCommitted_frame .books)) hstep
  | applyNext id =>
      exact creates_local (f := applyNext) rfl (.of_standing (applyNext_frame .standing rfl))
        (.of_books (applyNext_frame .books rfl)) hstep
  | compact id =>
      simp only [World.step, World.local_] at hstep
      split at hstep
      · rename_i hid
        cases hstep
        refine ⟨id, _, rfl, hid.1, ⟨w.calls, rfl⟩,
          .of_standing (compact_frame .standing rfl rfl), fun h _ _ _ => ?_, fun _ => .inl ?_⟩
        · obtain ⟨full, hlogged⟩ := (h.regular id hid.1).logged
          exact (compact_lastEntryIndex hlogged).ge
        · have hlength := compact_length (w.servers id)
          simp only [made, actor, act_self, List.map_eq_nil_iff, List.drop_eq_nil_iff]
          exact hlength
      · cases hstep
  | writeFiles id files =>
      simp only [World.step] at hstep
      exact creates_local rfl (.of_election rfl) (.kept rfl) hstep
  | handle i recent =>
      simp only [World.step] at hstep
      split at hstep
      · cases hstep
      · rename_i c hc
        unfold handleCall at hstep
        split at hstep
        · rename_i hdst
          cases hstep
          obtain ⟨hterms, hlog⟩ := terms_serve (w.servers c.dst) recent c.request
          exact ⟨c.dst, _, by simp [actor, hc], hdst.1, ⟨_, rfl⟩, hterms,
            fun _ _ hlead _ => by rw [hlog hlead], fun _ => .inl rfl⟩
        · cases hstep
  | succeed i quick =>
      simp only [World.step] at hstep
      split at hstep
      · cases hstep
      · rename_i c hc
        split at hstep
        · cases hstep
        · rename_i hsome
          exact creates_finish (by simp [actor, hc]) (fun _ _ _ hnone => absurd hnone hsome) hstep
  | fail i quick =>
      simp only [World.step] at hstep
      split at hstep
      · cases hstep
      · rename_i c hc
        exact creates_finish (by simp [actor, hc])
          (fun hby r hr _ => hby c hc (by rw [hr]; rfl)) hstep

theorem step_currTerm_le (hstep : w.step e = some w') (j : Bytes) :
    (w.servers j).currTerm ≤ (w'.servers j).currTerm := by
  obtain ⟨id, t, h⟩ := creates_step hstep
  obtain ⟨calls, hw'⟩ := h.act
  rw [hw']
  by_cases hj : j = id
  · subst hj
    rw [act_self]
    exact h.terms.term
  · rw [act_of_ne _ _ hj]

/-! ## Runs -/

structure Created (w : World) (history : List (Bytes × LogEntry)) : Prop where
  inOrder : w.InOrder
  reached : ∀ id ∈ w.ids, ∀ t ∈ (w.servers id).elections, t ≤ (w.servers id).currTerm
  leader : ∀ id ∈ w.ids, (w.servers id).role = .leader →
    (w.servers id).currTerm ∈ (w.servers id).elections
  winner : ∀ i ∈ w.ids, ∀ j ∈ w.ids, ∀ t ∈ (w.servers i).elections,
    t ∈ (w.servers j).elections → i = j
  creator : ∀ p ∈ history, p.1 ∈ w.ids ∧ p.2.term ∈ (w.servers p.1).elections
  below : ∀ p ∈ history, (w.servers p.1).role = .leader →
    (w.servers p.1).currTerm = p.2.term → p.2.index ≤ (w.servers p.1).log.lastEntryIndex
  unique : ∀ p ∈ history, ∀ q ∈ history, p.2.index = q.2.index → p.2.term = q.2.term → p = q

structure Unled (w : World) : Prop where
  inOrder : w.InOrder
  role : ∀ id ∈ w.ids, (w.servers id).role ≠ .leader
  elections : ∀ id ∈ w.ids, (w.servers id).elections = []

theorem Unled.created (h : w.Unled) : w.Created [] where
  inOrder := h.inOrder
  reached := fun id hid t ht => by simp [h.elections id hid] at ht
  leader := fun id hid hrole => absurd hrole (h.role id hid)
  winner := fun i hi _ _ t ht => by simp [h.elections i hi] at ht
  creator := by simp
  below := by simp
  unique := by simp

private theorem created_step {history : List (Bytes × LogEntry)} (h : w.Created history)
    (honce : w.CreatesOnce e) (hstep : w.step e = some w') :
    w'.Created (history ++ w.made e w') := by
  obtain ⟨id, t, hc⟩ := creates_step hstep
  have hinOrder := inOrder_step h.inOrder honce.preserves hstep
  have hfresh := honce.winsFresh w' hstep id hc.actor
  have hmade := hc.made honce.byLeader
  obtain ⟨calls, hw'⟩ := hc.act
  have hself : w'.servers id = { t with sent := [] } := by rw [hw', act_self]
  have hother : ∀ j, j ≠ id → w'.servers j = w.servers j := fun j hj => by
    rw [hw', act_of_ne _ _ hj]
  have hids : w'.ids = w.ids := by rw [hw']; rfl
  rw [hself] at hfresh
  have hgrows : ∀ x ∈ (w.servers id).elections, x ∈ t.elections := by
    intro x hx
    rcases hc.terms.office with ⟨hsame, -⟩ | hwon
    · exact hsame ▸ hx
    · rw [hwon]
      exact List.mem_append_left _ hx
  have holder : ∀ j ∈ w.ids, ∀ x ∈ (w.servers j).elections, x ∈ (w'.servers j).elections := by
    intro j _ x hx
    by_cases hj : j = id
    · subst hj
      rw [hself]
      exact hgrows x hx
    · rw [hother j hj]
      exact hx
  -- a term won before stays with its winner; a new one is nobody's
  have hnew : ∀ j ∈ w.ids, ∀ x ∈ (w'.servers j).elections, x ∈ (w.servers j).elections ∨
      j = id ∧ x = t.currTerm ∧ ∀ i ∈ w.ids, x ∉ (w.servers i).elections := by
    intro j _ x hx
    by_cases hj : j = id
    · subst hj
      rw [hself] at hx
      rcases hc.terms.office with ⟨hsame, -⟩ | hwon
      · exact .inl (hsame ▸ hx)
      · have hx' : x ∈ t.elections := hx
        rw [hwon] at hx'
        rcases List.mem_append.mp hx' with hx' | hx'
        · exact .inl hx'
        · obtain rfl := List.mem_singleton.mp hx'
          refine .inr ⟨rfl, rfl, fun i hi => hfresh _ ?_ i hi⟩
          simp [hwon]
    · rw [hother j hj] at hx
      exact .inl hx
  have hbelow : ∀ p ∈ history, (w'.servers p.1).role = .leader →
      (w'.servers p.1).currTerm = p.2.term →
      p.2.index ≤ (w'.servers p.1).log.lastEntryIndex := by
    intro p hp hrole hterm
    by_cases hj : p.1 = id
    · rw [hj, hself] at hrole hterm ⊢
      rcases hc.terms.office with ⟨hsame, hlead⟩ | hwon
      · obtain ⟨hrole', hterm'⟩ := hlead hrole
        have hold := h.below p hp (hj ▸ hrole') (by rw [hj, ← hterm']; exact hterm)
        rw [hj] at hold
        exact hold.trans (hc.last h.inOrder honce.byLeader hrole hsame)
      · obtain ⟨hpid, hpterm⟩ := h.creator p hp
        have hwas : t.currTerm ∉ (w.servers p.1).elections :=
          hfresh _ (by simp [hwon]) p.1 hpid
        have hterm' : t.currTerm = p.2.term := hterm
        exact absurd (hterm' ▸ hpterm) hwas
    · rw [hother _ hj] at hrole hterm ⊢
      exact h.below p hp hrole hterm
  have hcreator : ∀ p ∈ history, p.1 ∈ w'.ids ∧ p.2.term ∈ (w'.servers p.1).elections :=
    fun p hp => ⟨hids ▸ (h.creator p hp).1, holder _ (h.creator p hp).1 _ (h.creator p hp).2⟩
  have hreached : ∀ j ∈ w'.ids, ∀ x ∈ (w'.servers j).elections, x ≤ (w'.servers j).currTerm := by
    intro j hj x hx
    rw [hids] at hj
    by_cases hjid : j = id
    · subst hjid
      rcases hnew j hj x hx with hold | ⟨-, rfl, -⟩
      · rw [hself]
        exact (h.reached j hj x hold).trans hc.terms.term
      · rw [hself]
    · rw [hother j hjid] at hx ⊢
      exact h.reached j hj x hx
  have hleader : ∀ j ∈ w'.ids, (w'.servers j).role = .leader →
      (w'.servers j).currTerm ∈ (w'.servers j).elections := by
    intro j hj hrole
    rw [hids] at hj
    by_cases hjid : j = id
    · subst hjid
      rw [hself] at hrole ⊢
      rcases hc.terms.office with ⟨hsame, hlead⟩ | hwon
      · obtain ⟨hrole', hterm'⟩ := hlead hrole
        have hold := h.leader j hj hrole'
        rw [← hterm', ← hsame] at hold
        exact hold
      · change t.currTerm ∈ t.elections
        simp [hwon]
    · rw [hother j hjid] at hrole ⊢
      exact h.leader j hj hrole
  have hwinner : ∀ i ∈ w'.ids, ∀ j ∈ w'.ids, ∀ x ∈ (w'.servers i).elections,
      x ∈ (w'.servers j).elections → i = j := by
    intro i hi j hj x hxi hxj
    rw [hids] at hi hj
    rcases hnew i hi x hxi with hi' | ⟨rfl, -, hnone⟩
    · rcases hnew j hj x hxj with hj' | ⟨rfl, -, hnone⟩
      · exact h.winner i hi j hj x hi' hj'
      · exact absurd hi' (hnone i hi)
    · rcases hnew j hj x hxj with hj' | ⟨rfl, -, -⟩
      · exact absurd hj' (hnone j hj)
      · rfl
  rcases hmade with hnone | ⟨x, hx, hrole, -, helection, hterm, hindex, hlast⟩
  · rw [hnone, List.append_nil]
    exact ⟨hinOrder, hreached, hleader, hwinner, hcreator, hbelow, h.unique⟩
  have hwon : x.term ∈ (w.servers id).elections := hterm ▸ h.leader id hc.mem hrole
  -- the entries of this term are below the new one
  have hapart : ∀ p ∈ history, p.2.index = x.index → p.2.term = x.term → p = (id, x) := by
    intro p hp hi ht
    obtain ⟨hpid, hpterm⟩ := h.creator p hp
    have hj : p.1 = id := h.winner p.1 hpid id hc.mem _ hpterm (ht ▸ hwon)
    have hle := h.below p hp (hj ▸ hrole) (by rw [hj, ← hterm, ht])
    rw [hj] at hle
    omega
  rw [hx]
  refine ⟨hinOrder, hreached, hleader, hwinner, fun p hp => ?_, fun p hp => ?_,
    fun p hp q hq => ?_⟩
  · rcases List.mem_append.mp hp with hp | hp
    · exact hcreator p hp
    · obtain rfl := List.mem_singleton.mp hp
      exact ⟨hids ▸ hc.mem, holder id hc.mem _ hwon⟩
  · rcases List.mem_append.mp hp with hp | hp
    · exact hbelow p hp
    · obtain rfl := List.mem_singleton.mp hp
      intro _ _
      rw [hself]
      exact hlast.ge
  · rcases List.mem_append.mp hp with hp | hp <;> rcases List.mem_append.mp hq with hq | hq
    · exact h.unique p hp q hq
    · obtain rfl := List.mem_singleton.mp hq
      exact hapart p hp
    · obtain rfl := List.mem_singleton.mp hp
      exact fun hi ht => (hapart q hq hi.symm ht.symm).symm
    · rw [List.mem_singleton.mp hp, List.mem_singleton.mp hq]
      exact fun _ _ => rfl

private theorem created_run {es : List Event} {history : List (Bytes × LogEntry)}
    (h : w.Created history) (honce : Along step CreatesOnce w es)
    (hrun : run step w es = some w') : w'.Created (history ++ w.creations es) := by
  induction es generalizing w history with
  | nil =>
      obtain rfl : w = w' := by simpa [run] using hrun
      simpa [creations] using h
  | cons e es ih =>
      obtain ⟨m, hm, hrest⟩ := run_cons.mp hrun
      have hnext := ih (created_step h honce.1 hm) (honce.2 m hm) hrest
      simpa [creations, hm] using hnext

/--
In a run in which leaders deploy new servers, terms are won once and committed
work is kept, only a leader creates entries, of its term, and no two of them
have one index and one term.
-/
theorem leader_creates {es : List Event} {w'' : World} (hstart : w.Unled)
    (honce : Along step CreatesOnce w es) (hrun : run step w es = some w')
    (hnext : w'.CreatesOnce e) (hstep : w'.step e = some w'') :
    (∀ p ∈ w'.made e w'', (w'.servers p.1).role = .leader ∧
        p.2.term = (w'.servers p.1).currTerm ∧ (w''.servers p.1).role = .leader ∧
        p.2.term = (w''.servers p.1).currTerm) ∧
      ∀ p ∈ w.creations es ++ w'.made e w'', ∀ q ∈ w.creations es ++ w'.made e w'',
        p.2.index = q.2.index → p.2.term = q.2.term → p = q := by
  have h : w'.Created (w.creations es) := created_run hstart.created honce hrun
  refine ⟨fun p hp => ?_, (created_step h hnext hstep).unique⟩
  obtain ⟨id, t, hc⟩ := creates_step hstep
  rcases hc.made hnext.byLeader with hnone | ⟨x, hx, hrole, -, helection, hterm, -⟩
  · rw [hnone] at hp
    cases hp
  · rw [hx, List.mem_singleton] at hp
    subst hp
    obtain ⟨calls, hw''⟩ := hc.act
    have hafter : (w''.servers id).toElection = (w'.servers id).toElection := by
      rw [hw'', act_self]
      exact helection
    exact ⟨hrole, hterm, by rw [hafter]; exact hrole, by rw [hafter]; exact hterm⟩

private theorem unled_cluster : (cluster ["a:1", "b:1", "c:1"] true).Unled :=
  ⟨inOrder_cluster, by decide, by decide⟩

theorem leader_creates_removal :
    ∃ w' w'', run step (cluster ["a:1", "b:1", "c:1"] true)
        [.electionTimeout (ascii "a:1"), .handle 0 false, .succeed 0 false, .handle 3 false,
          .succeed 3 false, .append (ascii "a:1") (ascii "x")] = some w' ∧
      w'.step (.delServer (ascii "a:1") (ascii "c:1")) = some w'' ∧
      (w'.made (.delServer (ascii "a:1") (ascii "c:1")) w'').length = 1 ∧
      ∀ p ∈ w'.made (.delServer (ascii "a:1") (ascii "c:1")) w'',
        (w'.servers p.1).role = .leader ∧ p.2.term = (w'.servers p.1).currTerm := by
  refine ⟨_, _, (Option.some_get (by decide)).symm, (Option.some_get (by decide)).symm,
    by decide, fun p hp => ?_⟩
  have h := (leader_creates unled_cluster (by decide) (Option.some_get (by decide)).symm
    (by decide) (Option.some_get (by decide)).symm).1 p hp
  exact ⟨h.1, h.2.1⟩

/--
The leader `a` of term 2 is about to add a server when `b` wins term 3 with its
vote and creates an entry.  The last call to the new server fails, and `a`
appends its configuration as a follower, in term 3.
-/
def deposedAddition : List Event :=
  [.electionTimeout (ascii "a:1"), .handle 0 false, .succeed 0 false, .handle 3 false,
    .succeed 3 false, .addServer (ascii "a:1") (ascii "10.0.0.4:1"), .fail 6 true, .fail 7 true,
    .fail 8 true, .fail 9 true, .fail 10 true, .fail 11 true, .fail 12 true, .fail 13 true,
    .fail 14 true, .handle 4 false, .electionTimeout (ascii "b:1"), .handle 17 false,
    .succeed 17 false, .handle 18 false, .succeed 18 false, .append (ascii "b:1") (ascii "x")]

theorem follower_creates :
    ¬ ∀ (w w' w'' : World) (es : List Event) (e : Event), w.Unled → run step w es = some w' →
      w'.step e = some w'' →
      (∀ p ∈ w'.made e w'', (w'.servers p.1).role = .leader) ∧
        ∀ p ∈ w.creations es, ∀ q ∈ w'.made e w'',
          p.2.index = q.2.index → p.2.term = q.2.term → p = q := by
  intro h
  have hstart : (cluster ["a:1", "b:1", "c:1"] false).Unled := by
    have hlog : ((cluster ["a:1", "b:1", "c:1"] false).servers []).log.Holds
        [{ term := 1, index := 1, data := ascii "a:1,b:1,c:1", config := true }] := by decide
    exact ⟨inOrder_boot hlog, by decide, by decide⟩
  have hrun := (Option.some_get (show (run step (cluster ["a:1", "b:1", "c:1"] false)
    deposedAddition).isSome by decide)).symm
  have hstep := (Option.some_get (show (run step (cluster ["a:1", "b:1", "c:1"] false)
    (deposedAddition ++ [.fail 15 true])).isSome by decide)).symm
  have hlead := (h _ _ _ deposedAddition (.fail 15 true) hstart hrun hstep).1
  exact absurd hlead (by decide)

end World

end Draft
