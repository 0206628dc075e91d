import Mathlib.Logic.Function.Basic
import Draft.Raft.Cluster
import Draft.Raft.Moves

/-!
# Steps of the cluster

What a handler and a callback do besides a turn: a vote is given, entries are
accepted, the base of another log is taken over; a vote is counted, the match
of a follower is recorded.  With this every step of the cluster is the turn of
one server, and at most one of these in it.
-/

namespace Draft

namespace Raft

variable {late : Prop} {s t : Raft}

/-! ## The term checks of the handlers -/

theorem stepDown_election (s : Raft) (term : Nat) (curLeader : Bytes) :
    (s.stepDown term curLeader).toElection =
      { s.toElection with role := .follower, currTerm := term } :=
  (quiet_endLeadershipTransfer _ curLeader : Quiet True _ _).election

@[simp] theorem stepDown_replica (s : Raft) (term : Nat) (curLeader : Bytes) :
    (s.stepDown term curLeader).toReplica = s.toReplica :=
  (quiet_endLeadershipTransfer _ curLeader : Quiet True _ _).replica

@[simp] theorem heedCandidate_replica (s : Raft) (term : Nat) :
    (s.heedCandidate term).toReplica = s.toReplica := by
  unfold heedCandidate
  split
  · exact stepDown_replica _ _ _
  · rfl

@[simp] theorem stepDown_currTerm (s : Raft) (term : Nat) (curLeader : Bytes) :
    (s.stepDown term curLeader).currTerm = term :=
  congrArg Election.currTerm (stepDown_election s term curLeader)

@[simp] theorem stepDown_role (s : Raft) (term : Nat) (curLeader : Bytes) :
    (s.stepDown term curLeader).role = .follower :=
  congrArg Election.role (stepDown_election s term curLeader)

theorem heedCandidate_currTerm {term : Nat} (h : s.currTerm ≤ term) :
    (s.heedCandidate term).currTerm = term := by
  unfold heedCandidate
  split
  · exact stepDown_currTerm _ _ _
  · omega

@[simp] theorem heedLeader_replica (s : Raft) (term : Nat) (leaderId : Bytes) :
    (s.heedLeader term leaderId).toReplica = s.toReplica := by
  unfold heedLeader
  split
  · exact stepDown_replica _ _ _
  · rfl

theorem heedLeader_election {term : Nat} (h : s.currTerm ≤ term) (leaderId : Bytes) :
    (s.heedLeader term leaderId).currTerm = term ∧
      (s.heedLeader term leaderId).role = .follower := by
  unfold heedLeader
  split
  · exact ⟨stepDown_currTerm _ _ _, stepDown_role _ _ _⟩
  · exact ⟨by dsimp only; omega, rfl⟩

@[simp] theorem followSender_replica (s : Raft) (term : Nat) (leaderId : Bytes) :
    (s.followSender term leaderId).toReplica = s.toReplica := by
  change (if s.currTerm < term then s.acceptTerm term leaderId else s : Raft).toReplica = _
  split
  · exact stepDown_replica _ _ _
  · rfl

theorem followSender_election {term : Nat} (h : s.currTerm ≤ term) (leaderId : Bytes) :
    (s.followSender term leaderId).currTerm = term ∧
      (s.followSender term leaderId).role = .follower := by
  refine ⟨?_, rfl⟩
  change (if s.currTerm < term then s.acceptTerm term leaderId else s : Raft).currTerm = term
  split
  · exact stepDown_currTerm _ _ _
  · omega

/-! ## Handlers -/

def Response.positive : Request → Response → Prop
  | .requestVote _, .vote res => res.voteGranted = true
  | .appendEntries _, .append res => res.success = true
  | _, _ => False

inductive Serves (late : Prop) (s : Raft) : Request → Raft → Response → Prop
  | turn {req : Request} {t : Raft} {res : Response} (h : Turn late s t)
      (hres : ¬ Response.positive req res) : Serves late s req t res
  | grant (req : VoteReq) (hterm : s.currTerm ≤ req.term)
      (hfree : (s.heedCandidate req.term).votedFor = [] ∨
        (s.heedCandidate req.term).votedFor = req.candidateId)
      (hlog : ¬ s.logAhead req) :
      Serves late s (.requestVote req) ((s.heedCandidate req.term).castVote req.candidateId)
        (.vote ⟨req.term, true⟩)
  | accept (req : AppendEntriesReq) (log : EntryLogger) (hterm : s.currTerm ≤ req.term)
      (hprev : s.log.hasEntry req.prevLogIndex req.prevLogTerm)
      (hmerge : mergeEntries s.log req.entries = some log) :
      Serves late s (.appendEntries req)
        ((s.heedLeader req.term req.leaderId).followEntries log req)
        (.append (((s.heedLeader req.term req.leaderId).followEntries log req).appendResult true))
  | install (req : DataReq) (hterm : s.currTerm ≤ req.term) (hid : req.id = 1)
      (hcompaction : s.logCompactionEnabled) (res : Response) :
      Serves late s (.dataTransfer req)
        (Raft.installBase
          { s.followSender req.term req.leaderId with electionTimer := false } req) res

private theorem serves_timeoutNow (hs : s.Settled) (req : VoteReq) :
    Serves late s (.timeoutNow req) s.handleTimeoutNow.1 (.vote s.handleTimeoutNow.2) := by
  have timer : Quiet late s { s with electionTimer := false } :=
    .books rfl rfl (fun h => h) rfl rfl
  exact .turn (timer.turn.trans (turn_preVote (timer.settled hs) true)) fun h => h

private theorem serves_requestVote (s : Raft) (req : VoteReq) :
    Serves late s (.requestVote req) (s.handleRequestVote req).1
      (.vote (s.handleRequestVote req).2) := by
  have hlog : (s.heedCandidate req.term).logAhead req = s.logAhead req := by
    simp only [logAhead, heedCandidate_replica]
  have refuse : ∀ term, Serves late s (.requestVote req) (s.heedCandidate req.term)
      (.vote ⟨term, false⟩) :=
    fun _ => .turn (turn_heedCandidate s req.term) Bool.false_ne_true
  unfold handleRequestVote
  dsimp only
  split
  · exact refuse _
  split
  · exact refuse _
  split
  · exact refuse _
  · rename_i hterm hvoted hahead
    refine .grant req ?_ ?_ (hlog ▸ hahead)
    · by_contra hlt
      have : s.heedCandidate req.term = s := if_neg (by omega)
      rw [this] at hterm
      omega
    · by_cases hnil : (s.heedCandidate req.term).votedFor = []
      · exact .inl hnil
      · exact .inr (Decidable.not_not.mp fun hne => hvoted ⟨hnil, Ne.symm hne⟩)

private theorem serves_appendEntries (s : Raft) (req : AppendEntriesReq) :
    Serves late s (.appendEntries req) (s.handleAppendEntries req).1
      (.append (s.handleAppendEntries req).2) := by
  unfold handleAppendEntries
  split
  · exact .turn (.refl s) Bool.false_ne_true
  · rename_i hterm
    have refuse : Serves late s (.appendEntries req) (s.heedLeader req.term req.leaderId)
        (.append ((s.heedLeader req.term req.leaderId).appendResult false)) :=
      .turn (turn_heedLeader s req.term req.leaderId) Bool.false_ne_true
    unfold acceptEntries
    rw [heedLeader_replica]
    split
    · exact refuse
    · rename_i hprev
      cases hmerge : mergeEntries s.log req.entries with
      | none => exact refuse
      | some log => exact .accept req log (by omega) (Decidable.not_not.mp hprev) hmerge

private theorem serves_dataTransfer (s : Raft) (req : DataReq) :
    Serves late s (.dataTransfer req) (s.handleDataTransfer req).1
      (.data (s.handleDataTransfer req).2) := by
  have follow : Turn late s (s.followSender req.term req.leaderId) :=
    turn_followSender s req.term req.leaderId
  unfold handleDataTransfer
  split
  · exact .turn (.refl s) fun h => h
  · rename_i hterm
    dsimp only
    split
    · rename_i hid
      unfold beginTransfer
      dsimp only
      split
      · rename_i hcompaction
        rw [follow.settings] at hcompaction
        exact .install req (by omega) hid hcompaction _
      · exact .turn (follow.trans (Quiet.turn (.books rfl rfl (fun h => h) rfl rfl))) fun h => h
    · exact .turn follow fun h => h

private theorem serves_doneTransfer (s : Raft) (req : DoneReq) :
    Serves late s (.doneTransfer req) (s.handleDoneTransfer req).1
      (.data (s.handleDoneTransfer req).2) := by
  have follow : Turn late s (s.followSender req.term req.leaderId) :=
    turn_followSender s req.term req.leaderId
  unfold handleDoneTransfer
  split
  · exact .turn (.refl s) fun h => h
  · dsimp only
    split
    · exact .turn follow fun h => h
    · exact .turn (follow.trans (Quiet.turn (.books rfl rfl (fun h => h) rfl rfl))) fun h => h

theorem serves (hs : s.Settled) (recent : Bool) (req : Request) :
    Serves late s req (s.serve recent req).1 (s.serve recent req).2 := by
  cases req with
  | timeoutNow req => exact serves_timeoutNow hs req
  | preVote req => exact .turn (.refl s) fun h => h
  | requestVote req => exact serves_requestVote s req
  | appendEntries req => exact serves_appendEntries s req
  | dataTransfer req => exact serves_dataTransfer s req
  | doneTransfer req => exact serves_doneTransfer s req

/-! ## The configuration read from a log -/

private theorem adjustConfiguration_election (s : Raft) (config : Bytes) :
    (s.adjustConfiguration config).toElection = s.toElection := by
  unfold adjustConfiguration
  split <;> rfl

theorem adjustConfiguration_replica (s : Raft) (config : Bytes) :
    (s.adjustConfiguration config).toReplica = s.toReplica := by
  unfold adjustConfiguration
  split <;> rfl

theorem adjustConfiguration_sent (s : Raft) (config : Bytes) :
    (s.adjustConfiguration config).sent = s.sent := by
  unfold adjustConfiguration
  split <;> rfl

theorem adjustConfiguration_recfg (s : Raft) (config : Bytes) :
    (s.adjustConfiguration config).recfg = s.recfg := by
  unfold adjustConfiguration
  split <;> rfl

/-- One turn of the loops over the addresses of a configuration. -/
def enlist (node : Bytes → Node) (cluster : List (Bytes × Node)) (address : Bytes) :
    List (Bytes × Node) :=
  if cluster.any (·.1 = address) then cluster else cluster ++ [(address, node address)]

section Enlist

variable {node : Bytes → Node} {addresses : List Bytes} {cluster : List (Bytes × Node)}

theorem mem_foldl_enlist {p : Bytes × Node} (hp : p ∈ addresses.foldl (enlist node) cluster) :
    p ∈ cluster ∨ p.1 ∈ addresses ∧ p.2 = node p.1 := by
  induction addresses generalizing cluster with
  | nil => exact .inl hp
  | cons address rest ih =>
      rcases ih hp with hold | ⟨hmem, hnode⟩
      · unfold enlist at hold
        split at hold
        · exact .inl hold
        · rcases List.mem_append.mp hold with hold | hnew
          · exact .inl hold
          · obtain rfl := List.mem_singleton.mp hnew
            exact .inr ⟨List.mem_cons_self, rfl⟩
      · exact .inr ⟨List.mem_cons_of_mem _ hmem, hnode⟩

theorem foldl_enlist_keys (a : Bytes) :
    a ∈ (addresses.foldl (enlist node) cluster).map (·.1) ↔
      a ∈ cluster.map (·.1) ∨ a ∈ addresses := by
  induction addresses generalizing cluster with
  | nil => simp
  | cons address rest ih =>
      have hturn : a ∈ (enlist node cluster address).map (·.1) ↔
          a ∈ cluster.map (·.1) ∨ a = address := by
        unfold enlist
        split
        · rename_i hheld
          simp only [List.any_eq_true, decide_eq_true_eq] at hheld
          obtain ⟨p, hp, rfl⟩ := hheld
          simp only [iff_self_or]
          rintro rfl
          exact List.mem_map_of_mem hp
        · simp
      rw [List.foldl_cons, ih, hturn, List.mem_cons, or_assoc]

theorem foldl_enlist_nodup (h : (cluster.map (·.1)).Nodup) :
    ((addresses.foldl (enlist node) cluster).map (·.1)).Nodup := by
  induction addresses generalizing cluster with
  | nil => exact h
  | cons address rest ih =>
      refine ih ?_
      unfold enlist
      split
      · exact h
      · rename_i hnew
        rw [List.map_append, List.nodup_append]
        refine ⟨h, by simp, ?_⟩
        intro a ha b hb
        obtain rfl : b = address := by simpa using hb
        rintro rfl
        obtain ⟨p, hp, rfl⟩ := List.mem_map.mp ha
        exact hnew (List.any_eq_true.mpr ⟨p, hp, by simp⟩)

end Enlist

theorem adjustConfiguration_cluster {config : Bytes} (h : config ≠ []) (s : Raft) :
    (s.adjustConfiguration config).cluster =
      ((split 44 config).foldl (enlist fun a => s.makeNode a defaultRpcPort) s.cluster).filter
        (·.1 ∈ split 44 config) := by
  rw [adjustConfiguration, if_neg h]
  rfl

private theorem adjustConfiguration_next (h : ∀ p ∈ s.cluster, 0 < p.2.nextIndex) (config : Bytes) :
    ∀ p ∈ (s.adjustConfiguration config).cluster, 0 < p.2.nextIndex := by
  by_cases hconfig : config = []
  · rw [adjustConfiguration, if_pos hconfig]
    exact h
  · intro p hp
    rw [adjustConfiguration_cluster hconfig] at hp
    rcases mem_foldl_enlist (List.mem_of_mem_filter hp) with hold | ⟨-, hnode⟩
    · exact h p hold
    · rw [hnode]
      exact Nat.succ_pos _

theorem learnCommit_frame (s : Raft) (leaderCommit : Nat) :
    (s.learnCommit leaderCommit).toElection = s.toElection ∧
      (s.learnCommit leaderCommit).recfg = s.recfg ∧
      (s.learnCommit leaderCommit).cluster = s.cluster ∧
      (s.learnCommit leaderCommit).sent = s.sent := by
  unfold learnCommit
  split
  · exact ⟨rfl, rfl, rfl, rfl⟩
  · exact ⟨rfl, rfl, rfl, rfl⟩

theorem followEntries_election (s : Raft) (log : EntryLogger) (req : AppendEntriesReq) :
    (s.followEntries log req).toElection = s.toElection := by
  have learn := (learnCommit_frame { s with log := log } req.leaderCommit).1
  unfold followEntries
  dsimp only
  split
  · rw [adjustConfiguration_election]
    exact learn
  · exact learn

theorem followEntries_recfg (s : Raft) (log : EntryLogger) (req : AppendEntriesReq) :
    (s.followEntries log req).recfg = s.recfg := by
  have learn := (learnCommit_frame { s with log := log } req.leaderCommit).2.1
  unfold followEntries
  dsimp only
  split
  · rw [adjustConfiguration_recfg]
    exact learn
  · exact learn

theorem followEntries_next (h : ∀ p ∈ s.cluster, 0 < p.2.nextIndex) (log : EntryLogger)
    (req : AppendEntriesReq) : ∀ p ∈ (s.followEntries log req).cluster, 0 < p.2.nextIndex := by
  have learn := (learnCommit_frame { s with log := log } req.leaderCommit).2.2.1
  have hlearn : ∀ p ∈ (Raft.learnCommit { s with log := log } req.leaderCommit).cluster,
      0 < p.2.nextIndex := by
    rw [learn]
    exact h
  unfold followEntries
  dsimp only
  split
  · refine adjustConfiguration_next ?_ _
    exact hlearn
  · exact hlearn

theorem followEntries_replica (s : Raft) (log : EntryLogger) (req : AppendEntriesReq) :
    (s.followEntries log req).toReplica = { s.toReplica with
      log := log
      commitIndex := if s.commitIndex < req.leaderCommit
        then min req.leaderCommit log.lastEntryIndex else s.commitIndex } := by
  have learn : (Raft.learnCommit { s with log := log } req.leaderCommit).toReplica =
      { s.toReplica with
        log := log
        commitIndex := if s.commitIndex < req.leaderCommit
          then min req.leaderCommit log.lastEntryIndex else s.commitIndex } := by
    unfold learnCommit
    dsimp only
    split <;> rfl
  unfold followEntries
  dsimp only
  split
  · rw [adjustConfiguration_replica]
    exact learn
  · exact learn

theorem followEntries_sent (s : Raft) (log : EntryLogger) (req : AppendEntriesReq) :
    (s.followEntries log req).sent = s.sent := by
  have learn := (learnCommit_frame { s with log := log } req.leaderCommit).2.2.2
  unfold followEntries
  dsimp only
  split
  · rw [adjustConfiguration_sent]
    exact learn
  · exact learn

private theorem settled_followEntries (hs : s.Settled) (log : EntryLogger) (req : AppendEntriesReq) :
    (s.followEntries log req).Settled :=
  ⟨(followEntries_recfg s log req).trans hs.recfg, followEntries_next hs.next log req⟩

theorem installBase_election (s : Raft) (req : DataReq) :
    (s.installBase req).toElection = s.toElection :=
  adjustConfiguration_election _ _

theorem installBase_replica (s : Raft) (req : DataReq) :
    (s.installBase req).toReplica = { s.toReplica with
      log := ((s.log.chop (s.log.lastIndex + 1)).getD s.log).copyStates req.lastConfig
        req.lastIndex req.lastTerm
      commitIndex := req.lastIndex
      lastApplied := req.lastIndex } := by
  let t : Raft := { s with
    log := (s.log.chop (s.log.lastIndex + 1)).getD s.log
    commitIndex := req.lastIndex
    lastApplied := req.lastIndex }
  have hreplica : (t.adjustConfiguration req.lastConfig).toReplica = t.toReplica :=
    adjustConfiguration_replica t _
  change ({ (t.adjustConfiguration req.lastConfig).toReplica with
    log := (t.adjustConfiguration req.lastConfig).toReplica.log.copyStates req.lastConfig
      req.lastIndex req.lastTerm } : Replica) = _
  rw [hreplica]

theorem installBase_sent (s : Raft) (req : DataReq) : (s.installBase req).sent = s.sent :=
  adjustConfiguration_sent _ _

theorem installBase_recfg (s : Raft) (req : DataReq) : (s.installBase req).recfg = s.recfg :=
  adjustConfiguration_recfg _ _

theorem installBase_next (h : ∀ p ∈ s.cluster, 0 < p.2.nextIndex) (req : DataReq) :
    ∀ p ∈ (s.installBase req).cluster, 0 < p.2.nextIndex := by
  let t : Raft := { s with
    log := (s.log.chop (s.log.lastIndex + 1)).getD s.log
    commitIndex := req.lastIndex
    lastApplied := req.lastIndex }
  have ht : ∀ p ∈ t.cluster, 0 < p.2.nextIndex := h
  exact adjustConfiguration_next ht req.lastConfig

private theorem settled_installBase (hs : s.Settled) (req : DataReq) : (s.installBase req).Settled :=
  ⟨(installBase_recfg s req).trans hs.recfg, installBase_next hs.next req⟩

theorem Serves.settings {req : Request} {res : Response} (h : Serves late s req t res) :
    t.toSettings = s.toSettings := by
  cases h with
  | turn h => exact h.settings
  | grant req => exact (turn_heedCandidate s req.term : Turn late s _).settings
  | accept req log =>
      rw [followEntries_election]
      exact (turn_heedLeader s req.term req.leaderId : Turn late s _).settings
  | install req =>
      rw [installBase_election]
      exact (turn_followSender s req.term req.leaderId : Turn late s _).settings

theorem Serves.settled {req : Request} {res : Response} (h : Serves late s req t res)
    (hs : s.Settled) : t.Settled := by
  cases h with
  | turn h => exact h.settled hs
  | grant req =>
      have h := (turn_heedCandidate s req.term : Turn late s _).settled hs
      exact ⟨h.recfg, h.next⟩
  | accept req log =>
      exact settled_followEntries
        ((turn_heedLeader s req.term req.leaderId : Turn late s _).settled hs) log req
  | install req =>
      have h := (turn_followSender s req.term req.leaderId : Turn late s _).settled hs
      refine settled_installBase ?_ req
      exact ⟨h.recfg, h.next⟩

/-! ## Callbacks -/

inductive Finishes (late : Prop) (s : Raft) (id : Bytes) : Request → Response → Raft → Prop
  | turn {req : Request} {res : Response} {t : Raft} (h : Turn late s t) :
      Finishes late s id req res t
  | count (req : VoteReq) (res : VoteRes) {t : Raft} (hrole : s.role = .candidate)
      (hgranted : res.voteGranted) (hterm : s.currTerm ≤ res.term)
      (h : Turn late { s with votes := s.votes + 1 } t) :
      Finishes late s id (.requestVote req) (.vote res) t
  | record (req : AppendEntriesReq) (res : AppendEntriesRes) {t : Raft}
      (hrole : s.role = .leader) (hsuccess : res.success)
      (h : Turn late (s.recordMatch id res.matchIndex) t) :
      Finishes late s id (.appendEntries req) (.append res) t

private theorem settled_recordMatch (hs : s.Settled) (id : Bytes) (matchIndex : Nat) :
    (s.recordMatch id matchIndex).Settled where
  recfg := by simp [recordMatch, modifyNode, hs.recfg]
  next := by
    intro p hp
    obtain ⟨q, hq, rfl⟩ := List.mem_map.mp hp
    split
    · exact Nat.succ_pos _
    · exact hs.next q hq

theorem Settled.newly (hs : s.Settled) (id : Bytes) : s.newly id = false := by
  simp [Raft.newly, hs.recfg]

private theorem turn_onAppendSuccess (hs : s.Settled) (hrole : s.role = .leader) (id : Bytes)
    (matchIndex : Nat) (quick : Bool) :
    Turn late (s.recordMatch id matchIndex) (s.onAppendSuccess id matchIndex quick) := by
  have commit : Move late (s.recordMatch id matchIndex)
      (s.recordMatch id matchIndex).adjustCommitIndex := .commit hrole
  have hcommit := commit.settled (settled_recordMatch hs id matchIndex)
  refine commit.turn.trans ?_
  have next : ∀ t : Raft, t.Settled →
      Turn late t (if t.newly id then t.handleCatchUpServerAppendEntries quick else t) := by
    intro t ht
    rw [if_neg (by simp [ht.newly])]
    exact .refl t
  unfold onAppendSuccess
  dsimp only
  split
  · exact .refl _
  · split
    · have transfer : Quiet late (s.recordMatch id matchIndex).adjustCommitIndex
          ((s.recordMatch id matchIndex).adjustCommitIndex.handleTransferLeaderTo id) :=
        quiet_handleTransferLeaderTo _ id
      exact transfer.turn.trans (next _ (transfer.settled hcommit))
    · exact next _ hcommit

private theorem finishes_requestVote (hs : s.Settled) (id : Bytes) (req : VoteReq) (res : VoteRes) :
    Finishes late s id (.requestVote req) (.vote res) (s.onRequestVote (some res)) := by
  unfold onRequestVote
  dsimp only
  split
  · exact .turn (.refl s)
  · rename_i hrole
    have hcandidate : s.role = .candidate := Decidable.not_not.mp hrole
    split
    · rename_i hgranted
      split
      · exact .turn (.refl s)
      · rename_i hterm
        refine .count req res hcandidate hgranted (by omega) ?_
        unfold countVote
        dsimp only
        split
        · rename_i hvotes
          exact turn_stepUp ⟨hs.recfg, hs.next⟩ hcandidate hvotes
        · exact .refl _
    · split
      · rename_i hterm
        exact .turn (turn_stepDown hterm [])
      · exact .turn (.refl s)

private theorem finishes_appendEntries (hs : s.Settled) (id : Bytes) (quick : Bool)
    (req : AppendEntriesReq) (res : AppendEntriesRes) :
    Finishes late s id (.appendEntries req) (.append res)
      (s.onAppendEntries id (some res) quick) := by
  unfold onAppendEntries
  dsimp only
  split
  · exact .turn (.refl s)
  · rename_i hrole
    have hlead : s.role = .leader := Decidable.not_not.mp hrole
    split
    · rename_i hsuccess
      exact .record req res hlead hsuccess (turn_onAppendSuccess hs hlead id _ quick)
    · split
      · rename_i hterm
        exact .turn (turn_stepDown hterm id)
      · exact .turn (quiet_onAppendInconsistent hs hlead id _).turn

theorem Finishes.settings {id : Bytes} {req : Request} {res : Response}
    (h : Finishes late s id req res t) : t.toSettings = s.toSettings := by
  cases h with
  | turn h => exact h.settings
  | count _ _ _ _ _ h => exact h.settings
  | record _ _ _ _ h => exact h.settings

theorem Finishes.settled {id : Bytes} {req : Request} {res : Response}
    (h : Finishes late s id req res t) (hs : s.Settled) : t.Settled := by
  cases h with
  | turn h => exact h.settled hs
  | count _ _ _ _ _ h => exact h.settled ⟨hs.recfg, hs.next⟩
  | record _ res _ _ h => exact h.settled (settled_recordMatch hs id res.matchIndex)

/-- The two answers after which the callback sends without a look at the role. -/
def Response.endsTransfer (sender : Sender) : Request → Response → Bool
  | .dataTransfer _, .data res => res.success && transferFinished sender.advance
  | .doneTransfer _, .data res => res.success
  | _, _ => false

private theorem turn_onDataTransfer (hs : s.Settled) (id : Bytes) (res : DataRes)
    (hlead : res.success = true → transferFinished s.sender.advance = true →
      s.role = .leader ∨ late) : Turn late s (s.onDataTransfer id (some res)) := by
  have advance : Quiet late s { s with sender := s.sender.advance } := .sender s _
  unfold onDataTransfer
  refine advance.turn.trans ?_
  dsimp only
  split
  · rename_i hsuccess
    unfold onDataSuccess
    split
    · rename_i hfinished
      refine Quiet.turn ((Quiet.sender _ _).trans (quiet_doDoneTransfer ?_ id))
      exact hlead hsuccess hfinished
    · exact (quiet_doDataTransfer (advance.settled hs) id).turn
  · split
    · rename_i hterm
      refine turn_stepDown ?_ id
      exact hterm
    · exact .refl _

private theorem turn_onDoneTransfer (hs : s.Settled) (id : Bytes) (res : DataRes)
    (hlead : res.success = true → s.role = .leader ∨ late) :
    Turn late s (s.onDoneTransfer id (some res)) := by
  unfold onDoneTransfer
  dsimp only
  split
  · rename_i hsuccess
    have start : Quiet late s
        (s.initTransfer.modifyNode id fun n => { n with transferDataTo := false }) :=
      (Quiet.initTransfer s).trans (.modifyNode (fun _ => rfl) (fun _ => rfl) fun _ h => h)
    exact (start.trans (quiet_appendEntriesTo (start.settled hs) (hlead hsuccess) id)).turn
  · split
    · rename_i hterm
      exact turn_stepDown hterm id
    · exact .refl _

theorem finishes (hs : s.Settled) (id : Bytes) (quick : Bool) (req : Request) (res : Response)
    (hlead : Response.endsTransfer s.sender req res → s.role = .leader ∨ late) :
    Finishes late s id req res (s.finish id quick req (some res)) := by
  cases req with
  | timeoutNow req =>
      cases res with
      | vote res => exact .turn (quiet_onTimeoutNow s id _).turn
      | append res => exact .turn (.refl s)
      | data res => exact .turn (.refl s)
  | preVote req =>
      cases res with
      | vote res => exact .turn (turn_onPreVote hs _)
      | append res => exact .turn (.refl s)
      | data res => exact .turn (.refl s)
  | requestVote req =>
      cases res with
      | vote res => exact finishes_requestVote hs id req res
      | append res => exact .turn (.refl s)
      | data res => exact .turn (.refl s)
  | appendEntries req =>
      cases res with
      | vote res => exact .turn (.refl s)
      | append res => exact finishes_appendEntries hs id quick req res
      | data res => exact .turn (.refl s)
  | dataTransfer req =>
      cases res with
      | vote res => exact .turn (.refl s)
      | append res => exact .turn (.refl s)
      | data res => exact .turn (turn_onDataTransfer hs id res fun h k =>
          hlead (by simp [Response.endsTransfer, h, k]))
  | doneTransfer req =>
      cases res with
      | vote res => exact .turn (.refl s)
      | append res => exact .turn (.refl s)
      | data res => exact .turn (turn_onDoneTransfer hs id res hlead)

private theorem turn_fail (hs : s.Settled) (id : Bytes) (quick : Bool) (req : Request) :
    Turn late s (s.finish id quick req none) := by
  cases req with
  | timeoutNow req => exact (quiet_onTimeoutNow s id _).turn
  | preVote req => exact turn_onPreVote hs _
  | requestVote req => exact .refl s
  | appendEntries req =>
      simp only [finish, onAppendEntries, hs.newly]
      exact .refl s
  | dataTransfer req =>
      simp only [finish, onDataTransfer, hs.newly]
      exact .refl s
  | doneTransfer req =>
      simp only [finish, onDoneTransfer, hs.newly]
      exact .refl s

end Raft

/-! ## Steps -/

namespace World

variable {late : Prop} {w w' : World} {e : Event}

inductive Moves (late : Prop) (w : World) : Event → World → Prop
  | local_ (e : Event) (id : Bytes) {t : Raft} (hid : id ∈ w.ids)
      (h : Raft.Turn late (w.servers id) t) : Moves late w e (w.act id t)
  | handle (i : Nat) (recent : Bool) {c : Call} {t : Raft} {res : Response}
      (hc : w.calls[i]? = some c) (hid : c.dst ∈ w.ids) (hnone : c.response = none)
      (h : Raft.Serves late (w.servers c.dst) c.request t res) :
      Moves late w (.handle i recent)
        ({ w with calls := w.calls.set i { c with response := some res } }.act c.dst t)
  | succeed (i : Nat) (quick : Bool) {c : Call} {res : Response} {t : Raft}
      (hc : w.calls[i]? = some c) (hid : c.src ∈ w.ids) (hres : c.response = some res)
      (hdone : c.done = false)
      (h : Raft.Finishes late (w.servers c.src) c.dst c.request res t) :
      Moves late w (.succeed i quick)
        ({ w with calls := w.calls.set i { c with done := true } }.act c.src t)
  | fail (i : Nat) (quick : Bool) {c : Call} {t : Raft} (hc : w.calls[i]? = some c)
      (hid : c.src ∈ w.ids) (h : Raft.Turn late (w.servers c.src) t) :
      Moves late w (.fail i quick)
        ({ w with calls := w.calls.set i { c with done := true } }.act c.src t)

structure Ready (w : World) : Prop where
  self : ∀ id ∈ w.ids, (w.servers id).selfId = id
  settled : ∀ id ∈ w.ids, (w.servers id).Settled
  sent : ∀ id ∈ w.ids, (w.servers id).sent = []

instance : Decidable w.Ready :=
  decidable_of_iff ((∀ id ∈ w.ids, (w.servers id).selfId = id) ∧
      (∀ id ∈ w.ids, (w.servers id).Settled) ∧ ∀ id ∈ w.ids, (w.servers id).sent = [])
    ⟨fun h => ⟨h.1, h.2.1, h.2.2⟩, fun h => ⟨h.1, h.2, h.3⟩⟩

/-- A callback that goes on with a transfer finds its server still the leader. -/
def TransferByLeader (w : World) : Event → Prop
  | .succeed i _ => ∀ c ∈ w.calls[i]?, ∀ res ∈ c.response,
      Raft.Response.endsTransfer (w.servers c.src).sender c.request res →
      (w.servers c.src).role = .leader
  | _ => True

instance (e : Event) : Decidable (w.TransferByLeader e) := by
  unfold TransferByLeader
  split <;> infer_instance

private theorem local_moves {id : Bytes} {f : Raft → Raft}
    (hturn : id ∈ w.ids → Raft.Turn late (w.servers id) (f (w.servers id)))
    (h : w.local_ id f = some w') : w.Moves late e w' := by
  unfold local_ at h
  split at h
  · rename_i hid
    cases h
    exact .local_ e id hid.1 (hturn hid.1)
  · cases h

theorem step_moves (hw : w.Ready) (hfixed : e.fixed)
    (hlate : late ∨ w.TransferByLeader e) (h : w.step e = some w') : w.Moves late e w' := by
  cases e with
  | electionTimeout id =>
      simp only [step] at h
      split at h
      · refine local_moves (fun hid => ?_) h
        have timer : Raft.Quiet late (w.servers id)
            { w.servers id with electionTimer := false } := .books rfl rfl (fun h => h) rfl rfl
        exact timer.turn.trans (Raft.turn_preVote (timer.settled (hw.settled id hid)) false)
      · cases h
  | heartbeatTimeout id =>
      simp only [step] at h
      split at h
      · refine local_moves (fun hid => ?_) h
        have timer : Raft.Quiet late (w.servers id)
            { w.servers id with heartbeatTimer := false } := .books rfl rfl (fun h => h) rfl rfl
        exact timer.turn.trans (Raft.turn_appendEntries (timer.settled (hw.settled id hid)))
      · cases h
  | leadershipTransferTimeout id =>
      simp only [step] at h
      split at h
      · cases h
      · exact local_moves (fun _ => (Raft.quiet_onLeadershipTransferTimeout _ _).turn) h
  | append id data =>
      simp only [step] at h
      refine local_moves (fun _ => ?_) h
      by_cases hrole : (w.servers id).role = .leader
      · exact (Raft.Move.append hrole data).turn
      · rw [Raft.append, if_pos hrole]
        exact .refl _
  | transferLeadership id address =>
      simp only [step] at h
      exact local_moves
        (fun hid => (Raft.quiet_leadershipTransfer (hw.settled id hid) address).turn) h
  | addServer id address => cases hfixed
  | delServer id address => cases hfixed
  | popCommitted id =>
      simp only [step] at h
      refine local_moves (fun _ => ?_) h
      unfold Raft.popCommitted
      split
      · exact .refl _
      · exact Raft.Quiet.turn (.books rfl rfl (fun h => h) rfl rfl)
  | applyNext id => exact local_moves (fun _ => Raft.Move.applyNext.turn) h
  | compact id => exact local_moves (fun _ => Raft.Move.compact.turn) h
  | writeFiles id files =>
      simp only [step] at h
      exact local_moves (fun _ => (Raft.Quiet.sender _ _).turn) h
  | handle i recent =>
      simp only [step] at h
      split at h
      · cases h
      · rename_i c hc
        unfold handleCall at h
        split at h
        · rename_i hcond
          cases h
          exact .handle i recent hc hcond.1 hcond.2.2
            (Raft.serves (hw.settled c.dst hcond.1) recent c.request)
        · cases h
  | succeed i quick =>
      simp only [step] at h
      split at h
      · cases h
      · rename_i c hc
        split at h
        · cases h
        · rename_i hsome
          obtain ⟨res, hres⟩ := Option.ne_none_iff_exists'.mp hsome
          unfold finishCall at h
          split at h
          · rename_i hcond
            cases h
            have hlead : Raft.Response.endsTransfer (w.servers c.src).sender c.request res →
                (w.servers c.src).role = .leader ∨ late := fun hends =>
              hlate.elim .inr fun hlead => .inl (hlead c hc res hres hends)
            have hfinish := Raft.finishes (hw.settled c.src hcond.1) c.dst quick c.request res hlead
            rw [← hres] at hfinish
            exact .succeed i quick hc hcond.1 hres hcond.2.2 hfinish
          · cases h
  | fail i quick =>
      simp only [step] at h
      split at h
      · cases h
      · rename_i c hc
        unfold finishCall at h
        split at h
        · rename_i hcond
          cases h
          exact .fail i quick hc hcond.1
            (Raft.turn_fail (hw.settled c.src hcond.1) c.dst quick c.request)
        · cases h

/-! ## What every step keeps -/

@[simp] theorem act_ids (w : World) (id : Bytes) (s : Raft) : (w.act id s).ids = w.ids := rfl

theorem act_self (w : World) (id : Bytes) (s : Raft) :
    (w.act id s).servers id = { s with sent := [] } :=
  if_pos rfl

theorem act_of_ne (w : World) {id j : Bytes} (s : Raft) (h : j ≠ id) :
    (w.act id s).servers j = w.servers j :=
  if_neg h

theorem act_map {β : Type*} (w : World) (id : Bytes) (s : Raft) (f : Raft → β) :
    (fun j => f ((w.act id s).servers j)) =
      Function.update (fun j => f (w.servers j)) id (f { s with sent := [] }) := by
  funext j
  by_cases hj : j = id
  · subst hj
    rw [act_self, Function.update_self]
  · rw [act_of_ne w s hj, Function.update_of_ne hj]

theorem Ready.act (hw : w.Ready) {id : Bytes} {t : Raft} (hsettings : t.selfId = id)
    (hsettled : t.Settled) : (w.act id t).Ready := by
  have each : ∀ {P : Bytes → Raft → Prop}, (∀ j ∈ w.ids, P j (w.servers j)) →
      P id { t with sent := [] } → ∀ j ∈ w.ids, P j ((w.act id t).servers j) := by
    intro P hold hthis j hj
    by_cases hjid : j = id
    · subst hjid
      rw [act_self]
      exact hthis
    · rw [act_of_ne w t hjid]
      exact hold j hj
  exact
    { self := each (P := fun j s => s.selfId = j) hw.self hsettings
      settled := each (P := fun _ s => s.Settled) hw.settled ⟨hsettled.recfg, hsettled.next⟩
      sent := each (P := fun _ s => s.sent = []) hw.sent rfl }

theorem Moves.ready (hw : w.Ready) (h : w.Moves late e w') : w'.Ready := by
  have self : ∀ {id : Bytes} {t : Raft}, id ∈ w.ids →
      t.toSettings = (w.servers id).toSettings → t.selfId = id := by
    intro id t hid hsettings
    exact (congrArg Settings.selfId hsettings).trans (hw.self id hid)
  have calls : ∀ calls, Ready { w with calls := calls } :=
    fun _ => ⟨hw.self, hw.settled, hw.sent⟩
  cases h with
  | local_ e id hid h =>
      exact hw.act (self hid h.settings) (h.settled (hw.settled id hid))
  | handle i recent hc hid hnone h =>
      exact (calls _).act (self hid h.settings)
        (h.settled (hw.settled _ hid))
  | succeed i quick hc hid hres hdone h =>
      exact (calls _).act (self hid h.settings)
        (h.settled (hw.settled _ hid))
  | fail i quick hc hid h =>
      exact (calls _).act (self hid h.settings)
        (h.settled (hw.settled _ hid))

end World

end Draft
