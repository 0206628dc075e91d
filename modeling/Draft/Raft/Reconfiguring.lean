import Draft.Raft.Creation

/-!
# One membership change at a time

A leader appends a configuration only while no other one is on its way; its
reconfiguration in memory stands for the entry in the log.  This holds as long
as leaders do not take over an uncommitted configuration and reconfigurations
are not given up before their entry is committed.
-/

namespace Draft

open Consensus Raft

namespace Raft

variable {s t u : Raft} {inherited : List LogEntry}

def ConfigCommitted (s : Raft) : Prop :=
  ∀ x ∈ s.log.entries, x.config = true → x.index ≤ s.commitIndex

instance (s : Raft) : Decidable s.ConfigCommitted :=
  inferInstanceAs (Decidable (∀ x ∈ s.log.entries, _ → _))

/--
Every configuration in the log is committed, on its way, or among the entries
that the leader found in its log when it was elected.
-/
structure Accounted (inherited : List LogEntry) (s : Raft) : Prop where
  inside : s.commitIndex ≤ s.log.lastEntryIndex
  config : ∀ x ∈ s.log.entries, x.config = true →
    x.index ≤ s.commitIndex ∨ s.busy = true ∧ x.index ≤ s.log.cfgEntryIndex ∨ x ∈ inherited

theorem Accounted.committed (h : Accounted inherited s) (hidle : s.busy = false)
    (hold : ∀ x ∈ inherited, x ∈ s.log.entries → x.config = true → x.index ≤ s.commitIndex) :
    s.ConfigCommitted := by
  intro x hx hconfig
  rcases h.config x hx hconfig with hle | hbusy | hmem
  · exact hle
  · rw [hidle] at hbusy
    cases hbusy.1
  · exact hold x hmem hx hconfig

theorem Accounted.of_books (h : Accounted inherited s) (hbooks : t.books = s.books) :
    Accounted inherited t := by
  have hlog := log_of_books hbooks
  have hcommit := commitIndex_of_books hbooks
  have hbusy := busy_of_books hbooks
  constructor
  · rw [hlog, hcommit]
    exact h.inside
  · rw [hlog, hcommit, hbusy]
    exact h.config

theorem Accounted.ends (h : Accounted inherited s) (hlog : t.log = s.log)
    (hcommit : t.commitIndex = s.commitIndex)
    (hcfg : s.busy = true → s.log.cfgEntryIndex ≤ s.commitIndex) : Accounted inherited t := by
  constructor
  · rw [hlog, hcommit]
    exact h.inside
  · rw [hlog, hcommit]
    intro x hx hconfig
    rcases h.config x hx hconfig with hle | ⟨hbusy, hle⟩ | hmem
    · exact .inl hle
    · exact .inl (hle.trans (hcfg hbusy))
    · exact .inr (.inr hmem)

/-! ## The commit rule -/

private theorem le_lastEntryIndex_of_get {log : EntryLogger} {i : Nat} {e : LogEntry} (hi : 0 < i)
    (h : log.get i = some e) : i ≤ log.lastEntryIndex := by
  unfold EntryLogger.get at h
  split at h
  · cases h
  · rename_i hrange
    have hle : i ≤ log.lastEntry.index := by
      by_contra hlt
      exact hrange (.inl (by omega))
    unfold EntryLogger.lastEntryIndex
    split
    · rename_i hnil
      simp only [EntryLogger.lastEntry, hnil, List.getLast?_nil, Option.getD_none] at hle
      exact absurd hle (by simp [logEntrySentry]; omega)
    · exact hle

private theorem commitIndex_le_minMatch (h : s.commitIndex ≤ s.log.lastEntryIndex) :
    s.commitIndex ≤ s.minMatch := by
  unfold minMatch
  rcases foldl_min_mem Node.matchIndex (s.others.filter s.qualifies) s.log.lastEntryIndex with
    hend | ⟨n, hn, hmem⟩
  · rw [hend]
    exact h
  · have hqualifies := (List.mem_filter.mp hn).2
    simp only [qualifies, Bool.and_eq_true, decide_eq_true_eq] at hqualifies
    rw [hmem]
    exact hqualifies.1.le

private theorem maxMatch_le (s : Raft) : s.maxMatch ≤ s.log.lastEntryIndex := by
  unfold maxMatch
  rcases foldl_max_mem Node.matchIndex (s.others.filter s.qualifies) 0 with h0 | ⟨n, hn, hmem⟩
  · rw [h0]
    exact Nat.zero_le _
  · have hqualifies := (List.mem_filter.mp hn).2
    simp only [qualifies, Bool.and_eq_true, decide_eq_true_eq, Option.any_eq_true] at hqualifies
    obtain ⟨hlt, e, he, -⟩ := hqualifies
    rw [hmem]
    exact le_lastEntryIndex_of_get (by omega) he

private theorem adjustCommitIndex_commit (h : s.commitIndex ≤ s.log.lastEntryIndex) :
    s.commitIndex ≤ s.adjustCommitIndex.commitIndex ∧
      s.adjustCommitIndex.commitIndex ≤ s.log.lastEntryIndex := by
  rcases adjustCommitIndex_replica s with heq | ⟨i, hcommits, heq⟩
  · rw [heq]
    exact ⟨le_rfl, h⟩
  · rw [heq]
    cases hcommits with
    | counted hlo hhi => exact ⟨(commitIndex_le_minMatch h).trans hlo, hhi.trans (maxMatch_le s)⟩
    | alone => exact ⟨h, le_rfl⟩

theorem Accounted.adjustCommitIndex (h : Accounted inherited s) :
    Accounted inherited s.adjustCommitIndex := by
  obtain ⟨hcommit, hlast⟩ := adjustCommitIndex_commit h.inside
  constructor
  · rw [adjustCommitIndex_log]
    exact hlast
  rw [adjustCommitIndex_log]
  intro x hx hconfig
  rcases h.config x hx hconfig with hle | ⟨hbusy, hle⟩ | hmem
  · exact .inl (hle.trans hcommit)
  · rcases adjustCommitIndex_recfg s with hrecfg | ⟨-, hcfg⟩
    · refine .inr (.inl ⟨?_, hle⟩)
      rw [busy, hrecfg]
      exact hbusy
    · exact .inl (hle.trans hcfg)
  · exact .inr (.inr hmem)

theorem Accounted.appendEntries (h : Accounted inherited s) :
    Accounted inherited s.appendEntries := by
  have heartbeats : ∀ nodes : List Node,
      Accounted inherited ({ s with heartbeatTimer := true }.invokeAll nodes fun n =>
        .appendEntries ({ s with heartbeatTimer := true }.appendEntriesReq n)) :=
    fun _ => h.of_books rfl
  unfold Raft.appendEntries
  dsimp only
  split
  · exact h.of_books rfl
  split
  · exact (heartbeats _).adjustCommitIndex
  · exact heartbeats _

/-! ## New entries -/

private theorem Accounted.append_config (h : Accounted inherited s) (hidle : s.busy = false)
    {data : Bytes} {term : Nat}
    (hlog : t.log = s.log.append [s.log.makeEntry data (s.log.lastEntryIndex + 1) term true])
    (hcommit : t.commitIndex = s.commitIndex) (hbusy : t.busy = true) : Accounted inherited t := by
  constructor
  · rw [hlog, hcommit, lastEntryIndex_append]
    exact h.inside.trans (Nat.le_succ _)
  rw [hlog, hcommit]
  intro x hx hconfig
  rcases List.mem_append.mp hx with hx | hx
  · rcases h.config x hx hconfig with hle | hold | hmem
    · exact .inl hle
    · rw [hidle] at hold
      cases hold.1
    · exact .inr (.inr hmem)
  · obtain rfl := List.mem_singleton.mp hx
    exact .inr (.inl ⟨hbusy, le_rfl⟩)

theorem Accounted.append (h : Accounted inherited s) (data : Bytes) :
    Accounted inherited (s.append data) := by
  unfold Raft.append
  split
  · exact h
  constructor
  · dsimp only
    rw [lastEntryIndex_append]
    exact h.inside.trans (Nat.le_succ _)
  · intro x hx hconfig
    rcases List.mem_append.mp hx with hx | hx
    · exact h.config x hx hconfig
    · obtain rfl := List.mem_singleton.mp hx
      cases hconfig

private theorem le_lastEntryIndex {log : EntryLogger} {i : Nat} (hbase : i ≤ log.lastIndex)
    (hlast : log.entries ≠ [] → i ≤ log.lastEntry.index) : i ≤ log.lastEntryIndex := by
  unfold EntryLogger.lastEntryIndex
  split
  · exact hbase
  · exact hlast ‹_›

private theorem le_lastEntryIndex_of_drop {log dropped : EntryLogger} {i : Nat}
    (h : log.drop i = some dropped) : i ≤ dropped.lastEntryIndex := by
  unfold EntryLogger.drop at h
  split at h
  · cases h
  rename_i hrange
  split at h
  · cases h
  cases h
  have hlast : i ≤ log.lastEntry.index := by
    simp only [EntryLogger.outOfRange, Bool.or_eq_true, decide_eq_true_eq] at hrange
    omega
  refine le_lastEntryIndex le_rfl fun hne => ?_
  have hsame : (log.entries.drop (i - log.lastIndex)).getLast? = log.entries.getLast? := by
    rw [List.getLast?_drop, if_neg]
    simpa [EntryLogger.copyStates] using hne
  simp only [EntryLogger.lastEntry, EntryLogger.copyStates] at hlast ⊢
  rw [hsame]
  exact hlast

theorem Accounted.drop (h : Accounted inherited s) {log : EntryLogger}
    (hlog : s.log.drop s.commitIndex = some log) :
    Accounted inherited { s with log := log } := by
  refine ⟨le_lastEntryIndex_of_drop hlog, ?_⟩
  unfold EntryLogger.drop at hlog
  split at hlog
  · cases hlog
  split at hlog
  · cases hlog
  cases hlog
  intro x hx hconfig
  rcases h.config x (List.mem_of_mem_drop hx) hconfig with hle | ⟨hbusy, hle⟩ | hmem
  · exact .inl hle
  · by_cases hcfg : s.log.cfgEntryIndex ≤ s.commitIndex
    · exact .inl (hle.trans hcfg)
    · refine .inr (.inl ⟨hbusy, ?_⟩)
      dsimp only [EntryLogger.copyStates]
      rw [if_neg hcfg]
      exact hle
  · exact .inr (.inr hmem)

theorem Accounted.compact (h : Accounted inherited s) : Accounted inherited s.compact := by
  unfold Raft.compact
  split
  · exact h
  rename_i index _
  dsimp only
  split
  · rename_i hindex
    rw [hindex.2]
    cases hdrop : s.log.drop s.commitIndex with
    | none => exact h.of_books rfl
    | some log => exact (h.drop hdrop).of_books rfl
  · exact h.of_books rfl

/-! ## Catching up -/

/-- The catch-up of a new server is not given up while its configuration is on its way. -/
def CatchUpSettled (s : Raft) (quick : Bool) : Prop :=
  ∀ r ∈ s.recfg, ¬ s.roundsLeft r.rounds → ¬ (quick && s.caughtUp r.n) → r.entryAdded = true →
    s.log.cfgEntryIndex ≤ s.commitIndex

instance (s : Raft) (quick : Bool) : Decidable (s.CatchUpSettled quick) := by
  unfold CatchUpSettled
  infer_instance

theorem Accounted.deployReconfiguration (h : Accounted inherited s) {r : Reconfiguration}
    (hr : s.recfg = some r) (htype : r.type = .serverAddition) :
    Accounted inherited (s.deployReconfiguration r) := by
  unfold Raft.deployReconfiguration
  split
  · exact h
  · rename_i hadded
    have hfalse : r.entryAdded = false := Bool.not_eq_true _ ▸ hadded
    have hidle : s.busy = false := by simp [busy, hr, hfalse, htype]
    dsimp only
    split
    · exact h.append_config hidle rfl rfl rfl
    · exact h.append_config hidle rfl rfl rfl

private theorem Accounted.handleCatchUp (h : Accounted inherited s) {id : Bytes} {quick : Bool}
    (hnewly : s.newly id) (hsettled : s.CatchUpSettled quick) :
    Accounted inherited (s.handleCatchUpServerAppendEntries quick) := by
  unfold handleCatchUpServerAppendEntries
  split
  · exact h
  rename_i r hr
  have htype := newly_addition hnewly hr
  split
  · have round : Accounted inherited { s with recfg := some { r with rounds := r.rounds + 1 } } := by
      refine h.of_books ?_
      simp only [books, busy, hr, Option.any_some]
    exact round.of_books (appendEntriesTo_frame .books _)
  split
  · exact (h.deployReconfiguration hr htype).appendEntries
  · rename_i hrounds hcaught
    refine h.ends rfl rfl fun hbusy => hsettled r hr hrounds hcaught ?_
    simpa [busy, hr, htype] using hbusy

/-! ## Removing a server -/

/-- A leader that removes itself can hand over to a member that stays. -/
def HandsOver (s : Raft) (address : Bytes) : Prop :=
  s.role = .leader → s.recfg = none → s.cluster.length ≠ 1 → address = s.selfId →
    let rest : Raft := { s with cluster := s.cluster.filter (·.1 ≠ address) }
    s.serverTransferLeaderTo = none ∧ s.makeId rest.latestServer ≠ [] ∧
      s.makeId rest.latestServer ≠ s.selfId ∧ rest.contains (s.makeId rest.latestServer)

instance (s : Raft) (address : Bytes) : Decidable (s.HandsOver address) := by
  unfold HandsOver
  infer_instance

private theorem leadershipTransfer_taken (hrole : s.role = .leader)
    (hidle : s.serverTransferLeaderTo = none) {name : Bytes} (hne : s.makeId name ≠ [])
    (hself : s.makeId name ≠ s.selfId) (hmem : s.contains (s.makeId name)) :
    (s.leadershipTransfer name).2 = true := by
  unfold leadershipTransfer
  dsimp only
  rw [if_neg (by simpa using hrole), if_neg hne, if_neg (by simp [hidle]), if_neg hself]
  split
  · rename_i hnone
    simp only [contains, List.any_eq_true] at hmem
    obtain ⟨p, hp, hkey⟩ := hmem
    exact absurd hkey (by simpa using List.find?_eq_none.mp hnone p hp)
  · split <;> rfl

theorem Accounted.delServer (h : Accounted inherited s) {name : Bytes}
    (hover : s.HandsOver (s.makeId name)) : Accounted inherited (s.delServer name) := by
  unfold Raft.delServer
  dsimp only
  split
  · exact h.of_books rfl
  rename_i hrole
  split
  · exact h.of_books rfl
  split
  · exact h.of_books rfl
  rename_i hnone
  have hidle : s.busy = false := by
    simp [busy, Option.not_isSome_iff_eq_none.mp hnone]
  split
  · exact h.of_books rfl
  split
  · rename_i hself
    obtain ⟨hfree, hne, hother, hmem⟩ := hover (not_not.mp hrole)
      (Option.not_isSome_iff_eq_none.mp hnone) ‹_› hself
    have htaken : ∀ u : Raft,
        u = appendConfiguration { s with cluster := s.cluster.filter (·.1 ≠ s.makeId name) } →
        (u.leadershipTransfer u.latestServer).2 = true := by
      rintro u rfl
      apply leadershipTransfer_taken
      · exact not_not.mp hrole
      · exact hfree
      · exact hne
      · exact hother
      · exact hmem
    rw [if_pos (htaken _ rfl)]
    have kept : ∀ u : Raft, (u.leadershipTransfer u.latestServer).1.books = u.books :=
      fun u => leadershipTransfer_frame .books _
    apply h.append_config hidle
    · exact (log_of_books (kept (appendConfiguration _))).trans rfl
    · exact (commitIndex_of_books (kept (appendConfiguration _))).trans rfl
    · rfl
  · exact Accounted.appendEntries (h.append_config hidle rfl rfl rfl)

/-- A removal is not given up while its configuration is on its way. -/
def RemovalSettled (s : Raft) : Prop :=
  s.role = .leader → s.recfg.any (·.type = .serverRemoval) → s.log.cfgEntryIndex ≤ s.commitIndex

instance (s : Raft) : Decidable s.RemovalSettled := by
  unfold RemovalSettled
  infer_instance

theorem Accounted.onLeadershipTransferTimeout (h : Accounted inherited s) (id : Bytes)
    (hrole : s.role = .leader) (hsettled : s.RemovalSettled) :
    Accounted inherited (s.onLeadershipTransferTimeout id) := by
  have node : (s.modifyNode id fun n => { n with transferLeaderTo := false }).books = s.books :=
    modifyNode_frame .books id _
  have hremoval : (s.modifyNode id fun n => { n with transferLeaderTo := false }).recfg.any
      (·.type = .serverRemoval) = s.recfg.any (·.type = .serverRemoval) := by
    simp only [Raft.modifyNode]
    cases s.recfg with
    | none => rfl
    | some r =>
        simp only [Option.map_some, Option.any_some]
        split <;> rfl
  unfold Raft.onLeadershipTransferTimeout
  dsimp only
  split
  · rename_i hany
    exact h.ends rfl rfl fun _ => hsettled hrole (hremoval ▸ hany)
  split
  · exact h.of_books node
  · exact h.of_books node

/-! ## Elections -/

theorem Accounted.stepUp (h : Accounted inherited s) : Accounted inherited s.stepUp :=
  Accounted.appendEntries (h.of_books rfl)

theorem Accounted.leaderElection (h : Accounted inherited s) :
    Accounted inherited s.leaderElection := by
  unfold Raft.leaderElection
  dsimp only
  split
  · exact Accounted.stepUp (h.of_books rfl)
  · exact h.of_books rfl

theorem Accounted.preVote (h : Accounted inherited s) (early : Bool) :
    Accounted inherited (s.preVote early) := by
  unfold Raft.preVote
  split
  · exact h.leaderElection
  · exact h.of_books rfl

theorem Accounted.checkout (h : Accounted inherited s) : Accounted inherited s.checkout := by
  unfold Raft.checkout
  split
  · exact h.leaderElection
  split <;> exact h.of_books rfl

theorem Accounted.onPreVote (h : Accounted inherited s) (res : Option VoteRes) :
    Accounted inherited (s.onPreVote res) := by
  unfold Raft.onPreVote
  split
  · exact h
  split <;> exact Accounted.checkout (h.of_books rfl)

private theorem stepDown_not_leader (s : Raft) (term : Nat) (leader : Bytes) :
    (s.stepDown term leader).role ≠ .leader := by
  simp [stepDown_role]

theorem Accounted.onRequestVote (h : Accounted inherited s) (res : Option VoteRes)
    (hrole : (s.onRequestVote res).role = .leader) : Accounted inherited (s.onRequestVote res) := by
  revert hrole
  unfold Raft.onRequestVote countVote
  dsimp only
  split
  · exact fun _ => h
  split
  · exact fun _ => h
  split
  · split
    · exact fun _ => h
    split
    · exact fun _ => Accounted.stepUp (h.of_books rfl)
    · exact fun _ => h.of_books rfl
  split
  · exact fun hrole => absurd hrole (stepDown_not_leader s _ _)
  · exact fun _ => h

/-! ## Callbacks -/

def AnswerSettled (s : Raft) (id : Bytes) (quick : Bool) : Option AppendEntriesRes → Prop
  | none => s.role = .leader → s.newly id → s.CatchUpSettled quick
  | some res => s.role = .leader → res.success = true →
      ((s.recordMatch id res.matchIndex).adjustCommitIndex).newly id →
        ((s.recordMatch id res.matchIndex).adjustCommitIndex).CatchUpSettled quick

instance (s : Raft) (id : Bytes) (quick : Bool) (res : Option AppendEntriesRes) :
    Decidable (s.AnswerSettled id quick res) := by
  unfold AnswerSettled
  split <;> infer_instance

theorem Accounted.onAppendSuccess (h : Accounted inherited s) (id : Bytes) (matchIndex : Nat)
    (quick : Bool)
    (hsettled : ((s.recordMatch id matchIndex).adjustCommitIndex).newly id →
      ((s.recordMatch id matchIndex).adjustCommitIndex).CatchUpSettled quick) :
    Accounted inherited (s.onAppendSuccess id matchIndex quick) := by
  have hmatch : Accounted inherited (s.recordMatch id matchIndex).adjustCommitIndex :=
    (h.of_books (recordMatch_frame .books id matchIndex)).adjustCommitIndex
  unfold Raft.onAppendSuccess
  dsimp only
  generalize (s.recordMatch id matchIndex).adjustCommitIndex = u at hsettled hmatch ⊢
  split
  · exact hmatch
  split
  · have htransfer : Accounted inherited (u.handleTransferLeaderTo id) :=
      hmatch.of_books (handleTransferLeaderTo_frame .books id)
    split
    · rename_i hnewly
      have hsame : (u.handleTransferLeaderTo id).recfg = u.recfg ∧
          ((u.handleTransferLeaderTo id).CatchUpSettled quick ↔ u.CatchUpSettled quick) := by
        unfold handleTransferLeaderTo
        split <;> exact ⟨rfl, Iff.rfl⟩
      refine htransfer.handleCatchUp hnewly (hsame.2.mpr (hsettled ?_))
      rw [newly, hsame.1] at hnewly
      exact hnewly
    · exact htransfer
  · split
    · exact hmatch.handleCatchUp ‹_› (hsettled ‹_›)
    · exact hmatch

theorem Accounted.onAppendEntries (h : Accounted inherited s) {id : Bytes}
    {res : Option AppendEntriesRes} {quick : Bool} (hsettled : s.AnswerSettled id quick res)
    (hrole : (s.onAppendEntries id res quick).role = .leader) :
    Accounted inherited (s.onAppendEntries id res quick) := by
  revert hrole
  unfold Raft.onAppendEntries
  split
  · split
    · intro hrole
      have helection := election_of_standing
        (handleCatchUpServerAppendEntries_frame .standing rfl (s := s) quick)
      rw [helection] at hrole
      exact h.handleCatchUp ‹_› (hsettled hrole ‹_›)
    · exact fun _ => h
  split
  · exact fun _ => h
  rename_i hrole
  split
  · exact fun _ => h.onAppendSuccess id _ quick (hsettled (not_not.mp hrole) ‹_›)
  split
  · exact fun hrole => absurd hrole (stepDown_not_leader s _ _)
  · exact fun _ => h.of_books (onAppendInconsistent_frame .books rfl id _)

theorem Accounted.onDataTransfer (h : Accounted inherited s) {id : Bytes} {res : Option DataRes}
    (hrole : (s.onDataTransfer id res).role = .leader) :
    Accounted inherited (s.onDataTransfer id res) := by
  have moved : Accounted inherited { s with sender := s.sender.advance } := h.of_books rfl
  revert hrole
  unfold Raft.onDataTransfer
  split
  · split
    · exact fun _ => h.of_books (doDataTransfer_frame .books rfl id)
    · exact fun _ => h
  dsimp only
  split
  · exact fun _ => moved.of_books (onDataSuccess_frame .books rfl id)
  split
  · exact fun hrole => absurd hrole (stepDown_not_leader _ _ _)
  · exact fun _ => moved

theorem Accounted.onDoneTransfer (h : Accounted inherited s) {id : Bytes} {res : Option DataRes}
    (hrole : (s.onDoneTransfer id res).role = .leader) :
    Accounted inherited (s.onDoneTransfer id res) := by
  have node : (s.initTransfer.modifyNode id fun n =>
      { n with transferDataTo := false }).books = s.initTransfer.books :=
    modifyNode_frame .books id _
  revert hrole
  unfold Raft.onDoneTransfer
  split
  · split
    · exact fun _ => h.of_books (doDoneTransfer_frame .books rfl id)
    · exact fun _ => h
  split
  · exact fun _ => h.of_books ((appendEntriesTo_frame .books id).trans node)
  split
  · exact fun hrole => absurd hrole (stepDown_not_leader s _ _)
  · exact fun _ => h

theorem Accounted.finish (h : Accounted inherited s) {id : Bytes} {quick : Bool} {req : Request}
    {res : Option Response}
    (hfailed : req.isAppendEntries → res = none → s.AnswerSettled id quick none)
    (hanswered : ∀ r, req.isAppendEntries → res = some (.append r) →
      s.AnswerSettled id quick (some r))
    (hrole : (s.finish id quick req res).role = .leader) :
    Accounted inherited (s.finish id quick req res) := by
  revert hrole
  unfold Raft.finish
  split
  all_goals first
    | exact fun _ => h.of_books (onTimeoutNow_frame .books id _)
    | exact fun _ => h.onPreVote _
    | exact h.onRequestVote _
    | exact h.onAppendEntries (hfailed rfl rfl)
    | exact h.onAppendEntries (hanswered _ rfl rfl)
    | exact h.onDataTransfer
    | exact h.onDoneTransfer
    | exact fun _ => h

/-! ## Requests -/

private theorem handleAppendEntries_unheeded {req : AppendEntriesReq}
    (hrole : (s.handleAppendEntries req).1.role = .leader) :
    (s.handleAppendEntries req).1 = s := by
  unfold handleAppendEntries at hrole ⊢
  split at hrole
  · rw [if_pos ‹_›]
  · have helection := election_of_standing
      (acceptEntries_frame .standing rfl rfl (s := s.heedLeader req.term req.leaderId) req)
    obtain ⟨-, hfollower⟩ := terms_heedLeader (show s.currTerm ≤ req.term by omega) req.leaderId
    rw [helection, hfollower] at hrole
    cases hrole

private theorem handleDataTransfer_unheeded {req : DataReq}
    (hrole : (s.handleDataTransfer req).1.role = .leader) : (s.handleDataTransfer req).1 = s := by
  unfold handleDataTransfer at hrole ⊢
  split at hrole
  · rw [if_pos ‹_›]
  · obtain ⟨-, hfollower⟩ := terms_followSender (show s.currTerm ≤ req.term by omega) req.leaderId
    dsimp only at hrole
    split at hrole
    · have helection := election_of_standing
        (beginTransfer_frame .standing rfl rfl (s := s.followSender req.term req.leaderId) req)
      rw [helection, hfollower] at hrole
      cases hrole
    · rw [hfollower] at hrole
      cases hrole

theorem handleDoneTransfer_unheeded {req : DoneReq}
    (hrole : (s.handleDoneTransfer req).1.role = .leader) : (s.handleDoneTransfer req).1 = s := by
  unfold handleDoneTransfer at hrole ⊢
  split at hrole
  · rw [if_pos ‹_›]
  · obtain ⟨-, hfollower⟩ := terms_followSender (show s.currTerm ≤ req.term by omega) req.leaderId
    have hleft : (s.followSender req.term req.leaderId).role = .leader := by
      dsimp only at hrole
      split at hrole <;> exact hrole
    rw [hfollower] at hleft
    cases hleft

theorem Accounted.handleRequestVote (h : Accounted inherited s) {req : VoteReq}
    (hrole : (s.handleRequestVote req).1.role = .leader) :
    Accounted inherited (s.handleRequestVote req).1 := by
  have hheed : (s.heedCandidate req.term).role = .leader → s.heedCandidate req.term = s := by
    unfold heedCandidate
    split
    · exact fun hlead => absurd hlead (stepDown_not_leader _ _ _)
    · exact fun _ => rfl
  revert hrole
  unfold Raft.handleRequestVote
  dsimp only
  repeat' split
  all_goals
    intro hrole
    have hsame := hheed hrole
    rw [hsame]
    exact h.of_books rfl

theorem Accounted.serve (h : Accounted inherited s) {recent : Bool} {req : Request}
    (hrole : (s.serve recent req).1.role = .leader) :
    Accounted inherited (s.serve recent req).1 := by
  cases req with
  | timeoutNow req =>
      have timer : Accounted inherited { s with electionTimer := false } := h.of_books rfl
      exact timer.preVote true
  | preVote req => exact h
  | requestVote req => exact h.handleRequestVote hrole
  | appendEntries req => exact h.of_books (congrArg books (handleAppendEntries_unheeded hrole))
  | dataTransfer req => exact h.of_books (congrArg books (handleDataTransfer_unheeded hrole))
  | doneTransfer req => exact h.of_books (congrArg books (handleDoneTransfer_unheeded hrole))

end Raft

/-! ## Runs -/

namespace World

variable {w w' : World} {e : Event}

/-- The entries a server found in its log when it was last elected, after a step. -/
def elects (w w' : World) (id : Bytes) (inherited : List LogEntry) : List LogEntry :=
  if (w'.servers id).elections = (w.servers id).elections then inherited
  else (w.servers id).log.entries

def inherits (w : World) (id : Bytes) (inherited : List LogEntry) : List Event → List LogEntry
  | [] => inherited
  | e :: es =>
      match w.step e with
      | none => inherited
      | some w' => w'.inherits id (w.elects w' id inherited) es

/-- A leader does not give up a reconfiguration that is on its way. -/
def Settles (w : World) : Event → Prop
  | .leadershipTransferTimeout id => (w.servers id).RemovalSettled
  | .delServer id name => (w.servers id).HandsOver ((w.servers id).makeId name)
  | .succeed i quick => ∀ c ∈ w.calls[i]?, c.request.isAppendEntries →
      match c.response with
      | some (.append r) => (w.servers c.src).AnswerSettled c.dst quick (some r)
      | _ => True
  | .fail i quick => ∀ c ∈ w.calls[i]?, c.request.isAppendEntries →
      (w.servers c.src).AnswerSettled c.dst quick none
  | _ => True

/-- A server that is elected holds everything that it knows to be committed. -/
def ElectsWhole (w : World) (e : Event) : Prop :=
  ∀ w', w.step e = some w' → ∀ id ∈ w.actor e,
    (w'.servers id).elections ≠ (w.servers id).elections →
      (w.servers id).commitIndex ≤ (w.servers id).log.lastEntryIndex

structure ChangesOneAtATime (w : World) (e : Event) : Prop where
  settles : w.Settles e
  electsWhole : w.ElectsWhole e

instance (s : Raft) (id : Bytes) (quick : Bool) : (res : Option Response) →
    Decidable (match res with
      | some (.append r) => s.AnswerSettled id quick (some r)
      | _ => True)
  | some (.append _) => by dsimp only; infer_instance
  | some (.vote _) | some (.data _) | none => instDecidableTrue

instance (w : World) : (e : Event) → Decidable (w.Settles e)
  | .leadershipTransferTimeout _ | .delServer .. | .succeed .. | .fail .. => by
      unfold Settles
      infer_instance
  | .electionTimeout _ | .heartbeatTimeout _ | .append .. | .transferLeadership ..
  | .addServer .. | .popCommitted _ | .applyNext _ | .compact _ | .writeFiles ..
  | .handle .. => instDecidableTrue

instance (w : World) (e : Event) : Decidable (w.ElectsWhole e) :=
  match h : w.step e with
  | none => isTrue (by simp [ElectsWhole, h])
  | some w' =>
      decidable_of_iff (∀ id ∈ w.actor e, (w'.servers id).elections ≠ (w.servers id).elections →
        (w.servers id).commitIndex ≤ (w.servers id).log.lastEntryIndex) (by simp [ElectsWhole, h])

instance (w : World) (e : Event) : Decidable (w.ChangesOneAtATime e) :=
  decidable_of_iff (w.Settles e ∧ w.ElectsWhole e) ⟨fun h => ⟨h.1, h.2⟩, fun h => ⟨h.1, h.2⟩⟩

private theorem accounted_local {id : Bytes} {f : Raft → Raft} {inherited : List LogEntry}
    (hstep : w.local_ id f = some w')
    (h : (f (w.servers id)).role = .leader → Accounted inherited (f (w.servers id)))
    (hrole : (w'.servers id).role = .leader) : Accounted inherited (w'.servers id) := by
  unfold World.local_ at hstep
  split at hstep
  · cases hstep
    rw [act_self] at hrole ⊢
    exact (h hrole).of_books rfl
  · cases hstep

private theorem accounted_finish {i : Nat} {c : Call} {response : Option Response} {quick : Bool}
    {inherited : List LogEntry} (hstep : w.finishCall i c response quick = some w')
    (h : ((w.servers c.src).finish c.dst quick c.request response).role = .leader →
      Accounted inherited ((w.servers c.src).finish c.dst quick c.request response))
    (hrole : (w'.servers c.src).role = .leader) : Accounted inherited (w'.servers c.src) := by
  unfold finishCall at hstep
  split at hstep
  · cases hstep
    rw [act_self] at hrole ⊢
    exact (h hrole).of_books rfl
  · cases hstep

private theorem accounted_step {id : Bytes} {inherited : List LogEntry} (hsettles : w.Settles e)
    (hstep : w.step e = some w') (hactor : w.actor e = some id)
    (h : Accounted inherited (w.servers id)) (hrole : (w'.servers id).role = .leader) :
    Accounted inherited (w'.servers id) := by
  cases e with
  | electionTimeout j =>
      obtain rfl : j = id := by simpa [actor] using hactor
      simp only [World.step] at hstep
      split at hstep
      · refine accounted_local hstep (fun _ => Accounted.preVote ?_ false) hrole
        exact h.of_books rfl
      · cases hstep
  | heartbeatTimeout j =>
      obtain rfl : j = id := by simpa [actor] using hactor
      simp only [World.step] at hstep
      split at hstep
      · refine accounted_local hstep (fun _ => Accounted.appendEntries ?_) hrole
        exact h.of_books rfl
      · cases hstep
  | leadershipTransferTimeout j =>
      obtain rfl : j = id := by simpa [actor] using hactor
      simp only [World.step] at hstep
      split at hstep
      · cases hstep
      · refine accounted_local hstep (fun hlead => ?_) hrole
        have helection := election_of_standing
          (onLeadershipTransferTimeout_frame .standing rfl (s := w.servers j) ‹Bytes›)
        rw [helection] at hlead
        exact h.onLeadershipTransferTimeout _ hlead hsettles
  | append j data =>
      obtain rfl : j = id := by simpa [actor] using hactor
      simp only [World.step] at hstep
      exact accounted_local hstep (fun _ => h.append data) hrole
  | transferLeadership j address =>
      obtain rfl : j = id := by simpa [actor] using hactor
      simp only [World.step] at hstep
      refine accounted_local hstep (fun _ => ?_) hrole
      exact h.of_books (leadershipTransfer_frame .books address)
  | addServer j address =>
      obtain rfl : j = id := by simpa [actor] using hactor
      simp only [World.step] at hstep
      exact accounted_local hstep (fun _ => h.of_books (addServer_frame .books rfl address)) hrole
  | delServer j address =>
      obtain rfl : j = id := by simpa [actor] using hactor
      simp only [World.step] at hstep
      exact accounted_local hstep (fun _ => h.delServer hsettles) hrole
  | popCommitted j =>
      obtain rfl : j = id := by simpa [actor] using hactor
      simp only [World.step] at hstep
      exact accounted_local hstep (fun _ => h.of_books (popCommitted_frame .books)) hrole
  | applyNext j =>
      obtain rfl : j = id := by simpa [actor] using hactor
      simp only [World.step] at hstep
      exact accounted_local hstep (fun _ => h.of_books (applyNext_frame .books rfl)) hrole
  | compact j =>
      obtain rfl : j = id := by simpa [actor] using hactor
      simp only [World.step] at hstep
      exact accounted_local hstep (fun _ => h.compact) hrole
  | writeFiles j files =>
      obtain rfl : j = id := by simpa [actor] using hactor
      simp only [World.step] at hstep
      exact accounted_local hstep (fun _ => h.of_books rfl) hrole
  | handle i recent =>
      simp only [World.step] at hstep
      split at hstep
      · cases hstep
      · rename_i c hc
        obtain rfl : c.dst = id := by simpa [actor, hc] using hactor
        unfold handleCall at hstep
        split at hstep
        · cases hstep
          rw [act_self] at hrole ⊢
          exact (h.serve hrole).of_books rfl
        · cases hstep
  | succeed i quick =>
      simp only [World.step] at hstep
      split at hstep
      · cases hstep
      rename_i c hc
      split at hstep
      · cases hstep
      rename_i hsome
      obtain rfl : c.src = id := by simpa [actor, hc] using hactor
      refine accounted_finish hstep (h.finish (fun _ hnone => absurd hnone hsome) ?_) hrole
      intro r hreq hres
      have hanswer := hsettles c hc hreq
      rw [hres] at hanswer
      exact hanswer
  | fail i quick =>
      simp only [World.step] at hstep
      split at hstep
      · cases hstep
      rename_i c hc
      obtain rfl : c.src = id := by simpa [actor, hc] using hactor
      exact accounted_finish hstep
        (h.finish (fun hreq _ => hsettles c hc hreq) fun _ _ hres => by cases hres) hrole

def AllAccounted (w : World) (inherited : Bytes → List LogEntry) : Prop :=
  ∀ id ∈ w.ids, (w.servers id).role = .leader → Accounted (inherited id) (w.servers id)

private theorem allAccounted_step {inherited : Bytes → List LogEntry} (h : w.AllAccounted inherited)
    (hchange : w.ChangesOneAtATime e) (hstep : w.step e = some w') :
    w'.AllAccounted fun id => w.elects w' id (inherited id) := by
  obtain ⟨id, t, hc⟩ := creates_step hstep
  obtain ⟨calls, hw'⟩ := hc.act
  intro j hj hrole
  have hids : w'.ids = w.ids := by rw [hw']; rfl
  rw [hids] at hj
  dsimp only
  by_cases hjid : j = id
  · subst hjid
    have hself : (w'.servers j).toElection = t.toElection := by rw [hw', act_self]
    by_cases hsame : (w'.servers j).elections = (w.servers j).elections
    · rw [elects, if_pos hsame]
      -- it led before the step
      have hold : (w.servers j).role = .leader := by
        rw [hself] at hrole hsame
        rcases hc.terms.office with ⟨-, hlead⟩ | hwon
        · exact (hlead hrole).1
        · simp [hwon] at hsame
      exact accounted_step hchange.settles hstep hc.actor (h j hj hold) hrole
    · rw [elects, if_neg hsame]
      have hwhole : Accounted (w.servers j).log.entries (w.servers j) :=
        ⟨hchange.electsWhole w' hstep j hc.actor hsame, fun x hx _ => .inr (.inr hx)⟩
      exact accounted_step hchange.settles hstep hc.actor hwhole hrole
  · have hother : w'.servers j = w.servers j := by rw [hw', act_of_ne _ _ hjid]
    rw [elects, if_pos (by rw [hother]), hother]
    rw [hother] at hrole
    exact h j hj hrole

private theorem allAccounted_run {es : List Event} {inherited : Bytes → List LogEntry}
    (h : w.AllAccounted inherited) (hchange : Along step ChangesOneAtATime w es)
    (hrun : run step w es = some w') : w'.AllAccounted fun id => w.inherits id (inherited id) es := by
  induction es generalizing w inherited with
  | nil =>
      obtain rfl : w = w' := by simpa [run] using hrun
      exact h
  | cons e es ih =>
      obtain ⟨m, hm, hrest⟩ := run_cons.mp hrun
      have hnext := ih (allAccounted_step h hchange.1 hm) (hchange.2 m hm) hrest
      simpa [inherits, hm] using hnext

/--
A leader that has committed the configurations it inherited appends a new one
only when all earlier ones are committed, in every run in which no
reconfiguration is given up on its way.
-/
theorem one_configuration_at_a_time {es : List Event} {w'' : World} {p : Bytes × LogEntry}
    (hstart : ∀ id ∈ w.ids, (w.servers id).role ≠ .leader)
    (hchange : Along step ChangesOneAtATime w es) (hrun : run step w es = some w')
    (hstep : w'.step e = some w'') (hp : p ∈ w'.made e w'') (hconfig : p.2.config = true)
    (hlead : (w'.servers p.1).role = .leader)
    (hinherited : ∀ x ∈ w.inherits p.1 [] es, x ∈ (w'.servers p.1).log.entries →
      x.config = true → x.index ≤ (w'.servers p.1).commitIndex) :
    ∀ x ∈ (w'.servers p.1).log.entries, x.config = true →
      x.index ≤ (w'.servers p.1).commitIndex := by
  have h : w'.AllAccounted fun id => w.inherits id [] es :=
    allAccounted_run (fun id hid hrole => absurd hrole (hstart id hid)) hchange hrun
  obtain ⟨id, t, hc⟩ := creates_step hstep
  have hid : p.1 = id := by
    have hactor := hc.actor
    unfold made at hp
    rw [hactor] at hp
    split at hp
    · cases hp
    · cases hp
    · rename_i hsome
      cases hsome
      obtain ⟨x, -, rfl⟩ := List.mem_map.mp hp
      rfl
  subst hid
  have hby : w'.ByLeader e := by
    have hactor := hc.actor
    cases e with
    | fail i quick =>
        intro c hcall _ _ _ _ _ _ _
        have hget : w'.calls[i]? = some c := hcall
        obtain hsrc : c.src = p.1 := by simpa [actor, hget] using hactor
        rw [hsrc]
        exact hlead
    | _ => trivial
  rcases hc.made hby with hnone | ⟨x, hx, -, hidle, -⟩
  · rw [hnone] at hp
    cases hp
  · rw [hx, List.mem_singleton] at hp
    have hx' : x.config = true := by rw [← hconfig, hp]
    exact (h p.1 hc.mem hlead).committed (hidle hx') hinherited

def settledLeader : List Event :=
  [.electionTimeout (ascii "a:1"), .handle 0 false, .succeed 0 false, .handle 3 false,
    .succeed 3 false, .append (ascii "a:1") (ascii "x"), .heartbeatTimeout (ascii "a:1"),
    .handle 6 false, .succeed 6 false]

theorem one_configuration_at_a_time_removal :
    ∃ w' w'' p, run step (cluster ["a:1", "b:1", "c:1"] true) settledLeader = some w' ∧
      w'.step (.delServer (ascii "a:1") (ascii "c:1")) = some w'' ∧
      p ∈ w'.made (.delServer (ascii "a:1") (ascii "c:1")) w'' ∧
      ∀ x ∈ (w'.servers p.1).log.entries, x.config = true →
        x.index ≤ (w'.servers p.1).commitIndex :=
  ⟨_, _, (ascii "a:1",
      { term := 2, index := 3, data := ascii "a:1,b:1", config := true, prevCfg := 1 }),
    (Option.some_get (by decide)).symm, (Option.some_get (by decide)).symm, by decide,
    one_configuration_at_a_time (w := cluster ["a:1", "b:1", "c:1"] true)
      (e := .delServer (ascii "a:1") (ascii "c:1")) (by decide) (by decide)
      (Option.some_get (by decide)).symm (Option.some_get (by decide)).symm
      (by decide) rfl (by decide) (by decide)⟩

/--
While it hands over to `b`, the leader removes itself: the answer is an error,
but the configuration stays in its log, and the next removal finds no
reconfiguration going on.
-/
theorem configurations_overlap :
    ¬ ∀ (w w' w'' : World) (es : List Event) (e : Event),
      (∀ id ∈ w.ids, (w.servers id).role ≠ .leader) → run step w es = some w' →
      w'.step e = some w'' → ∀ p ∈ w'.made e w'', p.2.config = true →
      (w'.servers p.1).role = .leader →
      ∀ x ∈ (w'.servers p.1).log.entries, x.config = true →
        x.index ≤ (w'.servers p.1).commitIndex := by
  intro h
  have hrun := (Option.some_get (show (run step (cluster ["a:1", "b:1", "c:1"] true)
    (settledLeader ++ [.transferLeadership (ascii "a:1") (ascii "b:1"),
      .delServer (ascii "a:1") (ascii "a:1")])).isSome by decide)).symm
  have hstep := (Option.some_get (show (run step (cluster ["a:1", "b:1", "c:1"] true)
    (settledLeader ++ [.transferLeadership (ascii "a:1") (ascii "b:1"),
      .delServer (ascii "a:1") (ascii "a:1"),
      .delServer (ascii "a:1") (ascii "c:1")])).isSome by decide)).symm
  have hbad := h _ _ _ _ (.delServer (ascii "a:1") (ascii "c:1")) (by decide) hrun hstep
  exact absurd hbad (by decide)

end World

end Draft
