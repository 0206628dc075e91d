import Draft.Raft.Creation
import Draft.Raft.Exchange
import Draft.Raft.MajorityRule
import Draft.Raft.Retention

/-!
# A leader and one follower

A leader replicates its log to one follower, and nothing else happens: each of its
calls to the follower is handled and answered, and when none is under way the
heartbeat timer expires.  Calls to other servers are left alone.
-/

namespace Draft

open Consensus Raft

/-- A leader, a follower, and the call of the leader to it that is under way. -/
structure Pair where
  leader : Raft
  follower : Raft
  call : Option Request

namespace Pair

def after (node : Bytes) (s f : Raft) : Pair :=
  { leader := { s with sent := [] }
    follower := { f with sent := [] }
    call := ((s.sent.filter (·.dst = node)).map (·.request)).head? }

def start (node : Bytes) (s f : Raft) : Pair := after node s.onHeartbeatTimeout f

def step (node : Bytes) (recent quick : Bool) (x : Pair) : Pair :=
  if x.leader.faulted then x
  else
    match x.call with
    | none =>
        if x.leader.heartbeatTimer then after node x.leader.onHeartbeatTimeout x.follower else x
    | some req =>
        if x.follower.faulted then x
        else
          after node (x.leader.finish node quick req (some (x.follower.serve recent req).2))
            (x.follower.serve recent req).1

end Pair

namespace Raft

variable {s t : Raft} {node : Bytes} {n : Node}

/-! ## The node of the follower -/

structure HasNode (s : Raft) (node : Bytes) (n : Node) : Prop where
  ids : (s.cluster.map (·.2.id)).Nodup
  mem : n ∈ s.cluster.map (·.2)
  id : n.id = node

namespace HasNode

theorem unique (h : s.HasNode node n) {m : Node} (hm : m ∈ s.cluster.map (·.2))
    (hid : m.id = node) : m = n := by
  have hnodup : ((s.cluster.map (·.2)).map (·.id)).Nodup := by
    rw [List.map_map]
    exact h.ids
  exact List.inj_on_of_nodup_map hnodup hm h.mem (hid.trans h.id.symm)

theorem findNode (h : s.HasNode node n) : s.findNode node = some n := by
  have hfind : ((s.cluster.map (·.2)).find? (·.id = node)) = some n := by
    obtain ⟨m, hm⟩ : ∃ m, (s.cluster.map (·.2)).find? (·.id = node) = some m :=
      Option.isSome_iff_exists.mp (List.find?_isSome.mpr ⟨n, h.mem, by simpa using h.id⟩)
    have hid : m.id = node := by simpa using List.find?_some hm
    rw [hm, h.unique (List.mem_of_find?_eq_some hm) hid]
  rw [Raft.findNode, hfind]

private theorem of_cluster (h : s.HasNode node n) (hcluster : t.cluster = s.cluster) : t.HasNode node n :=
  ⟨hcluster ▸ h.ids, hcluster ▸ h.mem, h.id⟩

theorem modifyNode (h : s.HasNode node n) {f : Node → Node} (hid : ∀ m, (f m).id = m.id) :
    (s.modifyNode node f).HasNode node (f n) := by
  have hids : (s.modifyNode node f).cluster.map (·.2.id) = s.cluster.map (·.2.id) := by
    rw [Raft.modifyNode, List.map_map]
    refine List.map_congr_left fun q _ => ?_
    dsimp only [Function.comp_apply]
    split
    · exact hid q.2
    · rfl
  refine ⟨hids ▸ h.ids, ?_, (hid n).trans h.id⟩
  obtain ⟨q, hq, hqn⟩ := List.mem_map.mp h.mem
  refine List.mem_map.mpr ⟨(q.1, f q.2), List.mem_map.mpr ⟨q, hq, ?_⟩, congrArg f hqn⟩
  rw [if_pos (hqn ▸ h.id)]

private theorem filter_nodes (h : s.HasNode node n) :
    (s.cluster.map (·.2)).filter (·.id = node) = [n] := by
  have hnodup : ((s.cluster.map (·.2)).map (·.id)).Nodup := by
    rw [List.map_map]
    exact h.ids
  obtain ⟨before, behind, heq⟩ := List.append_of_mem h.mem
  rw [heq, List.map_append, List.map_cons] at hnodup
  have hfresh := (List.nodup_cons.mp (List.nodup_middle.mp hnodup)).1
  rw [h.id, ← List.map_append] at hfresh
  have hnone : ∀ m ∈ before ++ behind, ¬ m.id = node := fun m hm hid =>
    hfresh (List.mem_map.mpr ⟨m, hm, hid⟩)
  have hbefore : before.filter (·.id = node) = [] := List.filter_eq_nil_iff.mpr fun m hm => by
    simpa using hnone m (List.mem_append_left _ hm)
  have hbehind : behind.filter (·.id = node) = [] := List.filter_eq_nil_iff.mpr fun m hm => by
    simpa using hnone m (List.mem_append_right _ hm)
  rw [heq, List.filter_append, List.filter_cons_of_pos (by simpa using h.id), hbefore, hbehind,
    List.nil_append]

theorem heartbeat (h : s.HasNode node n) (hother : node ≠ s.selfId)
    (hstays : n.transferDataTo = false) (request : Node → Request) :
    ((s.invokeAll (s.others.filter (!·.transferDataTo)) request).sent.filter (·.dst = node)) =
      s.sent.filter (·.dst = node) ++ [⟨node, s.role, s.currTerm, request n⟩] := by
  have hnodes : (s.others.filter (!·.transferDataTo)).filter (·.id = node) = [n] := by
    rw [Raft.others, List.filter_filter, List.filter_filter, List.filter_congr (q := fun m =>
      (m.id ≠ s.selfId && !m.transferDataTo) && decide (m.id = node)), ← List.filter_filter,
      h.filter_nodes]
    · simp [hstays, h.id, hother]
    · intro m _
      cases decide (m.id = node) <;> simp [Bool.and_comm]
  let call := fun m : Node => (⟨m.id, s.role, s.currTerm, request m⟩ : Outgoing)
  have hcalls : ((s.others.filter (!·.transferDataTo)).map call).filter (·.dst = node) =
      ((s.others.filter (!·.transferDataTo)).filter (·.id = node)).map call :=
    List.filter_map
  rw [Raft.invokeAll, List.filter_append, hcalls, hnodes, List.map_singleton, ← h.id]

end HasNode

/-! ## The follower -/

private theorem stepDown_faulted (s : Raft) (term : Nat) (curLeader : Bytes) :
    (s.stepDown term curLeader).faulted = s.faulted := by
  unfold stepDown endLeadershipTransfer
  dsimp only
  repeat' split
  all_goals rfl

private theorem heedLeader_faulted (s : Raft) (term : Nat) (leaderId : Bytes) :
    (s.heedLeader term leaderId).faulted = s.faulted := by
  unfold heedLeader
  split
  · exact stepDown_faulted _ _ _
  · rfl

private theorem followSender_faulted (s : Raft) (term : Nat) (leaderId : Bytes) :
    (s.followSender term leaderId).faulted = s.faulted := by
  change (if s.currTerm < term then s.acceptTerm term leaderId else s : Raft).faulted = _
  split
  · exact stepDown_faulted _ _ _
  · rfl

private theorem adjustConfiguration_faulted (s : Raft) (config : Bytes) :
    (s.adjustConfiguration config).faulted = s.faulted := by
  unfold adjustConfiguration
  split <;> rfl

private theorem followEntries_faulted (s : Raft) (log : EntryLogger) (req : AppendEntriesReq) :
    (s.followEntries log req).faulted = s.faulted := by
  unfold followEntries learnCommit
  dsimp only
  repeat' split
  all_goals first
    | rfl
    | exact adjustConfiguration_faulted _ _

structure Trails (term : Nat) (f : Raft) : Prop where
  currTerm : f.currTerm ≤ term
  compaction : f.logCompactionEnabled = true
  alive : f.faulted = false

namespace Trails

variable {f : Raft} {term : Nat}

theorem withSent (h : Trails term f) (sent : List Outgoing) : Trails term { f with sent := sent } :=
  ⟨h.currTerm, h.compaction, h.alive⟩

theorem heedLeader (h : Trails term f) (leaderId : Bytes) :
    Trails term (f.heedLeader term leaderId) ∧
      (f.heedLeader term leaderId).log = f.log ∧ (f.heedLeader term leaderId).currTerm = term := by
  have hterm := (heedLeader_election h.currTerm leaderId).1
  have hsettings := (turn_heedLeader f term leaderId : Turn False f _).settings
  refine ⟨⟨hterm.le, ?_, ?_⟩, congrArg Replica.log (heedLeader_replica f term leaderId), hterm⟩
  · exact (congrArg Settings.logCompactionEnabled hsettings).trans h.compaction
  · exact (heedLeader_faulted f term leaderId).trans h.alive

theorem followSender (h : Trails term f) (leaderId : Bytes) :
    Trails term (f.followSender term leaderId) ∧
      (f.followSender term leaderId).log = f.log ∧
      (f.followSender term leaderId).currTerm = term := by
  have hterm := (followSender_election h.currTerm leaderId).1
  have hsettings := (turn_followSender f term leaderId : Turn False f _).settings
  refine ⟨⟨hterm.le, ?_, ?_⟩, congrArg Replica.log (followSender_replica f term leaderId), hterm⟩
  · exact (congrArg Settings.logCompactionEnabled hsettings).trans h.compaction
  · exact (followSender_faulted f term leaderId).trans h.alive

theorem refuse (h : Trails term f) {req : AppendEntriesReq} (hterm : req.term = term)
    (hhas : f.log.hasEntry req.prevLogIndex req.prevLogTerm = false) :
    Trails term (f.handleAppendEntries req).1 ∧
      (f.handleAppendEntries req).1.log = f.log ∧
      (f.handleAppendEntries req).2 = ⟨term, false, f.log.lastEntryIndex⟩ := by
  obtain ⟨htrails, hlog, hcurrent⟩ := h.heedLeader req.leaderId
  let t := f.heedLeader term req.leaderId
  have heq : f.handleAppendEntries req = (t, t.appendResult false) := by
    rw [handleAppendEntries, if_neg (by have := h.currTerm; omega), hterm]
    unfold acceptEntries
    rw [hlog, if_pos (by simp [hhas])]
  rw [heq]
  refine ⟨htrails, hlog, ?_⟩
  rw [appendResult, hcurrent, hlog]

theorem accept (h : Trails term f) {req : AppendEntriesReq} (hterm : req.term = term)
    (hhas : f.log.hasEntry req.prevLogIndex req.prevLogTerm = true) {new : EntryLogger}
    (hmerge : mergeEntries f.log req.entries = some new) :
    Trails term (f.handleAppendEntries req).1 ∧
      (f.handleAppendEntries req).1.log = new ∧
      (f.handleAppendEntries req).2 = ⟨term, true, new.lastEntryIndex⟩ := by
  obtain ⟨htrails, hlog, hcurrent⟩ := h.heedLeader req.leaderId
  let t := (f.heedLeader term req.leaderId).followEntries new req
  have heq : f.handleAppendEntries req = (t, t.appendResult true) := by
    rw [handleAppendEntries, if_neg (by have := h.currTerm; omega), hterm]
    unfold acceptEntries
    rw [hlog, if_neg (by simp [hhas]), hmerge]
  have helection := followEntries_election (f.heedLeader term req.leaderId) new req
  have htlog : t.log = new := congrArg Replica.log (followEntries_replica _ new req)
  have htterm : t.currTerm = term := (congrArg Election.currTerm helection).trans hcurrent
  rw [heq]
  refine ⟨⟨htterm.le, ?_, ?_⟩, htlog, ?_⟩
  · exact (congrArg (·.logCompactionEnabled) helection).trans htrails.compaction
  · exact (followEntries_faulted _ new req).trans htrails.alive
  · rw [appendResult, htterm, htlog]

theorem install (h : Trails term f) {req : DataReq} (hterm : req.term = term)
    (hone : req.id = 1) :
    Trails term (f.handleDataTransfer req).1 ∧
      (f.handleDataTransfer req).1.log =
        ((f.log.chop (f.log.lastIndex + 1)).getD f.log).copyStates req.lastConfig req.lastIndex
          req.lastTerm ∧
      (f.handleDataTransfer req).2 = ⟨term, true⟩ := by
  obtain ⟨htrails, hlog, hcurrent⟩ := h.followSender req.leaderId
  let t : Raft := { f.followSender term req.leaderId with electionTimer := false }
  have heq : f.handleDataTransfer req =
      (t.installBase req, (t.installBase req).dataResult true) := by
    rw [handleDataTransfer, if_neg (by have := h.currTerm; omega), hterm]
    dsimp only
    rw [if_pos hone, beginTransfer, if_pos htrails.compaction]
  have helection := installBase_election t req
  have hreplica := congrArg Replica.log (installBase_replica t req)
  rw [show t.log = f.log from hlog] at hreplica
  have htterm : (t.installBase req).currTerm = term :=
    (congrArg Election.currTerm helection).trans hcurrent
  rw [heq]
  refine ⟨⟨htterm.le, ?_, ?_⟩, hreplica, ?_⟩
  · exact (congrArg (·.logCompactionEnabled) helection).trans htrails.compaction
  · exact (adjustConfiguration_faulted _ _).trans htrails.alive
  · rw [dataResult, htterm]

theorem goes_on (h : Trails term f) {req : DataReq} (hterm : req.term = term)
    (hone : req.id ≠ 1) :
    Trails term (f.handleDataTransfer req).1 ∧
      (f.handleDataTransfer req).1.log = f.log ∧
      (f.handleDataTransfer req).2 = ⟨term, true⟩ := by
  obtain ⟨htrails, hlog, hcurrent⟩ := h.followSender req.leaderId
  let t := f.followSender term req.leaderId
  have heq : f.handleDataTransfer req = (t, t.dataResult true) := by
    rw [handleDataTransfer, if_neg (by have := h.currTerm; omega), hterm]
    dsimp only
    rw [if_neg hone]
  rw [heq]
  exact ⟨htrails, hlog, by rw [dataResult, hcurrent]⟩

theorem done (h : Trails term f) {req : DoneReq} (hterm : req.term = term) :
    Trails term (f.handleDoneTransfer req).1 ∧
      (f.handleDoneTransfer req).1.log = f.log ∧
      (f.handleDoneTransfer req).2 = ⟨term, true⟩ := by
  obtain ⟨htrails, hlog, hcurrent⟩ := h.followSender req.leaderId
  rw [handleDoneTransfer, if_neg (by have := h.currTerm; omega), hterm]
  dsimp only
  split
  · exact ⟨htrails, hlog, by rw [dataResult, hcurrent]⟩
  · refine ⟨⟨htrails.currTerm, htrails.compaction, htrails.alive⟩, hlog, ?_⟩
    exact congrArg (DataRes.mk · true) hcurrent

end Trails

/-! ## The leader -/

private theorem readsMissing_iff {g : List Entry} (h : s.Logged g) (m : Node) :
    s.readsMissing m = true ↔ g.length < m.matchIndex := by
  have hbase := h.base_le
  have hcommit := h.commit_le
  unfold readsMissing
  rw [Bool.and_eq_true, decide_eq_true_eq, Option.isNone_iff_eq_none]
  cases hm : m.matchIndex with
  | zero => simp
  | succ k =>
      rw [h.holds.get_eq_none_iff]
      omega

/-- A match of the node above the log of the leader brings the leader down. -/
theorem adjustCommitIndex_faults {g : List Entry} (h : s.Logged g) (hnode : s.HasNode node n)
    (hother : node ≠ s.selfId) (hlt : g.length < n.matchIndex) :
    s.adjustCommitIndex.faulted = true := by
  have hmem : n ∈ s.others := by
    refine List.mem_filter.mpr ⟨hnode.mem, ?_⟩
    simpa [hnode.id] using hother
  unfold Raft.adjustCommitIndex
  rw [if_pos (List.any_eq_true.mpr ⟨n, hmem, (readsMissing_iff h n).mpr hlt⟩)]

private theorem adjustCommitIndex_heartbeatTimer :
    s.adjustCommitIndex.heartbeatTimer = s.heartbeatTimer := by
  have commit : ∀ (u : Raft) (old : Nat),
      ((u.commitAlone old).commitReconfiguration old).heartbeatTimer = u.heartbeatTimer := by
    intro u old
    unfold commitReconfiguration commitAlone
    dsimp only
    repeat' split
    all_goals rfl
  unfold adjustCommitIndex
  split
  · rfl
  · dsimp only
    rw [commit]
    split <;> rfl

/-- A leader as it began, but for what it knows of the node and what it committed. -/
structure Leads (l : Raft) (g : List Entry) (node : Bytes) (files : Sender) (n : Node)
    (s : Raft) : Prop where
  election : s.toElection = l.toElection
  log : s.log = l.log
  logged : s.Logged g
  alive : s.faulted = false
  timer : s.heartbeatTimer = true
  hasNode : s.HasNode node n
  matched : ∀ m ∈ s.cluster.map (·.2), m.matchIndex ≤ g.length
  settled : s.newly node = false
  sender : s.sender = files

namespace Leads

variable {l : Raft} {g : List Entry} {files : Sender}

theorem role (h : Leads l g node files n s) : s.role = l.role := congrArg Election.role h.election

theorem currTerm (h : Leads l g node files n s) : s.currTerm = l.currTerm :=
  congrArg Election.currTerm h.election

theorem settings (h : Leads l g node files n s) : s.toSettings = l.toSettings :=
  congrArg Election.toSettings h.election

theorem last (h : Leads l g node files n s) : s.log.lastEntryIndex = g.length :=
  h.logged.holds.lastEntryIndex_eq

theorem holds (h : Leads l g node files n s) : l.log.Holds g := h.log ▸ h.logged.holds

theorem withSent (h : Leads l g node files n s) (sent : List Outgoing) :
    Leads l g node files n { s with sent := sent } :=
  ⟨h.election, h.log, h.logged, h.alive, h.timer, h.hasNode.of_cluster rfl, h.matched, h.settled,
    h.sender⟩

theorem withFiles (h : Leads l g node files n s) (other : Sender) :
    Leads l g node other n { s with sender := other } :=
  ⟨h.election, h.log, h.logged, h.alive, h.timer, h.hasNode.of_cluster rfl, h.matched, h.settled,
    rfl⟩

private theorem withTimer (h : Leads l g node files n s) :
    Leads l g node files n { s with heartbeatTimer := true } :=
  ⟨h.election, h.log, h.logged, h.alive, rfl, h.hasNode.of_cluster rfl, h.matched, h.settled,
    h.sender⟩

theorem modifyNode (h : Leads l g node files n s) {f : Node → Node} (hid : ∀ m, (f m).id = m.id)
    (hmatch : (f n).matchIndex ≤ g.length) :
    Leads l g node files (f n) (s.modifyNode node f) := by
  have hnode := h.hasNode.modifyNode hid
  refine ⟨h.election, h.log, h.logged, h.alive, h.timer, hnode, ?_,
    (Exchange.newly_modifyNode hid).trans h.settled, h.sender⟩
  intro m hm
  by_cases hne : m.id = node
  · rw [hnode.unique hm hne]
    exact hmatch
  · obtain ⟨q, hq, rfl⟩ := List.mem_map.mp hm
    obtain ⟨p, hp, rfl⟩ := List.mem_map.mp hq
    by_cases hp' : p.2.id = node
    · rw [if_pos hp'] at hne
      exact absurd ((hid p.2).trans hp') hne
    · rw [if_neg hp']
      exact h.matched p.2 (List.mem_map_of_mem hp)

theorem adjustCommitIndex (h : Leads l g node files n s) :
    Leads l g node files n s.adjustCommitIndex := by
  have hread : s.others.any s.readsMissing = false := by
    rw [List.any_eq_false]
    intro m hm hmissing
    have hlt := (readsMissing_iff h.logged m).mp hmissing
    have hle := h.matched m (List.mem_of_mem_filter hm)
    omega
  have hin := inward_adjustCommitIndex s
  refine ⟨hin.election.trans h.election, (adjustCommitIndex_log s).trans h.log,
    (logged_adjustCommitIndex h.logged).1, (faulted_adjustCommitIndex hread).trans h.alive,
    adjustCommitIndex_heartbeatTimer.trans h.timer, h.hasNode.of_cluster hin.cluster,
    hin.cluster ▸ h.matched, ?_,
    (sender_of_sending (adjustCommitIndex_frame .sending rfl)).trans h.sender⟩
  have hsettled := h.settled
  unfold Raft.newly at hsettled ⊢
  rcases adjustCommitIndex_recfg s with hsame | ⟨hnone, -⟩
  · rw [hsame]
    exact hsettled
  · rw [hnone]

private theorem appendEntriesReq_eq (h : Leads l g node files n s) (m : Node) :
    s.appendEntriesReq m = { l.appendEntriesReq m with leaderCommit := s.commitIndex } := by
  have hself : s.selfId = l.selfId := congrArg Settings.selfId h.settings
  unfold appendEntriesReq
  rw [h.log, h.currTerm, hself]

end Leads

structure Presides (l : Raft) (node : Bytes) : Prop where
  role : l.role = .leader
  compaction : l.logCompactionEnabled = true
  other : node ≠ l.selfId

end Raft

namespace Pair

variable {l : Raft} {g : List Entry} {node : Bytes} {files : Sender} {n : Node} {x : Pair}
  {s f : Raft}

def Asks (l : Raft) (n : Node) (call : Option Request) : Prop :=
  ∃ commit, call = some (.appendEntries { l.appendEntriesReq n with leaderCommit := commit })

theorem after_appendEntriesTo (h : Leads l g node files n s) (hidle : s.sent = []) :
    Leads l g node files n (after node (s.appendEntriesTo node) f).leader ∧
      Asks l n (after node (s.appendEntriesTo node) f).call := by
  have hsends : s.appendEntriesTo node = s.invoke node (.appendEntries (s.appendEntriesReq n)) := by
    rw [Raft.appendEntriesTo, h.hasNode.findNode]
  rw [hsends]
  refine ⟨h.withSent [], s.commitIndex, ?_⟩
  simp [after, Raft.invoke, hidle, h.appendEntriesReq_eq]

theorem after_heartbeat (hl : l.Presides node) (h : Leads l g node files n s)
    (hidle : s.sent = []) (hstays : n.transferDataTo = false) :
    Leads l g node files n (after node s.onHeartbeatTimeout f).leader ∧
      Asks l n (after node s.onHeartbeatTimeout f).call := by
  let t : Raft := { s with heartbeatTimer := true }
  let u : Raft := t.invokeAll (t.others.filter (!·.transferDataTo)) fun m =>
    .appendEntries (t.appendEntriesReq m)
  have hself : t.selfId = l.selfId := congrArg Settings.selfId h.settings
  have hu : Leads l g node files n u := (h.withTimer).withSent _
  have hsent : u.sent.filter (·.dst = node) =
      [⟨node, t.role, t.currTerm, .appendEntries (t.appendEntriesReq n)⟩] := by
    have hbeat := h.hasNode.of_cluster (t := t) rfl |>.heartbeat (hself ▸ hl.other) hstays fun m =>
      .appendEntries (t.appendEntriesReq m)
    rw [show t.sent = [] from hidle] at hbeat
    exact hbeat
  have hcall : Asks l n ((u.sent.filter (·.dst = node)).map (·.request)).head? := by
    refine ⟨t.commitIndex, ?_⟩
    rw [hsent, ← (h.withTimer).appendEntriesReq_eq n]
    rfl
  have hrole : s.role = .leader := h.role.trans hl.role
  have heq : s.onHeartbeatTimeout =
      if u.cluster.length = 1 ∧ u.contains u.selfId then u.adjustCommitIndex else u := by
    unfold Raft.onHeartbeatTimeout Raft.appendEntries
    dsimp only
    rw [if_neg (by simp [hrole])]
  rw [heq]
  split
  · refine ⟨hu.adjustCommitIndex.withSent [], ?_⟩
    unfold after
    rw [(inward_adjustCommitIndex u).sent]
    exact hcall
  · exact ⟨hu.withSent [], hcall⟩

/-! ## One step -/

structure Stands (l : Raft) (g : List Entry) (node : Bytes) (files : Sender) (n : Node)
    (x : Pair) : Prop where
  leads : Leads l g node files n x.leader
  idle : x.leader.sent = []
  trails : Trails l.currTerm x.follower

/-- The node as the leader knows it takes part in the replication and in nothing else. -/
structure Replicates (n : Node) : Prop where
  leader : n.transferLeaderTo = false
  data : n.transferDataTo = false

variable (recent quick : Bool)

theorem step_rests (hl : l.Presides node) (h : Stands l g node files n x) (hcall : x.call = none)
    (hn : Replicates n) :
    Stands l g node files n (step node recent quick x) ∧
      Asks l n (step node recent quick x).call ∧
      (step node recent quick x).follower.log = x.follower.log := by
  have heq : step node recent quick x = after node x.leader.onHeartbeatTimeout x.follower := by
    rw [step, if_neg (by simp [h.leads.alive]), hcall]
    dsimp only
    rw [if_pos h.leads.timer]
  obtain ⟨hleads, hasks⟩ := after_heartbeat (f := x.follower) hl h.leads h.idle hn.data
  rw [heq]
  exact ⟨⟨hleads, rfl, h.trails.withSent []⟩, hasks, rfl⟩

theorem step_call {req : Request} (hcall : x.call = some req) (halive : x.leader.faulted = false)
    (hserves : x.follower.faulted = false) :
    step node recent quick x = after node
      (x.leader.finish node quick req (some (x.follower.serve recent req).2))
      (x.follower.serve recent req).1 := by
  rw [step, if_neg (by simp [halive]), hcall]
  dsimp only
  rw [if_neg (by simp [hserves])]

def retried (n : Node) (m : Nat) : Node := { n with nextIndex := m + 1 }

theorem step_refused (hl : l.Presides node) (h : Stands l g node files n x)
    (hasks : Asks l n x.call)
    (hhas : x.follower.log.hasEntry (l.appendEntriesReq n).prevLogIndex
      (l.appendEntriesReq n).prevLogTerm = false) :
    ∃ f, Trails l.currTerm f ∧ f.log = x.follower.log ∧ step node recent quick x =
      after node (x.leader.onAppendInconsistent node x.follower.log.lastEntryIndex) f := by
  obtain ⟨commit, hcall⟩ := hasks
  obtain ⟨htrails, hlog, hres⟩ := @Trails.refuse x.follower l.currTerm h.trails
    { l.appendEntriesReq n with leaderCommit := commit } rfl hhas
  refine ⟨_, htrails, hlog, ?_⟩
  rw [step_call recent quick hcall h.leads.alive h.trails.alive]
  change after node (x.leader.onAppendEntries node (some (x.follower.handleAppendEntries
    { l.appendEntriesReq n with leaderCommit := commit }).2) quick) _ = _
  rw [hres, Raft.onAppendEntries]
  dsimp only
  rw [if_neg (by simp [h.leads.role, hl.role]), if_neg Bool.false_ne_true,
    if_neg (by simp [h.leads.currTerm])]
  rfl

theorem step_retries (hl : l.Presides node) (h : Stands l g node files n x)
    (hasks : Asks l n x.call)
    (hhas : x.follower.log.hasEntry (l.appendEntriesReq n).prevLogIndex
      (l.appendEntriesReq n).prevLogTerm = false) {m : Nat}
    (hlast : x.follower.log.lastEntryIndex = m) (hlo : l.log.lastIndex ≤ m) (hhi : m < g.length) :
    Stands l g node files (retried n m) (step node recent quick x) ∧
      Asks l (retried n m) (step node recent quick x).call ∧
      (step node recent quick x).follower.log = x.follower.log := by
  obtain ⟨f, htrails, hlog, heq⟩ := step_refused recent quick hl h hasks hhas
  let t : Raft := x.leader.modifyNode node fun n => retried n m
  have ht : Leads l g node files (retried n m) t :=
    h.leads.modifyNode (f := fun n => retried n m) (fun _ => rfl)
      (h.leads.matched n h.leads.hasNode.mem)
  have hget : t.log.get (m + 1) ≠ none := by
    rw [ne_eq, ht.logged.holds.get_eq_none_iff, ht.log]
    omega
  have hretry : x.leader.onAppendInconsistent node m = t.appendEntriesTo node :=
    if_neg fun hnone => hget (Option.isNone_iff_eq_none.mp hnone)
  obtain ⟨hleads, hasks⟩ := after_appendEntriesTo (f := f) ht h.idle
  rw [heq, hlast, hretry]
  exact ⟨⟨hleads, rfl, htrails.withSent []⟩, hasks, hlog⟩

def matched (n : Node) (m : Nat) : Node := { n with matchIndex := m, nextIndex := m + 1 }

private theorem step_accepted (hl : l.Presides node) (h : Stands l g node files n x)
    (hasks : Asks l n x.call)
    (hhas : x.follower.log.hasEntry (l.appendEntriesReq n).prevLogIndex
      (l.appendEntriesReq n).prevLogTerm = true) {new : EntryLogger}
    (hmerge : mergeEntries x.follower.log (l.appendEntriesReq n).entries = some new) :
    ∃ f, Trails l.currTerm f ∧ f.log = new ∧ step node recent quick x =
      after node (x.leader.onAppendSuccess node new.lastEntryIndex quick) f := by
  obtain ⟨commit, hcall⟩ := hasks
  obtain ⟨htrails, hlog, hres⟩ := @Trails.accept x.follower l.currTerm h.trails
    { l.appendEntriesReq n with leaderCommit := commit } rfl hhas new hmerge
  refine ⟨_, htrails, hlog, ?_⟩
  rw [step_call recent quick hcall h.leads.alive h.trails.alive]
  change after node (x.leader.onAppendEntries node (some (x.follower.handleAppendEntries
    { l.appendEntriesReq n with leaderCommit := commit }).2) quick) _ = _
  rw [hres, Raft.onAppendEntries]
  dsimp only
  rw [if_neg (by simp [h.leads.role, hl.role]), if_pos rfl]
  rfl

theorem step_matches (hl : l.Presides node) (h : Stands l g node files n x)
    (hasks : Asks l n x.call) (hn : Replicates n)
    (hhas : x.follower.log.hasEntry (l.appendEntriesReq n).prevLogIndex
      (l.appendEntriesReq n).prevLogTerm = true) {new : EntryLogger}
    (hmerge : mergeEntries x.follower.log (l.appendEntriesReq n).entries = some new) {m : Nat}
    (hlast : new.lastEntryIndex = m) (hle : m ≤ g.length) :
    Stands l g node files (matched n m) (step node recent quick x) ∧
      (step node recent quick x).call = none ∧
      (step node recent quick x).follower.log = new := by
  obtain ⟨f, htrails, hlog, heq⟩ := step_accepted recent quick hl h hasks hhas hmerge
  let t : Raft := (x.leader.recordMatch node m).adjustCommitIndex
  have ht : Leads l g node files (matched n m) t :=
    (h.leads.modifyNode (f := fun n => matched n m) (fun _ => rfl) hle).adjustCommitIndex
  have hmatch : x.leader.onAppendSuccess node m quick = t := by
    have hstays : t.transferringLeaderTo node = false := by
      rw [transferringLeaderTo, ht.hasNode.findNode]
      exact hn.leader
    unfold onAppendSuccess
    dsimp only
    rw [show (x.leader.recordMatch node m).adjustCommitIndex = t from rfl, ht.alive, hstays,
      if_neg Bool.false_ne_true, if_neg Bool.false_ne_true, ht.settled, if_neg Bool.false_ne_true]
  have hsent : t.sent = [] := (inward_adjustCommitIndex _).sent.trans h.idle
  rw [heq, hlast, hmatch]
  refine ⟨⟨ht.withSent [], rfl, htrails.withSent []⟩, ?_, hlog⟩
  simp [after, hsent]

theorem step_faults (hl : l.Presides node) (h : Stands l g node files n x)
    (hasks : Asks l n x.call)
    (hhas : x.follower.log.hasEntry (l.appendEntriesReq n).prevLogIndex
      (l.appendEntriesReq n).prevLogTerm = true) {new : EntryLogger}
    (hmerge : mergeEntries x.follower.log (l.appendEntriesReq n).entries = some new) {m : Nat}
    (hlast : new.lastEntryIndex = m) (hlt : g.length < m) :
    (step node recent quick x).leader.faulted = true ∧
      (step node recent quick x).leader.log.lastEntryIndex = g.length ∧
      ((step node recent quick x).leader.findNode node).map (·.matchIndex) = some m := by
  obtain ⟨f, -, -, heq⟩ := step_accepted recent quick hl h hasks hhas hmerge
  let t : Raft := x.leader.recordMatch node m
  have hself : t.selfId = l.selfId := congrArg Settings.selfId h.leads.settings
  have hlogged : t.Logged g := h.leads.logged
  have hnode : t.HasNode node (matched n m) :=
    h.leads.hasNode.modifyNode (f := fun n => matched n m) fun _ => rfl
  have hfaults := adjustCommitIndex_faults hlogged hnode (hself ▸ hl.other) hlt
  have hfaulted : x.leader.onAppendSuccess node m quick = t.adjustCommitIndex := by
    unfold onAppendSuccess
    dsimp only
    rw [if_pos hfaults]
  rw [heq, hlast, hfaulted]
  refine ⟨hfaults, ?_, ?_⟩
  · exact (congrArg EntryLogger.lastEntryIndex (adjustCommitIndex_log t)).trans
      hlogged.holds.lastEntryIndex_eq
  · have hafter : (after node t.adjustCommitIndex f).leader.HasNode node (matched n m) :=
      hnode.of_cluster (inward_adjustCommitIndex t).cluster
    rw [hafter.findNode]
    rfl

/-! ## In a cluster -/

structure Shows (w : World) (id node : Bytes) (x : Pair) : Prop where
  id_mem : id ∈ w.ids
  node_mem : node ∈ w.ids
  ne : node ≠ id
  leader : w.servers id = x.leader
  follower : w.servers node = x.follower
  idle : x.follower.sent = []
  call : ∀ req ∈ x.call, ∃ (i : Nat) (o : Outgoing),
    o.dst = node ∧ o.request = req ∧ w.calls[i]? = some (o.call id)

variable {w : World} {id : Bytes}

theorem call_after {calls : List Call} {req : Request} (h : req ∈ (after node s f).call) :
    ∃ (i : Nat) (o : Outgoing), o.dst = node ∧ o.request = req ∧
      (calls ++ s.sent.map (Outgoing.call id))[i]? = some (o.call id) := by
  have hmem : req ∈ (s.sent.filter (·.dst = node)).map (·.request) := List.mem_of_mem_head? h
  obtain ⟨o, ho, rfl⟩ := List.mem_map.mp hmem
  obtain ⟨ho, hdst⟩ := List.mem_filter.mp ho
  obtain ⟨k, hk⟩ := List.getElem?_of_mem ho
  refine ⟨calls.length + k, o, of_decide_eq_true hdst, rfl, ?_⟩
  rw [List.getElem?_append_right (by omega), Nat.add_sub_cancel_left, List.getElem?_map, hk,
    Option.map_some]

private theorem succeed_step {i : Nat} {c : Call} {res : Response} (hc : w.calls[i]? = some c)
    (hres : c.response = some res) (hopen : c.done = false) (hsrc : c.src ∈ w.ids)
    (halive : (w.servers c.src).faulted = false) :
    World.step w (.succeed i quick) =
      some ({ w with calls := w.calls.set i { c with done := true } }.act c.src
        ((w.servers c.src).finish c.dst quick c.request (some res))) := by
  simp [World.step, hc, World.finishCall, hres, hopen, hsrc, halive]

/-- A step of a pair is what events of its two servers make of a cluster. -/
theorem step_events (h : Shows w id node x) :
    ∃ es w', run World.step w es = some w' ∧ Shows w' id node (step node recent quick x) ∧
      ∀ other, other ≠ id → other ≠ node → w'.servers other = w.servers other := by
  have hleader := h.leader
  have hfollower := h.follower
  have stays : ∃ es w', run World.step w es = some w' ∧ Shows w' id node x ∧
      ∀ other, other ≠ id → other ≠ node → w'.servers other = w.servers other :=
    ⟨[], w, rfl, h, fun _ _ _ => rfl⟩
  unfold step
  split
  · exact stays
  rename_i halive
  rw [Bool.not_eq_true] at halive
  split
  · split
    · rename_i hcall htimer
      refine ⟨[.heartbeatTimeout id], w.act id x.leader.onHeartbeatTimeout, ?_, ?_, ?_⟩
      · simp [run, World.step, World.local_, hleader, htimer, h.id_mem, halive]
      · refine ⟨h.id_mem, h.node_mem, h.ne, World.act_self _ _ _, ?_, rfl,
          fun req hreq => call_after hreq⟩
        rw [World.act_of_ne _ _ h.ne, hfollower, after, ← h.idle]
      · exact fun other hother _ => World.act_of_ne _ _ hother
    · exact stays
  · rename_i req hcall
    split
    · exact stays
    rename_i hserves
    obtain ⟨i, o, rfl, rfl, hi⟩ := h.call req (by simp [hcall])
    let served := x.follower.serve recent o.request
    let c : Call := { o.call id with response := some served.2 }
    let w₁ := { w with calls := w.calls.set i c }.act o.dst served.1
    have hlen : i < w.calls.length := lt_length_of_getElem? hi
    have hhandle : World.step w (.handle i recent) = some w₁ := by
      simp [World.step, hi, World.handleCall, Outgoing.call, h.node_mem, hfollower, hserves, w₁, c,
        served]
    have hc : w₁.calls[i]? = some c := by
      rw [show w₁.calls = w.calls.set i c ++ served.1.sent.map (Outgoing.call o.dst) from rfl,
        List.getElem?_append_left (by simpa using hlen), List.getElem?_set_self hlen]
    have hleader₁ : w₁.servers id = x.leader := (World.act_of_ne _ _ h.ne.symm).trans hleader
    let w₂ := { w₁ with calls := w₁.calls.set i { c with done := true } }.act id
      (x.leader.finish o.dst quick o.request (some served.2))
    have hsucceed : World.step w₁ (.succeed i quick) = some w₂ := by
      have hsrc : (w₁.servers c.src).faulted = false := by
        rw [show c.src = id from rfl, hleader₁, halive]
      rw [succeed_step quick hc rfl rfl h.id_mem hsrc]
      exact congrArg (fun s : Raft => some (World.act _ id (s.finish _ quick _ _))) hleader₁
    refine ⟨[.handle i recent, .succeed i quick], w₂, ?_, ?_, ?_⟩
    · simp [run, hhandle, hsucceed]
    · refine ⟨h.id_mem, h.node_mem, h.ne, World.act_self _ _ _, ?_, rfl,
        fun req hreq => call_after hreq⟩
      rw [World.act_of_ne _ _ h.ne]
      exact World.act_self _ _ _
    · intro other hother hother'
      rw [World.act_of_ne _ _ hother]
      exact World.act_of_ne _ _ hother'

/-- A run of a pair is a run of the cluster in which no other server takes a step. -/
theorem run_events (h : Shows w id node x) (k : Nat) :
    ∃ es w', run World.step w es = some w' ∧ Shows w' id node ((step node recent quick)^[k] x) ∧
      ∀ other, other ≠ id → other ≠ node → w'.servers other = w.servers other := by
  induction k with
  | zero => exact ⟨[], w, rfl, h, fun _ _ _ => rfl⟩
  | succ k ih =>
      obtain ⟨es, w', hrun, hshows, hsame⟩ := ih
      obtain ⟨es', w'', hrun', hshows', hsame'⟩ := step_events recent quick hshows
      refine ⟨es ++ es', w'', run_append hrun hrun', ?_, fun other hid hnode =>
        (hsame' other hid hnode).trans (hsame other hid hnode)⟩
      rw [Function.iterate_succ_apply']
      exact hshows'

end Pair

end Draft
