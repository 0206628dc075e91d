import Draft.Raft.Cluster
import Draft.Raft.CommitRule
import Draft.Raft.Membership
import Draft.Raft.Reactions

/-!
# Upkeep

Something is upheld of the log and the members of a server, of the requests it
sends and of the server it is adding.  Few functions touch any of these: it is
enough that they keep it, and every function of a server and every step of the
cluster keeps it, except for the handlers of two requests.
-/

namespace Draft

open Consensus Raft

inductive RosterChange (newcomer : Bytes → Prop) (before : List (Bytes × Bytes)) :
    List (Bytes × Bytes) → Prop
  | same (hne : before ≠ []) : RosterChange newcomer before before
  | join (id : Bytes) (hnew : newcomer id) (hout : ∀ p ∈ before, p.1 ≠ id) :
      RosterChange newcomer before (before ++ [(id, id)])
  | leave (address : Bytes) (hmem : ∃ p ∈ before, p.1 = address) (hlength : before.length ≠ 1) :
      RosterChange newcomer before (before.filter (·.1 ≠ address))

/--
What is upheld of the log and the members, of a request and of a new server.
The functions that touch one of them, or build a request, keep it.
-/
structure Upkeep where
  ledger : Replica → List (Bytes × Bytes) → Prop
  request : Request → Prop
  newcomer : Bytes → Prop
  vote : ∀ req, request (.timeoutNow req) ∧ request (.preVote req) ∧ request (.requestVote req)
  doneTransfer : ∀ req, request (.doneTransfer req)
  appendEntries : ∀ (s : Raft) (n : Node), ledger s.toReplica s.roster → 0 < n.nextIndex →
    request (.appendEntries (s.appendEntriesReq n))
  dataTransfer : ∀ (s : Raft) (number : Nat) (name data : Bytes), ledger s.toReplica s.roster →
    request (.dataTransfer (s.dataReq number name data))
  member : ∀ r roster, ledger r roster → ∀ p ∈ roster, newcomer p.2
  commit : ∀ s : Raft, ledger s.toReplica s.roster → ledger s.adjustCommitIndex.toReplica s.roster
  entry : ∀ (r : Replica) roster data term, ledger r roster →
    ledger { r with
      log := r.log.append [r.log.makeEntry data (r.log.lastEntryIndex + 1) term false] } roster
  configuration : ∀ (r : Replica) before after term, ledger r before →
    RosterChange newcomer before after →
    ledger { r with
      log := r.log.append [r.log.makeEntry (joinComma (after.map (·.2)))
        (r.log.lastEntryIndex + 1) term true] } after
  apply : ∀ (r : Replica) roster applied, ledger r roster → r.lastApplied < r.commitIndex →
    ledger { r with lastApplied := r.lastApplied + 1, applied := applied } roster
  compact : ∀ (r : Replica) roster, ledger r roster →
    ledger { r with log := (r.log.drop r.commitIndex).getD r.log } roster

namespace Raft

structure Upheld (U : Upkeep) (s : Raft) : Prop where
  ledger : U.ledger s.toReplica s.roster
  next : ∀ p ∈ s.cluster, 0 < p.2.nextIndex
  recfg : ∀ r ∈ s.recfg, 0 < r.n.nextIndex ∧ U.newcomer r.n.id
  sent : ∀ o ∈ s.sent, U.request o.request

variable {U : Upkeep} {s t : Raft}

theorem roster_of_cluster (h : t.cluster = s.cluster) : t.roster = s.roster := by
  rw [roster, h, roster]

namespace Upheld

/-! ## Small changes -/

theorem books (h : s.Upheld U) (hreplica : t.toReplica = s.toReplica)
    (hcluster : t.cluster = s.cluster) (hrecfg : t.recfg = s.recfg ∨ t.recfg = none)
    (hsent : t.sent = s.sent) : t.Upheld U where
  ledger := by
    rw [hreplica, roster_of_cluster hcluster]
    exact h.ledger
  next := hcluster ▸ h.next
  recfg := by
    rcases hrecfg with heq | hnone
    · exact heq ▸ h.recfg
    · simp [hnone]
  sent := hsent ▸ h.sent

theorem replica (h : s.Upheld U) (hledger : U.ledger t.toReplica s.roster)
    (hcluster : t.cluster = s.cluster) (hrecfg : t.recfg = s.recfg) (hsent : t.sent = s.sent) :
    t.Upheld U :=
  ⟨roster_of_cluster hcluster ▸ hledger, hcluster ▸ h.next, hrecfg ▸ h.recfg, hsent ▸ h.sent⟩

theorem invoke (h : s.Upheld U) (id : Bytes) {req : Request} (hreq : U.request req) :
    (s.invoke id req).Upheld U where
  ledger := h.ledger
  next := h.next
  recfg := h.recfg
  sent := by
    intro o ho
    rcases List.mem_append.mp ho with ho | ho
    · exact h.sent o ho
    · obtain rfl := List.mem_singleton.mp ho
      exact hreq

theorem invokeAll (h : s.Upheld U) {nodes : List Node} {req : Node → Request}
    (hreq : ∀ n ∈ nodes, U.request (req n)) : (s.invokeAll nodes req).Upheld U where
  ledger := h.ledger
  next := h.next
  recfg := h.recfg
  sent := by
    intro o ho
    rcases List.mem_append.mp ho with ho | ho
    · exact h.sent o ho
    · obtain ⟨n, hn, rfl⟩ := List.mem_map.mp ho
      exact hreq n hn

private theorem roster_modifyNode (s : Raft) (id : Bytes) {f : Node → Node} (hid : ∀ n, (f n).id = n.id) :
    (s.modifyNode id f).roster = s.roster := by
  simp only [Raft.roster, Raft.modifyNode, List.map_map]
  refine List.map_congr_left fun p _ => ?_
  simp only [Function.comp_apply]
  split
  · rw [hid]
  · rfl

theorem modifyNode (h : s.Upheld U) (id : Bytes) {f : Node → Node}
    (hnext : ∀ n, 0 < n.nextIndex → 0 < (f n).nextIndex) (hid : ∀ n, (f n).id = n.id) :
    (s.modifyNode id f).Upheld U where
  ledger := by
    rw [roster_modifyNode s id hid]
    exact h.ledger
  next := by
    intro p hp
    obtain ⟨q, hq, rfl⟩ := List.mem_map.mp hp
    split
    · exact hnext _ (h.next q hq)
    · exact h.next q hq
  recfg := by
    intro r hr
    obtain ⟨q, hq, rfl⟩ := Option.map_eq_some_iff.mp hr
    split
    · exact ⟨hnext _ (h.recfg q hq).1, (hid q.n).symm ▸ (h.recfg q hq).2⟩
    · exact h.recfg q hq
  sent := h.sent

theorem findNode (h : s.Upheld U) {id : Bytes} {n : Node} (hn : s.findNode id = some n) :
    0 < n.nextIndex := by
  unfold Raft.findNode at hn
  split at hn
  · rename_i m hm
    cases hn
    obtain ⟨p, hp, rfl⟩ := List.mem_map.mp (List.mem_of_find?_eq_some hm)
    exact h.next p hp
  · split at hn
    · rename_i r hr
      split at hn
      · cases hn
        exact (h.recfg r hr).1
      · cases hn
    · cases hn

/-! ## The leader -/

theorem adjustCommitIndex (h : s.Upheld U) : s.adjustCommitIndex.Upheld U := by
  have hinward := inward_adjustCommitIndex s
  have hledger := U.commit s h.ledger
  rw [← roster_of_cluster hinward.cluster] at hledger
  refine ⟨hledger, hinward.cluster ▸ h.next, ?_, hinward.sent ▸ h.sent⟩
  intro r hr
  refine h.recfg r ?_
  unfold Raft.adjustCommitIndex at hr
  split at hr
  · exact hr
  · have hcount : ∀ u : Raft, u.recfg = s.recfg → ∀ old,
        r ∈ (u.commitReconfiguration old).recfg → r ∈ s.recfg := by
      intro u hu old hmem
      unfold commitReconfiguration at hmem
      dsimp only at hmem
      split at hmem
      · cases hmem
      · exact hu ▸ hmem
    refine hcount _ ?_ _ hr
    unfold commitAlone
    split <;> split <;> first | rfl | (split <;> rfl)

theorem appendEntriesTo (h : s.Upheld U) (id : Bytes) : (s.appendEntriesTo id).Upheld U := by
  unfold Raft.appendEntriesTo
  split
  · exact h
  · rename_i n hn
    exact h.invoke id (U.appendEntries s n h.ledger (h.findNode hn))

theorem appendEntries (h : s.Upheld U) : s.appendEntries.Upheld U := by
  have timer : Upheld U { s with heartbeatTimer := true } := h.books rfl rfl (.inl rfl) rfl
  unfold Raft.appendEntries
  dsimp only
  split
  · exact timer
  · have calls : Upheld U (Raft.invokeAll { s with heartbeatTimer := true }
        (s.others.filter (!·.transferDataTo)) fun n => .appendEntries (s.appendEntriesReq n)) := by
      refine timer.invokeAll fun n hn => U.appendEntries s n h.ledger ?_
      obtain ⟨p, hp, rfl⟩ := List.mem_map.mp (List.mem_of_mem_filter (List.mem_of_mem_filter hn))
      exact h.next p hp
    split
    · exact calls.adjustCommitIndex
    · exact calls

theorem append (h : s.Upheld U) (data : Bytes) : (s.append data).Upheld U := by
  unfold Raft.append
  split
  · exact h
  · exact h.replica (U.entry _ _ data s.currTerm h.ledger) rfl rfl rfl

theorem appendConfiguration (h : s.Upheld U) {cluster : List (Bytes × Node)}
    (hchange : RosterChange U.newcomer s.roster (Raft.roster { s with cluster := cluster }))
    (hnext : ∀ p ∈ cluster, 0 < p.2.nextIndex) :
    (Raft.appendConfiguration { s with cluster := cluster }).Upheld U where
  ledger := by
    have hledger := U.configuration _ _ _ s.currTerm h.ledger hchange
    rw [Raft.roster, List.map_map] at hledger
    exact hledger
  next := hnext
  recfg := h.recfg
  sent := h.sent

theorem completeReconfiguration (h : s.Upheld U) (status : Bytes) :
    (s.completeReconfiguration status).Upheld U :=
  h.books rfl rfl (.inr rfl) rfl

theorem deployReconfiguration (h : s.Upheld U) {r : Reconfiguration}
    (hr : 0 < r.n.nextIndex ∧ U.newcomer r.n.id) : (s.deployReconfiguration r).Upheld U := by
  have recfg : ∀ u : Raft, u.Upheld U →
      Upheld U { u with recfg := some { r with entryAdded := true } } :=
    fun u hu => ⟨hu.ledger, hu.next, fun q hq => Option.some.inj hq ▸ hr, hu.sent⟩
  unfold Raft.deployReconfiguration
  split
  · exact h
  dsimp only
  split
  · rename_i hcontains
    have hne : s.roster ≠ [] := by
      intro hnil
      rw [Raft.roster, List.map_eq_nil_iff] at hnil
      simp [Raft.contains, hnil] at hcontains
    exact recfg _ (h.appendConfiguration (.same hne) h.next)
  · rename_i hcontains
    have hout : ∀ p ∈ s.roster, p.1 ≠ r.n.id := by
      intro p hp heq
      obtain ⟨q, hq, rfl⟩ := List.mem_map.mp hp
      exact hcontains (List.any_eq_true.mpr ⟨q, hq, by simpa using heq⟩)
    have hroster : Raft.roster { s with cluster := s.cluster ++ [(r.n.id, r.n)] } =
        s.roster ++ [(r.n.id, r.n.id)] := by
      simp [Raft.roster]
    refine recfg _ (h.appendConfiguration ?_ fun p hp => ?_)
    · rw [hroster]
      exact .join r.n.id hr.2 hout
    · rcases List.mem_append.mp hp with hp | hp
      · exact h.next p hp
      · obtain rfl := List.mem_singleton.mp hp
        exact hr.1

theorem handleCatchUpServerAppendEntries (h : s.Upheld U) (quick : Bool) :
    (s.handleCatchUpServerAppendEntries quick).Upheld U := by
  unfold Raft.handleCatchUpServerAppendEntries
  split
  · exact h
  · rename_i r hr
    have hnext := h.recfg r hr
    split
    · have rounds : Upheld U { s with recfg := some { r with rounds := r.rounds + 1 } } :=
        ⟨h.ledger, h.next, fun q hq => Option.some.inj hq ▸ hnext, h.sent⟩
      exact rounds.appendEntriesTo _
    · split
      · exact (h.deployReconfiguration hnext).appendEntries
      · exact h.completeReconfiguration _

theorem sender (h : s.Upheld U) (sender : Sender) : Upheld U { s with sender := sender } :=
  h.books rfl rfl (.inl rfl) rfl

theorem sendChunk (h : s.Upheld U) (id : Bytes) : (s.sendChunk id).Upheld U := by
  have node : Upheld U (if s.sender.dataTransferId + 1 = 1 then
      s.modifyNode id fun n => { n with
        transferDataTo := true, nextIndex := s.log.lastEntryIndex + 1 }
      else s) := by
    split
    · exact h.modifyNode id (fun _ _ => Nat.succ_pos _) fun _ => rfl
    · exact h
  exact (node.sender _).invoke id (U.dataTransfer s _ _ _ h.ledger)

theorem doDataTransfer (h : s.Upheld U) (id : Bytes) : (s.doDataTransfer id).Upheld U := by
  unfold Raft.doDataTransfer
  split
  · exact h
  · split
    · exact h.appendEntriesTo id
    · exact h.sendChunk id

theorem doDoneTransfer (h : s.Upheld U) (id : Bytes) : (s.doDoneTransfer id).Upheld U :=
  (h.sender _).invoke id (U.doneTransfer _)

theorem initTransfer (h : s.Upheld U) : s.initTransfer.Upheld U := h.books rfl rfl (.inl rfl) rfl

theorem startDataTransfer (h : s.Upheld U) (id : Bytes) : (s.startDataTransfer id).Upheld U := by
  have node : Upheld U
      (s.initTransfer.modifyNode id fun n => { n with transferDataTo := true }) :=
    h.initTransfer.modifyNode id (fun _ hn => hn) fun _ => rfl
  exact node.doDataTransfer id

/-! ## Roles and terms -/

theorem becomeLeader (h : s.Upheld U) : s.becomeLeader.Upheld U where
  ledger := by
    have hroster : s.becomeLeader.roster = s.roster := by
      rw [Raft.roster, Raft.becomeLeader, List.map_map]
      rfl
    rw [hroster]
    exact h.ledger
  next := by
    intro p hp
    obtain ⟨q, -, rfl⟩ := List.mem_map.mp hp
    exact Nat.succ_pos _
  recfg := h.recfg
  sent := h.sent

theorem stepUp (h : s.Upheld U) : s.stepUp.Upheld U := h.becomeLeader.appendEntries

theorem reply (h : s.Upheld U) (body : Bytes) : (s.reply body).Upheld U :=
  h.books rfl rfl (.inl rfl) rfl

theorem endLeadershipTransfer (h : s.Upheld U) (curLeader : Bytes) :
    (s.endLeadershipTransfer curLeader).Upheld U := by
  unfold Raft.endLeadershipTransfer
  split
  · exact h
  · rename_i node _
    have start : Upheld U (s.modifyNode node fun n => { n with transferLeaderTo := false }) :=
      h.modifyNode node (fun _ hn => hn) fun _ => rfl
    have finish : ∀ u : Raft, u.Upheld U →
        Upheld U { u with serverTransferReplyTo := false, serverTransferLeaderTo := none } :=
      fun u hu => hu.books rfl rfl (.inl rfl) rfl
    refine finish _ ?_
    split
    · exact start.books rfl rfl (.inr rfl) rfl
    · split
      · exact start.books rfl rfl (.inl rfl) rfl
      · exact start

theorem stepDown (h : s.Upheld U) (term : Nat) (curLeader : Bytes) :
    (s.stepDown term curLeader).Upheld U := by
  have follower : Upheld U { s with
      heartbeatTimer := false
      role := .follower
      currTerm := term
      electionTimer := true } := h.books rfl rfl (.inl rfl) rfl
  exact follower.endLeadershipTransfer curLeader

theorem leaderElection (h : s.Upheld U) : s.leaderElection.Upheld U := by
  have candidate : s.becomeCandidate.Upheld U := h.books rfl rfl (.inl rfl) rfl
  unfold Raft.leaderElection
  dsimp only
  split
  · exact candidate.stepUp
  · have calls : Upheld U (s.becomeCandidate.invokeAll s.becomeCandidate.others fun _ =>
        .requestVote (s.becomeCandidate.voteReq false)) :=
      candidate.invokeAll fun _ _ => (U.vote _).2.2
    exact calls.books rfl rfl (.inl rfl) rfl

theorem preVote (h : s.Upheld U) (early : Bool) : (s.preVote early).Upheld U := by
  unfold Raft.preVote
  split
  · exact h.leaderElection
  · have start : Upheld U { s with
        preVotesGranted := if s.contains s.selfId then 1 else 0
        preVotesRefused := 0
        role := .follower } := h.books rfl rfl (.inl rfl) rfl
    exact start.invokeAll fun _ _ => (U.vote _).2.1

theorem checkout (h : s.Upheld U) : s.checkout.Upheld U := by
  unfold Raft.checkout
  split
  · exact h.leaderElection
  · split
    · exact h.books rfl rfl (.inl rfl) rfl
    · exact h

theorem timeoutNow (h : s.Upheld U) (id : Bytes) : (s.timeoutNow id).Upheld U :=
  h.invoke id (U.vote _).1

/-! ## Callbacks -/

theorem onPreVote (h : s.Upheld U) (res : Option VoteRes) : (s.onPreVote res).Upheld U := by
  have count : ∀ granted refused, Upheld U
      { s with preVotesGranted := granted, preVotesRefused := refused } :=
    fun _ _ => h.books rfl rfl (.inl rfl) rfl
  unfold Raft.onPreVote
  split
  · exact h
  · split
    · exact (count (s.preVotesGranted + 1) s.preVotesRefused).checkout
    · exact (count s.preVotesGranted (s.preVotesRefused + 1)).checkout

theorem onRequestVote (h : s.Upheld U) (res : Option VoteRes) : (s.onRequestVote res).Upheld U := by
  have count : Upheld U { s with votes := s.votes + 1 } := h.books rfl rfl (.inl rfl) rfl
  unfold Raft.onRequestVote countVote
  dsimp only
  repeat' split
  all_goals first | exact h | exact count.stepUp | exact count | exact h.stepDown _ _

theorem onTimeoutNow (h : s.Upheld U) (id : Bytes) (res : Option VoteRes) :
    (s.onTimeoutNow id res).Upheld U := by
  unfold Raft.onTimeoutNow
  split
  · exact h.timeoutNow id
  · exact h

theorem onAppendSuccess (h : s.Upheld U) (id : Bytes) (matchIndex : Nat) (quick : Bool) :
    (s.onAppendSuccess id matchIndex quick).Upheld U := by
  have commit : (s.recordMatch id matchIndex).adjustCommitIndex.Upheld U :=
    (h.modifyNode (f := fun n => { n with matchIndex := matchIndex, nextIndex := matchIndex + 1 })
      id (fun _ _ => Nat.succ_pos _) fun _ => rfl).adjustCommitIndex
  have next : ∀ u : Raft, u.Upheld U →
      Upheld U (if u.newly id then u.handleCatchUpServerAppendEntries quick else u) := by
    intro u hu
    split
    · exact hu.handleCatchUpServerAppendEntries quick
    · exact hu
  unfold Raft.onAppendSuccess handleTransferLeaderTo
  dsimp only
  split
  · exact commit
  · refine next _ ?_
    split
    · split
      · exact commit.timeoutNow id
      · exact commit
    · exact commit

theorem onAppendEntries (h : s.Upheld U) (id : Bytes) (res : Option AppendEntriesRes)
    (quick : Bool) : (s.onAppendEntries id res quick).Upheld U := by
  unfold Raft.onAppendEntries
  split
  · split
    · exact h.handleCatchUpServerAppendEntries quick
    · exact h
  · rename_i res
    split
    · exact h
    split
    · exact h.onAppendSuccess id _ quick
    split
    · exact h.stepDown _ _
    · have node : Upheld U (s.modifyNode id fun n => { n with nextIndex := res.matchIndex + 1 }) :=
        h.modifyNode id (fun _ _ => Nat.succ_pos _) fun _ => rfl
      unfold onAppendInconsistent
      dsimp only
      split
      · exact node.startDataTransfer id
      · exact node.appendEntriesTo id

theorem onDataTransfer (h : s.Upheld U) (id : Bytes) (res : Option DataRes) :
    (s.onDataTransfer id res).Upheld U := by
  have advance := h.sender s.sender.advance
  unfold Raft.onDataTransfer
  split
  · split
    · exact h.doDataTransfer id
    · exact h
  · dsimp only
    split
    · unfold onDataSuccess
      split
      · exact (advance.sender _).doDoneTransfer id
      · exact advance.doDataTransfer id
    · split
      · exact advance.stepDown _ _
      · exact advance

theorem onDoneTransfer (h : s.Upheld U) (id : Bytes) (res : Option DataRes) :
    (s.onDoneTransfer id res).Upheld U := by
  unfold Raft.onDoneTransfer
  split
  · split
    · exact h.doDoneTransfer id
    · exact h
  · split
    · have node : Upheld U
          (s.initTransfer.modifyNode id fun n => { n with transferDataTo := false }) :=
        h.initTransfer.modifyNode id (fun _ hn => hn) fun _ => rfl
      exact node.appendEntriesTo id
    · split
      · exact h.stepDown _ _
      · exact h

theorem finish (h : s.Upheld U) (id : Bytes) (quick : Bool) (req : Request)
    (res : Option Response) : (s.finish id quick req res).Upheld U := by
  unfold Raft.finish
  split
  · exact h.onTimeoutNow id _
  · exact h.onPreVote _
  · exact h.onRequestVote _
  · exact h.onAppendEntries id _ quick
  · exact h.onDataTransfer id _
  · exact h.onDoneTransfer id _
  · exact h.onTimeoutNow id _
  · exact h.onPreVote _
  · exact h.onRequestVote _
  · exact h.onAppendEntries id _ quick
  · exact h.onDataTransfer id _
  · exact h.onDoneTransfer id _
  · exact h

/-! ## Handlers -/

theorem acceptTerm (h : s.Upheld U) (term : Nat) (leaderId : Bytes) :
    (s.acceptTerm term leaderId).Upheld U := by
  have free : Upheld U { s with votedFor := [] } := h.books rfl rfl (.inl rfl) rfl
  exact free.stepDown term leaderId

theorem followEntries (h : s.Upheld U) {log : EntryLogger} {req : AppendEntriesReq}
    (hledger : U.ledger (s.followEntries log req).toReplica (s.followEntries log req).roster) :
    (s.followEntries log req).Upheld U :=
  ⟨hledger, followEntries_next h.next log req, followEntries_recfg s log req ▸ h.recfg,
    followEntries_sent s log req ▸ h.sent⟩

theorem installBase (h : s.Upheld U) {req : DataReq}
    (hledger : U.ledger (s.installBase req).toReplica (s.installBase req).roster) :
    (s.installBase req).Upheld U :=
  ⟨hledger, installBase_next h.next req, installBase_recfg s req ▸ h.recfg,
    installBase_sent s req ▸ h.sent⟩

theorem handleRequestVote (h : s.Upheld U) (req : VoteReq) :
    (s.handleRequestVote req).1.Upheld U := by
  have heed : (s.heedCandidate req.term).Upheld U := by
    unfold heedCandidate
    split
    · exact h.acceptTerm req.term []
    · exact h
  unfold Raft.handleRequestVote
  dsimp only
  repeat' split
  all_goals first | exact heed | exact heed.books rfl rfl (.inl rfl) rfl

theorem heedLeader (h : s.Upheld U) (term : Nat) (leaderId : Bytes) :
    (s.heedLeader term leaderId).Upheld U := by
  unfold Raft.heedLeader
  split
  · exact h.acceptTerm term leaderId
  · exact h.books rfl rfl (.inl rfl) rfl

theorem followSender (h : s.Upheld U) (term : Nat) (leaderId : Bytes) :
    (s.followSender term leaderId).Upheld U := by
  have accepted : Upheld U (if s.currTerm < term then s.acceptTerm term leaderId else s) := by
    split
    · exact h.acceptTerm term leaderId
    · exact h
  exact accepted.books rfl rfl (.inl rfl) rfl

theorem serve (h : s.Upheld U) (recent : Bool) {req : Request}
    (happend : ∀ r, req = .appendEntries r →
      U.ledger (s.handleAppendEntries r).1.toReplica (s.handleAppendEntries r).1.roster)
    (hdata : ∀ r, req = .dataTransfer r →
      U.ledger (s.handleDataTransfer r).1.toReplica (s.handleDataTransfer r).1.roster) :
    (s.serve recent req).1.Upheld U := by
  cases req with
  | timeoutNow req =>
      have timer : Upheld U { s with electionTimer := false } := h.books rfl rfl (.inl rfl) rfl
      exact timer.preVote true
  | preVote req => exact h
  | requestVote req => exact h.handleRequestVote req
  | appendEntries req =>
      change (s.handleAppendEntries req).1.Upheld U
      replace happend := happend req rfl
      unfold handleAppendEntries acceptEntries at happend ⊢
      split
      · exact h
      · rename_i hterm
        have heed := h.heedLeader req.term req.leaderId
        rw [if_neg hterm] at happend
        split
        · exact heed
        · rename_i hprev
          rw [if_neg hprev] at happend
          cases hmerge : mergeEntries (s.heedLeader req.term req.leaderId).log req.entries with
          | none => exact heed
          | some log =>
              rw [hmerge] at happend
              exact heed.followEntries happend
  | dataTransfer req =>
      change (s.handleDataTransfer req).1.Upheld U
      replace hdata := hdata req rfl
      have follow := h.followSender req.term req.leaderId
      unfold handleDataTransfer beginTransfer at hdata ⊢
      dsimp only at hdata ⊢
      split
      · exact h
      · rename_i hterm
        rw [if_neg hterm] at hdata
        split
        · rename_i hone
          rw [if_pos hone] at hdata
          dsimp only at hdata ⊢
          split
          · rename_i hcompaction
            rw [if_pos hcompaction] at hdata
            have timer : Upheld U
                { s.followSender req.term req.leaderId with electionTimer := false } :=
              follow.books rfl rfl (.inl rfl) rfl
            exact timer.installBase hdata
          · exact follow.books rfl rfl (.inl rfl) rfl
        · exact follow
  | doneTransfer req =>
      have follow := h.followSender req.term req.leaderId
      change (s.handleDoneTransfer req).1.Upheld U
      unfold handleDoneTransfer
      dsimp only
      repeat' split
      all_goals first | exact h | exact follow | exact follow.books rfl rfl (.inl rfl) rfl

/-! ## Configuration requests and timers -/

theorem makeConfig (h : s.Upheld U) {n : Node} (hn : 0 < n.nextIndex ∧ U.newcomer n.id)
    (type : ReconfigurationType) : (s.makeConfig n type).Upheld U :=
  ⟨h.ledger, h.next, fun _ hr => Option.some.inj hr ▸ hn, h.sent⟩

theorem addServer (h : s.Upheld U) {name : Bytes}
    (hname : U.newcomer (s.makeNode (s.makeId name) defaultRpcPort).id) :
    (s.addServer name).Upheld U := by
  have config := h.makeConfig (n := s.makeNode (s.makeId name) defaultRpcPort)
    ⟨Nat.succ_pos _, hname⟩ .serverAddition
  unfold Raft.addServer
  dsimp only
  split
  · exact h.reply _
  split
  · exact h.reply _
  split
  · exact h.reply _
  split
  · exact h.reply _
  split
  · exact config.initTransfer.doDataTransfer _
  · exact config.appendEntriesTo _

theorem leadershipTransfer (h : s.Upheld U) (name : Bytes) :
    (s.leadershipTransfer name).1.Upheld U := by
  unfold Raft.leadershipTransfer
  dsimp only
  split
  · exact h.reply _
  split
  · exact h.reply _
  split
  · exact h.reply _
  split
  · exact h.reply _
  split
  · exact h.reply _
  · rename_i n _
    have start : Upheld U (s.modifyNode n.id fun n => { n with transferLeaderTo := true }) :=
      h.modifyNode n.id (fun _ hn => hn) fun _ => rfl
    have node : Upheld U { s.modifyNode n.id fun n => { n with transferLeaderTo := true } with
        serverTransferLeaderTo := some n.id
        serverTransferReplyTo := true } := start.books rfl rfl (.inl rfl) rfl
    split
    · exact node.timeoutNow n.id
    · exact (node.appendEntriesTo n.id).books rfl rfl (.inl rfl) rfl

theorem delServer (h : s.Upheld U) (name : Bytes) : (s.delServer name).Upheld U := by
  unfold Raft.delServer
  dsimp only
  split
  · exact h.reply _
  split
  · exact h.reply _
  rename_i n hfind
  have hmem := List.mem_of_find?_eq_some hfind
  have hfound : ∃ p ∈ s.roster, p.1 = s.makeId name :=
    ⟨_, List.mem_map_of_mem hmem, by simpa using List.find?_some hfind⟩
  have hn : 0 < n.nextIndex ∧ U.newcomer n.id :=
    ⟨h.next _ hmem, U.member _ _ h.ledger _ (List.mem_map_of_mem hmem)⟩
  split
  · exact h.reply _
  split
  · exact h.reply _
  rename_i hlength
  have hroster : Raft.roster { s with cluster := s.cluster.filter (·.1 ≠ s.makeId name) } =
      s.roster.filter (·.1 ≠ s.makeId name) := by
    simp only [Raft.roster, List.filter_map]
    rfl
  have appended : Upheld U
      (Raft.appendConfiguration { s with cluster := s.cluster.filter (·.1 ≠ s.makeId name) }) := by
    refine h.appendConfiguration ?_ fun p hp => h.next p (List.mem_of_mem_filter hp)
    rw [hroster]
    exact .leave _ hfound (by simpa [Raft.roster] using hlength)
  split
  · have transfer := appended.leadershipTransfer
      (Raft.appendConfiguration { s with cluster := s.cluster.filter (·.1 ≠ s.makeId name) }
        ).latestServer
    split
    · exact transfer.makeConfig hn _
    · exact transfer.reply _
  · exact (appended.makeConfig hn _).appendEntries

theorem onLeadershipTransferTimeout (h : s.Upheld U) (id : Bytes) :
    (s.onLeadershipTransferTimeout id).Upheld U := by
  have start : Upheld U (s.modifyNode id fun n => { n with transferLeaderTo := false }) :=
    h.modifyNode id (fun _ hn => hn) fun _ => rfl
  have timer : Upheld U { s.modifyNode id fun n => { n with transferLeaderTo := false } with
      leadershipTransferTimer := none } := start.books rfl rfl (.inl rfl) rfl
  have finish : ∀ u : Raft, u.Upheld U →
      Upheld U { u with serverTransferReplyTo := false, serverTransferLeaderTo := none } :=
    fun u hu => hu.books rfl rfl (.inl rfl) rfl
  refine finish _ ?_
  split
  · exact timer.completeReconfiguration _
  · split
    · exact timer.reply _
    · exact timer

theorem popCommitted (h : s.Upheld U) : s.popCommitted.Upheld U := by
  unfold Raft.popCommitted
  split
  · exact h
  · exact h.books rfl rfl (.inl rfl) rfl

theorem applyNext (h : s.Upheld U) : s.applyNext.Upheld U := by
  unfold Raft.applyNext
  dsimp only
  split
  · exact h
  split
  · exact h.books rfl rfl (.inl rfl) rfl
  rename_i hcommit
  have hledger := fun applied =>
    U.apply _ _ applied h.ledger (show s.lastApplied < s.commitIndex by omega)
  repeat' split
  all_goals exact h.replica (hledger _) rfl rfl rfl

theorem compact (h : s.Upheld U) : s.compact.Upheld U := by
  unfold Raft.compact
  split
  · exact h
  · dsimp only
    split
    · rename_i hindex
      rw [hindex.2]
      exact h.replica (U.compact _ _ h.ledger) rfl rfl rfl
    · exact h.books rfl rfl (.inl rfl) rfl

end Upheld

end Raft

/-! ## Runs -/

namespace World

variable {U : Upkeep} {w w' : World} {e : Event}

structure Upheld (U : Upkeep) (w : World) : Prop where
  servers : ∀ id ∈ w.ids, (w.servers id).Upheld U
  requests : ∀ c ∈ w.calls, U.request c.request

/-- What is left to be shown of a step: the requests of replication, and a new server. -/
def LeavesUp (U : Upkeep) (w : World) : Event → Prop
  | .handle i _ => ∀ c ∈ w.calls[i]?, c.dst ∈ w.ids →
      (∀ r, c.request = .appendEntries r →
        U.ledger ((w.servers c.dst).handleAppendEntries r).1.toReplica
          ((w.servers c.dst).handleAppendEntries r).1.roster) ∧
      ∀ r, c.request = .dataTransfer r →
        U.ledger ((w.servers c.dst).handleDataTransfer r).1.toReplica
          ((w.servers c.dst).handleDataTransfer r).1.roster
  | .addServer id name => U.newcomer
      ((w.servers id).makeNode ((w.servers id).makeId name) defaultRpcPort).id
  | _ => True

def LeavesUpAt (U : Upkeep) (w : World) (s : Raft) : Event → Prop
  | .handle i _ => ∀ c ∈ w.calls[i]?,
      (∀ r, c.request = .appendEntries r →
        U.ledger (s.handleAppendEntries r).1.toReplica (s.handleAppendEntries r).1.roster) ∧
      ∀ r, c.request = .dataTransfer r →
        U.ledger (s.handleDataTransfer r).1.toReplica (s.handleDataTransfer r).1.roster
  | .addServer _ name => U.newcomer (s.makeNode (s.makeId name) defaultRpcPort).id
  | _ => True

theorem upheld_reaction {s : Raft} (h : s.Upheld U) (hleaves : w.LeavesUpAt U s e) :
    (w.reaction e s).Upheld U := by
  have timer : ∀ election heartbeat, Raft.Upheld U
      { s with electionTimer := election, heartbeatTimer := heartbeat } :=
    fun _ _ => h.books rfl rfl (.inl rfl) rfl
  cases e with
  | electionTimeout id => exact (timer false s.heartbeatTimer).preVote false
  | heartbeatTimeout id => exact (timer s.electionTimer false).appendEntries
  | leadershipTransferTimeout id =>
      simp only [reaction]
      split
      · exact h
      · exact h.onLeadershipTransferTimeout _
  | append id data => exact h.append data
  | transferLeadership id address => exact h.leadershipTransfer address
  | addServer id address => exact h.addServer hleaves
  | delServer id address => exact h.delServer address
  | popCommitted id => exact h.popCommitted
  | applyNext id => exact h.applyNext
  | compact id => exact h.compact
  | writeFiles id files => exact h.sender _
  | handle i recent =>
      simp only [reaction]
      split
      · exact h
      · rename_i c hc
        obtain ⟨happend, hdata⟩ := hleaves c hc
        exact h.serve recent happend hdata
  | succeed i quick =>
      simp only [reaction]
      split
      · exact h
      · exact h.finish _ _ _ _
  | fail i quick =>
      simp only [reaction]
      split
      · exact h
      · exact h.finish _ _ _ _

theorem LeavesUp.at {id : Bytes} (h : w.LeavesUp U e) (hactor : w.actor e = some id)
    (hid : id ∈ w.ids) : w.LeavesUpAt U (w.servers id) e := by
  cases e with
  | handle i recent =>
      intro c hc
      obtain rfl : c.dst = id := by simpa [actor, Option.mem_def.mp hc] using hactor
      exact h c hc hid
  | addServer j name =>
      obtain rfl := Option.some.inj hactor
      exact h
  | _ => trivial

theorem Upheld.act (h : w.Upheld U) {id : Bytes} {t : Raft} (ht : t.Upheld U) :
    (w.act id t).Upheld U where
  servers := by
    intro j hj
    by_cases hjid : j = id
    · subst hjid
      rw [act_self]
      exact ⟨ht.ledger, ht.next, ht.recfg, by simp⟩
    · rw [act_of_ne w t hjid]
      exact h.servers j hj
  requests := by
    intro c hc
    rcases List.mem_append.mp hc with hc | hc
    · exact h.requests c hc
    · obtain ⟨o, ho, rfl⟩ := List.mem_map.mp hc
      exact ht.sent o ho

theorem Upheld.touched (h : w.Upheld U) (e : Event) :
    Upheld U { w with calls := w.touched e } where
  servers := h.servers
  requests := by
    intro d hd
    obtain ⟨j, hj⟩ := List.mem_iff_getElem?.mp hd
    have hlt := (List.getElem?_eq_some_iff.mp hj).1
    rw [touched_length] at hlt
    have hc := List.getElem?_eq_getElem hlt
    rw [(touched_same e hc hj).request]
    exact h.requests _ (List.mem_of_getElem? hc)

theorem upheld_step (h : w.Upheld U) (hleaves : w.LeavesUp U e) (hstep : w.step e = some w') :
    w'.Upheld U := by
  obtain ⟨id, hactor, hid, rfl⟩ := step_reaction hstep
  exact (h.touched e).act (upheld_reaction (h.servers id hid) (hleaves.at hactor hid))

theorem upheld_boot {ids : List Bytes} {settings : Bytes → Settings} {log : EntryLogger}
    {currTerm : Bytes → Nat} {votedFor : Bytes → Bytes} {files : Bytes → Sender}
    (hledger : ∀ id ∈ ids,
      U.ledger (Raft.boot (settings id) log (currTerm id) (votedFor id) (files id)).toReplica
        (Raft.boot (settings id) log (currTerm id) (votedFor id) (files id)).roster) :
    (World.boot ids settings log currTerm votedFor files).Upheld U where
  servers := fun id hid =>
    { ledger := hledger id hid
      next := by
        intro p hp
        rcases mem_foldl_enlist hp with hnil | ⟨-, hnode⟩
        · cases hnil
        · rw [hnode]
          exact Nat.succ_pos _
      recfg := by simp [World.boot, Raft.boot]
      sent := by simp [World.boot, Raft.boot] }
  requests := by simp [World.boot]

end World

end Draft
