import Draft.Raft.Frames
import Draft.Raft.Reactions

/-!
# Transfers under way

A leader hands over its leadership, or sends a snapshot, in the course of many
events.  Between them the first is kept in `server_transfer_leader_to` and a
timer, the second in the `transfer_data_to` of a node and a call.  This is what
each function does to the four.
-/

namespace Draft

def Request.transfers : Request → Bool
  | .dataTransfer _ | .doneTransfer _ => true
  | _ => false

namespace Raft

def nodes (s : Raft) : List Node := s.cluster.map (·.2) ++ (s.recfg.map (·.n)).toList

/-- Heartbeats leave the node out. -/
def Flagged (s : Raft) (id : Bytes) : Prop := ∃ n ∈ s.nodes, n.id = id ∧ n.transferDataTo = true

instance (s : Raft) (id : Bytes) : Decidable (s.Flagged id) :=
  inferInstanceAs (Decidable (∃ n ∈ s.nodes, n.id = id ∧ n.transferDataTo = true))

def TransfersTo (s : Raft) (id : Bytes) : Prop :=
  ∃ o ∈ s.sent, o.dst = id ∧ o.request.transfers = true

structure Tracks (s t : Raft) : Prop where
  sent : ∀ o ∈ s.sent, o ∈ t.sent
  flags : ∀ id, t.Flagged id → s.Flagged id ∨ t.TransfersTo id

def handover (s : Raft) : Option Bytes × Option Bytes :=
  (s.serverTransferLeaderTo, s.leadershipTransferTimer)

structure Custody (s t : Raft) : Prop extends Tracks s t where
  handover : t.handover = s.handover ∨ t.serverTransferLeaderTo = none

variable {s t u : Raft}

theorem TransfersTo.mono {id : Bytes} (h : s.TransfersTo id) (hsent : ∀ o ∈ s.sent, o ∈ t.sent) :
    t.TransfersTo id := by
  obtain ⟨o, ho, htransfers⟩ := h
  exact ⟨o, hsent o ho, htransfers⟩

theorem Flagged.of_nodes {id : Bytes} (hnodes : t.nodes = s.nodes) :
    t.Flagged id ↔ s.Flagged id := by
  rw [Flagged, hnodes, Flagged]

theorem modifyNode_nodes (id : Bytes) (f : Node → Node) :
    (s.modifyNode id f).nodes = s.nodes.map fun n => if n.id = id then f n else n := by
  unfold nodes modifyNode
  rw [List.map_append, List.map_map, List.map_map]
  congr 1
  · apply List.map_congr_left
    intro p _
    dsimp only [Function.comp_apply]
    split <;> rfl
  · cases s.recfg with
    | none => rfl
    | some r =>
        simp only [Option.map_some, Option.toList_some, List.map_cons, List.map_nil]
        congr 1
        split <;> rfl

/-! ## Rules -/

namespace Tracks

theorem refl (s : Raft) : Tracks s s := ⟨fun _ ho => ho, fun _ h => .inl h⟩

theorem trans (h : Tracks s t) (k : Tracks t u) : Tracks s u := by
  refine ⟨fun o ho => k.sent o (h.sent o ho), fun id hu => ?_⟩
  rcases k.flags id hu with ht | hnew
  · exact (h.flags id ht).imp_right fun hold => hold.mono k.sent
  · exact .inr hnew

end Tracks

namespace Custody

theorem refl (s : Raft) : Custody s s := ⟨.refl s, .inl rfl⟩

theorem trans (h : Custody s t) (k : Custody t u) : Custody s u := by
  refine ⟨h.toTracks.trans k.toTracks, ?_⟩
  rcases k.handover with hsame | hover
  · rcases h.handover with hsame' | hover'
    · exact .inl (hsame.trans hsame')
    · exact .inr ((congrArg Prod.fst hsame).trans hover')
  · exact .inr hover

theorem after (k : Custody t u) (h : Custody s t) : Custody s u := h.trans k

theorem books (hcluster : t.cluster = s.cluster) (hrecfg : t.recfg = s.recfg ∨ t.recfg = none)
    (hsent : t.sent = s.sent)
    (hhandover : t.handover = s.handover ∨ t.serverTransferLeaderTo = none) : Custody s t := by
  refine ⟨⟨fun o ho => hsent ▸ ho, fun id h => .inl ?_⟩, hhandover⟩
  obtain ⟨n, hn, hflag⟩ := h
  refine ⟨n, ?_, hflag⟩
  rcases List.mem_append.mp hn with hn | hn
  · exact List.mem_append_left _ (hcluster ▸ hn)
  · rcases hrecfg with hsame | hnone
    · exact List.mem_append_right _ (hsame ▸ hn)
    · rw [hnone] at hn
      cases hn

theorem same (hcluster : t.cluster = s.cluster) (hrecfg : t.recfg = s.recfg)
    (hsent : t.sent = s.sent) (hhandover : t.handover = s.handover) : Custody s t :=
  .books hcluster (.inl hrecfg) hsent (.inl hhandover)

theorem invoke (s : Raft) (id : Bytes) (req : Request) : Custody s (s.invoke id req) :=
  ⟨⟨fun _ ho => List.mem_append_left _ ho, fun _ h => .inl h⟩, .inl rfl⟩

theorem invokeAll (s : Raft) (nodes : List Node) (req : Node → Request) :
    Custody s (s.invokeAll nodes req) :=
  ⟨⟨fun _ ho => List.mem_append_left _ ho, fun _ h => .inl h⟩, .inl rfl⟩

theorem modifyNode (s : Raft) (id : Bytes) {f : Node → Node} (hid : ∀ n, (f n).id = n.id)
    (hflag : ∀ n, (f n).transferDataTo = true → n.transferDataTo = true) :
    Custody s (s.modifyNode id f) := by
  refine ⟨⟨fun _ ho => ho, fun j h => .inl ?_⟩, .inl rfl⟩
  obtain ⟨n, hn, hj, hset⟩ := h
  rw [modifyNode_nodes] at hn
  obtain ⟨m, hm, rfl⟩ := List.mem_map.mp hn
  refine ⟨m, hm, ?_⟩
  split at hj
  · rw [if_pos ‹_›] at hset
    exact ⟨(hid m).symm.trans hj, hflag m hset⟩
  · rw [if_neg ‹_›] at hset
    exact ⟨hj, hset⟩

private theorem resume {id : Bytes} (k : Custody t u) (hsent : t.sent = s.sent)
    (hflags : ∀ j, j ≠ id → t.Flagged j → s.Flagged j) (hhandover : t.handover = s.handover)
    (hcall : u.Flagged id → u.TransfersTo id) : Custody s u := by
  refine ⟨⟨fun o ho => k.sent o (hsent ▸ ho), fun j h => ?_⟩, hhandover ▸ k.handover⟩
  by_cases hj : j = id
  · subst hj
    exact .inr (hcall h)
  · exact (k.flags j h).imp_left (hflags j hj)

theorem refuse (s : Raft) (status : String) : Custody s (s.refuse status) :=
  .same rfl rfl rfl rfl

theorem completeReconfiguration (s : Raft) (status : Bytes) :
    Custody s (s.completeReconfiguration status) :=
  .books rfl (.inr rfl) rfl (.inl rfl)

end Custody

/-! ## Replication -/

private theorem custody_adjustCommitIndex : Custody s s.adjustCommitIndex := by
  have recfg : s.adjustCommitIndex.recfg = s.recfg ∨ s.adjustCommitIndex.recfg = none := by
    unfold adjustCommitIndex commitReconfiguration commitAlone
    dsimp only
    repeat' split
    all_goals first
      | exact .inl rfl
      | exact .inr rfl
  refine .books (inward_adjustCommitIndex s).cluster recfg (inward_adjustCommitIndex s).sent ?_
  unfold adjustCommitIndex commitReconfiguration commitAlone
  dsimp only
  repeat' split
  all_goals exact .inl rfl

private theorem custody_appendEntriesTo (id : Bytes) : Custody s (s.appendEntriesTo id) := by
  unfold appendEntriesTo
  split
  · exact .refl s
  · exact .invoke s id _

theorem custody_appendEntries : Custody s s.appendEntries := by
  have heartbeats : ∀ nodes : List Node, Custody s
      ({ s with heartbeatTimer := true }.invokeAll nodes fun n =>
        .appendEntries ({ s with heartbeatTimer := true }.appendEntriesReq n)) :=
    fun nodes => (Custody.invokeAll _ nodes _).after (.same rfl rfl rfl rfl)
  unfold appendEntries
  dsimp only
  split
  · exact .same rfl rfl rfl rfl
  split
  · exact (heartbeats _).trans custody_adjustCommitIndex
  · exact heartbeats _

private theorem custody_append (data : Bytes) : Custody s (s.append data) := by
  unfold Raft.append
  split
  · exact .refl s
  · exact .same rfl rfl rfl rfl

private theorem custody_deployReconfiguration {r : Reconfiguration} (hr : s.recfg = some r) :
    Custody s (s.deployReconfiguration r) := by
  unfold deployReconfiguration
  split
  · exact .refl s
  · refine ⟨⟨?_, fun id h => .inl ?_⟩, ?_⟩
    · dsimp only
      split <;> exact fun _ ho => ho
    · obtain ⟨n, hn, hflag⟩ := h
      refine ⟨n, ?_, hflag⟩
      have hmem : n ∈ s.cluster.map (·.2) ∨ n = r.n := by
        rcases List.mem_append.mp hn with hn | hn
        · dsimp only [appendConfiguration] at hn
          split at hn
          · exact .inl hn
          · rw [List.map_append] at hn
            exact (List.mem_append.mp hn).imp_right List.mem_singleton.mp
        · exact .inr (List.mem_singleton.mp hn)
      rcases hmem with hn | rfl
      · exact List.mem_append_left _ hn
      · exact List.mem_append_right _ (by simp [hr])
    · dsimp only
      split <;> exact .inl rfl

private theorem custody_handleCatchUpServerAppendEntries (quick : Bool) :
    Custody s (s.handleCatchUpServerAppendEntries quick) := by
  unfold handleCatchUpServerAppendEntries
  split
  · exact .refl s
  · rename_i r hr
    split
    · refine (custody_appendEntriesTo r.n.id).after
        ⟨⟨fun _ ho => ho, fun id h => .inl ?_⟩, .inl rfl⟩
      refine (Flagged.of_nodes ?_).mp h
      simp [nodes, hr]
    split
    · exact (custody_deployReconfiguration hr).trans custody_appendEntries
    · exact .completeReconfiguration s _

/-! ## Sending a snapshot -/

private theorem modifyNode_flagged {id j : Bytes} (hj : j ≠ id) {f : Node → Node}
    (hid : ∀ n, (f n).id = n.id) (h : (s.modifyNode id f).Flagged j) : s.Flagged j := by
  obtain ⟨n, hn, hnj, hset⟩ := h
  rw [modifyNode_nodes] at hn
  obtain ⟨m, hm, rfl⟩ := List.mem_map.mp hn
  split at hnj
  · rename_i hmid
    exact absurd (hnj.symm.trans ((hid m).trans hmid)) hj
  · rw [if_neg ‹_›] at hset
    exact ⟨m, hm, hnj, hset⟩

private theorem findNode_mem {id : Bytes} {n : Node} (h : s.findNode id = some n) :
    n ∈ s.nodes ∧ n.id = id := by
  unfold findNode at h
  split at h
  · rename_i m hfind
    cases h
    exact ⟨List.mem_append_left _ (List.mem_of_find?_eq_some hfind),
      by simpa using List.find?_some hfind⟩
  · split at h
    · rename_i r hr
      split at h
      · cases h
        exact ⟨List.mem_append_right _ (by simp [hr]), ‹_›⟩
      · cases h
    · cases h

private theorem findNode_eq_none {id : Bytes} (h : s.findNode id = none) : ∀ n ∈ s.nodes, n.id ≠ id := by
  unfold findNode at h
  split at h
  · cases h
  · rename_i hfind
    intro n hn
    rcases List.mem_append.mp hn with hn | hn
    · simpa using List.find?_eq_none.mp hfind n hn
    · split at h
      · rename_i r hr
        split at h
        · cases h
        · rw [hr] at hn
          rw [List.mem_singleton.mp hn]
          assumption
      · rename_i hr
        rw [hr] at hn
        cases hn

theorem sendChunk_transfersTo (id : Bytes) : (s.sendChunk id).TransfersTo id :=
  ⟨_, List.mem_append_right _ (List.mem_singleton_self _), rfl, rfl⟩

private theorem custody_sendChunk (id : Bytes) : Custody s (s.sendChunk id) := by
  have others : ∀ j, j ≠ id → Flagged (s.modifyNode id fun n => { n with
      transferDataTo := true, nextIndex := s.log.lastEntryIndex + 1 }) j → s.Flagged j :=
    fun j hj h => modifyNode_flagged hj (by intro n; rfl) h
  refine (Custody.invoke _ id _).resume ?_ ?_ ?_ fun _ => sendChunk_transfersTo id
  · dsimp only
    split <;> rfl
  · intro j hj h
    dsimp only at h
    split at h
    · exact others j hj h
    · exact h
  · dsimp only
    split <;> rfl

private theorem custody_doDataTransfer (id : Bytes) : Custody s (s.doDataTransfer id) := by
  unfold doDataTransfer
  split
  · exact .refl s
  split
  · exact custody_appendEntriesTo id
  · exact custody_sendChunk id

theorem doDoneTransfer_transfersTo (id : Bytes) : (s.doDoneTransfer id).TransfersTo id :=
  ⟨_, List.mem_append_right _ (List.mem_singleton_self _), rfl, rfl⟩

private theorem custody_doDoneTransfer (id : Bytes) : Custody s (s.doDoneTransfer id) :=
  (Custody.invoke _ id _).after (.same rfl rfl rfl rfl)

private theorem custody_startDataTransfer (hrole : s.role = .leader) (id : Bytes) :
    Custody s (s.startDataTransfer id) := by
  have others : ∀ j, j ≠ id →
      (s.initTransfer.modifyNode id fun n => { n with transferDataTo := true }).Flagged j →
        s.Flagged j :=
    fun j hj h => modifyNode_flagged (s := s.initTransfer) hj (by intro n; rfl) h
  unfold startDataTransfer doDataTransfer
  rw [if_neg (by simpa [initTransfer, modifyNode] using hrole)]
  split
  · rename_i hquiet
    -- The flag of the node is set, so there is no such node.
    have hnone : Raft.findNode (s.initTransfer.modifyNode id
        fun n => { n with transferDataTo := true }) id = none := by
      cases hfind : Raft.findNode (s.initTransfer.modifyNode id
          fun n => { n with transferDataTo := true }) id with
      | none => rfl
      | some n =>
          obtain ⟨hn, hnid⟩ := findNode_mem hfind
          rw [modifyNode_nodes] at hn
          obtain ⟨m, -, rfl⟩ := List.mem_map.mp hn
          have hall := hquiet.2.2.2
          rw [hfind] at hall
          split at hnid
          · simp [*] at hall
          · exact absurd hnid ‹_›
    refine (custody_appendEntriesTo id).after ⟨⟨fun _ ho => ho, fun j h => .inl ?_⟩, .inl rfl⟩
    obtain ⟨n, hn, hj, hflag⟩ := h
    exact others j (hj ▸ findNode_eq_none hnone n hn) ⟨n, hn, hj, hflag⟩
  · exact (custody_sendChunk id).resume rfl others rfl fun _ => sendChunk_transfersTo id

/-! ## Roles -/

private theorem custody_stepUp : Custody s s.stepUp := by
  refine custody_appendEntries.after ⟨⟨fun _ ho => ho, fun id h => .inl ?_⟩, .inl rfl⟩
  obtain ⟨n, hn, hflag⟩ := h
  rcases List.mem_append.mp hn with hn | hn
  · rw [becomeLeader, List.map_map] at hn
    obtain ⟨p, hp, rfl⟩ := List.mem_map.mp hn
    exact ⟨p.2, List.mem_append_left _ (List.mem_map.mpr ⟨p, hp, rfl⟩), hflag⟩
  · exact ⟨n, List.mem_append_right _ hn, hflag⟩

private theorem custody_stepDown (term : Nat) (curLeader : Bytes) :
    Custody s (s.stepDown term curLeader) := by
  have down : Custody s { s with
      heartbeatTimer := false
      role := .follower
      currTerm := term
      electionTimer := true } := .same rfl rfl rfl rfl
  refine down.trans ?_
  unfold stepDown endLeadershipTransfer
  split
  · exact .refl _
  · rename_i id _
    have node : Custody _ (Raft.modifyNode { s with
        heartbeatTimer := false
        role := .follower
        currTerm := term
        electionTimer := true } id fun n => { n with transferLeaderTo := false }) :=
      .modifyNode _ id (fun _ => rfl) fun _ h => h
    refine node.trans ?_
    dsimp only
    split
    · exact .books rfl (.inr rfl) rfl (.inr rfl)
    · split <;> exact .books rfl (.inl rfl) rfl (.inr rfl)

private theorem custody_leaderElection : Custody s s.leaderElection := by
  have candidate : Custody s s.becomeCandidate := .same rfl rfl rfl rfl
  unfold leaderElection
  dsimp only
  split
  · exact candidate.trans custody_stepUp
  · exact (candidate.trans (.invokeAll _ _ _)).trans (.same rfl rfl rfl rfl)

private theorem custody_preVote (early : Bool) : Custody s (s.preVote early) := by
  unfold preVote
  split
  · exact custody_leaderElection
  · exact (Custody.invokeAll _ _ _).after (.same rfl rfl rfl rfl)

private theorem custody_checkout : Custody s s.checkout := by
  unfold checkout
  split
  · exact custody_leaderElection
  split
  · exact .same rfl rfl rfl rfl
  · exact .refl s

/-! ## Callbacks -/

private theorem custody_onPreVote (res : Option VoteRes) : Custody s (s.onPreVote res) := by
  unfold onPreVote
  split
  · exact .refl s
  split
  · exact custody_checkout.after (.same rfl rfl rfl rfl)
  · exact custody_checkout.after (.same rfl rfl rfl rfl)

private theorem custody_onRequestVote (res : Option VoteRes) : Custody s (s.onRequestVote res) := by
  unfold onRequestVote countVote
  split
  · exact .refl s
  split
  · exact .refl s
  split
  · split
    · exact .refl s
    dsimp only
    split
    · exact custody_stepUp.after (.same rfl rfl rfl rfl)
    · exact .same rfl rfl rfl rfl
  split
  · exact custody_stepDown _ _
  · exact .refl s

private theorem custody_handleTransferLeaderTo (id : Bytes) : Custody s (s.handleTransferLeaderTo id) := by
  unfold handleTransferLeaderTo
  split
  · exact .invoke s id _
  · exact .refl s

private theorem custody_onTimeoutNow (id : Bytes) (res : Option VoteRes) :
    Custody s (s.onTimeoutNow id res) := by
  unfold onTimeoutNow
  split
  · exact .invoke s id _
  · exact .refl s

private theorem custody_onAppendSuccess (id : Bytes) (matchIndex : Nat) (quick : Bool) :
    Custody s (s.onAppendSuccess id matchIndex quick) := by
  have adjusted : Custody s (s.recordMatch id matchIndex).adjustCommitIndex :=
    custody_adjustCommitIndex.after (.modifyNode s id (fun _ => rfl) fun _ h => h)
  have next : ∀ t : Raft, Custody s t →
      Custody s (if t.newly id then t.handleCatchUpServerAppendEntries quick else t) := by
    intro t ht
    split
    · exact ht.trans (custody_handleCatchUpServerAppendEntries quick)
    · exact ht
  unfold onAppendSuccess
  dsimp only
  split
  · exact adjusted
  · refine next _ ?_
    split
    · exact adjusted.trans (custody_handleTransferLeaderTo id)
    · exact adjusted

private theorem custody_onAppendInconsistent (hrole : s.role = .leader) (id : Bytes) (matchIndex : Nat) :
    Custody s (s.onAppendInconsistent id matchIndex) := by
  have node : Custody s (s.modifyNode id fun n => { n with nextIndex := matchIndex + 1 }) :=
    .modifyNode s id (fun _ => rfl) fun _ h => h
  refine node.trans ?_
  change Custody _ (if _ then _ else _)
  split
  · refine custody_startDataTransfer ?_ id
    exact hrole
  · exact custody_appendEntriesTo id

private theorem custody_onAppendEntries (id : Bytes) (res : Option AppendEntriesRes) (quick : Bool) :
    Custody s (s.onAppendEntries id res quick) := by
  unfold onAppendEntries
  split
  · split
    · exact custody_handleCatchUpServerAppendEntries quick
    · exact .refl s
  · split
    · exact .refl s
    rename_i hrole
    split
    · exact custody_onAppendSuccess id _ quick
    split
    · exact custody_stepDown _ _
    · exact custody_onAppendInconsistent (Decidable.not_not.mp hrole) id _

private theorem custody_onDataTransfer (id : Bytes) (res : Option DataRes) :
    Custody s (s.onDataTransfer id res) := by
  have moved : Custody s { s with sender := s.sender.advance } := .same rfl rfl rfl rfl
  unfold onDataTransfer onDataSuccess
  split
  · split
    · exact custody_doDataTransfer id
    · exact .refl s
  dsimp only
  split
  · split
    · exact (custody_doDoneTransfer id).after (.same rfl rfl rfl rfl)
    · exact moved.trans (custody_doDataTransfer id)
  split
  · exact moved.trans (custody_stepDown _ _)
  · exact moved

private theorem custody_endDataTransfer (id : Bytes) : Custody s (appendEntriesTo
    (s.initTransfer.modifyNode id fun n => { n with transferDataTo := false }) id) := by
  have start : Custody s s.initTransfer := .same rfl rfl rfl rfl
  have node : Custody s.initTransfer
      (s.initTransfer.modifyNode id fun n => { n with transferDataTo := false }) :=
    .modifyNode _ id (by intro n; rfl) (by intro n h; cases h)
  exact (start.trans node).trans (custody_appendEntriesTo id)

private theorem custody_onDoneTransfer (id : Bytes) (res : Option DataRes) :
    Custody s (s.onDoneTransfer id res) := by
  unfold onDoneTransfer
  split
  · split
    · exact custody_doDoneTransfer id
    · exact .refl s
  split
  · exact custody_endDataTransfer id
  split
  · exact custody_stepDown _ _
  · exact .refl s

private theorem custody_finish (s : Raft) (id : Bytes) (quick : Bool) (req : Request)
    (res : Option Response) : Custody s (s.finish id quick req res) := by
  cases req with
  | timeoutNow req =>
      rcases res with _ | ⟨res | _ | _⟩
      · exact custody_onTimeoutNow id none
      · exact custody_onTimeoutNow id (some res)
      · exact .refl s
      · exact .refl s
  | preVote req =>
      rcases res with _ | ⟨res | _ | _⟩
      · exact custody_onPreVote none
      · exact custody_onPreVote (some res)
      · exact .refl s
      · exact .refl s
  | requestVote req =>
      rcases res with _ | ⟨res | _ | _⟩
      · exact custody_onRequestVote none
      · exact custody_onRequestVote (some res)
      · exact .refl s
      · exact .refl s
  | appendEntries req =>
      rcases res with _ | ⟨_ | res | _⟩
      · exact custody_onAppendEntries id none quick
      · exact .refl s
      · exact custody_onAppendEntries id (some res) quick
      · exact .refl s
  | dataTransfer req =>
      rcases res with _ | ⟨_ | _ | res⟩
      · exact custody_onDataTransfer id none
      · exact .refl s
      · exact .refl s
      · exact custody_onDataTransfer id (some res)
  | doneTransfer req =>
      rcases res with _ | ⟨_ | _ | res⟩
      · exact custody_onDoneTransfer id none
      · exact .refl s
      · exact .refl s
      · exact custody_onDoneTransfer id (some res)

/-! ## The service -/

private theorem custody_adjustConfiguration (config : Bytes) :
    Custody s (s.adjustConfiguration config) := by
  by_cases hconfig : config = []
  · rw [adjustConfiguration, if_pos hconfig]
    exact .refl s
  · refine ⟨⟨fun o ho => ?_, fun id h => .inl ?_⟩, .inl ?_⟩
    · rw [adjustConfiguration_sent]
      exact ho
    · obtain ⟨n, hn, hid, hset⟩ := h
      rcases List.mem_append.mp hn with hn | hn
      · obtain ⟨p, hp, rfl⟩ := List.mem_map.mp hn
        rw [adjustConfiguration_cluster hconfig] at hp
        rcases mem_foldl_enlist (List.mem_of_mem_filter hp) with hold | ⟨-, hnew⟩
        · exact ⟨p.2, List.mem_append_left _ (List.mem_map.mpr ⟨p, hold, rfl⟩), hid, hset⟩
        · rw [hnew] at hset
          cases hset
      · rw [adjustConfiguration_recfg] at hn
        exact ⟨n, List.mem_append_right _ hn, hid, hset⟩
    · rw [adjustConfiguration, if_neg hconfig]
      rfl

private theorem custody_acceptTerm (term : Nat) (leaderId : Bytes) :
    Custody s (s.acceptTerm term leaderId) :=
  (custody_stepDown term leaderId).after (.same rfl rfl rfl rfl)

private theorem custody_heedCandidate (term : Nat) : Custody s (s.heedCandidate term) := by
  unfold heedCandidate
  split
  · exact custody_acceptTerm term []
  · exact .refl s

private theorem custody_heedLeader (term : Nat) (leaderId : Bytes) :
    Custody s (s.heedLeader term leaderId) := by
  unfold heedLeader
  split
  · exact custody_acceptTerm term leaderId
  · exact .same rfl rfl rfl rfl

private theorem custody_followSender (term : Nat) (leaderId : Bytes) :
    Custody s (s.followSender term leaderId) := by
  unfold followSender
  split
  · exact (custody_acceptTerm term leaderId).trans (.same rfl rfl rfl rfl)
  · exact .same rfl rfl rfl rfl

private theorem custody_followEntries (log : EntryLogger) (req : AppendEntriesReq) :
    Custody s (s.followEntries log req) := by
  have learn : Custody s { Raft.learnCommit { s with log := log } req.leaderCommit with
      leader := req.leaderId } := by
    unfold learnCommit
    split <;> exact .same rfl rfl rfl rfl
  unfold followEntries
  dsimp only
  split
  · exact learn.trans (custody_adjustConfiguration _)
  · exact learn

private theorem custody_installBase (req : DataReq) : Custody s (s.installBase req) := by
  have emptied : Custody s { s with
      log := (s.log.chop (s.log.lastIndex + 1)).getD s.log
      commitIndex := req.lastIndex
      lastApplied := req.lastIndex } := .same rfl rfl rfl rfl
  exact (emptied.trans (custody_adjustConfiguration req.lastConfig)).trans (.same rfl rfl rfl rfl)

private theorem custody_serve (s : Raft) (recent : Bool) (req : Request) :
    Custody s (s.serve recent req).1 := by
  cases req with
  | timeoutNow req =>
      have timer : Custody s { s with electionTimer := false } := .same rfl rfl rfl rfl
      exact timer.trans (custody_preVote true)
  | preVote req => exact .refl s
  | requestVote req =>
      have heed := custody_heedCandidate (s := s) req.term
      change Custody s (s.handleRequestVote req).1
      unfold handleRequestVote
      dsimp only
      repeat' split
      all_goals first
        | exact heed
        | exact heed.trans (.same rfl rfl rfl rfl)
  | appendEntries req =>
      have heed := custody_heedLeader (s := s) req.term req.leaderId
      change Custody s (s.handleAppendEntries req).1
      unfold handleAppendEntries acceptEntries
      split
      · exact .refl s
      split
      · exact heed
      split
      · exact heed
      · exact heed.trans (custody_followEntries _ req)
  | dataTransfer req =>
      have follow := custody_followSender (s := s) req.term req.leaderId
      have timer : Custody s { s.followSender req.term req.leaderId with electionTimer := false } :=
        follow.trans (.same rfl rfl rfl rfl)
      change Custody s (s.handleDataTransfer req).1
      unfold handleDataTransfer beginTransfer
      dsimp only
      split
      · exact .refl s
      split
      · split
        · exact timer.trans (custody_installBase req)
        · exact timer
      · exact follow
  | doneTransfer req =>
      have follow := custody_followSender (s := s) req.term req.leaderId
      change Custody s (s.handleDoneTransfer req).1
      unfold handleDoneTransfer
      dsimp only
      repeat' split
      all_goals first
        | exact .refl s
        | exact follow
        | exact follow.trans (.same rfl rfl rfl rfl)

/-! ## Configuration requests and timers -/

private theorem tracks_makeConfig {n : Node} (hn : n ∈ s.nodes ∨ n.transferDataTo = false)
    (h : Tracks s t) (type : ReconfigurationType) : Tracks s (t.makeConfig n type) := by
  refine ⟨h.sent, fun id hflagged => ?_⟩
  obtain ⟨m, hm, hid, hset⟩ := hflagged
  rcases List.mem_append.mp hm with hm | hm
  · exact h.flags id ⟨m, List.mem_append_left _ hm, hid, hset⟩
  · obtain rfl := List.mem_singleton.mp hm
    rcases hn with hn | hn
    · exact .inl ⟨_, hn, hid, hset⟩
    · rw [hn] at hset
      cases hset

private theorem custody_addServer (name : Bytes) : Custody s (s.addServer name) := by
  have config : Custody s (s.makeConfig (s.makeNode (s.makeId name) defaultRpcPort)
      .serverAddition) := ⟨tracks_makeConfig (.inr rfl) (.refl s) _, .inl rfl⟩
  have start : Custody s (s.makeConfig (s.makeNode (s.makeId name) defaultRpcPort)
      .serverAddition).initTransfer := config.trans (.same rfl rfl rfl rfl)
  unfold addServer
  dsimp only
  split
  · exact .refuse s _
  split
  · exact .refuse s _
  split
  · exact .refuse s _
  split
  · exact .refuse s _
  split
  · exact start.trans (custody_doDataTransfer _)
  · exact config.trans (custody_appendEntriesTo _)

private theorem tracks_leadershipTransfer (name : Bytes) : Tracks s (s.leadershipTransfer name).1 := by
  have node : ∀ n : Node, Custody s
      (s.modifyNode n.id fun n => { n with transferLeaderTo := true }) :=
    fun n => .modifyNode s n.id (fun _ => rfl) fun _ h => h
  have asked : ∀ n : Node, Tracks s
      { s.modifyNode n.id fun n => { n with transferLeaderTo := true } with
        serverTransferLeaderTo := some n.id, serverTransferReplyTo := true } :=
    fun n => ⟨(node n).sent, (node n).flags⟩
  have called : ∀ n : Node, Custody _ (Raft.appendEntriesTo
      { s.modifyNode n.id fun n => { n with transferLeaderTo := true } with
        serverTransferLeaderTo := some n.id, serverTransferReplyTo := true } n.id) :=
    fun n => custody_appendEntriesTo n.id
  unfold leadershipTransfer
  dsimp only
  split
  · exact (Custody.refuse s _).toTracks
  split
  · exact (Custody.refuse s _).toTracks
  split
  · exact (Custody.refuse s _).toTracks
  split
  · exact (Custody.refuse s _).toTracks
  split
  · exact (Custody.refuse s _).toTracks
  · rename_i n _
    have entries := (asked n).trans (called n).toTracks
    split
    · exact (asked n).trans (Custody.invoke _ _ _).toTracks
    · exact ⟨entries.sent, entries.flags⟩

def withoutServer (s : Raft) (address : Bytes) : Raft :=
  { s with cluster := s.cluster.filter (·.1 ≠ address) }.appendConfiguration

theorem custody_withoutServer (address : Bytes) : Custody s (s.withoutServer address) := by
  refine ⟨⟨fun _ ho => ho, fun id h => .inl ?_⟩, .inl rfl⟩
  obtain ⟨n, hn, hflag⟩ := h
  refine ⟨n, ?_, hflag⟩
  rcases List.mem_append.mp hn with hn | hn
  · obtain ⟨p, hp, rfl⟩ := List.mem_map.mp hn
    exact List.mem_append_left _ (List.mem_map.mpr ⟨p, List.mem_of_mem_filter hp, rfl⟩)
  · exact List.mem_append_right _ hn

private theorem tracks_delServer (name : Bytes) : Tracks s (s.delServer name) := by
  unfold delServer
  dsimp only
  split
  · exact (Custody.refuse s _).toTracks
  split
  · exact (Custody.refuse s _).toTracks
  rename_i n hfind
  have hn : n ∈ s.nodes := List.mem_append_left _
    (List.mem_map.mpr ⟨_, List.mem_of_find?_eq_some hfind, rfl⟩)
  have without := custody_withoutServer (s := s) (s.makeId name)
  have transfer := tracks_leadershipTransfer (s := s.withoutServer (s.makeId name))
    (s.withoutServer (s.makeId name)).latestServer
  split
  · exact (Custody.refuse s _).toTracks
  split
  · exact (Custody.refuse s _).toTracks
  split
  · split
    · exact tracks_makeConfig (.inl hn) (without.toTracks.trans transfer) _
    · exact (without.toTracks.trans transfer).trans (Custody.refuse _ _).toTracks
  · exact (tracks_makeConfig (.inl hn) without.toTracks _).trans custody_appendEntries.toTracks

private theorem custody_onLeadershipTransferTimeout (id : Bytes) :
    Custody s (s.onLeadershipTransferTimeout id) := by
  have node : Custody s (s.modifyNode id fun n => { n with transferLeaderTo := false }) :=
    .modifyNode s id (fun _ => rfl) fun _ h => h
  refine node.trans ?_
  unfold onLeadershipTransferTimeout
  dsimp only
  split
  · exact .books rfl (.inr rfl) rfl (.inr rfl)
  · split <;> exact .books rfl (.inl rfl) rfl (.inr rfl)

private theorem custody_popCommitted : Custody s s.popCommitted := by
  unfold Raft.popCommitted
  split
  · exact .refl s
  · exact .same rfl rfl rfl rfl

private theorem custody_applyNext : Custody s s.applyNext := by
  unfold Raft.applyNext
  dsimp only
  repeat' split
  all_goals exact .same rfl rfl rfl rfl

private theorem custody_compact : Custody s s.compact := by
  unfold Raft.compact
  split <;> exact .same rfl rfl rfl rfl

end Raft

/-! ## Steps -/

/-- The requests that may begin to hand over the leadership. -/
def Event.handsOver : Event → Bool
  | .transferLeadership .. | .delServer .. => true
  | _ => false

namespace World

open Raft

variable {w w' : World}

theorem custody_reaction {e : Event} (h : e.handsOver = false) (s : Raft) :
    Custody s (w.reaction e s) := by
  cases e with
  | electionTimeout id =>
      have timer : Custody s { s with electionTimer := false } := .same rfl rfl rfl rfl
      exact timer.trans (custody_preVote false)
  | heartbeatTimeout id =>
      have timer : Custody s { s with heartbeatTimer := false } := .same rfl rfl rfl rfl
      exact timer.trans custody_appendEntries
  | leadershipTransferTimeout id =>
      simp only [reaction]
      split
      · exact .refl s
      · exact custody_onLeadershipTransferTimeout _
  | append id data => exact custody_append data
  | transferLeadership id address => cases h
  | addServer id address => exact custody_addServer address
  | delServer id address => cases h
  | popCommitted id => exact custody_popCommitted
  | applyNext id => exact custody_applyNext
  | compact id => exact custody_compact
  | writeFiles id files => exact .same rfl rfl rfl rfl
  | handle i recent =>
      simp only [reaction]
      split
      · exact .refl s
      · exact custody_serve s recent _
  | succeed i quick =>
      simp only [reaction]
      split
      · exact .refl s
      · exact custody_finish s _ quick _ _
  | fail i quick =>
      simp only [reaction]
      split
      · exact .refl s
      · exact custody_finish s _ quick _ _

theorem tracks_reaction (e : Event) (s : Raft) : Tracks s (w.reaction e s) := by
  cases hhands : e.handsOver with
  | false => exact (custody_reaction hhands s).toTracks
  | true =>
      cases e with
      | transferLeadership id address => exact tracks_leadershipTransfer address
      | delServer id address => exact tracks_delServer address
      | _ => cases hhands

end World

end Draft
