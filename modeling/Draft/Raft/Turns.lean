import Mathlib.Data.List.Forall2
import Mathlib.Logic.Relation
import Draft.Raft.Service
import Draft.Raft.Administration

/-!
# Turns

Every event of a server is a sequence of a few kinds of small steps, its
*moves*.  Most of the code only sends calls and keeps its books; all of that is
one kind of move, a *quiet* one.  What a server does to its term, its vote and
its log can then be followed move by move.
-/

namespace Draft.Raft

variable {late : Prop} {s t u : Raft}

/-! ## Quiet moves -/

/--
A call whose request is built from the state `s`.  Two callbacks send without
a look at the role; `late` says whether they may do so in the moves at hand.
-/
inductive Speaks (late : Prop) (s : Raft) : Outgoing → Prop
  | timeoutNow (id : Bytes) (req : VoteReq) :
      Speaks late s ⟨id, s.role, s.currTerm, .timeoutNow req⟩
  | preVote (id : Bytes) (req : VoteReq) : Speaks late s ⟨id, s.role, s.currTerm, .preVote req⟩
  | appendEntries (id : Bytes) (n : Node) (hn : 0 < n.nextIndex)
      (hlead : s.role = .leader ∨ late) :
      Speaks late s ⟨id, s.role, s.currTerm, .appendEntries (s.appendEntriesReq n)⟩
  | dataTransfer (id : Bytes) (number : Nat) (name data : Bytes)
      (hlead : s.role = .leader) :
      Speaks late s ⟨id, s.role, s.currTerm, .dataTransfer (s.dataReq number name data)⟩
  | doneTransfer (id name : Bytes) (hlead : s.role = .leader ∨ late) :
      Speaks late s ⟨id, s.role, s.currTerm, .doneTransfer ⟨s.currTerm, s.selfId, name⟩⟩

structure SameNode (p q : Bytes × Node) : Prop where
  key : q.1 = p.1
  id : q.2.id = p.2.id
  matchIndex : q.2.matchIndex = p.2.matchIndex
  nextIndex : 0 < p.2.nextIndex → 0 < q.2.nextIndex

structure Quiet (late : Prop) (s t : Raft) : Prop where
  election : t.toElection = s.toElection
  replica : t.toReplica = s.toReplica
  recfg : s.recfg = none → t.recfg = none
  nodes : List.Forall₂ SameNode s.cluster t.cluster
  sent : ∃ new, t.sent = s.sent ++ new ∧ ∀ o ∈ new, Speaks late s o

structure Settled (s : Raft) : Prop where
  recfg : s.recfg = none
  next : ∀ p ∈ s.cluster, 0 < p.2.nextIndex

instance : Decidable s.Settled :=
  decidable_of_iff (s.recfg = none ∧ ∀ p ∈ s.cluster, 0 < p.2.nextIndex)
    ⟨fun h => ⟨h.1, h.2⟩, fun h => ⟨h.1, h.2⟩⟩

theorem SameNode.refl (p : Bytes × Node) : SameNode p p :=
  ⟨rfl, rfl, rfl, fun h => h⟩

theorem SameNode.trans {p q r : Bytes × Node} (h : SameNode p q) (k : SameNode q r) :
    SameNode p r :=
  ⟨k.key.trans h.key, k.id.trans h.id, k.matchIndex.trans h.matchIndex,
    fun hp => k.nextIndex (h.nextIndex hp)⟩

private theorem sameNodes_refl (nodes : List (Bytes × Node)) : List.Forall₂ SameNode nodes nodes :=
  List.forall₂_same.mpr fun p _ => .refl p

private theorem sameNodes_trans {nodes nodes' nodes'' : List (Bytes × Node)}
    (h : List.Forall₂ SameNode nodes nodes') (k : List.Forall₂ SameNode nodes' nodes'') :
    List.Forall₂ SameNode nodes nodes'' := by
  induction h generalizing nodes'' with
  | nil => exact k
  | cons hp _ ih =>
      cases k with
      | cons hq hrest => exact .cons (hp.trans hq) (ih hrest)

theorem Speaks.congr (helection : t.toElection = s.toElection)
    (hreplica : t.toReplica = s.toReplica) {o : Outgoing} (ho : Speaks late t o) :
    Speaks late s o := by
  have hrole : t.role = s.role := congrArg Election.role helection
  have hterm : t.currTerm = s.currTerm := congrArg Election.currTerm helection
  have hself : t.selfId = s.selfId := congrArg (·.toSettings.selfId) helection
  cases ho with
  | timeoutNow id req => exact hrole ▸ hterm ▸ .timeoutNow id req
  | preVote id req => exact hrole ▸ hterm ▸ .preVote id req
  | appendEntries id n hn hlead =>
      have hreq : t.appendEntriesReq n = s.appendEntriesReq n := by
        simp only [appendEntriesReq, helection, hreplica]
      rw [hrole, hterm, hreq]
      exact .appendEntries id n hn (hrole ▸ hlead)
  | dataTransfer id number name data hlead =>
      have hreq : t.dataReq number name data = s.dataReq number name data := by
        simp only [dataReq, helection, hreplica]
      rw [hrole, hterm, hreq]
      exact .dataTransfer id number name data (hrole ▸ hlead)
  | doneTransfer id name hlead =>
      rw [hrole, hterm, hself]
      exact .doneTransfer id name (hrole ▸ hlead)

namespace Quiet

theorem refl (s : Raft) : Quiet late s s :=
  ⟨rfl, rfl, fun h => h, sameNodes_refl _, [], by simp, by simp⟩

theorem trans (h : Quiet late s t) (k : Quiet late t u) : Quiet late s u where
  election := k.election.trans h.election
  replica := k.replica.trans h.replica
  recfg := fun hs => k.recfg (h.recfg hs)
  nodes := sameNodes_trans h.nodes k.nodes
  sent := by
    obtain ⟨new, hnew, hall⟩ := h.sent
    obtain ⟨new', hnew', hall'⟩ := k.sent
    refine ⟨new ++ new', by rw [hnew', hnew, List.append_assoc], fun o ho => ?_⟩
    rcases List.mem_append.mp ho with ho | ho
    · exact hall o ho
    · exact (hall' o ho).congr h.election h.replica

theorem books (helection : t.toElection = s.toElection) (hreplica : t.toReplica = s.toReplica)
    (hrecfg : s.recfg = none → t.recfg = none) (hcluster : t.cluster = s.cluster)
    (hsent : t.sent = s.sent) : Quiet late s t :=
  ⟨helection, hreplica, hrecfg, hcluster ▸ sameNodes_refl _, [], by simp [hsent], by simp⟩

theorem settled (h : Quiet late s t) (hs : s.Settled) : t.Settled where
  recfg := h.recfg hs.recfg
  next := by
    intro q hq
    obtain ⟨i, hi, rfl⟩ := List.getElem_of_mem hq
    have hlen := h.nodes.length_eq
    have hnode := h.nodes.get (i := i) (by omega) hi
    exact hnode.nextIndex (hs.next _ (List.get_mem _ _))

theorem invoke {id : Bytes} {req : Request}
    (h : Speaks late s ⟨id, s.role, s.currTerm, req⟩) : Quiet late s (s.invoke id req) :=
  ⟨rfl, rfl, fun h => h, sameNodes_refl _, _, rfl, by simpa using h⟩

theorem invokeAll {nodes : List Node} {req : Node → Request}
    (h : ∀ n ∈ nodes, Speaks late s ⟨n.id, s.role, s.currTerm, req n⟩) :
    Quiet late s (s.invokeAll nodes req) :=
  ⟨rfl, rfl, fun h => h, sameNodes_refl _, _, rfl, by simpa using h⟩

theorem modifyNode {id : Bytes} {f : Node → Node} (hid : ∀ n, (f n).id = n.id)
    (hmatch : ∀ n, (f n).matchIndex = n.matchIndex)
    (hnext : ∀ n, 0 < n.nextIndex → 0 < (f n).nextIndex) : Quiet late s (s.modifyNode id f) where
  election := rfl
  replica := rfl
  recfg := by
    intro h
    simp [Raft.modifyNode, h]
  nodes := by
    refine List.forall₂_map_right_iff.mpr (List.forall₂_same.mpr fun p _ => ?_)
    split
    · exact ⟨rfl, hid _, hmatch _, hnext _⟩
    · exact .refl p
  sent := ⟨[], by simp [Raft.modifyNode], by simp⟩

theorem reply (s : Raft) (body : Bytes) : Quiet late s (s.reply body) :=
  .books rfl rfl (fun h => h) rfl rfl

theorem completeReconfiguration (s : Raft) (status : Bytes) :
    Quiet late s (s.completeReconfiguration status) :=
  .books rfl rfl (fun _ => rfl) rfl rfl

theorem sender (s : Raft) (sender : Sender) : Quiet late s { s with sender := sender } :=
  .books rfl rfl (fun h => h) rfl rfl

theorem initTransfer (s : Raft) : Quiet late s s.initTransfer := .books rfl rfl (fun h => h) rfl rfl

end Quiet

/-! ## The quiet functions -/

theorem Settled.findNode (hs : s.Settled) {id : Bytes} {n : Node}
    (hn : s.findNode id = some n) : 0 < n.nextIndex := by
  unfold Raft.findNode at hn
  cases hfind : (s.cluster.map (·.2)).find? (·.id = id) with
  | none => simp [hfind, hs.recfg] at hn
  | some m =>
      simp only [hfind, Option.some.injEq] at hn
      subst hn
      obtain ⟨p, hp, rfl⟩ := List.mem_map.mp (List.mem_of_find?_eq_some hfind)
      exact hs.next p hp

theorem quiet_appendEntriesTo (hs : s.Settled) (hlead : s.role = .leader ∨ late) (id : Bytes) :
    Quiet late s (s.appendEntriesTo id) := by
  unfold appendEntriesTo
  split
  · exact .refl s
  · rename_i n hn
    exact .invoke (.appendEntries id n (hs.findNode hn) hlead)

private theorem quiet_sendChunk (hlead : s.role = .leader) (id : Bytes) :
    Quiet late s (s.sendChunk id) := by
  have chunk : ∀ t : Raft, Quiet late s t → ∀ (sender : Sender) (number : Nat) (name data : Bytes),
      Quiet late s ({ t with sender := sender }.invoke id
        (.dataTransfer (s.dataReq number name data))) := by
    intro t ht sender number name data
    refine (ht.trans (.sender t sender)).trans (.invoke ?_)
    have hreq : s.dataReq number name data
        = Raft.dataReq { t with sender := sender } number name data := by
      simp only [dataReq, ← ht.election, ← ht.replica]
    rw [hreq]
    exact .dataTransfer id number name data (by simpa [← ht.election] using hlead)
  refine chunk _ ?_ ..
  split
  · exact .modifyNode (fun _ => rfl) (fun _ => rfl) fun _ _ => Nat.succ_pos _
  · exact .refl s

theorem quiet_doDataTransfer (hs : s.Settled) (id : Bytes) : Quiet late s (s.doDataTransfer id) := by
  unfold doDataTransfer
  split
  · exact .refl s
  · rename_i hrole
    have hlead : s.role = .leader := Decidable.not_not.mp hrole
    split
    · exact quiet_appendEntriesTo hs (.inl hlead) id
    · exact quiet_sendChunk hlead id

theorem quiet_doDoneTransfer (hlead : s.role = .leader ∨ late) (id : Bytes) :
    Quiet late s (s.doDoneTransfer id) := by
  unfold doDoneTransfer
  exact (Quiet.sender s _).trans (.invoke (.doneTransfer id s.sender.last hlead))

private theorem quiet_startDataTransfer (hs : s.Settled) (id : Bytes) :
    Quiet late s (s.startDataTransfer id) := by
  have start : Quiet late s
      (s.initTransfer.modifyNode id fun n => { n with transferDataTo := true }) :=
    (Quiet.initTransfer s).trans (.modifyNode (fun _ => rfl) (fun _ => rfl) fun _ h => h)
  exact start.trans (quiet_doDataTransfer (start.settled hs) id)

theorem quiet_endLeadershipTransfer (s : Raft) (curLeader : Bytes) :
    Quiet late s (s.endLeadershipTransfer curLeader) := by
  unfold endLeadershipTransfer
  split
  · exact .refl s
  · rename_i node _
    have start : Quiet late s (s.modifyNode node fun n => { n with transferLeaderTo := false }) :=
      .modifyNode (fun _ => rfl) (fun _ => rfl) fun _ h => h
    have finish : ∀ t : Raft, Quiet late s t → Quiet late s
        { t with serverTransferReplyTo := false, serverTransferLeaderTo := none } :=
      fun t ht => ht.trans (.books rfl rfl (fun h => h) rfl rfl)
    refine finish _ (start.trans ?_)
    split
    · exact .books rfl rfl (fun _ => rfl) rfl rfl
    · split
      · exact .books rfl rfl (fun h => h) rfl rfl
      · exact .refl _

private theorem quiet_timeoutNow (s : Raft) (id : Bytes) : Quiet late s (s.timeoutNow id) :=
  .invoke (.timeoutNow id _)

theorem quiet_handleTransferLeaderTo (s : Raft) (id : Bytes) :
    Quiet late s (s.handleTransferLeaderTo id) := by
  unfold handleTransferLeaderTo
  split
  · exact quiet_timeoutNow s id
  · exact .refl s

theorem quiet_onTimeoutNow (s : Raft) (id : Bytes) (res : Option VoteRes) :
    Quiet late s (s.onTimeoutNow id res) := by
  unfold onTimeoutNow
  split
  · exact quiet_timeoutNow s id
  · exact .refl s

theorem quiet_onAppendInconsistent (hs : s.Settled) (hlead : s.role = .leader) (id : Bytes)
    (matchIndex : Nat) :
    Quiet late s (s.onAppendInconsistent id matchIndex) := by
  have node : Quiet late s (s.modifyNode id fun n => { n with nextIndex := matchIndex + 1 }) :=
    .modifyNode (fun _ => rfl) (fun _ => rfl) fun _ _ => Nat.succ_pos _
  refine node.trans ?_
  change Quiet late _ (if _ then _ else _)
  split
  · exact quiet_startDataTransfer (node.settled hs) id
  · exact quiet_appendEntriesTo (node.settled hs) (.inl hlead) id

theorem quiet_leadershipTransfer (hs : s.Settled) (name : Bytes) :
    Quiet late s (s.leadershipTransfer name).1 := by
  unfold leadershipTransfer
  dsimp only
  split
  · exact .reply s _
  rename_i hrole
  have hlead : s.role = .leader := Decidable.not_not.mp hrole
  split
  · exact .reply s _
  split
  · exact .reply s _
  split
  · exact .reply s _
  split
  · exact .reply s _
  · rename_i n _
    have start : Quiet late s (s.modifyNode n.id fun n => { n with transferLeaderTo := true }) :=
      .modifyNode (fun _ => rfl) (fun _ => rfl) fun _ h => h
    have node : Quiet late s { s.modifyNode n.id fun n => { n with transferLeaderTo := true } with
        serverTransferLeaderTo := some n.id
        serverTransferReplyTo := true } :=
      start.trans (.books rfl rfl (fun h => h) rfl rfl)
    split
    · exact node.trans (quiet_timeoutNow _ n.id)
    · exact node.trans ((quiet_appendEntriesTo (node.settled hs) (.inl hlead) n.id).trans
        (.books rfl rfl (fun h => h) rfl rfl))

theorem quiet_onLeadershipTransferTimeout (s : Raft) (id : Bytes) :
    Quiet late s (s.onLeadershipTransferTimeout id) := by
  have start : Quiet late s (s.modifyNode id fun n => { n with transferLeaderTo := false }) :=
    .modifyNode (fun _ => rfl) (fun _ => rfl) fun _ h => h
  have finish : ∀ t : Raft, Quiet late s t → Quiet late s
      { t with serverTransferReplyTo := false, serverTransferLeaderTo := none } :=
    fun t ht => ht.trans (.books rfl rfl (fun h => h) rfl rfl)
  have timer : Quiet late s { s.modifyNode id fun n => { n with transferLeaderTo := false } with
      leadershipTransferTimer := none } := start.trans (.books rfl rfl (fun h => h) rfl rfl)
  refine finish _ (timer.trans ?_)
  split
  · exact .completeReconfiguration _ _
  · split
    · exact .reply _ _
    · exact .refl _

end Draft.Raft
