import Draft.Raft.ElectionSafety
import Draft.Raft.Refinement

/-!
# Runs of the cluster in the abstract protocol

Every move, handler and callback is followed by steps of the protocol, as long
as a server answers and counts only what was verified.  The conditions say so:
one for a handler, one for a callback.
-/

namespace Draft

open Consensus Raft

/-! ## Conditions -/

/-- After the request the log has nothing that the log of the sender's term lacks. -/
def EntryLogger.Verified (log : EntryLogger) (req : AppendEntriesReq) : Prop :=
  log.lastEntryIndex ≤ req.lastIndex ∨ log.lastEntryTerm = req.term ∨
    ∃ e ∈ req.entries, log.entryConflicted e.index e.term

/-- The entries of the request do not start below the base of the log. -/
def EntryLogger.Reaches (log : EntryLogger) (req : AppendEntriesReq) : Prop :=
  req.entries = [] ∨ log.lastIndex ≤ req.prevLogIndex + 1

namespace Raft

/-- The handler leaves a log that the sender vouches for, and loses none of it. -/
def Heeds (s : Raft) : Request → Prop
  | .appendEntries req => s.currTerm ≤ req.term →
      s.log.hasEntry req.prevLogIndex req.prevLogTerm → s.log.Verified req ∧ s.log.Reaches req
  | .dataTransfer req => s.currTerm ≤ req.term → req.id = 1 → s.logCompactionEnabled →
      s.log.lastEntryIndex ≤ req.lastIndex
  | _ => True

/-- The callback counts a match for a request of the term it was sent in. -/
def Counts (s : Raft) : Request → Response → Prop
  | .appendEntries req, .append res => s.role = .leader → res.success → req.term = s.currTerm
  | _, _ => True

instance (log : EntryLogger) (req : AppendEntriesReq) : Decidable (log.Verified req) :=
  inferInstanceAs (Decidable (_ ∨ _ ∨ _))

instance (log : EntryLogger) (req : AppendEntriesReq) : Decidable (log.Reaches req) :=
  inferInstanceAs (Decidable (_ ∨ _))

instance (s : Raft) : (req : Request) → Decidable (s.Heeds req)
  | .appendEntries _ | .dataTransfer _ => by unfold Heeds; infer_instance
  | .timeoutNow _ | .preVote _ | .requestVote _ | .doneTransfer _ => instDecidableTrue

instance (s : Raft) : (req : Request) → (res : Response) → Decidable (s.Counts req res)
  | .appendEntries _, .append _ => by unfold Counts; infer_instance
  | .appendEntries _, .vote _ | .appendEntries _, .data _ => instDecidableTrue
  | .timeoutNow _, _ | .preVote _, _ | .requestVote _, _ | .dataTransfer _, _
  | .doneTransfer _, _ => instDecidableTrue

end Raft

/-! ## Accepted requests -/

section

variable {ids : List Bytes} {V : Bytes → View} {calls : List Call} {base full g L : List Entry}
  {p : Protocol Bytes Entry} {id src : Bytes} {log : EntryLogger}

private theorem prefix_leader_of_term (hinv : p.Inv Entry.term ids.toFinset base) {t : Nat}
    (hlog : log.Holds (p.log id)) (ht : log.lastEntryTerm = t) (helected : p.leaders.elected t) :
    p.log id <+: p.leaders.log t := by
  have hfull := hinv.log_follows id
  have hlast := hlog.termAt_length
  rcases Nat.lt_or_ge base.length (p.log id).length with hlt | hge
  · obtain ⟨i, hi⟩ : ∃ i, (p.log id).length = i + 1 := ⟨(p.log id).length - 1, by omega⟩
    rw [hi, termAt, Option.map_eq_some_iff] at hlast
    obtain ⟨x, hx, hxt⟩ := hlast
    have hp := (hfull.created i x (by omega) hx).2
    rwa [← hi, List.take_length, hxt, ht] at hp
  · rw [← hfull.base_start.eq_of_length_le hge]
    exact (hinv.leader_follows t helected).base_start

private theorem not_conflicted (hlog : log.Holds full) (hidx : Indexed g) (hg : g <+: full) {i : Nat}
    {e : Entry} (he : e ∈ g.drop i) : ¬ log.entryConflicted e.index e.term := by
  obtain ⟨j, hj⟩ := List.getElem?_of_mem he
  rw [List.getElem?_drop] at hj
  rw [hidx _ e hj, hlog.entryConflicted_iff]
  rintro ⟨-, x, hx, hne⟩
  rw [prefix_getElem? hg hj, Option.some.injEq] at hx
  exact hne (congrArg Entry.term hx.symm)

structure Adopts (log new : EntryLogger) (full L : List Entry) (k : Nat) : Prop where
  le : k ≤ L.length
  holds : new.Holds (L.take k)
  keep : L.take k <+: full → full.length ≤ k
  base : new.lastIndex = log.lastIndex

private theorem adopts_unchanged (hlog : log.Holds full) (h : full <+: L) :
    Adopts log log full L full.length where
  le := h.length_le
  holds := List.prefix_iff_eq_take.mp h ▸ hlog
  keep := fun _ => le_rfl
  base := rfl

theorem adopts_new {new : EntryLogger} (hnew : new.Holds g) (hg : g <+: L) (h : ¬ g <+: full)
    (hbase : new.lastIndex = log.lastIndex) : Adopts log new full L g.length where
  le := hg.length_le
  holds := List.prefix_iff_eq_take.mp hg ▸ hnew
  keep := fun hk => absurd (List.prefix_iff_eq_take.mp hg ▸ hk) h
  base := hbase

/-- Everything up to the commit index of a server is in the log of every later leader. -/
theorem Refines.committed_leader (h : Refines ids V calls base p) (hid : id ∈ ids) {t : Nat}
    (ht : (V id).currTerm ≤ t) (helected : p.leaders.elected t) :
    (p.log id).take (V id).commitIndex <+: p.leaders.log t :=
  h.inv.decided_prefix_leader (h.server id hid).committed ht helected

theorem Refines.commit_le_adopts (h : Refines ids V calls base p) (hid : id ∈ ids) {t k : Nat}
    {new : EntryLogger} (ht : (V id).currTerm ≤ t) (helected : p.leaders.elected t)
    (hk : Adopts log new (p.log id) (p.leaders.log t) k) : (V id).commitIndex ≤ k := by
  have hle := (h.server id hid).commit_le
  have hcommitted := h.committed_leader hid ht helected
  by_contra hlt
  have hlen : ((p.log id).take (V id).commitIndex).length = (V id).commitIndex := by
    rw [List.length_take, Nat.min_eq_left hle]
  have htake : (p.leaders.log t).take k <+: p.log id := by
    rw [prefix_take_eq hcommitted (by omega)]
    exact (List.take_prefix _ _).trans (List.take_prefix _ _)
  have := hk.keep htake
  omega

/--
What merging an accepted request leaves, verified or not: the log as it was, or the
leader's log up to the last entry of the request.
-/
theorem Refines.merged (h : Refines ids V calls base p) (hid : id ∈ ids)
    {req : AppendEntriesReq} (hterm : (V id).currTerm ≤ req.term)
    (hvouches : Vouches ids base p src (.appendEntries req))
    (hprev : (V id).log.hasEntry req.prevLogIndex req.prevLogTerm)
    (hreaches : (V id).log.Reaches req) :
    ∃ g, g <+: p.leaders.log req.term ∧ Indexed g ∧ Segment g 0 req ∧
      (p.log id).take req.prevLogIndex = g.take req.prevLogIndex ∧
      ∃ new, Raft.mergeEntries (V id).log req.entries = some new ∧
        new.lastIndex = (V id).log.lastIndex ∧
        (new = (V id).log ∧ (req.entries = [] ∨ g <+: p.log id) ∨
          new.Holds g ∧ ¬ g <+: p.log id) := by
  obtain ⟨helected, g, hg, hidx, hseg, -⟩ := hvouches
  have hserver := h.server id hid
  have hlog := hserver.holds
  have hfull := h.inv.log_follows id
  have hleader := h.inv.leader_follows req.term helected
  obtain ⟨hplace, hprevTerm⟩ := hlog.hasEntry_iff.mp hprev
  have hagree : Agree (p.log id) g := by
    intro i x y hx hy hxy
    rw [hfull.agree hleader hx (prefix_getElem? hg hy) hxy,
      prefix_take_eq hg (lt_length_of_getElem? hy)]
  have htake := hagree.take_of_termAt hprevTerm hseg.prev_term
  have hprevLe := le_length_of_termAt hprevTerm
  refine ⟨g, hg, hidx, hseg, htake, ?_⟩
  by_cases hnil : req.entries = []
  · exact ⟨_, by rw [hnil, Raft.mergeEntries], rfl, .inl ⟨rfl, .inl hnil⟩⟩
  · have hdrop : req.entries = g.drop req.prevLogIndex :=
      (hseg.entries.resolve_left hnil).2
    have hlt : req.prevLogIndex < g.length := by
      by_contra hge
      exact hnil (hdrop.trans (List.drop_eq_nil_of_le (by omega)))
    rw [hdrop]
    have hmerged : ∃ new, Raft.mergeEntries (V id).log (g.drop req.prevLogIndex) = some new ∧
        new.lastIndex = (V id).log.lastIndex ∧
        (new = (V id).log ∧ g <+: p.log id ∨ new.Holds g ∧ ¬ g <+: p.log id) := by
      by_cases hbase : (V id).log.lastIndex ≤ req.prevLogIndex
      · exact mergeEntries_drop hlog hidx hagree hbase hprevLe htake
      · -- the request starts at the sentry, below a base of 1, which is committed
        have hzero : req.prevLogIndex = 0 := hplace.resolve_right hbase
        have hone : (V id).log.lastIndex = req.prevLogIndex + 1 := by
          have := hreaches.resolve_left hnil
          omega
        refine mergeEntries_drop_base hlog hidx hagree hone ?_ hlt
        have hcommit := hserver.compacted
        have hle := hserver.commit_le
        have hp : (p.log id).take (req.prevLogIndex + 1) <+: p.leaders.log req.term := by
          refine List.IsPrefix.trans ?_ (h.committed_leader hid hterm helected)
          exact List.take_prefix_take_left (by omega)
        have hlen : ((p.log id).take (req.prevLogIndex + 1)).length = req.prevLogIndex + 1 := by
          rw [List.length_take]
          omega
        rw [← prefix_take_eq hg hlt, prefix_take_eq hp (by omega), List.take_take,
          Nat.min_self]
    obtain ⟨new, hnew, hbase, hcases⟩ := hmerged
    exact ⟨new, hnew, hbase, hcases.imp_left fun hsame => ⟨hsame.1, .inr hsame.2⟩⟩

theorem Refines.mergeEntries (h : Refines ids V calls base p) (hid : id ∈ ids)
    {req : AppendEntriesReq} {new : EntryLogger} (hterm : (V id).currTerm ≤ req.term)
    (hvouches : Vouches ids base p src (.appendEntries req))
    (hprev : (V id).log.hasEntry req.prevLogIndex req.prevLogTerm)
    (hmerge : mergeEntries (V id).log req.entries = some new)
    (hverified : (V id).log.Verified req) (hreaches : (V id).log.Reaches req) :
    ∃ k, Adopts (V id).log new (p.log id) (p.leaders.log req.term) k := by
  obtain ⟨g, hg, hidx, hseg, htake, merged, hmerged, hbase, hcases⟩ :=
    h.merged hid hterm hvouches hprev hreaches
  obtain rfl : merged = new := Option.some.inj (hmerged.symm.trans hmerge)
  have hlog := (h.server id hid).holds
  -- a log that stays as it is has to be one of the leader's
  have unchanged : (∀ e ∈ req.entries, ¬ (V id).log.entryConflicted e.index e.term) →
      ((p.log id).length ≤ req.lastIndex → p.log id <+: g) →
      p.log id <+: p.leaders.log req.term := by
    intro hnone hshort
    rcases hverified with hle | hsame | ⟨e, he, hconflict⟩
    · exact (hshort (hlog.lastEntryIndex_eq ▸ hle)).trans hg
    · exact prefix_leader_of_term h.inv hlog hsame hvouches.1
    · exact absurd hconflict (hnone e he)
  rcases hcases with ⟨rfl, hnil | hp⟩ | ⟨hnew, hp⟩
  · refine ⟨_, adopts_unchanged hlog (unchanged (by simp [hnil]) fun hle => ?_)⟩
    rw [AppendEntriesReq.lastIndex, hnil, List.length_nil, Nat.add_zero] at hle
    rw [List.take_of_length_le hle] at htake
    exact htake ▸ List.take_prefix _ _
  · refine ⟨_, adopts_unchanged hlog (unchanged ?_ fun hle => ?_)⟩
    · rcases hseg.entries with hnil | ⟨-, hdrop⟩
      · simp [hnil]
      · rw [hdrop]
        exact fun e he => not_conflicted hlog hidx hp he
    · exact (hp.eq_of_length_le (hle.trans hseg.lastIndex_le)) ▸ List.prefix_refl _
  · exact ⟨_, adopts_new hnew hg hp hbase⟩

end

/-! ## Moves -/

namespace Raft

variable {s t : Raft} {ids : List Bytes} {V : Bytes → View} {calls : List Call}
  {base : List Entry} {id : Bytes}

def RefinesAt (ids : List Bytes) (V : Bytes → View) (calls : List Call) (base : List Entry)
    (id : Bytes) (s : Raft) (p : Protocol Bytes Entry) : Prop :=
  Refines ids (Function.update V id s.view) (calls ++ s.sent.map (Outgoing.call id)) base p

theorem VotingAt.view (h : VotingAt ids (fun j => (V j).toElection) calls id s) :
    Voting ids (fun j => (Function.update V id s.view j).toElection)
      (calls ++ s.sent.map (Outgoing.call id)) := by
  have heq : (fun j => (Function.update V id s.view j).toElection) =
      Function.update (fun j => (V j).toElection) id s.toElection := by
    funext j
    by_cases hj : j = id
    · subst hj
      rw [Function.update_self, Function.update_self]
      rfl
    · rw [Function.update_of_ne hj, Function.update_of_ne hj]
  rw [heq]
  exact h

private theorem update_view_self (V : Bytes → View) (id : Bytes) (s : Raft) :
    (Function.update V id s.view id).toElection = s.toElection := by
  rw [Function.update_self]
  rfl

private theorem view_eq (helection : t.toElection = s.toElection) (hreplica : t.toReplica = s.toReplica) :
    t.view = { s.view with cluster := t.cluster } := by
  unfold view
  rw [helection, hreplica]

theorem RefinesAt.server {p : Protocol Bytes Entry} (h : RefinesAt ids V calls base id s p)
    (hid : id ∈ ids) : Simulates ids base p id s.view := by
  have hserver := Refines.server h id hid
  rwa [Function.update_self] at hserver

theorem RefinesAt.change {p p' : Protocol Bytes Entry} (h : RefinesAt ids V calls base id s p)
    (hsent : t.sent = s.sent)
    (hchange : ∀ W calls, W id = s.view → Refines ids W calls base p →
      Refines ids (Function.update W id t.view) calls base p') :
    RefinesAt ids V calls base id t p' := by
  have hnew := hchange _ _ (Function.update_self ..) h
  rw [Function.update_idem] at hnew
  unfold RefinesAt
  rw [hsent]
  exact hnew

theorem RefinesAt.congr {p : Protocol Bytes Entry} (h : RefinesAt ids V calls base id s p)
    (hview : t.view = s.view) (hsent : t.sent = s.sent) : RefinesAt ids V calls base id t p := by
  unfold RefinesAt
  rw [hview, hsent]
  exact h

theorem RefinesAt.send {p : Protocol Bytes Entry} (h : RefinesAt ids V calls base id s p)
    (hview : t.view = s.view) {new : List Outgoing} (hsent : t.sent = s.sent ++ new)
    (hnew : ∀ o ∈ new, Vouches ids base p id o.request) : RefinesAt ids V calls base id t p := by
  unfold RefinesAt
  rw [hview, hsent, List.map_append, ← List.append_assoc]
  refine Refines.send h fun c hc => ?_
  obtain ⟨o, ho, rfl⟩ := List.mem_map.mp hc
  exact ⟨rfl, hnew o ho⟩

private theorem RefinesAt.speaks {p : Protocol Bytes Entry} (h : RefinesAt ids V calls base id s p)
    (hvoting : VotingAt ids (fun j => (V j).toElection) calls id s) (hid : id ∈ ids)
    {o : Outgoing} (ho : Speaks False s o) : Vouches ids base p id o.request := by
  have hserver := h.server hid
  have hlog := hserver.holds
  have helected : s.role = .leader → p.leaders.elected s.currTerm := by
    intro hrole
    refine (Refines.elected h _).mpr ⟨id, hid, ?_⟩
    have hwon := hvoting.leader id hid (by rw [Function.update_self]; exact hrole)
    rw [Function.update_self] at hwon ⊢
    exact hwon
  cases ho with
  | timeoutNow => trivial
  | preVote => trivial
  | doneTransfer => trivial
  | appendEntries dst n hn hlead =>
      have hrole : s.role = .leader := hlead.resolve_right fun h => h
      have hseg := appendEntriesReq_segment hlog n hn
      refine ⟨helected hrole, p.log id, (hserver.leader hrole).1 ▸ List.prefix_refl _, hlog.indexed,
        ⟨hseg.prev_le, hseg.prev_term, ?_⟩, hserver.commit_le, hserver.committed⟩
      exact hseg.entries.imp_right fun h => ⟨Nat.zero_le _, h.2⟩
  | dataTransfer dst number name data hrole =>
      have hprefix : p.log id <+: p.leaders.log s.currTerm :=
        (hserver.leader hrole).1 ▸ List.prefix_refl _
      cases hcompaction : s.logCompactionEnabled with
      | false =>
          refine ⟨helected hrole, [], List.nil_prefix, by simp [Indexed], ?_, ?_,
            .inl List.nil_prefix⟩
          · simp [dataReq, hcompaction]
          · simp [dataReq, hcompaction, termAt]
      | true =>
          have hlast : (s.dataReq number name data).lastIndex = s.log.lastIndex := by
            simp [dataReq, hcompaction]
          have hterm : (s.dataReq number name data).lastTerm = s.log.lastTerm := by
            simp [dataReq, hcompaction]
          refine ⟨helected hrole, (p.log id).take s.log.lastIndex,
            (List.take_prefix _ _).trans hprefix, hlog.indexed.take _, ?_, ?_, ?_⟩
          · have hbase : s.log.lastIndex ≤ (p.log id).length := hlog.base_le
            rw [hlast, List.length_take, Nat.min_eq_left hbase]
          · rw [hlast, hterm, termAt_take le_rfl]
            exact hlog.base_term
          · exact hserver.committed.restrict (List.take_prefix_take_left hserver.compacted)

theorem RefinesAt.quiet {p : Protocol Bytes Entry} (h : RefinesAt ids V calls base id s p)
    (hvoting : VotingAt ids (fun j => (V j).toElection) calls id s) (hid : id ∈ ids)
    (hquiet : Quiet False s t) : RefinesAt ids V calls base id t p := by
  obtain ⟨new, hnew, hspeaks⟩ := hquiet.sent
  have hserver := h.server hid
  have hcluster : RefinesAt ids V calls base id { s with cluster := t.cluster } p := by
    refine h.change rfl fun W calls hW hR => ?_
    have hstep := hR.cluster hid t.cluster fun hrole q hq => ?_
    · rw [hW] at hstep
      exact hstep
    · obtain ⟨i, hi, rfl⟩ := List.getElem_of_mem hq
      have hlen := hquiet.nodes.length_eq
      have hnode := hquiet.nodes.get (i := i) (by omega) hi
      have hmatched := hserver.matched (hW ▸ hrole) _
        (List.getElem_mem (show i < s.cluster.length by omega))
      rw [hW]
      exact (Nat.le_of_eq hnode.matchIndex).trans (hnode.id ▸ hmatched)
  exact hcluster.send (view_eq hquiet.election hquiet.replica) hnew
    fun o ho => h.speaks hvoting hid (hspeaks o ho)

theorem RefinesAt.requestVotes {p : Protocol Bytes Entry}
    (h : RefinesAt ids V calls base id s p) (hid : id ∈ ids) (hself : s.selfId = id)
    (hrole : s.role = .candidate) : RefinesAt ids V calls base id s.requestVotes p := by
  have hserver := h.server hid
  have hlog : s.log.Holds (p.log id) := hserver.holds
  have hsent : s.requestVotes.sent = s.sent ++ s.others.map fun n =>
      ⟨n.id, s.role, s.currTerm, .requestVote (s.voteReq false)⟩ := rfl
  refine h.send rfl hsent fun o ho => ?_
  obtain ⟨n, -, rfl⟩ := List.mem_map.mp ho
  exact ⟨hself, p.log id, hserver.candidate hrole, hlog.lastEntryIndex_eq, hlog.termAt_length⟩

theorem RefinesAt.campaign {p : Protocol Bytes Entry} (h : RefinesAt ids V calls base id s p)
    (hid : id ∈ ids) (hself : s.selfId = id) :
    RefinesAt ids V calls base id s.becomeCandidate (p.campaign id (s.currTerm + 1)) := by
  refine h.change rfl fun W calls hW hR => ?_
  have hstep := hR.campaign hid (if s.contains s.selfId then 1 else 0)
  have hview : s.becomeCandidate.view = { s.view with
      role := .candidate
      currTerm := s.view.currTerm + 1
      votes := if s.contains s.selfId then 1 else 0
      votedFor := id
      ballots := s.view.ballots ++ [(s.view.currTerm + 1, id)] } := by
    subst hself
    rfl
  rw [hW] at hstep
  rw [hview]
  exact hstep

theorem RefinesAt.lead {p : Protocol Bytes Entry} (h : RefinesAt ids V calls base id s p)
    (hvoting : VotingAt ids (fun j => (V j).toElection) calls id s) (hid : id ∈ ids)
    (hmembers : HasMembers ids s) (hrole : s.role = .candidate)
    (hvotes : s.cluster.length / 2 < s.votes) :
    ∃ p', p.Grows p' ∧ RefinesAt ids V calls base id s.becomeLeader p' := by
  have hself := update_view_self V id s
  have hsize : ids.toFinset.card / 2 < s.votes := hmembers.length_eq ▸ hvotes
  have hvoting := hvoting.view
  have hcandidate : (Function.update V id s.view id).role = .candidate := by
    rw [hself]
    exact hrole
  have hopen := hvoting.term_open hid hcandidate (by rw [hself]; exact hsize)
  obtain ⟨-, -, Q, hQ, hcard, hsupport⟩ := hvoting.candidate id hid hcandidate
  rw [hself] at hcard
  have hcluster : ∀ q ∈ s.becomeLeader.cluster, q.2.matchIndex = 0 := by
    intro q hq
    obtain ⟨q, -, rfl⟩ := List.mem_map.mp hq
    rfl
  have hlead := Refines.lead h hid hcandidate (Q := Q) ⟨hQ, by omega⟩
    (fun n hn => hvoting.supports_ballot hid hcandidate (hsupport n hn)) hopen hvoting.leader
    hcluster
  have hnew := Refines.not_elected h hopen
  rw [Function.update_self, Function.update_idem] at hlead
  rw [Function.update_self] at hnew
  exact ⟨_, (Protocol.grows_elect hnew).trans (Protocol.grows_adopt _ id _ _), hlead⟩

theorem RefinesAt.append {p : Protocol Bytes Entry} (h : RefinesAt ids V calls base id s p)
    (hvoting : VotingAt ids (fun j => (V j).toElection) calls id s) (hid : id ∈ ids)
    (hrole : s.role = .leader) (data : Bytes) :
    ∃ p', p.Grows p' ∧ RefinesAt ids V calls base id (s.append data) p' := by
  have hself := update_view_self V id s
  have hvoting := hvoting.view
  have hholds := (h.server hid).holds.append_entry data s.currTerm false
  have hlead : (Function.update V id s.view id).role = .leader := by
    rw [hself]
    exact hrole
  have hwon := hvoting.leader id hid hlead
  have hone : ∀ j ∈ ids, j ≠ id → (Function.update V id s.view j).role = .leader →
      (Function.update V id s.view j).currTerm ≠ (Function.update V id s.view id).currTerm :=
    fun j hj hne hjrole hterm =>
      hne (hvoting.winner_unique hj hid (hterm ▸ hvoting.leader j hj hjrole) hwon)
  have hlast : (s.log.append [s.log.makeEntry data (s.log.lastEntryIndex + 1) s.currTerm
      false]).lastIndex = (Function.update V id s.view id).log.lastIndex := by
    rw [Function.update_self]
    rfl
  have hextend := Refines.extend h hid hlead hwon hone (by rw [hself]) hlast hholds
  rw [Function.update_self, Function.update_idem] at hextend
  rw [Raft.append, if_neg (by simp [hrole])]
  exact ⟨_, Protocol.grows_extend (Refines.inv h) id _ _, hextend⟩

/-! ## Moves of the log -/

theorem applyNext_replica (s : Raft) : ∃ lastApplied applied,
    s.applyNext.toReplica =
      { s.toReplica with lastApplied := lastApplied, applied := applied } ∧
    ∀ a ∈ applied, a ∈ s.applied ∨
      0 < a.1 ∧ a.1 ≤ s.commitIndex ∧ s.log.get a.1 = some a.2 := by
  unfold Raft.applyNext
  dsimp only
  split
  · exact ⟨s.lastApplied, s.applied, rfl, fun a ha => .inl ha⟩
  split
  · exact ⟨s.lastApplied, s.applied, rfl, fun a ha => .inl ha⟩
  rename_i hcommit
  split
  · exact ⟨s.lastApplied + 1, s.applied, rfl, fun a ha => .inl ha⟩
  rename_i e hget
  split
  · exact ⟨s.lastApplied + 1, s.applied, rfl, fun a ha => .inl ha⟩
  · refine ⟨s.lastApplied + 1, s.applied ++ [(s.lastApplied + 1, e)], rfl, fun a ha => ?_⟩
    rcases List.mem_append.mp ha with ha | ha
    · exact .inl ha
    · obtain rfl := List.mem_singleton.mp ha
      exact .inr ⟨Nat.succ_pos _, by dsimp only; omega, hget⟩

theorem compact_replica (s : Raft) : ∃ log, s.compact.toReplica = { s.toReplica with log := log } ∧
    (log = s.log ∨ log = (s.log.drop s.commitIndex).getD s.log) := by
  unfold Raft.compact
  split
  · exact ⟨s.log, rfl, .inl rfl⟩
  · refine ⟨_, rfl, ?_⟩
    split
    · rename_i hindex
      exact .inr (hindex.2 ▸ rfl)
    · exact .inl rfl

theorem RefinesAt.replica {p : Protocol Bytes Entry} (h : RefinesAt ids V calls base id s p)
    (hid : id ∈ ids) (hinward : Inward s t) (hholds : t.log.Holds (p.log id))
    (hbase : t.log.lastIndex ≤ t.commitIndex) (hle : t.commitIndex ≤ (p.log id).length)
    (hcommitted : Decides ids base p s.currTerm ((p.log id).take t.commitIndex))
    (happlied : ∀ a ∈ t.applied, a ∈ s.applied ∨ 0 < a.1 ∧
      ∃ q, Decides ids base p s.currTerm q ∧ q[a.1 - 1]? = some a.2.toEntry) :
    RefinesAt ids V calls base id t p := by
  refine h.change hinward.sent fun W calls hW hR => ?_
  have hview : t.view = { s.view with toReplica := t.toReplica } := by
    unfold view
    rw [hinward.election, hinward.cluster]
  have hstep := hR.replica hid hholds hbase hle (hW ▸ hcommitted) (hW ▸ happlied)
  rw [hW] at hstep
  rw [hview]
  exact hstep

theorem RefinesAt.applyNext {p : Protocol Bytes Entry} (h : RefinesAt ids V calls base id s p)
    (hid : id ∈ ids) : RefinesAt ids V calls base id s.applyNext p := by
  have hserver := h.server hid
  have hlog : s.log.Holds (p.log id) := hserver.holds
  obtain ⟨lastApplied, applied, hreplica, happlied⟩ := applyNext_replica s
  refine h.replica hid (inward_applyNext s) ?_ ?_ ?_ ?_ ?_ <;> rw [hreplica]
  · exact hserver.holds
  · exact hserver.compacted
  · exact hserver.commit_le
  · exact hserver.committed
  intro a ha
  rcases happlied a ha with hmem | ⟨hpos, hle, hget⟩
  · exact .inl hmem
  · refine .inr ⟨hpos, (p.log id).take s.commitIndex, hserver.committed, ?_⟩
    obtain ⟨i, hi⟩ : ∃ i, a.1 = i + 1 := ⟨a.1 - 1, by omega⟩
    have hmap := hlog.get_succ_map i
    rw [hi] at hget hle ⊢
    rw [hget] at hmap
    split at hmap
    · cases hmap
    · rw [Nat.add_sub_cancel, List.getElem?_take_of_lt hle]
      exact hmap.symm

theorem RefinesAt.compact {p : Protocol Bytes Entry} (h : RefinesAt ids V calls base id s p)
    (hid : id ∈ ids) : RefinesAt ids V calls base id s.compact p := by
  have hserver := h.server hid
  obtain ⟨log, hreplica, hcases⟩ := compact_replica s
  have hlog : log.Holds (p.log id) ∧ log.lastIndex ≤ s.commitIndex := by
    rcases hcases with rfl | rfl
    · exact ⟨hserver.holds, hserver.compacted⟩
    · obtain ⟨hholds, hlast⟩ := hserver.holds.drop_getD hserver.commit_le
      exact ⟨hholds, hlast.trans (max_le hserver.compacted le_rfl)⟩
  refine h.replica hid (inward_compact s) ?_ ?_ ?_ ?_ ?_ <;> rw [hreplica]
  · exact hlog.1
  · exact hlog.2
  · exact hserver.commit_le
  · exact hserver.committed
  · exact fun a ha => .inl ha

/-! ## The commit rule -/

/-- An index that a majority has, between two entries of the term, is decided. -/
theorem RefinesAt.decides_counted {p : Protocol Bytes Entry}
    (h : RefinesAt ids V calls base id s p) (hid : id ∈ ids) (hmembers : HasMembers ids s)
    (hself : s.selfId = id) (hrole : s.role = .leader) (helected : p.leaders.elected s.currTerm)
    {i : Nat} (hlo : s.minMatch ≤ i) (hhi : i ≤ s.maxMatch)
    (hcount : s.cluster.length / 2 < s.count i) :
    s.commitIndex ≤ i ∧ i ≤ (p.log id).length ∧
      Decides ids base p s.currTerm ((p.log id).take i) := by
  have hserver := h.server hid
  have hlog : p.log id = p.leaders.log s.currTerm := (hserver.leader hrole).1
  have hadopted : (p.log id).length ≤ p.adopted id s.currTerm := (hserver.leader hrole).2
  have hcommit : s.commitIndex ≤ (p.log id).length := hserver.commit_le
  rcases between_of_bounds hserver.holds hlo hhi with
    ⟨rfl, hnil⟩ | ⟨lo, hi, hlow, hlo, hhi, hlot, hhit⟩
  · rw [hnil] at hcommit
    exact ⟨hcommit, Nat.zero_le _, .inl List.nil_prefix⟩
  obtain ⟨lo, rfl⟩ : ∃ k, lo = k + 1 := ⟨lo - 1, by omega⟩
  obtain ⟨hi, rfl⟩ : ∃ k, hi = k + 1 := ⟨hi - 1, by omega⟩
  obtain ⟨i, rfl⟩ : ∃ k, i = k + 1 := ⟨i - 1, by omega⟩
  obtain ⟨x, hx, hxt⟩ := Option.map_eq_some_iff.mp hlot
  obtain ⟨y, hy, hyt⟩ := Option.map_eq_some_iff.mp hhit
  have hlt := lt_length_of_getElem? hy
  refine ⟨by omega, by omega, ?_⟩
  rw [hlog] at hx hy ⊢
  rcases Nat.lt_or_ge i base.length with hbase | hbase
  · refine .inl ?_
    rw [prefix_take_eq (h.inv.leader_follows _ helected).base_start hbase]
    exact List.take_prefix _ _
  · have hown := h.inv.own_between helected (by omega) (by omega) hbase hx hxt hy hyt
    obtain ⟨Q, hQ, hcard, hall⟩ := exists_counted hmembers (hself ▸ hid) (i + 1)
    have hsize := hmembers.length_eq
    refine .inr ⟨_, i, le_rfl, hown, List.prefix_refl _, Q, ⟨hQ, by omega⟩, fun n hn => ?_⟩
    rcases hall n hn with rfl | ⟨m, hm, rfl, hle⟩
    · subst hself
      omega
    · obtain ⟨q, hq, rfl⟩ := List.mem_map.mp (List.mem_of_mem_filter hm)
      exact hle.trans (hserver.matched hrole q hq)

theorem RefinesAt.commit {p : Protocol Bytes Entry} (h : RefinesAt ids V calls base id s p)
    (hvoting : VotingAt ids (fun j => (V j).toElection) calls id s) (hid : id ∈ ids)
    (hself : s.selfId = id) (hmembers : HasMembers ids s) (hrole : s.role = .leader) :
    RefinesAt ids V calls base id s.adjustCommitIndex p := by
  have hserver := h.server hid
  have helected : p.leaders.elected s.currTerm := by
    have hwon := hvoting.leader id hid (by rw [Function.update_self]; exact hrole)
    rw [Function.update_self] at hwon
    exact (Refines.elected h _).mpr ⟨id, hid, by rw [Function.update_self]; exact hwon⟩
  rcases adjustCommitIndex_replica s with heq | ⟨i, hcommits, heq⟩
  · refine h.replica hid (inward_adjustCommitIndex s) ?_ ?_ ?_ ?_ ?_ <;> rw [heq]
    · exact hserver.holds
    · exact hserver.compacted
    · exact hserver.commit_le
    · exact hserver.committed
    · exact fun a ha => .inl ha
  · have hi : s.log.lastIndex ≤ i ∧ i ≤ (p.log id).length ∧
        Decides ids base p s.currTerm ((p.log id).take i) := by
      cases hcommits with
      | counted hlo hhi hcount =>
          obtain ⟨hle, hlen, hdecided⟩ :=
            h.decides_counted hid hmembers hself hrole helected hlo hhi hcount
          exact ⟨le_trans hserver.compacted hle, hlen, hdecided⟩
      | alone hone =>
          have hcard : ids.toFinset.card = 1 := hmembers.length_eq ▸ hone
          have hmajority : IsMajority ids.toFinset {id} :=
            ⟨by simpa using hid, by rw [hcard, Finset.card_singleton]; decide⟩
          have hdecided := h.inv.decided_of_sole hmajority fun t ht => h.alone hcard id hid t ht
          rw [hserver.current] at hdecided
          have hlast : s.log.lastEntryIndex = (p.log id).length := hserver.holds.lastEntryIndex_eq
          rw [hlast, List.take_length]
          exact ⟨hserver.holds.base_le, le_rfl, hdecided⟩
    refine h.replica hid (inward_adjustCommitIndex s) ?_ ?_ ?_ ?_ ?_ <;> rw [heq]
    · exact hserver.holds
    · exact hi.1
    · exact hi.2.1
    · exact hi.2.2
    · exact fun a ha => .inl ha

/-! ## Turns -/

theorem RefinesAt.move {p : Protocol Bytes Entry} (h : RefinesAt ids V calls base id s p)
    (hvoting : VotingAt ids (fun j => (V j).toElection) calls id s) (hid : id ∈ ids)
    (hself : s.selfId = id) (hmembers : HasMembers ids s) (hmove : Move False s t) :
    ∃ p', p.Grows p' ∧ RefinesAt ids V calls base id t p' := by
  have hview : Function.update V id s.view id = s.view := Function.update_self ..
  have hcurrent : p.current id = s.currTerm := (h.server hid).current
  have hcampaign : p.Grows (p.campaign id (s.currTerm + 1)) :=
    Protocol.grows_campaign (Refines.inv h) (hcurrent ▸ Nat.lt_succ_self _)
  cases hmove with
  | quiet hquiet => exact ⟨p, .refl p, h.quiet hvoting hid hquiet⟩
  | follow =>
      refine ⟨p, .refl p, h.change rfl fun W calls hW hR => ?_⟩
      have hstep := hR.follow hid
      rw [hW] at hstep
      exact hstep
  | newTerm term votedFor hlt =>
      refine ⟨p.raise id term, Protocol.grows_raise (hcurrent ▸ hlt.le),
        h.change rfl fun W calls hW hR => ?_⟩
      have hstep := hR.newTerm hid (by rw [hW]; exact hlt) votedFor
      rw [hW] at hstep
      exact hstep
  | campaign => exact ⟨_, hcampaign, (h.campaign hid hself).requestVotes hid hself rfl⟩
  | campaignAlone => exact ⟨_, hcampaign, h.campaign hid hself⟩
  | lead hrole hvotes => exact h.lead hvoting hid hmembers hrole hvotes
  | commit hrole => exact ⟨p, .refl p, h.commit hvoting hid hself hmembers hrole⟩
  | append hrole data => exact h.append hvoting hid hrole data
  | applyNext => exact ⟨p, .refl p, h.applyNext hid⟩
  | compact => exact ⟨p, .refl p, h.compact hid⟩

theorem RefinesAt.turn {p : Protocol Bytes Entry} (h : RefinesAt ids V calls base id s p)
    (hvoting : VotingAt ids (fun j => (V j).toElection) calls id s) (hid : id ∈ ids)
    (hne : id ≠ []) (hself : s.selfId = id) (hmembers : HasMembers ids s)
    (hturn : Turn False s t) : ∃ p', p.Grows p' ∧ RefinesAt ids V calls base id t p' := by
  induction hturn with
  | refl => exact ⟨p, .refl p, h⟩
  | tail hpre hmove ih =>
      obtain ⟨p₁, hgrows₁, hp₁⟩ := ih
      have hselfId := (congrArg Settings.selfId (Turn.settings hpre)).trans hself
      obtain ⟨p₂, hgrows₂, hp₂⟩ := hp₁.move (hvoting.turn hid hne hself hmembers hpre) hid hselfId
        (Turn.hasMembers hpre hmembers) hmove
      exact ⟨p₂, hgrows₁.trans hgrows₂, hp₂⟩

theorem RefinesAt.mark {p : Protocol Bytes Entry} (h : RefinesAt ids V calls base id s p)
    {i : Nat} {c : Call} (hc : calls[i]? = some c) (response : Option Response) (done : Bool)
    (hanswer : ∀ req res, c.request = .appendEntries req → response = some (.append res) →
      res.success = true → res.matchIndex ≤ p.adopted c.dst req.term) :
    RefinesAt ids V (calls.set i { c with response := response, done := done }) base id s p := by
  obtain ⟨hi, -⟩ := List.getElem?_eq_some_iff.mp hc
  unfold RefinesAt
  rw [← List.set_append_left _ _ hi]
  exact Refines.mark h ((List.getElem?_append_left hi).trans hc) response done hanswer

/-! ## Handlers -/

theorem RefinesAt.grant {p : Protocol Bytes Entry} (h : RefinesAt ids V calls base id s p)
    (hvoting : VotingAt ids (fun j => (V j).toElection) calls id s) (hid : id ∈ ids)
    {req : VoteReq} {src : Bytes} (hvouches : Vouches ids base p src (.requestVote req))
    (hterm : s.currTerm = req.term)
    (hfree : s.votedFor = [] ∨ s.votedFor = req.candidateId) (hlog : ¬ s.logAhead req) :
    RefinesAt ids V calls base id (s.castVote req.candidateId)
      (p.addBallot id req.term req.candidateId) := by
  obtain ⟨rfl, g, hg, hlen, hlast⟩ := hvouches
  have hvoting := hvoting.view
  have hserver := h.server hid
  have hholds : s.log.Holds (p.log id) := hserver.holds
  have hupToDate : UpToDate Entry.term g (p.log id) := by
    intro y hy
    simp only [logAhead, Bool.or_eq_true, decide_eq_true_eq, not_or, hholds.lastEntryIndex_eq,
      hlen] at hlog
    have hlastTerm := hholds.termAt_length
    rw [List.getLast?_eq_getElem?] at hy
    have hpos := lt_length_of_getElem? hy
    obtain ⟨k, hk⟩ : ∃ k, (p.log id).length = k + 1 := ⟨(p.log id).length - 1, by omega⟩
    obtain ⟨m, hm⟩ : ∃ m, g.length = m + 1 := ⟨g.length - 1, by omega⟩
    rw [hk, Nat.add_sub_cancel] at hy
    rw [hk, termAt, hy, Option.map_some, Option.some.injEq] at hlastTerm
    rw [hm, termAt, Option.map_eq_some_iff] at hlast
    obtain ⟨x, hx, hxt⟩ := hlast
    refine ⟨x, by rw [List.getLast?_eq_getElem?, hm]; exact hx, ?_⟩
    omega
  have hballots : ∀ d, (s.currTerm, d) ∈ s.ballots → d = req.candidateId := by
    intro d hd
    obtain ⟨-, hvoted, hdne⟩ := hvoting.cast id hid _ (by rw [update_view_self]; exact hd)
    rw [update_view_self] at hvoted
    have hvoted : s.votedFor = d := hvoted rfl
    rcases hfree with hnil | hsame
    · exact absurd (hvoted.symm.trans hnil) hdne
    · exact hvoted.symm.trans hsame
  refine h.change rfl fun W calls hW hR => ?_
  have hstep := hR.vote hid (c := req.candidateId) (hW ▸ hballots)
    (by rw [hW]; exact hterm ▸ hg) hupToDate
  rw [hW] at hstep
  rw [← hterm]
  exact hstep

private theorem followEntries_view (s : Raft) (log : EntryLogger) (req : AppendEntriesReq) :
    (s.followEntries log req).view = { s.view with
      log := log
      commitIndex := if s.commitIndex < req.leaderCommit
        then min req.leaderCommit log.lastEntryIndex else s.commitIndex
      cluster := (s.followEntries log req).cluster } := by
  unfold view
  rw [followEntries_election, followEntries_replica]

theorem RefinesAt.accept {p : Protocol Bytes Entry} (h : RefinesAt ids V calls base id s p)
    (hid : id ∈ ids) {req : AppendEntriesReq} {src : Bytes}
    (hvouches : Vouches ids base p src (.appendEntries req)) (hterm : s.currTerm = req.term)
    (hrole : s.role = .follower) {log : EntryLogger}
    (hprev : s.log.hasEntry req.prevLogIndex req.prevLogTerm)
    (hmerge : mergeEntries s.log req.entries = some log) (hverified : s.log.Verified req)
    (hreaches : s.log.Reaches req) :
    ∃ p', p.Grows p' ∧ RefinesAt ids V calls base id (s.followEntries log req) p' ∧
      ((s.followEntries log req).appendResult true).matchIndex ≤ p'.adopted id req.term := by
  have hserver := h.server hid
  have hview : Function.update V id s.view id = s.view := Function.update_self ..
  obtain ⟨k, hk⟩ := Refines.mergeEntries h hid (by rw [hview]; exact hterm.le) hvouches
    (by rw [hview]; exact hprev) (by rw [hview]; exact hmerge) (by rw [hview]; exact hverified)
    (by rw [hview]; exact hreaches)
  obtain ⟨helected, g, hg, -, -, hlc, hdecided⟩ := hvouches
  have hcommit : s.commitIndex ≤ k := by
    have := Refines.commit_le_adopts h hid (by rw [hview]; exact hterm.le) helected hk
    rwa [hview] at this
  have hleader : (p.log id).take s.commitIndex <+: p.leaders.log req.term := by
    have := Refines.committed_leader h hid (by rw [hview]; exact hterm.le) helected
    rwa [hview] at this
  have hlast : log.lastEntryIndex = k := by
    rw [hk.holds.lastEntryIndex_eq, List.length_take, Nat.min_eq_left hk.le]
  have hbase : log.lastIndex ≤ s.commitIndex := by
    rw [hk.base, hview]
    exact hserver.compacted
  have hle : s.commitIndex ≤ (p.log id).length := hserver.commit_le
  let commitIndex := if s.commitIndex < req.leaderCommit
    then min req.leaderCommit log.lastEntryIndex else s.commitIndex
  have hnew : s.commitIndex ≤ commitIndex ∧ commitIndex ≤ k ∧
      Decides ids base p req.term ((p.leaders.log req.term).take commitIndex) := by
    dsimp only [commitIndex]
    rw [hlast]
    split
    · refine ⟨by omega, Nat.min_le_right _ _, hdecided.restrict ?_⟩
      rw [← prefix_take_eq hg hlc]
      exact List.take_prefix_take_left (Nat.min_le_left _ _)
    · refine ⟨le_rfl, hcommit, ?_⟩
      have hcommitted : Decides ids base p s.currTerm ((p.log id).take s.commitIndex) :=
        hserver.committed
      rw [← hterm] at hleader ⊢
      rwa [prefix_take_eq hleader (by rw [List.length_take]; omega), List.take_take,
        Nat.min_self]
  refine ⟨p.adopt id req.term k, Protocol.grows_adopt p id _ _, ?_, ?_⟩
  · refine h.change (followEntries_sent s log req) fun W calls hW hR => ?_
    have hWterm : (W id).currTerm = req.term := by
      rw [hW]
      exact hterm
    have hstep := hR.adopt hid (hW ▸ hrole) (hWterm ▸ helected) (hWterm ▸ hk.le) (hWterm ▸ hk.keep)
      (hWterm ▸ hk.holds) (hbase.trans hnew.1) hnew.2.1 (hWterm ▸ hnew.2.2) s.lastApplied
      (s.followEntries log req).cluster
    rw [hWterm, hW] at hstep
    rw [followEntries_view]
    exact hstep
  · have hreported : ((s.followEntries log req).appendResult true).matchIndex = k := by
      rw [appendResult]
      dsimp only
      rw [← hlast]
      exact congrArg (fun v => v.log.lastEntryIndex) (followEntries_view s log req)
    rw [hreported, Protocol.adopt_adopted_self]
    exact le_max_right _ _

theorem RefinesAt.install {p : Protocol Bytes Entry} (h : RefinesAt ids V calls base id s p)
    (hid : id ∈ ids) {req : DataReq} {src : Bytes}
    (hvouches : Vouches ids base p src (.dataTransfer req)) (hterm : s.currTerm = req.term)
    (hrole : s.role = .follower) (hshort : s.log.lastEntryIndex ≤ req.lastIndex) :
    RefinesAt ids V calls base id (s.installBase req) (p.adopt id req.term req.lastIndex) := by
  obtain ⟨helected, g, hg, hidx, hlen, hlast, hdecided⟩ := hvouches
  have hholds : s.log.Holds (p.log id) := (h.server hid).holds
  rw [hholds.lastEntryIndex_eq] at hshort
  have htake : (p.leaders.log req.term).take req.lastIndex = g := by
    rw [prefix_take_eq hg (Nat.le_of_eq hlen.symm), List.take_of_length_le (Nat.le_of_eq hlen)]
  have hnew : Decides ids base p req.term ((p.leaders.log req.term).take req.lastIndex) := by
    rw [htake]
    exact hdecided
  let chopped := (s.log.chop (s.log.lastIndex + 1)).getD s.log
  have hlog : (chopped.copyStates req.lastConfig req.lastIndex req.lastTerm).Holds g :=
    EntryLogger.holds_copyStates hholds.chop_all hlen hidx hlast
  have hview : (s.installBase req).view = { s.view with
      log := chopped.copyStates req.lastConfig req.lastIndex req.lastTerm
      commitIndex := req.lastIndex
      lastApplied := req.lastIndex
      cluster := (s.installBase req).cluster } := by
    unfold view
    rw [installBase_election, installBase_replica]
  refine h.change (installBase_sent s req) fun W calls hW hR => ?_
  have hWterm : (W id).currTerm = req.term := by
    rw [hW]
    exact hterm
  have hstep := hR.adopt (k := req.lastIndex) hid (hW ▸ hrole) (hWterm ▸ helected)
    (hWterm ▸ hlen ▸ hg.length_le) (fun _ => hshort)
    (by rw [hWterm, htake]; exact hlog) le_rfl le_rfl (by rw [hWterm]; exact hnew)
    req.lastIndex (s.installBase req).cluster
  rw [hWterm, hW] at hstep
  rw [hview]
  exact hstep

theorem RefinesAt.serves {p : Protocol Bytes Entry} (h : RefinesAt ids V calls base id s p)
    (hvoting : VotingAt ids (fun j => (V j).toElection) calls id s) (hid : id ∈ ids)
    (hne : id ≠ []) (hself : s.selfId = id) (hmembers : HasMembers ids s) {i : Nat} {c : Call}
    {req : Request} {res : Response} (hc : calls[i]? = some c) (hdst : c.dst = id)
    (hreq : c.request = req) (hheeds : s.Heeds req) (hserves : Serves False s req t res) :
    ∃ p', p.Grows p' ∧
      RefinesAt ids V (calls.set i { c with response := some res }) base id t p' := by
  have hturn : ∀ {t : Raft}, Turn False s t →
      ∃ p', p.Grows p' ∧ RefinesAt ids V calls base id t p' :=
    fun ht => h.turn hvoting hid hne hself hmembers ht
  have hvouches : ∀ {t : Raft} {p : Protocol Bytes Entry}, RefinesAt ids V calls base id t p →
      Vouches ids base p c.src req := fun hp =>
    hreq ▸ Refines.request hp c (List.mem_append_left _ (List.mem_of_getElem? hc))
  cases hserves with
  | turn ht hres =>
      obtain ⟨p, hgrows, hp⟩ := hturn ht
      refine ⟨p, hgrows, hp.mark hc _ _ fun req v hreq' hv hsuccess => absurd ?_ hres⟩
      rw [← hreq, hreq', Option.some.inj hv]
      exact hsuccess
  | grant req hterm hfree hlog =>
      have hheed : Turn False s (s.heedCandidate req.term) := turn_heedCandidate s req.term
      obtain ⟨p, hgrows, hp⟩ := hturn hheed
      have hgrant := hp.grant (hvoting.turn hid hne hself hmembers hheed) hid (hvouches hp)
        (heedCandidate_currTerm hterm) hfree
        (by simpa only [logAhead, heedCandidate_replica] using hlog)
      refine ⟨_, hgrows.trans (Protocol.grows_addBallot p id _ _),
        hgrant.mark hc _ _ fun req' v hreq' => ?_⟩
      rw [hreq] at hreq'
      cases hreq'
  | accept req log hterm hprev hmerge =>
      obtain ⟨p₁, hgrows₁, hp₁⟩ := hturn (turn_heedLeader s req.term req.leaderId)
      obtain ⟨hverified, hreaches⟩ := hheeds hterm hprev
      have hlog : (s.heedLeader req.term req.leaderId).log = s.log :=
        congrArg Replica.log (heedLeader_replica s req.term req.leaderId)
      have helection := heedLeader_election hterm req.leaderId
      rw [← hlog] at hprev hmerge hverified hreaches
      obtain ⟨p₂, hgrows₂, hp₂, hmatch⟩ := hp₁.accept hid (hvouches hp₁) helection.1 helection.2
        hprev hmerge hverified hreaches
      refine ⟨p₂, hgrows₁.trans hgrows₂, hp₂.mark hc _ _ fun req' v hreq' hv _ => ?_⟩
      rw [hreq] at hreq'
      cases hreq'
      cases hv
      rw [hdst]
      exact hmatch
  | install req hterm hone hcompaction =>
      obtain ⟨p, hgrows, hp⟩ := hturn (turn_followSender s req.term req.leaderId)
      have hlog : (s.followSender req.term req.leaderId).log = s.log :=
        congrArg Replica.log (followSender_replica s req.term req.leaderId)
      have helection := followSender_election hterm req.leaderId
      have hshort := hheeds hterm hone hcompaction
      rw [← hlog] at hshort
      have htimer : RefinesAt ids V calls base id
          { s.followSender req.term req.leaderId with electionTimer := false } p := hp.congr rfl rfl
      refine ⟨_, hgrows.trans (Protocol.grows_adopt p id _ _),
        (htimer.install hid (hvouches hp) helection.1 helection.2 hshort).mark hc _ _
          fun req' v hreq' => ?_⟩
      rw [hreq] at hreq'
      cases hreq'

/-! ## Callbacks -/

theorem RefinesAt.record {p : Protocol Bytes Entry} (h : RefinesAt ids V calls base id s p)
    (hid : id ∈ ids) {dst : Bytes} {matchIndex : Nat} (hrole : s.role = .leader)
    (hmatch : matchIndex ≤ p.adopted dst s.currTerm) :
    RefinesAt ids V calls base id (s.recordMatch dst matchIndex) p := by
  have hserver := h.server hid
  refine h.change rfl fun W calls hW hR => ?_
  have hstep := hR.cluster hid (s.recordMatch dst matchIndex).cluster fun _ q hq => ?_
  · rw [hW] at hstep
    exact hstep
  · rw [hW]
    obtain ⟨q, hmem, rfl⟩ := List.mem_map.mp hq
    split
    · rename_i hqid
      exact hqid ▸ hmatch
    · exact hserver.matched hrole q hmem

theorem RefinesAt.finishes {p : Protocol Bytes Entry} (h : RefinesAt ids V calls base id s p)
    (hvoting : Voting ids (fun j => (V j).toElection) calls) (hV : (V id).toElection = s.toElection)
    (hsent : s.sent = []) (hid : id ∈ ids) (hne : id ≠ []) (hself : s.selfId = id)
    (hmembers : HasMembers ids s) {i : Nat} {c : Call} {req : Request} {res : Response}
    (hc : calls[i]? = some c) (hsrc : c.src = id) (hres : c.response = some res)
    (hdone : c.done = false) (hreq : c.request = req) (hcounts : s.Counts req res)
    (hfinishes : Finishes False s c.dst req res t) :
    ∃ p', p.Grows p' ∧ RefinesAt ids V (calls.set i { c with done := true }) base id t p' := by
  have hanswer := fun req res => Refines.answer h c
    (List.mem_append_left _ (List.mem_of_getElem? hc)) req res
  have hmark : RefinesAt ids V (calls.set i { c with done := true }) base id s p :=
    h.mark hc c.response true hanswer
  have hstart := VotingAt.finished hvoting hV hsent hc
  cases hfinishes with
  | turn ht => exact hmark.turn hstart hid hne hself hmembers ht
  | count req v hrole hgranted hterm ht =>
      have hcount := VotingAt.counted hvoting hV hsent hc hsrc hreq hres hdone hrole hgranted hterm
      have hat : RefinesAt ids V (calls.set i { c with done := true }) base id
          { s with votes := s.votes + 1 } p := by
        refine hmark.change rfl fun W calls hW hR => ?_
        have hstep := hR.change (v := { W id with votes := s.votes + 1 }) hid rfl
          { hR.server id hid with }
        rw [hW] at hstep
        exact hstep
      exact hat.turn hcount hid hne hself (hmembers.of_roster rfl) ht
  | record req r hrole hsuccess ht =>
      have hmatch : r.matchIndex ≤ p.adopted c.dst s.currTerm :=
        hcounts hrole hsuccess ▸ hanswer req r hreq hres hsuccess
      have hvote : VotingAt ids (fun j => (V j).toElection)
          (calls.set i { c with done := true }) id (s.recordMatch c.dst r.matchIndex) :=
        hstart.congr rfl rfl
      exact (hmark.record hid hrole hmatch).turn hvote hid hne hself
        (hmembers.of_roster (recordMatch_roster s c.dst r.matchIndex)) ht

end Raft

end Draft
