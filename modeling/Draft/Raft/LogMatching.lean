import Draft.Raft.CommitRule
import Draft.Raft.ElectionSafety
import Draft.Raft.Merging

/-!
# Log matching

Without compaction every log keeps the entries above one base.  The logs of
the servers and those that requests were cut from all follow the logs of the
leaders, whoever sent the requests, so two logs agree up to every entry that
they hold with one index and one term.
-/

namespace Draft

open Consensus Raft

/--
The logs of the servers follow the leaders `L`; `F` has the full logs.  A
request holds a segment of a log that followed them when it was sent.
-/
structure Matching (ids : List Bytes) (E : Bytes → Election) (R : Bytes → Replica)
    (calls : List Call) (base : List Entry) (first : Nat) (L : Leaders Entry)
    (F : Bytes → List Entry) : Prop where
  uncompacted : ∀ id ∈ ids, (R id).log.lastIndex = first
  holds : ∀ id ∈ ids, (R id).log.Holds (F id)
  follows : ∀ id ∈ ids, Follows Entry.term base L (F id)
  elected : ∀ t, L.elected t ↔ ∃ id ∈ ids, t ∈ (E id).elections
  leader : ∀ id ∈ ids, (E id).role = .leader → F id = L.log (E id).currTerm
  request : ∀ c ∈ calls, ∀ req, c.request = .appendEntries req →
    ∃ g, Indexed g ∧ Follows Entry.term base L g ∧ Segment g first req

namespace Matching

variable {ids : List Bytes} {E : Bytes → Election} {R : Bytes → Replica} {calls : List Call}
  {base : List Entry} {first : Nat} {L : Leaders Entry} {F : Bytes → List Entry} {id : Bytes}

private theorem request_grows {M : Leaders Entry} (h : Matching ids E R calls base first L F)
    (hgrows : L.Grows M) : ∀ c ∈ calls, ∀ req, c.request = .appendEntries req →
      ∃ g, Indexed g ∧ Follows Entry.term base M g ∧ Segment g first req := by
  intro c hc req hreq
  obtain ⟨g, hidx, hg, hseg⟩ := h.request c hc req hreq
  exact ⟨g, hidx, hg.mono hgrows, hseg⟩

theorem election (h : Matching ids E R calls base first L F) {e : Election} (hid : id ∈ ids)
    (helections : e.elections = (E id).elections)
    (hleader : e.role = .leader → (E id).role = .leader ∧ e.currTerm = (E id).currTerm) :
    Matching ids (Function.update E id e) R calls base first L F where
  uncompacted := h.uncompacted
  holds := h.holds
  follows := h.follows
  elected := by
    intro t
    rw [h.elected]
    refine exists_congr fun j => and_congr_right fun _ => ?_
    by_cases hj : j = id
    · subst hj
      rw [Function.update_self, helections]
    · rw [Function.update_of_ne hj]
  leader := by
    intro j hj hrole
    by_cases hjid : j = id
    · subst hjid
      rw [Function.update_self] at hrole ⊢
      obtain ⟨hold, hterm⟩ := hleader hrole
      rw [hterm]
      exact h.leader j hj hold
    · rw [Function.update_of_ne hjid] at hrole ⊢
      exact h.leader j hj hrole
  request := h.request

theorem lead (h : Matching ids E R calls base first L F) (hid : id ∈ ids)
    (hopen : ∀ j ∈ ids, (E id).currTerm ∉ (E j).elections)
    (hwon : ∀ j ∈ ids, (E j).role = .leader → (E j).currTerm ∈ (E j).elections) :
    ∃ M, Matching ids (Function.update E id { E id with
        role := .leader
        elections := (E id).elections ++ [(E id).currTerm] }) R calls base first M F := by
  let M : Leaders Entry :=
    { elected := fun t => L.elected t ∨ t = (E id).currTerm
      log := Function.update L.log (E id).currTerm (F id) }
  have hnew : ¬ L.elected (E id).currTerm := by
    rw [h.elected]
    rintro ⟨j, hj, hmem⟩
    exact hopen j hj hmem
  have hold : ∀ t, t ≠ (E id).currTerm → M.log t = L.log t :=
    fun t ht => Function.update_of_ne ht ..
  have hgrows : L.Grows M := fun t ht => by
    have hne : t ≠ (E id).currTerm := fun heq => hnew (heq ▸ ht)
    exact ⟨.inl ht, by rw [hold t hne]⟩
  refine ⟨M, ?_⟩
  exact
    { uncompacted := h.uncompacted
      holds := h.holds
      follows := fun j hj => (h.follows j hj).mono hgrows
      elected := by
        intro t
        constructor
        · rintro (ht | rfl)
          · obtain ⟨j, hj, hmem⟩ := (h.elected t).mp ht
            refine ⟨j, hj, ?_⟩
            by_cases hjid : j = id
            · subst hjid
              rw [Function.update_self]
              exact List.mem_append_left _ hmem
            · rw [Function.update_of_ne hjid]
              exact hmem
          · refine ⟨id, hid, ?_⟩
            rw [Function.update_self]
            exact List.mem_append_right _ (List.mem_singleton_self _)
        · rintro ⟨j, hj, hmem⟩
          by_cases hjid : j = id
          · subst hjid
            rw [Function.update_self] at hmem
            rcases List.mem_append.mp hmem with hmem | hmem
            · exact .inl ((h.elected t).mpr ⟨j, hj, hmem⟩)
            · exact .inr (List.mem_singleton.mp hmem)
          · rw [Function.update_of_ne hjid] at hmem
            exact .inl ((h.elected t).mpr ⟨j, hj, hmem⟩)
      leader := by
        intro j hj hrole
        by_cases hjid : j = id
        · subst hjid
          rw [Function.update_self]
          exact (Function.update_self (E j).currTerm (F j) L.log).symm
        · rw [Function.update_of_ne hjid] at hrole ⊢
          rw [hold _ fun heq => hopen j hj (heq ▸ hwon j hj hrole)]
          exact h.leader j hj hrole
      request := h.request_grows hgrows }

private theorem forall_update₂ {P : Bytes → Replica → List Entry → Prop} {r : Replica} {f : List Entry}
    (hothers : ∀ j ∈ ids, P j (R j) (F j)) (hthis : P id r f) :
    ∀ j ∈ ids, P j (Function.update R id r j) (Function.update F id f j) := by
  intro j hj
  by_cases hjid : j = id
  · subst hjid
    rw [Function.update_self, Function.update_self]
    exact hthis
  · rw [Function.update_of_ne hjid, Function.update_of_ne hjid]
    exact hothers j hj

theorem extend (h : Matching ids E R calls base first L F) (hid : id ∈ ids)
    (hrole : (E id).role = .leader) (hwon : (E id).currTerm ∈ (E id).elections)
    (hone : ∀ j ∈ ids, j ≠ id → (E j).role = .leader → (E j).currTerm ≠ (E id).currTerm)
    {r : Replica} {x : Entry} (hx : x.term = (E id).currTerm)
    (hlast : r.log.lastIndex = (R id).log.lastIndex) (hr : r.log.Holds (F id ++ [x])) :
    ∃ M G, Matching ids E (Function.update R id r) calls base first M G := by
  let M : Leaders Entry := { L with
    log := Function.update L.log (E id).currTerm (F id ++ [x]) }
  have hold : ∀ t, t ≠ (E id).currTerm → M.log t = L.log t :=
    fun t ht => Function.update_of_ne ht ..
  have hself : M.log (E id).currTerm = F id ++ [x] := Function.update_self ..
  have hgrows : L.Grows M := fun t ht => by
    refine ⟨ht, ?_⟩
    by_cases heq : t = (E id).currTerm
    · rw [heq, hself, h.leader id hid hrole]
      exact List.prefix_append _ _
    · rw [hold t heq]
  have each := fun P => @forall_update₂ ids R F id P r (F id ++ [x])
  refine ⟨M, Function.update F id (F id ++ [x]), ?_⟩
  exact
    { uncompacted := each (fun _ r _ => r.log.lastIndex = first) h.uncompacted
        (hlast.trans (h.uncompacted id hid))
      holds := each (fun _ r f => r.log.Holds f) h.holds hr
      follows := by
        refine each (fun _ _ f => Follows Entry.term base M f)
          (fun j hj => (h.follows j hj).mono hgrows) ?_
        refine ((h.follows id hid).mono hgrows).append ?_ ?_
        · rw [hx]
          exact (h.elected _).mpr ⟨id, hid, hwon⟩
        · rw [hx, hself]
      elected := h.elected
      leader := by
        intro j hj hjrole
        by_cases hjid : j = id
        · subst hjid
          rw [Function.update_self, hself]
        · rw [Function.update_of_ne hjid, hold _ (hone j hj hjid hjrole)]
          exact h.leader j hj hjrole
      request := h.request_grows hgrows }

theorem replica (h : Matching ids E R calls base first L F) (hid : id ∈ ids) {r : Replica}
    {f : List Entry} (hlast : r.log.lastIndex = first) (hr : r.log.Holds f)
    (hf : Follows Entry.term base L f) (hleader : (E id).role = .leader → f = F id) :
    Matching ids E (Function.update R id r) calls base first L (Function.update F id f) := by
  have each := fun P => @forall_update₂ ids R F id P r f
  exact
    { uncompacted := each (fun _ r _ => r.log.lastIndex = first) h.uncompacted hlast
      holds := each (fun _ r f => r.log.Holds f) h.holds hr
      follows := each (fun _ _ f => Follows Entry.term base L f) h.follows hf
      elected := h.elected
      leader := each (fun j _ f => (E j).role = .leader → f = L.log (E j).currTerm)
        h.leader fun hrole => (hleader hrole).trans (h.leader id hid hrole)
      request := h.request }

theorem send (h : Matching ids E R calls base first L F) {new : List Call}
    (hnew : ∀ c ∈ new, ∀ req, c.request = .appendEntries req →
      ∃ g, Indexed g ∧ Follows Entry.term base L g ∧ Segment g first req) :
    Matching ids E R (calls ++ new) base first L F :=
  { h with
    request := fun c hc => (List.mem_append.mp hc).elim (h.request c) (hnew c) }

theorem mark (h : Matching ids E R calls base first L F) {i : Nat} {c c' : Call}
    (hc : calls[i]? = some c) (hrequest : c'.request = c.request) :
    Matching ids E R (calls.set i c') base first L F :=
  { h with
    request := by
      intro d hd req hreq
      rcases List.mem_or_eq_of_mem_set hd with hd | rfl
      · exact h.request d hd req hreq
      · exact h.request c (List.mem_of_getElem? hc) req (hrequest ▸ hreq) }

end Matching

namespace Raft

variable {late : Prop} {s t : Raft} {ids : List Bytes} {E : Bytes → Election}
  {R : Bytes → Replica} {calls : List Call} {base : List Entry} {first : Nat} {id : Bytes}

def MatchingAt (ids : List Bytes) (E : Bytes → Election) (R : Bytes → Replica)
    (calls : List Call) (base : List Entry) (first : Nat) (id : Bytes) (s : Raft) : Prop :=
  ∃ L F, Matching ids (Function.update E id s.toElection) (Function.update R id s.toReplica)
    (calls ++ s.sent.map (Outgoing.call id)) base first L F

theorem MatchingAt.congr (h : MatchingAt ids E R calls base first id s)
    (helection : t.toElection = s.toElection) (hreplica : t.toReplica = s.toReplica)
    (hsent : t.sent = s.sent) : MatchingAt ids E R calls base first id t := by
  unfold MatchingAt
  rw [helection, hreplica, hsent]
  exact h

theorem MatchingAt.election (h : MatchingAt ids E R calls base first id s) (hid : id ∈ ids)
    (hreplica : t.toReplica = s.toReplica) (hsent : t.sent = s.sent)
    (helections : t.elections = s.elections)
    (hleader : t.role = .leader → s.role = .leader ∧ t.currTerm = s.currTerm) :
    MatchingAt ids E R calls base first id t := by
  obtain ⟨L, F, h⟩ := h
  refine ⟨L, F, ?_⟩
  have hself : Function.update E id s.toElection id = s.toElection := Function.update_self ..
  have hnew := h.election (e := t.toElection) hid (by rw [hself]; exact helections)
    (by rw [hself]; exact hleader)
  rw [Function.update_idem] at hnew
  rw [hreplica, hsent]
  exact hnew

theorem MatchingAt.replica (h : MatchingAt ids E R calls base first id s) (hid : id ∈ ids)
    (helection : t.toElection = s.toElection) (hlog : t.log = s.log) (hsent : t.sent = s.sent) :
    MatchingAt ids E R calls base first id t := by
  obtain ⟨L, F, h⟩ := h
  have hself : Function.update R id s.toReplica id = s.toReplica := Function.update_self ..
  have hlast := h.uncompacted id hid
  have hholds := h.holds id hid
  rw [hself] at hlast hholds
  have hnew := h.replica (r := t.toReplica) hid (hlog ▸ hlast) (hlog ▸ hholds) (h.follows id hid)
    fun _ => rfl
  rw [Function.update_idem, Function.update_eq_self] at hnew
  refine ⟨L, F, ?_⟩
  rw [helection, hsent]
  exact hnew

theorem MatchingAt.quiet (h : MatchingAt ids E R calls base first id s) (hid : id ∈ ids)
    (hquiet : Quiet late s t) : MatchingAt ids E R calls base first id t := by
  obtain ⟨L, F, h⟩ := h
  obtain ⟨new, hnew, hspeaks⟩ := hquiet.sent
  have hlast := h.uncompacted id hid
  have hholds := h.holds id hid
  rw [Function.update_self] at hlast hholds
  refine ⟨L, F, ?_⟩
  rw [hquiet.election, hquiet.replica, hnew, List.map_append, ← List.append_assoc]
  refine h.send fun c hc req hreq => ?_
  obtain ⟨o, ho, rfl⟩ := List.mem_map.mp hc
  cases hspeaks o ho with
  | timeoutNow => cases hreq
  | preVote => cases hreq
  | appendEntries dst n hn =>
      cases hreq
      refine ⟨F id, hholds.indexed, h.follows id hid, ?_⟩
      rw [← hlast]
      exact appendEntriesReq_segment hholds n hn
  | dataTransfer => cases hreq
  | doneTransfer => cases hreq

theorem MatchingAt.requestVotes (h : MatchingAt ids E R calls base first id s) :
    MatchingAt ids E R calls base first id s.requestVotes := by
  obtain ⟨L, F, h⟩ := h
  refine ⟨L, F, ?_⟩
  have hsent : s.requestVotes.sent = s.sent ++ s.others.map fun n =>
      ⟨n.id, s.role, s.currTerm, .requestVote (s.voteReq false)⟩ := rfl
  rw [hsent, List.map_append, ← List.append_assoc]
  refine h.send fun c hc req hreq => ?_
  obtain ⟨o, ho, rfl⟩ := List.mem_map.mp hc
  obtain ⟨n, -, rfl⟩ := List.mem_map.mp ho
  cases hreq

theorem MatchingAt.lead (h : MatchingAt ids E R calls base first id s)
    (hvoting : VotingAt ids E calls id s) (hid : id ∈ ids) (hmembers : HasMembers ids s)
    (hrole : s.role = .candidate) (hvotes : s.cluster.length / 2 < s.votes) :
    MatchingAt ids E R calls base first id s.becomeLeader := by
  obtain ⟨L, F, h⟩ := h
  have hself : Function.update E id s.toElection id = s.toElection := Function.update_self ..
  have hopen := hvoting.term_open hid (by rw [hself]; exact hrole)
    (by rw [hself, ← hmembers.length_eq]; exact hvotes)
  obtain ⟨M, hM⟩ := h.lead hid hopen hvoting.leader
  rw [hself, Function.update_idem] at hM
  exact ⟨M, F, hM⟩

theorem MatchingAt.append (h : MatchingAt ids E R calls base first id s)
    (hvoting : VotingAt ids E calls id s) (hid : id ∈ ids) (hrole : s.role = .leader)
    (data : Bytes) : MatchingAt ids E R calls base first id (s.append data) := by
  obtain ⟨L, F, h⟩ := h
  have hself : Function.update E id s.toElection id = s.toElection := Function.update_self ..
  have hlog : Function.update R id s.toReplica id = s.toReplica := Function.update_self ..
  have hwon := hvoting.leader id hid (by rw [hself]; exact hrole)
  have hholds := h.holds id hid
  rw [hlog] at hholds
  have hlead : (Function.update E id s.toElection id).role = .leader := by rw [hself]; exact hrole
  have hone : ∀ j ∈ ids, j ≠ id → (Function.update E id s.toElection j).role = .leader →
      (Function.update E id s.toElection j).currTerm ≠
        (Function.update E id s.toElection id).currTerm := fun j hj hne hjrole hterm =>
    hne (hvoting.winner_unique hj hid (hterm ▸ hvoting.leader j hj hjrole) hwon)
  have happend : (s.append data).log = s.log.append
      [s.log.makeEntry data (s.log.lastEntryIndex + 1) s.currTerm false] := by
    rw [Raft.append, if_neg (by simp [hrole])]
  have hnew := hholds.append_entry data s.currTerm false
  rw [← happend] at hnew
  obtain ⟨M, G, hM⟩ := h.extend (r := (s.append data).toReplica) hid hlead hwon hone
    (by rw [hself]) (by rw [hlog, happend]; rfl) hnew
  rw [Function.update_idem] at hM
  refine ⟨M, G, ?_⟩
  rw [(inward_append s data).election, (inward_append s data).sent]
  exact hM

private theorem applyNext_log (s : Raft) : s.applyNext.log = s.log := by
  unfold Raft.applyNext
  dsimp only
  repeat' split
  all_goals rfl

private theorem compact_log_off (h : s.logCompactionEnabled = false) : s.compact.log = s.log := by
  unfold Raft.compact
  split
  · rfl
  · simp [h]

theorem MatchingAt.move (h : MatchingAt ids E R calls base first id s)
    (hvoting : VotingAt ids E calls id s) (hid : id ∈ ids) (hmembers : HasMembers ids s)
    (hoff : s.logCompactionEnabled = false) (hmove : Move late s t) :
    MatchingAt ids E R calls base first id t := by
  cases hmove with
  | quiet hquiet => exact h.quiet hid hquiet
  | follow => exact h.election hid rfl rfl rfl fun hrole => by cases hrole
  | newTerm => exact h.election hid rfl rfl rfl fun hrole => by cases hrole
  | campaign =>
      have hcandidate : MatchingAt ids E R calls base first id s.becomeCandidate :=
        h.election hid rfl rfl rfl fun hrole => by cases hrole
      exact hcandidate.requestVotes
  | campaignAlone => exact h.election hid rfl rfl rfl fun hrole => by cases hrole
  | lead hrole hvotes => exact h.lead hvoting hid hmembers hrole hvotes
  | commit =>
      exact h.replica hid (inward_adjustCommitIndex s).election (adjustCommitIndex_log s)
        (inward_adjustCommitIndex s).sent
  | append hrole data => exact h.append hvoting hid hrole data
  | applyNext =>
      exact h.replica hid (inward_applyNext s).election (applyNext_log s) (inward_applyNext s).sent
  | compact =>
      exact h.replica hid (inward_compact s).election (compact_log_off hoff)
        (inward_compact s).sent

theorem MatchingAt.turn (h : MatchingAt ids E R calls base first id s)
    (hvoting : VotingAt ids E calls id s) (hid : id ∈ ids) (hne : id ≠ [])
    (hself : s.selfId = id) (hmembers : HasMembers ids s)
    (hoff : s.logCompactionEnabled = false) (hturn : Turn late s t) :
    MatchingAt ids E R calls base first id t := by
  induction hturn with
  | refl => exact h
  | tail hpre hmove ih =>
      refine ih.move (hvoting.turn hid hne hself hmembers hpre) hid
        (Turn.hasMembers hpre hmembers) ?_ hmove
      exact (congrArg Settings.logCompactionEnabled (Turn.settings hpre)).trans hoff

/-! ## Entries are accepted -/

private theorem followEntries_log (s : Raft) (log : EntryLogger) (req : AppendEntriesReq) :
    (s.followEntries log req).log = log := by
  rw [followEntries_replica]

private theorem Follows.toAgree {L : Leaders Entry} {full g : List Entry}
    (hfull : Follows Entry.term base L full) (hg : Follows Entry.term base L g) : Agree full g :=
  fun _ _ _ hx hy hterm => hfull.agree hg hx hy hterm

theorem MatchingAt.accept (h : MatchingAt ids E R calls base first id s) (hid : id ∈ ids)
    (hrole : s.role = .follower) {c : Call} {req : AppendEntriesReq} {log : EntryLogger}
    (hc : c ∈ calls) (hreq : c.request = .appendEntries req)
    (hprev : s.log.hasEntry req.prevLogIndex req.prevLogTerm)
    (hmerge : mergeEntries s.log req.entries = some log) :
    MatchingAt ids E R calls base first id (s.followEntries log req) := by
  obtain ⟨L, F, h⟩ := h
  have hself : Function.update E id s.toElection id = s.toElection := Function.update_self ..
  have hlast := h.uncompacted id hid
  have hholds := h.holds id hid
  rw [Function.update_self] at hlast hholds
  have hF := h.follows id hid
  have hlog := followEntries_log s log req
  have finish : ∀ f, log.lastIndex = first → log.Holds f → Follows Entry.term base L f →
      MatchingAt ids E R calls base first id (s.followEntries log req) := by
    intro f hlast hlogf hf
    have hnew := h.replica (r := (s.followEntries log req).toReplica) hid
      (by rw [hlog]; exact hlast) (by rw [hlog]; exact hlogf) hf fun hlead => by
        rw [hself, hrole] at hlead
        cases hlead
    rw [Function.update_idem] at hnew
    unfold MatchingAt
    rw [followEntries_election, followEntries_sent]
    exact ⟨L, _, hnew⟩
  obtain ⟨g, hidx, hg, hseg⟩ := h.request c (List.mem_append_left _ hc) req hreq
  rcases hseg.entries with hnil | ⟨hle, hdrop⟩
  · rw [hnil] at hmerge
    cases hmerge
    exact finish (F id) hlast hholds hF
  · have hterm := (hholds.hasEntry_iff.mp hprev).2
    have hagree := Follows.toAgree hF hg
    obtain ⟨new, hnew, hlast', hcases⟩ := mergeEntries_drop hholds hidx hagree (hlast ▸ hle)
      (le_length_of_termAt hterm) (hagree.take_of_termAt hterm hseg.prev_term)
    rw [hdrop, hnew] at hmerge
    cases hmerge
    rcases hcases with ⟨rfl, -⟩ | ⟨hnewg, -⟩
    · exact finish (F id) hlast hholds hF
    · exact finish g (hlast'.trans hlast) hnewg hg

theorem MatchingAt.mark (h : MatchingAt ids E R calls base first id s) {i : Nat} {c c' : Call}
    (hc : calls[i]? = some c) (hrequest : c'.request = c.request) :
    MatchingAt ids E R (calls.set i c') base first id s := by
  obtain ⟨L, F, h⟩ := h
  obtain ⟨hi, -⟩ := List.getElem?_eq_some_iff.mp hc
  refine ⟨L, F, ?_⟩
  rw [← List.set_append_left _ _ hi]
  exact h.mark ((List.getElem?_append_left hi).trans hc) hrequest

theorem MatchingAt.serves (h : MatchingAt ids E R calls base first id s)
    (hvoting : VotingAt ids E calls id s) (hid : id ∈ ids) (hne : id ≠ [])
    (hself : s.selfId = id) (hmembers : HasMembers ids s)
    (hoff : s.logCompactionEnabled = false) {c : Call} {req : Request} {res : Response}
    (hc : c ∈ calls) (hreq : c.request = req) (hserves : Serves late s req t res) :
    MatchingAt ids E R calls base first id t := by
  have hturn : ∀ {t : Raft}, Turn late s t → MatchingAt ids E R calls base first id t :=
    fun ht => h.turn hvoting hid hne hself hmembers hoff ht
  cases hserves with
  | turn ht => exact hturn ht
  | grant req =>
      exact (hturn (turn_heedCandidate s req.term)).election hid rfl rfl rfl
        fun hrole => ⟨hrole, rfl⟩
  | accept req log hterm hprev hmerge =>
      have hheed := hturn (turn_heedLeader s req.term req.leaderId)
      refine hheed.accept hid (heedLeader_election hterm _).2 hc hreq ?_ ?_
      · rw [heedLeader_replica]
        exact hprev
      · rw [heedLeader_replica]
        exact hmerge
  | install req hterm hidone hcompaction =>
      rw [hoff] at hcompaction
      cases hcompaction

theorem MatchingAt.finishes (h : MatchingAt ids E R calls base first id s)
    (hvoting : Voting ids E calls) (hE : E id = s.toElection) (hsent : s.sent = [])
    (hid : id ∈ ids) (hne : id ≠ []) (hself : s.selfId = id) (hmembers : HasMembers ids s)
    (hoff : s.logCompactionEnabled = false) {i : Nat} {c : Call} {res : Response}
    (hc : calls[i]? = some c) (hsrc : c.src = id) (hres : c.response = some res)
    (hdone : c.done = false) {req : Request} (hreq : c.request = req)
    (hfinishes : Finishes late s c.dst req res t) :
    MatchingAt ids E R (calls.set i { c with done := true }) base first id t := by
  have hmark : MatchingAt ids E R (calls.set i { c with done := true }) base first id s :=
    h.mark hc rfl
  have hstart := VotingAt.finished hvoting hE hsent hc
  cases hfinishes with
  | turn ht => exact hmark.turn hstart hid hne hself hmembers hoff ht
  | count req v hrole hgranted hterm ht =>
      have hcount := VotingAt.counted hvoting hE hsent hc hsrc hreq hres hdone hrole hgranted hterm
      have hat : MatchingAt ids E R (calls.set i { c with done := true }) base first id
          { s with votes := s.votes + 1 } :=
        hmark.election hid rfl rfl rfl fun hrole => ⟨hrole, rfl⟩
      exact hat.turn hcount hid hne hself (hmembers.of_roster rfl) hoff ht
  | record req r hrole hsuccess ht =>
      have hat : MatchingAt ids E R (calls.set i { c with done := true }) base first id
          (s.recordMatch c.dst r.matchIndex) := hmark.congr rfl rfl rfl
      have hvote : VotingAt ids E (calls.set i { c with done := true }) id
          (s.recordMatch c.dst r.matchIndex) := hstart.congr rfl rfl
      exact hat.turn hvote hid hne hself
        (hmembers.of_roster (recordMatch_roster s c.dst r.matchIndex)) hoff ht

end Raft

/-! ## The cluster -/

namespace World

variable {late : Prop} {w w' : World} {e : Event} {base : List Entry} {first : Nat}

def MatchingInv (base : List Entry) (first : Nat) (w : World) : Prop :=
  (∀ id ∈ w.ids, (w.servers id).logCompactionEnabled = false) ∧
  ∃ L F, Matching w.ids (fun id => (w.servers id).toElection)
    (fun id => (w.servers id).toReplica) w.calls base first L F

private theorem act_settings (w : World) {id : Bytes} {s : Raft}
    (hs : s.toSettings = (w.servers id).toSettings) (j : Bytes) :
    ((w.act id s).servers j).toSettings = (w.servers j).toSettings := by
  by_cases hj : j = id
  · subst hj
    rw [act_self]
    exact hs
  · rw [act_of_ne w s hj]

theorem Moves.settings (h : w.Moves late e w') (j : Bytes) :
    (w'.servers j).toSettings = (w.servers j).toSettings := by
  cases h with
  | local_ e id hid h => exact act_settings w h.settings j
  | handle i recent hc hid hnone h => exact act_settings { w with calls := _ } h.settings j
  | succeed i quick hc hid hres hdone h => exact act_settings { w with calls := _ } h.settings j
  | fail i quick hc hid h => exact act_settings { w with calls := _ } h.settings j

theorem Moves.ids (h : w.Moves late e w') : w'.ids = w.ids := by
  cases h <;> rfl

private theorem matching_step (hready : w.Ready) (hfixed : w.FixedMembers e) (hvoting : w.VotingInv)
    (h : w.MatchingInv base first) (hmoves : w.Moves late e w') : w'.MatchingInv base first := by
  obtain ⟨hoff, L, F, hmatching⟩ := h
  have hoff' : ∀ id ∈ w'.ids, (w'.servers id).logCompactionEnabled = false := fun id hid =>
    (congrArg Settings.logCompactionEnabled (hmoves.settings id)).trans
      (hoff id (hmoves.ids ▸ hid))
  have hne : ∀ id ∈ w.ids, id ≠ [] := fun id hid heq => hvoting.1 (heq ▸ hid)
  have hvote : ∀ id ∈ w.ids,
      Raft.VotingAt w.ids (fun j => (w.servers j).toElection) w.calls id (w.servers id) := by
    intro id hid
    unfold Raft.VotingAt
    rw [hready.sent id hid, Function.update_eq_self]
    simpa using hvoting.2
  have start : ∀ id ∈ w.ids, Raft.MatchingAt w.ids (fun j => (w.servers j).toElection)
      (fun j => (w.servers j).toReplica) w.calls base first id (w.servers id) := by
    intro id hid
    refine ⟨L, F, ?_⟩
    rw [hready.sent id hid, Function.update_eq_self, Function.update_eq_self]
    simpa using hmatching
  have done : ∀ {calls : List Call} {id : Bytes} {t : Raft},
      Raft.MatchingAt w.ids (fun j => (w.servers j).toElection)
        (fun j => (w.servers j).toReplica) calls base first id t →
      ∃ L F, Matching w.ids
        (fun j => (({ w with calls := calls } : World).act id t |>.servers j).toElection)
        (fun j => (({ w with calls := calls } : World).act id t |>.servers j).toReplica)
        (({ w with calls := calls } : World).act id t).calls base first L F := by
    intro calls id t ht
    rw [act_map _ _ _ Raft.toElection, act_map _ _ _ Raft.toReplica]
    exact ht
  refine ⟨hoff', ?_⟩
  cases hmoves with
  | local_ e id hid hturn =>
      exact done ((start id hid).turn (hvote id hid) hid (hne id hid) (hready.self id hid)
        (hfixed.2 id hid) (hoff id hid) hturn)
  | handle i recent hc hid hnone hserves =>
      exact done (((start _ hid).serves (hvote _ hid) hid (hne _ hid) (hready.self _ hid)
        (hfixed.2 _ hid) (hoff _ hid) (List.mem_of_getElem? hc) rfl hserves).mark hc rfl)
  | succeed i quick hc hid hres hdone hfinishes =>
      exact done ((start _ hid).finishes hvoting.2 rfl (hready.sent _ hid) hid (hne _ hid)
        (hready.self _ hid) (hfixed.2 _ hid) (hoff _ hid) hc rfl hres hdone rfl hfinishes)
  | fail i quick hc hid hturn =>
      exact done (((start _ hid).turn (hvote _ hid) hid (hne _ hid) (hready.self _ hid)
        (hfixed.2 _ hid) (hoff _ hid) hturn).mark hc rfl)

structure SameLog (log : EntryLogger) (w : World) : Prop where
  started : w.Started
  off : ∀ id ∈ w.ids, (w.servers id).logCompactionEnabled = false
  same : ∀ id ∈ w.ids, (w.servers id).log = log

instance (log : EntryLogger) : Decidable (w.SameLog log) :=
  decidable_of_iff (w.Started ∧ (∀ id ∈ w.ids, (w.servers id).logCompactionEnabled = false) ∧
      ∀ id ∈ w.ids, (w.servers id).log = log)
    ⟨fun h => ⟨h.1, h.2.1, h.2.2⟩, fun h => ⟨h.1, h.2, h.3⟩⟩

private theorem SameLog.matching {log : EntryLogger} {full : List Entry} (h : w.SameLog log)
    (hlog : log.Holds full) : w.MatchingInv full log.lastIndex where
  left := h.off
  right := ⟨{ elected := fun _ => False, log := fun _ => [] }, fun _ => full,
    { uncompacted := fun id hid => congrArg EntryLogger.lastIndex (h.same id hid)
      holds := fun id hid => (h.same id hid).symm ▸ hlog
      follows := fun _ _ => follows_base
      elected := fun t => by
        refine iff_of_false (fun h => h) ?_
        rintro ⟨id, hid, hmem⟩
        rw [h.started.elections id hid] at hmem
        cases hmem
      leader := fun id hid hrole => by rw [h.started.role id hid] at hrole; cases hrole
      request := fun c hc => by rw [h.started.calls] at hc; cases hc }⟩

private theorem matching_run {es : List Event} {log : EntryLogger} {full : List Entry}
    (hstart : w.SameLog log) (hlog : log.Holds full) (hfixed : Along step FixedMembers w es)
    (hrun : run step w es = some w') : w'.MatchingInv full log.lastIndex := by
  refine (run_invariant (P := fun w => w.Ready ∧ w.VotingInv ∧ w.MatchingInv full log.lastIndex)
    ?_ hfixed ⟨hstart.started.ready, hstart.started.voting, hstart.matching hlog⟩ hrun).2.2
  intro w e w' hfixed ⟨hready, hvoting, hmatching⟩ hstep
  have hmoves : w.Moves True e w' := step_moves hready hfixed.1 (.inl trivial) hstep
  exact ⟨hmoves.ready hready, voting_step hready hfixed hvoting hmoves,
    matching_step hready hfixed hvoting hmatching hmoves⟩

/--
In a run of a fixed cluster without compaction two logs that hold entries with
one index and one term hold the same entries up to this index.
-/
theorem log_matching {es : List Event} {log : EntryLogger} {full : List Entry}
    (hstart : w.SameLog log) (hlog : log.Holds full) (hfixed : Along step FixedMembers w es)
    (hrun : run step w es = some w') :
    ∀ s ∈ w'.ids, ∀ s' ∈ w'.ids, ∀ i x y, (w'.servers s).log.get i = some x →
      (w'.servers s').log.get i = some y → x.term = y.term → ∀ j ≤ i,
        ((w'.servers s).log.get j).map LogEntry.toEntry =
          ((w'.servers s').log.get j).map LogEntry.toEntry := by
  obtain ⟨-, L, F, h⟩ := matching_run hstart hlog hfixed hrun
  intro s hs s' hs' i x y hx hy hterm j hj
  cases j with
  | zero => rw [EntryLogger.get_zero, EntryLogger.get_zero]
  | succ j =>
      obtain ⟨i, rfl⟩ : ∃ k, i = k + 1 := ⟨i - 1, by omega⟩
      have read : ∀ s ∈ w'.ids, ∀ k, ((w'.servers s).log.get (k + 1)).map LogEntry.toEntry =
          if k < log.lastIndex then none else (F s)[k]? := by
        intro s hs k
        have hbase : (w'.servers s).log.lastIndex = log.lastIndex := h.uncompacted s hs
        rw [(h.holds s hs).get_succ_map, hbase]
      have hx' := read s hs i
      have hy' := read s' hs' i
      rw [hx] at hx'
      rw [hy] at hy'
      split at hx'
      · cases hx'
      · rename_i hi
        rw [if_neg hi] at hy'
        have hagree := (h.follows s hs).agree (h.follows s' hs') hx'.symm hy'.symm hterm
        rw [read s hs j, read s' hs' j, getElem?_eq_of_take_eq (by omega) hagree]

theorem log_matching_replicated :
    ∃ w', run step (cluster ["a:1", "b:1", "c:1"] false)
        [.electionTimeout (ascii "a:1"), .handle 0 false, .succeed 0 false, .handle 3 false,
          .succeed 3 false, .append (ascii "a:1") (ascii "x"), .heartbeatTimeout (ascii "a:1"),
          .handle 7 false] = some w' ∧
      ((w'.servers (ascii "c:1")).log.get 2).isSome ∧
      ∀ j ≤ 2, ((w'.servers (ascii "a:1")).log.get j).map LogEntry.toEntry =
        ((w'.servers (ascii "c:1")).log.get j).map LogEntry.toEntry := by
  refine ⟨_, (Option.some_get (by decide)).symm, by decide, ?_⟩
  have hlog : ((cluster ["a:1", "b:1", "c:1"] false).servers []).log.Holds
      [{ term := 1, index := 1, data := ascii "a:1,b:1,c:1", config := true }] := by decide
  exact log_matching (w := cluster ["a:1", "b:1", "c:1"] false)
    (by decide) hlog (by decide) (Option.some_get (by decide)).symm
    (ascii "a:1") (by decide) (ascii "c:1") (by decide) 2
    { term := 2, index := 2, data := ascii "x", config := false, prevCfg := 0 }
    { term := 2, index := 2, data := ascii "x", config := false, prevCfg := 0 }
    (by decide) (by decide) rfl

end World

end Draft
