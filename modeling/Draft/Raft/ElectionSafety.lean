import Draft.Raft.Membership
import Draft.Raft.Voting

/-!
# Election safety

Every step of a fixed cluster keeps the voting invariant, so a term has at most
one leader.
-/

namespace Draft

open Consensus

namespace Raft

variable {late : Prop} {s t : Raft} {ids : List Bytes} {E : Bytes → Election}
  {calls : List Call} {id : Bytes}

def VotingAt (ids : List Bytes) (E : Bytes → Election) (calls : List Call) (id : Bytes)
    (s : Raft) : Prop :=
  Voting ids (Function.update E id s.toElection) (calls ++ s.sent.map (Outgoing.call id))

theorem VotingAt.change (h : VotingAt ids E calls id s) (hsent : t.sent = s.sent)
    (hchange : ∀ E : Bytes → Election, E id = s.toElection →
      Voting ids E (calls ++ s.sent.map (Outgoing.call id)) →
      Voting ids (Function.update E id t.toElection)
        (calls ++ s.sent.map (Outgoing.call id))) :
    VotingAt ids E calls id t := by
  have hnew := hchange _ (Function.update_self ..) h
  rw [Function.update_idem] at hnew
  unfold VotingAt
  rw [hsent]
  exact hnew

theorem VotingAt.congr (h : VotingAt ids E calls id s) (helection : t.toElection = s.toElection)
    (hsent : t.sent = s.sent) : VotingAt ids E calls id t := by
  unfold VotingAt
  rw [helection, hsent]
  exact h

theorem VotingAt.inward (h : VotingAt ids E calls id s) (hinward : Inward s t) :
    VotingAt ids E calls id t :=
  h.congr hinward.election hinward.sent

theorem VotingAt.quiet (h : VotingAt ids E calls id s) (hquiet : Quiet late s t) :
    VotingAt ids E calls id t := by
  obtain ⟨new, hnew, hspeaks⟩ := hquiet.sent
  have hballots : (new.map (Outgoing.call id)).filterMap Call.ballot = [] := by
    refine List.filterMap_eq_nil_iff.mpr fun c hc => ?_
    obtain ⟨o, ho, rfl⟩ := List.mem_map.mp hc
    cases hspeaks o ho <;> rfl
  unfold VotingAt
  rw [hquiet.election, hnew, List.map_append, ← List.append_assoc]
  refine Voting.send h ?_ ?_ (hballots ▸ List.nodup_nil) (fun b _ => hballots ▸ List.not_mem_nil)
  · intro c hc req hreq
    obtain ⟨o, ho, rfl⟩ := List.mem_map.mp hc
    cases hspeaks o ho <;> cases hreq
  · intro c hc
    obtain ⟨o, -, rfl⟩ := List.mem_map.mp hc
    rfl

theorem VotingAt.candidate (h : VotingAt ids E calls id s) (hid : id ∈ ids) (hne : id ≠ [])
    (hself : s.selfId = id) : VotingAt ids E calls id s.becomeCandidate := by
  refine h.change rfl fun E hE hV => ?_
  have hvotes : (if s.contains s.selfId then 1 else 0) ≤ 1 := by split <;> omega
  have hnew := hV.campaign hid hne hvotes
  rw [hE] at hnew
  simp only [becomeCandidate, castVote, hself] at hnew ⊢
  exact hnew

theorem VotingAt.requestVotes (h : VotingAt ids E calls id s) (hid : id ∈ ids)
    (hself : s.selfId = id) (hmembers : HasMembers ids s)
    (hfresh : ∀ b ∈ (calls ++ s.sent.map (Outgoing.call id)).filterMap Call.ballot,
      b.1 = id → b.2.2 < s.currTerm) : VotingAt ids E calls id s.requestVotes := by
  let new : List Call := s.others.map fun n =>
    Outgoing.call id ⟨n.id, s.role, s.currTerm, .requestVote (s.voteReq false)⟩
  have hballots : new.filterMap Call.ballot = s.others.map fun n => (id, n.id, s.currTerm) := by
    simp only [new, List.filterMap_map]
    rw [← List.filterMap_eq_map]
    rfl
  have hsent : (s.requestVotes.sent).map (Outgoing.call id) =
      s.sent.map (Outgoing.call id) ++ new := by
    simp only [Raft.requestVotes, invokeAll, List.map_append, List.map_map, new]
    rfl
  unfold VotingAt
  rw [hsent, ← List.append_assoc]
  refine Voting.send h ?_ ?_ ?_ ?_
  · intro c hc req hreq
    obtain ⟨n, hn, rfl⟩ := List.mem_map.mp hc
    obtain ⟨hmem, hother⟩ := hmembers.mem_others.mp (List.mem_map_of_mem hn)
    cases hreq
    refine ⟨hself, hid, hmem, fun heq => hother (heq.trans hself.symm), ?_⟩
    exact Nat.le_of_eq (congrArg Election.currTerm (Function.update_self ..)).symm
  · intro c hc
    obtain ⟨n, -, rfl⟩ := List.mem_map.mp hc
    rfl
  · rw [hballots]
    have : (s.others.map fun n => (id, n.id, s.currTerm)) =
        (s.others.map (·.id)).map fun a => (id, a, s.currTerm) := by
      rw [List.map_map]
      rfl
    rw [this]
    exact hmembers.others_nodup.map fun a b hab => by simpa using hab
  · intro b hb hnew
    rw [hballots] at hnew
    obtain ⟨n, -, rfl⟩ := List.mem_map.mp hnew
    exact absurd (hfresh _ hb rfl) (Nat.lt_irrefl _)

private theorem VotingAt.asked_le (h : VotingAt ids E calls id s) :
    ∀ b ∈ (calls ++ s.sent.map (Outgoing.call id)).filterMap Call.ballot,
      b.1 = id → b.2.2 ≤ s.currTerm := by
  intro b hb hsrc
  obtain ⟨c, hc, hcb⟩ := List.mem_filterMap.mp hb
  obtain ⟨h₁, -, req, hreq, hterm⟩ := Call.exists_of_ballot hcb
  have hle := (h.asked c hc req hreq).2.2.2.2
  rw [h₁, hsrc, Function.update_self, hterm] at hle
  exact hle

theorem VotingAt.move (h : VotingAt ids E calls id s) (hid : id ∈ ids) (hne : id ≠ [])
    (hself : s.selfId = id) (hmembers : HasMembers ids s) (hmove : Move late s t) :
    VotingAt ids E calls id t := by
  cases hmove with
  | quiet hquiet => exact h.quiet hquiet
  | follow =>
      refine h.change rfl fun E hE hV => ?_
      have hnew := hV.follow hid
      rw [hE] at hnew
      exact hnew
  | newTerm term votedFor hlt =>
      refine h.change rfl fun E hE hV => ?_
      have hnew := hV.newTerm hid (hE ▸ hlt) votedFor
      rw [hE] at hnew
      exact hnew
  | campaign =>
      refine (h.candidate hid hne hself).requestVotes hid hself (hmembers.of_roster rfl) ?_
      exact fun b hb hsrc => Nat.lt_succ_of_le (h.asked_le b hb hsrc)
  | campaignAlone => exact h.candidate hid hne hself
  | lead hrole hvotes =>
      refine h.change rfl fun E hE hV => ?_
      have hnew := hV.lead hid (hE ▸ hrole) (by rw [hE, ← hmembers.length_eq]; exact hvotes)
      rw [hE] at hnew
      exact hnew
  | commit => exact h.inward (inward_adjustCommitIndex s)
  | append _ data => exact h.inward (inward_append s data)
  | applyNext => exact h.inward (inward_applyNext s)
  | compact => exact h.inward (inward_compact s)

theorem VotingAt.turn (h : VotingAt ids E calls id s) (hid : id ∈ ids) (hne : id ≠ [])
    (hself : s.selfId = id) (hmembers : HasMembers ids s) (hturn : Turn late s t) :
    VotingAt ids E calls id t := by
  induction hturn with
  | refl => exact h
  | tail hpre hmove ih =>
      refine ih.move hid hne ?_ (Turn.hasMembers hpre hmembers) hmove
      exact (congrArg Settings.selfId (Turn.settings hpre)).trans hself

/-! ## Handlers and callbacks -/

theorem VotingAt.respond (h : VotingAt ids E calls id s) {i : Nat} {c : Call} {res : Response}
    (hc : calls[i]? = some c) (hnone : c.response = none)
    (hvote : ∀ req v, c.request = .requestVote req → res = .vote v → v.voteGranted = true →
      v.term = req.term ∧ (req.term, c.src) ∈ (Function.update E id s.toElection c.dst).ballots) :
    VotingAt ids E (calls.set i { c with response := some res }) id s := by
  obtain ⟨hi, -⟩ := List.getElem?_eq_some_iff.mp hc
  unfold VotingAt
  rw [← List.set_append_left _ _ hi]
  exact Voting.respond h ((List.getElem?_append_left hi).trans hc) hnone hvote

theorem VotingAt.finish (h : VotingAt ids E calls id s) {i : Nat} {c : Call}
    (hc : calls[i]? = some c) : VotingAt ids E (calls.set i { c with done := true }) id s := by
  obtain ⟨hi, -⟩ := List.getElem?_eq_some_iff.mp hc
  unfold VotingAt
  rw [← List.set_append_left _ _ hi]
  exact Voting.finish h ((List.getElem?_append_left hi).trans hc)

theorem VotingAt.grant (h : VotingAt ids E calls id s) (hid : id ∈ ids) {candidate : Bytes}
    (hne : candidate ≠ []) (hfree : s.votedFor = [] ∨ s.votedFor = candidate) :
    VotingAt ids E calls id (s.castVote candidate) := by
  refine h.change rfl fun E hE hV => ?_
  have hnew := hV.vote hid hne (by rw [hE]; exact hfree)
  rw [hE] at hnew
  exact hnew

theorem VotingAt.serves (h : VotingAt ids E calls id s) (hid : id ∈ ids) (hne : [] ∉ ids)
    (hself : s.selfId = id) (hmembers : HasMembers ids s) {i : Nat} {c : Call} {res : Response}
    (hc : calls[i]? = some c) (hdst : c.dst = id) (hnone : c.response = none)
    (hserves : Serves late s c.request t res) :
    VotingAt ids E (calls.set i { c with response := some res }) id t := by
  have hidne : id ≠ [] := fun heq => hne (heq ▸ hid)
  have hturn : ∀ {t : Raft}, Turn late s t → VotingAt ids E calls id t :=
    fun ht => h.turn hid hidne hself hmembers ht
  obtain ⟨src, dst, role, term, request, response, done⟩ := c
  cases hserves with
  | turn ht hres =>
      refine (hturn ht).respond hc hnone fun req v hreq hv hgranted => absurd ?_ hres
      obtain rfl : request = .requestVote req := hreq
      exact hv ▸ hgranted
  | grant req hterm hfree hlog =>
      have hasked := (h.asked _ (List.mem_append_left _ (List.mem_of_getElem? hc)) req rfl)
      have hcandidate : req.candidateId ≠ [] := fun heq =>
        hne ((hasked.1.symm.trans heq) ▸ hasked.2.1)
      have hheed := hturn (turn_heedCandidate s req.term)
      refine (hheed.grant hid hcandidate hfree).respond hc hnone fun req' v hreq hv _ => ?_
      cases hreq
      cases hv
      refine ⟨rfl, ?_⟩
      rw [show dst = id from hdst, Function.update_self]
      refine List.mem_append_right _ (List.mem_singleton.mpr ?_)
      rw [heedCandidate_currTerm hterm, hasked.1]
  | accept req log hterm hprev hmerge =>
      have hheed := hturn (turn_heedLeader s req.term req.leaderId)
      refine (hheed.congr (followEntries_election _ log req) (followEntries_sent _ log req)).respond
        hc hnone fun req' v hreq => ?_
      cases hreq
  | install req hterm hidone hcompaction =>
      have hfollow : VotingAt ids E calls id
          { s.followSender req.term req.leaderId with electionTimer := false } :=
        (hturn (turn_followSender s req.term req.leaderId)).congr rfl rfl
      refine (hfollow.congr (installBase_election _ req) (installBase_sent _ req)).respond
        hc hnone fun req' v hreq => ?_
      cases hreq

theorem VotingAt.counted (h : Voting ids E calls) (hE : E id = s.toElection)
    (hsent : s.sent = []) {i : Nat} {c : Call} {req : VoteReq} {v : VoteRes}
    (hc : calls[i]? = some c) (hsrc : c.src = id) (hreq : c.request = .requestVote req)
    (hres : c.response = some (.vote v)) (hdone : c.done = false) (hrole : s.role = .candidate)
    (hgranted : v.voteGranted = true) (hterm : s.currTerm ≤ v.term) :
    VotingAt ids E (calls.set i { c with done := true }) id { s with votes := s.votes + 1 } := by
  subst hsrc
  have hcount := h.count hc hdone hreq hres hgranted (hE ▸ hrole) (hE ▸ hterm)
  unfold VotingAt
  rw [hE] at hcount
  simpa [hsent] using hcount

theorem VotingAt.finished (h : Voting ids E calls) (hE : E id = s.toElection)
    (hsent : s.sent = []) {i : Nat} {c : Call} (hc : calls[i]? = some c) :
    VotingAt ids E (calls.set i { c with done := true }) id s := by
  unfold VotingAt
  rw [hsent, ← hE, Function.update_eq_self]
  simpa using h.finish hc

theorem VotingAt.finishes (h : Voting ids E calls) (hE : E id = s.toElection)
    (hsent : s.sent = []) (hid : id ∈ ids) (hne : id ≠ []) (hself : s.selfId = id)
    (hmembers : HasMembers ids s) {i : Nat} {c : Call} {res : Response}
    (hc : calls[i]? = some c) (hsrc : c.src = id) (hres : c.response = some res)
    (hdone : c.done = false) {req : Request} (hreq : c.request = req)
    (hfinishes : Finishes late s c.dst req res t) :
    VotingAt ids E (calls.set i { c with done := true }) id t := by
  have start := VotingAt.finished h hE hsent hc
  cases hfinishes with
  | turn ht => exact start.turn hid hne hself hmembers ht
  | count req v hrole hgranted hterm ht =>
      exact (VotingAt.counted h hE hsent hc hsrc hreq hres hdone hrole hgranted hterm).turn
        hid hne hself (hmembers.of_roster rfl) ht
  | record req r hrole hsuccess ht =>
      have hrecord : VotingAt ids E (calls.set i { c with done := true }) id
          (s.recordMatch c.dst r.matchIndex) := start.congr rfl rfl
      exact hrecord.turn hid hne hself
        (hmembers.of_roster (recordMatch_roster s c.dst r.matchIndex)) ht

end Raft

namespace World

/-- No membership changes, and every server has the same members. -/
def FixedMembers (w : World) (e : Event) : Prop :=
  e.fixed ∧ ∀ id ∈ w.ids, Raft.HasMembers w.ids (w.servers id)

instance (w : World) (e : Event) : Decidable (w.FixedMembers e) :=
  inferInstanceAs (Decidable (_ ∧ _))

/-- No membership changes, and no request brings a configuration with other members. -/
def AdoptsMembers (w : World) (e : Event) : Prop :=
  e.fixed ∧
    match e with
    | .handle i _ => ∀ c ∈ w.calls[i]?, ∀ config ∈ (w.servers c.dst).adopted c.request,
        Raft.Lists w.ids config
    | _ => True

instance (w : World) : (e : Event) → Decidable (w.AdoptsMembers e)
  | .handle .. => by unfold AdoptsMembers; infer_instance
  | .electionTimeout _ | .heartbeatTimeout _ | .leadershipTransferTimeout _ | .append ..
  | .transferLeadership .. | .addServer .. | .delServer .. | .popCommitted _ | .applyNext _
  | .compact _ | .writeFiles .. | .succeed .. | .fail .. => by
      unfold AdoptsMembers; infer_instance

/-- Servers that just started: followers that have called nobody and won nothing. -/
structure Started (w : World) : Prop where
  ready : w.Ready
  named : [] ∉ w.ids
  calls : w.calls = []
  role : ∀ id ∈ w.ids, (w.servers id).role = .follower
  ballots : ∀ id ∈ w.ids, (w.servers id).ballots = []
  elections : ∀ id ∈ w.ids, (w.servers id).elections = []

instance (w : World) : Decidable w.Started :=
  decidable_of_iff (w.Ready ∧ [] ∉ w.ids ∧ w.calls = [] ∧
      (∀ id ∈ w.ids, (w.servers id).role = .follower) ∧
      (∀ id ∈ w.ids, (w.servers id).ballots = []) ∧
      ∀ id ∈ w.ids, (w.servers id).elections = [])
    ⟨fun h => ⟨h.1, h.2.1, h.2.2.1, h.2.2.2.1, h.2.2.2.2.1, h.2.2.2.2.2⟩,
      fun h => ⟨h.1, h.2, h.3, h.4, h.5, h.6⟩⟩

def VotingInv (w : World) : Prop :=
  [] ∉ w.ids ∧ Voting w.ids (fun id => (w.servers id).toElection) w.calls

theorem Started.voting {w : World} (h : w.Started) : w.VotingInv where
  left := h.named
  right :=
    { cast := fun v hv b hb => by rw [h.ballots v hv] at hb; cases hb
      unique := fun v hv t c d hc => by rw [h.ballots v hv] at hc; cases hc
      asked := fun c hc => by rw [h.calls] at hc; cases hc
      once := by rw [h.calls]; exact List.nodup_nil
      granted := fun c hc => by rw [h.calls] at hc; cases hc
      candidate := fun s hs hrole => by rw [h.role s hs] at hrole; cases hrole
      reached := fun s hs t ht => by rw [h.elections s hs] at ht; cases ht
      won := fun s hs t ht => by rw [h.elections s hs] at ht; cases ht
      leader := fun s hs hrole => by rw [h.role s hs] at hrole; cases hrole }

theorem voting_step {late : Prop} {w w' : World} {e : Event} (hready : w.Ready)
    (hfixed : w.FixedMembers e) (h : w.VotingInv) (hmoves : w.Moves late e w') :
    w'.VotingInv := by
  have start : ∀ id ∈ w.ids,
      Raft.VotingAt w.ids (fun j => (w.servers j).toElection) w.calls id (w.servers id) := by
    intro id hid
    unfold Raft.VotingAt
    rw [hready.sent id hid, Function.update_eq_self]
    simpa using h.2
  have hne : ∀ id ∈ w.ids, id ≠ [] := fun id hid heq => h.1 (heq ▸ hid)
  have done : ∀ {calls : List Call} {id : Bytes} {t : Raft},
      Raft.VotingAt w.ids (fun j => (w.servers j).toElection) calls id t →
      VotingInv ({ w with calls := calls }.act id t) := by
    intro calls id t ht
    refine ⟨h.1, ?_⟩
    rw [act_map _ _ _ Raft.toElection]
    exact ht
  cases hmoves with
  | local_ e id hid hturn =>
      exact done ((start id hid).turn hid (hne id hid) (hready.self id hid)
        (hfixed.2 id hid) hturn)
  | handle i recent hc hid hnone hserves =>
      exact done ((start _ hid).serves hid h.1 (hready.self _ hid) (hfixed.2 _ hid)
        hc rfl hnone hserves)
  | succeed i quick hc hid hres hdone hfinishes =>
      exact done (Raft.VotingAt.finishes h.2 rfl (hready.sent _ hid) hid (hne _ hid)
        (hready.self _ hid) (hfixed.2 _ hid) hc rfl hres hdone rfl hfinishes)
  | fail i quick hc hid hturn =>
      exact done (((start _ hid).turn hid (hne _ hid) (hready.self _ hid)
        (hfixed.2 _ hid) hturn).finish hc)

theorem hasMembers_step {late : Prop} {w w' : World} {e : Event} (hadopts : w.AdoptsMembers e)
    (h : ∀ id ∈ w.ids, Raft.HasMembers w.ids (w.servers id)) (hmoves : w.Moves late e w') :
    ∀ id ∈ w'.ids, Raft.HasMembers w'.ids (w'.servers id) := by
  have done : ∀ {calls : List Call} {id : Bytes} {t : Raft}, Raft.HasMembers w.ids t →
      ∀ j ∈ w.ids, Raft.HasMembers w.ids (({ w with calls := calls }.act id t).servers j) := by
    intro calls id t ht j hj
    dsimp only [act]
    split
    · exact ht.of_roster rfl
    · exact h j hj
  cases hmoves with
  | local_ e id hid hturn => exact done (hturn.hasMembers (h id hid))
  | handle i recent hc hid hnone hserves =>
      exact done (hserves.hasMembers (h _ hid) (hadopts.2 _ hc))
  | succeed i quick hc hid hres hdone hfinishes => exact done (hfinishes.hasMembers (h _ hid))
  | fail i quick hc hid hturn => exact done (hturn.hasMembers (h _ hid))

/-- The member sets stay as they are, so they are known at every step. -/
theorem fixedMembers_along {w : World} {es : List Event} (hready : w.Ready)
    (hmembers : ∀ id ∈ w.ids, Raft.HasMembers w.ids (w.servers id))
    (hadopts : Along step AdoptsMembers w es) : Along step FixedMembers w es := by
  refine Along.strengthen
    (P := fun w => w.Ready ∧ ∀ id ∈ w.ids, Raft.HasMembers w.ids (w.servers id)) ?_ ?_
    hadopts ⟨hready, hmembers⟩
  · intro w e w' hadopts ⟨hready, hmembers⟩ hstep
    have hmoves : w.Moves True e w' := step_moves hready hadopts.1 (.inl trivial) hstep
    exact ⟨hmoves.ready hready, hasMembers_step hadopts hmembers hmoves⟩
  · exact fun w e hadopts hpre => ⟨hadopts.1, hpre.2⟩

private theorem voting_run {w w' : World} {es : List Event} (hstart : w.Started)
    (hfixed : Along step FixedMembers w es) (hrun : run step w es = some w') :
    w'.Ready ∧ w'.VotingInv := by
  refine run_invariant (P := fun w => w.Ready ∧ w.VotingInv) ?_ hfixed
    ⟨hstart.ready, hstart.voting⟩ hrun
  intro w e w' hfixed ⟨hready, hvoting⟩ hstep
  have hmoves : w.Moves True e w' := step_moves hready hfixed.1 (.inl trivial) hstep
  exact ⟨hmoves.ready hready, voting_step hready hfixed hvoting hmoves⟩

/--
In a run of a fixed cluster whose servers adopt only configurations with its
members, at most one server wins a term, and two leaders of one term are one
server.
-/
theorem election_safety {w w' : World} {es : List Event} (hstart : w.Started)
    (hmembers : ∀ id ∈ w.ids, Raft.HasMembers w.ids (w.servers id))
    (hadopts : Along step AdoptsMembers w es) (hrun : run step w es = some w') :
    (∀ s ∈ w'.ids, ∀ s' ∈ w'.ids, ∀ t ∈ (w'.servers s).elections,
      t ∈ (w'.servers s').elections → s = s') ∧
    (∀ s ∈ w'.ids, ∀ s' ∈ w'.ids, (w'.servers s).role = .leader →
      (w'.servers s').role = .leader →
      (w'.servers s).currTerm = (w'.servers s').currTerm → s = s') := by
  have hfixed := fixedMembers_along hstart.ready hmembers hadopts
  obtain ⟨-, -, hvoting⟩ := voting_run hstart hfixed hrun
  refine ⟨fun s hs s' hs' t ht ht' => hvoting.winner_unique hs hs' ht ht', ?_⟩
  intro s hs s' hs' hrole hrole' hterm
  refine hvoting.winner_unique hs hs' (hvoting.leader s hs hrole) ?_
  have hleader : (w'.servers s').currTerm ∈ (w'.servers s').elections :=
    hvoting.leader s' hs' hrole'
  exact hterm ▸ hleader

theorem election_safety_elected :
    ∃ w', run step (cluster ["a:1", "b:1", "c:1"] true)
        [.electionTimeout (ascii "a:1"), .handle 0 false, .succeed 0 false, .handle 2 false,
          .succeed 2 false] = some w' ∧
      (w'.servers (ascii "a:1")).role = .leader ∧
      ∀ s ∈ w'.ids, ∀ s' ∈ w'.ids, ∀ t ∈ (w'.servers s).elections,
        t ∈ (w'.servers s').elections → s = s' :=
  ⟨_, (Option.some_get (by decide)).symm, by decide,
    (election_safety (w := cluster ["a:1", "b:1", "c:1"] true) (by decide) (by decide)
      (by decide) (Option.some_get (by decide)).symm).1⟩

def shrinkableStart : World :=
  { cluster ["a:1", "b:1", "c:1"] true with
    servers := fun id =>
      let s := (cluster ["a:1", "b:1", "c:1"] true).servers id
      Raft.boot s.toSettings
        { lastIndex := 1, lastTerm := 1, lastConfig := ascii "b:1", cfgEntryIndex := 3
          entries :=
            [{ term := 1, index := 2, data := ascii "a:1,b:1", config := true, prevCfg := 1 },
              { term := 1, index := 3, data := ascii "a:1,b:1,c:1", config := true
                prevCfg := 2 }] }
        1 [] s.sender }

/--
`b` and then `a` win terms and append one entry each; only that of `a` reaches
`c`, which wins term 4.  `b` refuses its heartbeat and names the last index of
its own log, after which `c` has nothing to send, so `c` transfers its base.
`b` installs it with the configuration of the base and elects itself in the
term in which `c` votes for `a`.
-/
def shrunkMembers : List Event :=
  [.electionTimeout (ascii "b:1"), .handle 1 false, .succeed 1 false, .handle 3 false,
    .succeed 3 false, .append (ascii "b:1") (ascii "x"), .handle 4 false,
    .electionTimeout (ascii "a:1"), .handle 7 false, .succeed 7 false, .handle 9 false,
    .succeed 9 false, .append (ascii "a:1") (ascii "y"), .heartbeatTimeout (ascii "a:1"),
    .handle 13 false, .electionTimeout (ascii "c:1"), .handle 14 false, .succeed 14 false,
    .handle 16 false, .succeed 16 false, .handle 19 false, .succeed 19 false, .handle 20 false,
    .succeed 20 false, .handle 21 false, .succeed 21 false, .handle 22 false,
    .electionTimeout (ascii "b:1"), .electionTimeout (ascii "a:1"), .handle 24 false,
    .succeed 24 false, .handle 26 false, .succeed 26 false]

/-- A data transfer takes two of three members from `b`, and two servers lead one term. -/
theorem shrunk_elects_two :
    ¬ ∀ (w w' : World) (es : List Event), w.Started →
      (∀ id ∈ w.ids, Raft.HasMembers w.ids (w.servers id)) →
      (∀ id ∈ w.ids, ∀ id' ∈ w.ids, (w.servers id).log = (w.servers id').log) →
      (∀ e ∈ es, e.fixed) → run step w es = some w' →
      ∀ s ∈ w'.ids, ∀ s' ∈ w'.ids, (w'.servers s).role = .leader →
        (w'.servers s').role = .leader →
        (w'.servers s).currTerm = (w'.servers s').currTerm → s = s' := by
  intro h
  have hrun := (Option.some_get (show (run step shrinkableStart shrunkMembers).isSome by
    decide)).symm
  exact absurd (h shrinkableStart _ shrunkMembers (by decide) (by decide) (by decide) (by decide)
    hrun (ascii "a:1") (by decide) (ascii "b:1") (by decide) (by decide) (by decide) (by decide))
    (by decide)

end World

end Draft
