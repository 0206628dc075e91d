import Draft.Consensus.History
import Draft.Raft.Creation
import Draft.Raft.ElectionSafety
import Draft.Raft.Frames
import Draft.Raft.Reactions

/-!
# Rounds of pre-votes

The answers of all rounds are counted in one pair of counters, and the role is
the only filter.  A note is kept of the round that began last, with the members
that granted it.
-/

namespace Draft

open Consensus Raft

/-- A round of pre-votes: the calls made before it, the term in which it began, who granted it,
and whether a leader of a newer term was accepted since. -/
structure Round where
  since : Nat
  term : Nat
  granters : List Bytes
  overtaken : Bool
  deriving DecidableEq, Repr

namespace Raft

variable (s : Raft)

/-! ## What is counted -/

def tally (res : Option VoteRes) : Raft :=
  if res.any (·.voteGranted) then { s with preVotesGranted := s.preVotesGranted + 1 }
  else { s with preVotesRefused := s.preVotesRefused + 1 }

/-- The test of `checkout` for an election. -/
def hasPreVotes : Bool := s.cluster.length / 2 < s.preVotesGranted

/-- What the callback of `pre_vote` counts, past its look at the role. -/
def counts : Request → Option Response → Option (Option VoteRes)
  | .preVote _, some (.vote res) => if s.role = .follower then some (some res) else none
  | .preVote _, none => if s.role = .follower then some none else none
  | _, _ => none

variable {s}

private theorem onPreVote_tally (res : Option VoteRes) :
    s.onPreVote res = if s.role ≠ .follower then s else (s.tally res).checkout := by
  unfold onPreVote tally
  split
  · rfl
  · split <;> rfl

private theorem finish_counts {req : Request} {response : Option Response} {res : Option VoteRes}
    (h : s.counts req response = some res) (dst : Bytes) (quick : Bool) :
    s.finish dst quick req response = (s.tally res).checkout ∧ req.isPreVote = true := by
  have hcallback : s.finish dst quick req response = s.onPreVote res ∧ s.role = .follower ∧
      req.isPreVote = true := by
    unfold counts at h
    split at h
    · split at h
      · exact ⟨by rw [← Option.some.inj h]; rfl, ‹_›, rfl⟩
      · cases h
    · split at h
      · exact ⟨by rw [← Option.some.inj h]; rfl, ‹_›, rfl⟩
      · cases h
    · cases h
  obtain ⟨hfinish, hrole, hreq⟩ := hcallback
  rw [hfinish, onPreVote_tally, if_neg (by simp [hrole])]
  exact ⟨rfl, hreq⟩

def leaderAccepted (s : Raft) : Request → Option Nat
  | .appendEntries req => if req.term < s.currTerm then none else some req.term
  | .dataTransfer req => if req.term < s.currTerm then none else some req.term
  | .doneTransfer req => if req.term < s.currTerm then none else some req.term
  | _ => none

private theorem serve_accepted {req : Request} {term : Nat} (h : s.leaderAccepted req = some term)
    (recent : Bool) : (s.serve recent req).1.currTerm = term := by
  cases req with
  | appendEntries req =>
      simp only [leaderAccepted, Option.ite_none_left_eq_some, Option.some.injEq] at h
      obtain ⟨hterm, rfl⟩ := h
      have heed := heedLeader_election (Nat.le_of_not_lt hterm) req.leaderId
      have standing :=
        acceptEntries_frame (s := s.heedLeader req.term req.leaderId) .standing rfl rfl req
      change (s.handleAppendEntries req).1.currTerm = _
      rw [handleAppendEntries, if_neg hterm,
        congrArg Election.currTerm (election_of_standing standing)]
      exact heed.1
  | dataTransfer req =>
      simp only [leaderAccepted, Option.ite_none_left_eq_some, Option.some.injEq] at h
      obtain ⟨hterm, rfl⟩ := h
      have follow := followSender_election (Nat.le_of_not_lt hterm) req.leaderId
      have standing :=
        beginTransfer_frame (s := s.followSender req.term req.leaderId) .standing rfl rfl req
      change (s.handleDataTransfer req).1.currTerm = _
      rw [handleDataTransfer, if_neg hterm]
      dsimp only
      split
      · rw [congrArg Election.currTerm (election_of_standing standing)]
        exact follow.1
      · exact follow.1
  | doneTransfer req =>
      simp only [leaderAccepted, Option.ite_none_left_eq_some, Option.some.injEq] at h
      obtain ⟨hterm, rfl⟩ := h
      have follow := followSender_election (Nat.le_of_not_lt hterm) req.leaderId
      change (s.handleDoneTransfer req).1.currTerm = _
      rw [handleDoneTransfer, if_neg hterm]
      dsimp only
      split <;> exact follow.1
  | _ => cases h

end Raft

namespace World

variable {w w' : World}

def beginRound (w : World) (id : Bytes) : Round :=
  { since := w.calls.length
    term := (w.servers id).currTerm
    granters := []
    overtaken := false }

def handledRound (w : World) (c : Call) (r : Round) : Round :=
  match c.request with
  | .timeoutNow _ => w.beginRound c.dst
  | req =>
      if ((w.servers c.dst).leaderAccepted req).any (r.term < ·) then { r with overtaken := true }
      else r

def grantedRound (w : World) (i : Nat) (c : Call) (r : Round) : Round :=
  if ((w.servers c.src).counts c.request c.response).any (·.any (·.voteGranted)) ∧ r.since ≤ i then
    { r with granters := c.dst :: r.granters }
  else r

/-- The last round of each server, kept up over the steps of a run. -/
def noteRound (w : World) (e : Event) (_ : World) (a : Bytes → Round) : Bytes → Round :=
  match e with
  | .electionTimeout id => Function.update a id (w.beginRound id)
  | .handle i _ =>
      match w.calls[i]? with
      | none => a
      | some c => Function.update a c.dst (w.handledRound c (a c.dst))
  | .succeed i _ =>
      match w.calls[i]? with
      | none => a
      | some c => Function.update a c.src (w.grantedRound i c (a c.src))
  | _ => a

def answer (w : World) : Event → Option (Call × Option Response)
  | .succeed i _ => w.calls[i]?.map fun c => (c, c.response)
  | .fail i _ => w.calls[i]?.map fun c => (c, none)
  | _ => none

/-- The event is a callback in which `checkout` calls `leader_election` for `id`. -/
def ElectsByCheckout (w : World) (e : Event) (id : Bytes) : Prop :=
  ∃ c ∈ w.answer e, c.1.src = id ∧ ∃ v ∈ (w.servers id).counts c.1.request c.2,
    ((w.servers id).tally v).hasPreVotes

instance (w : World) (e : Event) (id : Bytes) : Decidable (w.ElectsByCheckout e id) :=
  inferInstanceAs (Decidable (∃ c ∈ _, _ ∧ ∃ v ∈ _, _))

end World

/-- A majority of the cluster has granted the round, and no newer leader was accepted since. -/
structure Round.Won (ids : List Bytes) (id : Bytes) (r : Round) : Prop where
  nodup : r.granters.Nodup
  members : ∀ g ∈ r.granters, g ∈ ids ∧ g ≠ id
  majority : ids.toFinset.card / 2 < r.granters.length + 1
  current : r.overtaken = false

/-! ## The calls of a round -/

section Calls

variable {calls calls' : List Call} {ids : List Bytes} {id : Bytes} {since : Nat}

structure InRound (calls : List Call) (id : Bytes) (since i : Nat) (c : Call) : Prop where
  since : since ≤ i
  get : calls[i]? = some c
  src : c.src = id
  poll : c.request.isPreVote = true

structure Polled (calls : List Call) (ids : List Bytes) (id : Bytes) (r : Round)
    (granted : Nat) : Prop where
  begun : r.since ≤ calls.length
  member : ∀ i c, InRound calls id r.since i c → c.dst ∈ ids ∧ c.dst ≠ id
  once : ∀ i j c d, InRound calls id r.since i c → InRound calls id r.since j d →
    c.dst = d.dst → i = j
  granters : ∀ g ∈ r.granters, ∃ i c, InRound calls id r.since i c ∧ c.dst = g ∧ c.done = true
  nodup : r.granters.Nodup
  counted : granted ≤ r.granters.length + 1

structure Unpolled (calls calls' : List Call) (id : Bytes) : Prop where
  length : calls.length ≤ calls'.length
  same : ∀ (i : Nat) (c d : Call), calls[i]? = some c → calls'[i]? = some d → c.Same d
  new : ∀ (i : Nat) (d : Call), calls'[i]? = some d → d.src = id → d.request.isPreVote = true →
    i < calls.length

private theorem Unpolled.forward (h : Unpolled calls calls' id) {i : Nat} {c : Call}
    (hc : InRound calls id since i c) : ∃ d, InRound calls' id since i d ∧ c.Same d := by
  have hlt : i < calls'.length :=
    (List.getElem?_eq_some_iff.mp hc.get).1.trans_le h.length
  have hsame := h.same i c calls'[i] hc.get (List.getElem?_eq_getElem hlt)
  exact ⟨calls'[i], ⟨hc.since, List.getElem?_eq_getElem hlt, hsame.src.trans hc.src,
    hsame.request ▸ hc.poll⟩, hsame⟩

private theorem Unpolled.backward (h : Unpolled calls calls' id) {i : Nat} {d : Call}
    (hd : InRound calls' id since i d) : ∃ c, InRound calls id since i c ∧ c.Same d := by
  have hlt := h.new i d hd.get hd.src hd.poll
  have hsame := h.same i calls[i] d (List.getElem?_eq_getElem hlt) hd.get
  exact ⟨calls[i], ⟨hd.since, List.getElem?_eq_getElem hlt, hsame.src ▸ hd.src,
    hsame.request ▸ hd.poll⟩, hsame⟩

namespace Polled

variable {r : Round} {granted : Nat}

theorem keep (h : Polled calls ids id r granted) (hcalls : Unpolled calls calls' id)
    (overtaken : Bool) : Polled calls' ids id { r with overtaken := overtaken } granted where
  begun := h.begun.trans hcalls.length
  member := by
    intro i d hd
    obtain ⟨c, hc, hsame⟩ := hcalls.backward hd
    exact hsame.dst ▸ h.member i c hc
  once := by
    intro i j d d' hd hd' hdst
    obtain ⟨c, hc, hsame⟩ := hcalls.backward hd
    obtain ⟨c', hc', hsame'⟩ := hcalls.backward hd'
    exact h.once i j c c' hc hc' (by rw [← hsame.dst, ← hsame'.dst, hdst])
  granters := by
    intro g hg
    obtain ⟨i, c, hc, hdst, hdone⟩ := h.granters g hg
    obtain ⟨d, hd, hsame⟩ := hcalls.forward hc
    exact ⟨i, d, hd, hsame.dst.trans hdst, hsame.done hdone⟩
  nodup := h.nodup
  counted := h.counted

theorem grant (h : Polled calls ids id r granted) (hcalls : Unpolled calls calls' id) {i : Nat}
    {c d : Call} (hc : InRound calls id r.since i c) (hopen : c.done = false)
    (hd : calls'[i]? = some d) (hdone : d.done = true) :
    Polled calls' ids id { r with granters := c.dst :: r.granters } (granted + 1) where
  begun := h.begun.trans hcalls.length
  member := (h.keep hcalls false).member
  once := (h.keep hcalls false).once
  granters := by
    intro g hg
    rcases List.mem_cons.mp hg with rfl | hg
    · have hsame := hcalls.same i c d hc.get hd
      exact ⟨i, d, ⟨hc.since, hd, hsame.src.trans hc.src, hsame.request ▸ hc.poll⟩, hsame.dst,
        hdone⟩
    · exact (h.keep hcalls false).granters g hg
  nodup := by
    refine List.nodup_cons.mpr ⟨fun hmem => ?_, h.nodup⟩
    obtain ⟨j, c', hc', hdst, hdone'⟩ := h.granters _ hmem
    obtain rfl := h.once j i c' c hc' hc hdst
    obtain rfl : c' = c := Option.some.inj (hc'.get.symm.trans hc.get)
    rw [hopen] at hdone'
    cases hdone'
  counted := by
    have := h.counted
    simp only [List.length_cons]
    omega

private theorem begin_ {nodes : List Node} {call : Node → Call} {term : Nat}
    (hcalls : calls' = calls ++ nodes.map call)
    (hdst : ∀ n, (call n).dst = n.id) (hnodup : (nodes.map (·.id)).Nodup)
    (hmember : ∀ n ∈ nodes, n.id ∈ ids ∧ n.id ≠ id) (hgranted : granted ≤ 1) :
    Polled calls' ids id
      { since := calls.length, term := term, granters := [], overtaken := false } granted := by
  have new : ∀ {i : Nat} {c : Call}, InRound calls' id calls.length i c →
      ∃ n, nodes[i - calls.length]? = some n ∧ c.dst = n.id := by
    intro i c hc
    have hget := hc.get
    rw [hcalls, List.getElem?_append_right hc.since, List.getElem?_map,
      Option.map_eq_some_iff] at hget
    obtain ⟨n, hn, rfl⟩ := hget
    exact ⟨n, hn, hdst n⟩
  refine ⟨by simp [hcalls], ?_, ?_, by simp, List.nodup_nil, by simpa using hgranted⟩
  · intro i c hc
    obtain ⟨n, hn, hid⟩ := new hc
    rw [hid]
    exact hmember n (List.mem_of_getElem? hn)
  · intro i j c d hc hd hsame
    obtain ⟨n, hn, hnid⟩ := new hc
    obtain ⟨m, hm, hmid⟩ := new hd
    have hi : calls.length ≤ i := hc.since
    have hj : calls.length ≤ j := hd.since
    have hn' : (nodes.map (·.id))[i - calls.length]? = some c.dst := by simp [hn, hnid]
    have hm' : (nodes.map (·.id))[j - calls.length]? = some c.dst := by simp [hm, hmid, hsame]
    have hlt := (List.getElem?_eq_some_iff.mp hn').1
    have := (List.getElem?_inj hlt hnodup).mp (hn'.trans hm'.symm)
    omega

end Polled

end Calls

namespace Raft

variable {s t : Raft}

private theorem sent_of_poll (h : t.poll = s.poll) (hs : s.sent = []) :
    ∀ o ∈ t.sent, o.request.isPreVote = false := by
  intro o ho
  have hnone : (t.sent.filter (·.request.isPreVote)).map (·.dst) = [] := by
    have := congrArg Prod.snd h
    simpa [poll, hs] using this
  by_contra hpoll
  have hmem : o ∈ t.sent.filter (·.request.isPreVote) :=
    List.mem_filter.mpr ⟨ho, by simpa using hpoll⟩
  rw [List.map_eq_nil_iff.mp hnone] at hmem
  cases hmem

private theorem finish_uncounted (s : Raft) (dst : Bytes) (quick : Bool) {req : Request}
    {res : Option Response} (h : s.counts req res = none) :
    (s.finish dst quick req res).poll = s.poll := by
  cases req with
  | preVote req =>
      have skipped : ∀ v, s.role ≠ .follower → (s.onPreVote v).poll = s.poll := by
        intro v hrole
        rw [onPreVote_tally, if_pos hrole]
      rcases res with _ | ⟨v | _ | _⟩
      · refine skipped none fun hrole => ?_
        simp [counts, hrole] at h
      · refine skipped (some v) fun hrole => ?_
        simp [counts, hrole] at h
      · rfl
      · rfl
  | _ => exact finish_frame .poll dst quick (by simp [Request.finishes]) res

private theorem finish_counted {dst : Bytes} {quick : Bool} {req : Request} {res : Option Response}
    {v : Option VoteRes} (h : s.counts req res = some v) :
    (s.finish dst quick req res).poll = (s.tally v).poll := by
  rw [(finish_counts h dst quick).1]
  exact checkout_frame .poll rfl rfl

private theorem tally_poll (s : Raft) (v : Option VoteRes) :
    (s.tally v).poll =
      (if v.any (·.voteGranted) then s.preVotesGranted + 1 else s.preVotesGranted, s.poll.2) := by
  unfold tally
  split <;> rfl

private theorem finish_failed_poll (s : Raft) (dst : Bytes) (quick : Bool) (req : Request) :
    (s.finish dst quick req none).poll = s.poll := by
  cases hcounts : s.counts req none with
  | none => exact finish_uncounted s dst quick hcounts
  | some v =>
      have hnone : v = none := by
        cases req with
        | preVote req =>
            simp only [counts, Option.ite_none_right_eq_some] at hcounts
            exact (Option.some.inj hcounts.2).symm
        | _ => cases hcounts
      rw [finish_counted hcounts, tally_poll, hnone]
      rfl

private theorem preVote_begins (early : Bool) (h : s.cluster.length ≠ 1) (hsent : s.sent = []) :
    (s.preVote early).preVotesGranted ≤ 1 ∧
      (s.preVote early).sent = s.others.map fun n =>
        ⟨n.id, .follower, s.currTerm, .preVote (s.voteReq early)⟩ := by
  unfold preVote
  rw [if_neg fun hone => h hone.1]
  constructor
  · simp only [invokeAll]
    split <;> omega
  · simp only [invokeAll, hsent, List.nil_append, others, voteReq]

end Raft

/-! ## Runs -/

namespace World

variable {w w' : World}

/-- A grant that is counted answers a call of the last round. -/
def CountsFresh (p : World × (Bytes → Round)) : Event → Prop
  | .succeed i _ => ∀ c ∈ p.1.calls[i]?, ∀ v ∈ (p.1.servers c.src).counts c.request c.response,
      v.any (·.voteGranted) = true → (p.2 c.src).since ≤ i
  | _ => True

instance (p : World × (Bytes → Round)) : (e : Event) → Decidable (CountsFresh p e)
  | .succeed .. => by unfold CountsFresh; infer_instance
  | .electionTimeout _ | .heartbeatTimeout _ | .leadershipTransferTimeout _ | .append ..
  | .transferLeadership .. | .addServer .. | .delServer .. | .popCommitted _ | .applyNext _
  | .compact _ | .writeFiles .. | .handle .. | .fail .. => isTrue trivial

private theorem noteRound_of_ne {e : Event} {a : Bytes → Round} {id j : Bytes}
    (hactor : w.actor e = some id) (hne : j ≠ id) : noteRound w e w' a j = a j := by
  cases e with
  | electionTimeout i =>
      obtain rfl : i = id := by simpa [actor] using hactor
      exact Function.update_of_ne hne _ _
  | handle i recent =>
      simp only [noteRound]
      cases hc : w.calls[i]? with
      | none => rfl
      | some c =>
          obtain rfl : c.dst = id := by simpa [actor, hc] using hactor
          exact Function.update_of_ne hne _ _
  | succeed i quick =>
      simp only [noteRound]
      cases hc : w.calls[i]? with
      | none => rfl
      | some c =>
          obtain rfl : c.src = id := by simpa [actor, hc] using hactor
          exact Function.update_of_ne hne _ _
  | _ => rfl

private theorem unpolled_act {e : Event} {id j : Bytes} {t : Raft}
    (hquiet : j = id → ∀ o ∈ t.sent, o.request.isPreVote = false) :
    Unpolled w.calls ({ w with calls := w.touched e }.act id t).calls j := by
  have hlength := touched_length (w := w) e
  refine ⟨by simp [act, hlength], fun i c d hc hd => ?_, fun i d hd hsrc hpoll => ?_⟩
  · have hlt : i < (w.touched e).length := hlength ▸ (List.getElem?_eq_some_iff.mp hc).1
    refine touched_same e hc ?_
    rwa [act, List.getElem?_append_left hlt] at hd
  · by_contra hge
    rw [act, List.getElem?_append_right (by dsimp only; omega), List.getElem?_map,
      Option.map_eq_some_iff] at hd
    obtain ⟨o, ho, rfl⟩ := hd
    have hcall : (o.call id).request.isPreVote = false :=
      hquiet hsrc.symm o (List.mem_of_getElem? ho)
    rw [hcall] at hpoll
    cases hpoll

structure Dated (r : Round) (s : Raft) : Prop where
  reached : r.term ≤ s.currTerm
  overtaken : r.overtaken = true → r.term < s.currTerm

structure RoundsKept (ids : List Bytes) (p : World × (Bytes → Round)) : Prop where
  ready : p.1.Ready
  same : p.1.ids = ids
  members : ∀ id ∈ p.1.ids, HasMembers p.1.ids (p.1.servers id)
  polled : ∀ id ∈ ids, Polled p.1.calls ids id (p.2 id) (p.1.servers id).preVotesGranted
  dated : ∀ id ∈ ids, Dated (p.2 id) (p.1.servers id)

private theorem polled_begin {e : Event} {id : Bytes} {s : Raft} {early : Bool}
    (hmembers : HasMembers w.ids (w.servers id)) (htwo : 2 ≤ w.ids.toFinset.card)
    (hs : s.cluster = (w.servers id).cluster) (hself : s.selfId = id) (hsent : s.sent = []) :
    Polled ({ w with calls := w.touched e }.act id (s.preVote early)).calls w.ids id
      (w.beginRound id) (s.preVote early).preVotesGranted := by
  have hms : HasMembers w.ids s := hmembers.of_roster (by rw [roster, hs, roster])
  have hlength : s.cluster.length ≠ 1 := by
    rw [hms.length_eq]
    omega
  obtain ⟨hgranted, hcalls⟩ := preVote_begins early hlength hsent
  have hnew : ({ w with calls := w.touched e }.act id (s.preVote early)).calls =
      w.touched e ++ s.others.map fun n =>
        Outgoing.call id ⟨n.id, .follower, s.currTerm, .preVote (s.voteReq early)⟩ := by
    rw [act, hcalls, List.map_map]
    rfl
  have hother : ∀ n ∈ s.others, n.id ∈ w.ids ∧ n.id ≠ id := by
    intro n hn
    have := hms.mem_others.mp (List.mem_map_of_mem (f := (·.id)) hn)
    rwa [hself] at this
  unfold beginRound
  rw [← touched_length e]
  exact Polled.begin_ hnew (fun _ => rfl) hms.others_nodup hother hgranted

private theorem handledRound_eq {c : Call} (r : Round) (h : ∀ req, c.request ≠ .timeoutNow req) :
    w.handledRound c r = { r with overtaken := (w.handledRound c r).overtaken } := by
  unfold handledRound
  split
  · rename_i req hreq
    exact absurd hreq (h req)
  · split <;> rfl

private theorem polled_kept {e : Event} {id : Bytes} {t : Raft} {ids : List Bytes} {r r' : Round}
    (h : Polled w.calls ids id r (w.servers id).preVotesGranted)
    (hsent : (w.servers id).sent = []) (hpoll : t.poll = (w.servers id).poll)
    (hround : r' = { r with overtaken := r'.overtaken }) :
    Polled ({ w with calls := w.touched e }.act id t).calls ids id r' t.preVotesGranted := by
  rw [preVotesGranted_of_poll hpoll, hround]
  exact h.keep (unpolled_act fun _ => sent_of_poll hpoll hsent) _

private theorem polled_counted {i : Nat} {quick : Bool} {c : Call} {ids : List Bytes} {a : Bytes → Round}
    (h : Polled w.calls ids c.src (a c.src) (w.servers c.src).preVotesGranted)
    (hsent : (w.servers c.src).sent = []) (hc : w.calls[i]? = some c) (hopen : c.done = false)
    (hfresh : CountsFresh (w, a) (.succeed i quick)) :
    Polled ({ w with calls := w.touched (.succeed i quick) }.act c.src
        ((w.servers c.src).finish c.dst quick c.request c.response)).calls ids c.src
      (w.grantedRound i c (a c.src))
      ((w.servers c.src).finish c.dst quick c.request c.response).preVotesGranted := by
  have kept : ((w.servers c.src).finish c.dst quick c.request c.response).poll =
      (w.servers c.src).poll →
      ((w.servers c.src).counts c.request c.response).any (·.any (·.voteGranted)) = false →
      Polled ({ w with calls := w.touched (.succeed i quick) }.act c.src
        ((w.servers c.src).finish c.dst quick c.request c.response)).calls ids c.src
        (w.grantedRound i c (a c.src))
        ((w.servers c.src).finish c.dst quick c.request c.response).preVotesGranted := by
    intro hpoll hnone
    refine polled_kept h hsent hpoll ?_
    rw [grantedRound, hnone, if_neg (by simp)]
  cases hcounts : (w.servers c.src).counts c.request c.response with
  | none => exact kept (finish_uncounted _ _ _ hcounts) (by rw [hcounts]; rfl)
  | some v =>
      have hreq := (finish_counts hcounts c.dst quick).2
      have hpoll : ((w.servers c.src).finish c.dst quick c.request c.response).poll =
          ((w.servers c.src).tally v).poll := finish_counted hcounts
      cases hgranted : v.any (·.voteGranted) with
      | false =>
          refine kept ?_ (by rw [hcounts]; exact hgranted)
          rw [hpoll, tally_poll, hgranted]
          rfl
      | true =>
          have hsince := hfresh c hc v hcounts hgranted
          have hany : ((w.servers c.src).counts c.request c.response).any
              (·.any (·.voteGranted)) = true := by
            rw [hcounts]
            exact hgranted
          rw [tally_poll, hgranted] at hpoll
          rw [show ((w.servers c.src).finish c.dst quick c.request c.response).preVotesGranted =
            (w.servers c.src).preVotesGranted + 1 from congrArg Prod.fst hpoll, grantedRound,
            if_pos ⟨hany, hsince⟩]
          have hquiet : ∀ o ∈ ((w.servers c.src).finish c.dst quick c.request c.response).sent,
              o.request.isPreVote = false :=
            sent_of_poll (s := { w.servers c.src with
              preVotesGranted := (w.servers c.src).preVotesGranted + 1 }) hpoll hsent
          have hlt : i < w.calls.length := (List.getElem?_eq_some_iff.mp hc).1
          refine h.grant (unpolled_act fun _ => hquiet) ⟨hsince, hc, rfl, hreq⟩ hopen
            (d := { c with done := true }) ?_ rfl
          simp only [act, touched, hc]
          rw [List.getElem?_append_left (by simpa using hlt), List.getElem?_set_self hlt]

private theorem dated_noted {e : Event} {id : Bytes} {a : Bytes → Round} (hactor : w.actor e = some id)
    (hterm : (w.servers id).currTerm ≤ (w.reaction e (w.servers id)).currTerm)
    (h : Dated (a id) (w.servers id)) :
    Dated (noteRound w e w' a id) (w.reaction e (w.servers id)) := by
  have kept : ∀ {r : Round}, r.term = (a id).term → r.overtaken = (a id).overtaken →
      Dated r (w.reaction e (w.servers id)) := by
    intro r hr hover
    refine ⟨hr ▸ h.reached.trans hterm, fun hset => ?_⟩
    exact hr ▸ (h.overtaken (hover ▸ hset)).trans_le hterm
  have begun : Dated (w.beginRound id) (w.reaction e (w.servers id)) :=
    ⟨hterm, fun hset => by cases hset⟩
  cases e with
  | electionTimeout i =>
      obtain rfl : i = id := by simpa [actor] using hactor
      simp only [noteRound, Function.update_self]
      exact begun
  | handle i recent =>
      cases hc : w.calls[i]? with
      | none => simp [actor, hc] at hactor
      | some c =>
          obtain rfl : c.dst = id := by simpa [actor, hc] using hactor
          simp only [noteRound, hc, Function.update_self, handledRound]
          split
          · exact begun
          split
          · rename_i hnewer
            obtain ⟨term, haccept, hlt⟩ := Option.any_eq_true _ _ |>.mp hnewer
            have this : (a c.dst).term <
                (w.reaction (.handle i recent) (w.servers c.dst)).currTerm := by
              simp only [reaction, hc]
              rw [serve_accepted haccept recent]
              exact of_decide_eq_true hlt
            exact ⟨this.le, fun _ => this⟩
          · exact kept rfl rfl
  | succeed i quick =>
      cases hc : w.calls[i]? with
      | none => simp [actor, hc] at hactor
      | some c =>
          obtain rfl : c.src = id := by simpa [actor, hc] using hactor
          simp only [noteRound, hc, Function.update_self, grantedRound]
          split <;> exact kept rfl rfl
  | _ => exact kept rfl rfl

private theorem rounds_step {ids : List Bytes} {p q : World × (Bytes → Round)} {e : Event}
    (htwo : 2 ≤ ids.toFinset.card) (hadopts : p.1.AdoptsMembers e) (hfresh : CountsFresh p e)
    (h : RoundsKept ids p) (hstep : noted step noteRound p e = some q) : RoundsKept ids q := by
  obtain ⟨hworld, hnote⟩ := noted_eq_some.mp hstep
  have hmoves : p.1.Moves True e q.1 := step_moves h.ready hadopts.1 (.inl trivial) hworld
  have hready : q.1.Ready := hmoves.ready h.ready
  obtain ⟨id, hactor, hid, hq⟩ := step_reaction hworld
  have hsame : q.1.ids = p.1.ids := by rw [hq]; rfl
  have hdated : ∀ j ∈ ids, Dated (q.2 j) (q.1.servers j) := by
    intro j hj
    rw [hnote]
    by_cases hji : j = id
    swap
    · rw [hq, act_of_ne _ _ hji, noteRound_of_ne hactor hji]
      exact h.dated j hj
    subst hji
    have hterm := step_currTerm_le hworld j
    rw [hq, act_self] at hterm ⊢
    obtain ⟨hreached, hover⟩ : Dated (noteRound p.1 e _ p.2 j) (p.1.reaction e (p.1.servers j)) :=
      dated_noted hactor hterm (h.dated j hj)
    exact ⟨hreached, hover⟩
  refine ⟨hready, hsame.trans h.same, hasMembers_step hadopts h.members hmoves, fun j hj => ?_,
    hdated⟩
  rw [hnote, hq]
  by_cases hji : j = id
  swap
  · rw [act_of_ne _ _ hji, noteRound_of_ne hactor hji]
    exact (h.polled j hj).keep (unpolled_act fun hij => absurd hij hji) _
  subst hji
  rw [act_self]
  have hpolled := h.polled j hj
  have hsent := h.ready.sent j hid
  have begins : ∀ {s : Raft} {early : Bool}, s.cluster = (p.1.servers j).cluster →
      s.selfId = (p.1.servers j).selfId → s.sent = (p.1.servers j).sent →
      Polled ({ p.1 with calls := p.1.touched e }.act j (s.preVote early)).calls ids j
        (p.1.beginRound j) (s.preVote early).preVotesGranted := by
    intro s early hcluster hself hs
    rw [← h.same]
    exact polled_begin (h.members j hid) (by rw [h.same]; exact htwo) hcluster
      (hself.trans (h.ready.self j hid)) (hs.trans hsent)
  have kept : (p.1.reaction e (p.1.servers j)).poll = (p.1.servers j).poll →
      noteRound p.1 e q.1 p.2 j =
        { p.2 j with overtaken := (noteRound p.1 e q.1 p.2 j).overtaken } →
      Polled ({ p.1 with calls := p.1.touched e }.act j
        (p.1.reaction e (p.1.servers j))).calls ids j (noteRound p.1 e q.1 p.2 j)
        (p.1.reaction e (p.1.servers j)).preVotesGranted :=
    fun hpoll hround => polled_kept hpolled hsent hpoll hround
  rw [← hq]
  rw [← hq] at kept
  cases e with
  | electionTimeout i =>
      obtain rfl : i = j := by simpa [actor] using hactor
      simp only [noteRound, Function.update_self]
      exact hq ▸ begins rfl rfl rfl
  | heartbeatTimeout i => exact kept ((appendEntries_frame .poll rfl).trans rfl) rfl
  | leadershipTransferTimeout i =>
      refine kept ?_ rfl
      simp only [reaction]
      split
      · rfl
      · exact onLeadershipTransferTimeout_frame .poll rfl _
  | append i data => exact kept (append_frame .poll rfl data) rfl
  | transferLeadership i address => exact kept (leadershipTransfer_frame .poll address) rfl
  | addServer i address => cases hadopts.1
  | delServer i address => cases hadopts.1
  | popCommitted i => exact kept (popCommitted_frame .poll) rfl
  | applyNext i => exact kept (applyNext_frame .poll rfl) rfl
  | compact i => exact kept (compact_frame .poll rfl rfl) rfl
  | writeFiles i files => exact kept rfl rfl
  | handle i recent =>
      cases hc : p.1.calls[i]? with
      | none => simp [actor, hc] at hactor
      | some c =>
          obtain rfl : c.dst = j := by simpa [actor, hc] using hactor
          by_cases htimeout : ∃ req, c.request = .timeoutNow req
          · obtain ⟨req, hreq⟩ := htimeout
            simp only [noteRound, hc, Function.update_self, handledRound, hreq]
            have hserve : p.1.reaction (.handle i recent) (p.1.servers c.dst) =
                { p.1.servers c.dst with electionTimer := false }.preVote true := by
              simp only [reaction, hc, hreq]
              rfl
            rw [hq, hserve]
            exact begins rfl rfl rfl
          · refine kept ?_ ?_
            · simp only [reaction, hc]
              exact serve_frame .poll recent
                (Request.poll_notMem_serves fun req hreq => htimeout ⟨req, hreq⟩)
            · simp only [noteRound, hc, Function.update_self]
              exact handledRound_eq _ fun req hreq => htimeout ⟨req, hreq⟩
  | succeed i quick =>
      cases hc : p.1.calls[i]? with
      | none => simp [actor, hc] at hactor
      | some c =>
          obtain rfl : c.src = j := by simpa [actor, hc] using hactor
          have hcounted := polled_counted hpolled hsent hc (succeed_open hc hworld) hfresh
          simp only [noteRound, hc, Function.update_self]
          rw [hq]
          simp only [reaction, hc]
          exact hcounted
  | fail i quick =>
      cases hc : p.1.calls[i]? with
      | none => simp [actor, hc] at hactor
      | some c =>
          obtain rfl : c.src = j := by simpa [actor, hc] using hactor
          refine kept ?_ rfl
          simp only [reaction, hc]
          exact finish_failed_poll _ c.dst quick c.request

private theorem roundsKept_start (hstart : w.Started)
    (hmembers : ∀ id ∈ w.ids, HasMembers w.ids (w.servers id))
    (hcounter : ∀ id ∈ w.ids, (w.servers id).preVotesGranted = 0) {a : Bytes → Round}
    (ha : ∀ id, a id = ⟨0, 0, [], false⟩) : RoundsKept w.ids (w, a) where
  ready := hstart.ready
  same := rfl
  members := hmembers
  polled := by
    intro id hid
    have none : ∀ i c, ¬ InRound w.calls id (a id).since i c := by
      intro i c hc
      have := hc.get
      rw [hstart.calls] at this
      cases this
    refine ⟨by simp [ha], fun i c hc => absurd hc (none i c), fun i j c d hc _ _ =>
      absurd hc (none i c), by simp [ha], by simp [ha], ?_⟩
    dsimp only
    rw [hcounter id hid]
    omega
  dated := by
    intro id _
    refine ⟨?_, fun hset => ?_⟩
    · simp [ha]
    · simp [ha] at hset

private theorem electing_step {p p' : World × (Bytes → Round)} {e : Event} {id : Bytes}
    (hstep : noted step noteRound p e = some p') (helects : p.1.ElectsByCheckout e id) :
    p.1.AdoptsMembers e ∧ id ∈ p.1.ids ∧ (p'.2 id).overtaken = (p.2 id).overtaken ∧
      (p.1.servers id).cluster.length / 2 < (p'.1.servers id).preVotesGranted := by
  obtain ⟨hworld, hnote⟩ := noted_eq_some.mp hstep
  obtain ⟨j, hactor, hid, hq⟩ := step_reaction hworld
  obtain ⟨⟨c, res⟩, hanswer, hsrc, v, hv, hwon⟩ := helects
  dsimp only at hsrc hv hwon
  have hmajority : (p.1.servers id).cluster.length / 2 <
      ((p.1.servers id).tally v).preVotesGranted := by
    have hcluster : ((p.1.servers id).tally v).cluster = (p.1.servers id).cluster := by
      unfold tally
      split <;> rfl
    rw [← hcluster]
    exact of_decide_eq_true hwon
  cases e with
  | succeed i quick =>
      simp only [answer, Option.mem_def, Option.map_eq_some_iff, Prod.mk.injEq] at hanswer
      obtain ⟨c, hc, rfl, rfl⟩ := hanswer
      obtain rfl : c.src = j := by simpa [actor, hc] using hactor
      subst hsrc
      refine ⟨⟨rfl, trivial⟩, hid, ?_, ?_⟩
      · simp only [hnote, noteRound, hc, Function.update_self, grantedRound]
        split <;> rfl
      · rw [hq, act_self]
        simp only [reaction, hc]
        rw [preVotesGranted_of_poll (finish_counted hv)]
        exact hmajority
  | fail i quick =>
      simp only [answer, Option.mem_def, Option.map_eq_some_iff, Prod.mk.injEq] at hanswer
      obtain ⟨c, hc, rfl, rfl⟩ := hanswer
      obtain rfl : c.src = j := by simpa [actor, hc] using hactor
      subst hsrc
      refine ⟨⟨rfl, trivial⟩, hid, by rw [hnote]; rfl, ?_⟩
      rw [hq, act_self]
      simp only [reaction, hc]
      rw [preVotesGranted_of_poll (finish_counted hv)]
      exact hmajority
  | _ => cases hanswer

/--
In a run of a fixed cluster of two or more servers whose servers adopt only
configurations with its members and count only grants of the last round, an
election that `checkout` calls in the term of that round follows grants of a
majority, and no leader of a newer term was accepted since.
-/
theorem pre_vote_majority {p p' p'' : World × (Bytes → Round)} {es : List Event} {e : Event}
    {id : Bytes} (hstart : p.1.Started)
    (hmembers : ∀ id ∈ p.1.ids, HasMembers p.1.ids (p.1.servers id))
    (hcounter : ∀ id ∈ p.1.ids, (p.1.servers id).preVotesGranted = 0)
    (hrounds : ∀ id, p.2 id = ⟨0, 0, [], false⟩) (htwo : 2 ≤ p.1.ids.toFinset.card)
    (hadopts : Along (noted step noteRound) (fun p e => p.1.AdoptsMembers e) p es)
    (hfresh : Along (noted step noteRound) CountsFresh p es)
    (hrun : run (noted step noteRound) p es = some p') (hcounts : CountsFresh p' e)
    (hterm : (p'.1.servers id).currTerm = (p'.2 id).term)
    (hstep : noted step noteRound p' e = some p'') (helects : p'.1.ElectsByCheckout e id) :
    (p''.2 id).Won p.1.ids id := by
  have hkept : RoundsKept p.1.ids p' :=
    run_invariant (fun _ _ _ hcond h hstep => rounds_step htwo hcond.1 hcond.2 h hstep)
      (hadopts.and hfresh) (roundsKept_start hstart hmembers hcounter hrounds) hrun
  obtain ⟨hadopts', hid, hover, hmajority⟩ := electing_step hstep helects
  have hafter := rounds_step htwo hadopts' hcounts hkept hstep
  have hround := hafter.polled id (hkept.same ▸ hid)
  refine ⟨hround.nodup, fun g hg => ?_, ?_, ?_⟩
  · obtain ⟨i, c, hc, hdst, -⟩ := hround.granters g hg
    exact hdst ▸ hround.member i c hc
  · have hgranted := hround.counted
    rw [(hkept.members id hid).length_eq, hkept.same] at hmajority
    omega
  · rw [hover, Bool.eq_false_iff]
    intro hset
    have hlt := (hkept.dated id (hkept.same ▸ hid)).overtaken hset
    omega

theorem pre_vote_majority_granted :
    ∃ p q, run (noted step noteRound)
        (cluster ["a:1", "b:1", "c:1"] true, fun _ => ⟨0, 0, [], false⟩)
        [.electionTimeout (ascii "a:1"), .handle 0 false] = some p ∧
      noted step noteRound p (.succeed 0 false) = some q ∧
      p.1.ElectsByCheckout (.succeed 0 false) (ascii "a:1") ∧
      (q.2 (ascii "a:1")).Won [ascii "a:1", ascii "b:1", ascii "c:1"] (ascii "a:1") := by
  have hrun := (Option.some_get (show (run (noted step noteRound)
    (cluster ["a:1", "b:1", "c:1"] true, fun _ => ⟨0, 0, [], false⟩)
    [.electionTimeout (ascii "a:1"), .handle 0 false]).isSome by decide)).symm
  have hstep := (Option.some_get (show (noted step noteRound ((run (noted step noteRound)
    (cluster ["a:1", "b:1", "c:1"] true, fun _ => ⟨0, 0, [], false⟩)
    [.electionTimeout (ascii "a:1"), .handle 0 false]).get (by decide))
    (.succeed 0 false)).isSome by decide)).symm
  refine ⟨_, _, hrun, hstep, by decide, ?_⟩
  exact pre_vote_majority (p := (cluster ["a:1", "b:1", "c:1"] true, fun _ => ⟨0, 0, [], false⟩))
    (by decide) (by decide) (by decide) (fun _ => rfl) (by decide) (by decide) (by decide) hrun
    (by decide) (by decide) hstep (by decide)

/--
`b` is elected while `a` waits for its first round.  After the first heartbeat
of `b` the timer of `a` expires again, and nobody has answered the second round.
-/
def staleGrant : List Event :=
  [.electionTimeout (ascii "b:1"), .handle 1 false, .succeed 1 false, .handle 3 false,
    .succeed 3 false, .electionTimeout (ascii "a:1"), .handle 7 false, .handle 4 false,
    .electionTimeout (ascii "a:1")]

/-- The grant of the first round elects. -/
theorem stale_grant_elects :
    ¬ ∀ (p p' p'' : World × (Bytes → Round)) (es : List Event) (e : Event) (id : Bytes),
      p.1.Started → (∀ id ∈ p.1.ids, HasMembers p.1.ids (p.1.servers id)) →
      (∀ id ∈ p.1.ids, (p.1.servers id).preVotesGranted = 0) →
      (∀ id, p.2 id = ⟨0, 0, [], false⟩) → 2 ≤ p.1.ids.toFinset.card → (∀ e ∈ es, e.fixed) →
      run (noted step noteRound) p es = some p' → noted step noteRound p' e = some p'' →
      p'.1.ElectsByCheckout e id →
      (p''.2 id).Won p.1.ids id := by
  intro h
  have hrun := (Option.some_get (show (run (noted step noteRound)
    (cluster ["a:1", "b:1", "c:1"] true, fun _ => ⟨0, 0, [], false⟩) staleGrant).isSome
      by decide)).symm
  have hstep := (Option.some_get (show (noted step noteRound ((run (noted step noteRound)
    (cluster ["a:1", "b:1", "c:1"] true, fun _ => ⟨0, 0, [], false⟩) staleGrant).get (by decide))
    (.succeed 7 false)).isSome by decide)).symm
  have hwon := h (cluster ["a:1", "b:1", "c:1"] true, fun _ => ⟨0, 0, [], false⟩) _ _ staleGrant
    (.succeed 7 false) (ascii "a:1") (by decide) (by decide) (by decide) (fun _ => rfl)
    (by decide) (by decide) hrun hstep (by decide)
  exact absurd hwon.majority (by decide)

end World

end Draft
