import Draft.Consensus.Adoption
import Draft.Raft.CommitRule
import Draft.Raft.Merging

/-!
# The cluster refines the abstract protocol

A state of the abstract protocol has the full logs of the servers, the logs of
the leaders and what each server adopted of them.  This module relates the
servers and their calls to such a state and follows the relation through the
changes a move makes to one server.
-/

namespace Draft

open Consensus Raft

structure View extends Election, Replica where
  cluster : List (Bytes × Node)

def Raft.view (s : Raft) : View :=
  { toElection := s.toElection, toReplica := s.toReplica, cluster := s.cluster }

/-- The abstract protocol at the servers `ids`, with entries that have terms. -/
abbrev Decides (ids : List Bytes) (base : List Entry) (p : Protocol Bytes Entry) (t : Nat)
    (g : List Entry) : Prop :=
  p.Decided Entry.term ids.toFinset base t g

def Vouches (ids : List Bytes) (base : List Entry) (p : Protocol Bytes Entry) (src : Bytes) :
    Request → Prop
  | .requestVote req => req.candidateId = src ∧
      ∃ g, p.candidateLog req.term src = some g ∧ req.lastLogIndex = g.length ∧
        termAt g g.length = some req.lastLogTerm
  | .appendEntries req => p.leaders.elected req.term ∧
      ∃ g, g <+: p.leaders.log req.term ∧ Indexed g ∧ Segment g 0 req ∧
        req.leaderCommit ≤ g.length ∧ Decides ids base p req.term (g.take req.leaderCommit)
  | .dataTransfer req => p.leaders.elected req.term ∧
      ∃ g, g <+: p.leaders.log req.term ∧ Indexed g ∧ g.length = req.lastIndex ∧
        termAt g req.lastIndex = some req.lastTerm ∧ Decides ids base p req.term g
  | _ => True

structure Simulates (ids : List Bytes) (base : List Entry) (p : Protocol Bytes Entry)
    (id : Bytes) (v : View) : Prop where
  current : p.current id = v.currTerm
  holds : v.log.Holds (p.log id)
  ballot : ∀ t c, p.ballot id t c ↔ (t, c) ∈ v.ballots
  candidate : v.role = .candidate → p.candidateLog v.currTerm id = some (p.log id)
  leader : v.role = .leader → p.log id = p.leaders.log v.currTerm ∧
    (p.log id).length ≤ p.adopted id v.currTerm
  matched : v.role = .leader →
    ∀ q ∈ v.cluster, q.2.matchIndex ≤ p.adopted q.2.id v.currTerm
  compacted : v.log.lastIndex ≤ v.commitIndex
  commit_le : v.commitIndex ≤ (p.log id).length
  committed : Decides ids base p v.currTerm ((p.log id).take v.commitIndex)
  applied : ∀ a ∈ v.applied, 0 < a.1 ∧
    ∃ q, Decides ids base p v.currTerm q ∧ q[a.1 - 1]? = some a.2.toEntry
  oldest : ∀ x ∈ base, x.term ≤ v.currTerm + 1

structure Refines (ids : List Bytes) (V : Bytes → View) (calls : List Call) (base : List Entry)
    (p : Protocol Bytes Entry) : Prop where
  inv : p.Inv Entry.term ids.toFinset base
  elected : ∀ t, p.leaders.elected t ↔ ∃ j ∈ ids, t ∈ (V j).elections
  server : ∀ j ∈ ids, Simulates ids base p j (V j)
  /-- The only member of a cluster has all that was ever created. -/
  alone : ids.toFinset.card = 1 → ∀ j ∈ ids, ∀ t, p.leaders.elected t →
    (p.leaders.log t).length ≤ p.adopted j t
  request : ∀ c ∈ calls, Vouches ids base p c.src c.request
  answer : ∀ c ∈ calls, ∀ req res, c.request = .appendEntries req →
    c.response = some (.append res) → res.success = true →
    res.matchIndex ≤ p.adopted c.dst req.term

section

variable {ids : List Bytes} {V : Bytes → View} {calls : List Call} {base : List Entry}
  {p p' : Protocol Bytes Entry} {id src : Bytes} {v : View}

theorem Vouches.mono {req : Request} (h : Vouches ids base p src req) (hgrows : p.Grows p') :
    Vouches ids base p' src req := by
  cases req with
  | timeoutNow req => trivial
  | preVote req => trivial
  | doneTransfer req => trivial
  | requestVote req =>
      obtain ⟨hcandidate, g, hg, hlen, hterm⟩ := h
      exact ⟨hcandidate, g, hgrows.candidateLog _ _ _ hg, hlen, hterm⟩
  | appendEntries req =>
      obtain ⟨helected, g, hg, hidx, hseg, hle, hdecided⟩ := h
      obtain ⟨helected', hprefix⟩ := hgrows.leaders _ helected
      exact ⟨helected', g, hg.trans hprefix, hidx, hseg, hle, hdecided.mono hgrows le_rfl⟩
  | dataTransfer req =>
      obtain ⟨helected, g, hg, hidx, hlen, hterm, hdecided⟩ := h
      obtain ⟨helected', hprefix⟩ := hgrows.leaders _ helected
      exact ⟨helected', g, hg.trans hprefix, hidx, hlen, hterm, hdecided.mono hgrows le_rfl⟩

theorem Simulates.mono (h : Simulates ids base p id v) (hgrows : p.Grows p')
    (hcurrent : p'.current id = p.current id) (hlog : p'.log id = p.log id)
    (hballot : ∀ t c, p'.ballot id t c → p.ballot id t c)
    (hleader : v.role = .leader → p'.leaders.log v.currTerm = p.leaders.log v.currTerm) :
    Simulates ids base p' id v where
  current := hcurrent.trans h.current
  holds := hlog ▸ h.holds
  ballot := fun t c => ⟨fun hb => (h.ballot t c).mp (hballot t c hb),
    fun hb => hgrows.ballot _ _ _ ((h.ballot t c).mpr hb)⟩
  candidate := fun hrole => hlog ▸ hgrows.candidateLog _ _ _ (h.candidate hrole)
  leader := fun hrole => by
    obtain ⟨heq, hle⟩ := h.leader hrole
    rw [hlog, hleader hrole]
    exact ⟨heq, hle.trans (hgrows.adopted _ _)⟩
  matched := fun hrole q hq => (h.matched hrole q hq).trans (hgrows.adopted _ _)
  compacted := h.compacted
  commit_le := hlog ▸ h.commit_le
  committed := hlog ▸ h.committed.mono hgrows le_rfl
  applied := fun a ha => by
    obtain ⟨hpos, q, hq, hentry⟩ := h.applied a ha
    exact ⟨hpos, q, hq.mono hgrows le_rfl, hentry⟩
  oldest := h.oldest

/--
A step of the protocol at server `id`, which is at the view `v` after it.  The
other servers keep their terms, logs and ballots, and leaders their logs.
-/
theorem Refines.update (h : Refines ids V calls base p) (hid : id ∈ ids)
    (hinv : p'.Inv Entry.term ids.toFinset base) (hgrows : p.Grows p')
    (hcurrent : ∀ j, j ≠ id → p'.current j = p.current j)
    (hlog : ∀ j, j ≠ id → p'.log j = p.log j)
    (hballot : ∀ j, j ≠ id → ∀ t c, p'.ballot j t c → p.ballot j t c)
    (hleader : ∀ j ∈ ids, j ≠ id → (V j).role = .leader →
      p'.leaders.log (V j).currTerm = p.leaders.log (V j).currTerm)
    (hkeep : ∀ t ∈ (V id).elections, t ∈ v.elections)
    (helected : ∀ t, p'.leaders.elected t ↔ p.leaders.elected t ∨ t ∈ v.elections)
    (halone : ids.toFinset.card = 1 → ∀ t, p'.leaders.elected t →
      (p'.leaders.log t).length ≤ p'.adopted id t)
    (hthis : Simulates ids base p' id v) :
    Refines ids (Function.update V id v) calls base p' where
  inv := hinv
  elected := by
    intro t
    rw [helected, h.elected]
    constructor
    · rintro (⟨j, hj, ht⟩ | ht)
      · refine ⟨j, hj, ?_⟩
        by_cases hjid : j = id
        · subst hjid
          rw [Function.update_self]
          exact hkeep t ht
        · rw [Function.update_of_ne hjid]
          exact ht
      · exact ⟨id, hid, by rw [Function.update_self]; exact ht⟩
    · rintro ⟨j, hj, ht⟩
      by_cases hjid : j = id
      · subst hjid
        rw [Function.update_self] at ht
        exact .inr ht
      · rw [Function.update_of_ne hjid] at ht
        exact .inl ⟨j, hj, ht⟩
  server := by
    intro j hj
    by_cases hjid : j = id
    · subst hjid
      rw [Function.update_self]
      exact hthis
    · rw [Function.update_of_ne hjid]
      exact (h.server j hj).mono hgrows (hcurrent j hjid) (hlog j hjid) (hballot j hjid)
        (hleader j hj hjid)
  alone := by
    intro hcard j hj t ht
    obtain ⟨a, ha⟩ := Finset.card_eq_one.mp hcard
    have one : ∀ k ∈ ids, k = a := fun k hk =>
      Finset.mem_singleton.mp (ha ▸ List.mem_toFinset.mpr hk)
    rw [one j hj, ← one id hid]
    exact halone hcard t ht
  request := fun c hc => (h.request c hc).mono hgrows
  answer := fun c hc req res hreq hres hsuccess =>
    (h.answer c hc req res hreq hres hsuccess).trans (hgrows.adopted _ _)

theorem Refines.step (h : Refines ids V calls base p) (hid : id ∈ ids)
    (hinv : p'.Inv Entry.term ids.toFinset base) (hgrows : p.Grows p')
    (hleaders : p'.leaders = p.leaders)
    (hcurrent : ∀ j, j ≠ id → p'.current j = p.current j)
    (hlog : ∀ j, j ≠ id → p'.log j = p.log j)
    (hballot : ∀ j, j ≠ id → ∀ t c, p'.ballot j t c → p.ballot j t c)
    (helections : v.elections = (V id).elections) (hthis : Simulates ids base p' id v) :
    Refines ids (Function.update V id v) calls base p' := by
  refine h.update hid hinv hgrows hcurrent hlog hballot (fun _ _ _ _ => by rw [hleaders])
    (fun t ht => helections ▸ ht) (fun t => ?_) (fun hcard t ht => ?_) hthis
  · rw [hleaders, helections]
    exact ⟨.inl, fun ht => ht.elim (fun h => h) fun ht => (h.elected t).mpr ⟨id, hid, ht⟩⟩
  · rw [hleaders] at ht ⊢
    exact (h.alone hcard id hid t ht).trans (hgrows.adopted id t)

theorem Refines.change (h : Refines ids V calls base p) (hid : id ∈ ids)
    (helections : v.elections = (V id).elections) (hthis : Simulates ids base p id v) :
    Refines ids (Function.update V id v) calls base p :=
  h.step hid h.inv (.refl p) rfl (fun _ _ => rfl) (fun _ _ => rfl) (fun _ _ _ _ hb => hb)
    helections hthis

theorem Refines.send (h : Refines ids V calls base p) {new : List Call}
    (hnew : ∀ c ∈ new, c.response = none ∧ Vouches ids base p c.src c.request) :
    Refines ids V (calls ++ new) base p :=
  { h with
    request := fun c hc => (List.mem_append.mp hc).elim (h.request c) fun hc => (hnew c hc).2
    answer := by
      intro c hc req res hreq hres
      rcases List.mem_append.mp hc with hc | hc
      · exact h.answer c hc req res hreq hres
      · rw [(hnew c hc).1] at hres
        cases hres }

theorem Refines.mark (h : Refines ids V calls base p) {i : Nat} {c : Call}
    (hc : calls[i]? = some c) (response : Option Response) (done : Bool)
    (hanswer : ∀ req res, c.request = .appendEntries req → response = some (.append res) →
      res.success = true → res.matchIndex ≤ p.adopted c.dst req.term) :
    Refines ids V (calls.set i { c with response := response, done := done }) base p :=
  { h with
    request := by
      intro d hd
      rcases List.mem_or_eq_of_mem_set hd with hd | rfl
      · exact h.request d hd
      · exact h.request c (List.mem_of_getElem? hc)
    answer := by
      intro d hd
      rcases List.mem_or_eq_of_mem_set hd with hd | rfl
      · exact h.answer d hd
      · exact hanswer }

/-! ## The steps of one server -/

theorem Refines.follow (h : Refines ids V calls base p) (hid : id ∈ ids) :
    Refines ids (Function.update V id { V id with role := .follower }) calls base p :=
  h.change hid rfl
    { h.server id hid with
      candidate := fun hrole => by cases hrole
      leader := fun hrole => by cases hrole
      matched := fun hrole => by cases hrole }

theorem Refines.newTerm (h : Refines ids V calls base p) (hid : id ∈ ids) {t : Nat}
    (ht : (V id).currTerm < t) (votedFor : Bytes) :
    Refines ids (Function.update V id
      { V id with role := .follower, currTerm := t, votedFor := votedFor }) calls base
      (p.raise id t) := by
  have hserver := h.server id hid
  have hle : p.current id ≤ t := hserver.current ▸ ht.le
  have hgrows : p.Grows (p.raise id t) := Protocol.grows_raise hle
  refine h.step hid (h.inv.raise hle) hgrows rfl (fun j hj => Function.update_of_ne hj ..)
    (fun _ _ => rfl) (fun _ _ _ _ hb => hb) rfl ?_
  exact
    { hserver with
      current := Function.update_self ..
      candidate := fun hrole => by cases hrole
      leader := fun hrole => by cases hrole
      matched := fun hrole => by cases hrole
      committed := hserver.committed.mono hgrows ht.le
      applied := fun a ha => by
        obtain ⟨hpos, q, hq, hentry⟩ := hserver.applied a ha
        exact ⟨hpos, q, hq.mono hgrows ht.le, hentry⟩
      oldest := fun x hx => (hserver.oldest x hx).trans (Nat.succ_le_succ ht.le) }

theorem Refines.campaign (h : Refines ids V calls base p) (hid : id ∈ ids) (votes : Nat) :
    Refines ids (Function.update V id { V id with
      role := .candidate
      currTerm := (V id).currTerm + 1
      votes := votes
      votedFor := id
      ballots := (V id).ballots ++ [((V id).currTerm + 1, id)] }) calls base
      (p.campaign id ((V id).currTerm + 1)) := by
  have hserver := h.server id hid
  have hlt : p.current id < (V id).currTerm + 1 := hserver.current ▸ Nat.lt_succ_self _
  have hgrows := Protocol.grows_campaign h.inv hlt
  refine h.step hid (h.inv.campaign hlt hserver.oldest) hgrows rfl
    (fun j hj => Function.update_of_ne hj ..) (fun _ _ => rfl) ?_ rfl ?_
  · rintro j hj t c (hb | ⟨rfl, -, -⟩)
    · exact hb
    · exact absurd rfl hj
  · exact
      { hserver with
        current := Function.update_self ..
        ballot := fun t c => by
          simp only [Protocol.campaign, hserver.ballot, List.mem_append, List.mem_singleton,
            Prod.mk.injEq, true_and]
        candidate := fun _ => by simp [Protocol.campaign]
        leader := fun hrole => by cases hrole
        matched := fun hrole => by cases hrole
        committed := hserver.committed.mono hgrows (Nat.le_succ _)
        applied := fun a ha => by
          obtain ⟨hpos, q, hq, hentry⟩ := hserver.applied a ha
          exact ⟨hpos, q, hq.mono hgrows (Nat.le_succ _), hentry⟩
        oldest := fun x hx => (hserver.oldest x hx).trans (Nat.le_succ _) }

theorem Refines.vote (h : Refines ids V calls base p) (hid : id ∈ ids) {c : Bytes}
    {g : List Entry} (hfree : ∀ d, ((V id).currTerm, d) ∈ (V id).ballots → d = c)
    (hc : p.candidateLog (V id).currTerm c = some g)
    (hg : UpToDate Entry.term g (p.log id)) :
    Refines ids (Function.update V id { V id with
      votedFor := c
      ballots := (V id).ballots ++ [((V id).currTerm, c)] }) calls base
      (p.addBallot id (V id).currTerm c) := by
  have hserver := h.server id hid
  have hgrows := Protocol.grows_addBallot p id (V id).currTerm c
  refine h.step hid (h.inv.vote hserver.current
    (fun d hd => hfree d ((hserver.ballot _ _).mp hd)) hc hg) hgrows rfl (fun _ _ => rfl)
    (fun _ _ => rfl) ?_ rfl ?_
  · rintro j hj t d (hb | ⟨rfl, -, -⟩)
    · exact hb
    · exact absurd rfl hj
  · exact
      { hserver with
        ballot := fun t d => by
          simp only [Protocol.addBallot, hserver.ballot, List.mem_append, List.mem_singleton,
            Prod.mk.injEq, true_and]
        committed := hserver.committed.mono hgrows le_rfl
        applied := fun a ha => by
          obtain ⟨hpos, q, hq, hentry⟩ := hserver.applied a ha
          exact ⟨hpos, q, hq.mono hgrows le_rfl, hentry⟩ }

theorem Refines.not_elected (h : Refines ids V calls base p) {t : Nat}
    (hopen : ∀ j ∈ ids, t ∉ (V j).elections) : ¬ p.leaders.elected t := by
  rw [h.elected]
  rintro ⟨j, hj, hmem⟩
  exact hopen j hj hmem

theorem Refines.lead (h : Refines ids V calls base p) (hid : id ∈ ids)
    (hrole : (V id).role = .candidate) {Q : Finset Bytes} (hQ : IsMajority ids.toFinset Q)
    (hvotes : ∀ n ∈ Q, ((V id).currTerm, id) ∈ (V n).ballots)
    (hopen : ∀ j ∈ ids, (V id).currTerm ∉ (V j).elections)
    (hwon : ∀ j ∈ ids, (V j).role = .leader → (V j).currTerm ∈ (V j).elections)
    {cluster : List (Bytes × Node)} (hcluster : ∀ q ∈ cluster, q.2.matchIndex = 0) :
    Refines ids (Function.update V id { V id with
      role := .leader
      elections := (V id).elections ++ [(V id).currTerm]
      cluster := cluster }) calls base
      ((p.elect (V id).currTerm (p.log id)).adopt id (V id).currTerm (p.log id).length) := by
  have hserver := h.server id hid
  have hnew := h.not_elected hopen
  let p₁ := p.elect (V id).currTerm (p.log id)
  have hgrows₁ : p.Grows p₁ := Protocol.grows_elect hnew
  have hinv₁ : p₁.Inv Entry.term ids.toFinset base :=
    h.inv.elect (hserver.candidate hrole) hQ
      (fun n hn => ((h.server n (List.mem_toFinset.mp (hQ.1 hn))).ballot _ _).mpr (hvotes n hn)) hnew
  have hself : p₁.leaders.log (V id).currTerm = p.log id := Protocol.elect_log_self
  have hgrows : p.Grows (p₁.adopt id (V id).currTerm (p.log id).length) :=
    hgrows₁.trans (Protocol.grows_adopt p₁ _ _ _)
  have hlog : (p₁.adopt id (V id).currTerm (p.log id).length).log id = p.log id := by
    rw [Protocol.adopt_log_self, hself, List.take_length]
  have hadopted : (p.log id).length ≤
      (p₁.adopt id (V id).currTerm (p.log id).length).adopted id (V id).currTerm := by
    rw [Protocol.adopt_adopted_self]
    exact le_max_right _ _
  have hholds : (V id).log.Holds
      ((p₁.adopt id (V id).currTerm (p.log id).length).log id) := by
    rw [hlog]
    exact hserver.holds
  have hcommit : (V id).commitIndex ≤
      ((p₁.adopt id (V id).currTerm (p.log id).length).log id).length := by
    rw [hlog]
    exact hserver.commit_le
  have hcommitted : Decides ids base (p₁.adopt id (V id).currTerm (p.log id).length)
      (V id).currTerm (((p₁.adopt id (V id).currTerm (p.log id).length).log id).take
        (V id).commitIndex) := by
    rw [hlog]
    exact hserver.committed.mono hgrows le_rfl
  refine h.update hid
    (hinv₁.adopt hserver.current (.inr rfl) (by rw [hself]) fun _ => le_rfl) hgrows
    (fun _ _ => rfl) (fun j hj => Protocol.adopt_log_of_ne hj) (fun _ _ _ _ hb => hb) ?_
    (fun t ht => List.mem_append_left _ ht) ?_ ?_ ?_
  · intro j hj _ hjrole
    exact Protocol.elect_log_of_ne fun heq => hopen j hj (heq ▸ hwon j hj hjrole)
  · intro t
    constructor
    · rintro (ht | rfl)
      · exact .inl ht
      · exact .inr (List.mem_append_right _ (List.mem_singleton_self _))
    · rintro (ht | ht)
      · exact .inl ht
      · rcases List.mem_append.mp ht with ht | ht
        · exact .inl ((h.elected t).mpr ⟨id, hid, ht⟩)
        · exact .inr (List.mem_singleton.mp ht)
  · intro hcard t ht
    by_cases heq : t = (V id).currTerm
    · rw [heq]
      exact (Nat.le_of_eq (congrArg List.length hself)).trans hadopted
    · have hold := h.alone hcard id hid t (ht.resolve_right heq)
      exact (Nat.le_of_eq (congrArg List.length (Protocol.elect_log_of_ne heq))).trans
        (hold.trans (hgrows.adopted id t))
  · exact
      { current := hserver.current
        holds := hholds
        ballot := hserver.ballot
        candidate := fun hrole => by cases hrole
        leader := fun _ => ⟨hlog.trans hself.symm, by rw [hlog]; exact hadopted⟩
        matched := fun _ q hq => by rw [hcluster q hq]; exact Nat.zero_le _
        compacted := hserver.compacted
        commit_le := hcommit
        committed := hcommitted
        applied := fun a ha => by
          obtain ⟨hpos, q, hq, hentry⟩ := hserver.applied a ha
          exact ⟨hpos, q, hq.mono hgrows le_rfl, hentry⟩
        oldest := hserver.oldest }

theorem Refines.adopt (h : Refines ids V calls base p) (hid : id ∈ ids)
    (hrole : (V id).role = .follower) (helected : p.leaders.elected (V id).currTerm) {k : Nat}
    (hk : k ≤ (p.leaders.log (V id).currTerm).length)
    (hkeep : (p.leaders.log (V id).currTerm).take k <+: p.log id → (p.log id).length ≤ k)
    {log : EntryLogger} {commitIndex : Nat}
    (hlog : log.Holds ((p.leaders.log (V id).currTerm).take k))
    (hbase : log.lastIndex ≤ commitIndex) (hcommit : commitIndex ≤ k)
    (hdecided : Decides ids base p (V id).currTerm
      ((p.leaders.log (V id).currTerm).take commitIndex))
    (lastApplied : Nat) (cluster : List (Bytes × Node)) :
    Refines ids (Function.update V id { V id with
      log := log
      commitIndex := commitIndex
      lastApplied := lastApplied
      cluster := cluster }) calls base (p.adopt id (V id).currTerm k) := by
  have hserver := h.server id hid
  have hgrows := Protocol.grows_adopt p id (V id).currTerm k
  have hself : (p.adopt id (V id).currTerm k).log id =
      (p.leaders.log (V id).currTerm).take k := Protocol.adopt_log_self
  have absurdRole : ∀ {r : Role} {P : Prop}, r ≠ .follower → (V id).role = r → P :=
    fun hne heq => absurd (heq.symm.trans hrole) hne
  refine h.step hid (h.inv.adopt hserver.current helected hk hkeep) hgrows rfl (fun _ _ => rfl)
    (fun j hj => Protocol.adopt_log_of_ne hj) (fun _ _ _ _ hb => hb) rfl ?_
  exact
    { current := hserver.current
      holds := hself ▸ hlog
      ballot := hserver.ballot
      candidate := absurdRole (by simp)
      leader := absurdRole (by simp)
      matched := absurdRole (by simp)
      compacted := hbase
      commit_le := by
        rw [hself, List.length_take, Nat.min_eq_left hk]
        exact hcommit
      committed := by
        rw [hself, List.take_take, Nat.min_eq_left hcommit]
        exact hdecided.mono hgrows le_rfl
      applied := fun a ha => by
        obtain ⟨hpos, q, hq, hentry⟩ := hserver.applied a ha
        exact ⟨hpos, q, hq.mono hgrows le_rfl, hentry⟩
      oldest := hserver.oldest }

theorem Refines.extend (h : Refines ids V calls base p) (hid : id ∈ ids)
    (hrole : (V id).role = .leader) (hwon : (V id).currTerm ∈ (V id).elections)
    (hone : ∀ j ∈ ids, j ≠ id → (V j).role = .leader → (V j).currTerm ≠ (V id).currTerm)
    {x : Entry} (hx : x.term = (V id).currTerm) {log : EntryLogger}
    (hlast : log.lastIndex = (V id).log.lastIndex) (hlog : log.Holds (p.log id ++ [x])) :
    Refines ids (Function.update V id { V id with log := log }) calls base
      (p.extend id (V id).currTerm x) := by
  have hserver := h.server id hid
  have hleads := hserver.leader hrole
  have helected : p.leaders.elected (V id).currTerm := (h.elected _).mpr ⟨id, hid, hwon⟩
  have hgrows := Protocol.grows_extend h.inv id (V id).currTerm x
  have hself : (p.extend id (V id).currTerm x).log id = p.log id ++ [x] := by
    rw [Protocol.extend_log_self, hleads.1]
  refine h.update hid (h.inv.extend hserver.current helected hleads.1 hx) hgrows
    (fun _ _ => rfl) (fun j hj => Protocol.extend_log_of_ne hj) (fun _ _ _ _ hb => hb)
    (fun j hj hne hjrole => Protocol.extend_leader_of_ne (hone j hj hne hjrole)) (fun _ ht => ht)
    (fun t => ?_) (fun hcard t ht => ?_) ?_
  · exact ⟨.inl, fun ht => ht.elim (fun h => h) fun ht => (h.elected t).mpr ⟨id, hid, ht⟩⟩
  · by_cases heq : t = (V id).currTerm
    · rw [heq, Protocol.extend_leader_self, Protocol.extend_adopted_self]
      simp
    · rw [Protocol.extend_leader_of_ne heq, Protocol.extend_adopted_of_ne (by simp [heq])]
      exact h.alone hcard id hid t ht
  · exact
      { current := hserver.current
        holds := hself ▸ hlog
        ballot := hserver.ballot
        candidate := fun hcandidate => absurd (hcandidate.symm.trans hrole) (by simp)
        leader := fun _ => by
          rw [Protocol.extend_log_self, Protocol.extend_leader_self,
            Protocol.extend_adopted_self]
          simp
        matched := fun hrole q hq => (hserver.matched hrole q hq).trans (hgrows.adopted _ _)
        compacted := hlast ▸ hserver.compacted
        commit_le := by
          rw [hself, List.length_append]
          exact Nat.le_add_right_of_le hserver.commit_le
        committed := by
          rw [hself, List.take_append_of_le_length hserver.commit_le]
          exact hserver.committed.mono hgrows le_rfl
        applied := fun a ha => by
          obtain ⟨hpos, q, hq, hentry⟩ := hserver.applied a ha
          exact ⟨hpos, q, hq.mono hgrows le_rfl, hentry⟩
        oldest := hserver.oldest }

theorem Refines.replica (h : Refines ids V calls base p) (hid : id ∈ ids) {r : Replica}
    (hholds : r.log.Holds (p.log id)) (hbase : r.log.lastIndex ≤ r.commitIndex)
    (hle : r.commitIndex ≤ (p.log id).length)
    (hcommitted : Decides ids base p (V id).currTerm ((p.log id).take r.commitIndex))
    (happlied : ∀ a ∈ r.applied, a ∈ (V id).applied ∨ 0 < a.1 ∧
      ∃ q, Decides ids base p (V id).currTerm q ∧ q[a.1 - 1]? = some a.2.toEntry) :
    Refines ids (Function.update V id { V id with toReplica := r }) calls base p := by
  have hserver := h.server id hid
  exact h.change hid rfl
    { hserver with
      holds := hholds
      compacted := hbase
      commit_le := hle
      committed := hcommitted
      applied := fun a ha => (happlied a ha).elim (hserver.applied a) fun h => h }

theorem Refines.cluster (h : Refines ids V calls base p) (hid : id ∈ ids)
    (cluster : List (Bytes × Node)) (hmatched : (V id).role = .leader →
      ∀ q ∈ cluster, q.2.matchIndex ≤ p.adopted q.2.id (V id).currTerm) :
    Refines ids (Function.update V id { V id with cluster := cluster }) calls base p :=
  h.change hid rfl { h.server id hid with matched := hmatched }

end

end Draft
