import Mathlib.Data.Finset.Card
import Mathlib.Data.List.Pairwise
import Mathlib.Logic.Function.Basic
import Draft.Consensus.Majority
import Draft.Raft.Cluster

/-!
# Voting

What the votes of a fixed set of servers and the calls between them have in
common in every state: a server gives one vote a term, a granted response is a
vote that was given, and a candidate has not counted more votes than servers
gave it.  The changes a move makes to terms, votes and calls keep this.
-/

namespace Draft

open Consensus

def Call.ballot (c : Call) : Option (Bytes × Bytes × Nat) :=
  match c.request with
  | .requestVote req => some (c.src, c.dst, req.term)
  | _ => none

def Call.granted (c : Call) : Prop :=
  ∃ res, c.response = some (.vote res) ∧ res.voteGranted = true

private theorem Call.ballot_requestVote {c : Call} {req : VoteReq} (h : c.request = .requestVote req) :
    c.ballot = some (c.src, c.dst, req.term) := by
  simp [Call.ballot, h]

theorem Call.exists_of_ballot {c : Call} {src dst : Bytes} {t : Nat}
    (h : c.ballot = some (src, dst, t)) :
    c.src = src ∧ c.dst = dst ∧ ∃ req, c.request = .requestVote req ∧ req.term = t := by
  unfold Call.ballot at h
  split at h
  · rename_i req hreq
    obtain ⟨rfl, rfl, rfl⟩ : c.src = src ∧ c.dst = dst ∧ req.term = t := by simpa using h
    exact ⟨rfl, rfl, req, hreq, rfl⟩
  · cases h

/-- Server `n` counts for the candidate `s`: it is `s`, or its vote has come back. -/
def Supports (calls : List Call) (s : Bytes) (t : Nat) (n : Bytes) : Prop :=
  n = s ∨ ∃ c ∈ calls, c.done = true ∧ c.ballot = some (s, n, t) ∧ c.granted

structure Voting (ids : List Bytes) (E : Bytes → Election) (calls : List Call) : Prop where
  cast : ∀ v ∈ ids, ∀ b ∈ (E v).ballots,
    b.1 ≤ (E v).currTerm ∧ (b.1 = (E v).currTerm → (E v).votedFor = b.2) ∧ b.2 ≠ []
  unique : ∀ v ∈ ids, ∀ t c d, (t, c) ∈ (E v).ballots → (t, d) ∈ (E v).ballots → c = d
  asked : ∀ c ∈ calls, ∀ req, c.request = .requestVote req →
    req.candidateId = c.src ∧ c.src ∈ ids ∧ c.dst ∈ ids ∧ c.dst ≠ c.src ∧
      req.term ≤ (E c.src).currTerm
  once : (calls.filterMap Call.ballot).Nodup
  granted : ∀ c ∈ calls, ∀ req res, c.request = .requestVote req →
    c.response = some (.vote res) → res.voteGranted = true →
    res.term = req.term ∧ (req.term, c.src) ∈ (E c.dst).ballots
  candidate : ∀ s ∈ ids, (E s).role = .candidate →
    ((E s).currTerm, s) ∈ (E s).ballots ∧ (E s).currTerm ∉ (E s).elections ∧
      ∃ Q ⊆ ids.toFinset, (E s).votes ≤ Q.card ∧ ∀ n ∈ Q, Supports calls s (E s).currTerm n
  reached : ∀ s ∈ ids, ∀ t ∈ (E s).elections, t ≤ (E s).currTerm
  won : ∀ s ∈ ids, ∀ t ∈ (E s).elections,
    ∃ Q, IsMajority ids.toFinset Q ∧ ∀ n ∈ Q, (t, s) ∈ (E n).ballots
  leader : ∀ s ∈ ids, (E s).role = .leader → (E s).currTerm ∈ (E s).elections

namespace Voting

variable {ids : List Bytes} {E : Bytes → Election} {calls : List Call}

theorem supports_ballot (h : Voting ids E calls) {s n : Bytes} (hs : s ∈ ids)
    (hrole : (E s).role = .candidate) (hn : Supports calls s (E s).currTerm n) :
    ((E s).currTerm, s) ∈ (E n).ballots := by
  rcases hn with rfl | ⟨c, hc, -, hb, res, hres, hgranted⟩
  · exact (h.candidate n hs hrole).1
  · obtain ⟨rfl, rfl, req, hreq, hterm⟩ := Call.exists_of_ballot hb
    exact hterm ▸ (h.granted c hc req res hreq hres hgranted).2

/-! ## One server changes -/

/--
A server moves on: it keeps its ballots and its term does not fall.  What has
to be known of the new state is what the invariant says about this server.
-/
theorem update (h : Voting ids E calls) {id : Bytes} {e : Election}
    (hterm : (E id).currTerm ≤ e.currTerm) (hkeep : ∀ b ∈ (E id).ballots, b ∈ e.ballots)
    (hcast : ∀ b ∈ e.ballots,
      b.1 ≤ e.currTerm ∧ (b.1 = e.currTerm → e.votedFor = b.2) ∧ b.2 ≠ [])
    (hunique : ∀ t c d, (t, c) ∈ e.ballots → (t, d) ∈ e.ballots → c = d)
    (hcandidate : e.role = .candidate →
      (e.currTerm, id) ∈ e.ballots ∧ e.currTerm ∉ e.elections ∧
        ∃ Q ⊆ ids.toFinset, e.votes ≤ Q.card ∧ ∀ n ∈ Q, Supports calls id e.currTerm n)
    (hwon : ∀ t ∈ e.elections, t ∈ (E id).elections ∨
      t ≤ e.currTerm ∧ ∃ Q, IsMajority ids.toFinset Q ∧ ∀ n ∈ Q, (t, id) ∈ (E n).ballots)
    (hleader : e.role = .leader → e.currTerm ∈ e.elections) (hid : id ∈ ids) :
    Voting ids (Function.update E id e) calls := by
  have each : ∀ {P : Bytes → Election → Prop}, (∀ v ∈ ids, P v (E v)) → P id e →
      ∀ v ∈ ids, P v (Function.update E id e v) := by
    intro P hold hthis v hv
    by_cases hvid : v = id
    · subst hvid
      rw [Function.update_self]
      exact hthis
    · rw [Function.update_of_ne hvid]
      exact hold v hv
  have ballots : ∀ n, ∀ b ∈ (E n).ballots, b ∈ (Function.update E id e n).ballots := by
    intro n b hb
    by_cases hn : n = id
    · subst hn
      rw [Function.update_self]
      exact hkeep b hb
    · rw [Function.update_of_ne hn]
      exact hb
  have terms : ∀ n, (E n).currTerm ≤ (Function.update E id e n).currTerm := by
    intro n
    by_cases hn : n = id
    · subst hn
      rw [Function.update_self]
      exact hterm
    · rw [Function.update_of_ne hn]
  have majority : ∀ {t : Nat} {s : Bytes},
      (∃ Q, IsMajority ids.toFinset Q ∧ ∀ n ∈ Q, (t, s) ∈ (E n).ballots) →
      ∃ Q, IsMajority ids.toFinset Q ∧
        ∀ n ∈ Q, (t, s) ∈ (Function.update E id e n).ballots := by
    rintro t s ⟨Q, hQ, hvotes⟩
    exact ⟨Q, hQ, fun n hn => ballots n _ (hvotes n hn)⟩
  exact
    { cast := each (P := fun _ f => ∀ b ∈ f.ballots,
        b.1 ≤ f.currTerm ∧ (b.1 = f.currTerm → f.votedFor = b.2) ∧ b.2 ≠ []) h.cast hcast
      unique := each (P := fun _ f => ∀ t c d,
        (t, c) ∈ f.ballots → (t, d) ∈ f.ballots → c = d) h.unique hunique
      asked := by
        intro c hc req hreq
        obtain ⟨h₁, h₂, h₃, h₄, h₅⟩ := h.asked c hc req hreq
        exact ⟨h₁, h₂, h₃, h₄, h₅.trans (terms _)⟩
      once := h.once
      granted := by
        intro c hc req res hreq hres hgranted
        obtain ⟨h₁, h₂⟩ := h.granted c hc req res hreq hres hgranted
        exact ⟨h₁, ballots _ _ h₂⟩
      candidate := each (P := fun s f => f.role = .candidate →
        (f.currTerm, s) ∈ f.ballots ∧ f.currTerm ∉ f.elections ∧
          ∃ Q ⊆ ids.toFinset, f.votes ≤ Q.card ∧ ∀ n ∈ Q, Supports calls s f.currTerm n)
        h.candidate hcandidate
      reached := by
        refine each (P := fun _ f => ∀ t ∈ f.elections, t ≤ f.currTerm) h.reached ?_
        intro t ht
        rcases hwon t ht with hold | hnew
        · exact (h.reached id hid t hold).trans hterm
        · exact hnew.1
      won := by
        intro s hs t ht
        by_cases hsid : s = id
        · subst hsid
          rw [Function.update_self] at ht
          rcases hwon t ht with hold | hnew
          · exact majority (h.won s hs t hold)
          · exact majority hnew.2
        · rw [Function.update_of_ne hsid] at ht
          exact majority (h.won s hs t ht)
      leader := each (P := fun _ f => f.role = .leader → f.currTerm ∈ f.elections)
        h.leader hleader }

theorem follow (h : Voting ids E calls) {id : Bytes} (hid : id ∈ ids) :
    Voting ids (Function.update E id { E id with role := .follower }) calls :=
  h.update le_rfl (fun _ hb => hb) (h.cast id hid) (h.unique id hid)
    (fun hrole => by cases hrole) (fun _ ht => .inl ht) (fun hrole => by cases hrole) hid

theorem newTerm (h : Voting ids E calls) {id : Bytes} (hid : id ∈ ids) {t : Nat}
    (ht : (E id).currTerm < t) (votedFor : Bytes) :
    Voting ids (Function.update E id
      { E id with role := .follower, currTerm := t, votedFor := votedFor }) calls := by
  refine h.update ht.le (fun _ hb => hb) ?_ (h.unique id hid)
    (fun hrole => by cases hrole) (fun _ ht => .inl ht) (fun hrole => by cases hrole) hid
  intro b hb
  obtain ⟨hle, -, hne⟩ := h.cast id hid b hb
  have hlt : b.1 < t := hle.trans_lt ht
  exact ⟨hlt.le, fun heq => absurd heq hlt.ne, hne⟩

theorem vote (h : Voting ids E calls) {id : Bytes} (hid : id ∈ ids) {candidate : Bytes}
    (hne : candidate ≠ []) (hfree : (E id).votedFor = [] ∨ (E id).votedFor = candidate) :
    Voting ids (Function.update E id { E id with
      votedFor := candidate
      ballots := (E id).ballots ++ [((E id).currTerm, candidate)] }) calls := by
  have voted : ∀ c, ((E id).currTerm, c) ∈ (E id).ballots → c = candidate := by
    intro c hc
    obtain ⟨-, hvoted, hcne⟩ := h.cast id hid _ hc
    have hvoted : (E id).votedFor = c := hvoted rfl
    rcases hfree with hnil | hsame
    · exact absurd (hvoted.symm.trans hnil) hcne
    · exact hvoted.symm.trans hsame
  have new : ∀ b, b ∈ (E id).ballots ++ [((E id).currTerm, candidate)] →
      b ∈ (E id).ballots ∨ b = ((E id).currTerm, candidate) := by
    intro b hb
    simpa using hb
  refine h.update le_rfl (fun _ hb => List.mem_append_left _ hb) ?_ ?_ ?_ (fun _ ht => .inl ht)
    (h.leader id hid) hid
  · intro b hb
    rcases new b hb with hold | rfl
    · obtain ⟨hle, -, hbne⟩ := h.cast id hid b hold
      exact ⟨hle, fun heq => (voted b.2 (heq ▸ hold)).symm, hbne⟩
    · exact ⟨le_rfl, fun _ => rfl, hne⟩
  · intro t c d hc hd
    rcases new _ hc with hold | hc <;> rcases new _ hd with hold' | hd
    · exact h.unique id hid t c d hold hold'
    · obtain ⟨rfl, rfl⟩ := Prod.mk.inj hd
      exact voted c hold
    · obtain ⟨rfl, rfl⟩ := Prod.mk.inj hc
      exact (voted d hold').symm
    · exact (Prod.mk.inj hc).2.trans (Prod.mk.inj hd).2.symm
  · intro hrole
    obtain ⟨hself, hnew, hQ⟩ := h.candidate id hid hrole
    exact ⟨List.mem_append_left _ hself, hnew, hQ⟩

theorem campaign (h : Voting ids E calls) {id : Bytes} (hid : id ∈ ids) (hne : id ≠ [])
    {votes : Nat} (hvotes : votes ≤ 1) :
    Voting ids (Function.update E id { E id with
      role := .candidate
      currTerm := (E id).currTerm + 1
      votes := votes
      votedFor := id
      ballots := (E id).ballots ++ [((E id).currTerm + 1, id)] }) calls := by
  have older : ∀ b ∈ (E id).ballots, b.1 < (E id).currTerm + 1 :=
    fun b hb => Nat.lt_succ_of_le (h.cast id hid b hb).1
  have new : ∀ b, b ∈ (E id).ballots ++ [((E id).currTerm + 1, id)] →
      b ∈ (E id).ballots ∨ b = ((E id).currTerm + 1, id) := by
    intro b hb
    simpa using hb
  refine h.update (Nat.le_succ _) (fun _ hb => List.mem_append_left _ hb) ?_ ?_ ?_
    (fun _ ht => .inl ht) (fun hrole => by cases hrole) hid
  · intro b hb
    rcases new b hb with hold | rfl
    · exact ⟨(older b hold).le, fun heq => absurd heq (older b hold).ne,
        (h.cast id hid b hold).2.2⟩
    · exact ⟨le_rfl, fun _ => rfl, hne⟩
  · intro t c d hc hd
    rcases new _ hc with hold | hc <;> rcases new _ hd with hold' | hd
    · exact h.unique id hid t c d hold hold'
    · exact absurd (Prod.mk.inj hd).1 (older _ hold).ne
    · exact absurd (Prod.mk.inj hc).1 (older _ hold').ne
    · exact (Prod.mk.inj hc).2.trans (Prod.mk.inj hd).2.symm
  · intro _
    refine ⟨List.mem_append_right _ (List.mem_singleton_self _), ?_, {id}, ?_, ?_, ?_⟩
    · exact fun hwon => absurd (h.reached id hid _ hwon) (Nat.not_succ_le_self _)
    · simpa using hid
    · simpa using hvotes
    · intro n hn
      exact .inl (Finset.mem_singleton.mp hn)

theorem lead (h : Voting ids E calls) {id : Bytes} (hid : id ∈ ids)
    (hrole : (E id).role = .candidate) (hvotes : ids.toFinset.card / 2 < (E id).votes) :
    Voting ids (Function.update E id { E id with
      role := .leader
      elections := (E id).elections ++ [(E id).currTerm] }) calls := by
  refine h.update le_rfl (fun _ hb => hb) (h.cast id hid) (h.unique id hid)
    (fun hrole => by cases hrole) ?_ (fun _ => List.mem_append_right _ (List.mem_singleton_self _))
    hid
  intro t ht
  rcases List.mem_append.mp ht with hold | hnew
  · exact .inl hold
  · obtain rfl := List.mem_singleton.mp hnew
    obtain ⟨-, -, Q, hQ, hcard, hsupport⟩ := h.candidate id hid hrole
    refine .inr ⟨le_rfl, Q, ⟨hQ, by omega⟩, fun n hn => ?_⟩
    exact h.supports_ballot hid hrole (hsupport n hn)

/-! ## The calls change -/

theorem Supports.mono {calls calls' : List Call} (h : ∀ c ∈ calls, c.done = true → c.granted →
    ∃ c' ∈ calls', c'.done = true ∧ c'.ballot = c.ballot ∧ c'.granted) {s n : Bytes} {t : Nat}
    (hn : Supports calls s t n) : Supports calls' s t n := by
  rcases hn with hself | ⟨c, hc, hdone, hb, hgranted⟩
  · exact .inl hself
  · obtain ⟨c', hc', hdone', hb', hgranted'⟩ := h c hc hdone hgranted
    exact .inr ⟨c', hc', hdone', hb'.trans hb, hgranted'⟩

theorem send (h : Voting ids E calls) {new : List Call}
    (hasked : ∀ c ∈ new, ∀ req, c.request = .requestVote req →
      req.candidateId = c.src ∧ c.src ∈ ids ∧ c.dst ∈ ids ∧ c.dst ≠ c.src ∧
        req.term ≤ (E c.src).currTerm)
    (hresponse : ∀ c ∈ new, c.response = none)
    (hnew : (new.filterMap Call.ballot).Nodup)
    (hfresh : ∀ b ∈ calls.filterMap Call.ballot, b ∉ new.filterMap Call.ballot) :
    Voting ids E (calls ++ new) where
  cast := h.cast
  unique := h.unique
  asked := by
    intro c hc
    rcases List.mem_append.mp hc with hc | hc
    · exact h.asked c hc
    · exact hasked c hc
  once := by
    rw [List.filterMap_append]
    exact h.once.append hnew fun b hb hb' => hfresh b hb hb'
  granted := by
    intro c hc req res hreq hres
    rcases List.mem_append.mp hc with hc | hc
    · exact h.granted c hc req res hreq hres
    · rw [hresponse c hc] at hres
      cases hres
  candidate := by
    intro s hs hrole
    obtain ⟨hself, hnew, Q, hQ, hcard, hsupport⟩ := h.candidate s hs hrole
    refine ⟨hself, hnew, Q, hQ, hcard, fun n hn => Supports.mono ?_ (hsupport n hn)⟩
    exact fun c hc hdone hgranted => ⟨c, List.mem_append_left _ hc, hdone, rfl, hgranted⟩
  reached := h.reached
  won := h.won
  leader := h.leader

private theorem ballots_set {i : Nat} {c c' : Call} (hc : calls[i]? = some c)
    (hballot : c'.ballot = c.ballot) :
    (calls.set i c').filterMap Call.ballot = calls.filterMap Call.ballot := by
  induction calls generalizing i with
  | nil => rfl
  | cons d rest ih =>
      cases i with
      | zero =>
          obtain rfl : d = c := by simpa using hc
          simp [List.filterMap_cons, hballot]
      | succ i => simp [List.filterMap_cons, ih (by simpa using hc)]

private theorem mem_set_cases {i : Nat} {c' d : Call} (hd : d ∈ calls.set i c') :
    d ∈ calls ∨ d = c' := by
  rcases List.mem_or_eq_of_mem_set hd with hd | hd
  · exact .inl hd
  · exact .inr hd

private theorem mem_set_of_ne {i : Nat} {c c' d : Call} (hc : calls[i]? = some c) (hd : d ∈ calls)
    (hne : d ≠ c) : d ∈ calls.set i c' := by
  obtain ⟨j, hj⟩ := List.getElem?_of_mem hd
  have hij : i ≠ j := by
    rintro rfl
    exact hne (Option.some.inj (hj.symm.trans hc))
  refine List.mem_of_getElem? (i := j) ?_
  rw [List.getElem?_set_ne hij]
  exact hj

private theorem mem_set_self {i : Nat} {c c' : Call} (hc : calls[i]? = some c) :
    c' ∈ calls.set i c' := by
  obtain ⟨hi, -⟩ := List.getElem?_eq_some_iff.mp hc
  exact List.mem_set hi c'

theorem respond (h : Voting ids E calls) {i : Nat} {c : Call} {res : Response}
    (hc : calls[i]? = some c) (hnone : c.response = none)
    (hvote : ∀ req v, c.request = .requestVote req → res = .vote v → v.voteGranted = true →
      v.term = req.term ∧ (req.term, c.src) ∈ (E c.dst).ballots) :
    Voting ids E (calls.set i { c with response := some res }) where
  cast := h.cast
  unique := h.unique
  asked := by
    intro d hd
    rcases mem_set_cases hd with hd | rfl
    · exact h.asked d hd
    · exact h.asked c (List.mem_of_getElem? hc)
  once := by
    rw [ballots_set hc (rfl : Call.ballot { c with response := some res } = c.ballot)]
    exact h.once
  granted := by
    intro d hd req v hreq hres
    rcases mem_set_cases hd with hd | rfl
    · exact h.granted d hd req v hreq hres
    · exact hvote req v hreq (Option.some.inj hres)
  candidate := by
    intro s hs hrole
    obtain ⟨hself, hnew, Q, hQ, hcard, hsupport⟩ := h.candidate s hs hrole
    refine ⟨hself, hnew, Q, hQ, hcard, fun n hn => Supports.mono ?_ (hsupport n hn)⟩
    intro d hd hdone hgranted
    have hne : d ≠ c := by
      rintro rfl
      obtain ⟨v, hv, -⟩ := hgranted
      rw [hnone] at hv
      cases hv
    exact ⟨d, mem_set_of_ne hc hd hne, hdone, rfl, hgranted⟩
  reached := h.reached
  won := h.won
  leader := h.leader

theorem finish (h : Voting ids E calls) {i : Nat} {c : Call} (hc : calls[i]? = some c) :
    Voting ids E (calls.set i { c with done := true }) where
  cast := h.cast
  unique := h.unique
  asked := by
    intro d hd
    rcases mem_set_cases hd with hd | rfl
    · exact h.asked d hd
    · exact h.asked c (List.mem_of_getElem? hc)
  once := by
    rw [ballots_set hc (rfl : Call.ballot { c with done := true } = c.ballot)]
    exact h.once
  granted := by
    intro d hd
    rcases mem_set_cases hd with hd | rfl
    · exact h.granted d hd
    · exact h.granted c (List.mem_of_getElem? hc)
  candidate := by
    intro s hs hrole
    obtain ⟨hself, hnew, Q, hQ, hcard, hsupport⟩ := h.candidate s hs hrole
    refine ⟨hself, hnew, Q, hQ, hcard, fun n hn => Supports.mono ?_ (hsupport n hn)⟩
    intro d hd hdone hgranted
    by_cases hne : d = c
    · subst hne
      exact ⟨_, mem_set_self hc, rfl, rfl, hgranted⟩
    · exact ⟨d, mem_set_of_ne hc hd hne, hdone, rfl, hgranted⟩
  reached := h.reached
  won := h.won
  leader := h.leader

/-! ## A vote is counted -/

private theorem ballot_position {i j : Nat} {c d : Call} {b : Bytes × Bytes × Nat}
    (h : (calls.filterMap Call.ballot).Nodup) (hc : calls[i]? = some c)
    (hd : calls[j]? = some d) (hcb : c.ballot = some b) (hdb : d.ballot = some b) : i = j := by
  obtain ⟨hi, rfl⟩ := List.getElem?_eq_some_iff.mp hc
  obtain ⟨hj, rfl⟩ := List.getElem?_eq_some_iff.mp hd
  have hpair := List.pairwise_iff_getElem.mp (List.pairwise_filterMap.mp h)
  rcases Nat.lt_trichotomy i j with hlt | heq | hgt
  · exact absurd rfl (hpair i j hi hj hlt b hcb b hdb)
  · exact heq
  · exact absurd rfl (hpair j i hj hi hgt b hdb b hcb)

theorem count (h : Voting ids E calls) {i : Nat} {c : Call} {req : VoteReq} {v : VoteRes}
    (hc : calls[i]? = some c) (hdone : c.done = false) (hreq : c.request = .requestVote req)
    (hres : c.response = some (.vote v)) (hgranted : v.voteGranted = true)
    (hrole : (E c.src).role = .candidate) (hterm : (E c.src).currTerm ≤ v.term) :
    Voting ids (Function.update E c.src { E c.src with votes := (E c.src).votes + 1 })
      (calls.set i { c with done := true }) := by
  have hmem := List.mem_of_getElem? hc
  obtain ⟨-, hsrc, hdst, hne, hle⟩ := h.asked c hmem req hreq
  have hvterm := (h.granted c hmem req v hreq hres hgranted).1
  have hballot : c.ballot = some (c.src, c.dst, (E c.src).currTerm) := by
    rw [Call.ballot_requestVote hreq, show req.term = (E c.src).currTerm by omega]
  have hfinish := h.finish hc
  obtain ⟨hself, hwon, Q, hQ, hcard, hold⟩ := h.candidate c.src hsrc hrole
  have hnew : c.dst ∉ Q := by
    intro hin
    rcases hold c.dst hin with heq | ⟨d, hd, hddone, hdb, -⟩
    · exact hne heq
    · obtain ⟨j, hj⟩ := List.getElem?_of_mem hd
      have hij := ballot_position h.once hc hj hballot hdb
      subst hij
      obtain rfl := Option.some.inj (hc.symm.trans hj)
      rw [hdone] at hddone
      cases hddone
  refine hfinish.update le_rfl (fun _ hb => hb) (hfinish.cast c.src hsrc)
    (hfinish.unique c.src hsrc) (fun _ => ⟨hself, hwon, insert c.dst Q, ?_, ?_, ?_⟩)
    (fun _ ht => .inl ht) (hfinish.leader c.src hsrc) hsrc
  · exact Finset.insert_subset (List.mem_toFinset.mpr hdst) hQ
  · rw [Finset.card_insert_of_notMem hnew]
    dsimp only
    omega
  · intro n hn
    rcases Finset.mem_insert.mp hn with rfl | hn
    · exact .inr ⟨_, mem_set_self hc, rfl, hballot, v, hres, hgranted⟩
    · refine Supports.mono ?_ (hold n hn)
      intro d hd hddone hdgranted
      have hdc : d ≠ c := by
        rintro rfl
        rw [hdone] at hddone
        cases hddone
      exact ⟨d, mem_set_of_ne hc hd hdc, hddone, rfl, hdgranted⟩

/-! ## Election safety -/

theorem winner_unique (h : Voting ids E calls) {s s' : Bytes} (hs : s ∈ ids) (hs' : s' ∈ ids)
    {t : Nat} (ht : t ∈ (E s).elections) (ht' : t ∈ (E s').elections) : s = s' := by
  obtain ⟨Q, hQ, hvotes⟩ := h.won s hs t ht
  obtain ⟨Q', hQ', hvotes'⟩ := h.won s' hs' t ht'
  obtain ⟨n, hn, hn'⟩ := hQ.meet hQ'
  have hnid : n ∈ ids := List.mem_toFinset.mp (hQ.1 hn)
  exact h.unique n hnid t s s' (hvotes n hn) (hvotes' n hn')

theorem term_open (h : Voting ids E calls) {id : Bytes} (hid : id ∈ ids)
    (hrole : (E id).role = .candidate) (hvotes : ids.toFinset.card / 2 < (E id).votes) :
    ∀ s ∈ ids, (E id).currTerm ∉ (E s).elections := by
  intro s hs hwon
  have hlead := h.lead hid hrole hvotes
  have hthis : (E id).currTerm ∈ (Function.update E id { E id with
      role := .leader
      elections := (E id).elections ++ [(E id).currTerm] } id).elections := by
    rw [Function.update_self]
    exact List.mem_append_right _ (List.mem_singleton_self _)
  by_cases hsid : s = id
  · subst hsid
    exact (h.candidate s hs hrole).2.1 hwon
  · refine hsid (hlead.winner_unique hs hid (t := (E id).currTerm) ?_ hthis)
    rw [Function.update_of_ne hsid]
    exact hwon

end Voting

end Draft
