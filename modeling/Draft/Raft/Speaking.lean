import Draft.Raft.ElectionSafety

/-!
# Who speaks for a term

The requests of a leader carry a term.  As long as no transfer is carried on by
a server that is no leader any more, each of them was sent by the server that
won the term, while it was its leader.
-/

namespace Draft

open Consensus

def Request.leaderTerm : Request → Option Nat
  | .appendEntries req => some req.term
  | .dataTransfer req => some req.term
  | .doneTransfer req => some req.term
  | _ => none

namespace Raft

variable {late : Prop} {s t : Raft}

def Elected (s : Raft) : Prop := s.role = .leader → s.currTerm ∈ s.elections

def ByLeader (elections : List Nat) (role : Role) (term : Nat) (request : Request) : Prop :=
  ∀ t, request.leaderTerm = some t → role = .leader ∧ term = t ∧ t ∈ elections

structure Spoken (s : Raft) : Prop where
  elected : s.Elected
  sent : ∀ o ∈ s.sent, ByLeader s.elections o.role o.term o.request

theorem Move.elections (h : Move late s t) {term : Nat} (hterm : term ∈ s.elections) :
    term ∈ t.elections := by
  cases h with
  | quiet h => rw [h.election]; exact hterm
  | follow => exact hterm
  | newTerm => exact hterm
  | campaign => exact hterm
  | campaignAlone => exact hterm
  | lead => exact List.mem_append_left _ hterm
  | commit => rw [(inward_adjustCommitIndex s).election]; exact hterm
  | append _ data => rw [(inward_append s data).election]; exact hterm
  | applyNext => rw [(inward_applyNext s).election]; exact hterm
  | compact => rw [(inward_compact s).election]; exact hterm

theorem Turn.elections (h : Turn late s t) {term : Nat} (hterm : term ∈ s.elections) :
    term ∈ t.elections := by
  induction h with
  | refl => exact hterm
  | tail _ hmove ih => exact hmove.elections ih

theorem Speaks.byLeader {o : Outgoing} (h : Speaks False s o) (hs : s.Elected) :
    ByLeader s.elections o.role o.term o.request := by
  intro term hterm
  cases h with
  | timeoutNow => cases hterm
  | preVote => cases hterm
  | appendEntries id n hn hlead =>
      have hrole : s.role = .leader := hlead.resolve_right not_false
      exact ⟨hrole, Option.some.inj hterm, Option.some.inj hterm ▸ hs hrole⟩
  | dataTransfer id number name data hrole =>
      exact ⟨hrole, Option.some.inj hterm, Option.some.inj hterm ▸ hs hrole⟩
  | doneTransfer id name hlead =>
      have hrole : s.role = .leader := hlead.resolve_right not_false
      exact ⟨hrole, Option.some.inj hterm, Option.some.inj hterm ▸ hs hrole⟩

theorem Spoken.change (h : Spoken s) (hsent : t.sent = s.sent)
    (hkeep : ∀ term ∈ s.elections, term ∈ t.elections) (helected : t.Elected) : Spoken t where
  elected := helected
  sent := by
    intro o ho term hterm
    obtain ⟨h₁, h₂, h₃⟩ := h.sent o (hsent ▸ ho) term hterm
    exact ⟨h₁, h₂, hkeep term h₃⟩

theorem Spoken.inward (h : Spoken s) (hinward : Inward s t) : Spoken t := by
  refine h.change hinward.sent ?_ ?_
  · rw [hinward.election]
    exact fun _ hterm => hterm
  · unfold Elected
    rw [hinward.election]
    exact h.elected

theorem Spoken.move (h : Spoken s) (hmove : Move False s t) : Spoken t := by
  cases hmove with
  | quiet hquiet =>
      obtain ⟨new, hnew, hspeaks⟩ := hquiet.sent
      constructor
      · unfold Elected
        rw [hquiet.election]
        exact h.elected
      · intro o ho
        rw [hquiet.election]
        rcases List.mem_append.mp (hnew ▸ ho) with hold | hin
        · exact h.sent o hold
        · exact (hspeaks o hin).byLeader h.elected
  | follow => exact h.change rfl (fun _ hterm => hterm) fun hrole => by cases hrole
  | newTerm => exact h.change rfl (fun _ hterm => hterm) fun hrole => by cases hrole
  | campaign =>
      have hcandidate : Spoken s.becomeCandidate :=
        h.change rfl (fun _ hterm => hterm) fun hrole => by cases hrole
      constructor
      · exact hcandidate.elected
      · intro o ho term hterm
        rcases List.mem_append.mp ho with hold | hin
        · exact hcandidate.sent o hold term hterm
        · obtain ⟨n, -, rfl⟩ := List.mem_map.mp hin
          cases hterm
  | campaignAlone => exact h.change rfl (fun _ hterm => hterm) fun hrole => by cases hrole
  | lead =>
      exact h.change rfl (fun _ hterm => List.mem_append_left _ hterm)
        fun _ => List.mem_append_right _ (List.mem_singleton_self _)
  | commit => exact h.inward (inward_adjustCommitIndex s)
  | append _ data => exact h.inward (inward_append s data)
  | applyNext => exact h.inward (inward_applyNext s)
  | compact => exact h.inward (inward_compact s)

theorem Spoken.turn (h : Spoken s) (hturn : Turn False s t) : Spoken t := by
  induction hturn with
  | refl => exact h
  | tail _ hmove ih => exact ih.move hmove

theorem Spoken.serves (h : Spoken s) {req : Request} {res : Response}
    (hserves : Serves False s req t res) : Spoken t := by
  cases hserves with
  | turn hturn => exact h.turn hturn
  | grant req =>
      have hheed := h.turn (turn_heedCandidate s req.term)
      exact hheed.change rfl (fun _ hterm => hterm) hheed.elected
  | accept req log hterm =>
      have hheed := h.turn (turn_heedLeader s req.term req.leaderId)
      refine hheed.change (followEntries_sent _ log req) ?_ ?_
      · rw [followEntries_election]
        exact fun _ hterm => hterm
      · unfold Elected
        rw [followEntries_election]
        exact hheed.elected
  | install req hterm =>
      have hfollow := h.turn (turn_followSender s req.term req.leaderId)
      refine hfollow.change (installBase_sent _ req) ?_ ?_
      · rw [installBase_election]
        exact fun _ hterm => hterm
      · unfold Elected
        rw [installBase_election]
        exact hfollow.elected

theorem Serves.elections {req : Request} {res : Response} (h : Serves late s req t res)
    {term : Nat} (hterm : term ∈ s.elections) : term ∈ t.elections := by
  cases h with
  | turn hturn => exact hturn.elections hterm
  | grant req => exact (turn_heedCandidate s req.term : Turn late s _).elections hterm
  | accept req log =>
      rw [followEntries_election]
      exact (turn_heedLeader s req.term req.leaderId : Turn late s _).elections hterm
  | install req =>
      rw [installBase_election]
      exact (turn_followSender s req.term req.leaderId : Turn late s _).elections hterm

theorem Spoken.finishes (h : Spoken s) {id : Bytes} {req : Request} {res : Response}
    (hfinishes : Finishes False s id req res t) : Spoken t := by
  cases hfinishes with
  | turn hturn => exact h.turn hturn
  | count req v hrole hgranted hterm hturn =>
      have hcount : Spoken { s with votes := s.votes + 1 } :=
        h.change rfl (fun _ hterm => hterm) h.elected
      exact hcount.turn hturn
  | record req r hrole hsuccess hturn =>
      have hrecord : Spoken (s.recordMatch id r.matchIndex) :=
        h.change rfl (fun _ hterm => hterm) h.elected
      exact hrecord.turn hturn

theorem Finishes.elections {id : Bytes} {req : Request} {res : Response}
    (h : Finishes late s id req res t) {term : Nat} (hterm : term ∈ s.elections) :
    term ∈ t.elections := by
  cases h with
  | turn hturn => exact hturn.elections hterm
  | count _ _ _ _ _ hturn => exact hturn.elections hterm
  | record _ _ _ _ hturn => exact hturn.elections hterm

end Raft

namespace World

structure SpokenInv (w : World) : Prop where
  elected : ∀ id ∈ w.ids, (w.servers id).Elected
  calls : ∀ c ∈ w.calls,
    Raft.ByLeader (w.servers c.src).elections c.role c.term c.request

private theorem Started.spoken {w : World} (h : w.Started) : w.SpokenInv where
  elected := fun id hid hrole => by rw [h.role id hid] at hrole; cases hrole
  calls := fun c hc => by rw [h.calls] at hc; cases hc

theorem SpokenInv.act {w : World} (h : w.SpokenInv) {id : Bytes} {t : Raft}
    (hkeep : ∀ term ∈ (w.servers id).elections, term ∈ t.elections) (ht : t.Spoken) :
    (w.act id t).SpokenInv where
  elected := by
    intro j hj
    by_cases hjid : j = id
    · subst hjid
      rw [act_self]
      exact ht.elected
    · rw [act_of_ne w t hjid]
      exact h.elected j hj
  calls := by
    intro c hc
    rcases List.mem_append.mp hc with hc | hc
    · intro term hterm
      obtain ⟨h₁, h₂, h₃⟩ := h.calls c hc term hterm
      refine ⟨h₁, h₂, ?_⟩
      by_cases hsrc : c.src = id
      · rw [hsrc, act_self]
        exact hkeep term (hsrc ▸ h₃)
      · rw [act_of_ne w t hsrc]
        exact h₃
    · obtain ⟨o, ho, rfl⟩ := List.mem_map.mp hc
      have hself : ((w.act id t).servers (o.call id).src).elections = t.elections := by
        rw [show (o.call id).src = id from rfl, act_self]
      rw [hself]
      exact ht.sent o ho

private theorem spoken_step {w w' : World} {e : Event} (hready : w.Ready) (h : w.SpokenInv)
    (hmoves : w.Moves False e w') : w'.SpokenInv := by
  have start : ∀ id ∈ w.ids, (w.servers id).Spoken := fun id hid =>
    ⟨h.elected id hid, fun o ho => by rw [hready.sent id hid] at ho; cases ho⟩
  have marked : ∀ {i : Nat} {c : Call} (response : Option Response) (done : Bool),
      w.calls[i]? = some c → SpokenInv { w with
        calls := w.calls.set i { c with response := response, done := done } } := by
    intro i c response done hc
    refine ⟨h.elected, fun d hd => ?_⟩
    rcases List.mem_or_eq_of_mem_set hd with hd | rfl
    · exact h.calls d hd
    · exact h.calls c (List.mem_of_getElem? hc)
  cases hmoves with
  | local_ e id hid hturn => exact h.act (fun _ ht => hturn.elections ht) ((start id hid).turn hturn)
  | handle i recent hc hid hnone hserves =>
      exact (marked _ _ hc).act (fun _ ht => hserves.elections ht)
        ((start _ hid).serves hserves)
  | succeed i quick hc hid hres hdone hfinishes =>
      exact (marked _ _ hc).act (fun _ ht => hfinishes.elections ht)
        ((start _ hid).finishes hfinishes)
  | fail i quick hc hid hturn =>
      exact (marked _ _ hc).act (fun _ ht => hturn.elections ht)
        ((start _ hid).turn hturn)

/-- No membership changes, and every transfer is carried on by a leader. -/
def FixedByLeader (w : World) (e : Event) : Prop := e.fixed ∧ w.TransferByLeader e

instance (w : World) (e : Event) : Decidable (w.FixedByLeader e) :=
  inferInstanceAs (Decidable (_ ∧ _))

private theorem spoken_run {w w' : World} {es : List Event} (hready : w.Ready) (hspoken : w.SpokenInv)
    (halong : Along step FixedByLeader w es) (hrun : run step w es = some w') :
    w'.Ready ∧ w'.SpokenInv := by
  refine run_invariant (P := fun w => w.Ready ∧ w.SpokenInv) ?_ halong ⟨hready, hspoken⟩ hrun
  intro w e w' hfixed ⟨hready, hspoken⟩ hstep
  have hmoves : w.Moves False e w' := step_moves hready hfixed.1 (.inr hfixed.2) hstep
  exact ⟨hmoves.ready hready, spoken_step hready hspoken hmoves⟩

/--
Along a run in which transfers are carried on by leaders only, a request with a
term was sent by the leader of this term.
-/
theorem leader_speaks {w w' : World} {es : List Event} (hstart : w.Started)
    (halong : Along step FixedByLeader w es) (hrun : run step w es = some w') :
    ∀ c ∈ w'.calls, ∀ t, c.request.leaderTerm = some t →
      c.role = .leader ∧ c.term = t ∧ t ∈ (w'.servers c.src).elections :=
  (spoken_run hstart.ready hstart.spoken halong hrun).2.calls

theorem leader_speaks_elected :
    ∃ w', run step (cluster ["a:1", "b:1", "c:1"] true)
        [.electionTimeout (ascii "a:1"), .handle 0 false, .succeed 0 false, .handle 3 false,
          .succeed 3 false] = some w' ∧
      (∃ c ∈ w'.calls, c.request.leaderTerm = some 2) ∧
      ∀ c ∈ w'.calls, ∀ t, c.request.leaderTerm = some t →
        c.role = .leader ∧ c.term = t ∧ t ∈ (w'.servers c.src).elections :=
  ⟨_, (Option.some_get (by decide)).symm, by decide,
    leader_speaks (w := cluster ["a:1", "b:1", "c:1"] true) (by decide) (by decide)
      (Option.some_get (by decide)).symm⟩

/--
A leader of term 2 sends a snapshot and learns of the leader of term 3 before
the answer comes back: as a follower it goes on with a request of term 3.
-/
theorem follower_speaks :
    ∃ es w', (cluster ["a:1", "b:1", "c:1"] true).Started ∧
      Along step FixedMembers (cluster ["a:1", "b:1", "c:1"] true) es ∧
      run step (cluster ["a:1", "b:1", "c:1"] true) es = some w' ∧
      ∃ c ∈ w'.calls, c.request.leaderTerm = some 3 ∧ c.role = .follower ∧
        3 ∉ (w'.servers c.src).elections :=
  ⟨[.electionTimeout (ascii "a:1"), .handle 0 false, .succeed 0 false, .handle 3 false,
      .succeed 3 false, .append (ascii "a:1") (ascii "x"), .heartbeatTimeout (ascii "a:1"),
      .handle 7 false, .succeed 7 true, .popCommitted (ascii "a:1"), .applyNext (ascii "a:1"),
      .applyNext (ascii "a:1"), .compact (ascii "a:1"), .heartbeatTimeout (ascii "a:1"),
      .handle 8 false, .succeed 8 true, .handle 10 false, .electionTimeout (ascii "c:1"),
      .handle 12 false, .succeed 12 false, .handle 14 false, .succeed 14 true, .handle 15 true,
      .succeed 10 true],
    _, by decide, by decide, (Option.some_get (by decide)).symm, by decide⟩

end World

end Draft
