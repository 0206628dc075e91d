import Draft.Raft.Simulation

/-!
# State machine safety

When every step of a run of a fixed cluster verifies what it answers and counts
and no callback ends a transfer but at a leader, the run is one of the abstract
protocol, and what two servers apply at one index is one entry.  A follower that
answers with an unverified tail of its log breaks this.
-/

namespace Draft

open Consensus Raft

namespace World

variable {w w' : World} {e : Event} {base : List Entry}

/-- A request is handled where its sender's log vouches for the result, and so are answers. -/
def Verified (w : World) : Event → Prop
  | .handle i _ => ∀ c ∈ w.calls[i]?, (w.servers c.dst).Heeds c.request
  | .succeed i _ => ∀ c ∈ w.calls[i]?, ∀ res ∈ c.response,
      (w.servers c.src).Counts c.request res
  | _ => True

instance (w : World) : (e : Event) → Decidable (w.Verified e)
  | .handle .. | .succeed .. => by unfold Verified; infer_instance
  | .electionTimeout _ | .heartbeatTimeout _ | .leadershipTransferTimeout _ | .append ..
  | .transferLeadership .. | .addServer .. | .delServer .. | .popCommitted _ | .applyNext _
  | .compact _ | .writeFiles .. | .fail .. => instDecidableTrue

/--
The members are fixed, a callback that ends a transfer finds its server the
leader, and what is answered and counted is verified.
-/
def FixedVerified (w : World) (e : Event) : Prop :=
  w.FixedMembers e ∧ w.TransferByLeader e ∧ w.Verified e

instance (w : World) (e : Event) : Decidable (w.FixedVerified e) :=
  inferInstanceAs (Decidable (_ ∧ _ ∧ _))

/-! ## The invariant of a run -/

def SafetyInv (base : List Entry) (w : World) : Prop :=
  ∃ p, Refines w.ids (fun id => (w.servers id).view) w.calls base p

/-- The protocol goes on from where it was, and nothing that was decided is lost. -/
theorem refines_step (hready : w.Ready) (hverified : w.FixedVerified e) (hvoting : w.VotingInv)
    {p : Protocol Bytes Entry}
    (hp : Refines w.ids (fun id => (w.servers id).view) w.calls base p)
    (hstep : w.step e = some w') :
    ∃ p', p.Grows p' ∧ Refines w'.ids (fun id => (w'.servers id).view) w'.calls base p' := by
  obtain ⟨hfixed, hleader, hsound⟩ := hverified
  have hmoves : w.Moves False e w' := step_moves hready hfixed.1 (.inr hleader) hstep
  have hne : ∀ id ∈ w.ids, id ≠ [] := fun id hid heq => hvoting.1 (heq ▸ hid)
  have hvote : ∀ id ∈ w.ids,
      Raft.VotingAt w.ids (fun j => (w.servers j).toElection) w.calls id (w.servers id) := by
    intro id hid
    unfold Raft.VotingAt
    rw [hready.sent id hid, Function.update_eq_self]
    simpa using hvoting.2
  have start : ∀ id ∈ w.ids, Raft.RefinesAt w.ids (fun j => (w.servers j).view) w.calls base id
      (w.servers id) p := by
    intro id hid
    unfold Raft.RefinesAt
    rw [hready.sent id hid, Function.update_eq_self]
    simpa using hp
  have done : ∀ {calls : List Call} {id : Bytes} {t : Raft},
      (∃ p', p.Grows p' ∧
        Raft.RefinesAt w.ids (fun j => (w.servers j).view) calls base id t p') →
      let w' := { w with calls := calls }.act id t
      ∃ p', p.Grows p' ∧ Refines w'.ids (fun id => (w'.servers id).view) w'.calls base p' := by
    intro calls id t ht
    dsimp only
    rw [act_map _ _ _ Raft.view]
    exact ht
  cases hmoves with
  | local_ e id hid hturn =>
      exact done ((start id hid).turn (hvote id hid) hid (hne id hid) (hready.self id hid)
        (hfixed.2 id hid) hturn)
  | handle i recent hc hid hnone hserves =>
      exact done ((start _ hid).serves (hvote _ hid) hid (hne _ hid) (hready.self _ hid)
        (hfixed.2 _ hid) hc rfl rfl (hsound _ hc) hserves)
  | succeed i quick hc hid hres hdone hfinishes =>
      exact done ((start _ hid).finishes hvoting.2 rfl (hready.sent _ hid) hid (hne _ hid)
        (hready.self _ hid) (hfixed.2 _ hid) hc rfl hres hdone rfl (hsound _ hc _ hres) hfinishes)
  | fail i quick hc hid hturn =>
      obtain ⟨q, hgrows, hq⟩ := (start _ hid).turn (hvote _ hid) hid (hne _ hid)
        (hready.self _ hid) (hfixed.2 _ hid) hturn
      exact done ⟨q, hgrows, hq.mark hc _ true fun req res =>
        Refines.answer hq _ (List.mem_append_left _ (List.mem_of_getElem? hc)) req res⟩

private theorem safety_step (hready : w.Ready) (hverified : w.FixedVerified e) (hvoting : w.VotingInv)
    (h : w.SafetyInv base) (hstep : w.step e = some w') : w'.SafetyInv base := by
  obtain ⟨p, hp⟩ := h
  obtain ⟨p', -, hp'⟩ := refines_step hready hverified hvoting hp hstep
  exact ⟨p', hp'⟩

/-! ## Runs from one log -/

/-- Servers that just started from one log, with a commit index in it and no later term. -/
structure StartsFrom (log : EntryLogger) (full : List Entry) (w : World) : Prop where
  started : w.Started
  holds : log.Holds full
  same : ∀ id ∈ w.ids, (w.servers id).log = log
  base : ∀ id ∈ w.ids, log.lastIndex ≤ (w.servers id).commitIndex
  commit : ∀ id ∈ w.ids, (w.servers id).commitIndex ≤ full.length
  applied : ∀ id ∈ w.ids, (w.servers id).applied = []
  terms : ∀ id ∈ w.ids, ∀ e ∈ full, e.term ≤ (w.servers id).currTerm + 1

instance (log : EntryLogger) (full : List Entry) : Decidable (w.StartsFrom log full) :=
  decidable_of_iff (w.Started ∧ log.Holds full ∧ (∀ id ∈ w.ids, (w.servers id).log = log) ∧
      (∀ id ∈ w.ids, log.lastIndex ≤ (w.servers id).commitIndex) ∧
      (∀ id ∈ w.ids, (w.servers id).commitIndex ≤ full.length) ∧
      (∀ id ∈ w.ids, (w.servers id).applied = []) ∧
      ∀ id ∈ w.ids, ∀ e ∈ full, e.term ≤ (w.servers id).currTerm + 1)
    ⟨fun h => ⟨h.1, h.2.1, h.2.2.1, h.2.2.2.1, h.2.2.2.2.1, h.2.2.2.2.2.1, h.2.2.2.2.2.2⟩,
      fun h => ⟨h.1, h.2, h.3, h.4, h.5, h.6, h.7⟩⟩

theorem StartsFrom.safety {log : EntryLogger} {full : List Entry} (h : w.StartsFrom log full) :
    w.SafetyInv full := by
  refine ⟨Protocol.start full fun id => (w.servers id).currTerm, ?_⟩
  exact
    { inv := Protocol.inv_start _
      elected := fun t => by
        refine iff_of_false (fun h => h) ?_
        rintro ⟨id, hid, hmem⟩
        have hmem : t ∈ (w.servers id).elections := hmem
        rw [h.started.elections id hid] at hmem
        cases hmem
      server := fun id hid => by
        have hrole : ∀ {r : Role} {P : Prop}, r ≠ .follower → (w.servers id).role = r → P :=
          fun hne heq => absurd (heq.symm.trans (h.started.role id hid)) hne
        exact
          { current := rfl
            holds := (h.same id hid).symm ▸ h.holds
            ballot := fun t c => by
              refine iff_of_false (fun h => h) fun hmem => ?_
              have hmem : (t, c) ∈ (w.servers id).ballots := hmem
              rw [h.started.ballots id hid] at hmem
              cases hmem
            candidate := hrole (by simp)
            leader := hrole (by simp)
            matched := hrole (by simp)
            compacted := (congrArg EntryLogger.lastIndex (h.same id hid)).trans_le (h.base id hid)
            commit_le := h.commit id hid
            committed := .inl (List.take_prefix _ _)
            applied := fun a ha => by
              have ha : a ∈ (w.servers id).applied := ha
              rw [h.applied id hid] at ha
              cases ha
            oldest := h.terms id hid }
      alone := fun _ _ _ _ he => he.elim
      request := fun c hc => by rw [h.started.calls] at hc; cases hc
      answer := fun c hc => by rw [h.started.calls] at hc; cases hc }

theorem safety_run {es : List Event} {log : EntryLogger} {full : List Entry}
    (hstart : w.StartsFrom log full) (hverified : Along step FixedVerified w es)
    (hrun : run step w es = some w') : w'.SafetyInv full := by
  refine (run_invariant (P := fun w => w.Ready ∧ w.VotingInv ∧ w.SafetyInv full)
    ?_ hverified ⟨hstart.started.ready, hstart.started.voting, hstart.safety⟩ hrun).2.2
  intro w e w' hverified ⟨hready, hvoting, hsafety⟩ hstep
  have hmoves : w.Moves True e w' := step_moves hready hverified.1.1 (.inl trivial) hstep
  exact ⟨hmoves.ready hready, voting_step hready hverified.1 hvoting hmoves,
    safety_step hready hverified hvoting hsafety hstep⟩

/--
In a run of a fixed cluster in which every step verifies what it answers and
counts and only leaders end transfers, two servers that apply an entry at one
index apply the same one.
-/
theorem state_machine_safety {es : List Event} {log : EntryLogger} {full : List Entry}
    (hstart : w.StartsFrom log full) (hverified : Along step FixedVerified w es)
    (hrun : run step w es = some w') :
    ∀ s ∈ w'.ids, ∀ s' ∈ w'.ids, ∀ i x y, (i, x) ∈ (w'.servers s).applied →
      (i, y) ∈ (w'.servers s').applied → x.term = y.term ∧ x.data = y.data := by
  obtain ⟨p, hp⟩ := safety_run hstart hverified hrun
  intro s hs s' hs' i x y hx hy
  obtain ⟨-, g, hg, hgx⟩ := (hp.server s hs).applied (i, x) hx
  obtain ⟨-, g', hg', hgy⟩ := (hp.server s' hs').applied (i, y) hy
  have hsame : x.toEntry = y.toEntry := by
    rcases hp.inv.decided_comparable hg hg' with hle | hle
    · exact Option.some.inj ((prefix_getElem? hle hgx).symm.trans hgy)
    · exact Option.some.inj (hgx.symm.trans (prefix_getElem? hle hgy))
  exact ⟨congrArg Entry.term hsame, congrArg Entry.data hsame⟩

theorem state_machine_safety_applied :
    ∃ w', run step (cluster ["a:1", "b:1", "c:1"] true)
        [.electionTimeout (ascii "a:1"), .handle 0 false, .succeed 0 false, .handle 3 false,
          .succeed 3 false, .append (ascii "a:1") (ascii "x"), .heartbeatTimeout (ascii "a:1"),
          .handle 7 false, .succeed 7 false, .heartbeatTimeout (ascii "a:1"), .handle 9 false,
          .popCommitted (ascii "a:1"), .applyNext (ascii "a:1"), .applyNext (ascii "a:1"),
          .popCommitted (ascii "c:1"), .applyNext (ascii "c:1"), .applyNext (ascii "c:1")]
        = some w' ∧
      ((w'.servers (ascii "a:1")).applied.map (·.1), (w'.servers (ascii "c:1")).applied.map (·.1))
        = ([2], [2]) ∧
      ∀ s ∈ w'.ids, ∀ s' ∈ w'.ids, ∀ i x y, (i, x) ∈ (w'.servers s).applied →
        (i, y) ∈ (w'.servers s').applied → x.term = y.term ∧ x.data = y.data := by
  refine ⟨_, (Option.some_get (by decide)).symm, by decide, ?_⟩
  have hstart : (cluster ["a:1", "b:1", "c:1"] true).StartsFrom
      ((cluster ["a:1", "b:1", "c:1"] true).servers []).log
      [{ term := 1, index := 1, data := ascii "a:1,b:1,c:1", config := true }] := by decide
  exact state_machine_safety hstart (by decide) (Option.some_get (by decide)).symm

/--
The follower `a` has an entry of term 2 that the leader `b` of term 3 lacks.  It
answers the first heartbeat of `b` with the index of this entry, and `b` commits
its own entry there.  Then `a` becomes leader and commits the old one.
-/
def unverifiedTail : List Event :=
  [.electionTimeout (ascii "a:1"), .handle 0 false, .succeed 0 false, .handle 3 false,
    .succeed 3 false, .handle 4 false, .append (ascii "a:1") (ascii "x"),
    .electionTimeout (ascii "b:1"), .handle 7 false, .succeed 7 false, .handle 9 false,
    .succeed 9 false, .handle 10 false, .append (ascii "b:1") (ascii "y"), .succeed 10 false,
    .popCommitted (ascii "b:1"), .applyNext (ascii "b:1"), .applyNext (ascii "b:1"),
    .electionTimeout (ascii "a:1"), .handle 13 false, .succeed 13 false, .handle 15 false,
    .succeed 15 false, .append (ascii "a:1") (ascii "z"), .handle 17 false, .succeed 17 false,
    .handle 18 false, .succeed 18 false, .popCommitted (ascii "a:1"), .applyNext (ascii "a:1"),
    .applyNext (ascii "a:1")]

theorem state_machine_safety_broken :
    ¬ ∀ (w w' : World) (es : List Event) (log : EntryLogger) (full : List Entry),
      w.StartsFrom log full → Along step FixedMembers w es → run step w es = some w' →
      ∀ s ∈ w'.ids, ∀ s' ∈ w'.ids, ∀ p ∈ (w'.servers s).applied,
        ∀ q ∈ (w'.servers s').applied, p.1 = q.1 → p.2.term = q.2.term ∧ p.2.data = q.2.data := by
  intro h
  have hstart : (cluster ["a:1", "b:1", "c:1"] true).StartsFrom
      ((cluster ["a:1", "b:1", "c:1"] true).servers []).log
      [{ term := 1, index := 1, data := ascii "a:1,b:1,c:1", config := true }] := by decide
  have hfixed : Along step FixedMembers (cluster ["a:1", "b:1", "c:1"] true) unverifiedTail := by
    decide
  have hrun := (Option.some_get (show (run step (cluster ["a:1", "b:1", "c:1"] true)
    unverifiedTail).isSome by decide)).symm
  exact absurd (h _ _ _ _ _ hstart hfixed hrun) (by decide)

end World

end Draft
