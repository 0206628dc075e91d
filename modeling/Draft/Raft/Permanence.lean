import Draft.Raft.LogMatching
import Draft.Raft.Retention
import Draft.Raft.StateMachineSafety

/-!
# What stays decided

The abstract protocol that a run refines only grows.  What a server has
committed at some time is in the log of every leader of a later term from then
on, and no server ever commits anything else in its place.
-/

namespace Draft

open Consensus Raft

section

variable {ids : List Bytes} {V : Bytes → View} {calls : List Call} {base : List Entry}
  {p p' : Protocol Bytes Entry} {id : Bytes} {v : View}

theorem Simulates.get (h : Simulates ids base p id v) {i : Nat} {x : LogEntry}
    (hget : v.log.get (i + 1) = some x) : (p.log id)[i]? = some x.toEntry := by
  have hmap := h.holds.get_succ_map i
  rw [hget] at hmap
  split at hmap
  · cases hmap
  · exact hmap.symm

theorem Simulates.decided (h : Simulates ids base p id v) (hgrows : p.Grows p') :
    Decides ids base p' v.currTerm ((p.log id).take v.commitIndex) :=
  h.committed.mono hgrows le_rfl

theorem Refines.elected_of_leader (h : Refines ids V calls base p)
    (hvoting : Voting ids (fun j => (V j).toElection) calls) (hid : id ∈ ids)
    (hrole : (V id).role = .leader) : p.leaders.elected (V id).currTerm :=
  (h.elected _).mpr ⟨id, hid, hvoting.leader id hid hrole⟩

/-- A request keeps what is committed where the sender's log vouches for the result. -/
theorem Refines.preserves (h : Refines ids V calls base p) (hid : id ∈ ids) {s : Raft}
    (hs : V id = s.view) {c : Call} (hc : c ∈ calls) (hheeds : s.Heeds c.request) :
    s.Preserves c.request := by
  have hserver := h.server id hid
  rw [hs] at hserver
  have hlog : s.log.Holds (p.log id) := hserver.holds
  have hcommit : s.commitIndex ≤ (p.log id).length := hserver.commit_le
  have hbase : s.log.lastIndex ≤ s.commitIndex := hserver.compacted
  have hvouches := h.request c hc
  cases hrequest : c.request with
  | appendEntries req =>
      rw [hrequest] at hheeds hvouches
      intro hterm hprev e he
      obtain ⟨-, hreaches⟩ := hheeds hterm hprev
      obtain ⟨helected, g, hg, hidx, hseg, -⟩ := hvouches
      have hne : req.entries ≠ [] := List.ne_nil_of_mem he
      have hleader := h.committed_leader hid (by rw [hs]; exact hterm) helected
      rw [hs] at hleader
      obtain ⟨j, hj⟩ := List.getElem?_of_mem ((hseg.entries.resolve_left hne).2 ▸ he)
      rw [List.getElem?_drop] at hj
      have hindex : e.index = req.prevLogIndex + j + 1 := hidx _ e hj
      -- below the commit index both logs are the leader's
      have hsame : ∀ x, req.prevLogIndex + j < s.commitIndex →
          (p.log id)[req.prevLogIndex + j]? = some x → x = e := by
        intro x hlt hx
        have hpart : ((p.log id).take s.commitIndex)[req.prevLogIndex + j]? = some x := by
          rw [List.getElem?_take_of_lt hlt]
          exact hx
        have hboth := (prefix_getElem? hleader hpart).symm.trans (prefix_getElem? hg hj)
        exact Option.some.inj hboth
      constructor
      · intro hlow
        have hreach : s.log.lastIndex ≤ req.prevLogIndex + 1 := hreaches.resolve_left hne
        have hlt : req.prevLogIndex + j < s.commitIndex := by omega
        have hx := List.getElem?_eq_getElem (hlt.trans_le hcommit)
        rw [hindex, hlog.hasEntry_iff, termAt, hx, Option.map_some, hsame _ hlt hx]
        exact ⟨.inr (by omega), rfl⟩
      · intro hconflict
        rw [hindex] at hconflict
        obtain ⟨-, x, hx, hne⟩ := hlog.entryConflicted_iff.mp hconflict
        by_contra hle
        exact hne (congrArg Entry.term (hsame x (by omega) hx))
  | dataTransfer req =>
      rw [hrequest] at hheeds
      intro hterm hone hcompaction
      have hlast := hheeds hterm hone hcompaction
      rw [hlog.lastEntryIndex_eq] at hlast
      exact hcommit.trans hlast
  | _ => trivial

/--
What one server has committed, later on: it is in the log of every leader of no earlier
term, and it is what every server has committed at its index.
-/
theorem Refines.permanent {V' : Bytes → View} {calls' : List Call}
    (h : Refines ids V calls base p) (h' : Refines ids V' calls' base p') (hgrows : p.Grows p')
    (hvoting : Voting ids (fun j => (V' j).toElection) calls') {s s' : Bytes} (hs : s ∈ ids)
    (hs' : s' ∈ ids) {i : Nat} (hi : i ≤ (V s).commitIndex) {x : LogEntry}
    (hx : x ∈ (V s).log.get i) :
    ((V' s').role = .leader → (V s).currTerm ≤ (V' s').currTerm →
      i ≤ (V' s').log.lastEntryIndex ∧ ∀ y ∈ (V' s').log.get i, y.toEntry = x.toEntry) ∧
    (i ≤ (V' s').commitIndex → ∀ y ∈ (V' s').log.get i, y.toEntry = x.toEntry) := by
  cases i with
  | zero =>
      rw [EntryLogger.get_zero] at hx
      obtain rfl := Option.some.inj hx
      have hzero : ∀ y ∈ (V' s').log.get 0, y.toEntry = logEntrySentry.toEntry := by
        intro y hy
        rw [EntryLogger.get_zero] at hy
        exact Option.some.inj hy ▸ rfl
      exact ⟨fun _ _ => ⟨Nat.zero_le _, hzero⟩, fun _ => hzero⟩
  | succ i =>
      have hserver := h'.server s' hs'
      have hdecided := (h.server s hs).decided hgrows
      have hcommitted : ((p.log s).take (V s).commitIndex)[i]? = some x.toEntry := by
        rw [List.getElem?_take_of_lt hi]
        exact (h.server s hs).get hx
      constructor
      · intro hrole hterm
        have hpart := h'.inv.decided_prefix_leader hdecided hterm
          (h'.elected_of_leader hvoting hs' hrole)
        rw [← (hserver.leader hrole).1] at hpart
        have hentry := prefix_getElem? hpart hcommitted
        refine ⟨?_, fun y hy => ?_⟩
        · rw [hserver.holds.lastEntryIndex_eq]
          exact lt_length_of_getElem? hentry
        · exact Option.some.inj ((hserver.get hy).symm.trans hentry)
      · intro hle y hy
        have hentry : ((p'.log s').take (V' s').commitIndex)[i]? = some y.toEntry := by
          rw [List.getElem?_take_of_lt hle]
          exact hserver.get hy
        rcases h'.inv.decided_comparable hdecided hserver.committed with hpart | hpart
        · exact Option.some.inj (hentry.symm.trans (prefix_getElem? hpart hcommitted))
        · exact Option.some.inj ((prefix_getElem? hpart hentry).symm.trans hcommitted)

end

namespace World

variable {w w₁ w₂ : World} {base : List Entry}

private theorem refines_run {p : Protocol Bytes Entry} {es : List Event} (hready : w.Ready)
    (hvoting : w.VotingInv) (hp : Refines w.ids (fun id => (w.servers id).view) w.calls base p)
    (hverified : Along step FixedVerified w es) (hrun : run step w es = some w₁) :
    w₁.Ready ∧ w₁.VotingInv ∧ w₁.ids = w.ids ∧ ∃ p', p.Grows p' ∧
      Refines w₁.ids (fun id => (w₁.servers id).view) w₁.calls base p' := by
  refine run_invariant (P := fun w₁ => w₁.Ready ∧ w₁.VotingInv ∧ w₁.ids = w.ids ∧
    ∃ p', p.Grows p' ∧ Refines w₁.ids (fun id => (w₁.servers id).view) w₁.calls base p')
    ?_ hverified ⟨hready, hvoting, rfl, p, .refl p, hp⟩ hrun
  intro w e w' hverified ⟨hready, hvoting, hids, q, hq, hrefines⟩ hstep
  have hmoves : w.Moves True e w' := step_moves hready hverified.1.1 (.inl trivial) hstep
  obtain ⟨q', hq', hrefines'⟩ := refines_step hready hverified hvoting hrefines hstep
  exact ⟨hmoves.ready hready, voting_step hready hverified.1 hvoting hmoves,
    hmoves.ids.trans hids, q', hq.trans hq', hrefines'⟩

/--
In a run of a fixed cluster in which every step verifies what it answers and
counts and only leaders end transfers, an entry that some server has committed
at some time is from then on in the log of every leader of no earlier term, and
it is what every server commits at its index.
-/
theorem leader_completeness {es es' : List Event} {log : EntryLogger} {full : List Entry}
    (hstart : w.StartsFrom log full) (hverified : Along step FixedVerified w (es ++ es'))
    (hrun : run step w es = some w₁) (hrun' : run step w₁ es' = some w₂) :
    ∀ s ∈ w₁.ids, ∀ i ≤ (w₁.servers s).commitIndex, ∀ x ∈ (w₁.servers s).log.get i,
      ∀ s' ∈ w₂.ids,
        ((w₂.servers s').role = .leader → (w₁.servers s).currTerm ≤ (w₂.servers s').currTerm →
          i ≤ (w₂.servers s').log.lastEntryIndex ∧
            ∀ y ∈ (w₂.servers s').log.get i, y.toEntry = x.toEntry) ∧
        (i ≤ (w₂.servers s').commitIndex →
          ∀ y ∈ (w₂.servers s').log.get i, y.toEntry = x.toEntry) := by
  obtain ⟨hfirst, hlast⟩ := hverified.split hrun
  obtain ⟨p, hp⟩ := hstart.safety
  obtain ⟨hready, hvoting, -, p₁, -, hp₁⟩ :=
    refines_run hstart.started.ready hstart.started.voting hp hfirst hrun
  obtain ⟨-, hvoting₂, hids, p₂, hgrows, hp₂⟩ := refines_run hready hvoting hp₁ hlast hrun'
  have hvotes := hvoting₂.2
  rw [hids] at hp₂ hvotes
  exact fun s hs i hi x hx s' hs' => hp₁.permanent hp₂ hgrows hvotes hs (hids ▸ hs') hi hx

def committedBefore : List Event :=
  [.electionTimeout (ascii "a:1"), .handle 0 false, .succeed 0 false, .handle 3 false,
    .succeed 3 false, .append (ascii "a:1") (ascii "x"), .heartbeatTimeout (ascii "a:1"),
    .handle 7 false, .succeed 7 false]

def electedAfter : List Event :=
  [.electionTimeout (ascii "c:1"), .handle 9 false, .succeed 9 false, .handle 11 false,
    .succeed 11 false]

theorem leader_completeness_elected :
    ∃ w₁ w₂, run step (cluster ["a:1", "b:1", "c:1"] true) committedBefore = some w₁ ∧
      run step w₁ electedAfter = some w₂ ∧
      (w₁.servers (ascii "a:1")).commitIndex = 2 ∧
      (w₂.servers (ascii "c:1")).role = .leader ∧
      2 ≤ (w₂.servers (ascii "c:1")).log.lastEntryIndex := by
  have hstart : (cluster ["a:1", "b:1", "c:1"] true).StartsFrom
      ((cluster ["a:1", "b:1", "c:1"] true).servers []).log
      [{ term := 1, index := 1, data := ascii "a:1,b:1,c:1", config := true }] := by decide
  have hrun := (Option.some_get (show (run step (cluster ["a:1", "b:1", "c:1"] true)
    committedBefore).isSome by decide)).symm
  refine ⟨_, _, hrun, (Option.some_get (by decide)).symm, by decide, by decide, ?_⟩
  have hverified : Along step FixedVerified (cluster ["a:1", "b:1", "c:1"] true)
      (committedBefore ++ electedAfter) := by decide
  have hall := leader_completeness hstart hverified hrun (Option.some_get (by decide)).symm
  exact ((hall (ascii "a:1") (by decide) 2 (by decide) _ rfl (ascii "c:1") (by decide)).1
    (by decide) (by decide)).1

end World

end Draft
