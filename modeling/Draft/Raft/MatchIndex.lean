import Draft.Raft.StateMachineSafety

/-!
# Match indices

What a leader knows of its followers.  A match is an index of the leader's own
log, so the commit rule finds an entry there, and a follower that is still in
the term of the leader holds what it matched.  A follower that went on to a
later term may have lost it, and a leader that has not heard of the term keeps
the match.
-/

namespace Draft

open Consensus Raft

namespace World

variable {w w' : World}

/-- The match indices of the server `s`, as far as its own log can tell. -/
structure MatchesOwn (w : World) (s : Bytes) : Prop where
  le : ∀ q ∈ (w.servers s).cluster, q.2.matchIndex ≤ (w.servers s).log.lastEntryIndex
  reads : (w.servers s).others.any (w.servers s).readsMissing = false

/-- The follower `f` has the entries up to `matchIndex` that the server `s` has. -/
structure MatchedBy (w : World) (s f : Bytes) (matchIndex : Nat) : Prop where
  le : matchIndex ≤ (w.servers f).log.lastEntryIndex
  same : ∀ i ≤ matchIndex, ∀ x ∈ (w.servers s).log.get i, ∀ y ∈ (w.servers f).log.get i,
    x.term = y.term

private theorem matchesOwn {ids : List Bytes} {V : Bytes → View} {calls : List Call} {base : List Entry}
    {p : Protocol Bytes Entry} {s : Bytes} (h : Refines ids V calls base p) (hs : s ∈ ids)
    (hV : V s = (w.servers s).view) (hrole : (w.servers s).role = .leader) : w.MatchesOwn s := by
  have hserver := h.server s hs
  rw [hV] at hserver
  have hlog : (w.servers s).log.Holds (p.log s) := hserver.holds
  have hle : ∀ q ∈ (w.servers s).cluster, q.2.matchIndex ≤ (p.log s).length := by
    intro q hq
    rw [(hserver.leader hrole).1]
    exact (hserver.matched hrole q hq).trans (h.inv.adopted_le_length _ _)
  refine ⟨fun q hq => hlog.lastEntryIndex_eq ▸ hle q hq, ?_⟩
  rw [← Bool.not_eq_true, List.any_eq_true]
  rintro ⟨n, hn, hmissing⟩
  obtain ⟨q, hq, rfl⟩ := List.mem_map.mp (List.mem_of_mem_filter hn)
  simp only [readsMissing, Bool.and_eq_true, decide_eq_true_eq, Option.isNone_iff_eq_none]
    at hmissing
  obtain ⟨hcommit, hget⟩ := hmissing
  obtain ⟨k, hk⟩ : ∃ k, q.2.matchIndex = k + 1 := ⟨q.2.matchIndex - 1, by omega⟩
  have hbase : (w.servers s).log.lastIndex ≤ (w.servers s).commitIndex := hserver.compacted
  have hlast := hle q hq
  rw [hk] at hget hcommit hlast
  rcases hlog.get_eq_none_iff.mp hget with hlow | hhigh <;> omega

private theorem matchedBy {ids : List Bytes} {V : Bytes → View} {calls : List Call} {base : List Entry}
    {p : Protocol Bytes Entry} {s f : Bytes} (h : Refines ids V calls base p) (hs : s ∈ ids)
    (hf : f ∈ ids) (hVs : V s = (w.servers s).view) (hVf : V f = (w.servers f).view)
    (hrole : (w.servers s).role = .leader)
    (hterm : (w.servers f).currTerm ≤ (w.servers s).currTerm) {q : Bytes × Node}
    (hq : q ∈ (w.servers s).cluster) (hqf : q.2.id = f) : w.MatchedBy s f q.2.matchIndex := by
  have hleader := h.server s hs
  have hfollower := h.server f hf
  rw [hVs] at hleader
  rw [hVf] at hfollower
  have hcurrent : p.current f ≤ (w.servers s).currTerm := hfollower.current.trans_le hterm
  have hheld := h.inv.held_of_le hcurrent
  have hmatched : q.2.matchIndex ≤ p.adopted f (w.servers s).currTerm :=
    hqf ▸ hleader.matched hrole q hq
  have hadopted := h.inv.adopted_le_length f (w.servers s).currTerm
  have hlog : p.log s = p.leaders.log (w.servers s).currTerm := (hleader.leader hrole).1
  rw [← hlog] at hheld hadopted
  have hlen := hheld.length_le
  rw [List.length_take, Nat.min_eq_left hadopted] at hlen
  refine ⟨?_, ?_⟩
  · have hlast : (w.servers f).log.lastEntryIndex = (p.log f).length :=
      hfollower.holds.lastEntryIndex_eq
    exact hlast ▸ hmatched.trans hlen
  · intro i hi x hx y hy
    rw [Option.mem_def] at hx hy
    cases i with
    | zero =>
        rw [EntryLogger.get_zero] at hx hy
        rw [← Option.some.inj hx, ← Option.some.inj hy]
    | succ i =>
        have hgetx : ((w.servers s).log.get (i + 1)).map LogEntry.toEntry = _ :=
          hleader.holds.get_succ_map i
        have hgety : ((w.servers f).log.get (i + 1)).map LogEntry.toEntry = _ :=
          hfollower.holds.get_succ_map i
        rw [hx] at hgetx
        rw [hy] at hgety
        split at hgetx
        · cases hgetx
        split at hgety
        · cases hgety
        have hsame := prefix_getElem? hheld
          ((List.getElem?_take_of_lt (show i < p.adopted f _ by omega)).trans hgetx.symm)
        rw [hsame] at hgety
        exact congrArg Entry.term (Option.some.inj hgety).symm

/--
In a run as `FixedVerified` says, a leader only matches what its own log has, and
a follower in no later term has the entries it matched.
-/
theorem match_index_sound {es : List Event} {log : EntryLogger} {full : List Entry}
    (hstart : w.StartsFrom log full) (hverified : Along step FixedVerified w es)
    (hrun : run step w es = some w') :
    ∀ s ∈ w'.ids, (w'.servers s).role = .leader → w'.MatchesOwn s ∧
      ∀ f ∈ w'.ids, (w'.servers f).currTerm ≤ (w'.servers s).currTerm →
        ∀ q ∈ (w'.servers s).cluster, q.2.id = f → w'.MatchedBy s f q.2.matchIndex := by
  obtain ⟨p, hp⟩ := safety_run hstart hverified hrun
  intro s hs hrole
  exact ⟨matchesOwn hp hs rfl hrole, fun f hf hterm q hq hqf =>
    matchedBy hp hs hf rfl rfl hrole hterm hq hqf⟩

theorem match_index_sound_answered :
    ∃ w', run step (cluster ["a:1", "b:1", "c:1"] true)
        [.electionTimeout (ascii "a:1"), .handle 0 false, .succeed 0 false, .handle 3 false,
          .succeed 3 false, .append (ascii "a:1") (ascii "x"), .heartbeatTimeout (ascii "a:1"),
          .handle 7 false, .succeed 7 false] = some w' ∧
      ((w'.servers (ascii "a:1")).cluster.map (·.2.matchIndex)) = [0, 0, 2] ∧
      ∀ s ∈ w'.ids, (w'.servers s).role = .leader → w'.MatchesOwn s ∧
        ∀ f ∈ w'.ids, (w'.servers f).currTerm ≤ (w'.servers s).currTerm →
          ∀ q ∈ (w'.servers s).cluster, q.2.id = f → w'.MatchedBy s f q.2.matchIndex := by
  refine ⟨_, (Option.some_get (by decide)).symm, by decide, ?_⟩
  have hstart : (cluster ["a:1", "b:1", "c:1"] true).StartsFrom
      ((cluster ["a:1", "b:1", "c:1"] true).servers []).log
      [{ term := 1, index := 1, data := ascii "a:1,b:1,c:1", config := true }] := by decide
  exact match_index_sound hstart (by decide) (Option.some_get (by decide)).symm

/--
The leader `a` of term 2 has its entry acknowledged by `b`.  Then `d` wins term 3
with the votes of `c` and `e`, and its entry takes the place of the old one at `b`.
-/
def overwrittenMatch : List Event :=
  [.electionTimeout (ascii "a:1"), .handle 0 false, .succeed 0 false, .handle 1 false,
    .succeed 1 false, .handle 4 false, .succeed 4 false, .handle 5 false, .succeed 5 false,
    .handle 10 false, .append (ascii "a:1") (ascii "x"), .heartbeatTimeout (ascii "a:1"),
    .handle 12 false, .succeed 12 false, .electionTimeout (ascii "d:1"), .handle 18 false,
    .succeed 18 false, .handle 19 false, .succeed 19 false, .handle 22 false, .succeed 22 false,
    .handle 23 false, .succeed 23 false, .append (ascii "d:1") (ascii "y"),
    .heartbeatTimeout (ascii "d:1"), .handle 29 false]

theorem match_index_overwritten :
    ¬ ∀ (w w' : World) (es : List Event) (log : EntryLogger) (full : List Entry),
      w.StartsFrom log full → Along step FixedVerified w es → run step w es = some w' →
      ∀ s ∈ w'.ids, (w'.servers s).role = .leader → ∀ f ∈ w'.ids, f ≠ s →
        ∀ q ∈ (w'.servers s).cluster, q.2.id = f → ∀ i ≤ q.2.matchIndex,
          ∀ x ∈ (w'.servers s).log.get i, ∀ y ∈ (w'.servers f).log.get i, x.term = y.term := by
  intro h
  let w := cluster ["a:1", "b:1", "c:1", "d:1", "e:1"] true
  have hstart : w.StartsFrom (w.servers []).log
      [{ term := 1, index := 1, data := ascii "a:1,b:1,c:1,d:1,e:1", config := true }] := by
    decide
  have hrun := (Option.some_get (show (run step w overwrittenMatch).isSome by decide)).symm
  exact absurd (h w _ _ _ _ hstart (by decide) hrun) (by decide)

end World

end Draft
