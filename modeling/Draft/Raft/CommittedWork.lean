import Draft.Raft.Retention
import Draft.Raft.Upkeep

/-!
# Committed work is kept

Every server keeps its indices in order and its requests well formed.  With
this, in every run whose requests keep what is committed, no request undoes it.
-/

namespace Draft

open Consensus Raft

namespace Raft

/-- A server whose indices are in order and whose calls are built from its log. -/
structure Regular (s : Raft) : Prop where
  logged : ∃ full, s.Logged full
  next : ∀ p ∈ s.cluster, 0 < p.2.nextIndex
  recfgNext : ∀ r ∈ s.recfg, 0 < r.n.nextIndex
  sent : ∀ o ∈ s.sent, o.request.WellFormed

variable {s : Raft} {full : List Entry}

theorem wellFormed_appendEntriesReq (h : s.log.Holds full) {n : Node} (hn : 0 < n.nextIndex) :
    Request.WellFormed (.appendEntries (s.appendEntriesReq n)) := by
  have hseg := appendEntriesReq_segment h n hn
  exact ⟨full, h.indexed, hseg.prev_le, hseg.prev_term,
    hseg.entries.imp_right fun hrest => ⟨Nat.zero_le _, hrest.2⟩⟩

theorem wellFormed_dataReq (h : s.log.Holds full) (number : Nat) (name data : Bytes) :
    Request.WellFormed (.dataTransfer (s.dataReq number name data)) := by
  cases hcompaction : s.logCompactionEnabled with
  | false =>
      refine ⟨[], by simp [Indexed], ?_, ?_⟩
      · simp [Raft.dataReq, hcompaction]
      · simp [Raft.dataReq, hcompaction, termAt]
  | true =>
      have hlast : (s.dataReq number name data).lastIndex = s.log.lastIndex := by
        simp [Raft.dataReq, hcompaction]
      have hterm : (s.dataReq number name data).lastTerm = s.log.lastTerm := by
        simp [Raft.dataReq, hcompaction]
      refine ⟨full.take s.log.lastIndex, h.indexed.take _, ?_, ?_⟩
      · rw [hlast, List.length_take, Nat.min_eq_left h.base_le]
      · rw [hlast, hterm, termAt_take le_rfl]
        exact h.base_term

end Raft

theorem Replica.Logged.append {r : Replica} {full : List Entry} (h : r.Logged full)
    (data : Bytes) (term : Nat) (config : Bool) :
    Replica.Logged { r with
        log := r.log.append [r.log.makeEntry data (r.log.lastEntryIndex + 1) term config] }
      (full ++ [{ term, index := full.length + 1, data, config }]) := by
  refine ⟨h.holds.append_entry data term config, h.base_le, ?_, h.applied_le⟩
  rw [List.length_append]
  exact Nat.le_add_right_of_le h.commit_le

def indicesInOrder : Upkeep where
  ledger := fun r _ => ∃ full, r.Logged full
  request := Request.WellFormed
  newcomer := fun _ => True
  vote := fun _ => ⟨trivial, trivial, trivial⟩
  doneTransfer := fun _ => trivial
  appendEntries := fun _ _ ⟨_, h⟩ hn => wellFormed_appendEntriesReq h.holds hn
  dataTransfer := fun _ number name data ⟨_, h⟩ => wellFormed_dataReq h.holds number name data
  member := fun _ _ _ _ _ => trivial
  commit := fun _ ⟨full, h⟩ => ⟨full, (logged_adjustCommitIndex h).1⟩
  entry := fun _ _ data term ⟨_, h⟩ => ⟨_, h.append data term false⟩
  configuration := fun _ _ _ term ⟨_, h⟩ _ => ⟨_, h.append _ term true⟩
  apply := fun _ _ _ ⟨full, h⟩ hlt => ⟨full, h.holds, h.base_le, h.commit_le, hlt⟩
  compact := by
    rintro r - ⟨full, h⟩
    obtain ⟨hholds, hbase⟩ := h.holds.drop_getD h.commit_le
    exact ⟨full, hholds, hbase.trans (max_le h.base_le le_rfl), h.commit_le, h.applied_le⟩

private theorem Raft.regular_iff {s : Raft} : s.Regular ↔ s.Upheld indicesInOrder :=
  ⟨fun h => ⟨h.logged, h.next, fun r hr => ⟨h.recfgNext r hr, trivial⟩, h.sent⟩,
    fun h => ⟨h.ledger, h.next, fun r hr => (h.recfg r hr).1, h.sent⟩⟩

/-! ## Runs -/

namespace World

variable {w w' : World} {e : Event}

/-- A request is handled where it keeps what is committed. -/
def Preserves (w : World) : Event → Prop
  | .handle i _ => ∀ c ∈ w.calls[i]?, (w.servers c.dst).Preserves c.request
  | _ => True

instance (w : World) (e : Event) : Decidable (w.Preserves e) := by
  unfold Preserves
  split <;> infer_instance

structure InOrder (w : World) : Prop where
  regular : ∀ id ∈ w.ids, (w.servers id).Regular
  requests : ∀ c ∈ w.calls, c.request.WellFormed

private theorem inOrder_iff : w.InOrder ↔ w.Upheld indicesInOrder :=
  ⟨fun h => ⟨fun id hid => regular_iff.mp (h.regular id hid), h.requests⟩,
    fun h => ⟨fun id hid => regular_iff.mpr (h.servers id hid), h.requests⟩⟩

theorem inOrder_step (h : w.InOrder) (hpreserves : w.Preserves e) (hstep : w.step e = some w') :
    w'.InOrder := by
  refine inOrder_iff.mpr (upheld_step (inOrder_iff.mp h) ?_ hstep)
  cases e with
  | handle i recent =>
      intro c hc hdst
      obtain ⟨full, hlogged⟩ := (h.regular c.dst hdst).logged
      have hkept := (kept_serve hlogged recent (h.requests c (List.mem_of_getElem? hc))
        (hpreserves c hc)).1
      constructor
      · intro r hr
        rw [hr] at hkept
        exact hkept
      · intro r hr
        rw [hr] at hkept
        exact hkept
  | _ => trivial

theorem inOrder_boot {ids : List Bytes} {settings : Bytes → Settings} {log : EntryLogger}
    {full : List Entry} {currTerm : Bytes → Nat} {votedFor : Bytes → Bytes}
    {files : Bytes → Sender} (hlog : log.Holds full) :
    (World.boot ids settings log currTerm votedFor files).InOrder :=
  inOrder_iff.mpr (upheld_boot fun _ _ => ⟨full, hlog, le_rfl, hlog.base_le, le_rfl⟩)

/--
In a run whose requests keep what is committed, membership changes included,
no request that a server handles undoes committed work.
-/
theorem committed_kept {es : List Event} {i : Nat} {recent : Bool} {w'' : World}
    (hstart : w.InOrder) (hpreserves : Along step Preserves w es)
    (hrun : run step w es = some w') (hnext : w'.Preserves (.handle i recent))
    (hstep : w'.step (.handle i recent) = some w'') :
    ∀ id ∈ w'.ids, (w'.servers id).Keeps (w''.servers id).toReplica := by
  have h : w'.InOrder := run_invariant (P := InOrder)
    (fun _ _ _ hpreserves h hstep => inOrder_step h hpreserves hstep) hpreserves hstart hrun
  intro id hid
  simp only [step] at hstep
  split at hstep
  · cases hstep
  · rename_i c hc
    unfold handleCall at hstep
    split at hstep
    · cases hstep
      by_cases hdst : id = c.dst
      · subst hdst
        rw [act_self]
        obtain ⟨full, hlogged⟩ := (h.regular _ hid).logged
        exact (Raft.kept_serve hlogged recent (h.requests c (List.mem_of_getElem? hc))
          (hnext c hc)).2
      · rw [act_of_ne _ _ hdst]
        exact .refl _
    · cases hstep

theorem inOrder_cluster : (cluster ["a:1", "b:1", "c:1"] true).InOrder := by
  have hlog : ((cluster ["a:1", "b:1", "c:1"] true).servers []).log.Holds
      [{ term := 1, index := 1, data := ascii "a:1,b:1,c:1", config := true }] := by decide
  exact inOrder_boot hlog

theorem committed_kept_followed :
    ∃ w' w'', run step (cluster ["a:1", "b:1", "c:1"] true)
        [.electionTimeout (ascii "a:1"), .handle 0 false, .succeed 0 false, .handle 3 false,
          .succeed 3 false, .append (ascii "a:1") (ascii "x"), .heartbeatTimeout (ascii "a:1")]
        = some w' ∧
      w'.step (.handle 7 false) = some w'' ∧ ((w''.servers (ascii "c:1")).log.get 2).isSome ∧
      ∀ id ∈ w'.ids, (w'.servers id).Keeps (w''.servers id).toReplica := by
  refine ⟨_, _, (Option.some_get (by decide)).symm, (Option.some_get (by decide)).symm,
    by decide, ?_⟩
  exact committed_kept inOrder_cluster (by decide) (Option.some_get (by decide)).symm (by decide)
    (Option.some_get (by decide)).symm

/--
The leader `a` sends `c` the same entry twice.  The second request arrives after
`c` compacted its log up to the entry, and `c` refuses it.  So `a`, which has
compacted nothing, starts a data transfer from index 0.
-/
def lateRefusal : List Event :=
  [.electionTimeout (ascii "a:1"), .handle 0 false, .succeed 0 false, .handle 3 false,
    .succeed 3 false, .append (ascii "a:1") (ascii "x"), .heartbeatTimeout (ascii "a:1"),
    .heartbeatTimeout (ascii "a:1"), .handle 7 false, .succeed 7 false,
    .heartbeatTimeout (ascii "a:1"), .handle 11 false, .popCommitted (ascii "c:1"),
    .applyNext (ascii "c:1"), .applyNext (ascii "c:1"), .compact (ascii "c:1"),
    .handle 9 false, .succeed 9 false]

theorem committed_undone :
    ¬ ∀ (w' w'' : World) (es : List Event) (i : Nat) (recent : Bool),
      run step (cluster ["a:1", "b:1", "c:1"] true) es = some w' →
      w'.step (.handle i recent) = some w'' →
      ∀ id ∈ w'.ids, (w'.servers id).Keeps (w''.servers id).toReplica := by
  intro h
  have hrun := (Option.some_get (show (run step (cluster ["a:1", "b:1", "c:1"] true)
    lateRefusal).isSome by decide)).symm
  have hstep := (Option.some_get (show (run step (cluster ["a:1", "b:1", "c:1"] true)
    (lateRefusal ++ [.handle 12 false])).isSome by decide)).symm
  have hkeeps := h _ _ _ 12 false hrun hstep (ascii "c:1") (by decide)
  exact absurd hkeeps.commit (by decide)

end World

end Draft
