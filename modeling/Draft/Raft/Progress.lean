import Draft.Raft.CommittedWork
import Draft.Raft.Frames
import Draft.Raft.Reactions

/-!
# How far the log is applied

Only the apply loop and a data transfer move the index of the last applied
entry, only compaction and a data transfer the base of the log.  Everything else
lets the log grow behind what it holds.
-/

namespace Draft

open Consensus

namespace Raft

variable {s t : Raft}

private theorem followEntries_progress {log : EntryLogger} (h : log.lastIndex = s.log.lastIndex)
    (req : AppendEntriesReq) : (s.followEntries log req).progress = s.progress := by
  have learned : (learnCommit { s with log := log } req.leaderCommit).progress = s.progress := by
    unfold learnCommit
    split <;> simp [progress, commitTo, h]
  unfold followEntries
  dsimp only
  split
  · exact (adjustConfiguration_frame .progress _).trans learned
  · exact learned

end Raft

/-! ## What the log holds -/

def growing (full : List Entry) (commit : Nat) : Upkeep where
  ledger := fun r _ => ∃ full', r.Logged full' ∧ full <+: full' ∧ commit ≤ r.commitIndex
  request := fun _ => True
  newcomer := fun _ => True
  vote := fun _ => ⟨trivial, trivial, trivial⟩
  doneTransfer := fun _ => trivial
  appendEntries := fun _ _ _ _ => trivial
  dataTransfer := fun _ _ _ _ _ => trivial
  member := fun _ _ _ _ _ => trivial
  commit := fun _ ⟨full', h, hprefix, hcommit⟩ =>
    ⟨full', (Raft.logged_adjustCommitIndex h).1, hprefix,
      hcommit.trans (Raft.logged_adjustCommitIndex h).2.commit⟩
  entry := fun _ _ data term ⟨_, h, hprefix, hcommit⟩ =>
    ⟨_, h.append data term false, hprefix.trans (List.prefix_append _ _), hcommit⟩
  configuration := fun _ _ _ term ⟨_, h, hprefix, hcommit⟩ _ =>
    ⟨_, h.append _ term true, hprefix.trans (List.prefix_append _ _), hcommit⟩
  apply := fun _ _ _ ⟨full', h, hprefix, hcommit⟩ hlt =>
    ⟨full', ⟨h.holds, h.base_le, h.commit_le, hlt⟩, hprefix, hcommit⟩
  compact := by
    rintro r - ⟨full', h, hprefix, hcommit⟩
    obtain ⟨hholds, hbase⟩ := h.holds.drop_getD h.commit_le
    exact ⟨full', ⟨hholds, hbase.trans (max_le h.base_le le_rfl), h.commit_le, h.applied_le⟩,
      hprefix, hcommit⟩

namespace Raft

variable {s t : Raft} {full : List Entry} {m : Nat}

/-- The server goes on with the first `m` entries of its log. -/
structure Proceeds (full : List Entry) (m : Nat) (s t : Raft) : Prop where
  progress : t.progress = s.progress
  commit : s.commitIndex ≤ t.commitIndex
  log : ∃ full', t.Logged full' ∧ full'.take m = full.take m

private theorem proceeds_of_upheld (h : t.Upheld (growing full s.commitIndex))
    (hprogress : t.progress = s.progress) : Proceeds full full.length s t := by
  obtain ⟨full', hlogged, ⟨rest, rfl⟩, hcommit⟩ := h.ledger
  exact ⟨hprogress, hcommit, _, hlogged, by simp⟩

private theorem Regular.growing (h : s.Regular) (hlogged : s.Logged full) :
    s.Upheld (growing full s.commitIndex) :=
  ⟨⟨full, hlogged, List.prefix_rfl, le_rfl⟩, h.next, fun r hr => ⟨h.recfgNext r hr, trivial⟩,
    fun _ _ => trivial⟩

private theorem proceeds_of_eq (h : s.Logged full) (hreplica : t.toReplica = s.toReplica)
    (hprogress : t.progress = s.progress) : Proceeds full full.length s t := by
  refine ⟨hprogress, ?_, full, ?_, rfl⟩
  · rw [hreplica]
  · rw [hreplica]
    exact h

structure ChopsAt (s : Raft) (req : AppendEntriesReq) (e : Entry) : Prop where
  term : s.currTerm ≤ req.term
  prev : s.log.hasEntry req.prevLogIndex req.prevLogTerm
  mem : e ∈ req.entries
  conflict : s.log.entryConflicted e.index e.term

private theorem handleAppendEntries_proceeds (h : s.Logged full) {req : AppendEntriesReq}
    (hreq : Request.WellFormed (.appendEntries req))
    (hpreserves : s.Preserves (.appendEntries req)) :
    ∃ m, s.commitIndex ≤ m ∧ Proceeds full m s (s.handleAppendEntries req).1 ∧
      (m = full.length ∨ ∃ e, s.ChopsAt req e ∧ e.index = m + 1) := by
  have same : ∀ t : Raft, t.toReplica = s.toReplica → t.progress = s.progress →
      ∃ m, s.commitIndex ≤ m ∧ Proceeds full m s t ∧
        (m = full.length ∨ ∃ e, s.ChopsAt req e ∧ e.index = m + 1) :=
    fun t hreplica hprogress =>
      ⟨_, h.commit_le, proceeds_of_eq h hreplica hprogress, .inl rfl⟩
  unfold handleAppendEntries
  split
  · exact same s rfl rfl
  rename_i hterm
  have hheed := heedLeader_replica s req.term req.leaderId
  have hprogress := heedLeader_frame (s := s) .progress rfl rfl req.term req.leaderId
  have hlog : (s.heedLeader req.term req.leaderId).log = s.log := congrArg Replica.log hheed
  have hcommit : (s.heedLeader req.term req.leaderId).commitIndex = s.commitIndex :=
    congrArg Replica.commitIndex hheed
  unfold acceptEntries
  split
  · exact same _ hheed hprogress
  rename_i hprev
  rw [not_not, hlog] at hprev
  split
  · exact same _ hheed hprogress
  rename_i new hmerge
  rw [hlog] at hmerge
  have hentries := hpreserves (by omega) hprev
  obtain ⟨g, hidx, hseg⟩ := hreq
  have hprevLe := le_length_of_termAt (h.holds.hasEntry_iff.mp hprev).2
  obtain ⟨m, rest, hnew, hlast, hm⟩ := mergeEntries_holds h.holds
    (fun k e he => hseg.index hidx he) hprevLe (fun e he => (hentries e he).1) hmerge
  have hm' : s.commitIndex ≤ m ∧ m ≤ full.length := by
    have hlength := h.commit_le
    rcases hm with rfl | ⟨e, he, hconflict, hindex⟩
    · exact ⟨hlength, le_rfl⟩
    · have hlt := (hentries e he).2 hconflict
      obtain ⟨-, x, hx, -⟩ := h.holds.entryConflicted_iff.mp (hindex ▸ hconflict)
      have := lt_length_of_getElem? hx
      omega
  have htake : (full.take m).length = m := by rw [List.length_take, Nat.min_eq_left hm'.2]
  have hreplica := followEntries_replica (s.heedLeader req.term req.leaderId) new req
  rw [hheed, hnew.lastEntryIndex_eq] at hreplica
  have hraised : s.commitIndex ≤ (if s.commitIndex < req.leaderCommit
      then min req.leaderCommit (full.take m ++ rest).length else s.commitIndex) := by
    rw [List.length_append, htake]
    split <;> omega
  refine ⟨m, hm'.1, ⟨?_, ?_, full.take m ++ rest, ?_, ?_⟩, hm.imp_right ?_⟩
  · exact (followEntries_progress (hlast.trans (congrArg _ hlog.symm)) req).trans hprogress
  · dsimp only
    rw [hreplica]
    exact hraised
  · dsimp only
    rw [hreplica]
    refine ⟨hnew, hlast.trans_le (h.base_le.trans hraised), ?_, h.applied_le.trans hraised⟩
    dsimp only
    split
    · exact Nat.min_le_right _ _
    · rw [List.length_append, htake]
      omega
  · rw [List.take_append_of_le_length htake.ge, List.take_take, Nat.min_self]
  · rintro ⟨e, he, hconflict, hindex⟩
    exact ⟨e, ⟨by omega, hprev, he, hconflict⟩, hindex⟩

end Raft

/-! ## Steps of the cluster -/

namespace World

variable {w : World} {s : Raft} {full : List Entry}

def moves (w : World) : Event → Bool
  | .applyNext _ | .compact _ => true
  | .handle i _ => ((w.calls[i]?).bind (·.request.parcel)).isSome
  | _ => false

def Chops (w : World) (s : Raft) (m : Nat) : Event → Prop
  | .handle i _ => ∃ c ∈ w.calls[i]?, ∃ req x, c.request = .appendEntries req ∧
      s.ChopsAt req x ∧ x.index = m + 1
  | _ => False

theorem reaction_proceeds {e : Event} (hregular : s.Regular) (h : s.Logged full)
    (hmoves : w.moves e = false)
    (hcalls : ∀ i recent, e = .handle i recent → ∀ c ∈ w.calls[i]?,
      c.request.WellFormed ∧ s.Preserves c.request) :
    ∃ m, s.commitIndex ≤ m ∧ Raft.Proceeds full m s (w.reaction e s) ∧
      (m = full.length ∨ w.Chops s m e) := by
  have grows : w.LeavesUpAt (growing full s.commitIndex) s e →
      (w.reaction e s).progress = s.progress →
      ∃ m, s.commitIndex ≤ m ∧ Raft.Proceeds full m s (w.reaction e s) ∧
        (m = full.length ∨ w.Chops s m e) := by
    intro hleaves hprogress
    have hupheld := upheld_reaction (hregular.growing h) hleaves
    exact ⟨_, h.commit_le, Raft.proceeds_of_upheld hupheld hprogress, .inl rfl⟩
  cases e with
  | electionTimeout id => exact grows trivial (Raft.preVote_frame .progress rfl rfl rfl false)
  | heartbeatTimeout id => exact grows trivial (Raft.appendEntries_frame .progress rfl)
  | leadershipTransferTimeout id =>
      refine grows trivial ?_
      simp only [reaction]
      split
      · rfl
      · exact Raft.onLeadershipTransferTimeout_frame .progress rfl _
  | append id data => exact grows trivial (Raft.append_frame .progress rfl data)
  | transferLeadership id address =>
      exact grows trivial (Raft.leadershipTransfer_frame .progress address)
  | addServer id address => exact grows trivial (Raft.addServer_frame .progress rfl address)
  | delServer id address => exact grows trivial (Raft.delServer_frame .progress rfl address)
  | popCommitted id => exact grows trivial (Raft.popCommitted_frame .progress)
  | applyNext id => cases hmoves
  | compact id => cases hmoves
  | writeFiles id files => exact grows trivial rfl
  | handle i recent =>
      cases hc : w.calls[i]? with
      | none =>
          refine grows ?_ ?_
          · simp [LeavesUpAt, hc]
          · simp only [reaction, hc]
      | some c =>
          obtain ⟨hreq, hpreserves⟩ := hcalls i recent rfl c hc
          have hreaction : w.reaction (.handle i recent) s = (s.serve recent c.request).1 := by
            simp only [reaction, hc]
          cases hrequest : c.request with
          | timeoutNow req =>
              refine grows ?_ ?_
              · simp [LeavesUpAt, hc, hrequest]
              · rw [hreaction, hrequest]
                exact Raft.handleTimeoutNow_frame .progress rfl rfl rfl
          | preVote req =>
              refine grows ?_ ?_
              · simp [LeavesUpAt, hc, hrequest]
              · rw [hreaction, hrequest]
                rfl
          | requestVote req =>
              refine grows ?_ ?_
              · simp [LeavesUpAt, hc, hrequest]
              · rw [hreaction, hrequest]
                exact Raft.handleRequestVote_frame .progress rfl rfl req
          | appendEntries req =>
              rw [hrequest] at hreq hpreserves
              obtain ⟨m, hcommit, hproceeds, hm⟩ :=
                Raft.handleAppendEntries_proceeds h hreq hpreserves
              refine ⟨m, hcommit, ?_, hm.imp_right ?_⟩
              · rw [hreaction, hrequest]
                exact hproceeds
              · rintro ⟨x, hx, hindex⟩
                exact ⟨c, hc, req, x, hrequest, hx, hindex⟩
          | dataTransfer req => simp [moves, hc, hrequest, Request.parcel] at hmoves
          | doneTransfer req => simp [moves, hc, hrequest, Request.parcel] at hmoves
  | succeed i quick =>
      refine grows trivial ?_
      simp only [reaction]
      split
      · rfl
      · exact Raft.finish_frame .progress _ _ (Request.progress_notMem_finishes _) _
  | fail i quick =>
      refine grows trivial ?_
      simp only [reaction]
      split
      · rfl
      · exact Raft.finish_frame .progress _ _ (Request.progress_notMem_finishes _) _

end World

end Draft
