import Draft.Raft.CommitRule
import Draft.Raft.Merging

/-!
# What was committed stays

A server keeps its commit index, what it applied and the entries up to the
commit index, whatever request it handles, unless the request replaces one of
these entries, starts below the base of the log, or is the first of a data
transfer whose sender has compacted less.  This is shown of every server of
every run, changes of the membership included.
-/

namespace Draft

open Consensus Raft

/-! ## The log of a server -/

structure Replica.Logged (r : Replica) (full : List Entry) : Prop where
  holds : r.log.Holds full
  base_le : r.log.lastIndex ≤ r.commitIndex
  commit_le : r.commitIndex ≤ full.length
  applied_le : r.lastApplied ≤ r.commitIndex

/-- Nothing committed or applied is undone; an entry may only go below the base. -/
structure Replica.Keeps (r r' : Replica) : Prop where
  commit : r.commitIndex ≤ r'.commitIndex
  applied : r.lastApplied ≤ r'.lastApplied
  base : r.log.lastIndex ≤ r'.log.lastIndex
  entries : ∀ i ≤ r.commitIndex, ∀ e, r.log.get i = some e →
    (∃ e', r'.log.get i = some e' ∧ e'.toEntry = e.toEntry) ∨ i ≤ r'.log.lastIndex

theorem Replica.Keeps.refl (r : Replica) : r.Keeps r :=
  ⟨le_rfl, le_rfl, le_rfl, fun _ _ e he => .inl ⟨e, he, rfl⟩⟩

def Request.WellFormed : Request → Prop
  | .appendEntries req => ∃ g, Indexed g ∧ Segment g 0 req
  | .dataTransfer req => ∃ g, Indexed g ∧ g.length = req.lastIndex ∧
      termAt g req.lastIndex = some req.lastTerm
  | _ => True

namespace Raft

variable {s t : Raft} {log new : EntryLogger} {full : List Entry}

/-! ## Merging entries in any log -/

theorem mergeEntries_holds (h : log.Holds full) {entries : List Entry} {i : Nat}
    (hidx : ∀ k e, entries[k]? = some e → e.index = i + k + 1) (hi : i ≤ full.length)
    (hbase : ∀ e ∈ entries, e.index ≤ log.lastIndex → log.hasEntry e.index e.term)
    (hmerge : mergeEntries log entries = some new) :
    ∃ m rest, new.Holds (full.take m ++ rest) ∧ new.lastIndex = log.lastIndex ∧
      (m = full.length ∨ ∃ e ∈ entries, log.entryConflicted e.index e.term ∧ e.index = m + 1) := by
  induction entries generalizing i with
  | nil =>
      cases hmerge
      exact ⟨full.length, [], by simpa using h, rfl, .inl rfl⟩
  | cons e rest ih =>
      have he : e.index = i + 1 := hidx 0 e rfl
      have hnext : ∀ k x, rest[k]? = some x → x.index = i + 1 + k + 1 := by
        intro k x hx
        rw [hidx (k + 1) x (by simpa using hx)]
        omega
      rw [mergeEntries] at hmerge
      split at hmerge
      · rename_i hconflict
        have hplace := he ▸ hconflict
        obtain ⟨hlo, x, hx, -⟩ := h.entryConflicted_iff.mp hplace
        obtain ⟨chopped, hchop, hholds, hlast⟩ := h.chop hlo (lt_length_of_getElem? hx)
        rw [he, hchop, Option.map_some, Option.some.injEq] at hmerge
        subst hmerge
        refine ⟨i, e :: rest, hholds.append (makeEntries_toEntry _ _) fun k x hx => ?_, hlast,
          .inr ⟨e, List.mem_cons_self .., hconflict, he⟩⟩
        rw [hidx k x hx, List.length_take, Nat.min_eq_left hi]
      · rename_i hconflict
        split at hmerge
        · rename_i hhas
          have hlen := le_length_of_termAt (h.hasEntry_iff.mp hhas).2
          obtain ⟨m, tail, hnew, hlast, hm⟩ := ih hnext (he ▸ hlen)
            (fun x hx => hbase x (List.mem_cons_of_mem _ hx)) hmerge
          refine ⟨m, tail, hnew, hlast, hm.imp_right ?_⟩
          rintro ⟨x, hx, hrest⟩
          exact ⟨x, List.mem_cons_of_mem _ hx, hrest⟩
        · rename_i hhas
          have hend : full.length = i := by
            by_contra hne
            have hlow : log.lastIndex ≤ i := by
              by_contra hlt
              exact hhas (hbase e (List.mem_cons_self ..) (by omega))
            have hx := List.getElem?_eq_getElem (show i < full.length by omega)
            by_cases hterm : (full[i]).term = e.term
            · refine hhas (h.hasEntry_iff.mpr ⟨.inr (by omega), ?_⟩)
              rw [he, termAt, hx, ← hterm]
              rfl
            · exact hconflict (he ▸ h.entryConflicted_iff.mpr ⟨hlow, _, hx, hterm⟩)
          cases hmerge
          refine ⟨full.length, e :: rest, ?_, rfl, .inl rfl⟩
          rw [List.take_length]
          exact h.append (makeEntries_toEntry _ _) fun k x hx => by rw [hidx k x hx, hend]

private theorem keeps_of_take {r r' : Replica} {full' : List Entry} (h : r.Logged full)
    (h' : r'.log.Holds full') (hcommit : r.commitIndex ≤ r'.commitIndex)
    (happlied : r.lastApplied ≤ r'.lastApplied) (hbase : r.log.lastIndex ≤ r'.log.lastIndex)
    (htake : full'.take r.commitIndex = full.take r.commitIndex) : r.Keeps r' := by
  refine ⟨hcommit, happlied, hbase, fun i hi e he => ?_⟩
  cases i with
  | zero => exact .inr (Nat.zero_le _)
  | succ i =>
      by_cases hlow : i < r'.log.lastIndex
      · exact .inr hlow
      · have hold := h.holds.get_succ_map i
        have hnew := h'.get_succ_map i
        rw [he] at hold
        rw [if_neg hlow, getElem?_eq_of_take_eq hi htake] at hnew
        split at hold
        · cases hold
        · rw [← hold, Option.map_some, Option.map_eq_some_iff] at hnew
          exact .inl hnew

/-! ## The commit rule -/

theorem logged_adjustCommitIndex (h : s.Logged full) :
    s.adjustCommitIndex.Logged full ∧ s.Keeps s.adjustCommitIndex.toReplica := by
  rcases adjustCommitIndex_replica s with heq | ⟨i, hcommits, heq⟩
  · rw [heq]
    exact ⟨h, .refl _⟩
  · have hi : s.commitIndex ≤ i ∧ i ≤ full.length := by
      have hcommit := h.commit_le
      cases hcommits with
      | counted hlo hhi hcount =>
          rcases between_of_bounds h.holds hlo hhi with
            ⟨rfl, hnil⟩ | ⟨lo, hi, hlow, hlo, hhi, -, hhit⟩
          · rw [hnil] at hcommit ⊢
            exact ⟨hcommit, le_rfl⟩
          · have := le_length_of_termAt hhit
            omega
      | alone hone =>
          rw [h.holds.lastEntryIndex_eq]
          exact ⟨hcommit, le_rfl⟩
    rw [heq]
    exact ⟨⟨h.holds, h.base_le.trans hi.1, hi.2, h.applied_le.trans hi.1⟩,
      keeps_of_take h h.holds hi.1 le_rfl le_rfl rfl⟩

/-! ## Handlers -/

/--
The request keeps the entries up to the commit index: it starts inside the log
and conflicts above the commit index only, or installs no lower base.
-/
def Preserves (s : Raft) : Request → Prop
  | .appendEntries req => s.currTerm ≤ req.term →
      s.log.hasEntry req.prevLogIndex req.prevLogTerm → ∀ e ∈ req.entries,
        (e.index ≤ s.log.lastIndex → s.log.hasEntry e.index e.term) ∧
        (s.log.entryConflicted e.index e.term → s.commitIndex < e.index)
  | .dataTransfer req => s.currTerm ≤ req.term → req.id = 1 → s.logCompactionEnabled →
      s.commitIndex ≤ req.lastIndex
  | _ => True

instance (s : Raft) (req : Request) : Decidable (s.Preserves req) := by
  unfold Preserves
  split <;> infer_instance

def Kept (s t : Raft) : Prop := (∃ full, t.Logged full) ∧ s.Keeps t.toReplica

private theorem kept_of_eq (h : s.Logged full) (heq : t.toReplica = s.toReplica) : Kept s t := by
  unfold Kept
  rw [heq]
  exact ⟨⟨full, h⟩, .refl _⟩

private theorem kept_followEntries (h : s.Logged full) {req : AppendEntriesReq}
    (hreq : Request.WellFormed (.appendEntries req))
    (hprev : s.log.hasEntry req.prevLogIndex req.prevLogTerm)
    (hmerge : mergeEntries s.log req.entries = some new)
    (hentries : ∀ e ∈ req.entries,
      (e.index ≤ s.log.lastIndex → s.log.hasEntry e.index e.term) ∧
      (s.log.entryConflicted e.index e.term → s.commitIndex < e.index)) :
    Kept s (s.followEntries new req) := by
  obtain ⟨g, hidx, hseg⟩ := hreq
  have hprevLe := le_length_of_termAt (h.holds.hasEntry_iff.mp hprev).2
  obtain ⟨m, rest, hnew, hlast, hm⟩ := mergeEntries_holds h.holds
    (fun k e he => hseg.index hidx he) hprevLe (fun e he => (hentries e he).1) hmerge
  have hcommit := h.commit_le
  have hreach : s.commitIndex ≤ m ∧ m ≤ full.length ∨
      s.commitIndex ≤ full.length ∧ full.length ≤ m := by
    rcases hm with rfl | ⟨e, he, hconflict, hindex⟩
    · exact .inl ⟨hcommit, le_rfl⟩
    · have := (hentries e he).2 hconflict
      omega
  have hlen : s.commitIndex ≤ (full.take m).length := by
    rw [List.length_take]
    omega
  have htake : (full.take m ++ rest).take s.commitIndex = full.take s.commitIndex := by
    rw [List.take_append_of_le_length hlen, List.take_take]
    congr 1
    omega
  have hlength : s.commitIndex ≤ (full.take m ++ rest).length := by
    rw [List.length_append]
    omega
  have hbase := h.base_le
  have happlied := h.applied_le
  unfold Kept
  rw [followEntries_replica, hnew.lastEntryIndex_eq]
  have hstep : s.commitIndex ≤ (if s.commitIndex < req.leaderCommit
      then min req.leaderCommit (full.take m ++ rest).length else s.commitIndex) := by
    split <;> omega
  refine ⟨⟨full.take m ++ rest, hnew, ?_, ?_, happlied.trans hstep⟩,
    keeps_of_take h hnew hstep le_rfl hlast.ge htake⟩
  · exact hlast.trans_le (hbase.trans hstep)
  · dsimp only
    split
    · exact Nat.min_le_right _ _
    · exact hlength

private theorem kept_installBase (h : s.Logged full) {req : DataReq}
    (hreq : Request.WellFormed (.dataTransfer req)) (hcommit : s.commitIndex ≤ req.lastIndex) :
    Kept s (s.installBase req) := by
  obtain ⟨g, hidx, hlen, hterm⟩ := hreq
  unfold Kept
  rw [installBase_replica]
  refine ⟨⟨g, EntryLogger.holds_copyStates h.holds.chop_all hlen hidx hterm, le_rfl,
    hlen.ge, le_rfl⟩, hcommit, h.applied_le.trans hcommit, h.base_le.trans hcommit, ?_⟩
  exact fun i hi e _ => .inr (hi.trans hcommit)

theorem handleRequestVote_replica (s : Raft) (req : VoteReq) :
    (s.handleRequestVote req).1.toReplica = s.toReplica := by
  unfold handleRequestVote
  dsimp only
  repeat' split
  all_goals exact heedCandidate_replica s req.term

theorem handleDoneTransfer_replica (s : Raft) (req : DoneReq) :
    (s.handleDoneTransfer req).1.toReplica = s.toReplica := by
  unfold handleDoneTransfer
  dsimp only
  repeat' split
  · rfl
  all_goals exact followSender_replica s req.term req.leaderId

theorem appendEntries_replica (s : Raft) : s.appendEntries.toReplica = s.toReplica ∨
    ∃ u : Raft, u.toReplica = s.toReplica ∧
      s.appendEntries.toReplica = u.adjustCommitIndex.toReplica := by
  unfold appendEntries
  dsimp only
  split
  · exact .inl rfl
  split
  · refine .inr ⟨_, ?_, rfl⟩
    rfl
  · exact .inl rfl

private theorem handleTimeoutNow_replica (s : Raft) : s.handleTimeoutNow.1.toReplica = s.toReplica ∨
    ∃ u : Raft, u.toReplica = s.toReplica ∧
      s.handleTimeoutNow.1.toReplica = u.adjustCommitIndex.toReplica := by
  unfold handleTimeoutNow preVote leaderElection
  dsimp only
  split
  · split
    · exact appendEntries_replica _
    · exact .inl rfl
  · exact .inl rfl

private theorem kept_handleAppendEntries (h : s.Logged full) {req : AppendEntriesReq}
    (hreq : Request.WellFormed (.appendEntries req)) (hpreserves : s.Preserves (.appendEntries req)) :
    Kept s (s.handleAppendEntries req).1 := by
  unfold Raft.handleAppendEntries
  split
  · exact kept_of_eq h rfl
  · rename_i hterm
    have hheed := heedLeader_replica s req.term req.leaderId
    have hlog : (s.heedLeader req.term req.leaderId).log = s.log := congrArg Replica.log hheed
    unfold acceptEntries
    split
    · exact kept_of_eq h hheed
    · rename_i hprev
      cases hmerge : mergeEntries (s.heedLeader req.term req.leaderId).log req.entries with
      | none => exact kept_of_eq h hheed
      | some new =>
          have hprev := Decidable.not_not.mp hprev
          have hentries := hpreserves (by omega) (hlog ▸ hprev)
          have hs : (s.heedLeader req.term req.leaderId).Logged full := hheed.symm ▸ h
          have hkept := kept_followEntries hs hreq hprev hmerge (by rw [hheed]; exact hentries)
          unfold Kept at hkept ⊢
          rw [hheed] at hkept
          exact hkept

private theorem kept_handleDataTransfer (h : s.Logged full) {req : DataReq}
    (hreq : Request.WellFormed (.dataTransfer req)) (hpreserves : s.Preserves (.dataTransfer req)) :
    Kept s (s.handleDataTransfer req).1 := by
  have hfollow := followSender_replica s req.term req.leaderId
  unfold Raft.handleDataTransfer
  split
  · exact kept_of_eq h rfl
  · rename_i hterm
    dsimp only
    split
    · rename_i hone
      unfold beginTransfer
      dsimp only
      split
      · rename_i hcompaction
        have hsettings : (s.followSender req.term req.leaderId).logCompactionEnabled =
            s.logCompactionEnabled :=
          congrArg Settings.logCompactionEnabled
            (turn_followSender s req.term req.leaderId : Turn True s _).settings
        have hcommit := hpreserves (by omega) hone (hsettings ▸ hcompaction)
        let u : Raft := { s.followSender req.term req.leaderId with electionTimer := false }
        have hu : u.Logged full := hfollow.symm ▸ h
        have hkept := kept_installBase hu hreq (hfollow.symm ▸ hcommit)
        unfold Kept at hkept ⊢
        rw [show u.toReplica = s.toReplica from hfollow] at hkept
        exact hkept
      · exact kept_of_eq h hfollow
    · exact kept_of_eq h hfollow

theorem kept_serve (h : s.Logged full) (recent : Bool) {req : Request} (hreq : req.WellFormed)
    (hpreserves : s.Preserves req) : Kept s (s.serve recent req).1 := by
  cases req with
  | timeoutNow req =>
      rcases handleTimeoutNow_replica s with heq | ⟨u, hu, heq⟩
      · exact kept_of_eq h heq
      · have hlogged : u.Logged full := hu.symm ▸ h
        obtain ⟨hlogged', hkeeps⟩ := logged_adjustCommitIndex hlogged
        unfold Kept
        rw [show (s.serve recent (.timeoutNow req)).1.toReplica = _ from heq, ← hu]
        exact ⟨⟨full, hlogged'⟩, hkeeps⟩
  | preVote req => exact kept_of_eq h rfl
  | requestVote req => exact kept_of_eq h (handleRequestVote_replica s req)
  | appendEntries req => exact kept_handleAppendEntries h hreq hpreserves
  | dataTransfer req => exact kept_handleDataTransfer h hreq hpreserves
  | doneTransfer req => exact kept_of_eq h (handleDoneTransfer_replica s req)

end Raft

end Draft
