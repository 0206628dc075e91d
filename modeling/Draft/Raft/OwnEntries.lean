import Draft.Foundation.EntryChain
import Draft.Raft.Creation
import Draft.Raft.Merged

/-!
# Configuration entries that stay

The logs of a run stay in order as long as no request names below the base of a
log an entry that is not held there.  A log in order keeps a configuration entry
and the chain down to it, unless a request conflicts with the log up to the
entry, or a base takes its place.
-/

namespace Draft

open Consensus Raft

/-- The log of every server runs from its base, wherever the commit index is. -/
def logsInOrder : Upkeep where
  ledger := fun r _ => ∃ full, r.log.Holds full
  request := Request.WellFormed
  newcomer := fun _ => True
  vote := indicesInOrder.vote
  doneTransfer := fun _ => trivial
  appendEntries := fun _ _ ⟨_, h⟩ hn => wellFormed_appendEntriesReq h hn
  dataTransfer := fun _ number name data ⟨_, h⟩ => wellFormed_dataReq h number name data
  member := fun _ _ _ _ _ => trivial
  commit := fun s ⟨full, h⟩ => ⟨full, adjustCommitIndex_log s ▸ h⟩
  entry := fun _ _ data term ⟨_, h⟩ => ⟨_, h.append_entry data term false⟩
  configuration := fun _ _ _ term ⟨_, h⟩ _ => ⟨_, h.append_entry _ term true⟩
  apply := fun _ _ _ h _ => h
  compact := by
    rintro r - ⟨full, h⟩
    refine ⟨full, ?_⟩
    rcases Nat.lt_or_ge full.length r.commitIndex with hlt | hle
    · rw [h.drop_eq_none (.inr hlt)]
      exact h
    · exact (h.drop_getD hle).1

namespace Raft

variable {s : Raft} {x : LogEntry} {full : List Entry}

/-! ## The requests -/

/-- The request names at or below the base only entries that are held. -/
def NamesHeld (s : Raft) : Request → Prop
  | .appendEntries req => s.currTerm ≤ req.term →
      s.log.hasEntry req.prevLogIndex req.prevLogTerm → ∀ e ∈ req.entries,
        e.index ≤ s.log.lastIndex → s.log.hasEntry e.index e.term
  | _ => True

/-- The request conflicts above the entry only, and installs no base. -/
def Spares (s : Raft) (x : LogEntry) : Request → Prop
  | .appendEntries req => s.currTerm ≤ req.term →
      s.log.hasEntry req.prevLogIndex req.prevLogTerm → ∀ e ∈ req.entries,
        s.log.entryConflicted e.index e.term → x.index < e.index
  | .dataTransfer req => ¬ (s.currTerm ≤ req.term ∧ req.id = 1 ∧ s.logCompactionEnabled)
  | _ => True

instance (s : Raft) : (req : Request) → Decidable (s.NamesHeld req)
  | .appendEntries _ => by unfold NamesHeld; infer_instance
  | .timeoutNow _ | .preVote _ | .requestVote _ | .dataTransfer _ | .doneTransfer _ =>
      instDecidableTrue

instance (s : Raft) (x : LogEntry) : (req : Request) → Decidable (s.Spares x req)
  | .appendEntries _ | .dataTransfer _ => by unfold Spares; infer_instance
  | .timeoutNow _ | .preVote _ | .requestVote _ | .doneTransfer _ => instDecidableTrue

private theorem handleDataTransfer_cases (s : Raft) (req : DataReq) :
    (s.handleDataTransfer req).1.toReplica = s.toReplica ∨
      (s.currTerm ≤ req.term ∧ req.id = 1 ∧ s.logCompactionEnabled) ∧
        (s.handleDataTransfer req).1.log =
          ((s.log.chop (s.log.lastIndex + 1)).getD s.log).copyStates req.lastConfig
            req.lastIndex req.lastTerm := by
  have hfollow := followSender_replica s req.term req.leaderId
  have hsettings : (s.followSender req.term req.leaderId).logCompactionEnabled =
      s.logCompactionEnabled :=
    congrArg Settings.logCompactionEnabled
      (turn_followSender s req.term req.leaderId : Turn True s _).settings
  unfold handleDataTransfer beginTransfer
  dsimp only
  split
  · exact .inl rfl
  rename_i hterm
  split
  · rename_i hone
    split
    · rename_i hcompaction
      refine .inr ⟨⟨by omega, hone, hsettings ▸ hcompaction⟩, ?_⟩
      rw [installBase_replica]
      simp only [congrArg Replica.log hfollow]
    · exact .inl hfollow
  · exact .inl hfollow

private theorem holds_handleAppendEntries (h : s.log.Holds full) {req : AppendEntriesReq}
    (hreq : Request.WellFormed (.appendEntries req))
    (hnames : s.NamesHeld (.appendEntries req)) :
    ∃ full', (s.handleAppendEntries req).1.log.Holds full' := by
  rcases handleAppendEntries_cases s req with ⟨-, hsame⟩ | ⟨hterm, hprev, new, hmerge, -, hnew⟩
  · exact ⟨full, congrArg Replica.log hsame ▸ h⟩
  · obtain ⟨g, hidx, hseg⟩ := hreq
    obtain ⟨m, rest, hholds, -⟩ := mergeEntries_holds h (fun k e he => hseg.index hidx he)
      (le_length_of_termAt (h.hasEntry_iff.mp hprev).2) (hnames hterm hprev) hmerge
    rw [hnew]
    exact ⟨_, hholds⟩

private theorem holds_handleDataTransfer (h : s.log.Holds full) {req : DataReq}
    (hreq : Request.WellFormed (.dataTransfer req)) :
    ∃ full', (s.handleDataTransfer req).1.log.Holds full' := by
  rcases handleDataTransfer_cases s req with hsame | ⟨-, hlog⟩
  · exact ⟨full, congrArg Replica.log hsame ▸ h⟩
  · obtain ⟨g, hidx, hlen, hterm⟩ := hreq
    rw [hlog]
    exact ⟨g, EntryLogger.holds_copyStates h.chop_all hlen hidx hterm⟩

private theorem chainedTo_merge {log new : EntryLogger} {entries : List Entry} (hx : log.ChainedTo x)
    (hcons : log.Consecutive) (hnew : new.Consecutive)
    (hspares : ∀ e ∈ entries, log.entryConflicted e.index e.term → x.index < e.index)
    (hmerge : mergeEntries log entries = some new) : new.ChainedTo x := by
  rcases mergeEntries_cases hmerge with ⟨-, rfl⟩ | ⟨e, rest, kept, hfirst, rfl, hkept⟩
  · exact hx
  refine EntryLogger.ChainedTo.append ?_ hnew fun d hd hconfig => (mem_makeEntries hd).2 hconfig
  rcases hkept with ⟨-, rfl⟩ | ⟨hconflict, hchop⟩
  · exact hx
  · exact hx.chop hcons (hspares e (mem_of_newEntries (hfirst ▸ List.mem_cons_self)) hconflict)
      hchop

/-- A request that spares the entry leaves it and the chain down to it. -/
theorem chainedTo_serve (h : s.log.Holds full) (recent : Bool) {req : Request}
    (hreq : req.WellFormed) (hnames : s.NamesHeld req) (hspares : s.Spares x req)
    (hx : s.log.ChainedTo x) : (s.serve recent req).1.log.ChainedTo x := by
  have kept : ∀ {t : Raft}, t.log = s.log → t.log.ChainedTo x := fun ht => ht.symm ▸ hx
  cases req with
  | timeoutNow req =>
      exact kept (t := s.handleTimeoutNow.1) (preVote_log { s with electionTimer := false } true)
  | preVote req => exact kept rfl
  | requestVote req => exact kept (congrArg Replica.log (handleRequestVote_replica s req))
  | appendEntries req =>
      change (s.handleAppendEntries req).1.log.ChainedTo x
      obtain ⟨full', hfull'⟩ := holds_handleAppendEntries h hreq hnames
      rcases handleAppendEntries_cases s req with ⟨-, hsame⟩ | ⟨hterm, hprev, new, hmerge, -, hnew⟩
      · exact kept (congrArg Replica.log hsame)
      · have hlog : (s.handleAppendEntries req).1.log = new := congrArg Replica.log hnew
        rw [hlog] at hfull' ⊢
        exact chainedTo_merge hx h.consecutive hfull'.consecutive (hspares hterm hprev) hmerge
  | dataTransfer req =>
      rcases handleDataTransfer_cases s req with hsame | ⟨htaken, -⟩
      · exact kept (t := (s.handleDataTransfer req).1) (congrArg Replica.log hsame)
      · exact absurd htaken hspares
  | doneTransfer req =>
      exact kept (t := (s.handleDoneTransfer req).1)
        (congrArg Replica.log (handleDoneTransfer_replica s req))

def CompactsBelow (s : Raft) (x : LogEntry) : Prop :=
  ∀ index ∈ s.callback, s.logCompactionEnabled → index = s.commitIndex → index < x.index

instance (s : Raft) (x : LogEntry) : Decidable (s.CompactsBelow x) :=
  inferInstanceAs (Decidable (∀ index ∈ _, _))

theorem chainedTo_compact (h : s.log.Holds full) (hbelow : s.CompactsBelow x)
    (hx : s.log.ChainedTo x) : s.compact.log.ChainedTo x := by
  unfold compact
  split
  · exact hx
  rename_i index hindex
  dsimp only
  split
  · rename_i hcond
    have hlt := hbelow index hindex hcond.1 hcond.2
    cases hdrop : s.log.drop index with
    | none => exact hx
    | some new => exact hx.drop h.consecutive hlt hdrop
  · exact hx

end Raft

/-! ## Steps -/

namespace World

variable {w w' : World} {e : Event}

/-- A request is handled where it names at or below the base only entries that are held. -/
def NamesHeld (w : World) : Event → Prop
  | .handle i _ => ∀ c ∈ w.calls[i]?, (w.servers c.dst).NamesHeld c.request
  | _ => True

def Spares (w : World) (x : LogEntry) : Event → Prop
  | .handle i _ => ∀ c ∈ w.calls[i]?, (w.servers c.dst).Spares x c.request
  | .compact id => (w.servers id).CompactsBelow x
  | _ => True

instance (w : World) : (e : Event) → Decidable (w.NamesHeld e)
  | .handle .. => by unfold NamesHeld; infer_instance
  | .electionTimeout _ | .heartbeatTimeout _ | .leadershipTransferTimeout _ | .append ..
  | .transferLeadership .. | .addServer .. | .delServer .. | .popCommitted _ | .applyNext _
  | .compact _ | .writeFiles .. | .succeed .. | .fail .. => instDecidableTrue

instance (w : World) (x : LogEntry) : (e : Event) → Decidable (w.Spares x e)
  | .handle .. | .compact _ => by unfold Spares; infer_instance
  | .electionTimeout _ | .heartbeatTimeout _ | .leadershipTransferTimeout _ | .append ..
  | .transferLeadership .. | .addServer .. | .delServer .. | .popCommitted _ | .applyNext _
  | .writeFiles .. | .succeed .. | .fail .. => instDecidableTrue

theorem InOrder.logs (h : w.InOrder) : w.Upheld logsInOrder where
  servers := by
    intro id hid
    obtain ⟨⟨full, hlogged⟩, hnext, hrecfg, hsent⟩ := h.regular id hid
    exact ⟨⟨full, hlogged.holds⟩, hnext, fun r hr => ⟨hrecfg r hr, trivial⟩, hsent⟩
  requests := h.requests

theorem logsInOrder_step (h : w.Upheld logsInOrder) (hnames : w.NamesHeld e)
    (hstep : w.step e = some w') : w'.Upheld logsInOrder := by
  refine upheld_step h ?_ hstep
  cases e with
  | handle i recent =>
      intro c hc hdst
      obtain ⟨full, hholds⟩ := (h.servers c.dst hdst).ledger
      have hreq := h.requests c (List.mem_of_getElem? hc)
      have hnames := hnames c hc
      constructor
      · intro r hr
        rw [hr] at hreq hnames
        exact holds_handleAppendEntries hholds hreq hnames
      · intro r hr
        rw [hr] at hreq
        exact holds_handleDataTransfer hholds hreq
  | _ => trivial

end World

end Draft
