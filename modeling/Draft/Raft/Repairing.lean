import Draft.Raft.Pairs

/-!
# Repairing the log of a follower

A request that the follower takes gives it the entries of the leader, unless it has more,
or the request has its entries appended again.  One that it refuses makes the leader ask
from behind the follower's last entry on, or send its files.
-/

namespace Draft

open Consensus Raft

namespace Pair

variable {l : Raft} {g full : List Entry} {node : Bytes} {files : Sender} {n : Node} {x : Pair}
  {s f : Raft} {log new : EntryLogger} (recent quick : Bool)

/-- No call is under way, the follower has the entries of the leader, and the leader knows. -/
structure Repaired (g : List Entry) (node : Bytes) (x : Pair) : Prop where
  rest : x.call = none
  leader : x.leader.log.Holds g
  follower : x.follower.log.entries.map LogEntry.toEntry = g.drop x.follower.log.lastIndex
  matched : (x.leader.findNode node).map (·.matchIndex) = some x.leader.log.lastEntryIndex

theorem repaired (h : Stands l g node files (matched n g.length) x) (hrest : x.call = none)
    (hfollower : x.follower.log.entries.map LogEntry.toEntry = g.drop x.follower.log.lastIndex) :
    Repaired g node x := by
  refine ⟨hrest, h.leads.logged.holds, hfollower, ?_⟩
  rw [h.leads.hasNode.findNode, h.leads.last]
  rfl

theorem Asks.not_repaired (h : Asks l n x.call) : ¬ Repaired g node x := by
  intro hrepaired
  obtain ⟨commit, hcall⟩ := h
  rw [hrepaired.rest] at hcall
  cases hcall

/-! ## Requests that are taken -/

/-- A request from index 1 on for a follower that has compacted its first entries away. -/
def Reappends (log : EntryLogger) (req : AppendEntriesReq) : Prop :=
  req.prevLogIndex = 0 ∧ log.lastIndex ≠ 0 ∧
    req.entries.head?.any fun e => !log.hasEntry e.index e.term

instance (log : EntryLogger) (req : AppendEntriesReq) : Decidable (Reappends log req) :=
  inferInstanceAs (Decidable (_ ∧ _))

theorem asks_behind (hg : l.log.Holds g) {p : Nat} (hn : n.nextIndex = p + 1)
    (hlo : l.log.lastIndex ≤ p) (hhi : p ≤ g.length) :
    (l.appendEntriesReq n).prevLogIndex = p ∧
      termAt g p = some (l.appendEntriesReq n).prevLogTerm := by
  have hprev : (l.appendEntriesReq n).prevLogIndex = p := by
    rw [prevLogIndex_eq hg hn hhi]
    split <;> omega
  have hterm := (appendEntriesReq_segment hg n (by omega)).prev_term
  rw [hprev] at hterm
  exact ⟨hprev, hterm⟩

theorem starts (hg : l.log.Holds g) (hf : log.Holds full) (hagree : Agree full g) {p : Nat}
    (hn : n.nextIndex = p + 1) (hlo : l.log.lastIndex ≤ p) (hhi : p ≤ g.length)
    (hhas : log.hasEntry (l.appendEntriesReq n).prevLogIndex
      (l.appendEntriesReq n).prevLogTerm = true)
    (hnew : ¬ Reappends log (l.appendEntriesReq n)) :
    log.lastIndex ≤ p ∧ p ≤ full.length ∧ full.take p = g.take p ∨
      p = 0 ∧ (g = [] ∨ log.lastIndex = 1 ∧ 0 < g.length ∧ full.take 1 = g.take 1) := by
  obtain ⟨hprev, hterm⟩ := asks_behind hg hn hlo hhi
  obtain ⟨hbase, hheld⟩ := hf.hasEntry_iff.mp hhas
  rw [hprev] at hbase hheld
  have htake := hagree.take_of_termAt hheld hterm
  by_cases hlow : log.lastIndex ≤ p
  · exact .inl ⟨hlow, le_length_of_termAt hheld, htake⟩
  · have hzero : p = 0 := hbase.resolve_right hlow
    subst hzero
    refine .inr ⟨rfl, ?_⟩
    cases hgc : g with
    | nil => exact .inl rfl
    | cons e rest =>
        have hone : e.index = 1 := hg.indexed 0 e (by simp [hgc])
        have hhead : log.hasEntry 1 e.term = true := by
          by_contra hmissing
          refine hnew ⟨hprev, by omega, ?_⟩
          rw [appendEntriesReq_entries hg hn hlo, hgc]
          simpa [hone] using hmissing
        obtain ⟨hle, hfirst⟩ := hf.hasEntry_iff.mp hhead
        have hsame := hagree.take_of_termAt hfirst (by simp [termAt, hgc])
        exact .inr ⟨by omega, by simp, hgc ▸ hsame⟩

theorem merge_above (hg : l.log.Holds g) (hf : log.Holds full) (hagree : Agree full g) {p : Nat}
    (hn : n.nextIndex = p + 1) (hlo : l.log.lastIndex ≤ p) (hhi : p ≤ g.length)
    (hhas : log.hasEntry (l.appendEntriesReq n).prevLogIndex
      (l.appendEntriesReq n).prevLogTerm = true)
    (hnew : ¬ Reappends log (l.appendEntriesReq n)) :
    ∃ new, mergeEntries log (l.appendEntriesReq n).entries = some new ∧
      new.lastIndex = log.lastIndex ∧
      (new = log ∧ g <+: full ∨ new.Holds g ∧ ¬ g <+: full) := by
  rw [appendEntriesReq_entries hg hn hlo]
  rcases starts hg hf hagree hn hlo hhi hhas hnew with
    ⟨hlow, hlen, htake⟩ | ⟨rfl, rfl | ⟨hbase, hpos, htake⟩⟩
  · exact mergeEntries_drop hf hg.indexed hagree hlow hlen htake
  · exact ⟨log, rfl, rfl, .inl ⟨rfl, List.nil_prefix⟩⟩
  · exact mergeEntries_drop_base hf hg.indexed hagree hbase htake hpos

theorem step_repairs (hl : l.Presides node) (h : Stands l g node files n x)
    (hf : x.follower.log.Holds full) (hasks : Asks l n x.call) (hn : Replicates n)
    (hagree : Agree full g) {p : Nat} (hnext : n.nextIndex = p + 1) (hlo : l.log.lastIndex ≤ p)
    (hhi : p ≤ g.length)
    (hhas : x.follower.log.hasEntry (l.appendEntriesReq n).prevLogIndex
      (l.appendEntriesReq n).prevLogTerm = true)
    (hnew : ¬ Reappends x.follower.log (l.appendEntriesReq n))
    (hreach : g <+: full → full.length ≤ g.length) :
    Repaired g node (step node recent quick x) ∧
      (step node recent quick x).follower.log.lastIndex = x.follower.log.lastIndex := by
  have hg : l.log.Holds g := h.leads.holds
  obtain ⟨new, hmerge, hbase, hcases⟩ := merge_above hg hf hagree hnext hlo hhi hhas hnew
  have hholds : new.Holds g := by
    rcases hcases with ⟨rfl, hpart⟩ | ⟨hholds, -⟩
    · rw [hpart.eq_of_length_le (hreach hpart)]
      exact hf
    · exact hholds
  obtain ⟨hstands, hcall, hlog⟩ := step_matches recent quick hl h hasks hn hhas hmerge
    hholds.lastEntryIndex_eq le_rfl
  refine ⟨repaired hstands hcall ?_, hlog ▸ hbase⟩
  rw [hlog]
  exact hholds.entries

theorem step_extends (hl : l.Presides node) (h : Stands l g node files n x)
    (hf : x.follower.log.Holds full) (hasks : Asks l n x.call) (hn : Replicates n)
    (hagree : Agree full g) (hpart : full <+: g) (hlo : l.log.lastIndex ≤ full.length)
    (hnext : n.nextIndex = full.length + 1) :
    Repaired g node (step node recent quick x) ∧
      (step node recent quick x).follower.log.lastIndex = x.follower.log.lastIndex := by
  obtain ⟨hprev, hterm⟩ := asks_behind h.leads.holds hnext hlo hpart.length_le
  refine step_repairs recent quick hl h hf hasks hn hagree hnext hlo hpart.length_le ?_ ?_
    fun _ => hpart.length_le
  · rw [hprev, hf.hasEntry_iff]
    exact ⟨.inr hf.base_le, (termAt_part hpart le_rfl).trans hterm⟩
  · rintro ⟨hzero, hbase, -⟩
    have := hf.base_le
    omega

/-! ## Entries that are appended again -/

def reappended (log : EntryLogger) (g : List Entry) : EntryLogger :=
  log.append (makeEntries log g)

theorem reappended_entries (log : EntryLogger) (g : List Entry) :
    (reappended log g).entries.map LogEntry.toEntry =
      log.entries.map LogEntry.toEntry ++ g := by
  rw [reappended, EntryLogger.append, List.map_append, makeEntries_toEntry]

theorem reappended_lastEntry (hg : Indexed g) (hne : g ≠ []) :
    (reappended log g).lastEntry.index = g.length := by
  have hpos := List.length_pos_iff.mpr hne
  have hlast : g.getLast? = some g[g.length - 1] := by
    rw [List.getLast?_eq_getElem?]
    exact List.getElem?_eq_getElem (by omega)
  have hmap : ((reappended log g).entries.map LogEntry.toEntry).getLast? =
      some g[g.length - 1] := by
    rw [reappended_entries, List.getLast?_append, hlast, Option.some_or]
  rw [List.getLast?_map, Option.map_eq_some_iff] at hmap
  obtain ⟨e, he, heq⟩ := hmap
  have hidx : g[g.length - 1].index = g.length - 1 + 1 :=
    hg _ _ (List.getElem?_eq_getElem (by omega))
  rw [EntryLogger.lastEntry, he, Option.getD_some, show e.index = e.toEntry.index from rfl, heq,
    hidx]
  omega

theorem reappended_lastEntryIndex (hg : Indexed g) (hne : g ≠ []) :
    (reappended log g).lastEntryIndex = g.length := by
  have hentries : (reappended log g).entries ≠ [] := by
    intro hnil
    have := reappended_entries log g
    rw [hnil, List.map_nil] at this
    exact hne (List.append_eq_nil_iff.mp this.symm).2
  rw [EntryLogger.lastEntryIndex, if_neg hentries, reappended_lastEntry hg hne]

theorem reappended_belowFirst (hf : log.Holds full) (hg : Indexed g) (hne : g ≠ []) {i : Nat}
    (hi : 0 < i) :
    (reappended log g).belowFirst i = true ↔ log.entries ≠ [] ∧ i ≤ log.lastIndex := by
  have hbelow : ∀ e : LogEntry, (reappended log g).entries.head? = some e →
      ((reappended log g).belowFirst i = true ↔ i < e.index) := by
    intro e he
    rw [EntryLogger.belowFirst, he, Option.any_some, decide_eq_true_eq]
  cases hlog : log.entries with
  | nil =>
      obtain ⟨e, rest, rfl⟩ := List.exists_cons_of_ne_nil hne
      have hone : e.index = 0 + 1 := hg 0 e rfl
      rw [hbelow (log.makeEntry e.data e.index e.term e.config) (by
        rw [reappended, EntryLogger.append, hlog]
        rfl)]
      refine iff_of_false ?_ fun h => h.1 rfl
      rw [show (log.makeEntry e.data e.index e.term e.config).index = e.index from rfl, hone]
      omega
  | cons a rest =>
      have ha : a.index = log.lastIndex + 0 + 1 :=
        hf.index_of_getElem? (k := 0) (e := a) (by rw [hlog]; rfl)
      rw [hbelow a (by rw [reappended, EntryLogger.append, hlog]; rfl), ha, Nat.add_zero,
        Nat.lt_succ_iff]
      exact ⟨fun hle => ⟨List.cons_ne_nil a rest, hle⟩, And.right⟩

/-- The follower takes the first entry for a new one, as its index lies below the base. -/
theorem mergeEntries_reappends (hf : log.Holds full) (hbase : 0 < log.lastIndex) {e : Entry}
    {rest : List Entry} (hone : e.index = 1) (hmissing : log.hasEntry 1 e.term = false) :
    mergeEntries log (e :: rest) = some (reappended log (e :: rest)) := by
  have hconflict : log.entryConflicted e.index e.term = false := by
    rw [hone, ← Bool.not_eq_true, hf.entryConflicted_iff]
    rintro ⟨hle, -⟩
    omega
  rw [mergeEntries, hconflict, hone, hmissing, if_neg Bool.false_ne_true,
    if_neg Bool.false_ne_true]
  rfl

private theorem reappended_index (hg : Indexed g) {k : Nat} (hk : log.entries.length ≤ k) {e : LogEntry}
    (he : (reappended log g).entries[k]? = some e) : e.index = k - log.entries.length + 1 := by
  refine hg _ e.toEntry ?_
  have hmap : ((reappended log g).entries.map LogEntry.toEntry)[k]? = some e.toEntry := by
    rw [List.getElem?_map, he, Option.map_some]
  rwa [reappended_entries, List.getElem?_append_right (by rwa [List.length_map]),
    List.length_map] at hmap

theorem reappended_hasEntry (hf : log.Holds full) (hbase : 0 < log.lastIndex) (hg : Indexed g)
    (hne : g ≠ []) (t : Nat) :
    (reappended log g).hasEntry g.length t = true ↔
      log.entries ≠ [] ∧ log.hasEntry g.length t = true := by
  have hpos := List.length_pos_iff.mpr hne
  have hbelow := reappended_belowFirst hf hg hne hpos
  have hget : ¬ (reappended log g).belowFirst g.length = true →
      (reappended log g).get g.length = (reappended log g).infos[g.length - log.lastIndex]? := by
    intro hfirst
    unfold EntryLogger.get
    rw [if_neg (by simp [reappended_lastEntry hg hne, hfirst]), if_neg (by omega)]
    rfl
  by_cases hlow : g.length ≤ log.lastIndex
  · by_cases hnil : log.entries = []
    · have hsentry : (reappended log g).get g.length = some logEntrySentry := by
        rw [hget (by simp [hbelow, hnil]), Nat.sub_eq_zero_of_le hlow]
        rfl
      simp [EntryLogger.hasEntry, hsentry, hnil, logEntrySentry, hpos.ne]
    · have hfirst : (reappended log g).get g.length = none := by
        unfold EntryLogger.get
        rw [if_pos (.inr ⟨hpos.ne', hbelow.mpr ⟨hnil, hlow⟩⟩)]
      unfold EntryLogger.hasEntry
      rw [hfirst, hf.get_below hlow hpos.ne']
      exact ⟨fun h => ⟨hnil, h⟩, And.right⟩
  · obtain ⟨k, hk⟩ : ∃ k, g.length = log.lastIndex + k + 1 :=
      ⟨g.length - log.lastIndex - 1, by omega⟩
    have hnew : (reappended log g).get g.length = (reappended log g).entries[k]? := by
      rw [hget (by rw [hbelow]; exact fun h => hlow h.2), EntryLogger.infos,
        show g.length - log.lastIndex = k + 1 by omega, List.getElem?_cons_succ]
    have hold : log.get g.length = log.entries[k]? := by
      rw [hf.get_above (by omega), show g.length - log.lastIndex - 1 = k by omega]
    by_cases hheld : k < log.entries.length
    · have hsame : (reappended log g).entries[k]? = log.entries[k]? :=
        List.getElem?_append_left hheld
      unfold EntryLogger.hasEntry
      rw [hnew, hold, hsame, List.getElem?_eq_getElem hheld]
      exact ⟨fun h => ⟨List.ne_nil_of_length_pos (by omega), h⟩, And.right⟩
    · have hlen : k < (reappended log g).entries.length := by
        have := congrArg List.length (reappended_entries log g)
        rw [List.length_map, List.length_append, List.length_map] at this
        omega
      have hidx := reappended_index hg (Nat.le_of_not_lt hheld) (List.getElem?_eq_getElem hlen)
      unfold EntryLogger.hasEntry
      rw [hnew, hold, List.getElem?_eq_getElem hlen, List.getElem?_eq_none (by omega)]
      simp only [hidx, Bool.and_eq_true, decide_eq_true_eq]
      omega

theorem reappended_chop (hf : log.Holds full) (hg : Indexed g) (hne : g ≠ []) :
    (((reappended log g).chop (log.lastIndex + 1)).getD (reappended log g)).entries =
      if log.lastIndex < g.length then [] else (reappended log g).entries := by
  have hbelow := reappended_belowFirst hf hg hne (Nat.succ_pos log.lastIndex)
  have hrange : (reappended log g).outOfRange (log.lastIndex + 1) =
      decide (g.length ≤ log.lastIndex) := by
    have hfirst : (reappended log g).belowFirst (log.lastIndex + 1) = false := by
      rw [← Bool.not_eq_true, hbelow]
      rintro ⟨-, hle⟩
      omega
    rw [EntryLogger.outOfRange, reappended_lastEntry hg hne, hfirst, Bool.or_false,
      decide_eq_false (Nat.succ_ne_zero _), Bool.false_or]
    exact decide_eq_decide.mpr Nat.lt_succ_iff
  unfold EntryLogger.chop
  rw [hrange]
  split
  · rename_i hlow
    have hlow' : g.length ≤ log.lastIndex := of_decide_eq_true hlow
    rw [if_neg (by omega)]
    rfl
  · rename_i hhigh
    have hhigh' : ¬ g.length ≤ log.lastIndex := fun h => hhigh (decide_eq_true h)
    have hzero : log.lastIndex + 1 - (reappended log g).lastIndex - 1 = 0 := by
      rw [show (reappended log g).lastIndex = log.lastIndex from rfl]
      omega
    rw [if_pos (by omega), hzero]
    rfl

/-! ## Requests that are refused -/

theorem refused_beyond (hf : log.Holds full) {req : AppendEntriesReq}
    (hlt : full.length < req.prevLogIndex) :
    log.hasEntry req.prevLogIndex req.prevLogTerm = false := by
  rw [← Bool.not_eq_true, hf.hasEntry_iff]
  rintro ⟨-, hterm⟩
  have := le_length_of_termAt hterm
  omega

/-- The last entry of the follower is not one of the leader, so it refuses to go on from it. -/
theorem refused_diverging (hg : l.log.Holds g) (hf : log.Holds full) (hagree : Agree full g)
    (hdiverge : ¬ full <+: g) (hlo : l.log.lastIndex ≤ full.length) (hhi : full.length ≤ g.length)
    (hnext : n.nextIndex = full.length + 1) :
    log.hasEntry (l.appendEntriesReq n).prevLogIndex (l.appendEntriesReq n).prevLogTerm =
      false := by
  obtain ⟨hprev, hterm⟩ := asks_behind hg hnext hlo hhi
  rw [← Bool.not_eq_true, hf.hasEntry_iff, hprev]
  rintro ⟨-, hheld⟩
  have htake := hagree.take_of_termAt hheld hterm
  rw [List.take_length] at htake
  exact hdiverge (htake ▸ List.take_prefix _ _)

/-! ## Data transfers -/

def inTransfer (g : List Entry) (n : Node) : Node :=
  { n with transferDataTo := true, nextIndex := g.length + 1 }

def nextChunk (files : Sender) : Sender × Bytes × Bytes :=
  Sender.transfer { files with dataTransferId := files.dataTransferId + 1 }

structure SendsNext (l : Raft) (files : Sender) (x : Pair) : Prop where
  sender : x.leader.sender = (nextChunk files).1
  call : x.call = some (.dataTransfer (l.dataReq (files.dataTransferId + 1) (nextChunk files).2.1
    (nextChunk files).2.2))

private theorem transfer_dataTransferId (files : Sender) :
    files.transfer.1.dataTransferId = files.dataTransferId := by
  unfold Sender.transfer Sender.transferFile
  dsimp only
  repeat' split
  all_goals rfl

theorem advance_dataTransferId (files : Sender) :
    files.advance.dataTransferId = files.dataTransferId := by
  unfold Sender.advance
  repeat' split
  all_goals rfl

def installed (l : Raft) (log : EntryLogger) : EntryLogger :=
  ((log.chop (log.lastIndex + 1)).getD log).copyStates l.log.lastConfig l.log.lastIndex
    l.log.lastTerm

private theorem after_sendChunk (h : Leads l g node files n s) (hidle : s.sent = [])
    (hn : files.dataTransferId = 0 ∨ n = inTransfer g n) :
    Leads l g node (nextChunk files).1 (inTransfer g n) (after node (s.sendChunk node) f).leader ∧
      (s.sendChunk node).sent = [⟨node, s.role, s.currTerm,
        .dataTransfer (l.dataReq (files.dataTransferId + 1) (nextChunk files).2.1
          (nextChunk files).2.2)⟩] := by
  have hself : s.selfId = l.selfId := congrArg Settings.selfId h.settings
  have hcompaction : s.logCompactionEnabled = l.logCompactionEnabled :=
    congrArg Settings.logCompactionEnabled h.settings
  have hreq : ∀ id name data, s.dataReq id name data = l.dataReq id name data := by
    intro id name data
    unfold dataReq
    rw [h.log, h.currTerm, hself, hcompaction]
  unfold sendChunk nextChunk
  dsimp only
  rw [h.sender, hreq]
  split
  · have hmod := h.modifyNode (f := fun n => inTransfer g n) (fun _ => rfl)
      (h.matched n h.hasNode.mem)
    refine ⟨?_, ?_⟩
    · rw [h.last]
      exact (hmod.withFiles _).withSent []
    · simp [Raft.invoke, Raft.modifyNode, hidle]
  · rename_i hnumber
    rw [← hn.resolve_left (by omega)]
    refine ⟨(h.withFiles _).withSent [], ?_⟩
    simp [Raft.invoke, hidle]

structure Transfers (l : Raft) (g : List Entry) (node : Bytes) (n : Node) (log : EntryLogger)
    (x : Pair) : Prop where
  leads : Leads l g node x.leader.sender (inTransfer g n) x.leader
  idle : x.leader.sent = []
  trails : Trails l.currTerm x.follower
  begun : x.leader.sender.dataTransferId ≠ 0
  call : ∃ id name data, x.call = some (.dataTransfer (l.dataReq id name data)) ∧
    (id = 1 ∧ installed l x.follower.log = log ∨ id ≠ 1 ∧ x.follower.log = log)

structure Ending (l : Raft) (g : List Entry) (node : Bytes) (n : Node) (log : EntryLogger)
    (x : Pair) : Prop where
  leads : Leads l g node x.leader.sender (inTransfer g n) x.leader
  idle : x.leader.sent = []
  trails : Trails l.currTerm x.follower
  call : ∃ req, x.call = some (.doneTransfer req) ∧ req.term = l.currTerm
  log : x.follower.log = log

def exchange (x : Pair) (handled : List Parcel) : Exchange :=
  ⟨x.leader, handled, x.call.bind Request.parcel⟩

theorem Transfers.awaited (h : Transfers l g node n log x) (handled : List Parcel) :
    ∃ id name data, (x.exchange handled).awaited = some (.chunk id name data) := by
  obtain ⟨id, name, data, hcall, -⟩ := h.call
  refine ⟨id, name, data, ?_⟩
  rw [exchange, hcall]
  rfl

theorem Transfers.not_repaired (h : Transfers l g node n log x) : ¬ Repaired g node x := by
  intro hrepaired
  obtain ⟨id, name, data, hcall, -⟩ := h.call
  rw [hrepaired.rest] at hcall
  cases hcall

theorem Ending.awaited (h : Ending l g node n log x) (handled : List Parcel) :
    ∃ name, (x.exchange handled).awaited = some (.done name) := by
  obtain ⟨req, hcall, -⟩ := h.call
  refine ⟨req.name, ?_⟩
  rw [exchange, hcall]
  rfl

theorem Ending.not_repaired (h : Ending l g node n log x) : ¬ Repaired g node x := by
  intro hrepaired
  obtain ⟨req, hcall, -⟩ := h.call
  rw [hrepaired.rest] at hcall
  cases hcall

private theorem after_call {o : Outgoing} (h : s.sent = [o]) (hdst : o.dst = node) :
    (after node s f).call = some o.request := by
  simp [after, h, hdst]

private theorem exchange_after {o : Outgoing} (h : s.sent = [o]) (hdst : o.dst = node)
    (handled : List Parcel) : (after node s f).exchange handled = Exchange.after handled s := by
  unfold exchange
  rw [after_call h hdst, Exchange.after, h]
  cases hparcel : o.request.parcel <;> simp [after, hparcel]

private theorem after_doDataTransfer (hl : l.Presides node) (h : Leads l g node files n s)
    (hidle : s.sent = []) (hn : files.dataTransferId = 0 ∨ n = inTransfer g n)
    (hf : Trails l.currTerm f)
    (hlog : files.dataTransferId = 0 ∧ installed l f.log = log ∨
      files.dataTransferId ≠ 0 ∧ f.log = log) :
    Transfers l g node n log (after node (s.doDataTransfer node) f) ∧
      SendsNext l files (after node (s.doDataTransfer node) f) ∧
      ∃ o, (s.doDataTransfer node).sent = [o] ∧ o.dst = node := by
  have hsends : s.doDataTransfer node = s.sendChunk node := by
    unfold Raft.doDataTransfer
    rw [if_neg (by simp [h.role, hl.role]), if_neg (by simp [h.settled])]
  obtain ⟨hleads, hsent⟩ := after_sendChunk (f := f) h hidle hn
  rw [hsends]
  have hsender := hleads.sender
  have hnumber : (nextChunk files).1.dataTransferId = files.dataTransferId + 1 :=
    transfer_dataTransferId _
  have hcall := after_call (f := f) hsent rfl
  refine ⟨⟨by rw [hsender]; exact hleads, rfl, hf.withSent [], ?_, _, _, _, hcall, ?_⟩,
    ⟨hsender, hcall⟩, _, hsent, rfl⟩
  · rw [hsender, hnumber]
    exact Nat.succ_ne_zero _
  · rcases hlog with ⟨hzero, hlog⟩ | ⟨hpos, hlog⟩
    · exact .inl ⟨by rw [hzero], hlog⟩
    · exact .inr ⟨by omega, hlog⟩

private theorem after_doDoneTransfer (h : Leads l g node files (inTransfer g n) s) (hidle : s.sent = [])
    (hf : Trails l.currTerm f) :
    Ending l g node n f.log (after node (s.doDoneTransfer node) f) ∧
      (after node (s.doDoneTransfer node) f).call = some (.doneTransfer s.doneReq) ∧
      ∃ o, (s.doDoneTransfer node).sent = [o] ∧ o.dst = node := by
  have hsent : (s.doDoneTransfer node).sent =
      [⟨node, s.role, s.currTerm, .doneTransfer s.doneReq⟩] := by
    simp [Raft.doDoneTransfer, Raft.invoke, Raft.doneReq, hidle]
  have hcall := after_call (f := f) hsent rfl
  exact ⟨⟨(h.withFiles _).withSent [], rfl, hf.withSent [], ⟨_, hcall, h.currTerm⟩, rfl⟩, hcall, _,
    hsent, rfl⟩

private theorem advance_last (files : Sender) : files.advance.last = files.last := by
  unfold Sender.advance
  repeat' split
  all_goals rfl

theorem Transfers.taken (hl : l.Presides node) (h : Transfers l g node n log x) :
    ∃ f, Trails l.currTerm f ∧ f.log = log ∧ step node recent quick x =
      after node (x.leader.onDataTransfer node (some ⟨l.currTerm, true⟩)) f := by
  obtain ⟨id, name, data, hcall, hf⟩ := h.call
  let req := l.dataReq id name data
  have hterm : req.term = l.currTerm := rfl
  have htaken : Trails l.currTerm (x.follower.handleDataTransfer req).1 ∧
      (x.follower.handleDataTransfer req).1.log = log ∧
      (x.follower.handleDataTransfer req).2 = ⟨l.currTerm, true⟩ := by
    rcases hf with ⟨hone, hlog⟩ | ⟨hone, hlog⟩
    · obtain ⟨htrails, hnew, hres⟩ := h.trails.install hterm hone
      refine ⟨htrails, hnew.trans ?_, hres⟩
      rw [← hlog, installed, show req.lastIndex = l.log.lastIndex from if_pos hl.compaction,
        show req.lastTerm = l.log.lastTerm from if_pos hl.compaction,
        show req.lastConfig = l.log.lastConfig from if_pos (by simp [hl.compaction, hone])]
    · obtain ⟨htrails, hsame, hres⟩ := h.trails.goes_on hterm hone
      exact ⟨htrails, hsame.trans hlog, hres⟩
  refine ⟨_, htaken.1, htaken.2.1, ?_⟩
  rw [step_call recent quick hcall h.leads.alive h.trails.alive, ← htaken.2.2]
  rfl

theorem step_chunk (hl : l.Presides node) (h : Transfers l g node n log x)
    (handled : List Parcel) :
    (∃ handled', (x.exchange handled).answer node (some ⟨l.currTerm, true⟩) =
        (step node recent quick x).exchange handled') ∧
      (transferFinished x.leader.sender.advance = false ∧
          Transfers l g node n log (step node recent quick x) ∧
          SendsNext l x.leader.sender.advance (step node recent quick x) ∨
        transferFinished x.leader.sender.advance = true ∧
          Ending l g node n log (step node recent quick x) ∧
          ∃ req, (step node recent quick x).call = some (.doneTransfer req) ∧
            req.name = x.leader.sender.last) := by
  obtain ⟨f, htrails, rfl, hstep⟩ := h.taken recent quick hl
  obtain ⟨id, name, data, hawaited⟩ := h.awaited handled
  let t : Raft := { x.leader with sender := x.leader.sender.advance }
  have ht : Leads l g node t.sender (inTransfer g n) t := h.leads.withFiles _
  have hnext : x.leader.onDataTransfer node (some ⟨l.currTerm, true⟩) = t.onDataSuccess node := rfl
  rw [Exchange.answer_chunk hawaited, if_pos Option.isSome_some, hstep,
    show (x.exchange handled).leader = x.leader from rfl, hnext, onDataSuccess]
  split
  · rename_i hend
    obtain ⟨hending, hdone, o, hsent, hdst⟩ := after_doDoneTransfer
      (ht.withFiles (if t.sender.isRegularFile t.sender.path then t.sender.close else t.sender))
      h.idle htrails
    refine ⟨⟨_, (exchange_after hsent hdst _).symm⟩, .inr ⟨hend, hending, _, hdone, ?_⟩⟩
    refine Eq.trans ?_ (advance_last x.leader.sender)
    unfold doneReq
    dsimp only
    split <;> rfl
  · rename_i hend
    have hbegun : t.sender.dataTransferId ≠ 0 := by
      rw [show t.sender = x.leader.sender.advance from rfl, advance_dataTransferId]
      exact h.begun
    obtain ⟨htransfers, hnext, o, hsent, hdst⟩ := after_doDataTransfer (n := inTransfer g n) hl ht
      h.idle (.inr rfl) htrails (.inr ⟨hbegun, rfl⟩)
    exact ⟨⟨_, (exchange_after hsent hdst _).symm⟩, .inl ⟨by simpa using hend, ⟨htransfers.leads,
      htransfers.idle, htransfers.trails, htransfers.begun, htransfers.call⟩, hnext⟩⟩

def transferred (g : List Entry) (n : Node) : Node :=
  { n with transferDataTo := false, nextIndex := g.length + 1 }

theorem step_done (h : Ending l g node n log x) :
    Stands l g node x.leader.sender.initTransfer (transferred g n) (step node recent quick x) ∧
      Asks l (transferred g n) (step node recent quick x).call ∧
      (step node recent quick x).follower.log = log := by
  obtain ⟨req, hcall, hterm⟩ := h.call
  obtain ⟨htrails, hlog, hres⟩ := h.trails.done hterm
  let t : Raft := x.leader.initTransfer.modifyNode node fun n => { n with transferDataTo := false }
  have hmatch : n.matchIndex ≤ g.length := h.leads.matched (inTransfer g n) h.leads.hasNode.mem
  have ht : Leads l g node x.leader.sender.initTransfer (transferred g n) t :=
    (h.leads.withFiles x.leader.sender.initTransfer).modifyNode
      (f := fun n => { n with transferDataTo := false }) (fun _ => rfl) hmatch
  have hstep : step node recent quick x =
      after node (t.appendEntriesTo node) (x.follower.handleDoneTransfer req).1 := by
    rw [step_call recent quick hcall h.leads.alive h.trails.alive,
      show t.appendEntriesTo node = x.leader.onDoneTransfer node
        (some (x.follower.handleDoneTransfer req).2) from by rw [hres]; rfl]
    rfl
  obtain ⟨hleads, hasks⟩ := after_appendEntriesTo (f := (x.follower.handleDoneTransfer req).1) ht
    h.idle
  rw [hstep]
  exact ⟨⟨hleads, rfl, htrails.withSent []⟩, hasks, hlog.trans h.log⟩

/-- The files of the leader: a tree at its path or nothing there, and no stream open. -/
structure Quiescent (files : Sender) : Prop where
  closed : files.fin.path = none
  tree : files.FileTree ∨ files.node files.path = none

theorem step_transfers (hl : l.Presides node) (h : Stands l g node files n x)
    (hasks : Asks l n x.call)
    (hhas : x.follower.log.hasEntry (l.appendEntriesReq n).prevLogIndex
      (l.appendEntriesReq n).prevLogTerm = false)
    (hrange : ¬ (l.log.lastIndex ≤ x.follower.log.lastEntryIndex ∧
      x.follower.log.lastEntryIndex < g.length)) :
    Transfers l g node n (installed l x.follower.log) (step node recent quick x) ∧
      SendsNext l files.initTransfer (step node recent quick x) ∧
      ∃ u : Raft, u.sender = files.initTransfer ∧ u.role = .leader ∧ u.initTransfer = u ∧
        (step node recent quick x).exchange [] = Exchange.start node u := by
  obtain ⟨f, htrails, hlog, heq⟩ := step_refused recent quick hl h hasks hhas
  let m := x.follower.log.lastEntryIndex
  let t : Raft := x.leader.modifyNode node fun n => retried n m
  have ht : Leads l g node files (retried n m) t :=
    h.leads.modifyNode (f := fun n => retried n m) (fun _ => rfl)
      (h.leads.matched n h.leads.hasNode.mem)
  let u : Raft := t.initTransfer.modifyNode node fun n => { n with transferDataTo := true }
  have hinit : Leads l g node files.initTransfer (retried n m) t.initTransfer := by
    rw [← ht.sender]
    exact ht.withFiles _
  have hu : Leads l g node files.initTransfer { retried n m with transferDataTo := true } u :=
    hinit.modifyNode (f := fun n => { n with transferDataTo := true }) (fun _ => rfl)
      (h.leads.matched n h.leads.hasNode.mem)
  have hget : t.log.get (m + 1) = none := by
    rw [ht.logged.holds.get_eq_none_iff, ht.log]
    omega
  have hstart : x.leader.onAppendInconsistent node m = u.doDataTransfer node :=
    if_pos (Option.isNone_iff_eq_none.mpr hget)
  obtain ⟨htransfers, hfirst, o, hsent, hdst⟩ := after_doDataTransfer hl hu h.idle
    (.inl rfl) htrails (.inl ⟨rfl, rfl⟩)
  have hidle : ({ u with sent := [] } : Raft) = u := by
    rw [← show u.sent = [] from h.idle]
  have hsender : u.initTransfer = u := by
    have hsame : u.sender.initTransfer = u.sender := by rw [hu.sender]; rfl
    rw [Raft.initTransfer, hsame]
  rw [heq, hstart, ← hlog]
  exact ⟨⟨htransfers.leads, htransfers.idle, htransfers.trails, htransfers.begun,
    htransfers.call⟩, hfirst, u, hu.sender, hu.role.trans hl.role, hsender, by
      rw [exchange_after hsent hdst, Exchange.start, hidle]⟩

end Pair

end Draft
