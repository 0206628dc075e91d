import Draft.Raft.Repairing

/-!
# When the log of a follower is repaired

The rounds between a leader and a follower end with the entries of the leader on both,
unless the follower refuses to go on from its own last entry, reports more than the leader
has, or takes requests that bring it nothing; or a transfer does not end.
-/

namespace Draft

open Consensus Raft

namespace Pair

variable {l : Raft} {g full kept : List Entry} {node : Bytes} {files : Sender} {n : Node}
  {x : Pair} {log : EntryLogger} (recent quick : Bool)

/-- The pair comes to a state in which all is repaired. -/
def Converges (g : List Entry) (node : Bytes) (recent quick : Bool) (x : Pair) : Prop :=
  Attains (step node recent quick) (Repaired g node) x

private theorem converges_iff_step (h : ¬ Repaired g node x) :
    Converges g node recent quick x ↔ Converges g node recent quick (step node recent quick x) :=
  attains_iff_step h

/-! ## Runs that repair the log -/

private theorem converges_behind (hl : l.Presides node) (h : Stands l g node files n x)
    (hf : x.follower.log.Holds kept) (hasks : Asks l n x.call) (hn : Replicates n)
    (hkept : kept <+: g) (hlo : l.log.lastIndex ≤ kept.length)
    (hnext : n.nextIndex = g.length + 1) : Converges g node recent quick x := by
  have hagree : Agree kept g := by
    rw [List.prefix_iff_eq_take.mp hkept]
    exact agree_take g kept.length
  rcases hkept.length_le.eq_or_lt with hall | hlt
  · exact .of_step (.here (step_extends recent quick hl h hf hasks hn hagree hkept hlo
      (by rw [hall, hnext])).1)
  · have hbeyond : kept.length < (l.appendEntriesReq n).prevLogIndex := by
      rw [(asks_behind h.leads.holds hnext h.leads.holds.base_le le_rfl).1]
      exact hlt
    have hrefused := refused_beyond hf hbeyond
    obtain ⟨hstands, hasks', hlog⟩ :=
      step_retries recent quick hl h hasks hrefused hf.lastEntryIndex_eq hlo hlt
    rw [← hlog] at hf
    exact .of_step (.of_step (.here (step_extends recent quick hl hstands hf hasks'
      ⟨hn.leader, hn.data⟩ hagree hkept hlo rfl).1))

theorem step_waits (hl : l.Presides node) (h : Transfers l g node n log x)
    {handled : List Parcel} {left : List (Bytes × Bytes)}
    (hwaits : (x.exchange handled).Waits left)
    (hclear : Sender.Clear x.leader.sender.ahead) :
    (left = [] ∧ Ending l g node n log (step node recent quick x) ∧
      ∃ req, (step node recent quick x).call = some (.doneTransfer req) ∧
        req.name = x.leader.sender.last) ∨
      ∃ p rest handled', left = p :: rest ∧ Transfers l g node n log (step node recent quick x) ∧
        ((step node recent quick x).exchange handled').Waits rest ∧
        Sender.Clear (step node recent quick x).leader.sender.ahead ∧
        SendsNext l x.leader.sender.advance (step node recent quick x) ∧
        (nextChunk x.leader.sender.advance).2 = p := by
  have hsize : ¬ x.leader.sender.Misjudged := fun hsize =>
    Sender.not_clear_of_misjudged hwaits.left hsize hclear
  have hsuccess : (⟨l.currTerm, true⟩ : DataRes).success := rfl
  obtain ⟨⟨handled', heq⟩, hnext⟩ := step_chunk recent quick hl h handled
  have hanswer := hwaits.answer node hsize hsuccess
  rw [heq] at hanswer
  rcases hnext with ⟨-, htransfers, hsends⟩ | ⟨-, hending, hdone⟩
  · rcases hanswer with ⟨-, -, name, hdone⟩ | ⟨p, rest, id, hleft, hwaits', hawaited, hiff⟩
    · obtain ⟨id, name', data, hchunk⟩ := htransfers.awaited handled'
      rw [hdone] at hchunk
      cases hchunk
    · rw [exchange, hsends.call] at hawaited
      obtain ⟨-, hname, hdata⟩ : _ ∧ (nextChunk x.leader.sender.advance).2.1 = p.1 ∧
          (nextChunk x.leader.sender.advance).2.2 = p.2 := by
        simpa [Request.parcel, dataReq] using hawaited
      exact .inr ⟨p, rest, handled', hleft, htransfers, hwaits', hiff.mpr hclear, hsends,
        Prod.ext hname hdata⟩
  · rcases hanswer with ⟨hnil, -, -⟩ | ⟨p, rest, id, -, -, hawaited, -⟩
    · exact .inl ⟨hnil, hending, hdone⟩
    · obtain ⟨name, hdone⟩ := hending.awaited handled'
      rw [hawaited] at hdone
      cases hdone

private theorem transferred_ends (hl : l.Presides node) (h : Transfers l g node n log x)
    {handled : List Parcel} {left : List (Bytes × Bytes)}
    (hwaits : (x.exchange handled).Waits left) (hclear : Sender.Clear x.leader.sender.ahead) :
    ∃ y, Ending l g node n log y ∧
      (Converges g node recent quick x ↔ Converges g node recent quick y) := by
  induction left generalizing x handled with
  | nil =>
      rcases step_waits recent quick hl h hwaits hclear with
        ⟨-, hending, -⟩ | ⟨p, rest, _, hleft, -⟩
      · exact ⟨_, hending, converges_iff_step recent quick h.not_repaired⟩
      · cases hleft
  | cons p left ih =>
      rcases step_waits recent quick hl h hwaits hclear with
        ⟨hleft, -⟩ | ⟨p', rest, handled', hleft, htransfers, hwaits', hclear', -⟩
      · cases hleft
      · cases hleft
        obtain ⟨y, hending, hiff⟩ := ih htransfers hwaits' hclear'
        exact ⟨y, hending, (converges_iff_step recent quick h.not_repaired).trans hiff⟩

private theorem never_transferred (hl : l.Presides node) (h : Transfers l g node n log x)
    {handled : List Parcel} {left : List (Bytes × Bytes)}
    (hwaits : (x.exchange handled).Waits left)
    (hhidden : ¬ Sender.Clear x.leader.sender.ahead) : ¬ Converges g node recent quick x := by
  refine not_attains (I := fun y => Transfers l g node n log y ∧
    ¬ Sender.Clear y.leader.sender.ahead ∧ ∃ handled left, (y.exchange handled).Waits left)
    ⟨h, hhidden, handled, left, hwaits⟩ ?_ fun y hy => hy.1.not_repaired
  rintro y ⟨hy, hhidden, handled, left, hwaits⟩
  obtain ⟨⟨handled', heq⟩, hnext⟩ := step_chunk recent quick hl hy handled
  have hsuccess : (⟨l.currTerm, true⟩ : DataRes).success := rfl
  obtain ⟨rest, hwaits', hhidden'⟩ := hwaits.answer_hidden node hsuccess hhidden
  rw [heq] at hwaits' hhidden'
  rcases hnext with ⟨-, htransfers, -⟩ | ⟨-, hending, -⟩
  · exact ⟨htransfers, hhidden', handled', rest, hwaits'⟩
  · obtain ⟨name, hdone⟩ := hending.awaited handled'
    obtain ⟨id, name', data, hchunk⟩ := hwaits'.awaited
    rw [hdone] at hchunk
    cases hchunk

private theorem nothing_ends {t : Sender} (hnothing : files.node files.path = none)
    (ht : t = (nextChunk files.initTransfer).1) : transferFinished t.advance = true := by
  have hdir : files.isDirectory files.path = false := by simp [Sender.isDirectory, hnothing]
  have hregular : files.isRegularFile files.path = false := by
    simp [Sender.isRegularFile, hnothing]
  let u : Sender := { files.initTransfer with dataTransferId := 1 }
  have hpending : u.pending = [] := if_neg (by simp [hdir])
  have hregular' : u.isRegularFile u.path = false := hregular
  have hdir' : u.isDirectory u.path = false := hdir
  have hsame : t = u := by
    rw [ht, show nextChunk files.initTransfer = u.transfer from rfl, Sender.transfer,
      if_neg (by simpa using hpending), if_neg (by simpa using hregular'),
      if_neg (by simpa using hdir')]
  rw [hsame, Sender.advance_nil hpending, transferFinished, hpending, hregular']
  rfl

private theorem transfer_closes (hl : l.Presides node) (h : Stands l g node files n x)
    (hasks : Asks l n x.call) (hfiles : Quiescent files)
    (hhas : x.follower.log.hasEntry (l.appendEntriesReq n).prevLogIndex
      (l.appendEntriesReq n).prevLogTerm = false)
    (hrange : ¬ (l.log.lastIndex ≤ x.follower.log.lastEntryIndex ∧
      x.follower.log.lastEntryIndex < g.length)) :
    (files.EndsSeen → ∃ y, Ending l g node n (installed l x.follower.log) y ∧
      (Converges g node recent quick x ↔ Converges g node recent quick y)) ∧
      (¬ files.EndsSeen → ¬ Converges g node recent quick x) := by
  obtain ⟨htransfers, hfirst, u, hsender, hrole, hinit, hexchange⟩ :=
    step_transfers recent quick hl h hasks hhas hrange
  have hiff : Converges g node recent quick x ↔
      Converges g node recent quick (step node recent quick x) :=
    converges_iff_step recent quick hasks.not_repaired
  rcases hfiles.tree with htree | hnothing
  · have hclosed : u.sender.fin.path = none := by
      rw [hsender]
      exact hfiles.closed
    have htree' : u.sender.FileTree := by
      rw [hsender]
      exact ⟨htree.nodup, htree.slash, htree.root, htree.leaf, htree.empty, htree.order⟩
    have hseen : u.sender.EndsSeen ↔ files.EndsSeen := by
      rw [hsender]
      exact Iff.rfl
    obtain ⟨p, rest, id, -, hwaits, -, hclear⟩ :=
      Exchange.start_waits node hrole hinit hclosed htree'
    rw [← hexchange] at hwaits hclear
    rw [hiff, ← hseen, ← hclear]
    exact ⟨transferred_ends recent quick hl htransfers hwaits,
      never_transferred recent quick hl htransfers hwaits⟩
  · have hdir : files.isDirectory files.path = false := by simp [Sender.isDirectory, hnothing]
    have hregular : files.isRegularFile files.path = false := by
      simp [Sender.isRegularFile, hnothing]
    have hseen : files.EndsSeen := by
      rw [Sender.EndsSeen, Sender.visits, hdir, if_neg Bool.false_ne_true,
        Sender.sizes_skip [] hregular]
      simp [Sender.Clear]
    obtain ⟨-, hnext⟩ := step_chunk recent quick hl htransfers []
    rw [nothing_ends hnothing hfirst.sender] at hnext
    have hending := (hnext.resolve_left (by simp)).2.1
    exact ⟨fun _ => ⟨_, hending,
      hiff.trans (converges_iff_step recent quick htransfers.not_repaired)⟩,
      fun hhidden => absurd hseen hhidden⟩

private theorem converges_transfer (hl : l.Presides node) (h : Stands l g node files n x)
    (hasks : Asks l n x.call) (hn : Replicates n) (hfiles : Quiescent files)
    (hhas : x.follower.log.hasEntry (l.appendEntriesReq n).prevLogIndex
      (l.appendEntriesReq n).prevLogTerm = false)
    (hrange : ¬ (l.log.lastIndex ≤ x.follower.log.lastEntryIndex ∧
      x.follower.log.lastEntryIndex < g.length))
    (hf : (installed l x.follower.log).Holds kept) (hkept : kept <+: g)
    (hlo : l.log.lastIndex ≤ kept.length) :
    Converges g node recent quick x ↔ files.EndsSeen := by
  obtain ⟨hends, hnever⟩ := transfer_closes recent quick hl h hasks hfiles hhas hrange
  constructor
  · intro hconverges
    by_contra hhidden
    exact hnever hhidden hconverges
  · intro hseen
    obtain ⟨y, hending, hiff⟩ := hends hseen
    obtain ⟨hstands, hasks', hlog⟩ := step_done recent quick hending
    rw [← hlog] at hf
    exact hiff.mpr (.of_step
      (converges_behind recent quick hl hstands hf hasks' ⟨hn.leader, rfl⟩ hkept hlo rfl))

theorem installed_holds (hg : l.log.Holds g)
    (hnil : ((log.chop (log.lastIndex + 1)).getD log).entries = []) :
    (installed l log).Holds (g.take l.log.lastIndex) := by
  refine EntryLogger.holds_copyStates hnil ?_ (hg.indexed.take _) ?_
  · rw [List.length_take, Nat.min_eq_left hg.base_le]
  · rw [termAt_take le_rfl, hg.base_term]

/-! ## Runs that repair nothing -/

private theorem never_faulted (hfaulted : x.leader.faulted = true) (hnot : ¬ Repaired g node x) :
    ¬ Converges g node recent quick x := by
  refine not_attains (I := fun y => y = x) rfl ?_ ?_
  · rintro y rfl
    exact if_pos hfaulted
  · rintro y rfl
    exact hnot

private theorem never_diverging (hl : l.Presides node) (h : Stands l g node files n x)
    (hf : x.follower.log.Holds full) (hasks : Asks l n x.call) (hagree : Agree full g)
    (hdiverge : ¬ full <+: g) (hlo : l.log.lastIndex ≤ full.length) (hhi : full.length < g.length)
    (hnext : n.nextIndex = full.length + 1) : ¬ Converges g node recent quick x := by
  refine not_attains
    (I := fun y => ∃ n, Stands l g node files n y ∧ y.follower.log.Holds full ∧ Asks l n y.call ∧
      n.nextIndex = full.length + 1) ⟨n, h, hf, hasks, hnext⟩ ?_ ?_
  · rintro y ⟨n, hy, hf, hasks, hnext⟩
    have hrefused :=
      refused_diverging hy.leads.holds hf hagree hdiverge hlo hhi.le hnext
    obtain ⟨hstands, hasks', hlog⟩ :=
      step_retries recent quick hl hy hasks hrefused hf.lastEntryIndex_eq hlo hhi
    exact ⟨_, hstands, hlog ▸ hf, hasks', rfl⟩
  · rintro y ⟨n, -, -, hasks, -⟩ hrepaired
    exact hasks.not_repaired hrepaired

private theorem never_settled (hl : l.Presides node) (h : Stands l g node files n x)
    (hlog : x.follower.log = log) (hcall : x.call = none ∨ Asks l n x.call) (hn : Replicates n)
    {m : Nat} (hlast : log.lastEntryIndex = m) (hle : m ≤ g.length) (hnext : n.nextIndex = m + 1)
    (hidle : ∀ n : Node, n.nextIndex = m + 1 → (l.appendEntriesReq n).entries = [] ∧
      log.hasEntry (l.appendEntriesReq n).prevLogIndex (l.appendEntriesReq n).prevLogTerm = true)
    (hlacks : log.entries.map LogEntry.toEntry ≠ g.drop log.lastIndex) :
    ¬ Converges g node recent quick x := by
  refine not_attains
    (I := fun y => ∃ n, Stands l g node files n y ∧ y.follower.log = log ∧ Replicates n ∧
      n.nextIndex = m + 1 ∧ (y.call = none ∨ Asks l n y.call)) ⟨n, h, hlog, hn, hnext, hcall⟩ ?_ ?_
  · rintro y ⟨n, hy, hlog, hn, hnext, hcall | hasks⟩
    · obtain ⟨hstands, hasks, hsame⟩ := step_rests recent quick hl hy hcall hn
      exact ⟨n, hstands, hsame.trans hlog, hn, hnext, .inr hasks⟩
    · obtain ⟨hempty, hhas⟩ := hidle n hnext
      rw [← hlog] at hhas
      have hmerge : mergeEntries y.follower.log (l.appendEntriesReq n).entries =
          some y.follower.log := by
        rw [hempty]
        rfl
      obtain ⟨hstands, hrest, hsame⟩ :=
        step_matches recent quick hl hy hasks hn hhas hmerge (hlog ▸ hlast) hle
      exact ⟨_, hstands, hsame.trans hlog, ⟨hn.leader, hn.data⟩, rfl, .inl hrest⟩
  · rintro y ⟨n, -, hlog, -⟩ hrepaired
    have hentries := hrepaired.follower
    rw [hlog] at hentries
    exact hlacks hentries

/-- A log that holds more entries than the leader has, and that no transfer clears. -/
structure Clogged (g : List Entry) (log : EntryLogger) : Prop where
  last : log.lastEntryIndex = g.length
  more : g.length < log.entries.length
  first : log.belowFirst 1 = true
  stays : log.outOfRange (log.lastIndex + 1) = true

theorem Clogged.lacks (h : Clogged g log) :
    log.entries.map LogEntry.toEntry ≠ g.drop log.lastIndex := by
  intro heq
  have hlen := congrArg List.length heq
  have := h.more
  rw [List.length_map, List.length_drop] at hlen
  omega

theorem Clogged.installed (h : Clogged g log) (hbase : l.log.lastIndex = 0) :
    Clogged g (installed l log) := by
  have hchop : log.chop (log.lastIndex + 1) = none := if_pos h.stays
  have heq : Pair.installed l log =
      log.copyStates l.log.lastConfig l.log.lastIndex l.log.lastTerm := by
    rw [Pair.installed, hchop, Option.getD_none]
  have hne : log.entries ≠ [] := List.ne_nil_of_length_pos (by have := h.more; omega)
  have hlast : log.lastEntryIndex = log.lastEntry.index := if_neg hne
  have hnew : (log.copyStates l.log.lastConfig l.log.lastIndex l.log.lastTerm).lastEntryIndex =
      log.lastEntry.index := if_neg hne
  rw [heq]
  refine ⟨hnew.trans (hlast.symm.trans h.last), h.more, h.first, ?_⟩
  · have hfirst : (log.copyStates l.log.lastConfig l.log.lastIndex l.log.lastTerm).belowFirst 1 =
        true := h.first
    rw [show (log.copyStates l.log.lastConfig l.log.lastIndex l.log.lastTerm).lastIndex = 0 from
      hbase, EntryLogger.outOfRange, hfirst, Bool.or_true]

private theorem never_clogged (hl : l.Presides node) (h : Stands l g node files n x)
    (hf : Clogged g x.follower.log) (hasks : Asks l n x.call) (hn : Replicates n)
    (hbase : l.log.lastIndex = 0) (hnext : n.nextIndex = g.length + 1) :
    ¬ Converges g node recent quick x := by
  refine not_attains
    (I := fun y => (∃ files n, Stands l g node files n y ∧ Clogged g y.follower.log ∧
        Replicates n ∧ n.nextIndex = g.length + 1 ∧ (y.call = none ∨ Asks l n y.call)) ∨
      ∃ n log, n.transferLeaderTo = false ∧ Clogged g log ∧
        (Transfers l g node n log y ∨ Ending l g node n log y))
    (.inl ⟨files, n, h, hf, hn, hnext, .inr hasks⟩) ?_ ?_
  · rintro y (⟨files, n, hy, hf, hn, hnext, hcall | hasks⟩ | ⟨n, log, hn, hf, hy | hy⟩)
    · obtain ⟨hstands, hasks, hsame⟩ := step_rests recent quick hl hy hcall hn
      exact .inl ⟨files, n, hstands, hsame ▸ hf, hn, hnext, .inr hasks⟩
    · have hg := hy.leads.holds
      cases hhas : y.follower.log.hasEntry (l.appendEntriesReq n).prevLogIndex
          (l.appendEntriesReq n).prevLogTerm with
      | true =>
          have hmerge : mergeEntries y.follower.log (l.appendEntriesReq n).entries =
              some y.follower.log := by
            rw [appendEntriesReq_entries hg hnext hg.base_le, List.drop_length]
            rfl
          obtain ⟨hstands, hrest, hsame⟩ :=
            step_matches recent quick hl hy hasks hn hhas hmerge hf.last le_rfl
          exact .inl ⟨files, _, hstands, hsame ▸ hf, ⟨hn.leader, hn.data⟩, rfl, .inl hrest⟩
      | false =>
          have htransfers := (step_transfers recent quick hl hy hasks hhas
            (by rw [hf.last]; omega)).1
          exact .inr ⟨n, _, hn.leader, hf.installed hbase, .inl htransfers⟩
    · rcases (step_chunk recent quick hl hy []).2 with ⟨-, htransfers, -⟩ | ⟨-, hending, -⟩
      · exact .inr ⟨n, log, hn, hf, .inl htransfers⟩
      · exact .inr ⟨n, log, hn, hf, .inr hending⟩
    · obtain ⟨hstands, hasks, hsame⟩ := step_done recent quick hy
      exact .inl ⟨_, _, hstands, hsame ▸ hf, ⟨hn, rfl⟩, rfl, .inr hasks⟩
  · rintro y (⟨files, n, -, hf, -⟩ | ⟨n, log, -, -, hy | hy⟩) hrepaired
    · exact hf.lacks hrepaired.follower
    · exact hy.not_repaired hrepaired
    · exact hy.not_repaired hrepaired

/-! ## When a log is repaired -/

/-- The retry behind the last entry of `log` is taken, or the transfer in its place ends. -/
def Recovers (l : Raft) (log : EntryLogger) : Prop :=
  if l.log.lastIndex ≤ log.lastEntryIndex ∧ log.lastEntryIndex < l.log.lastEntryIndex then
    l.log.hasEntry log.lastEntryIndex log.lastEntryTerm = true
  else l.sender.EndsSeen

def Overtakes (l : Raft) (log : EntryLogger) : Prop :=
  l.log.lastEntryIndex < log.lastEntryIndex ∧
    log.hasEntry l.log.lastEntryIndex l.log.lastEntryTerm = true

/-- The entries appended again are dropped in a transfer that ends, or nothing is before them. -/
def Restarts (l : Raft) (log : EntryLogger) : Prop :=
  l.sender.EndsSeen ∧ (log.entries = [] ∨ log.lastIndex < l.log.lastEntryIndex ∧
    log.hasEntry l.log.lastEntryIndex l.log.lastEntryTerm = false)

/--
A first request that the log of a follower refuses leads on.  One that it takes does not
find more than the leader has, and when it has its entries appended again they are dropped;
or it has no entries, as the leader has compacted them away, and leads on too.
-/
def Repairable (l : Raft) (log : EntryLogger) (n : Node) : Prop :=
  if log.hasEntry (l.appendEntriesReq n).prevLogIndex (l.appendEntriesReq n).prevLogTerm = false
    then Recovers l log
  else if l.log.lastIndex < n.nextIndex then
    if Reappends log (l.appendEntriesReq n) then Restarts l log else ¬ Overtakes l log
  else
    0 < log.lastEntryIndex ∧ log.lastEntryIndex ≤ l.log.lastEntryIndex ∧
      (l.log.lastIndex ≤ log.lastEntryIndex ∧
          l.log.hasEntry log.lastEntryIndex log.lastEntryTerm = true ∨
        log.lastEntryIndex = l.log.lastEntryIndex ∧ log.entries = [] ∨ Recovers l log)

instance (l : Raft) (log : EntryLogger) : Decidable (Recovers l log) := by
  unfold Recovers
  infer_instance

instance (l : Raft) (log : EntryLogger) : Decidable (Overtakes l log) :=
  inferInstanceAs (Decidable (_ ∧ _))

instance (l : Raft) (log : EntryLogger) : Decidable (Restarts l log) :=
  inferInstanceAs (Decidable (_ ∧ _))

instance (l : Raft) (log : EntryLogger) (n : Node) : Decidable (Repairable l log n) := by
  unfold Repairable
  infer_instance

private theorem hasEntry_iff_extends (hg : l.log.Holds g) (hf : log.Holds full) (hagree : Agree full g)
    (hlo : l.log.lastIndex ≤ full.length) :
    l.log.hasEntry log.lastEntryIndex log.lastEntryTerm = true ↔ full <+: g := by
  rw [hf.lastEntryIndex_eq, hg.hasEntry_iff]
  constructor
  · rintro ⟨-, hterm⟩
    have htake := hagree.take_of_termAt hf.termAt_length hterm
    rw [List.take_length] at htake
    exact htake ▸ List.take_prefix _ _
  · intro hpart
    exact ⟨.inr hlo, (termAt_part hpart le_rfl).symm.trans hf.termAt_length⟩

private theorem converges_refused (hl : l.Presides node) (h : Stands l g node l.sender n x)
    (hf : x.follower.log.Holds full) (hasks : Asks l n x.call) (hn : Replicates n)
    (hfiles : Quiescent l.sender) (hagree : Agree full g)
    (hhas : x.follower.log.hasEntry (l.appendEntriesReq n).prevLogIndex
      (l.appendEntriesReq n).prevLogTerm = false) :
    Converges g node recent quick x ↔ Recovers l x.follower.log := by
  have hg : l.log.Holds g := h.leads.holds
  have hlast := hf.lastEntryIndex_eq
  unfold Recovers
  by_cases hrange : l.log.lastIndex ≤ full.length ∧ full.length < g.length
  · obtain ⟨hlo, hhi⟩ := hrange
    rw [if_pos (by rw [hlast, hg.lastEntryIndex_eq]; exact ⟨hlo, hhi⟩),
      hasEntry_iff_extends hg hf hagree hlo, converges_iff_step recent quick hasks.not_repaired]
    obtain ⟨hstands, hasks', hlog⟩ := step_retries recent quick hl h hasks hhas hlast hlo hhi
    rw [← hlog] at hf
    constructor
    · intro hconverges
      by_contra hdiverge
      exact never_diverging recent quick hl hstands hf hasks' hagree hdiverge hlo hhi rfl hconverges
    · intro hpart
      exact .of_step (.here (step_extends recent quick hl hstands hf hasks'
        ⟨hn.leader, hn.data⟩ hagree hpart hlo rfl).1)
  · rw [if_neg (by rwa [hlast, hg.lastEntryIndex_eq])]
    refine converges_transfer recent quick hl h hasks hn hfiles hhas (by rwa [hlast])
      (installed_holds hg hf.chop_all) (List.take_prefix _ _) ?_
    rw [List.length_take, Nat.min_eq_left hg.base_le]

private theorem overtakes_iff (hg : l.log.Holds g) (hf : log.Holds full) (hagree : Agree full g)
    (hlow : log.lastIndex ≤ g.length ∨ g = []) :
    Overtakes l log ↔ g <+: full ∧ g.length < full.length := by
  unfold Overtakes
  rw [hf.lastEntryIndex_eq, hg.lastEntryIndex_eq, hf.hasEntry_iff, and_comm]
  refine and_congr_left fun _ => ?_
  constructor
  · rintro ⟨-, hterm⟩
    have htake := hagree.take_of_termAt hterm hg.termAt_length
    rw [List.take_length] at htake
    exact htake ▸ List.take_prefix _ _
  · intro hpart
    refine ⟨?_, (termAt_part hpart le_rfl).symm.trans hg.termAt_length⟩
    exact hlow.symm.imp_left fun h => by rw [h, List.length_nil]

private theorem not_repaired_above {m : Nat} (hlast : x.leader.log.lastEntryIndex = g.length)
    (hmatch : (x.leader.findNode node).map (·.matchIndex) = some m) (hlt : g.length < m) :
    ¬ Repaired g node x := by
  intro hrepaired
  have heq := hrepaired.matched
  rw [hmatch, hlast, Option.some.injEq] at heq
  omega

private theorem converges_taken (hl : l.Presides node) (h : Stands l g node files n x)
    (hf : x.follower.log.Holds full) (hasks : Asks l n x.call) (hn : Replicates n)
    (hagree : Agree full g) {p : Nat}
    (hnext : n.nextIndex = p + 1) (hlo : l.log.lastIndex ≤ p) (hhi : p ≤ g.length)
    (hhas : x.follower.log.hasEntry (l.appendEntriesReq n).prevLogIndex
      (l.appendEntriesReq n).prevLogTerm = true)
    (hnew : ¬ Reappends x.follower.log (l.appendEntriesReq n)) :
    Converges g node recent quick x ↔ ¬ Overtakes l x.follower.log := by
  have hg : l.log.Holds g := h.leads.holds
  have hlow : x.follower.log.lastIndex ≤ g.length ∨ g = [] := by
    rcases starts hg hf hagree hnext hlo hhi hhas hnew with
      ⟨hlow, -⟩ | ⟨-, hnil | ⟨hbase, hpos, -⟩⟩
    · exact .inl (hlow.trans hhi)
    · exact .inr hnil
    · exact .inl (hbase.trans_le hpos)
  rw [overtakes_iff hg hf hagree hlow, not_and, not_lt]
  constructor
  · intro hconverges hpart
    by_contra hlong
    obtain ⟨new, hmerge, -, hcases⟩ := merge_above hg hf hagree hnext hlo hhi hhas hnew
    have hsame : new = x.follower.log := hcases.elim And.left fun h => absurd hpart h.2
    subst hsame
    obtain ⟨hfaulted, hlast, hmatch⟩ := step_faults recent quick hl h hasks hhas hmerge
      hf.lastEntryIndex_eq (not_le.mp hlong)
    rw [converges_iff_step recent quick hasks.not_repaired] at hconverges
    exact never_faulted recent quick hfaulted
      (not_repaired_above hlast hmatch (not_le.mp hlong)) hconverges
  · intro hreach
    exact .of_step (.here
      (step_repairs recent quick hl h hf hasks hn hagree hnext hlo hhi hhas hnew hreach).1)

private theorem reappended_lacks (hbase : 0 < log.lastIndex) (hne : g ≠ []) :
    (reappended log g).entries.map LogEntry.toEntry ≠ g.drop (reappended log g).lastIndex := by
  have hpos := List.length_pos_iff.mpr hne
  intro heq
  have hlen := congrArg List.length heq
  rw [reappended_entries, List.length_append, List.length_drop, List.length_map,
    show (reappended log g).lastIndex = log.lastIndex from rfl] at hlen
  omega

private theorem reappended_clogged (hf : log.Holds full) (hbase : 0 < log.lastIndex) (hg : Indexed g)
    (hne : g ≠ []) (hentries : log.entries ≠ []) (hlow : g.length ≤ log.lastIndex) :
    Clogged g (reappended log g) where
  last := reappended_lastEntryIndex hg hne
  more := by
    have hlen := congrArg List.length (reappended_entries log g)
    have hpos := List.length_pos_iff.mpr hentries
    rw [List.length_map, List.length_append, List.length_map] at hlen
    omega
  first := (reappended_belowFirst hf hg hne Nat.one_pos).mpr ⟨hentries, hbase⟩
  stays := by
    have hlt : g.length < (reappended log g).lastIndex + 1 := Nat.lt_succ_of_le hlow
    rw [EntryLogger.outOfRange, reappended_lastEntry hg hne, decide_eq_true hlt, Bool.or_true,
      Bool.true_or]

/-- What a transfer makes of entries that were appended again: it removes them, or finds them
to be the log of the leader. -/
theorem reappended_installed (hg : l.log.Holds g) (hf : log.Holds full) (hne : g ≠ [])
    (hzero : l.log.lastIndex = 0) (hkeeps : log.entries = [] ∨ log.lastIndex < g.length) :
    ∃ kept, (installed l (reappended log g)).Holds kept ∧ kept <+: g := by
  have hchop := reappended_chop hf hg.indexed hne
  by_cases hhigh : log.lastIndex < g.length
  · rw [if_pos hhigh] at hchop
    exact ⟨_, installed_holds hg hchop, List.take_prefix _ _⟩
  · have hnil := hkeeps.resolve_right hhigh
    rw [if_neg hhigh] at hchop
    refine ⟨g, ⟨?_, ?_, hg.indexed, hg.base_term⟩, List.prefix_rfl⟩
    · exact hg.base_le
    · rw [show (installed l (reappended log g)).lastIndex = l.log.lastIndex from rfl, hzero,
        List.drop_zero, show (installed l (reappended log g)).entries = _ from hchop,
        reappended_entries, hnil]
      rfl

private theorem converges_reappended (hl : l.Presides node) (h : Stands l g node l.sender n x)
    (hf : x.follower.log.Holds full) (hasks : Asks l n x.call) (hn : Replicates n)
    (hfiles : Quiescent l.sender) {p : Nat}
    (hnext : n.nextIndex = p + 1) (hlo : l.log.lastIndex ≤ p) (hhi : p ≤ g.length)
    (hhas : x.follower.log.hasEntry (l.appendEntriesReq n).prevLogIndex
      (l.appendEntriesReq n).prevLogTerm = true)
    (hnew : Reappends x.follower.log (l.appendEntriesReq n)) :
    Converges g node recent quick x ↔ Restarts l x.follower.log := by
  have hg : l.log.Holds g := h.leads.holds
  obtain ⟨hprev, hbase, hhead⟩ := hnew
  rw [(asks_behind hg hnext hlo hhi).1] at hprev
  subst hprev
  have hzero : l.log.lastIndex = 0 := Nat.le_zero.mp hlo
  have hentries : (l.appendEntriesReq n).entries = g := appendEntriesReq_entries hg hnext hlo
  rw [hentries] at hhead
  have hmerge : mergeEntries x.follower.log (l.appendEntriesReq n).entries =
      some (reappended x.follower.log g) := by
    rw [hentries]
    cases hgc : g with
    | nil => simp [hgc] at hhead
    | cons e rest =>
        have hone : e.index = 1 := hg.indexed 0 e (by simp [hgc])
        refine mergeEntries_reappends hf (Nat.pos_of_ne_zero hbase) hone ?_
        simpa [hgc, hone] using hhead
  have hne : g ≠ [] := by
    rintro rfl
    simp at hhead
  have hpos := Nat.pos_of_ne_zero hbase
  have hlast : (reappended x.follower.log g).lastEntryIndex = g.length :=
    reappended_lastEntryIndex hg.indexed hne
  have hlacks := reappended_lacks hpos hne
  obtain ⟨hstands, hrest, hlog⟩ :=
    step_matches recent quick hl h hasks hn hhas hmerge hlast le_rfl
  have hn' : Replicates (matched n g.length) := ⟨hn.leader, hn.data⟩
  obtain ⟨hstands', hasks', hlog'⟩ := step_rests recent quick hl hstands hrest hn'
  have hnot : ¬ Repaired g node (step node recent quick x) := by
    intro hrepaired
    have heq := hrepaired.follower
    rw [hlog] at heq
    exact hlacks heq
  rw [converges_iff_step recent quick hasks.not_repaired, converges_iff_step recent quick hnot]
  rw [hlog] at hlog'
  -- the request that follows has no entries, and names the last entry of the leader
  have hbehind : ∀ n : Node, n.nextIndex = g.length + 1 → (l.appendEntriesReq n).entries = [] ∧
      ((reappended x.follower.log g).hasEntry (l.appendEntriesReq n).prevLogIndex
          (l.appendEntriesReq n).prevLogTerm = true ↔ x.follower.log.entries ≠ [] ∧
        x.follower.log.hasEntry l.log.lastEntryIndex l.log.lastEntryTerm = true) := by
    intro n hnext
    obtain ⟨hprev, hterm⟩ := asks_behind hg hnext hg.base_le le_rfl
    rw [hg.termAt_length, Option.some.injEq] at hterm
    rw [hprev, ← hterm, hg.lastEntryIndex_eq]
    refine ⟨?_, reappended_hasEntry hf hpos hg.indexed hne _⟩
    rw [appendEntriesReq_entries hg hnext hg.base_le, List.drop_length]
  unfold Restarts
  rw [hg.lastEntryIndex_eq] at hbehind ⊢
  by_cases hheld : x.follower.log.entries ≠ [] ∧
      x.follower.log.hasEntry g.length l.log.lastEntryTerm = true
  · refine iff_of_false ?_ ?_
    · exact never_settled recent quick hl hstands' hlog' (.inr hasks') hn' hlast le_rfl rfl
        (fun n hnext => ⟨(hbehind n hnext).1, (hbehind n hnext).2.mpr hheld⟩) hlacks
    · rintro ⟨-, hnil | ⟨-, hmissing⟩⟩
      · exact hheld.1 hnil
      · rw [hheld.2] at hmissing
        cases hmissing
  · have hrefused := (hbehind (matched n g.length) rfl).2.not.mpr hheld
    rw [Bool.not_eq_true, ← hlog'] at hrefused
    have hrange : ¬ (l.log.lastIndex ≤
        (step node recent quick (step node recent quick x)).follower.log.lastEntryIndex ∧
        (step node recent quick (step node recent quick x)).follower.log.lastEntryIndex <
          g.length) := by
      rw [hlog', hlast]
      omega
    by_cases hkeeps : x.follower.log.entries = [] ∨ x.follower.log.lastIndex < g.length
    · obtain ⟨kept, hkept, hpart⟩ := reappended_installed hg hf hne hzero hkeeps
      rw [← hlog'] at hkept
      rw [converges_transfer recent quick hl hstands' hasks' hn' hfiles hrefused hrange hkept
        hpart (by omega)]
      refine ⟨fun hseen => ⟨hseen, ?_⟩, And.left⟩
      by_cases hnil : x.follower.log.entries = []
      · exact .inl hnil
      · refine .inr ⟨hkeeps.resolve_left hnil, ?_⟩
        rw [← Bool.not_eq_true]
        exact fun hhas => hheld ⟨hnil, hhas⟩
    · rw [not_or, not_lt] at hkeeps
      have hclogged := reappended_clogged hf hpos hg.indexed hne hkeeps.1 hkeeps.2
      rw [← hlog'] at hclogged
      refine iff_of_false
        (never_clogged recent quick hl hstands' hclogged hasks' hn' hzero rfl) ?_
      rintro ⟨-, hnil | ⟨hlt, -⟩⟩
      · exact hkeeps.1 hnil
      · exact absurd hlt (not_lt.mpr hkeeps.2)

private theorem never_begun (hl : l.Presides node) (h : Stands l g node files n x)
    (hf : x.follower.log.Holds []) (hasks : Asks l n x.call) (hn : Replicates n)
    (hnext : n.nextIndex = 1) (hbase : 0 < l.log.lastIndex) :
    ¬ Converges g node recent quick x := by
  have hg : l.log.Holds g := h.leads.holds
  have hzero : x.follower.log.lastIndex = 0 := Nat.le_zero.mp hf.base_le
  refine never_settled recent quick hl h rfl (.inr hasks) hn (m := 0) hf.lastEntryIndex_eq
    (Nat.zero_le _) hnext ?_ ?_
  · intro n hnext
    have hprev : (l.appendEntriesReq n).prevLogIndex = 0 := prevLogIndex_eq hg hnext (Nat.zero_le _)
    have hterm := (appendEntriesReq_segment hg n (by omega)).prev_term
    rw [hf.hasEntry_iff]
    rw [hprev] at hterm ⊢
    exact ⟨appendEntriesReq_empty hg hnext hbase, .inl rfl, hterm⟩
  · rw [hf.entries, List.drop_nil, hzero, List.drop_zero]
    rintro rfl
    have := hg.base_le
    rw [List.length_nil] at this
    omega

private theorem converges_empty (hl : l.Presides node) (h : Stands l g node l.sender n x)
    (hf : x.follower.log.Holds full) (hasks : Asks l n x.call) (hn : Replicates n)
    (hfiles : Quiescent l.sender) (hagree : Agree full g) {p : Nat}
    (hnext : n.nextIndex = p + 1) (hhi : p < l.log.lastIndex)
    (hhas : x.follower.log.hasEntry (l.appendEntriesReq n).prevLogIndex
      (l.appendEntriesReq n).prevLogTerm = true) :
    Converges g node recent quick x ↔ 0 < full.length ∧ full.length ≤ g.length ∧
      (l.log.lastIndex ≤ full.length ∧ full <+: g ∨
        full.length = g.length ∧ x.follower.log.entries = [] ∨ Recovers l x.follower.log) := by
  have hg : l.log.Holds g := h.leads.holds
  have hlast := hf.lastEntryIndex_eq
  have hmerge : mergeEntries x.follower.log (l.appendEntriesReq n).entries =
      some x.follower.log := by
    rw [appendEntriesReq_empty hg hnext hhi]
    rfl
  by_cases hlong : g.length < full.length
  · obtain ⟨hfaulted, hlast', hmatch⟩ :=
      step_faults recent quick hl h hasks hhas hmerge hlast hlong
    rw [converges_iff_step recent quick hasks.not_repaired]
    exact iff_of_false
      (never_faulted recent quick hfaulted (not_repaired_above hlast' hmatch hlong))
      fun hcond => absurd hcond.2.1 (not_le.mpr hlong)
  rw [not_lt] at hlong
  by_cases hzero : full.length = 0
  · have hnil : full = [] := List.eq_nil_of_length_eq_zero hzero
    subst hnil
    have hp : p = 0 := by
      by_contra hpos
      have hlen := le_length_of_termAt (hf.hasEntry_iff.mp hhas).2
      rw [prevLogIndex_eq hg hnext (by have := hg.base_le; omega), if_neg hpos,
        List.length_nil] at hlen
      omega
    exact iff_of_false (never_begun recent quick hl h hf hasks hn (by omega) (by omega))
      fun hcond => absurd hcond.1 (by simp)
  obtain ⟨hstands, hrest, hlog⟩ :=
    step_matches recent quick hl h hasks hn hhas hmerge hlast hlong
  have hn' : Replicates (matched n full.length) := ⟨hn.leader, hn.data⟩
  obtain ⟨hstands', hasks', hlog'⟩ := step_rests recent quick hl hstands hrest hn'
  rw [converges_iff_step recent quick hasks.not_repaired]
  by_cases hextends : l.log.lastIndex ≤ full.length ∧ full <+: g
  · refine iff_of_true ?_ ⟨by omega, hlong, .inl hextends⟩
    rw [← hlog, ← hlog'] at hf
    exact .of_step (.of_step (.here (step_extends recent quick hl hstands' hf hasks' hn' hagree
      hextends.2 hextends.1 rfl).1))
  by_cases hempty : full.length = g.length ∧ x.follower.log.entries = []
  · refine iff_of_true (.here ?_) ⟨by omega, hlong, .inr (.inl hempty)⟩
    have hbase := hf.entries_eq_nil_iff.mp hempty.2
    rw [hempty.1] at hstands
    refine repaired hstands hrest ?_
    rw [hlog, hempty.2, ← hbase, hempty.1, List.drop_length]
    rfl
  have hnot : ¬ Repaired g node (step node recent quick x) := by
    intro hrepaired
    have hmatch := hrepaired.matched
    rw [hstands.leads.hasNode.findNode, hstands.leads.last, Option.map_some,
      Option.some.injEq] at hmatch
    have hlen : full.length = g.length := hmatch
    have hentries := hrepaired.follower
    rw [hlog, hf.entries] at hentries
    -- the last entries are the same, so both logs are the same up to them
    have hsame : full = g := by
      have hlt : x.follower.log.lastIndex < full.length := by
        have hne := fun hnil => hempty ⟨hlen, hnil⟩
        have := hf.base_le
        have := mt hf.entries_eq_nil_iff.mpr hne
        omega
      have hx : full[full.length - 1]? = g[full.length - 1]? := by
        have := congrArg (·[full.length - 1 - x.follower.log.lastIndex]?) hentries
        simp only [List.getElem?_drop] at this
        rwa [show x.follower.log.lastIndex + (full.length - 1 - x.follower.log.lastIndex) =
          full.length - 1 by omega] at this
      have hget := List.getElem?_eq_getElem (l := full) (i := full.length - 1) (by omega)
      have htake := hagree _ _ _ hget (hx ▸ hget) rfl
      rw [show full.length - 1 + 1 = full.length by omega, List.take_length, hlen,
        List.take_length] at htake
      exact htake
    exact hextends ⟨by rw [hlen]; exact hg.base_le, hsame ▸ List.prefix_rfl⟩
  have hrefused : (step node recent quick (step node recent quick x)).follower.log.hasEntry
      (l.appendEntriesReq (matched n full.length)).prevLogIndex
      (l.appendEntriesReq (matched n full.length)).prevLogTerm = false := by
    rw [hlog', hlog]
    rw [not_and] at hextends
    by_cases hlo : l.log.lastIndex ≤ full.length
    · exact refused_diverging hg hf hagree (hextends hlo) hlo hlong rfl
    · refine refused_beyond hf ?_
      rw [prevLogIndex_eq hg rfl hlong, if_neg hzero]
      omega
  have hf' := hf
  rw [← hlog, ← hlog'] at hf'
  rw [converges_iff_step recent quick hnot,
    converges_refused recent quick hl hstands' hf' hasks' hn' hfiles hagree hrefused, hlog', hlog]
  simp [hextends, hempty, hlong, Nat.pos_of_ne_zero hzero]

/-! ## From the first heartbeat on -/

/--
A leader and one follower of it with nothing else under way: their logs agree wherever they
have the same term at the same index.
-/
structure Begins (l f : Raft) (g full : List Entry) (n : Node) : Prop where
  role : l.role = .leader
  alive : l.faulted = false
  compaction : l.logCompactionEnabled = true
  logged : l.Logged g
  ids : (l.cluster.map (·.2.id)).Nodup
  matched : ∀ m ∈ l.cluster.map (·.2), m.matchIndex ≤ g.length
  idle : l.sent = []
  files : Quiescent l.sender
  member : n ∈ l.cluster.map (·.2)
  other : n.id ≠ l.selfId
  settled : l.newly n.id = false
  replicates : Replicates n
  next_pos : 0 < n.nextIndex
  next_le : n.nextIndex ≤ l.log.lastEntryIndex + 1
  holds : f.log.Holds full
  currTerm : f.currTerm ≤ l.currTerm
  compacts : f.logCompactionEnabled = true
  serves : f.faulted = false
  agree : Agree full g

variable {f : Raft}

theorem Begins.presides (h : Begins l f g full n) : l.Presides n.id :=
  ⟨h.role, h.compaction, h.other⟩

theorem Begins.start (h : Begins l f g full n) :
    Stands l g n.id l.sender n (start n.id l f) ∧ Asks l n (start n.id l f).call ∧
      (start n.id l f).follower.log = f.log := by
  have hleads : Leads l g n.id l.sender n { l with heartbeatTimer := true } :=
    ⟨rfl, rfl, h.logged, h.alive, rfl, ⟨h.ids, h.member, rfl⟩, h.matched, h.settled, rfl⟩
  obtain ⟨hleads', hasks⟩ := after_heartbeat (f := f) h.presides hleads h.idle h.replicates.data
  have htrails : Trails l.currTerm f := ⟨h.currTerm, h.compacts, h.serves⟩
  exact ⟨⟨hleads', rfl, htrails.withSent []⟩, hasks, rfl⟩

private theorem converges_iff_repairable (h : Begins l f g full n) :
    Converges g n.id recent quick (start n.id l f) ↔ Repairable l f.log n := by
  obtain ⟨hstands, hasks, hlog⟩ := h.start
  have hl := h.presides
  have hg := h.logged.holds
  have hf := h.holds
  rw [← hlog] at hf
  obtain ⟨p, hp⟩ : ∃ p, n.nextIndex = p + 1 := ⟨n.nextIndex - 1, by have := h.next_pos; omega⟩
  have hle : p ≤ g.length := by
    have := h.next_le
    rw [hg.lastEntryIndex_eq] at this
    omega
  unfold Repairable
  rw [← hlog]
  split
  · rename_i hrefused
    exact converges_refused recent quick hl hstands hf hasks h.replicates h.files h.agree hrefused
  rename_i hhas
  rw [Bool.not_eq_false] at hhas
  split
  · rename_i hlow
    split
    · rename_i hnew
      exact converges_reappended recent quick hl hstands hf hasks h.replicates h.files hp
        (by omega) hle hhas hnew
    · rename_i hnew
      exact converges_taken recent quick hl hstands hf hasks h.replicates h.agree hp (by omega) hle
        hhas hnew
  · rename_i hhigh
    have hextends : l.log.lastIndex ≤ full.length ∧ full <+: g ↔
        l.log.lastIndex ≤ full.length ∧ l.log.hasEntry
          (Pair.start n.id l f).follower.log.lastEntryIndex
          (Pair.start n.id l f).follower.log.lastEntryTerm = true :=
      and_congr_right fun hlo => (hasEntry_iff_extends hg hf h.agree hlo).symm
    rw [converges_empty recent quick hl hstands hf hasks h.replicates h.files h.agree hp (by omega)
      hhas, hextends, ← hf.lastEntryIndex_eq, ← hg.lastEntryIndex_eq]

theorem Begins.shows {w : World} {id : Bytes} (h : Begins (w.servers id) (w.servers n.id) g full n)
    (hid : id ∈ w.ids) (hnode : n.id ∈ w.ids) (hself : (w.servers id).selfId = id)
    (htimer : (w.servers id).heartbeatTimer = true) (hidle : (w.servers n.id).sent = []) :
    ∃ w', World.step w (.heartbeatTimeout id) = some w' ∧
      Shows w' id n.id (Pair.start n.id (w.servers id) (w.servers n.id)) ∧
      ∀ other, other ≠ id → w'.servers other = w.servers other := by
  have hne : n.id ≠ id := fun heq => h.other (heq.trans hself.symm)
  refine ⟨w.act id (w.servers id).onHeartbeatTimeout, ?_, ?_, fun other hother =>
    World.act_of_ne _ _ hother⟩
  · simp [World.step, World.local_, htimer, hid, h.alive]
  · refine ⟨hid, hnode, hne, World.act_self _ _ _, ?_, rfl, fun req hreq => call_after hreq⟩
    rw [World.act_of_ne _ _ hne, Pair.start, after, ← hidle]

/--
The exchange between a leader and a follower is a run of the cluster in which no other server
takes a step, and it repairs the log of the follower exactly when `Repairable` says so.
-/
theorem log_repaired {w : World} {id : Bytes}
    (h : Begins (w.servers id) (w.servers n.id) g full n)
    (hid : id ∈ w.ids) (hnode : n.id ∈ w.ids) (hself : (w.servers id).selfId = id)
    (htimer : (w.servers id).heartbeatTimer = true) (hidle : (w.servers n.id).sent = []) :
    (∃ k es w', run World.step w es = some w' ∧
      Shows w' id n.id
        ((step n.id recent quick)^[k] (Pair.start n.id (w.servers id) (w.servers n.id))) ∧
      (∀ other, other ≠ id → other ≠ n.id → w'.servers other = w.servers other) ∧
      Repaired g n.id
        ((step n.id recent quick)^[k] (Pair.start n.id (w.servers id) (w.servers n.id)))) ↔
      Repairable (w.servers id) (w.servers n.id).log n := by
  rw [← converges_iff_repairable recent quick h]
  constructor
  · rintro ⟨k, -, -, -, -, -, hk⟩
    exact ⟨k, hk⟩
  · rintro ⟨k, hk⟩
    obtain ⟨w₁, hstep, hshows, hsame⟩ := h.shows hid hnode hself htimer hidle
    obtain ⟨es, w₂, hrun, hshows', hsame'⟩ := run_events recent quick hshows k
    exact ⟨k, .heartbeatTimeout id :: es, w₂, run_cons.mpr ⟨w₁, hstep, hrun⟩, hshows',
      fun other hother hother' => (hsame' other hother hother').trans (hsame other hother), hk⟩

def logOf (terms : List Nat) : EntryLogger :=
  { lastIndex := 0, lastTerm := 0, lastConfig := [], cfgEntryIndex := 1
    entries := terms.mapIdx fun i term =>
      { term := term, index := i + 1, data := ascii "a:1,b:1", config := i = 0, prevCfg := 0 } }

def entriesOf (terms : List Nat) : List Entry := (logOf terms).entries.map LogEntry.toEntry

def elected (terms : List Nat) : Raft :=
  { Raft.becomeLeader { (World.cluster ["a:1", "b:1"] true).servers (ascii "a:1") with
      currTerm := 4, log := logOf terms } with heartbeatTimer := true }

def behind (terms : List Nat) : Raft :=
  { (World.cluster ["a:1", "b:1"] true).servers (ascii "b:1") with
    currTerm := 3, log := logOf terms }

def nodeB : Node :=
  { id := ascii "b:1", nextIndex := 4, matchIndex := 0, transferLeaderTo := false
    transferDataTo := false }

private theorem begins_behind {terms : List Nat} (hholds : (logOf terms).Holds (entriesOf terms))
    (hagree : Agree (entriesOf terms) (entriesOf [1, 3, 3])) :
    Begins (elected [1, 3, 3]) (behind terms) (entriesOf [1, 3, 3]) (entriesOf terms) nodeB where
  role := rfl
  alive := rfl
  compaction := rfl
  logged := ⟨by decide, by decide, by decide, by decide⟩
  ids := by decide
  matched := by decide
  idle := rfl
  files := ⟨rfl, .inr rfl⟩
  member := by decide
  other := by decide
  settled := rfl
  replicates := ⟨rfl, rfl⟩
  next_pos := by decide
  next_le := by decide
  holds := hholds
  currTerm := Nat.le_succ 3
  compacts := rfl
  serves := rfl
  agree := hagree

def reelected (terms : List Nat) : World :=
  { World.cluster ["a:1", "b:1"] true with
    servers := fun id => if id = ascii "a:1" then elected [1, 3, 3] else behind terms }

theorem log_repaired_shorter :
    ∃ k es w', run World.step (reelected [1]) es = some w' ∧
      Shows w' (ascii "a:1") (ascii "b:1") ((step (ascii "b:1") false false)^[k]
        (start (ascii "b:1") (elected [1, 3, 3]) (behind [1]))) ∧
      (∀ other, other ≠ ascii "a:1" → other ≠ ascii "b:1" →
        w'.servers other = (reelected [1]).servers other) ∧
      Repaired (entriesOf [1, 3, 3]) (ascii "b:1") ((step (ascii "b:1") false false)^[k]
        (start (ascii "b:1") (elected [1, 3, 3]) (behind [1]))) :=
  (@log_repaired _ _ nodeB false false (reelected [1]) (ascii "a:1")
    (begins_behind (by decide) (by decide)) (by decide) (by decide) rfl rfl rfl).mpr (by decide)

end Pair

end Draft
