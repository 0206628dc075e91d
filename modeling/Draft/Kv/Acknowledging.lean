import Draft.Foundation.ConsecutiveLog
import Draft.Kv.Cluster
import Draft.Kv.Durability

/-!
# What is applied and acknowledged

The sessions of a server wait by index.  While no entry is chopped off that a
session waits for, the entry that is committed at the index is its own.
-/

namespace Draft

open Consensus Raft

private theorem Indexed.filter_between {full : List Entry} (h : Indexed full) {b i j : Nat} (hb : b ≤ i)
    (hij : i ≤ j) :
    (full.drop b).filter (fun e => i < e.index ∧ e.index ≤ j) = (full.drop i).take (j - i) := by
  have hlow : (full.drop b).filter (fun e => i < e.index) = full.drop i := by
    have hdrop : (full.drop b).drop (i - b) = full.drop i := by
      rw [List.drop_drop, Nat.add_sub_cancel' hb]
    rw [← hdrop]
    apply filter_eq_drop
    · intro e he
      rw [← List.drop_take] at he
      simpa using h.mem_take (List.mem_of_mem_drop he)
    · intro e he
      rw [hdrop] at he
      simpa using h.mem_drop he
  rw [← h.filter_drop hij, ← hlow, List.filter_filter]
  refine List.filter_congr fun e _ => ?_
  rw [Bool.and_comm, Bool.decide_and]

namespace Kv

def texts (entries : List Entry) : List Bytes := (entries.filter (!·.config)).map (·.data)

theorem texts_append (entries rest : List Entry) :
    texts (entries ++ rest) = texts entries ++ texts rest := by
  simp [texts]

namespace Site

def waits (x : Site) : List (Nat × Waiting) :=
  x.store.commands ++
    match x.returned, x.store.appending with
    | some index, some w => [(index, w)]
    | _, _ => []

/--
The database is what the committed entries make of it, up to the last applied
one, and who was answered was answered for the entry of its own command.
-/
structure Faithful (x : Site) (s : Raft) : Prop where
  applied_le : s.lastApplied ≤ x.committed.length
  db : x.store.db = Database.empty.restore (texts (x.committed.take s.lastApplied))
  answered : ∀ p ∈ x.answered, p ∈ x.appended ∧ x.committed[p.2.index - 1]? = some p.2

/-- The request chops off no entry that a session waits for. -/
def Spares (x : Site) (s : Raft) : Request → Prop
  | .appendEntries req => s.currTerm ≤ req.term →
      s.log.hasEntry req.prevLogIndex req.prevLogTerm → ∀ e ∈ req.entries,
        s.log.entryConflicted e.index e.term →
        ∀ p ∈ x.waits, p.1 ≤ s.log.lastEntryIndex → p.1 < e.index
  | _ => True

instance (x : Site) (s : Raft) : (req : Request) → Decidable (x.Spares s req)
  | .appendEntries _ => by unfold Spares; infer_instance
  | .timeoutNow _ | .preVote _ | .requestVote _ | .dataTransfer _ | .doneTransfer _ =>
      isTrue trivial

/-! ## The records of a site -/

/-- The log of the server, whole, with what the site has recorded of it. -/
structure Tracks (full : List Entry) (s : Raft) (x : Site) : Prop where
  logged : s.Logged full
  base_le : s.log.lastIndex ≤ s.lastApplied
  callback : ∀ i ∈ s.callback, i ≤ s.lastApplied
  committed : x.committed = full.take s.commitIndex
  db : x.store.db = Database.empty.restore (texts (full.take s.lastApplied))
  waits : ∀ p ∈ x.waits, p.1 = notLeader ∨ p.1 ≤ s.lastApplied ∨
    ∃ e ∈ full, e.index = p.1 ∧ (p.2, e) ∈ x.appended
  appended : ∀ p ∈ x.appended, PlainCommand p.1.cmd ∧ p.2.data = logText p.1.cmd
  answered : ∀ p ∈ x.answered, p ∈ x.appended ∧ p.2 ∈ x.committed
  appending : ∀ w ∈ x.store.appending, PlainCommand w.cmd
  returned : x.store.appending = none → x.returned = none

variable {full full' : List Entry} {s t : Raft} {x : Site}

theorem Tracks.faithful (h : Tracks full s x) : x.Faithful s := by
  have hcommitted : x.committed.length = s.commitIndex := by
    rw [h.committed, List.length_take, Nat.min_eq_left h.logged.commit_le]
  refine ⟨hcommitted.ge.trans' h.logged.applied_le, ?_, ?_⟩
  · rw [h.committed, List.take_take, Nat.min_eq_left h.logged.applied_le]
    exact h.db
  · intro p hp
    obtain ⟨happended, hmem⟩ := h.answered p hp
    rw [h.committed] at hmem ⊢
    obtain ⟨i, hi⟩ := List.mem_iff_getElem?.mp hmem
    have hindex := (h.logged.holds.indexed.take s.commitIndex) i _ hi
    rw [hindex, Nat.add_sub_cancel]
    exact ⟨happended, hi⟩

private theorem commit_committed {i : Nat} (hcommitted : x.committed = full.take i) (h : s.Logged full)
    (hi : i ≤ s.commitIndex) (hbase : s.log.lastIndex ≤ i) :
    (x.commit s).committed = full.take s.commitIndex := by
  have hlength : x.committed.length = i := by
    rw [hcommitted, List.length_take, Nat.min_eq_left (hi.trans h.commit_le)]
  have hnew : (s.log.entries.filter fun e =>
        x.committed.length < e.index ∧ e.index ≤ s.commitIndex).map (·.toEntry) =
      (full.drop i).take (s.commitIndex - i) := by
    rw [← h.holds.indexed.filter_between hbase hi, ← h.holds.entries, List.filter_map, hlength]
    rfl
  unfold commit
  dsimp only
  rw [hnew, hcommitted, ← List.take_add, Nat.add_sub_cancel' hi]

theorem Tracks.goes_on (h : Tracks full s x) {m : Nat} (hlogged : t.Logged full')
    (happlied : t.lastApplied = s.lastApplied) (hbase : t.log.lastIndex ≤ s.lastApplied)
    (hcallback : ∀ i ∈ t.callback, i ≤ s.lastApplied) (hcommit : s.commitIndex ≤ t.commitIndex)
    (hm : s.commitIndex ≤ m) (htake : full'.take m = full.take m)
    (hwaits : ∀ p ∈ x.waits, p.1 ≤ full.length → p.1 ≤ m) : Tracks full' t (x.commit t) := by
  have hle := h.logged.applied_le
  have hcut : ∀ i ≤ m, full'.take i = full.take i := by
    intro i hi
    have heq := congrArg (List.take i) htake
    rwa [List.take_take, List.take_take, Nat.min_eq_left hi] at heq
  have hcommitted : (x.commit t).committed = full'.take t.commitIndex := by
    refine commit_committed ?_ hlogged hcommit (hbase.trans hle)
    rw [hcut _ hm]
    exact h.committed
  exact
    { logged := hlogged
      base_le := happlied ▸ hbase
      callback := happlied ▸ hcallback
      committed := hcommitted
      db := by
        rw [happlied, hcut _ (hle.trans hm)]
        exact h.db
      waits := by
        intro p hp
        rw [happlied]
        refine (h.waits p hp).imp_right fun hwait => hwait.imp_right ?_
        rintro ⟨e, he, hindex, happended⟩
        obtain ⟨i, hi⟩ := List.mem_iff_getElem?.mp he
        have hplace := h.logged.holds.indexed i e hi
        have hlength := lt_length_of_getElem? hi
        have hlow := hwaits p hp (by omega)
        refine ⟨e, ?_, hindex, happended⟩
        have hmem : full'[i]? = some e := by
          rw [getElem?_eq_of_take_eq (show i < m by omega) htake, hi]
        exact List.mem_of_getElem? hmem
      appended := h.appended
      answered := by
        intro p hp
        refine ⟨(h.answered p hp).1, ?_⟩
        have hmem := (h.answered p hp).2
        exact List.mem_append_left _ hmem
      appending := h.appending
      returned := h.returned }

theorem Tracks.commit (h : Tracks full s x) : Tracks full s (x.commit s) :=
  h.goes_on h.logged rfl h.base_le h.callback le_rfl h.logged.commit_le rfl fun _ _ hle => hle

private theorem Tracks.proceeds (h : Tracks full s x) {m : Nat} (hproceeds : Proceeds full m s t)
    (hm : s.commitIndex ≤ m) (hwaits : ∀ p ∈ x.waits, p.1 ≤ full.length → p.1 ≤ m) :
    ∃ full', Tracks full' t (x.commit t) := by
  obtain ⟨full', hlogged, htake⟩ := hproceeds.log
  have hbase : t.log.lastIndex = s.log.lastIndex := congrArg Prod.fst hproceeds.progress
  have happlied : t.lastApplied = s.lastApplied := congrArg (·.2.1) hproceeds.progress
  have hcallback : t.callback = s.callback := congrArg (·.2.2) hproceeds.progress
  exact ⟨full', h.goes_on hlogged happlied (hbase ▸ h.base_le) (hcallback ▸ h.callback)
    hproceeds.commit hm htake hwaits⟩

/-! ## The callback -/

private theorem find_mem {store : Store} {index : Nat} {w : Waiting} (h : store.find index = some w) :
    (index, w) ∈ store.commands := by
  obtain ⟨p, hp, rfl⟩ := Option.map_eq_some_iff.mp h
  have hindex : p.1 = index := by simpa using List.find?_some hp
  exact hindex ▸ List.mem_of_find?_eq_some hp

theorem Tracks.own (h : Tracks full s x) {e : LogEntry}
    (hget : s.log.get (s.lastApplied + 1) = some e) (hindex : s.lastApplied + 1 < notLeader)
    {w : Waiting} (hw : x.store.find e.index = some w) : (w, e.toEntry) ∈ x.appended := by
  obtain ⟨htake, he⟩ := Server.take_succ_of_get h.logged.holds hget
  have hmem : (e.index, w) ∈ x.waits := List.mem_append_left _ (find_mem hw)
  rcases h.waits _ hmem with heq | hle | ⟨e', he', hindex', happended⟩
  · have heq : e.index = notLeader := heq
    omega
  · have hle : e.index ≤ s.lastApplied := hle
    omega
  · obtain ⟨i, hi⟩ := List.mem_iff_getElem?.mp he'
    have hplace := h.logged.holds.indexed i _ hi
    have hsame : full[s.lastApplied]? = some e.toEntry := by
      have hlast := congrArg (·[s.lastApplied]?) htake
      have hlength : s.lastApplied ≤ full.length := h.logged.applied_le.trans h.logged.commit_le
      simpa [List.getElem?_append, List.length_take, Nat.min_eq_left hlength] using hlast
    obtain rfl : i = s.lastApplied := by
      have hindex' : e'.index = e.index := hindex'
      omega
    obtain rfl : e' = e.toEntry := Option.some.inj (hi.symm.trans hsame)
    exact happended

private theorem onLogEntryCommitted_rest (store : Store) (e : LogEntry) :
    (store.onLogEntryCommitted e).appending = store.appending ∧
      ∀ p ∈ (store.onLogEntryCommitted e).commands, p ∈ store.commands := by
  unfold Store.onLogEntryCommitted Store.insert
  repeat' split
  all_goals exact ⟨rfl, fun p hp => by first | exact hp | exact List.mem_of_mem_filter hp⟩

private theorem Tracks.passed (h : Tracks full s x) {e : LogEntry} (hpasses : s.passes = some e)
    (hindex : s.lastApplied + 1 < notLeader) : Tracks full s.applyNext (x.pass e) := by
  obtain ⟨hlt, hget, hconfig, -, hraft⟩ := applyNext_some hpasses
  obtain ⟨htake, he⟩ := Server.take_succ_of_get h.logged.holds hget
  obtain ⟨happending, hcommands⟩ := onLogEntryCommitted_rest x.store e
  have hown : ∀ w ∈ x.store.find e.index, (w, e.toEntry) ∈ x.appended :=
    fun w hw => h.own hget hindex hw
  have hmem : e.toEntry ∈ x.committed := by
    have hcut : full.take (s.lastApplied + 1) <+: full.take s.commitIndex :=
      List.take_prefix_take_left hlt
    rw [h.committed]
    refine hcut.subset ?_
    rw [htake]
    simp
  rw [hraft]
  exact
    { logged := ⟨h.logged.holds, h.logged.base_le, h.logged.commit_le, hlt⟩
      base_le := Nat.le_succ_of_le h.base_le
      callback := by
        intro i hi
        obtain rfl := Option.some.inj hi
        exact he.le
      committed := h.committed
      db := by
        have hdb := Store.onLogEntryCommitted_db (s := x.store) (e := e)
          fun w hw => h.appended _ (hown w hw)
        change (x.store.onLogEntryCommitted e).db = _
        rw [hdb, h.db]
        dsimp only
        rw [htake, texts_append, Database.restore_append]
        simp [texts, hconfig]
      waits := by
        intro p hp
        have hp : p ∈ x.waits := by
          unfold Site.waits pass at hp
          rw [happending] at hp
          rcases List.mem_append.mp hp with hp | hp
          · exact List.mem_append_left _ (hcommands p hp)
          · exact List.mem_append_right _ hp
        exact (h.waits p hp).imp_right (Or.imp_left Nat.le_succ_of_le)
      appended := h.appended
      answered := by
        intro p hp
        rcases List.mem_append.mp hp with hp | hp
        · exact h.answered p hp
        · obtain ⟨w, hw, rfl⟩ := Option.map_eq_some_iff.mp (Option.mem_toList.mp hp)
          exact ⟨hown w hw, hmem⟩
      appending := by
        intro w hw
        exact h.appending w (happending ▸ hw)
      returned := by
        intro hnone
        exact h.returned (happending ▸ hnone) }

private theorem Tracks.not_passed (h : Tracks full s x) (hpasses : s.passes = none) :
    Tracks full s.applyNext x := by
  obtain ⟨-, hcallback, hlast⟩ := applyNext_none hpasses
  obtain ⟨lastApplied, applied, hsame, -⟩ := applyNext_replica s
  have hlog : s.applyNext.log = s.log := by rw [hsame]
  have hcommit : s.applyNext.commitIndex = s.commitIndex := by rw [hsame]
  -- a configuration is no text
  have hnext : s.lastApplied ≤ s.applyNext.lastApplied ∧
      s.applyNext.lastApplied ≤ s.commitIndex ∧
      texts (full.take s.applyNext.lastApplied) = texts (full.take s.lastApplied) := by
    rcases hlast with hlast | ⟨hlt, hlast, hconfig⟩
    · rw [hlast]
      exact ⟨le_rfl, h.logged.applied_le, rfl⟩
    · have hmap := h.logged.holds.get_succ_map s.lastApplied
      have hlength : s.lastApplied < full.length := hlt.trans_le h.logged.commit_le
      rw [if_neg (Nat.not_lt.mpr h.base_le), List.getElem?_eq_getElem hlength] at hmap
      obtain ⟨e, he, -⟩ := Option.map_eq_some_iff.mp hmap
      rw [hlast]
      refine ⟨Nat.le_succ _, hlt, ?_⟩
      rw [(Server.take_succ_of_get h.logged.holds he).1, texts_append]
      simp [texts, hconfig e he]
  obtain ⟨hle, hbound, htexts⟩ := hnext
  exact
    { logged := by
        refine ⟨hlog ▸ h.logged.holds, ?_, ?_, ?_⟩
        · rw [hlog, hcommit]
          exact h.logged.base_le
        · rw [hcommit]
          exact h.logged.commit_le
        · rw [hcommit]
          exact hbound
      base_le := by
        rw [hlog]
        exact h.base_le.trans hle
      callback := by
        rw [hcallback]
        exact fun i hi => (h.callback i hi).trans hle
      committed := by
        rw [hcommit]
        exact h.committed
      db := by
        rw [htexts]
        exact h.db
      waits := fun p hp => (h.waits p hp).imp_right (Or.imp_left hle.trans')
      appended := h.appended
      answered := h.answered
      appending := h.appending
      returned := h.returned }

theorem Tracks.compacted (h : Tracks full s x) : Tracks full s.compact (x.commit s.compact) := by
  have hlength := h.logged.commit_le
  unfold Raft.compact
  cases hcallback : s.callback with
  | none => exact h.commit
  | some index =>
      have hindex := h.callback index hcallback
      dsimp only
      split
      · rename_i hcond
        obtain ⟨hholds, hbase⟩ := h.logged.holds.drop_getD hlength
        rw [← hcond.2] at hholds hbase
        refine h.goes_on ⟨hholds, ?_, hlength, h.logged.applied_le⟩ rfl ?_ (by simp) le_rfl hlength
          rfl fun _ _ hle => hle
        · exact hbase.trans (max_le h.logged.base_le hcond.2.le)
        · exact hbase.trans (max_le h.base_le hindex)
      · exact h.goes_on h.logged rfl h.base_le (by simp) le_rfl hlength rfl fun _ _ hle => hle

/-! ## Commands -/

theorem Tracks.command (h : Tracks full s x) (happending : x.store.appending = none)
    (session : Nat) {cmd : Command}
    (hplain : cmd.type = .set ∨ cmd.type = .del → PlainCommand cmd) :
    Tracks full s { x with store := x.store.handleCommand s session cmd } := by
  have hstore : (x.store.handleCommand s session cmd).db = x.store.db ∧
      (x.store.handleCommand s session cmd).commands = x.store.commands ∧
      ((x.store.handleCommand s session cmd).appending = none ∨
        (cmd.type = .set ∨ cmd.type = .del) ∧
        (x.store.handleCommand s session cmd).appending = some ⟨session, cmd⟩) := by
    unfold Store.handleCommand
    split
    · exact ⟨rfl, rfl, .inl happending⟩
    · rename_i htype
      split
      · exact ⟨rfl, rfl, .inl happending⟩
      · exact ⟨rfl, rfl, .inr ⟨.inl htype, rfl⟩⟩
    · rename_i htype
      split
      · exact ⟨rfl, rfl, .inl happending⟩
      · exact ⟨rfl, rfl, .inr ⟨.inr htype, rfl⟩⟩
    · exact ⟨rfl, rfl, .inl happending⟩
  obtain ⟨hdb, hcommands, hnext⟩ := hstore
  have hreturned := h.returned happending
  exact
    { logged := h.logged
      base_le := h.base_le
      callback := h.callback
      committed := h.committed
      db := hdb.trans h.db
      waits := by
        intro p hp
        refine h.waits p ?_
        simp only [Site.waits, hreturned, hcommands, List.append_nil] at hp ⊢
        exact hp
      appended := h.appended
      answered := h.answered
      appending := by
        intro w hw
        rcases hnext with hnone | ⟨htype, hsome⟩
        · rw [hnone] at hw
          cases hw
        · rw [hsome] at hw
          obtain rfl := Option.some.inj hw
          exact hplain htype
      returned := fun _ => hreturned }

theorem Tracks.appends (h : Tracks full s x) {w : Waiting} (hw : x.store.appending = some w) :
    ∃ full', Tracks full' (s.append (logText w.cmd)) (x.append s w) := by
  have hplain := h.appending w hw
  have hindex : s.log.lastEntryIndex = full.length := h.logged.holds.lastEntryIndex_eq
  by_cases hrole : s.role = .leader
  · let e : Entry :=
      { term := s.currTerm, index := full.length + 1, data := logText w.cmd, config := false }
    have hsite : x.append s w = { x with
        returned := some (full.length + 1), appended := x.appended ++ [(w, e)] } := by
      simp [Site.append, Server.appendIndex, hrole, hindex, e]
    have hraft : s.append (logText w.cmd) = { s with
        log := s.log.append [s.log.makeEntry (logText w.cmd) (s.log.lastEntryIndex + 1)
          s.currTerm false] } := by
      simp [Raft.append, hrole]
    have hcut : ∀ i ≤ full.length, (full ++ [e]).take i = full.take i :=
      fun i hi => List.take_append_of_le_length hi
    have hlength := h.logged.commit_le
    rw [hsite, hraft]
    refine ⟨full ++ [e], ?_⟩
    exact
      { logged := h.logged.append (logText w.cmd) s.currTerm false
        base_le := h.base_le
        callback := h.callback
        committed := by
          rw [hcut _ hlength]
          exact h.committed
        db := by
          rw [hcut _ (h.logged.applied_le.trans hlength)]
          exact h.db
        waits := by
          intro p hp
          simp only [Site.waits, hw, List.mem_append, List.mem_singleton] at hp
          rcases hp with hp | rfl
          · refine (h.waits p (List.mem_append_left _ hp)).imp_right fun hwait => hwait.imp_right ?_
            rintro ⟨e', he', heq, happended⟩
            exact ⟨e', List.mem_append_left _ he', heq, List.mem_append_left _ happended⟩
          · exact .inr (.inr ⟨e, by simp, rfl, by simp⟩)
        appended := by
          intro p hp
          rcases List.mem_append.mp hp with hp | hp
          · exact h.appended p hp
          · obtain rfl := List.mem_singleton.mp hp
            exact ⟨hplain, rfl⟩
        answered := fun p hp => (h.answered p hp).imp_left (List.mem_append_left _)
        appending := h.appending
        returned := by simp [hw] }
  · have hsite : x.append s w = { x with returned := some notLeader } := by
      simp [Site.append, Server.appendIndex, hrole]
    have hraft : s.append (logText w.cmd) = s := by simp [Raft.append, hrole]
    rw [hsite, hraft]
    refine ⟨full, ?_⟩
    exact
      { h with
        waits := by
          intro p hp
          simp only [Site.waits, hw, List.mem_append, List.mem_singleton] at hp
          rcases hp with hp | rfl
          · exact h.waits p (List.mem_append_left _ hp)
          · exact .inl rfl
        returned := by simp [hw] }

private theorem waitFor_rest (store : Store) (index : Nat) :
    (store.waitFor index).db = store.db ∧ (store.waitFor index).appending = none ∧
      ∀ p ∈ (store.waitFor index).commands,
        p ∈ store.commands ∨ ∃ w, store.appending = some w ∧ p = (index, w) := by
  unfold Store.waitFor
  split
  · rename_i hnone
    exact ⟨rfl, hnone, fun p hp => .inl hp⟩
  · rename_i w hw
    dsimp only
    split
    · exact ⟨rfl, rfl, fun p hp => .inl hp⟩
    split
    · exact ⟨rfl, rfl, fun p hp => .inl hp⟩
    · refine ⟨rfl, rfl, fun p hp => ?_⟩
      rcases List.mem_append.mp hp with hp | hp
      · exact .inl hp
      · exact .inr ⟨w, hw, List.mem_singleton.mp hp⟩

theorem Tracks.keeps (h : Tracks full s x) {index : Nat} (hreturned : x.returned = some index) :
    Tracks full s (x.keepSession index) := by
  obtain ⟨hdb, happending, hcommands⟩ := waitFor_rest x.store index
  exact
    { logged := h.logged
      base_le := h.base_le
      callback := h.callback
      committed := h.committed
      db := hdb.trans h.db
      waits := by
        intro p hp
        simp only [Site.waits, keepSession, List.append_nil] at hp
        refine h.waits p ?_
        rcases hcommands p hp with hp | ⟨w, hw, rfl⟩
        · exact List.mem_append_left _ hp
        · simp [Site.waits, hreturned, hw]
      appended := h.appended
      answered := h.answered
      appending := by
        intro w hw
        change (x.store.waitFor index).appending = some w at hw
        rw [happending] at hw
        cases hw
      returned := fun _ => rfl }

end Site

/-! ## Runs -/

/-- No white space is in the key of a command, and no line break in a value. -/
def ClusterEvent.Plain : ClusterEvent → Prop
  | .command _ _ bytes =>
      IsWord (CommandParser.fresh.parse bytes).2.1.cmd.key ∧
        ((CommandParser.fresh.parse bytes).2.1.cmd.type = .set →
          10 ∉ (CommandParser.fresh.parse bytes).2.1.cmd.value)
  | _ => True

instance : (e : ClusterEvent) → Decidable e.Plain
  | .command .. => inferInstanceAs (Decidable (_ ∧ _))
  | .raft _ | .appendCommand _ | .keepSession _ => isTrue trivial

namespace Cluster

/-- The requests that a server handles keep what is committed and what sessions wait for. -/
def Undisturbed (c : Cluster) : ClusterEvent → Prop
  | .raft (.handle i _) => ∀ call ∈ c.world.calls[i]?,
      (c.world.servers call.dst).Preserves call.request ∧
        (c.sites call.dst).Spares (c.world.servers call.dst) call.request
  | .raft (.applyNext id) => (c.world.servers id).lastApplied + 1 < notLeader
  | _ => True

instance (c : Cluster) (e : ClusterEvent) : Decidable (c.Undisturbed e) := by
  unfold Undisturbed
  split <;> infer_instance

structure Fresh (c : Cluster) : Prop where
  world : c.world.InOrder
  base : ∀ id ∈ c.world.ids, (c.world.servers id).log.lastIndex = 0
  lastApplied : ∀ id ∈ c.world.ids, (c.world.servers id).lastApplied = 0
  callback : ∀ id ∈ c.world.ids, (c.world.servers id).callback = none
  sites : ∀ id ∈ c.world.ids, c.sites id = Site.empty.commit (c.world.servers id)

structure Tracked (c : Cluster) : Prop where
  world : c.world.InOrder
  sites : ∀ id ∈ c.world.ids, ∃ full, (c.sites id).Tracks full (c.world.servers id)

variable {c c' : Cluster}

theorem Fresh.tracked (h : c.Fresh) : c.Tracked := by
  refine ⟨h.world, fun id hid => ?_⟩
  obtain ⟨full, hlogged⟩ := (h.world.regular id hid).logged
  have hbase := h.base id hid
  have hlast := h.lastApplied id hid
  have hempty : Site.empty.committed = full.take 0 := rfl
  have hcommitted := Site.commit_committed hempty hlogged (Nat.zero_le _) hbase.le
  refine ⟨full, hlogged, ?_, ?_, ?_, ?_, ?_, ?_, ?_, ?_, ?_⟩
  · rw [hbase]
    exact Nat.zero_le _
  · simp [h.callback id hid]
  · rw [h.sites id hid]
    exact hcommitted
  · rw [h.sites id hid, hlast]
    rfl
  all_goals
    rw [h.sites id hid]
    simp [Site.empty, Site.commit, Site.waits, Store.empty]

theorem Tracked.faithful (h : c.Tracked) :
    ∀ id ∈ c.world.ids, (c.sites id).Faithful (c.world.servers id) := by
  intro id hid
  obtain ⟨full, hsite⟩ := h.sites id hid
  exact hsite.faithful

theorem Tracked.visit (h : c.Tracked) {w : World} (hids : w.ids = c.world.ids) (hworld : w.InOrder)
    {id : Bytes} {f : Site → Site} (hothers : ∀ j ≠ id, w.servers j = c.world.servers j)
    (hsite : id ∈ c.world.ids → ∃ full, (f (c.sites id)).Tracks full (w.servers id)) :
    Tracked { c.visit id f with world := w } := by
  refine ⟨hworld, fun j hj => ?_⟩
  have hmem : j ∈ c.world.ids := hids ▸ hj
  by_cases heq : j = id
  · subst heq
    simpa [Cluster.visit] using hsite hmem
  · have hsites := h.sites j hmem
    simpa [Cluster.visit, Function.update_of_ne heq, hothers j heq] using hsites

private theorem after_tracks {w : World} {s : Raft} {x : Site} {full : List Entry} {e : Draft.Event}
    (hregular : s.Regular) (h : x.Tracks full s)
    (hexcluded : ∀ i recent, e = .handle i recent → w.moves e = false)
    (happly : ∀ id, e = .applyNext id → s.lastApplied + 1 < notLeader)
    (hcalls : ∀ i recent, e = .handle i recent → ∀ call ∈ w.calls[i]?,
      call.request.WellFormed ∧ s.Preserves call.request ∧ x.Spares s call.request) :
    ∃ full', (x.after s (w.reaction e s) e).Tracks full' (w.reaction e s) := by
  by_cases hmoves : w.moves e = true
  · cases e with
    | applyNext id =>
        refine ⟨full, ?_⟩
        change (x.after s s.applyNext (.applyNext id)).Tracks full s.applyNext
        unfold Site.after
        cases hpasses : s.passes with
        | none => exact (h.not_passed hpasses).commit
        | some e => exact (h.passed hpasses (happly id rfl)).commit
    | compact id => exact ⟨full, h.compacted⟩
    | handle i recent =>
        rw [hexcluded i recent rfl] at hmoves
        cases hmoves
    | _ => cases hmoves
  · obtain ⟨m, hm, hproceeds, hchops⟩ := World.reaction_proceeds hregular h.logged
      (Bool.eq_false_of_not_eq_true hmoves)
      fun i recent he call hcall => ⟨(hcalls i recent he call hcall).1,
        (hcalls i recent he call hcall).2.1⟩
    have hafter : x.after s (w.reaction e s) e = x.commit (w.reaction e s) := by
      cases e with
      | applyNext id => exact absurd rfl hmoves
      | _ => rfl
    rw [hafter]
    refine h.proceeds hproceeds hm fun p hp hle => ?_
    rcases hchops with rfl | hchops
    · exact hle
    · cases e with
      | handle i recent =>
          obtain ⟨call, hcall, req, y, hrequest, hy, hindex⟩ := hchops
          have hspares := (hcalls i recent rfl call hcall).2.2
          rw [hrequest] at hspares
          have hlast := h.logged.holds.lastEntryIndex_eq
          have hlt := hspares hy.term hy.prev y hy.mem hy.conflict p hp (hlast.symm ▸ hle)
          omega
      | _ => exact hchops.elim

theorem tracked_step {e : ClusterEvent} (h : c.Tracked) (hplain : e.Plain)
    (hclear : c.Undisturbed e) (hstep : c.step e = some c') : c'.Tracked := by
  cases e with
  | raft e =>
      simp only [step] at hstep
      split at hstep
      · cases hstep
      rename_i hexcluded
      split at hstep
      · rename_i id w hactor hworld
        cases hstep
        obtain ⟨id', hactor', hid, hw⟩ := World.step_reaction hworld
        obtain rfl : id = id' := Option.some.inj (hactor.symm.trans hactor')
        have hpreserves : c.world.Preserves e := by
          cases e with
          | handle i recent => exact fun call hcall => (hclear call hcall).1
          | _ => trivial
        have hself : w.servers id = { c.world.reaction e (c.world.servers id) with sent := [] } := by
          rw [hw, World.act_self]
        refine h.visit (by rw [hw]; rfl) (World.inOrder_step h.world hpreserves hworld)
          (fun j hj => by rw [hw, World.act_of_ne _ _ hj]) fun _ => ?_
        obtain ⟨full, hsite⟩ := h.sites id hid
        have hmoves : ∀ i recent, e = .handle i recent → c.world.moves e = false := by
          rintro i recent rfl
          simpa [excluded, World.moves] using hexcluded
        have happly : ∀ j, e = .applyNext j → (c.world.servers id).lastApplied + 1 < notLeader := by
          rintro j rfl
          obtain rfl : j = id := Option.some.inj hactor
          exact hclear
        have hcalls : ∀ i recent, e = .handle i recent → ∀ call ∈ c.world.calls[i]?,
            call.request.WellFormed ∧ (c.world.servers id).Preserves call.request ∧
              (c.sites id).Spares (c.world.servers id) call.request := by
          rintro i recent rfl call hcall
          obtain rfl : call.dst = id := by
            simpa [World.actor, Option.mem_def.mp hcall] using hactor
          exact ⟨h.world.requests call (List.mem_of_getElem? hcall), hclear call hcall⟩
        obtain ⟨full', hafter⟩ :=
          after_tracks (h.world.regular id hid) hsite hmoves happly hcalls
        have hsame : (c.sites id).after (c.world.servers id) (w.servers id) e =
            (c.sites id).after (c.world.servers id)
              (c.world.reaction e (c.world.servers id)) e := by
          rw [hself]
          rfl
        refine ⟨full', ?_⟩
        rw [hsame, hself]
        exact { hafter with }
      · cases hstep
  | command id session bytes =>
      simp only [step] at hstep
      split at hstep
      · rename_i p rest hparse
        simp only [Option.ite_none_right_eq_some, Option.some.injEq] at hstep
        obtain ⟨⟨hid, -, happending⟩, rfl⟩ := hstep
        have haccepts : CommandParser.Accepts bytes p.cmd := by
          unfold CommandParser.Accepts
          rw [hparse]
          exact ⟨rfl, rfl⟩
        simp only [ClusterEvent.Plain, hparse] at hplain
        obtain ⟨full, hsite⟩ := h.sites id hid
        exact h.visit (w := c.world) (f := fun x => { x with
          store := x.store.handleCommand (c.world.servers id) session p.cmd }) rfl h.world
          (fun _ _ => rfl) fun _ => ⟨full, hsite.command happending session fun htype =>
            ⟨htype, haccepts.key_ne_nil, hplain.1, hplain.2⟩⟩
      · cases hstep
  | appendCommand id =>
      simp only [step] at hstep
      split at hstep
      · rename_i w happending hreturned
        obtain ⟨world, hworld, rfl⟩ := Option.map_eq_some_iff.mp hstep
        obtain ⟨hid, hw⟩ := World.local_reaction (f := fun s => s.append (logText w.cmd)) hworld
        have hpreserves : c.world.Preserves (.append id (logText w.cmd)) := trivial
        refine h.visit (by rw [hw]; rfl) (World.inOrder_step h.world hpreserves hworld)
          (fun j hj => by rw [hw, World.act_of_ne _ _ hj]) fun _ => ?_
        obtain ⟨full, hsite⟩ := h.sites id hid
        obtain ⟨full', happends⟩ := hsite.appends happending
        refine ⟨full', ?_⟩
        rw [hw, World.act_self]
        exact { happends with }
      · cases hstep
  | keepSession id =>
      simp only [step] at hstep
      split at hstep
      · rename_i index hreturned
        simp only [Option.ite_none_right_eq_some, Option.some.injEq] at hstep
        obtain ⟨⟨hid, -⟩, rfl⟩ := hstep
        obtain ⟨full, hsite⟩ := h.sites id hid
        exact h.visit (w := c.world) (f := fun x => x.keepSession index) rfl h.world
          (fun _ _ => rfl) fun _ => ⟨full, hsite.keeps hreturned⟩
      · cases hstep

/--
In every run of a cluster whose requests leave alone what is committed and what
sessions wait for, each database is what the committed entries make of it, and
a session is answered for the entry that was appended for its command.
-/
theorem committed_acknowledged {es : List ClusterEvent} (hfresh : c.Fresh)
    (hplain : ∀ e ∈ es, e.Plain) (hclear : Along step Undisturbed c es)
    (hrun : run step c es = some c') :
    ∀ id ∈ c'.world.ids, (c'.sites id).Faithful (c'.world.servers id) := by
  have hboth := hclear.and (along_of_events hplain c)
  refine Tracked.faithful (run_invariant (P := Tracked) ?_ hboth hfresh.tracked hrun)
  intro c e c' ⟨hclear, hplain⟩ h hstep
  exact tracked_step h hplain hclear hstep

def firstStart : Cluster :=
  { world := World.cluster ["a:1", "b:1", "c:1"] true
    sites := fun id => Site.empty.commit ((World.cluster ["a:1", "b:1", "c:1"] true).servers id) }

theorem fresh_firstStart : firstStart.Fresh :=
  ⟨World.inOrder_cluster, fun _ _ => rfl, fun _ _ => rfl, fun _ _ => rfl, fun _ _ => rfl⟩

def setAtLeader : List ClusterEvent :=
  [.raft (.electionTimeout (ascii "a:1")), .raft (.handle 0 false), .raft (.succeed 0 false),
    .raft (.handle 3 false), .raft (.succeed 3 false),
    .command (ascii "a:1") 1 (ascii "set k v\r\n"), .appendCommand (ascii "a:1"),
    .keepSession (ascii "a:1")]

def setCommitted : List ClusterEvent :=
  setAtLeader ++ [.raft (.heartbeatTimeout (ascii "a:1")), .raft (.handle 7 false),
    .raft (.succeed 7 false), .raft (.popCommitted (ascii "a:1")),
    .raft (.applyNext (ascii "a:1")), .raft (.applyNext (ascii "a:1"))]

theorem committed_acknowledged_set : ∃ c, run step firstStart setCommitted = some c ∧
    (c.sites (ascii "a:1")).answered.map (·.1.session) = [1] ∧
    ∀ id ∈ c.world.ids, (c.sites id).Faithful (c.world.servers id) := by
  refine ⟨_, (Option.some_get (by decide)).symm, by decide, ?_⟩
  exact @committed_acknowledged firstStart _ setCommitted fresh_firstStart (by decide) (by decide)
    (Option.some_get (by decide)).symm

/--
`b` is elected before any other server has the entry of `a`, and session 2 sets
the key at `b`.  The entry of `b` takes the place of the other one in the log of
`a`, where session 1 still waits for its index.
-/
def setReplaced : List ClusterEvent :=
  setAtLeader ++ [.raft (.handle 4 false), .raft (.electionTimeout (ascii "b:1")),
    .raft (.handle 7 false), .raft (.succeed 7 false), .raft (.handle 9 false),
    .raft (.succeed 9 false), .command (ascii "b:1") 2 (ascii "set k w\r\n"),
    .appendCommand (ascii "b:1"), .keepSession (ascii "b:1"),
    .raft (.heartbeatTimeout (ascii "b:1")), .raft (.handle 12 false),
    .raft (.succeed 12 false), .raft (.heartbeatTimeout (ascii "b:1")),
    .raft (.handle 14 false), .raft (.popCommitted (ascii "a:1")),
    .raft (.applyNext (ascii "a:1")), .raft (.applyNext (ascii "a:1"))]

theorem inherited_acknowledged :
    ¬ ∀ (es : List ClusterEvent) (c : Cluster), (∀ e ∈ es, e.Plain) →
      run step firstStart es = some c →
      ∀ id ∈ c.world.ids, (c.sites id).Faithful (c.world.servers id) := by
  intro h
  have hrun := (Option.some_get (show (run step firstStart setReplaced).isSome by decide)).symm
  have hfaithful := h setReplaced _ (by decide) hrun (ascii "a:1") (by decide)
  have hown := fun p hp => (hfaithful.answered p hp).1
  exact absurd hown (by decide)

end Cluster

end Kv

end Draft
