import Draft.Raft.Enrolled

/-!
# The members after a request

A follower that merges entries or takes over a base runs its newest
configuration, unless the configuration entries it removes leave none behind,
or the chain skips the one they leave.
-/

namespace Draft

open Consensus Raft

/-! ## Merged entries -/

def newEntries (log : EntryLogger) (entries : List Entry) : List Entry :=
  entries.dropWhile fun e => !log.entryConflicted e.index e.term && log.hasEntry e.index e.term

namespace Raft

variable {s : Raft} {log new : EntryLogger} {entries : List Entry}

theorem mergeEntries_cases (h : mergeEntries log entries = some new) :
    newEntries log entries = [] ∧ new = log ∨
      ∃ e rest kept, newEntries log entries = e :: rest ∧
        new = kept.append (makeEntries kept (e :: rest)) ∧
        (log.entryConflicted e.index e.term = false ∧ kept = log ∨
          log.entryConflicted e.index e.term = true ∧ log.chop e.index = some kept) := by
  induction entries with
  | nil => exact .inl ⟨rfl, (Option.some.inj h).symm⟩
  | cons e rest ih =>
      rw [mergeEntries] at h
      unfold newEntries at ih ⊢
      rw [List.dropWhile_cons]
      cases hconflict : log.entryConflicted e.index e.term with
      | true =>
          rw [if_pos hconflict, Option.map_eq_some_iff] at h
          obtain ⟨kept, hchop, rfl⟩ := h
          exact .inr ⟨e, rest, kept, by simp, rfl, .inr ⟨hconflict, hchop⟩⟩
      | false =>
          rw [if_neg (by simp [hconflict])] at h
          cases hhas : log.hasEntry e.index e.term with
          | true =>
              rw [if_pos hhas] at h
              simpa using ih h
          | false =>
              rw [if_neg (by simp [hhas]), Option.some.injEq] at h
              exact .inr ⟨e, rest, log, by simp, h.symm, .inl ⟨hconflict, rfl⟩⟩

theorem mem_makeEntries {x : LogEntry} (hx : x ∈ makeEntries log entries) :
    x.toEntry ∈ entries ∧ (x.config = true → x.prevCfg = log.cfgEntryIndex) := by
  obtain ⟨e, he, rfl⟩ := List.mem_map.mp hx
  exact ⟨he, fun hconfig => if_pos hconfig⟩

theorem mem_of_newEntries {e : Entry} (he : e ∈ newEntries log entries) : e ∈ entries :=
  (List.dropWhile_sublist _).subset he

/-- The configuration entries that a request chops off leave a configuration to go back to. -/
def RollsBack (log : EntryLogger) (i : Nat) : Prop :=
  log.Unskipped i ∧
    ((∃ d ∈ log.entries, d.config = true ∧ d.index < i) ∨
      SameMembers log.newestConfig log.lastConfig)

instance (log : EntryLogger) (i : Nat) : Decidable (RollsBack log i) :=
  inferInstanceAs (Decidable (_ ∧ _))

/-- What is removed is replaced by a newer configuration, or leaves one. -/
def Restores (log : EntryLogger) (entries : List Entry) : Prop :=
  (∃ e ∈ newEntries log entries, e.config = true) ∨
    ∀ e ∈ (newEntries log entries).head?, log.entryConflicted e.index e.term = true →
      RollsBack log e.index

instance (log : EntryLogger) (entries : List Entry) : Decidable (Restores log entries) :=
  inferInstanceAs (Decidable (_ ∨ _))

private theorem mergeEntries_traced (h : log.Traced) (hnew : new.Consecutive)
    (hrestores : Restores log entries) (hmerge : mergeEntries log entries = some new) :
    new.Traced ∧ new.lastConfig = log.lastConfig ∧
      (∀ x ∈ new.entries, x ∈ log.entries ∨ x.toEntry ∈ entries) ∧
      (new.newestEntry = none →
        ∀ a, a ∈ members new.newestConfig ↔ a ∈ members log.newestConfig) := by
  rcases mergeEntries_cases hmerge with ⟨-, rfl⟩ | ⟨e, rest, kept, hnewEntries, rfl, hkept⟩
  · exact ⟨h, rfl, fun x hx => .inl hx, fun _ _ => .rfl⟩
  have hbatch : ∀ x ∈ makeEntries kept (e :: rest), x.toEntry ∈ newEntries log entries :=
    fun x hx => hnewEntries ▸ (mem_makeEntries hx).1
  have hprev : ∀ x ∈ makeEntries kept (e :: rest), x.config = true →
      x.prevCfg = kept.cfgEntryIndex := fun x hx => (mem_makeEntries hx).2
  have hbrings : (∃ x ∈ newEntries log entries, x.config = true) →
      ∃ x ∈ makeEntries kept (e :: rest), x.config = true := by
    rw [hnewEntries]
    rintro ⟨x, hx, hconfig⟩
    exact ⟨_, List.mem_map_of_mem hx, hconfig⟩
  have hmem : (∀ x ∈ kept.entries, x ∈ log.entries) →
      ∀ x ∈ (kept.append (makeEntries kept (e :: rest))).entries,
        x ∈ log.entries ∨ x.toEntry ∈ entries := by
    intro hsub x hx
    rcases List.mem_append.mp hx with hx | hx
    · exact .inl (hsub x hx)
    · exact .inr (mem_of_newEntries (hbatch x hx))
  rcases hkept with ⟨-, rfl⟩ | ⟨hconflict, hchop⟩
  · refine ⟨.append h.toChained h.consecutive hnew hprev (.inl h.newest_le), rfl,
      hmem fun x hx => hx, fun hnone a => ?_⟩
    have hold : kept.newestEntry = none := by
      rw [EntryLogger.newestEntry_append, Option.or_eq_none_iff] at hnone
      exact hnone.2
    rw [EntryLogger.newestConfig, hnone, EntryLogger.newestConfig, hold]
    rfl
  · obtain ⟨hchained, hcons, hkeptmem, hlast, -, hnewest⟩ := h.chop hchop
    have hrolls : (∃ x ∈ newEntries log entries, x.config = true) ∨ RollsBack log e.index :=
      hrestores.imp_right fun hall => hall e (by simp [hnewEntries]) hconflict
    refine ⟨.append hchained hcons hnew hprev ?_, hlast,
      hmem fun x hx => ((hkeptmem x).mp hx).1, fun hnone a => ?_⟩
    · rcases hrolls with hbring | hroll
      · exact .inr (hbrings hbring)
      · exact .inl (hnewest hroll.1)
    · rw [EntryLogger.newestEntry_eq_none] at hnone
      -- nothing that names a configuration is left
      have hnot : ¬ ∃ x ∈ newEntries log entries, x.config = true := by
        intro hbring
        obtain ⟨x, hx, hconfig⟩ := hbrings hbring
        rw [hnone x (List.mem_append_right _ hx)] at hconfig
        cases hconfig
      have hleft : ¬ ∃ d ∈ log.entries, d.config = true ∧ d.index < e.index := by
        rintro ⟨d, hd, hconfig, hlt⟩
        rw [hnone d (List.mem_append_left _ ((hkeptmem d).mpr ⟨hd, hlt⟩))] at hconfig
        cases hconfig
      have hsame := (hrolls.resolve_left hnot).2.resolve_left hleft
      rw [EntryLogger.newestConfig, EntryLogger.newestEntry_eq_none.mpr hnone, hsame.iff]
      change a ∈ members kept.lastConfig ↔ _
      rw [hlast]

/-! ## Members read again -/

private theorem contains_iff (s : Raft) (a : Bytes) : s.contains a = true ↔ a ∈ s.roster.map (·.1) := by
  simp only [contains, roster, List.any_eq_true, decide_eq_true_eq, List.map_map, List.mem_map,
    Function.comp_apply]

theorem adjustConfiguration_keys {config : Bytes} (hne : config ≠ []) (s : Raft) (a : Bytes) :
    a ∈ (s.adjustConfiguration config).cluster.map (·.1) ↔ a ∈ split 44 config := by
  have hfilter : ∀ cluster : List (Bytes × Node),
      a ∈ (cluster.filter (·.1 ∈ split 44 config)).map (·.1) ↔
        a ∈ cluster.map (·.1) ∧ a ∈ split 44 config := by
    intro cluster
    simp only [List.mem_map, List.mem_filter, decide_eq_true_eq]
    constructor
    · rintro ⟨p, ⟨hp, hin⟩, rfl⟩
      exact ⟨⟨p, hp, rfl⟩, hin⟩
    · rintro ⟨⟨p, hp, rfl⟩, hin⟩
      exact ⟨p, ⟨hp, hin⟩, rfl⟩
  rw [adjustConfiguration_cluster hne, hfilter, foldl_enlist_keys]
  exact ⟨fun h => h.2, fun h => ⟨.inr h, h⟩⟩

theorem roster_keys (s : Raft) : s.roster.map (·.1) = s.cluster.map (·.1) := by
  rw [roster, List.map_map]
  rfl

theorem adjustConfiguration_nodup (h : (s.roster.map (·.1)).Nodup) (config : Bytes) :
    ((s.adjustConfiguration config).roster.map (·.1)).Nodup := by
  rw [roster_keys] at h ⊢
  by_cases hconfig : config = []
  · rw [adjustConfiguration, if_pos hconfig]
    exact h
  · rw [adjustConfiguration_cluster hconfig]
    exact (foldl_enlist_nodup h).sublist (List.filter_sublist.map _)

theorem mem_adjustConfiguration {config : Bytes} {p : Bytes × Node}
    (hp : p ∈ (s.adjustConfiguration config).cluster) :
    p ∈ s.cluster ∨ p.1 ∈ split 44 config ∧ p.2 = s.makeNode p.1 defaultRpcPort := by
  by_cases hconfig : config = []
  · rw [adjustConfiguration, if_pos hconfig] at hp
    exact .inl hp
  · rw [adjustConfiguration_cluster hconfig] at hp
    exact mem_foldl_enlist (List.mem_of_mem_filter hp)

private theorem adjustConfiguration_members (hids : ∀ p ∈ s.roster, p.2 = p.1 ∧ IsId p.1)
    (hnodup : (s.roster.map (·.1)).Nodup) {config : Bytes} (hproper : Proper config) :
    (∀ p ∈ (s.adjustConfiguration config).roster, p.2 = p.1 ∧ IsId p.1) ∧
      ((s.adjustConfiguration config).roster.map (·.1)).Nodup ∧
      ∀ a, a ∈ (s.adjustConfiguration config).roster.map (·.1) ↔ a ∈ members config := by
  refine ⟨fun p hp => ?_, adjustConfiguration_nodup hnodup config, fun a => ?_⟩
  · obtain ⟨q, hq, rfl⟩ := List.mem_map.mp hp
    rcases mem_adjustConfiguration hq with hold | ⟨haddress, hnode⟩
    · exact hids _ (List.mem_map_of_mem hold)
    · refine ⟨?_, hproper.isId haddress⟩
      rw [hnode, makeNode_id]
      exact hproper _ haddress
  · rw [roster_keys, hproper.members]
    exact adjustConfiguration_keys hproper.ne_nil s a

/-! ## The requests -/

/-- The request is out of date, or keeps the newest configuration within reach. -/
def Recalls (s : Raft) : Request → Prop
  | .appendEntries req =>
      req.term < s.currTerm ∨ s.log.hasEntry req.prevLogIndex req.prevLogTerm = false ∨
        (∀ e ∈ req.entries, e.index ≤ s.log.lastIndex → s.log.hasEntry e.index e.term = true) ∧
          Restores s.log req.entries
  | .dataTransfer req =>
      req.term < s.currTerm ∨ req.id ≠ 1 ∨ s.logCompactionEnabled = false ∨
        (req.lastConfig = [] → SameMembers s.log.newestConfig s.log.lastConfig) ∧
          (s.log.cfgEntryIndex ≤ s.log.lastIndex → s.log.cfgEntryIndex ≤ req.lastIndex) ∧
          ∀ x ∈ s.log.entries, x.config = true → x.prevCfg ≤ s.log.lastIndex →
            x.prevCfg ≤ req.lastIndex
  | _ => True

instance (s : Raft) : (req : Request) → Decidable (s.Recalls req)
  | .appendEntries _ | .dataTransfer _ => by unfold Recalls; infer_instance
  | .timeoutNow _ | .preVote _ | .requestVote _ | .doneTransfer _ => instDecidableTrue

private theorem enrolled_followEntries (h : s.toReplica.Enrolled s.roster) {req : AppendEntriesReq}
    (hreq : Request.WellFormed (.appendEntries req))
    (hproper : Request.Enrolled (.appendEntries req))
    (hprev : s.log.hasEntry req.prevLogIndex req.prevLogTerm = true)
    (hheld : ∀ e ∈ req.entries, e.index ≤ s.log.lastIndex → s.log.hasEntry e.index e.term = true)
    (hrestores : Restores s.log req.entries) (hmerge : mergeEntries s.log req.entries = some new) :
    (s.followEntries new req).toReplica.Enrolled (s.followEntries new req).roster := by
  obtain ⟨full, hholds⟩ := h.holds
  obtain ⟨g, hindexed, hseg⟩ := hreq
  obtain ⟨m, rest, hnewHolds, hindex, -⟩ := mergeEntries_holds hholds
    (fun k e he => hseg.index hindexed he)
    (le_length_of_termAt (hholds.hasEntry_iff.mp hprev).2) hheld hmerge
  obtain ⟨htraced, hlast, hmem, hnone⟩ :=
    mergeEntries_traced h.traced hnewHolds.consecutive hrestores hmerge
  have hnewProper : ∀ x ∈ new.entries, x.config = true → Proper x.data := by
    intro x hx hconfig
    rcases hmem x hx with hold | hnew
    · exact h.proper x hold hconfig
    · exact hproper _ hnew hconfig
  have hbase : new.lastConfig = [] ∨ Proper new.lastConfig := hlast ▸ h.base
  have hlearn : ({ s with log := new }.learnCommit req.leaderCommit).toReplica.log = new ∧
      ({ s with log := new }.learnCommit req.leaderCommit).cluster = s.cluster := by
    unfold learnCommit
    split <;> exact ⟨rfl, rfl⟩
  generalize ht : { Raft.learnCommit { s with log := new } req.leaderCommit with
    leader := req.leaderId } = t
  have hlog : t.log = new := ht ▸ hlearn.1
  have hroster : t.roster = s.roster := roster_of_cluster (ht ▸ hlearn.2)
  have hfollow : s.followEntries new req =
      if needAdjustCfg s.log new req.entries then t.adjustConfiguration new.config else t :=
    ht ▸ rfl
  have stays : (∀ a, a ∈ members new.newestConfig ↔ a ∈ members s.log.newestConfig) →
      t.toReplica.Enrolled t.roster := by
    intro hsame
    refine ⟨⟨_, hlog ▸ hnewHolds⟩, hlog ▸ htraced, hlog ▸ hnewProper, hlog ▸ hbase,
      hroster ▸ h.ids, hroster ▸ h.nodup, fun a => ?_⟩
    rw [hroster, h.runs, hlog, hsame]
  rw [hfollow]
  split
  · cases hnewest : new.newestEntry with
    | none =>
        have hconfig : new.config = [] := by
          rw [htraced.config_eq, hnewest]
          rfl
        rw [hconfig, adjustConfiguration, if_pos rfl]
        exact stays (hnone hnewest)
    | some x =>
        obtain ⟨hx, hxconfig⟩ := EntryLogger.newestEntry_mem hnewest
        have hconfig : new.config = x.data := by
          rw [htraced.config_eq, hnewest]
          rfl
        have hdata : new.newestConfig = x.data := by
          rw [EntryLogger.newestConfig, hnewest]
          rfl
        obtain ⟨hids, hnodup, hkeys⟩ := adjustConfiguration_members (s := t)
          (hroster ▸ h.ids) (hroster ▸ h.nodup) (hnewProper x hx hxconfig)
        rw [hconfig, adjustConfiguration_replica]
        refine ⟨⟨_, hlog ▸ hnewHolds⟩, hlog ▸ htraced, hlog ▸ hnewProper, hlog ▸ hbase, hids,
          hnodup, fun a => ?_⟩
        rw [hkeys, hlog, hdata]
  · rename_i hneed
    simp only [needAdjustCfg, Bool.or_eq_true, List.any_eq_true, decide_eq_true_eq, not_or,
      not_exists, not_and, not_not] at hneed
    refine stays fun a => ?_
    rw [h.traced.newestConfig_eq htraced hneed.2.symm hindex hlast fun x hx hconfig =>
      (hmem x hx).resolve_right fun hnew => hneed.1 _ hnew hconfig]

private theorem enrolled_handleAppendEntries (h : s.toReplica.Enrolled s.roster) {req : AppendEntriesReq}
    (hreq : Request.WellFormed (.appendEntries req))
    (hproper : Request.Enrolled (.appendEntries req)) (hrecalls : s.Recalls (.appendEntries req)) :
    (s.handleAppendEntries req).1.toReplica.Enrolled (s.handleAppendEntries req).1.roster := by
  have hreplica := heedLeader_replica s req.term req.leaderId
  have hroster := (turn_heedLeader s req.term req.leaderId : Turn True s _).roster
  have heed : (s.heedLeader req.term req.leaderId).toReplica.Enrolled
      (s.heedLeader req.term req.leaderId).roster := by
    rw [hreplica, hroster]
    exact h
  have hlog : (s.heedLeader req.term req.leaderId).log = s.log := congrArg Replica.log hreplica
  unfold Raft.handleAppendEntries
  split
  · exact h
  rename_i hterm
  unfold acceptEntries
  split
  · exact heed
  rename_i hprev
  cases hmerge : mergeEntries (s.heedLeader req.term req.leaderId).log req.entries with
  | none => exact heed
  | some new =>
      have hprev := Decidable.not_not.mp hprev
      rcases hrecalls with hlt | hrefused | ⟨hheld, hrestores⟩
      · exact absurd hlt hterm
      · rw [hlog, hrefused] at hprev
        cases hprev
      · exact enrolled_followEntries heed hreq hproper hprev (hlog ▸ hheld) (hlog ▸ hrestores)
          hmerge

private theorem enrolled_installBase (h : s.toReplica.Enrolled s.roster) {req : DataReq}
    (hreq : Request.WellFormed (.dataTransfer req)) (hproper : Request.Enrolled (.dataTransfer req))
    (hsame : req.lastConfig = [] → SameMembers s.log.newestConfig s.log.lastConfig)
    (hcfg : s.log.cfgEntryIndex ≤ s.log.lastIndex → s.log.cfgEntryIndex ≤ req.lastIndex)
    (hprev : ∀ x ∈ s.log.entries, x.config = true → x.prevCfg ≤ s.log.lastIndex →
      x.prevCfg ≤ req.lastIndex) :
    (s.installBase req).toReplica.Enrolled (s.installBase req).roster := by
  obtain ⟨full, hholds⟩ := h.holds
  obtain ⟨g, hindexed, hlen, hterm⟩ := hreq
  -- the chain of the emptied log begins below the base
  have hchopped : ∀ log, (s.log.chop (s.log.lastIndex + 1)).getD s.log = log → log.entries = [] →
      log.lastConfig = s.log.lastConfig ∧ log.cfgEntryIndex ≤ req.lastIndex := by
    rintro log rfl hnil
    cases hchop : s.log.chop (s.log.lastIndex + 1) with
    | none =>
        rw [hchop] at hnil
        refine ⟨rfl, hcfg (h.traced.cfg_le_of_none ?_)⟩
        rw [EntryLogger.newestEntry, show s.log.entries = [] from hnil]
        rfl
    | some log =>
        rw [hchop] at hnil
        obtain ⟨hchained, -, -, hlast, hwhere, -⟩ := h.traced.chop hchop
        refine ⟨hlast, ?_⟩
        have hbase : log.lastIndex = s.log.lastIndex := by
          unfold EntryLogger.chop at hchop
          split at hchop
          · cases hchop
          · exact (Option.some.inj hchop) ▸ rfl
        have hlow : log.cfgEntryIndex ≤ s.log.lastIndex := by
          rcases hchained.newest with hle | ⟨x, hx, -⟩
          · exact hbase ▸ hle
          · rw [show log.entries = [] from hnil] at hx
            cases hx
        rcases hwhere with heq | ⟨x, hx, hconfig, heq⟩
        · exact heq ▸ hcfg (heq ▸ hlow)
        · exact heq ▸ hprev x hx hconfig (heq ▸ hlow)
  obtain ⟨hlastConfig, hlow⟩ := hchopped _ rfl hholds.chop_all
  generalize hlog : (s.log.chop (s.log.lastIndex + 1)).getD s.log = log at hlastConfig hlow
  have hnil : log.entries = [] := hlog ▸ hholds.chop_all
  generalize ht : { s with
    log := log, commitIndex := req.lastIndex, lastApplied := req.lastIndex } = t
  have hroster : t.roster = s.roster := ht ▸ rfl
  have hinstall : s.installBase req = { t.adjustConfiguration req.lastConfig with
      log := log.copyStates req.lastConfig req.lastIndex req.lastTerm } := by
    subst ht
    unfold installBase
    dsimp only
    rw [hlog, congrArg Replica.log (adjustConfiguration_replica _ req.lastConfig)]
  have hnewest : (log.copyStates req.lastConfig req.lastIndex req.lastTerm).newestConfig =
      if req.lastConfig = [] then s.log.lastConfig else req.lastConfig := by
    rw [EntryLogger.newestConfig, EntryLogger.newestEntry, EntryLogger.copyStates, hnil]
    dsimp only
    rw [hlastConfig]
    rfl
  rw [hinstall]
  have hmembers : (∀ p ∈ (t.adjustConfiguration req.lastConfig).roster, p.2 = p.1 ∧ IsId p.1) ∧
      ((t.adjustConfiguration req.lastConfig).roster.map (·.1)).Nodup ∧
      ∀ a, a ∈ (t.adjustConfiguration req.lastConfig).roster.map (·.1) ↔
        a ∈ members (if req.lastConfig = [] then s.log.lastConfig else req.lastConfig) := by
    by_cases hempty : req.lastConfig = []
    · rw [adjustConfiguration, if_pos hempty, if_pos hempty, hroster]
      exact ⟨h.ids, h.nodup, fun a => (h.runs a).trans ((hsame hempty).iff a)⟩
    · rw [if_neg hempty]
      exact adjustConfiguration_members (hroster ▸ h.ids) (hroster ▸ h.nodup)
        (hproper.resolve_left hempty)
  refine ⟨⟨g, EntryLogger.holds_copyStates hnil hlen hindexed hterm⟩, .copyStates hnil hlow,
    ?_, ?_, hmembers.1, hmembers.2.1, fun a => ?_⟩
  · intro x hx
    rw [show (log.copyStates req.lastConfig req.lastIndex req.lastTerm).entries = log.entries
      from rfl, hnil] at hx
    cases hx
  · change (if req.lastConfig = [] then log.lastConfig else req.lastConfig) = [] ∨
      Proper (if req.lastConfig = [] then log.lastConfig else req.lastConfig)
    split
    · exact hlastConfig ▸ h.base
    · exact hproper
  · exact (hmembers.2.2 a).trans (by rw [hnewest])

private theorem enrolled_handleDataTransfer (h : s.toReplica.Enrolled s.roster) {req : DataReq}
    (hreq : Request.WellFormed (.dataTransfer req)) (hproper : Request.Enrolled (.dataTransfer req))
    (hrecalls : s.Recalls (.dataTransfer req)) :
    (s.handleDataTransfer req).1.toReplica.Enrolled (s.handleDataTransfer req).1.roster := by
  have hturn : Turn True s (s.followSender req.term req.leaderId) :=
    turn_followSender s req.term req.leaderId
  have hreplica := followSender_replica s req.term req.leaderId
  have follow : (s.followSender req.term req.leaderId).toReplica.Enrolled
      (s.followSender req.term req.leaderId).roster := by
    rw [hreplica, hturn.roster]
    exact h
  have hlog : (s.followSender req.term req.leaderId).log = s.log := congrArg Replica.log hreplica
  have hcompaction : (s.followSender req.term req.leaderId).logCompactionEnabled =
      s.logCompactionEnabled := congrArg Settings.logCompactionEnabled hturn.settings
  unfold Raft.handleDataTransfer beginTransfer
  dsimp only
  split
  · exact h
  rename_i hterm
  split
  · rename_i hone
    split
    · rename_i henabled
      rcases hrecalls with hlt | hnot | hdisabled | ⟨hsame, hcfg, hprev⟩
      · exact absurd hlt hterm
      · exact absurd hone hnot
      · rw [hcompaction, hdisabled] at henabled
        cases henabled
      · generalize ht : { s.followSender req.term req.leaderId with electionTimer := false } = t
        have htlog : t.log = s.log := ht ▸ hlog
        have htaken : t.toReplica.Enrolled t.roster := ht ▸ follow
        exact enrolled_installBase htaken hreq hproper (htlog ▸ hsame) (htlog ▸ hcfg)
          (htlog ▸ hprev)
    · exact follow
  · exact follow

end Raft

/-! ## Runs -/

namespace World

variable {w w' : World} {e : Event}

/-- A request is handled where it keeps the configuration; a new server has no comma. -/
def Recalls (w : World) : Event → Prop
  | .handle i _ => ∀ c ∈ w.calls[i]?, (w.servers c.dst).Recalls c.request
  | .addServer id name => 44 ∉ (w.servers id).makeId name
  | _ => True

instance (w : World) : (e : Event) → Decidable (w.Recalls e)
  | .handle .. | .addServer .. => by unfold Recalls; infer_instance
  | .electionTimeout _ | .heartbeatTimeout _ | .leadershipTransferTimeout _ | .append ..
  | .transferLeadership .. | .delServer .. | .popCommitted _ | .applyNext _ | .compact _
  | .writeFiles .. | .succeed .. | .fail .. => instDecidableTrue

private theorem members_step (h : w.Upheld membersRun) (hrecalls : w.Recalls e)
    (hstep : w.step e = some w') : w'.Upheld membersRun := by
  refine upheld_step h ?_ hstep
  cases e with
  | handle i recent =>
      intro c hc hdst
      have hledger := (h.servers c.dst hdst).ledger
      obtain ⟨hreq, hproper⟩ := h.requests c (List.mem_of_getElem? hc)
      have hrecalls := hrecalls c hc
      constructor
      · intro r hr
        rw [hr] at hreq hproper hrecalls
        exact enrolled_handleAppendEntries hledger hreq hproper hrecalls
      · intro r hr
        rw [hr] at hreq hproper hrecalls
        exact enrolled_handleDataTransfer hledger hreq hproper hrecalls
  | addServer id name => exact isId_nodeId hrecalls
  | _ => trivial

/--
In a run in which every request is handled where it keeps the configuration, the
members of every server are those of the newest configuration it holds.
-/
theorem members_newest {es : List Event} (hstart : w.Upheld membersRun)
    (hrecalls : Along step Recalls w es) (hrun : run step w es = some w') :
    ∀ id ∈ w'.ids, (w'.servers id).Runs := by
  have h : w'.Upheld membersRun := run_invariant (P := (Upheld membersRun ·))
    (fun _ _ _ hrecalls h hstep => members_step h hrecalls hstep) hrecalls hstart hrun
  intro id hid a
  rw [contains_iff]
  exact (h.servers id hid).ledger.runs a

private theorem members_boot {ids : List Bytes} {settings : Bytes → Settings} {log : EntryLogger}
    {full : List Entry} {currTerm : Bytes → Nat} {votedFor : Bytes → Bytes}
    {files : Bytes → Sender} (hholds : log.Holds full) (htraced : log.Traced)
    (hfound : log.newestEntry = none → log.cfgEntryIndex = 0)
    (hproper : ∀ x ∈ log.entries, x.config = true → Proper x.data)
    (hbase : log.lastConfig = [] ∨ Proper log.lastConfig) (hnewest : Proper log.newestConfig) :
    (World.boot ids settings log currTerm votedFor files).Upheld membersRun := by
  refine upheld_boot fun id _ => ?_
  have hread : (if log.cfgEntryIndex = 0 then log.lastConfig else log.config) =
      log.newestConfig := by
    rw [EntryLogger.newestConfig]
    cases hentry : log.newestEntry with
    | none => exact if_pos (hfound hentry)
    | some x =>
        have hindex := htraced.newestEntry_index hentry
        have hlow := htraced.consecutive.mem_bounds (EntryLogger.newestEntry_mem hentry).1
        rw [if_neg (by omega), htraced.config_eq, hentry]
        rfl
  have hcluster : (Raft.boot (settings id) log (currTerm id) (votedFor id) (files id)).cluster =
      (split 44 log.newestConfig).foldl (enlist fun address => (Raft.boot (settings id) log
        (currTerm id) (votedFor id) (files id)).makeNode address
        (if address = (settings id).selfId then (settings id).rpcPort else defaultRpcPort)) [] := by
    rw [← hread]
    rfl
  have hkeys : (Raft.boot (settings id) log (currTerm id) (votedFor id) (files id)).roster.map (·.1)
      = (Raft.boot (settings id) log (currTerm id) (votedFor id) (files id)).cluster.map (·.1) := by
    rw [roster, List.map_map]
    rfl
  refine ⟨⟨full, hholds⟩, htraced, hproper, hbase, fun p hp => ?_, ?_, fun a => ?_⟩
  · obtain ⟨q, hq, rfl⟩ := List.mem_map.mp hp
    rw [hcluster] at hq
    rcases mem_foldl_enlist hq with hnil | ⟨haddress, hnode⟩
    · cases hnil
    · refine ⟨?_, hnewest.isId haddress⟩
      dsimp only
      rw [hnode, makeNode_id]
      exact nodeId_port (hnewest _ haddress) _
  · rw [hkeys, hcluster]
    exact foldl_enlist_nodup (by simp)
  · rw [hkeys, hcluster, foldl_enlist_keys]
    change _ ↔ a ∈ members log.newestConfig
    rw [hnewest.members]
    simp

private theorem members_cluster (compaction : Bool) :
    (cluster ["a:1", "b:1", "c:1"] compaction).Upheld membersRun := by
  have hholds : ((cluster ["a:1", "b:1", "c:1"] compaction).servers []).log.Holds
      [{ term := 1, index := 1, data := ascii "a:1,b:1,c:1", config := true }] := by
    cases compaction <;> decide
  refine members_boot hholds ⟨⟨?_, ?_⟩, hholds.consecutive, ?_⟩ ?_ ?_ (.inl rfl) ?_
  · exact .inr ⟨_, List.mem_singleton_self _, rfl, rfl⟩
  · intro x hx _
    obtain rfl := List.mem_singleton.mp hx
    exact ⟨Nat.zero_lt_one, .inl le_rfl⟩
  · intro x hx _
    obtain rfl := List.mem_singleton.mp hx
    exact le_rfl
  · intro hnone
    cases hnone
  · intro x hx _
    obtain rfl := List.mem_singleton.mp hx
    decide
  · decide

/--
The leader `a` compacts its log and removes `c`.  Its configuration entry stays
uncommitted, and `c`, leader of the next term, puts another entry in its place.
-/
def forgottenMember : List Event :=
  [.electionTimeout (ascii "a:1"), .handle 0 false, .succeed 0 false, .handle 3 false,
    .succeed 3 false, .append (ascii "a:1") (ascii "x"), .heartbeatTimeout (ascii "a:1"),
    .handle 7 false, .succeed 7 false, .popCommitted (ascii "a:1"), .applyNext (ascii "a:1"),
    .applyNext (ascii "a:1"), .compact (ascii "a:1"), .delServer (ascii "a:1") (ascii "c:1"),
    .electionTimeout (ascii "c:1"), .handle 10 false, .succeed 10 false, .handle 12 false,
    .succeed 12 false, .append (ascii "c:1") (ascii "y"), .heartbeatTimeout (ascii "c:1")]

theorem members_newest_restored :
    ∃ w', run step (cluster ["a:1", "b:1", "c:1"] false)
        (forgottenMember ++ [.handle 15 false]) = some w' ∧
      ((w'.servers (ascii "a:1")).log.get 3).map (·.data) = some (ascii "y") ∧
      (w'.servers (ascii "a:1")).contains (ascii "c:1") ∧
      ∀ id ∈ w'.ids, (w'.servers id).Runs := by
  refine ⟨_, (Option.some_get (by decide)).symm, by decide, by decide, ?_⟩
  exact members_newest (members_cluster false) (by decide) (Option.some_get (by decide)).symm

/-- With compaction `a` chops its only configuration entry off, and `c` stays forgotten. -/
theorem members_stale :
    ¬ ∀ (w' w'' : World) (es : List Event) (i : Nat) (recent : Bool),
      run step (cluster ["a:1", "b:1", "c:1"] true) es = some w' →
      w'.step (.handle i recent) = some w'' →
      ∀ c ∈ w'.calls[i]?, (w''.servers c.dst).Runs := by
  intro h
  have hrun := (Option.some_get (show (run step (cluster ["a:1", "b:1", "c:1"] true)
    forgottenMember).isSome by decide)).symm
  have hstep := (Option.some_get (show (run step (cluster ["a:1", "b:1", "c:1"] true)
    (forgottenMember ++ [.handle 15 false])).isSome by decide)).symm
  have hruns := h _ _ _ 15 false hrun hstep _ rfl (ascii "c:1")
  exact absurd hruns (by decide)

end World

end Draft
