import Draft.Foundation.Addresses
import Draft.Foundation.ConfigChain
import Draft.Raft.CommittedWork

/-!
# The configuration a server runs

The members of a server are kept in three places: the keys of `cluster`, the
configuration entries of the log and the configuration of the stat file.  They
stay the same members as long as a request that chops off the newest
configuration entry leaves one, or brings one.
-/

namespace Draft

open Consensus Raft

/-! ## Addresses -/

/-- The id that `make_node` gives an address. -/
def nodeId (address port : Bytes) : Bytes :=
  (match split 58 address with
    | host :: port :: _ => host ++ ascii ":" ++ port
    | _ => address ++ ascii ":" ++ port).take 32

theorem Raft.makeNode_id (s : Raft) (address port : Bytes) :
    (s.makeNode address port).id = nodeId address port := rfl

private theorem nodeId_cut {host port : Bytes} (hhost : 58 ∉ host) (hport : 58 ∉ port) (other : Bytes) :
    nodeId ((host ++ ascii ":" ++ port).take 32) other = (host ++ ascii ":" ++ port).take 32 := by
  have hcolon : ascii ":" = [58] := rfl
  rw [hcolon, List.append_assoc, List.singleton_append]
  by_cases hlong : 32 ≤ host.length
  · rw [List.take_append_of_le_length hlong, nodeId,
      split_of_not_mem fun h => hhost (List.mem_of_mem_take h)]
    dsimp only
    rw [List.append_assoc, List.take_append_of_le_length (by simp [hlong]), List.take_take]
    rfl
  · obtain ⟨k, hk⟩ : ∃ k, 32 - host.length = k + 1 := ⟨31 - host.length, by omega⟩
    have hcut : (host ++ 58 :: port).take 32 = host ++ 58 :: port.take k := by
      rw [List.take_append, List.take_of_length_le (by omega), hk, List.take_succ_cons]
    rw [hcut, nodeId, split_append_sep hhost,
      split_of_not_mem fun h => hport (List.mem_of_mem_take h)]
    dsimp only
    rw [hcolon, List.append_assoc, List.singleton_append, List.take_of_length_le]
    simp only [List.length_append, List.length_cons, List.length_take]
    omega

private theorem nodeId_nodeId {port : Bytes} (hport : 58 ∉ port) (address other : Bytes) :
    nodeId (nodeId address port) other = nodeId address port := by
  rw [nodeId.eq_def address port]
  have hpieces : ∀ piece ∈ split 58 address, 58 ∉ piece := not_mem_of_mem_split
  cases hsplit : split 58 address with
  | nil => exact absurd hsplit (split_ne_nil _ _)
  | cons host rest =>
      rw [hsplit] at hpieces
      cases rest with
      | nil =>
          exact nodeId_cut (not_mem_of_split_eq hsplit) hport other
      | cons port' rest =>
          exact nodeId_cut (hpieces _ (by simp)) (hpieces _ (by simp)) other

theorem nodeId_port {address : Bytes} (h : nodeId address defaultRpcPort = address) (port : Bytes) :
    nodeId address port = address := by
  conv_lhs => rw [← h]
  rw [nodeId_nodeId (by decide), h]

structure IsId (address : Bytes) : Prop where
  same : nodeId address defaultRpcPort = address
  comma : 44 ∉ address

instance (address : Bytes) : Decidable (IsId address) :=
  decidable_of_iff (nodeId address defaultRpcPort = address ∧ 44 ∉ address)
    ⟨fun h => ⟨h.1, h.2⟩, fun h => ⟨h.1, h.2⟩⟩

theorem comma_not_mem_nodeId {address port : Bytes} (haddress : 44 ∉ address) (hport : 44 ∉ port) :
    44 ∉ nodeId address port := by
  intro hmem
  have hpieces : ∀ piece ∈ split 58 address, 44 ∉ piece := fun piece hpiece hcomma =>
    haddress (mem_of_mem_split hpiece hcomma)
  replace hmem := List.mem_of_mem_take hmem
  split at hmem
  · rename_i host port rest hsplit
    rw [hsplit] at hpieces
    simp only [List.mem_append] at hmem
    rcases hmem with (hmem | hmem) | hmem
    · exact hpieces host (by simp) hmem
    · exact absurd hmem (by decide)
    · exact hpieces port (by simp) hmem
  · simp only [List.mem_append] at hmem
    rcases hmem with (hmem | hmem) | hmem
    · exact haddress hmem
    · exact absurd hmem (by decide)
    · exact hport hmem

theorem isId_nodeId {address : Bytes} (h : 44 ∉ address) :
    IsId (nodeId address defaultRpcPort) :=
  ⟨nodeId_nodeId (by decide) _ _, comma_not_mem_nodeId h (by decide)⟩

/-! ## Configurations -/

def members (config : Bytes) : List Bytes := if config = [] then [] else split 44 config

def SameMembers (config config' : Bytes) : Prop :=
  (∀ a ∈ members config, a ∈ members config') ∧ ∀ a ∈ members config', a ∈ members config

instance (config config' : Bytes) : Decidable (SameMembers config config') :=
  inferInstanceAs (Decidable (_ ∧ _))

theorem SameMembers.iff {config config' : Bytes} (h : SameMembers config config') (a : Bytes) :
    a ∈ members config ↔ a ∈ members config' :=
  ⟨h.1 a, h.2 a⟩

/-- A configuration as `serialize_configuration` makes it. -/
def Proper (config : Bytes) : Prop := ∀ a ∈ split 44 config, nodeId a defaultRpcPort = a

instance (config : Bytes) : Decidable (Proper config) :=
  inferInstanceAs (Decidable (∀ a ∈ split 44 config, nodeId a defaultRpcPort = a))

theorem Proper.ne_nil {config : Bytes} (h : Proper config) : config ≠ [] := by
  rintro rfl
  exact absurd (h [] (by simp [split])) (by decide)

theorem Proper.members {config : Bytes} (h : Proper config) :
    members config = split 44 config := by
  rw [Draft.members, if_neg h.ne_nil]

theorem Proper.isId {config a : Bytes} (h : Proper config) (ha : a ∈ split 44 config) : IsId a :=
  ⟨h a ha, not_mem_of_mem_split a ha⟩

private theorem split_serialized {addresses : List Bytes} (hne : addresses ≠ [])
    (h : ∀ a ∈ addresses, IsId a) : split 44 (joinComma addresses) = addresses :=
  split_joinComma hne fun a ha => (h a ha).comma

private theorem proper_serialized {addresses : List Bytes} (hne : addresses ≠ [])
    (h : ∀ a ∈ addresses, IsId a) : Proper (joinComma addresses) := by
  intro a ha
  rw [split_serialized hne h] at ha
  exact (h a ha).same

/-! ## A server that runs its newest configuration -/

/-- The members of the cluster are those of the newest configuration of the log. -/
def Raft.Runs (s : Raft) : Prop :=
  ∀ a, s.contains a = true ↔ a ∈ members s.log.newestConfig

structure Replica.Enrolled (r : Replica) (roster : List (Bytes × Bytes)) : Prop where
  holds : ∃ full, r.log.Holds full
  traced : r.log.Traced
  proper : ∀ x ∈ r.log.entries, x.config = true → Proper x.data
  base : r.log.lastConfig = [] ∨ Proper r.log.lastConfig
  ids : ∀ p ∈ roster, p.2 = p.1 ∧ IsId p.1
  nodup : (roster.map (·.1)).Nodup
  runs : ∀ a, a ∈ roster.map (·.1) ↔ a ∈ members r.log.newestConfig

def Request.Enrolled : Request → Prop
  | .appendEntries req => ∀ e ∈ req.entries, e.config = true → Proper e.data
  | .dataTransfer req => req.lastConfig = [] ∨ Proper req.lastConfig
  | _ => True

theorem EntryLogger.Holds.consecutive {log : EntryLogger} {full : List Entry}
    (h : log.Holds full) : log.Consecutive :=
  fun _ _ he => h.index_of_getElem? he

private theorem EntryLogger.Consecutive.mem_of_get {log : EntryLogger} (h : log.Consecutive) {i : Nat}
    {e : LogEntry} (he : log.get i = some e) : e = logEntrySentry ∨ e ∈ log.entries := by
  rw [h.get_eq] at he
  split at he
  · exact .inl (Option.some.inj he).symm
  · split at he
    · exact .inr (List.mem_of_getElem? he)
    · cases he

private theorem mem_entriesFrom {log : EntryLogger} (h : log.Consecutive) {count i : Nat} {e : Entry}
    (he : e ∈ entriesFrom log count i) : e = logEntrySentry.toEntry ∨
      ∃ x ∈ log.entries, x.toEntry = e := by
  induction count generalizing i with
  | zero => cases he
  | succ count ih =>
      rw [entriesFrom] at he
      split at he
      · cases he
      · rename_i x hx
        rcases List.mem_cons.mp he with rfl | he
        · rcases h.mem_of_get hx with rfl | hmem
          · exact .inl rfl
          · exact .inr ⟨x, hmem, rfl⟩
        · exact ih he

namespace Replica.Enrolled

variable {r : Replica} {roster : List (Bytes × Bytes)}

theorem append_entry (h : r.Enrolled roster) {data : Bytes} {config : Bool} (term : Nat)
    {after : List (Bytes × Bytes)} (hproper : config = true → Proper data)
    (hids : ∀ p ∈ after, p.2 = p.1 ∧ IsId p.1) (hnodup : (after.map (·.1)).Nodup)
    (hruns : ∀ a, a ∈ after.map (·.1) ↔
      a ∈ members (if config then data else r.log.newestConfig)) :
    Replica.Enrolled { r with
      log := r.log.append
        [r.log.makeEntry data (r.log.lastEntryIndex + 1) term config] } after := by
  obtain ⟨full, hholds⟩ := h.holds
  have hnew := hholds.append_entry data term config
  have hnewest : (r.log.append
      [r.log.makeEntry data (r.log.lastEntryIndex + 1) term config]).newestConfig =
      if config then data else r.log.newestConfig := by
    rw [EntryLogger.newestConfig, EntryLogger.newestEntry_append]
    cases config <;> rfl
  refine ⟨⟨_, hnew⟩, ?_, ?_, h.base, hids, hnodup, fun a => ?_⟩
  · refine .append h.traced.toChained h.traced.consecutive hnew.consecutive ?_
      (.inl h.traced.newest_le)
    intro x hx hconfig
    obtain rfl := List.mem_singleton.mp hx
    exact if_pos hconfig
  · intro x hx hconfig
    rcases List.mem_append.mp hx with hx | hx
    · exact h.proper x hx hconfig
    · obtain rfl := List.mem_singleton.mp hx
      exact hproper hconfig
  · rw [hruns, hnewest]

theorem configuration (h : r.Enrolled roster) {after : List (Bytes × Bytes)}
    (hchange : RosterChange IsId roster after) (term : Nat) :
    Replica.Enrolled { r with
      log := r.log.append [r.log.makeEntry (joinComma (after.map (·.2)))
        (r.log.lastEntryIndex + 1) term true] } after := by
  have hafter : after ≠ [] ∧ (∀ p ∈ after, p.2 = p.1 ∧ IsId p.1) ∧
      (after.map (·.1)).Nodup := by
    cases hchange with
    | same hne => exact ⟨hne, h.ids, h.nodup⟩
    | join id hnew hout =>
        refine ⟨by simp, fun p hp => ?_, ?_⟩
        · rcases List.mem_append.mp hp with hp | hp
          · exact h.ids p hp
          · obtain rfl := List.mem_singleton.mp hp
            exact ⟨rfl, hnew⟩
        · rw [List.map_append, List.nodup_append]
          refine ⟨h.nodup, by simp, fun a ha b hb => ?_⟩
          obtain rfl : b = id := by simpa using hb
          obtain ⟨p, hp, rfl⟩ := List.mem_map.mp ha
          exact hout p hp
    | leave address hmem hlength =>
        refine ⟨fun hnil => ?_, fun p hp => h.ids p (List.mem_of_mem_filter hp),
          h.nodup.sublist (List.filter_sublist.map _)⟩
        obtain ⟨p, hp, rfl⟩ := hmem
        -- everything else is another server
        have hall : ∀ q ∈ roster, q.1 = p.1 := by simpa using hnil
        refine hlength ?_
        have hrep : roster.map (·.1) = List.replicate roster.length p.1 := by
          rw [List.eq_replicate_iff]
          exact ⟨by simp, by simpa using fun a b hab => hall (a, b) hab⟩
        have hnodup := h.nodup
        rw [hrep, List.nodup_replicate] at hnodup
        have hpos := List.length_pos_of_mem hp
        omega
  obtain ⟨hne, hids, hnodup⟩ := hafter
  have hmap : after.map (·.2) = after.map (·.1) := List.map_congr_left fun p hp => (hids p hp).1
  have hne' : after.map (·.1) ≠ [] := by simpa using hne
  have hall : ∀ a ∈ after.map (·.1), IsId a := by
    intro a ha
    obtain ⟨p, hp, rfl⟩ := List.mem_map.mp ha
    exact (hids p hp).2
  have hproper := proper_serialized hne' hall
  rw [hmap]
  refine h.append_entry term (fun _ => hproper) hids hnodup fun a => ?_
  rw [if_pos rfl, hproper.members, split_serialized hne' hall]

theorem drop (h : r.Enrolled roster) {i : Nat} {log : EntryLogger}
    (hdrop : r.log.drop i = some log) : Replica.Enrolled { r with log := log } roster := by
  obtain ⟨full, hholds⟩ := h.holds
  obtain ⟨htraced, hnewest⟩ :=
    h.traced.drop (fun x hx hconfig => (h.proper x hx hconfig).ne_nil) hdrop
  obtain ⟨k, term, rfl, hlog⟩ := h.traced.consecutive.drop_eq hdrop
  have hhas : ∃ full, log.Holds full := by
    rcases Nat.lt_or_ge full.length (r.log.lastIndex + k + 1) with hlong | hshort
    · rw [hholds.drop_eq_none (.inr hlong)] at hdrop
      cases hdrop
    · obtain ⟨new, hnew, hkept, -⟩ := hholds.drop (by omega) hshort
      rw [hdrop, Option.some.injEq] at hnew
      exact ⟨full, hnew ▸ hkept⟩
  have hentries : log.entries = r.log.entries.drop (k + 1) := hlog ▸ rfl
  have hlast : log.lastConfig =
      if r.log.configUpTo (r.log.lastIndex + k + 1) = [] then r.log.lastConfig
      else r.log.configUpTo (r.log.lastIndex + k + 1) := hlog ▸ rfl
  refine ⟨hhas, htraced, fun x hx hconfig => ?_, ?_, h.ids, h.nodup, fun a => ?_⟩
  · exact h.proper x (List.mem_of_mem_drop (hentries ▸ hx)) hconfig
  · dsimp only
    rw [hlast]
    split
    · exact h.base
    · rename_i hfound
      rcases h.traced.configUpTo_mem (i := r.log.lastIndex + k + 1) (by omega) with
        hnil | ⟨x, hx, hconfig, hdata⟩
      · exact absurd hnil hfound
      · exact .inr (hdata ▸ h.proper x hx hconfig)
  · rw [h.runs, hnewest]

end Replica.Enrolled

def membersRun : Upkeep where
  ledger := Replica.Enrolled
  request := fun req => req.WellFormed ∧ req.Enrolled
  newcomer := IsId
  vote := fun _ => ⟨⟨trivial, trivial⟩, ⟨trivial, trivial⟩, ⟨trivial, trivial⟩⟩
  doneTransfer := fun _ => ⟨trivial, trivial⟩
  appendEntries := by
    intro s n h hn
    obtain ⟨full, hholds⟩ := h.holds
    refine ⟨wellFormed_appendEntriesReq hholds hn, fun e he hconfig => ?_⟩
    rcases mem_entriesFrom h.traced.consecutive he with rfl | ⟨x, hx, rfl⟩
    · cases hconfig
    · exact h.proper x hx hconfig
  dataTransfer := by
    intro s number name data h
    obtain ⟨full, hholds⟩ := h.holds
    refine ⟨wellFormed_dataReq hholds number name data, ?_⟩
    unfold Request.Enrolled Raft.dataReq
    dsimp only
    split
    · exact h.base
    · exact .inl rfl
  member := by
    intro r roster h p hp
    obtain ⟨heq, hid⟩ := h.ids p hp
    rw [heq]
    exact hid
  commit := by
    intro s h
    rcases adjustCommitIndex_replica s with heq | ⟨i, -, heq⟩ <;> rw [heq]
    · exact h
    · exact ⟨h.holds, h.traced, h.proper, h.base, h.ids, h.nodup, h.runs⟩
  entry := by
    intro r roster data term h
    exact h.append_entry term (fun hconfig => by cases hconfig) h.ids h.nodup h.runs
  configuration := by
    intro r before after term h hchange
    exact h.configuration hchange term
  apply := fun _ _ _ h _ => ⟨h.holds, h.traced, h.proper, h.base, h.ids, h.nodup, h.runs⟩
  compact := by
    intro r roster h
    cases hdrop : r.log.drop r.commitIndex with
    | none => exact h
    | some log => exact h.drop hdrop

end Draft
