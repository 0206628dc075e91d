import Draft.Raft.RunningConfig

/-!
# Members that are serialized

A leader tells the others who the members are by joining their ids with commas.
The ids come apart again as long as none of them has a comma, and the only
request that can bring one is `add_server`: every address that is read back from
a configuration is a piece between two commas.
-/

namespace Draft

open Consensus Raft

/-! ## There and back -/

/-- An id that can stand in a comma separated list. -/
def Listed (id : Bytes) : Prop := id ≠ [] ∧ 44 ∉ id

instance (id : Bytes) : Decidable (Listed id) := inferInstanceAs (Decidable (_ ∧ _))

private theorem joinComma_ne_nil {ids : List Bytes} (hne : ids ≠ []) (h : ∀ id ∈ ids, id ≠ []) :
    joinComma ids ≠ [] := by
  cases ids with
  | nil => exact absurd rfl hne
  | cons id rest =>
      have hid := h id List.mem_cons_self
      cases rest <;> simp [joinComma, hid]

private theorem nodeId_ne_nil (address port : Bytes) : nodeId address port ≠ [] := by
  unfold nodeId
  split <;> simp [ascii]

private theorem listed_nodeId {address port : Bytes} (haddress : 44 ∉ address) (hport : 44 ∉ port) :
    Listed (nodeId address port) :=
  ⟨nodeId_ne_nil address port, comma_not_mem_nodeId haddress hport⟩

namespace Raft

variable {s : Raft}

/--
A follower that reads the serialized configuration is left with the ids of the
members for its keys.
-/
def Conveys (s : Raft) : Prop :=
  ∀ follower : Raft, follower.cluster ≠ [] → ∀ a,
    a ∈ (follower.adjustConfiguration s.serializeConfiguration).cluster.map (·.1) ↔
      a ∈ s.cluster.map (·.2.id)

private theorem conveys_iff (hne : s.cluster ≠ []) (hids : ∀ p ∈ s.cluster, p.2.id ≠ []) :
    s.Conveys ↔ ∀ p ∈ s.cluster, 44 ∉ p.2.id := by
  have hmap : s.cluster.map (·.2.id) ≠ [] := by simpa using hne
  have hconfig : s.serializeConfiguration ≠ [] :=
    joinComma_ne_nil hmap (List.forall_mem_map.mpr hids)
  constructor
  · intro h p hp
    have hid : p.2.id ∈ s.cluster.map (·.2.id) := List.mem_map_of_mem hp
    rw [← h s hne, adjustConfiguration_keys hconfig] at hid
    exact not_mem_of_mem_split _ hid
  · intro h follower _ a
    rw [adjustConfiguration_keys hconfig, serializeConfiguration,
      split_joinComma hmap (List.forall_mem_map.mpr h)]

end Raft

/-! ## Maps that come through -/

structure ListedMembers (roster : List (Bytes × Bytes)) : Prop where
  ne_nil : roster ≠ []
  nodup : (roster.map (·.1)).Nodup
  listed : ∀ p ∈ roster, Listed p.2

namespace ListedMembers

variable {roster : List (Bytes × Bytes)}

theorem join (h : ListedMembers roster) {id : Bytes} (hid : Listed id)
    (hout : ∀ p ∈ roster, p.1 ≠ id) : ListedMembers (roster ++ [(id, id)]) where
  ne_nil := by simp
  nodup := by
    rw [List.map_append, List.nodup_append]
    refine ⟨h.nodup, by simp, ?_⟩
    simpa using hout
  listed := by
    intro p hp
    rcases List.mem_append.mp hp with hp | hp
    · exact h.listed p hp
    · obtain rfl := List.mem_singleton.mp hp
      exact hid

theorem leave (h : ListedMembers roster) {address : Bytes} (hlength : roster.length ≠ 1) :
    ListedMembers (roster.filter (·.1 ≠ address)) where
  ne_nil := by
    intro hnil
    have hall : ∀ p ∈ roster, p.1 = address := by simpa using hnil
    have hnodup := h.nodup
    cases roster with
    | nil => exact h.ne_nil rfl
    | cons p rest =>
        cases rest with
        | nil => exact hlength rfl
        | cons q rest =>
            have hp := hall p (by simp)
            have hq := hall q (by simp)
            simp [hp, hq] at hnodup
  nodup := h.nodup.sublist (List.filter_sublist.map _)
  listed := fun p hp => h.listed p (List.mem_of_mem_filter hp)

theorem change {newcomer : Bytes → Prop} (hnewcomer : ∀ id, newcomer id → Listed id)
    {after : List (Bytes × Bytes)} (h : ListedMembers roster)
    (hchange : RosterChange newcomer roster after) : ListedMembers after := by
  cases hchange with
  | same => exact h
  | join id hnew hout => exact h.join (hnewcomer id hnew) hout
  | leave address _ hlength => exact h.leave hlength

private theorem conveys {s : Raft} (h : ListedMembers s.roster) : s.Conveys := by
  have hlisted : ∀ p ∈ s.cluster, Listed p.2.id := fun p hp =>
    h.listed _ (List.mem_map_of_mem hp)
  refine (conveys_iff ?_ fun p hp => (hlisted p hp).1).mpr fun p hp => (hlisted p hp).2
  intro hnil
  exact h.ne_nil (by rw [roster, hnil, List.map_nil])

end ListedMembers

variable {s : Raft}

private theorem listed_adjustConfiguration (h : ListedMembers s.roster) (config : Bytes) :
    ListedMembers (s.adjustConfiguration config).roster where
  ne_nil := by
    by_cases hconfig : config = []
    · rw [adjustConfiguration, if_pos hconfig]
      exact h.ne_nil
    · -- a configuration has an address, if only the empty one
      obtain ⟨a, ha⟩ := List.exists_mem_of_ne_nil _ (split_ne_nil 44 config)
      rw [← adjustConfiguration_keys hconfig s, ← roster_keys] at ha
      obtain ⟨p, hp, -⟩ := List.mem_map.mp ha
      exact List.ne_nil_of_mem hp
  nodup := adjustConfiguration_nodup h.nodup config
  listed := by
    intro p hp
    obtain ⟨q, hq, rfl⟩ := List.mem_map.mp hp
    rcases mem_adjustConfiguration hq with hold | ⟨haddress, hnode⟩
    · exact h.listed _ (List.mem_map_of_mem hold)
    · rw [hnode, makeNode_id]
      exact listed_nodeId (not_mem_of_mem_split _ haddress) (by decide)

private theorem listed_followEntries (h : ListedMembers s.roster) (log : EntryLogger)
    (req : AppendEntriesReq) : ListedMembers (s.followEntries log req).roster := by
  unfold followEntries
  generalize ht : { Raft.learnCommit { s with log := log } req.leaderCommit with
    leader := req.leaderId } = t
  have hroster : t.roster = s.roster :=
    roster_of_cluster (ht ▸ (learnCommit_frame { s with log := log } req.leaderCommit).2.2.1)
  rw [← hroster] at h
  dsimp only
  split
  · exact listed_adjustConfiguration h _
  · exact h

private theorem listed_handleAppendEntries (h : ListedMembers s.roster)
    (req : AppendEntriesReq) : ListedMembers (s.handleAppendEntries req).1.roster := by
  have heed : ListedMembers (s.heedLeader req.term req.leaderId).roster := by
    rw [(turn_heedLeader s req.term req.leaderId : Turn True s _).roster]
    exact h
  unfold handleAppendEntries acceptEntries
  split
  · exact h
  split
  · exact heed
  split
  · exact heed
  · exact listed_followEntries heed _ req

private theorem listed_handleDataTransfer (h : ListedMembers s.roster) (req : DataReq) :
    ListedMembers (s.handleDataTransfer req).1.roster := by
  have follow : ListedMembers (s.followSender req.term req.leaderId).roster := by
    rw [(turn_followSender s req.term req.leaderId : Turn True s _).roster]
    exact h
  unfold handleDataTransfer beginTransfer
  dsimp only
  split
  · exact h
  split
  · split
    · exact listed_adjustConfiguration (s := { s.followSender req.term req.leaderId with
        electionTimer := false
        log := _, commitIndex := _, lastApplied := _ }) follow _
    · exact follow
  · exact follow

private theorem any_voteReq (_ : VoteReq) : True ∧ True ∧ True := ⟨trivial, trivial, trivial⟩

def listedMembers : Upkeep where
  ledger := fun _ roster => ListedMembers roster
  request := fun _ => True
  newcomer := Listed
  vote := any_voteReq
  doneTransfer := fun _ => trivial
  appendEntries := fun _ _ _ _ => trivial
  dataTransfer := fun _ _ _ _ _ => trivial
  member := fun _ _ h => h.listed
  commit := fun _ h => h
  entry := fun _ _ _ _ h => h
  configuration := fun _ _ _ _ h hchange => h.change (fun _ hid => hid) hchange
  apply := fun _ _ _ h _ => h
  compact := fun _ _ h => h

/-! ## Runs -/

/-- The checks of `add_server` that a request has to pass. -/
def Raft.TakesUp (s : Raft) (name : Bytes) : Prop :=
  s.role = .leader ∧ s.contains (s.makeId name) = false ∧ isIpv4 (s.makeId name) = true ∧
    s.recfg = none

instance (s : Raft) (name : Bytes) : Decidable (s.TakesUp name) :=
  inferInstanceAs (Decidable (_ ∧ _))

namespace World

variable {w w' : World} {e : Event}

/-- The id of a server that `id` is asked to add has no comma, or the request is refused. -/
def AddsListed (id : Bytes) (w : World) : Event → Prop
  | .addServer j name => j = id → (w.servers id).TakesUp name →
      44 ∉ nodeId ((w.servers id).makeId name) defaultRpcPort
  | _ => True

instance (id : Bytes) (w : World) : (e : Event) → Decidable (w.AddsListed id e)
  | .addServer _ _ => by unfold AddsListed; infer_instance
  | .electionTimeout _ | .heartbeatTimeout _ | .leadershipTransferTimeout _ | .append _ _
  | .transferLeadership _ _ | .delServer _ _ | .popCommitted _ | .applyNext _ | .compact _
  | .writeFiles _ _ | .handle _ _ | .succeed _ _ | .fail _ _ => instDecidableTrue

private theorem refused_addServer {U : Upkeep} {s : Raft} (h : s.Upheld U) {name : Bytes}
    (hrefused : ¬ s.TakesUp name) : (s.addServer name).Upheld U := by
  unfold Raft.addServer
  dsimp only
  split
  · exact h.reply _
  split
  · exact h.reply _
  split
  · exact h.reply _
  split
  · exact h.reply _
  · exact absurd (by simp_all [Raft.TakesUp]) hrefused

private theorem listed_reaction {id : Bytes} (h : (w.servers id).Upheld listedMembers)
    (hadds : w.AddsListed id e) (hactor : w.actor e = some id) :
    (w.reaction e (w.servers id)).Upheld listedMembers := by
  cases e with
  | addServer j name =>
      obtain rfl := Option.some.inj hactor
      by_cases htakes : (w.servers j).TakesUp name
      · exact h.addServer ⟨nodeId_ne_nil _ _, hadds rfl htakes⟩
      · exact refused_addServer h htakes
  | handle i recent =>
      refine upheld_reaction h fun c hc => ?_
      exact ⟨fun r _ => listed_handleAppendEntries h.ledger r,
        fun r _ => listed_handleDataTransfer h.ledger r⟩
  | _ => exact upheld_reaction h trivial

private theorem listed_step {id : Bytes} (h : (w.servers id).Upheld listedMembers)
    (hadds : w.AddsListed id e) (hstep : w.step e = some w') :
    (w'.servers id).Upheld listedMembers := by
  obtain ⟨j, hactor, -, rfl⟩ := step_reaction hstep
  by_cases hid : id = j
  · subst hid
    have htaken := listed_reaction h hadds hactor
    rw [act_self]
    exact ⟨htaken.ledger, htaken.next, htaken.recfg, by simp⟩
  · rw [act_of_ne _ _ hid]
    exact h

private theorem listed_boot {settings : Settings} (hport : 44 ∉ settings.rpcPort) (log : EntryLogger)
    (currTerm : Nat) (votedFor : Bytes) (files : Sender) :
    (Raft.boot settings log currTerm votedFor files).Upheld listedMembers := by
  have member : ∀ p ∈ (Raft.boot settings log currTerm votedFor files).cluster,
      Listed p.2.id ∧ 0 < p.2.nextIndex := by
    intro p hp
    rcases mem_foldl_enlist hp with hnil | ⟨haddress, hnode⟩
    · cases hnil
    · rw [hnode]
      refine ⟨listed_nodeId (not_mem_of_mem_split _ haddress) ?_, Nat.succ_pos _⟩
      split
      · exact hport
      · decide
  refine ⟨⟨?_, ?_, ?_⟩, fun p hp => (member p hp).2, ?_, ?_⟩
  · obtain ⟨a, ha⟩ := List.exists_mem_of_ne_nil _
      (split_ne_nil 44 (if log.cfgEntryIndex = 0 then log.lastConfig else log.config))
    have hkey : a ∈ (Raft.boot settings log currTerm votedFor files).roster.map (·.1) := by
      rw [roster_keys]
      exact (foldl_enlist_keys a).mpr (.inr ha)
    intro hnil
    rw [hnil] at hkey
    cases hkey
  · rw [roster_keys]
    exact foldl_enlist_nodup List.nodup_nil
  · intro p hp
    obtain ⟨q, hq, rfl⟩ := List.mem_map.mp hp
    exact (member q hq).1
  · simp [Raft.boot]
  · simp [Raft.boot]

/--
The members of a server survive the way to a follower, in every run in which no
request that it takes up adds a server whose id has a comma.
-/
theorem members_conveyed {ids : List Bytes} {settings : Bytes → Settings} {log : EntryLogger}
    {currTerm : Bytes → Nat} {votedFor : Bytes → Bytes} {files : Bytes → Sender} {id : Bytes}
    (hport : 44 ∉ (settings id).rpcPort) {events : List Event}
    (hadds : Along step (AddsListed id) (World.boot ids settings log currTerm votedFor files)
      events)
    (hrun : run step (World.boot ids settings log currTerm votedFor files) events = some w) :
    (w.servers id).Conveys := by
  have hupheld : (w.servers id).Upheld listedMembers :=
    run_invariant (P := fun w => (w.servers id).Upheld listedMembers)
      (fun w e w' hadds h hstep => listed_step h hadds hstep) hadds
      (listed_boot hport log (currTerm id) (votedFor id) (files id)) hrun
  exact hupheld.ledger.conveys

def joinUnseen (name : Bytes) : List Event :=
  [.electionTimeout (ascii "1.1.1.1:80"), .addServer (ascii "1.1.1.1:80") name] ++
    (List.range 10).map fun i => .fail i true

theorem members_conveyed_join :
    ∃ w, run step (World.cluster ["1.1.1.1:80"] false) (joinUnseen (ascii "1.2.3.4:80")) = some w ∧
      (w.servers (ascii "1.1.1.1:80")).cluster.length = 2 ∧
      (w.servers (ascii "1.1.1.1:80")).Conveys := by
  refine ⟨_, (Option.some_get (by decide)).symm, by decide, ?_⟩
  exact members_conveyed (by decide) (by decide)
    (Option.some_get (by decide)).symm

/-- `is_ipv4` reads the last field of this address as 4. -/
theorem comma_not_conveyed :
    ¬ ∀ (events : List Event) (w : World),
      run step (World.cluster ["1.1.1.1:80"] false) events = some w →
      ∀ id ∈ w.ids, (w.servers id).role = .leader → (w.servers id).Conveys := by
  intro h
  have hrun := (Option.some_get (show (run step (World.cluster ["1.1.1.1:80"] false)
    (joinUnseen (ascii "1.2.3.4:80,x"))).isSome by decide)).symm
  have hconveys := h _ _ hrun (ascii "1.1.1.1:80") (by decide) (by decide)
  exact absurd (hconveys (World.cluster ["1.1.1.1:80"] false |>.servers (ascii "1.1.1.1:80"))
    (by decide) (ascii "x")) (by decide)

end World

end Draft
