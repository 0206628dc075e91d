import Mathlib.Data.Finset.Card
import Draft.Raft.Steps

/-!
# Membership

Every server has the same members when the keys of its cluster are the ids of
the servers and each node has its key for its id.  Moves keep the keys and the
ids, so this is known of a server throughout its turn.
-/

namespace Draft.Raft

variable {late : Prop} {s t : Raft} {ids : List Bytes}

def roster (s : Raft) : List (Bytes × Bytes) := s.cluster.map fun p => (p.1, p.2.id)

structure HasMembers (ids : List Bytes) (s : Raft) : Prop where
  nodup : (s.roster.map (·.1)).Nodup
  known : ∀ a ∈ s.roster.map (·.1), a ∈ ids
  present : ∀ a ∈ ids, a ∈ s.roster.map (·.1)
  same : ∀ p ∈ s.roster, p.2 = p.1

instance : Decidable (HasMembers ids s) :=
  decidable_of_iff
    ((s.roster.map (·.1)).Nodup ∧ (∀ a ∈ s.roster.map (·.1), a ∈ ids) ∧
      (∀ a ∈ ids, a ∈ s.roster.map (·.1)) ∧ ∀ p ∈ s.roster, p.2 = p.1)
    ⟨fun h => ⟨h.1, h.2.1, h.2.2.1, h.2.2.2⟩, fun h => ⟨h.1, h.2, h.3, h.4⟩⟩

theorem HasMembers.keys (h : HasMembers ids s) (a : Bytes) :
    a ∈ s.roster.map (·.1) ↔ a ∈ ids :=
  ⟨h.known a, h.present a⟩

theorem HasMembers.of_roster (h : HasMembers ids s) (heq : t.roster = s.roster) :
    HasMembers ids t := by
  obtain ⟨h₁, h₂, h₃, h₄⟩ := h
  exact ⟨heq ▸ h₁, heq ▸ h₂, heq ▸ h₃, heq ▸ h₄⟩

theorem HasMembers.length_eq (h : HasMembers ids s) : s.cluster.length = ids.toFinset.card := by
  have hset : (s.roster.map (·.1)).toFinset = ids.toFinset := by
    ext a
    simp only [List.mem_toFinset, h.keys]
  rw [← hset, List.toFinset_card_of_nodup h.nodup, List.length_map, roster, List.length_map]

private theorem HasMembers.map_id (h : HasMembers ids s) :
    s.cluster.map (·.2.id) = s.roster.map (·.1) := by
  rw [roster, List.map_map]
  refine List.map_congr_left fun p hp => ?_
  exact h.same (p.1, p.2.id) (List.mem_map_of_mem hp)

private theorem others_ids (s : Raft) :
    s.others.map (·.id) = (s.cluster.map (·.2.id)).filter (· ≠ s.selfId) := by
  rw [others, List.filter_map, List.map_map, List.filter_map]
  rfl

theorem HasMembers.others_nodup (h : HasMembers ids s) : (s.others.map (·.id)).Nodup := by
  rw [others_ids, h.map_id]
  exact h.nodup.filter _

theorem HasMembers.mem_others (h : HasMembers ids s) {a : Bytes} :
    a ∈ s.others.map (·.id) ↔ a ∈ ids ∧ a ≠ s.selfId := by
  rw [others_ids, h.map_id, List.mem_filter, h.keys]
  simp

/-! ## Moves keep the roster -/

private theorem roster_of_sameNodes {nodes nodes' : List (Bytes × Node)}
    (h : List.Forall₂ SameNode nodes nodes') :
    nodes'.map (fun p => (p.1, p.2.id)) = nodes.map fun p => (p.1, p.2.id) := by
  induction h with
  | nil => rfl
  | cons hp _ ih => rw [List.map_cons, List.map_cons, hp.key, hp.id, ih]

theorem Quiet.roster (h : Quiet late s t) : t.roster = s.roster := roster_of_sameNodes h.nodes

theorem Inward.roster (h : Inward s t) : t.roster = s.roster := by
  rw [Raft.roster, h.cluster]
  rfl

theorem Move.roster (h : Move late s t) : t.roster = s.roster := by
  cases h with
  | quiet h => exact h.roster
  | follow => rfl
  | newTerm => rfl
  | campaign => rfl
  | campaignAlone => rfl
  | lead =>
      unfold Raft.roster
      rw [becomeLeader, List.map_map]
      rfl
  | commit => exact (inward_adjustCommitIndex s).roster
  | append _ data => exact (inward_append s data).roster
  | applyNext => exact (inward_applyNext s).roster
  | compact => exact (inward_compact s).roster

theorem Turn.roster (h : Turn late s t) : t.roster = s.roster := by
  induction h with
  | refl => rfl
  | tail _ hmove ih => exact hmove.roster.trans ih

theorem Turn.hasMembers (h : Turn late s t) (hs : HasMembers ids s) : HasMembers ids t :=
  hs.of_roster h.roster

theorem recordMatch_roster (s : Raft) (id : Bytes) (matchIndex : Nat) :
    (s.recordMatch id matchIndex).roster = s.roster := by
  unfold Raft.roster
  rw [recordMatch, modifyNode, List.map_map]
  refine List.map_congr_left fun p _ => ?_
  dsimp only [Function.comp_apply]
  split <;> rfl

/-! ## Configurations that a request brings -/

/-- The configuration that `adjust_configuration` runs with when the request is handled. -/
def adopted (s : Raft) : Request → Option Bytes
  | .appendEntries req =>
      if req.term < s.currTerm ∨ ¬ s.log.hasEntry req.prevLogIndex req.prevLogTerm then none
      else
        (mergeEntries s.log req.entries).bind fun log =>
          if needAdjustCfg s.log log req.entries then some log.config else none
  | .dataTransfer req =>
      if s.currTerm ≤ req.term ∧ req.id = 1 ∧ s.logCompactionEnabled then some req.lastConfig
      else none
  | _ => none

/-- The configuration has exactly these members, or is empty and changes nothing. -/
def Lists (ids : List Bytes) (config : Bytes) : Prop :=
  config = [] ∨ (∀ a ∈ split 44 config, a ∈ ids) ∧ ∀ a ∈ ids, a ∈ split 44 config

instance (ids : List Bytes) (config : Bytes) : Decidable (Lists ids config) :=
  inferInstanceAs (Decidable (_ ∨ _))

private theorem foldl_enlist_held {node : Bytes → Node} {addresses : List Bytes}
    {cluster : List (Bytes × Node)} (h : ∀ a ∈ addresses, a ∈ cluster.map (·.1)) :
    addresses.foldl (enlist node) cluster = cluster := by
  induction addresses with
  | nil => rfl
  | cons address rest ih =>
      rw [List.forall_mem_cons] at h
      have hheld : cluster.any (·.1 = address) = true := by
        obtain ⟨p, hp, hkey⟩ := List.mem_map.mp h.1
        exact List.any_eq_true.mpr ⟨p, hp, decide_eq_true hkey⟩
      rw [List.foldl_cons, enlist, if_pos hheld]
      exact ih h.2

private theorem HasMembers.mem_keys (h : HasMembers ids s) (a : Bytes) :
    a ∈ s.cluster.map (·.1) ↔ a ∈ ids := by
  rw [← h.keys a, roster, List.map_map]
  rfl

theorem HasMembers.adjustConfiguration (h : HasMembers ids s) {config : Bytes}
    (hlists : Lists ids config) : HasMembers ids (s.adjustConfiguration config) := by
  refine h.of_roster (congrArg (List.map fun p : Bytes × Node => (p.1, p.2.id)) ?_)
  rcases hlists with hnil | ⟨hknown, hall⟩
  · rw [Raft.adjustConfiguration, if_pos hnil]
  by_cases hnil : config = []
  · rw [Raft.adjustConfiguration, if_pos hnil]
  rw [adjustConfiguration_cluster hnil,
    foldl_enlist_held fun a ha => (h.mem_keys a).mpr (hknown a ha), List.filter_eq_self]
  exact fun p hp => decide_eq_true (hall _ ((h.mem_keys _).mp (List.mem_map_of_mem hp)))

theorem HasMembers.followEntries (h : HasMembers ids s) {log : EntryLogger}
    {req : AppendEntriesReq}
    (hlists : needAdjustCfg s.log log req.entries = true → Lists ids log.config) :
    HasMembers ids (s.followEntries log req) := by
  have learned : HasMembers ids
      { ({ s with log := log }.learnCommit req.leaderCommit : Raft) with leader := req.leaderId } := by
    refine h.of_roster ?_
    unfold learnCommit
    split <;> rfl
  unfold Raft.followEntries
  dsimp only
  split
  · rename_i hneed
    exact learned.adjustConfiguration (hlists hneed)
  · exact learned

theorem HasMembers.installBase (h : HasMembers ids s) {req : DataReq}
    (hlists : Lists ids req.lastConfig) : HasMembers ids (s.installBase req) := by
  have emptied : HasMembers ids { s with
      log := (s.log.chop (s.log.lastIndex + 1)).getD s.log
      commitIndex := req.lastIndex
      lastApplied := req.lastIndex } := h.of_roster rfl
  exact (emptied.adjustConfiguration hlists).of_roster rfl

theorem Serves.hasMembers {req : Request} {res : Response} (h : Serves late s req t res)
    (hs : HasMembers ids s) (hadopted : ∀ config ∈ s.adopted req, Lists ids config) :
    HasMembers ids t := by
  cases h with
  | turn ht => exact ht.hasMembers hs
  | grant req => exact ((turn_heedCandidate s req.term : Turn True s _).hasMembers hs).of_roster rfl
  | accept req log hterm hprev hmerge =>
      have heed := (turn_heedLeader s req.term req.leaderId : Turn True s _).hasMembers hs
      refine heed.followEntries fun hneed => hadopted _ ?_
      rw [heedLeader_replica] at hneed
      simp [adopted, Nat.not_lt.mpr hterm, hprev, hmerge, hneed]
  | install req hterm hone hcompaction =>
      have follow := (turn_followSender s req.term req.leaderId : Turn True s _).hasMembers hs
      have stopped : HasMembers ids
          { s.followSender req.term req.leaderId with electionTimer := false } :=
        follow.of_roster rfl
      exact stopped.installBase (hadopted _ (by simp [adopted, hterm, hone, hcompaction]))

theorem Finishes.hasMembers {dst : Bytes} {req : Request} {res : Response}
    (h : Finishes late s dst req res t) (hs : HasMembers ids s) : HasMembers ids t := by
  cases h with
  | turn ht => exact ht.hasMembers hs
  | count req v hrole hgranted hterm ht => exact ht.hasMembers (hs.of_roster rfl)
  | record req r hrole hsuccess ht =>
      exact ht.hasMembers (hs.of_roster (recordMatch_roster s dst r.matchIndex))

end Draft.Raft
