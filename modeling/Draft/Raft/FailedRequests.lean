import Draft.Raft.Cluster

/-!
# Failed configuration requests

`del_server` erases the member and appends the new configuration before it
tries the last two things that can fail: the write itself, and the transfer of
the leadership when the server removes itself.
-/

namespace Draft.Raft

variable (s : Raft)

/-! ## Results -/

/-- How the `append` of a configuration entry ends; a failed sync comes after the copy. -/
inductive Appended where
  | good
  | notGrown
  | notSynced
  deriving DecidableEq, Repr

def appendConfigurationAs : Appended → Raft × Bool
  | .good => (s.appendConfiguration, true)
  | .notGrown => (s, false)
  | .notSynced => (s.appendConfiguration, false)

/-- `add_server` with its result; it is true for `RC_GOOD`. -/
def addServerResult (name : Bytes) : Raft × Bool :=
  let address := s.makeId name
  if s.role ≠ .leader then (s.refuse "NOT_LEADER", false)
  else if s.contains address then (s.refuse "IN_CFG", false)
  else if ¬ isIpv4 address then (s.refuse "INVALID_SERVER", false)
  else if s.recfg.isSome then (s.refuse "INPROGRESS", false)
  else
    let n := s.makeNode address defaultRpcPort
    let s := s.makeConfig n .serverAddition
    if s.logCompactionEnabled then (s.initTransfer.doDataTransfer n.id, true)
    else (s.appendEntriesTo n.id, true)

theorem addServerResult_fst (name : Bytes) : (s.addServerResult name).1 = s.addServer name := by
  unfold addServerResult addServer
  dsimp only
  repeat' split
  all_goals rfl

/-- The end of `del_server`, once the new configuration is in the log. -/
def finishRemoval (address : Bytes) (n : Node) : Raft × Bool :=
  if address = s.selfId then
    let (s, taken) := s.leadershipTransfer s.latestServer
    if taken then (s.makeConfig n .serverRemoval, true) else (s.refuse "ERROR", false)
  else ((s.makeConfig n .serverRemoval).appendEntries, true)

/-- `del_server` with its result, for an append that ends in the given way. -/
def delServerResult (appended : Appended) (name : Bytes) : Raft × Bool :=
  let address := s.makeId name
  if s.role ≠ .leader then (s.refuse "NOT_LEADER", false)
  else
    match s.cluster.find? (·.1 = address) with
    | none => (s.refuse "NOT_IN_CFG", false)
    | some (_, n) =>
        if s.recfg.isSome then (s.refuse "INPROGRESS", false)
        else if s.cluster.length = 1 then (s.refuse "UNIQUE_SERVER", false)
        else
          let (s, good) := { s with
            cluster := s.cluster.filter (·.1 ≠ address) }.appendConfigurationAs appended
          if good then s.finishRemoval address n else (s.refuse "ERROR", false)

private theorem finishRemoval_fst (address : Bytes) (n : Node) :
    (s.finishRemoval address n).1 =
      if address = s.selfId then
        let (s, taken) := s.leadershipTransfer s.latestServer
        if taken then s.makeConfig n .serverRemoval else s.refuse "ERROR"
      else (s.makeConfig n .serverRemoval).appendEntries := by
  unfold finishRemoval
  split
  · dsimp only
    split <;> rfl
  · rfl

theorem delServerResult_fst (name : Bytes) :
    (s.delServerResult .good name).1 = s.delServer name := by
  unfold delServerResult delServer
  dsimp only
  by_cases hrole : s.role ≠ .leader
  · rw [if_pos hrole, if_pos hrole]
  · rw [if_neg hrole, if_neg hrole]
    cases s.cluster.find? (·.1 = s.makeId name) with
    | none => rfl
    | some p =>
        dsimp only
        by_cases hrecfg : s.recfg.isSome
        · rw [if_pos hrecfg, if_pos hrecfg]
        · rw [if_neg hrecfg, if_neg hrecfg]
          by_cases hone : s.cluster.length = 1
          · rw [if_pos hone, if_pos hone]
          · rw [if_neg hone, if_neg hone]
            exact finishRemoval_fst _ _ _

/-! ## What a failed request leaves -/

/-- The cluster, the log, the reconfiguration and the leadership transfer are as before. -/
structure Unchanged (s t : Raft) : Prop where
  cluster : t.cluster = s.cluster
  log : t.log = s.log
  recfg : t.recfg = s.recfg
  leaderTo : t.serverTransferLeaderTo = s.serverTransferLeaderTo
  replyTo : t.serverTransferReplyTo = s.serverTransferReplyTo
  timer : t.leadershipTransferTimer = s.leadershipTransferTimer

variable {s}

private theorem refuse_unchanged (s : Raft) (status : String) : Unchanged s (s.refuse status) :=
  ⟨rfl, rfl, rfl, rfl, rfl, rfl⟩

private theorem addServerResult_unchanged {name : Bytes} (h : (s.addServerResult name).2 = false) :
    Unchanged s (s.addServerResult name).1 := by
  unfold addServerResult at h ⊢
  dsimp only at h ⊢
  split
  · exact refuse_unchanged _ _
  split
  · exact refuse_unchanged _ _
  split
  · exact refuse_unchanged _ _
  split
  · exact refuse_unchanged _ _
  · rename_i hrole hin hipv4 hrecfg
    rw [if_neg hrole, if_neg hin, if_neg hipv4, if_neg hrecfg] at h
    split at h <;> cases h

/-- The checks of `leadership_transfer`. -/
structure Transferable (s : Raft) (name : Bytes) : Prop where
  free : s.serverTransferLeaderTo = none
  named : s.makeId name ≠ []
  other : s.makeId name ≠ s.selfId
  member : s.contains (s.makeId name) = true

instance (s : Raft) (name : Bytes) : Decidable (s.Transferable name) :=
  decidable_of_iff (s.serverTransferLeaderTo = none ∧ s.makeId name ≠ [] ∧
      s.makeId name ≠ s.selfId ∧ s.contains (s.makeId name) = true)
    ⟨fun h => ⟨h.1, h.2.1, h.2.2.1, h.2.2.2⟩, fun h => ⟨h.1, h.2, h.3, h.4⟩⟩

theorem find?_isSome (s : Raft) (address : Bytes) :
    (s.cluster.find? (·.1 = address)).isSome = s.contains address := by
  rw [Bool.eq_iff_iff, contains]
  simp

private theorem leadershipTransfer_cases (hrole : s.role = .leader) (name : Bytes) :
    (s.leadershipTransfer name).2 = true ∧ s.Transferable name ∨
      (s.leadershipTransfer name).2 = false ∧ ¬ s.Transferable name ∧
        (s.leadershipTransfer name).1.cluster = s.cluster := by
  unfold leadershipTransfer
  dsimp only
  rw [if_neg (by simp [hrole])]
  split
  · rename_i hnil
    exact .inr ⟨rfl, fun h => h.named hnil, rfl⟩
  split
  · rename_i hsome
    exact .inr ⟨rfl, fun h => by simp [h.free] at hsome, rfl⟩
  split
  · rename_i hself
    exact .inr ⟨rfl, fun h => h.other hself, rfl⟩
  · rename_i hnil hsome hself
    have hfind := find?_isSome s (s.makeId name)
    cases hfound : s.cluster.find? (·.1 = s.makeId name) with
    | none =>
        refine .inr ⟨rfl, fun h => ?_, rfl⟩
        rw [hfound, h.member] at hfind
        cases hfind
    | some p =>
        rw [hfound] at hfind
        refine .inl ⟨?_, by simpa using hsome, hnil, hself, hfind.symm⟩
        dsimp only
        split <;> rfl

/-! ## The removal -/

/-- The server is the leader, and nothing keeps it from taking the member out. -/
structure Removes (s : Raft) (name : Bytes) : Prop where
  leader : s.role = .leader
  member : s.contains (s.makeId name) = true
  free : s.recfg = none
  several : s.cluster.length ≠ 1

instance (s : Raft) (name : Bytes) : Decidable (s.Removes name) :=
  decidable_of_iff (s.role = .leader ∧ s.contains (s.makeId name) = true ∧ s.recfg = none ∧
      s.cluster.length ≠ 1)
    ⟨fun h => ⟨h.1, h.2.1, h.2.2.1, h.2.2.2⟩, fun h => ⟨h.1, h.2, h.3, h.4⟩⟩

/-- `cluster.erase(address)`. -/
def without (s : Raft) (address : Bytes) : Raft :=
  { s with cluster := s.cluster.filter (·.1 ≠ address) }

private theorem without_ne {address : Bytes} (h : s.contains address = true) :
    (s.without address).cluster ≠ s.cluster := by
  intro heq
  obtain ⟨p, hp, hkey⟩ := List.any_eq_true.mp h
  have := List.filter_eq_self.mp heq p hp
  simp_all

private theorem delServerResult_refused {name : Bytes} (h : ¬ s.Removes name) (appended : Appended) :
    Unchanged s (s.delServerResult appended name).1 := by
  unfold delServerResult
  dsimp only
  split
  · exact refuse_unchanged _ _
  · rename_i hrole
    have hfind := find?_isSome s (s.makeId name)
    cases hfound : s.cluster.find? (·.1 = s.makeId name) with
    | none => exact refuse_unchanged _ _
    | some p =>
        rw [hfound] at hfind
        dsimp only
        split
        · exact refuse_unchanged _ _
        split
        · exact refuse_unchanged _ _
        · rename_i hrecfg hone
          exact absurd ⟨by simpa using hrole, hfind.symm, by simpa using hrecfg, hone⟩ h

private theorem delServerResult_removes {name : Bytes} (h : s.Removes name) (appended : Appended) :
    ∃ n, s.delServerResult appended name =
      if ((s.without (s.makeId name)).appendConfigurationAs appended).2 then
        ((s.without (s.makeId name)).appendConfigurationAs appended).1.finishRemoval
          (s.makeId name) n
      else
        (((s.without (s.makeId name)).appendConfigurationAs appended).1.refuse "ERROR", false) := by
  have hfind := find?_isSome s (s.makeId name)
  rw [h.member, Option.isSome_iff_exists] at hfind
  obtain ⟨p, hp⟩ := hfind
  refine ⟨p.2, ?_⟩
  unfold delServerResult
  dsimp only
  rw [if_neg (by simp [h.leader]), hp]
  dsimp only
  rw [if_neg (by simp [h.free]), if_neg h.several]
  rfl

private theorem finishRemoval_cases (hrole : s.role = .leader) (address : Bytes) (n : Node) :
    (s.finishRemoval address n).2 = true ∧
        (address = s.selfId → s.Transferable s.latestServer) ∨
      (s.finishRemoval address n).2 = false ∧
        ¬ (address = s.selfId → s.Transferable s.latestServer) ∧
        (s.finishRemoval address n).1.cluster = s.cluster := by
  unfold finishRemoval
  split
  · rename_i hself
    rcases leadershipTransfer_cases hrole s.latestServer with
      ⟨htaken, hable⟩ | ⟨htaken, hable, hcluster⟩
    · exact .inl ⟨by simp [htaken], fun _ => hable⟩
    · refine .inr ⟨by simp [htaken], fun hall => hable (hall hself), ?_⟩
      dsimp only
      rw [htaken, if_neg Bool.false_ne_true]
      exact hcluster
  · rename_i hself
    exact .inl ⟨rfl, fun h => absurd h hself⟩

private theorem delServerResult_unchanged_iff {name : Bytes} (h : s.Removes name) (appended : Appended) :
    ((s.delServerResult appended name).2 = false →
      Unchanged s (s.delServerResult appended name).1) ↔
      appended = .good ∧ (s.makeId name = s.selfId →
        (s.without (s.makeId name)).Transferable (s.without (s.makeId name)).latestServer) := by
  obtain ⟨n, heq⟩ := delServerResult_removes h appended
  have hne := without_ne h.member
  rw [heq]
  cases appended with
  | good =>
      have hrole : ((s.without (s.makeId name)).appendConfiguration).role = .leader := h.leader
      rcases finishRemoval_cases hrole (s.makeId name) n with
        ⟨hgood, hable⟩ | ⟨hfailed, hable, hcluster⟩
      · refine ⟨fun _ => ⟨rfl, fun hself => ?_⟩, fun _ hfalse => ?_⟩
        · obtain ⟨h₁, h₂, h₃, h₄⟩ := hable hself
          exact ⟨h₁, h₂, h₃, h₄⟩
        · change (((s.without (s.makeId name)).appendConfiguration).finishRemoval
            (s.makeId name) n).2 = false at hfalse
          rw [hgood] at hfalse
          cases hfalse
      · constructor
        · intro hunchanged
          have := (hunchanged hfailed).cluster
          exact absurd (hcluster.symm.trans this) hne
        · rintro ⟨-, hall⟩
          refine absurd (fun hself => ?_) hable
          obtain ⟨h₁, h₂, h₃, h₄⟩ := hall hself
          exact ⟨h₁, h₂, h₃, h₄⟩
  | notGrown =>
      constructor
      · intro hunchanged
        exact absurd (hunchanged rfl).cluster hne
      · rintro ⟨hgood, -⟩
        cases hgood
  | notSynced =>
      constructor
      · intro hunchanged
        exact absurd (hunchanged rfl).cluster hne
      · rintro ⟨hgood, -⟩
        cases hgood

/--
A failed `add_server` changes nothing.  A failed `del_server` changes nothing if
and only if it fails its checks: past them the member is gone, so the append has
to succeed and, for the leader itself, the transfer of the leadership too.
-/
theorem failed_requests_unchanged (s : Raft) (name : Bytes) (appended : Appended) :
    ((s.addServerResult name).2 = false → Unchanged s (s.addServerResult name).1) ∧
      (((s.delServerResult appended name).2 = false →
          Unchanged s (s.delServerResult appended name).1) ↔
        (s.Removes name → appended = .good ∧ (s.makeId name = s.selfId →
          (s.without (s.makeId name)).Transferable
            (s.without (s.makeId name)).latestServer))) := by
  refine ⟨addServerResult_unchanged, ?_⟩
  by_cases h : s.Removes name
  · rw [delServerResult_unchanged_iff h]
    simp [h]
  · simp only [h, false_implies, iff_true]
    exact fun _ => delServerResult_refused h appended

end Draft.Raft

namespace Draft.World

open Consensus Raft

/-- A leader that hands over its leadership is asked to leave the cluster. -/
theorem leader_left_out :
    ∃ (es : List Event) (w : World), run step (cluster ["a:1", "b:1", "c:1"] true) es = some w ∧
      (w.servers (ascii "a:1")).role = .leader ∧
      ((w.servers (ascii "a:1")).delServerResult .good (ascii "a:1")).2 = false ∧
      ¬ Unchanged (w.servers (ascii "a:1"))
        ((w.servers (ascii "a:1")).delServerResult .good (ascii "a:1")).1 :=
  ⟨[.electionTimeout (ascii "a:1"), .handle 0 false, .succeed 0 false, .handle 3 false,
      .succeed 3 false, .transferLeadership (ascii "a:1") (ascii "b:1")],
    _, (Option.some_get (by decide)).symm, by decide, by decide,
    fun h => absurd h.cluster (by decide)⟩

end Draft.World
