import Draft.Raft.CommittedWork
import Draft.Raft.Custody

/-!
# What is under way comes to an end

The timer of a leadership transfer is armed only when the other server has
entries to catch up with.  The flag that keeps a node out of the heartbeats is
taken back only when its data transfer is acknowledged.
-/

namespace Draft

open Consensus Raft

variable {s t : Raft} {w w' : World} {e : Event}

namespace Raft

/-! ## Leadership transfers -/

/-- A leadership transfer that goes on has a timer. -/
def Armed (s : Raft) : Prop :=
  s.serverTransferLeaderTo.isSome = true → s.leadershipTransferTimer.isSome = true

private theorem Custody.armed (h : Custody s t) (hs : s.Armed) : t.Armed := by
  intro ht
  rcases h.handover with hsame | hover
  · have htarget : t.serverTransferLeaderTo = s.serverTransferLeaderTo := congrArg Prod.fst hsame
    have htimer : t.leadershipTransferTimer = s.leadershipTransferTimer := congrArg Prod.snd hsame
    rw [htimer]
    exact hs (htarget ▸ ht)
  · rw [hover] at ht
    cases ht

/-- A request that is taken up asks for a server that is behind, or finds a timer armed. -/
def TakesTime (s : Raft) (name : Bytes) : Prop :=
  s.role = .leader → s.makeId name ≠ [] → s.serverTransferLeaderTo = none →
    s.makeId name ≠ s.selfId → ∀ p ∈ s.cluster.find? (·.1 = s.makeId name),
      p.2.matchIndex = s.log.lastEntryIndex → s.leadershipTransferTimer.isSome = true

instance (s : Raft) (name : Bytes) : Decidable (s.TakesTime name) := by
  unfold TakesTime
  infer_instance

def RemovalTakesTime (s : Raft) (name : Bytes) : Prop :=
  s.role = .leader → s.makeId name = s.selfId → (s.cluster.find? (·.1 = s.selfId)).isSome →
    s.recfg = none → s.cluster.length ≠ 1 →
      (s.withoutServer s.selfId).TakesTime (s.withoutServer s.selfId).latestServer

instance (s : Raft) (name : Bytes) : Decidable (s.RemovalTakesTime name) := by
  unfold RemovalTakesTime
  infer_instance

private theorem armed_leadershipTransfer {name : Bytes} (hs : s.Armed) (htime : s.TakesTime name) :
    (s.leadershipTransfer name).1.Armed := by
  have refused : ∀ status, (s.refuse status).Armed :=
    fun status => (Custody.refuse s status).armed hs
  unfold leadershipTransfer
  dsimp only
  split
  · exact refused _
  rename_i hrole
  split
  · exact refused _
  rename_i haddress
  split
  · exact refused _
  rename_i hongoing
  split
  · exact refused _
  rename_i hself
  split
  · exact refused _
  · rename_i n hfind
    split
    · rename_i hmatch
      intro _
      exact htime (Decidable.not_not.mp hrole) haddress (by simpa using hongoing) hself _ hfind
        hmatch
    · exact fun _ => rfl

private theorem armed_delServer {name : Bytes} (hs : s.Armed) (htime : s.RemovalTakesTime name) :
    (s.delServer name).Armed := by
  have refused : ∀ status, (s.refuse status).Armed :=
    fun status => (Custody.refuse s status).armed hs
  have without := (custody_withoutServer (s := s) (s.makeId name)).armed hs
  unfold delServer
  dsimp only
  split
  · exact refused _
  rename_i hrole
  split
  · exact refused _
  rename_i n hfind
  split
  · exact refused _
  rename_i hrecfg
  split
  · exact refused _
  rename_i hlength
  split
  · rename_i hself
    have hself : s.makeId name = s.selfId := hself
    have transfer : ((s.withoutServer (s.makeId name)).leadershipTransfer
        (s.withoutServer (s.makeId name)).latestServer).1.Armed := by
      rw [hself] at without hfind ⊢
      exact armed_leadershipTransfer without (htime (Decidable.not_not.mp hrole) hself
        (by rw [hfind]; rfl) (by simpa using hrecfg) hlength)
    split
    · exact transfer
    · exact (Custody.refuse _ _).armed transfer
  · exact custody_appendEntries.armed without

end Raft

namespace World

def TakesTime (w : World) : Event → Prop
  | .transferLeadership id address => (w.servers id).TakesTime address
  | .delServer id address => (w.servers id).RemovalTakesTime address
  | _ => True

instance (w : World) : (e : Event) → Decidable (w.TakesTime e)
  | .transferLeadership .. | .delServer .. => by unfold TakesTime; infer_instance
  | .electionTimeout _ | .heartbeatTimeout _ | .leadershipTransferTimeout _ | .append ..
  | .addServer .. | .popCommitted _ | .applyNext _ | .compact _ | .writeFiles .. | .handle ..
  | .succeed .. | .fail .. => isTrue trivial

private theorem armed_reaction (htime : w.TakesTime e) {id : Bytes} (hactor : w.actor e = some id)
    (h : (w.servers id).Armed) : (w.reaction e (w.servers id)).Armed := by
  cases hhands : e.handsOver with
  | false => exact (custody_reaction hhands _).armed h
  | true =>
      cases e with
      | transferLeadership j address =>
          cases hactor
          exact armed_leadershipTransfer h htime
      | delServer j address =>
          cases hactor
          exact armed_delServer h htime
      | _ => cases hhands

private theorem armed_step (htime : w.TakesTime e) (h : ∀ id, (w.servers id).Armed)
    (hstep : w.step e = some w') : ∀ id, (w'.servers id).Armed := by
  obtain ⟨j, hactor, -, rfl⟩ := step_reaction hstep
  intro id
  by_cases hid : id = j
  · subst hid
    rw [act_self]
    exact armed_reaction htime hactor (h id)
  · rw [act_of_ne _ _ hid]
    exact h id

/--
In a run whose leadership transfers take time, a leader that hands over its
leadership has the timer armed, and the timer gives the transfer up.
-/
theorem transfer_armed {ids : List Bytes} {settings : Bytes → Settings} {log : EntryLogger}
    {currTerm : Bytes → Nat} {votedFor : Bytes → Bytes} {files : Bytes → Sender} {es : List Event}
    (htime : Along step TakesTime (.boot ids settings log currTerm votedFor files) es)
    (hrun : run step (.boot ids settings log currTerm votedFor files) es = some w') :
    ∀ id ∈ w'.ids, (w'.servers id).role = .leader →
      (w'.servers id).serverTransferLeaderTo.isSome = true →
        (w'.servers id).leadershipTransferTimer.isSome = true ∧
        ((w'.servers id).faulted = false →
          ∃ w'', w'.step (.leadershipTransferTimeout id) = some w'' ∧
            (w''.servers id).serverTransferLeaderTo = none) := by
  have h : ∀ id, (w'.servers id).Armed := by
    refine run_invariant (P := fun w => ∀ id, (w.servers id).Armed)
      (fun _ _ _ htime h hstep => armed_step htime h hstep) htime ?_ hrun
    intro id hsome
    cases hsome
  intro id hid _ hongoing
  obtain ⟨node, hnode⟩ := Option.isSome_iff_exists.mp (h id hongoing)
  refine ⟨h id hongoing, fun hsound => ?_⟩
  refine ⟨w'.act id ((w'.servers id).onLeadershipTransferTimeout node), ?_, ?_⟩
  · simp only [step, hnode, local_]
    rw [if_pos ⟨hid, by simp [hsound]⟩]
  · rw [act_self]
    rfl

def behindTransfer : List Event :=
  [.electionTimeout (ascii "a:1"), .handle 0 false, .succeed 0 false, .handle 3 false,
    .succeed 3 false, .append (ascii "a:1") (ascii "x"),
    .transferLeadership (ascii "a:1") (ascii "b:1")]

theorem transfer_armed_behind :
    ∃ w', run step (cluster ["a:1", "b:1", "c:1"] true) behindTransfer = some w' ∧
      (w'.servers (ascii "a:1")).serverTransferLeaderTo = some (ascii "b:1") ∧
      (w'.servers (ascii "a:1")).leadershipTransferTimer.isSome = true := by
  have hrun := (Option.some_get (show (run step (cluster ["a:1", "b:1", "c:1"] true)
    behindTransfer).isSome by decide)).symm
  refine ⟨_, hrun, by decide, ?_⟩
  exact (transfer_armed (by decide) hrun _ (by decide) (by decide) (by decide)).1

/-- The leader asks `c`, which is up to date: no timer is armed. -/
def promptTransfer : List Event :=
  [.electionTimeout (ascii "a:1"), .handle 0 false, .succeed 0 false, .handle 3 false,
    .succeed 3 false, .handle 5 false, .succeed 5 false,
    .transferLeadership (ascii "a:1") (ascii "c:1")]

theorem transfer_unarmed :
    ¬ ∀ (es : List Event) (w' : World),
      run step (cluster ["a:1", "b:1", "c:1"] true) es = some w' →
      ∀ id ∈ w'.ids, (w'.servers id).role = .leader →
        (w'.servers id).serverTransferLeaderTo.isSome = true →
          (w'.servers id).leadershipTransferTimer.isSome = true := by
  intro h
  have hrun := (Option.some_get (show (run step (cluster ["a:1", "b:1", "c:1"] true)
    promptTransfer).isSome by decide)).symm
  exact absurd (h _ _ hrun (ascii "a:1") (by decide) (by decide) (by decide)) (by decide)

end World

/-! ## Data transfers -/

namespace Raft

def chunkFollows (s : Raft) (id : Bytes) : Bool :=
  s.role = .leader && !(s.sender.pending = [] && s.newly id && !s.sender.exists_ s.sender.path &&
    (s.findNode id).all (!·.transferDataTo))

/-- The callback of a data transfer makes the next call of the transfer, or ends it. -/
def followsUp (s : Raft) (id : Bytes) : Request → Option Response → Bool
  | .dataTransfer _, none => s.newly id && s.chunkFollows id
  | .dataTransfer _, some (.data res) =>
      res.success && (transferFinished s.sender.advance ||
        chunkFollows { s with sender := s.sender.advance } id)
  | .doneTransfer _, none => s.newly id
  | .doneTransfer _, some (.data res) => res.success
  | _, _ => false

private theorem doDataTransfer_transfersTo {id : Bytes} (h : s.chunkFollows id = true) :
    (s.doDataTransfer id).TransfersTo id := by
  simp only [chunkFollows, Bool.and_eq_true, decide_eq_true_eq, Bool.not_eq_true'] at h
  unfold doDataTransfer
  rw [if_neg (by simp [h.1]), if_neg]
  · exact sendChunk_transfersTo id
  · rintro ⟨hpending, hnewly, hpath, hnode⟩
    rw [decide_eq_true hpending, hnewly, hnode, Bool.eq_false_of_not_eq_true hpath] at h
    simp at h

private theorem endDataTransfer_unflagged (id : Bytes) : ¬ Flagged
    ((s.initTransfer.modifyNode id fun n => { n with transferDataTo := false }).appendEntriesTo id)
    id := by
  intro h
  have hflagged : Flagged (s.initTransfer.modifyNode id
      fun n => { n with transferDataTo := false }) id := by
    refine (Flagged.of_nodes ?_).mp h
    unfold appendEntriesTo
    split <;> rfl
  obtain ⟨n, hn, hid, hset⟩ := hflagged
  rw [modifyNode_nodes] at hn
  obtain ⟨m, -, rfl⟩ := List.mem_map.mp hn
  split at hid
  · rw [if_pos ‹_›] at hset
    cases hset
  · exact absurd hid ‹_›

/-- A node is not left with its flag and without a call. -/
theorem finish_followsUp {id : Bytes} {quick : Bool} {req : Request} {res : Option Response}
    (h : s.followsUp id req res = true) (hflagged : (s.finish id quick req res).Flagged id) :
    (s.finish id quick req res).TransfersTo id := by
  cases req with
  | dataTransfer req =>
      rcases res with _ | ⟨_ | _ | res⟩
      · simp only [followsUp, Bool.and_eq_true] at h
        change (s.onDataTransfer id none).TransfersTo id
        unfold onDataTransfer
        rw [if_pos h.1]
        exact doDataTransfer_transfersTo h.2
      · cases h
      · cases h
      · simp only [followsUp, Bool.and_eq_true, Bool.or_eq_true] at h
        change (s.onDataTransfer id (some res)).TransfersTo id
        unfold onDataTransfer onDataSuccess
        dsimp only
        rw [if_pos h.1]
        split
        · exact doDoneTransfer_transfersTo id
        · rename_i hunfinished
          exact doDataTransfer_transfersTo (h.2.resolve_left hunfinished)
  | doneTransfer req =>
      rcases res with _ | ⟨_ | _ | res⟩
      · change (s.onDoneTransfer id none).TransfersTo id
        unfold onDoneTransfer
        dsimp only
        rw [if_pos (show s.newly id = true from h)]
        exact doDoneTransfer_transfersTo id
      · cases h
      · cases h
      · change (s.onDoneTransfer id (some res)).Flagged id at hflagged
        unfold onDoneTransfer at hflagged
        dsimp only at hflagged
        rw [if_pos (show res.success = true from h)] at hflagged
        exact absurd hflagged (endDataTransfer_unflagged id)
  | _ => cases h

end Raft

def Event.finishes : Event → Option Nat
  | .succeed i _ | .fail i _ => some i
  | _ => none

def Call.carries (c : Call) (src dst : Bytes) : Bool :=
  c.src = src && c.dst = dst && c.request.transfers && !c.done

private theorem exists_other {α : Type*} {p : α → Bool} {l : List α} (h : 2 ≤ (l.filter p).length)
    (i : Nat) : ∃ k, k ≠ i ∧ ∃ x, l[k]? = some x ∧ p x = true := by
  induction l generalizing i with
  | nil => simp at h
  | cons a l ih =>
      cases ha : p a with
      | false =>
          rw [List.filter_cons_of_neg (by simp [ha])] at h
          obtain ⟨k, hk, x, hx, hp⟩ := ih h (i - 1)
          exact ⟨k + 1, by omega, x, hx, hp⟩
      | true =>
          rw [List.filter_cons_of_pos ha, List.length_cons] at h
          by_cases hi : i = 0
          · obtain ⟨x, hx⟩ := List.exists_mem_of_length_pos (show 0 < (l.filter p).length by omega)
            obtain ⟨hmem, hp⟩ := List.mem_filter.mp hx
            obtain ⟨k, hk⟩ := List.mem_iff_getElem?.mp hmem
            exact ⟨k + 1, by omega, x, hk, hp⟩
          · exact ⟨0, fun h => hi h.symm, a, rfl, ha⟩

namespace World

/-- The callback of a transfer to a flagged node follows up, or another call is on its way. -/
def Resumed (w : World) (c : Call) (res : Option Response) : Prop :=
  c.request.transfers = true → (w.servers c.src).Flagged c.dst →
    (w.servers c.src).followsUp c.dst c.request res = true ∨
      2 ≤ (w.calls.filter (·.carries c.src c.dst)).length

instance (w : World) (c : Call) (res : Option Response) : Decidable (w.Resumed c res) := by
  unfold Resumed
  infer_instance

def Resumes (w : World) : Event → Prop
  | .succeed i _ => ∀ c ∈ w.calls[i]?, w.Resumed c c.response
  | .fail i _ => ∀ c ∈ w.calls[i]?, w.Resumed c none
  | _ => True

instance (w : World) : (e : Event) → Decidable (w.Resumes e)
  | .succeed .. | .fail .. => by unfold Resumes; infer_instance
  | .electionTimeout _ | .heartbeatTimeout _ | .leadershipTransferTimeout _ | .append ..
  | .transferLeadership .. | .addServer .. | .delServer .. | .popCommitted _ | .applyNext _
  | .compact _ | .writeFiles .. | .handle .. => isTrue trivial

/-- A flagged node has a call on its way. -/
def InFlight (w : World) : Prop :=
  ∀ id j, (w.servers id).Flagged j → ∃ c ∈ w.calls, c.carries id j = true

private theorem touched_carries {k : Nat} {c : Call} {src dst : Bytes} (hc : w.calls[k]? = some c)
    (hcarries : c.carries src dst = true) (hk : e.finishes ≠ some k) :
    ∃ d ∈ w.touched e, d.carries src dst = true := by
  have kept : ∀ (i : Nat) (a b : Call), w.calls[i]? = some a →
      (i = k → b.carries src dst = a.carries src dst) →
      ∃ d ∈ w.calls.set i b, d.carries src dst = true := by
    intro i a b ha hsame
    by_cases hik : i = k
    · rw [hik, hc] at ha
      cases ha
      have hlt : i < w.calls.length := hik ▸ (List.getElem?_eq_some_iff.mp hc).1
      exact ⟨b, List.mem_of_getElem? (List.getElem?_set_self hlt), (hsame hik).trans hcarries⟩
    · refine ⟨c, List.mem_of_getElem? (i := k) ?_, hcarries⟩
      rw [List.getElem?_set_ne hik, hc]
  have unchanged : ∃ d ∈ w.calls, d.carries src dst = true :=
    ⟨c, List.mem_of_getElem? hc, hcarries⟩
  cases e with
  | handle i recent =>
      simp only [touched]
      split
      · exact unchanged
      · rename_i a ha
        exact kept i a _ ha fun _ => rfl
  | succeed i quick =>
      simp only [touched]
      split
      · exact unchanged
      · rename_i a ha
        exact kept i a _ ha fun hik => absurd (congrArg some hik) hk
  | fail i quick =>
      simp only [touched]
      split
      · exact unchanged
      · rename_i a ha
        exact kept i a _ ha fun hik => absurd (congrArg some hik) hk
  | _ => exact unchanged

private theorem actor_of_finishes {k : Nat} {c : Call} (hfinishes : e.finishes = some k)
    (hc : w.calls[k]? = some c) : w.actor e = some c.src := by
  cases e with
  | succeed i quick =>
      cases hfinishes
      simp [actor, hc]
  | fail i quick =>
      cases hfinishes
      simp [actor, hc]
  | _ => cases hfinishes

private theorem reaction_followsUp (hresumes : w.Resumes e) {k : Nat} {c : Call} {id j : Bytes}
    (hfinishes : e.finishes = some k) (hc : w.calls[k]? = some c) (hcarries : c.carries id j = true)
    (hbefore : (w.servers id).Flagged j) (hafter : (w.reaction e (w.servers id)).Flagged j) :
    (w.reaction e (w.servers id)).TransfersTo j ∨
      ∃ i, i ≠ k ∧ ∃ d, w.calls[i]? = some d ∧ d.carries id j = true := by
  simp only [Call.carries, Bool.and_eq_true, decide_eq_true_eq] at hcarries
  obtain ⟨⟨⟨rfl, rfl⟩, htransfers⟩, -⟩ := hcarries
  cases e with
  | succeed i quick =>
      cases hfinishes
      simp only [reaction, hc] at hafter ⊢
      exact (hresumes c hc htransfers hbefore).imp
        (fun hfollows => finish_followsUp hfollows hafter) fun htwo => exists_other htwo k
  | fail i quick =>
      cases hfinishes
      simp only [reaction, hc] at hafter ⊢
      exact (hresumes c hc htransfers hbefore).imp
        (fun hfollows => finish_followsUp hfollows hafter) fun htwo => exists_other htwo k
  | _ => cases hfinishes

private theorem inFlight_step (hresumes : w.Resumes e) (h : w.InFlight) (hstep : w.step e = some w') :
    w'.InFlight := by
  obtain ⟨actor, hactor, -, rfl⟩ := step_reaction hstep
  have kept : ∀ {id j : Bytes} {k : Nat} {c : Call}, w.calls[k]? = some c →
      c.carries id j = true → e.finishes ≠ some k → ∃ d ∈ (act { w with calls := w.touched e } actor
        (w.reaction e (w.servers actor))).calls, d.carries id j = true := by
    intro id j k c hc hcarries hk
    obtain ⟨d, hd, hdcarries⟩ := touched_carries hc hcarries hk
    exact ⟨d, List.mem_append_left _ hd, hdcarries⟩
  intro id j hflagged
  by_cases hid : id = actor
  · subst hid
    rw [act_self] at hflagged
    have hafter : (w.reaction e (w.servers id)).Flagged j := hflagged
    have sent : (w.reaction e (w.servers id)).TransfersTo j → ∃ d ∈
        (act { w with calls := w.touched e } id (w.reaction e (w.servers id))).calls,
          d.carries id j = true := by
      rintro ⟨o, ho, hdst, htransfers⟩
      exact ⟨o.call id, List.mem_append_right _ (List.mem_map.mpr ⟨o, ho, rfl⟩),
        by simp [Call.carries, Outgoing.call, hdst, htransfers]⟩
    rcases (tracks_reaction e (w.servers id)).flags j hafter with hbefore | hnew
    · obtain ⟨c, hmem, hcarries⟩ := h id j hbefore
      obtain ⟨k, hc⟩ := List.mem_iff_getElem?.mp hmem
      by_cases hfinishes : e.finishes = some k
      · rcases reaction_followsUp hresumes hfinishes hc hcarries hbefore hafter with
          hnew | ⟨i, hi, d, hd, hdcarries⟩
        · exact sent hnew
        · refine kept hd hdcarries fun hfinishes' => hi ?_
          rw [hfinishes] at hfinishes'
          exact (Option.some.inj hfinishes').symm
      · exact kept hc hcarries hfinishes
    · exact sent hnew
  · rw [act_of_ne _ _ hid] at hflagged
    obtain ⟨c, hmem, hcarries⟩ := h id j hflagged
    obtain ⟨k, hc⟩ := List.mem_iff_getElem?.mp hmem
    refine kept hc hcarries fun hfinishes => hid ?_
    rw [actor_of_finishes hfinishes hc] at hactor
    simp only [Call.carries, Bool.and_eq_true, decide_eq_true_eq] at hcarries
    exact hcarries.1.1.1.symm.trans (Option.some.inj hactor)

private theorem unflagged_boot (settings : Settings) (log : EntryLogger) (currTerm : Nat)
    (votedFor : Bytes) (files : Sender) (id : Bytes) :
    ¬ (Raft.boot settings log currTerm votedFor files).Flagged id := by
  rintro ⟨n, hn, -, hset⟩
  rcases List.mem_append.mp hn with hn | hn
  · obtain ⟨p, hp, rfl⟩ := List.mem_map.mp hn
    rcases mem_foldl_enlist hp with hold | ⟨-, hnew⟩
    · cases hold
    · rw [hnew] at hset
      cases hset
  · cases hn

end World

end Draft
