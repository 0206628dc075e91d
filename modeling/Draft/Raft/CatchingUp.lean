import Draft.Consensus.History
import Draft.Raft.Creation
import Draft.Raft.Plans
import Draft.Raft.Reactions

/-!
# Who is taken in

A server that is being added is taken into the cluster after its last round of
replication, when its match is close to the end of the leader's log.  A match
starts at 0, and rounds go by on failed calls too: at the beginning of a log
every server is close enough.
-/

namespace Draft

open Consensus Raft

namespace Raft

variable {s t u : Raft}

/-! ## The catch-up -/

private theorem catchUp_plan (quick : Bool) {p : Plan}
    (hp : (s.handleCatchUpServerAppendEntries quick).plan = some p)
    (hadded : p.entryAdded = false) : s.plan = some p := by
  revert hp
  unfold handleCatchUpServerAppendEntries
  split
  · exact id
  rename_i r hr
  split
  · intro hp
    have hround := (carries_appendEntriesTo r.n.id).before hp
    rw [plan, hr]
    exact hround
  split
  · intro hp
    have hdeployed := carries_appendEntries.before hp
    revert hdeployed
    unfold deployReconfiguration
    split
    · exact id
    · intro hdeployed
      have : p.entryAdded = true := by
        rw [← Option.some.inj hdeployed]
        rfl
      rw [hadded] at this
      cases this
  · intro hp
    cases hp

private theorem catchUp_keys (quick : Bool) :
    (s.handleCatchUpServerAppendEntries quick).keys = s.keys ∨
      ∃ r, s.recfg = some r ∧ r.entryAdded = false ∧ s.caughtUp r.n = true ∧
        (s.handleCatchUpServerAppendEntries quick).keys = s.keys ++ [r.n.id] := by
  unfold handleCatchUpServerAppendEntries
  split
  · exact .inl rfl
  rename_i r hr
  split
  · exact .inl (carries_appendEntriesTo r.n.id).keys
  split
  · rename_i hcaught
    have hcaught := (Bool.and_eq_true _ _ ▸ hcaught).2
    rw [carries_appendEntries.keys]
    unfold deployReconfiguration
    split
    · exact .inl rfl
    · rename_i hadded
      dsimp only
      split
      · exact .inl rfl
      · refine .inr ⟨r, hr, by simpa using hadded, hcaught, ?_⟩
        simp [keys, appendConfiguration]
  · exact .inl rfl

/-! ## Answers of the new server -/

/-- The match that the callback of a call to `dst` accepts from the server being added. -/
def confirmed (s : Raft) (dst : Bytes) : Request → Option Response → Option Nat
  | .appendEntries _, some (.append res) =>
      if s.role = .leader ∧ res.success ∧ s.newly dst then some res.matchIndex else none
  | _, _ => none

theorem newly_iff {dst : Bytes} : s.newly dst = true ↔
    ∃ p, s.plan = some p ∧ p.id = dst ∧ p.type = .serverAddition := by
  unfold newly plan
  cases s.recfg with
  | none => simp
  | some r => simp [Reconfiguration.plan]

private theorem plan_recordMatch (s : Raft) (dst : Bytes) (matchIndex : Nat) :
    (s.recordMatch dst matchIndex).plan = s.plan.map fun p =>
      if p.id = dst then { p with matchIndex := matchIndex } else p := by
  simp only [plan, recordMatch, modifyNode, Option.map_map]
  congr 1
  funext r
  by_cases h : r.n.id = dst <;> simp [Reconfiguration.plan, h]

private theorem onAppendSuccess_cases (s : Raft) (dst : Bytes) (matchIndex : Nat) (quick : Bool) :
    ∃ u, Carries (s.recordMatch dst matchIndex) u ∧ u.log = s.log ∧
      (s.onAppendSuccess dst matchIndex quick = u ∨
        u.newly dst = true ∧
          s.onAppendSuccess dst matchIndex quick = u.handleCatchUpServerAppendEntries quick) := by
  have hadjust : Carries (s.recordMatch dst matchIndex)
      (s.recordMatch dst matchIndex).adjustCommitIndex := carries_adjustCommitIndex
  have hlog : (s.recordMatch dst matchIndex).adjustCommitIndex.log = s.log :=
    adjustCommitIndex_log _
  unfold onAppendSuccess
  dsimp only
  split
  · exact ⟨_, hadjust, hlog, .inl rfl⟩
  split
  · have htransfer := hadjust.trans (carries_handleTransferLeaderTo dst)
    have hlog' := (log_of_books (handleTransferLeaderTo_frame .books (s :=
      (s.recordMatch dst matchIndex).adjustCommitIndex) dst)).trans hlog
    split
    · exact ⟨_, htransfer, hlog', .inr ⟨‹_›, rfl⟩⟩
    · exact ⟨_, htransfer, hlog', .inl rfl⟩
  · split
    · exact ⟨_, hadjust, hlog, .inr ⟨‹_›, rfl⟩⟩
    · exact ⟨_, hadjust, hlog, .inl rfl⟩

def Counted (s : Raft) (dst : Bytes) (req : Request) (res : Option Response) (p : Plan) : Prop :=
  s.confirmed dst req res = none ∧ s.plan = some p ∨
    s.confirmed dst req res = some p.matchIndex

theorem Counted.fail {dst : Bytes} {req : Request} {p : Plan} (h : s.Counted dst req none p) :
    s.plan = some p := by
  rcases h with ⟨-, hsame⟩ | hsome
  · exact hsame
  · cases req <;> cases hsome

theorem Carries.counted {dst : Bytes} {req : Request} {res : Option Response} {p : Plan}
    (h : Carries s t) (hnone : s.confirmed dst req res = none) (hp : t.plan = some p) :
    s.Counted dst req res p :=
  .inl ⟨hnone, h.before hp⟩

private theorem counted_recordMatch {dst : Bytes} {req : AppendEntriesReq} {res : AppendEntriesRes}
    {p : Plan} (hrole : s.role = .leader) (hsuccess : res.success = true)
    (hp : (s.recordMatch dst res.matchIndex).plan = some p) (htype : p.type = .serverAddition) :
    s.Counted dst (.appendEntries req) (some (.append res)) p := by
  rw [plan_recordMatch, Option.map_eq_some_iff] at hp
  obtain ⟨q, hq, hqp⟩ := hp
  by_cases hdst : q.id = dst
  · rw [if_pos hdst] at hqp
    subst hqp
    exact .inr (if_pos ⟨hrole, hsuccess, newly_iff.mpr ⟨q, hq, hdst, htype⟩⟩)
  · rw [if_neg hdst] at hqp
    subst hqp
    refine .inl ⟨if_neg fun h => ?_, hq⟩
    obtain ⟨r, hr, hid, -⟩ := newly_iff.mp h.2.2
    exact hdst (Option.some.inj (hq.symm.trans hr) ▸ hid)

private theorem catchUp_counted {dst : Bytes} {req : Request} {res : Option Response} {quick : Bool}
    {p : Plan} (hcounted : ∀ q, u.plan = some q → q.type = .serverAddition →
      s.Counted dst req res q)
    (hp : (u.handleCatchUpServerAppendEntries quick).plan = some p)
    (hadded : p.entryAdded = false) (htype : p.type = .serverAddition) :
    s.Counted dst req res p :=
  hcounted p (catchUp_plan quick hp hadded) htype

structure TakenIn (s : Raft) (dst : Bytes) (req : Request) (res : Option Response) (p : Plan) :
    Prop where
  entryAdded : p.entryAdded = false
  type : p.type = .serverAddition
  id : p.id = dst
  close : (s.log.lastEntryIndex + (2 ^ 64 - p.matchIndex)) % 2 ^ 64 ≤ 5
  counted : s.Counted dst req res p

private theorem catchUp_takenIn {dst : Bytes} {req : Request} {res : Option Response} (quick : Bool)
    (hnewly : u.newly dst = true) (hlog : u.log = s.log)
    (hcounted : ∀ q, u.plan = some q → q.type = .serverAddition → s.Counted dst req res q) :
    (u.handleCatchUpServerAppendEntries quick).keys = u.keys ∨
      ∃ p, s.TakenIn dst req res p := by
  refine (catchUp_keys quick).imp_right ?_
  rintro ⟨r, hr, hadded, hcaught, -⟩
  obtain ⟨q, hq, hid, htype⟩ := newly_iff.mp hnewly
  obtain rfl : q = r.plan := by
    rw [plan, hr] at hq
    exact (Option.some.inj hq).symm
  refine ⟨r.plan, hadded, htype, hid, ?_, hcounted _ hq htype⟩
  change (s.log.lastEntryIndex + (2 ^ 64 - r.n.matchIndex)) % 2 ^ 64 ≤ 5
  rw [← hlog]
  simpa [caughtUp] using hcaught

structure Answers (s : Raft) (dst : Bytes) (req : Request) (res : Option Response) (t : Raft) :
    Prop where
  counted : ∀ p, t.plan = some p → p.entryAdded = false → p.type = .serverAddition →
    s.Counted dst req res p
  keys : t.keys = s.keys ∨ ∃ p, s.TakenIn dst req res p

theorem Carries.answers {dst : Bytes} {req : Request} {res : Option Response} (h : Carries s t)
    (hnone : s.confirmed dst req res = none) : s.Answers dst req res t where
  counted := fun _ hp _ _ => h.counted hnone hp
  keys := .inl h.keys

private theorem onAppendSuccess_answers {dst : Bytes} {req : AppendEntriesReq} {res : AppendEntriesRes}
    (quick : Bool) (hrole : s.role = .leader) (hsuccess : res.success = true) :
    s.Answers dst (.appendEntries req) (some (.append res))
      (s.onAppendSuccess dst res.matchIndex quick) := by
  obtain ⟨u, hcarries, hlog, hcase⟩ := onAppendSuccess_cases s dst res.matchIndex quick
  have hkeys : u.keys = s.keys := hcarries.keys.trans (keys_modifyNode s dst _)
  have hcounted : ∀ q, u.plan = some q → q.type = .serverAddition →
      s.Counted dst (.appendEntries req) (some (.append res)) q := by
    intro q hq htype
    exact counted_recordMatch hrole hsuccess (hcarries.before hq) htype
  rcases hcase with hdone | ⟨hnewly, hcatch⟩
  · rw [hdone]
    exact ⟨fun p hp _ htype => hcounted p hp htype, .inl hkeys⟩
  · rw [hcatch]
    constructor
    · exact fun p hp hadded htype => catchUp_counted hcounted hp hadded htype
    · rw [← hkeys]
      exact catchUp_takenIn quick hnewly hlog hcounted

private theorem onAppendEntries_answers (s : Raft) (dst : Bytes) (req : AppendEntriesReq)
    (res : AppendEntriesRes) (quick : Bool) :
    s.Answers dst (.appendEntries req) (some (.append res))
      (s.onAppendEntries dst (some res) quick) := by
  unfold onAppendEntries
  dsimp only
  split
  · rename_i hrole
    exact (Carries.refl s).answers (if_neg fun h => hrole h.1)
  rename_i hrole
  split
  · rename_i hsuccess
    exact onAppendSuccess_answers quick (by simpa using hrole) hsuccess
  rename_i hsuccess
  have hnone : s.confirmed dst (.appendEntries req) (some (.append res)) = none :=
    if_neg fun h => hsuccess h.2.1
  split
  · exact (carries_stepDown _ _).answers hnone
  · exact (carries_onAppendInconsistent dst _).answers hnone

private theorem onAppendFailed_answers (s : Raft) (dst : Bytes) (req : AppendEntriesReq) (quick : Bool) :
    s.Answers dst (.appendEntries req) none (s.onAppendEntries dst none quick) := by
  have hcounted : ∀ q, s.plan = some q → q.type = .serverAddition →
      s.Counted dst (.appendEntries req) none q := fun q hq _ => .inl ⟨rfl, hq⟩
  unfold onAppendEntries
  dsimp only
  split
  · constructor
    · exact fun p hp hadded htype => catchUp_counted hcounted hp hadded htype
    · exact catchUp_takenIn quick ‹_› rfl hcounted
  · exact (Carries.refl s).answers (by rfl)

private theorem finish_answers (s : Raft) (dst : Bytes) (quick : Bool) (req : Request)
    (res : Option Response) : s.Answers dst req res (s.finish dst quick req res) := by
  cases req with
  | timeoutNow req =>
      have silent : ∀ {t : Raft}, Carries s t → s.Answers dst (.timeoutNow req) res t :=
        fun h => h.answers rfl
      rcases res with _ | ⟨res | _ | _⟩
      · exact silent (carries_onTimeoutNow dst none)
      · exact silent (carries_onTimeoutNow dst (some res))
      · exact silent (.refl s)
      · exact silent (.refl s)
  | preVote req =>
      have silent : ∀ {t : Raft}, Carries s t → s.Answers dst (.preVote req) res t :=
        fun h => h.answers rfl
      rcases res with _ | ⟨res | _ | _⟩
      · exact silent (carries_onPreVote none)
      · exact silent (carries_onPreVote (some res))
      · exact silent (.refl s)
      · exact silent (.refl s)
  | requestVote req =>
      have silent : ∀ {t : Raft}, Carries s t → s.Answers dst (.requestVote req) res t :=
        fun h => h.answers rfl
      rcases res with _ | ⟨res | _ | _⟩
      · exact silent (carries_onRequestVote none)
      · exact silent (carries_onRequestVote (some res))
      · exact silent (.refl s)
      · exact silent (.refl s)
  | dataTransfer req =>
      have silent : ∀ {t : Raft}, Carries s t → s.Answers dst (.dataTransfer req) res t :=
        fun h => h.answers rfl
      rcases res with _ | ⟨_ | _ | res⟩
      · exact silent (carries_onDataTransfer dst none)
      · exact silent (.refl s)
      · exact silent (.refl s)
      · exact silent (carries_onDataTransfer dst (some res))
  | doneTransfer req =>
      have silent : ∀ {t : Raft}, Carries s t → s.Answers dst (.doneTransfer req) res t :=
        fun h => h.answers rfl
      rcases res with _ | ⟨_ | _ | res⟩
      · exact silent (carries_onDoneTransfer dst none)
      · exact silent (.refl s)
      · exact silent (.refl s)
      · exact silent (carries_onDoneTransfer dst (some res))
  | appendEntries req =>
      rcases res with _ | ⟨_ | res | _⟩
      · exact onAppendFailed_answers s dst req quick
      · exact Carries.answers (t := s) (.refl s) rfl
      · exact onAppendEntries_answers s dst req res quick
      · exact Carries.answers (t := s) (.refl s) rfl

/-! ## Requests for a configuration -/

private theorem addServer_plan (address : Bytes) {p : Plan} (hp : (s.addServer address).plan = some p) :
    s.plan = some p ∨ s.recfg = none ∧ p.matchIndex = 0 := by
  revert hp
  unfold addServer
  dsimp only
  repeat' split
  all_goals try exact .inl
  · intro hp
    have hbegun := (carries_doDataTransfer _).before hp
    refine .inr ⟨by simp_all, ?_⟩
    rw [← Option.some.inj hbegun]
    rfl
  · intro hp
    have hbegun := (carries_appendEntriesTo _).before hp
    refine .inr ⟨by simp_all, ?_⟩
    rw [← Option.some.inj hbegun]
    rfl

private theorem delServer_plan (address : Bytes) {p : Plan} (hp : (s.delServer address).plan = some p) :
    s.plan = some p ∨ p.type = .serverRemoval := by
  revert hp
  unfold delServer
  dsimp only
  repeat' split
  all_goals try exact .inl
  · intro hp
    refine .inr ?_
    rw [← Option.some.inj hp]
    rfl
  · intro hp
    have hbefore := (carries_leadershipTransfer _).before hp
    exact .inl hbefore
  · intro hp
    have hbegun := carries_appendEntries.before hp
    refine .inr ?_
    rw [← Option.some.inj hbegun]
    rfl

end Raft

/-! ## Runs -/

/-- An addition: how many calls there were when it began, and the last match that was answered. -/
structure Addition where
  since : Nat
  answered : Option Nat
  deriving DecidableEq, Repr

def Addition.CaughtUp (a : Addition) (last : Nat) : Prop :=
  match a.answered with
  | none => False
  | some m => m ≤ last ∧ last ≤ m + 5

instance (a : Addition) (last : Nat) : Decidable (a.CaughtUp last) := by
  unfold Addition.CaughtUp
  split <;> infer_instance

def Event.callback : Event → Bool
  | .succeed .. | .fail .. => true
  | _ => false

namespace World

variable {w w' : World}

/-- The addition of each server that leads one, kept up over the steps of a run. -/
def noteAddition (w : World) (e : Event) (_ : World) (a : Bytes → Addition) : Bytes → Addition :=
  match e with
  | .addServer id _ =>
      if (w.servers id).recfg.isNone then Function.update a id ⟨w.calls.length, none⟩ else a
  | .succeed i _ =>
      match w.calls[i]? with
      | none => a
      | some c =>
          match (w.servers c.src).confirmed c.dst c.request c.response with
          | none => a
          | some m =>
              if (a c.src).since ≤ i then
                Function.update a c.src { a c.src with answered := some m }
              else a
  | _ => a

/-- No success of a call that was made before the addition counts for it. -/
def InTime (p : World × (Bytes → Addition)) : Event → Prop
  | .succeed i _ => ∀ c ∈ p.1.calls[i]?,
      ((p.1.servers c.src).confirmed c.dst c.request c.response).isSome →
      (p.2 c.src).since ≤ i
  | _ => True

instance (p : World × (Bytes → Addition)) : (e : Event) → Decidable (InTime p e)
  | .succeed .. => by unfold InTime; infer_instance
  | .electionTimeout _ | .heartbeatTimeout _ | .leadershipTransferTimeout _ | .append ..
  | .transferLeadership .. | .addServer .. | .delServer .. | .popCommitted _ | .applyNext _
  | .compact _ | .writeFiles .. | .handle .. | .fail .. => isTrue trivial

def Matched (p : World × (Bytes → Addition)) : Prop :=
  ∀ id q, (p.1.servers id).plan = some q → q.entryAdded = false → q.type = .serverAddition →
    q.matchIndex = (p.2 id).answered.getD 0

private theorem noteAddition_of_ne {e : Event} {a : Bytes → Addition} {id j : Bytes}
    (hactor : w.actor e = some id) (hne : j ≠ id) : noteAddition w e w' a j = a j := by
  cases e with
  | addServer i address =>
      obtain rfl : i = id := by simpa [actor] using hactor
      unfold noteAddition
      dsimp only
      split
      · exact Function.update_of_ne hne _ _
      · rfl
  | succeed i quick =>
      unfold noteAddition
      dsimp only
      cases hc : w.calls[i]? with
      | none => rfl
      | some c =>
          obtain rfl : c.src = id := by simpa [actor, hc] using hactor
          dsimp only
          cases (w.servers c.src).confirmed c.dst c.request c.response with
          | none => rfl
          | some m =>
              dsimp only
              split
              · exact Function.update_of_ne hne _ _
              · rfl
  | _ => rfl

private theorem counted_succeed {a : Bytes → Addition} {q : Plan} {i : Nat} {c : Call}
    (h : (w.servers c.src).Counted c.dst c.request c.response q) (quick : Bool)
    (hc : w.calls[i]? = some c) (hin : InTime (w, a) (.succeed i quick))
    (hmatched : (w.servers c.src).plan = some q → q.matchIndex = (a c.src).answered.getD 0) :
    q.matchIndex = (noteAddition w (.succeed i quick) w' a c.src).answered.getD 0 := by
  simp only [noteAddition, hc]
  rcases h with ⟨hnone, hsame⟩ | hsome
  · rw [hnone]
    exact hmatched hsame
  · have hsince := hin c hc (by rw [hsome]; rfl)
    rw [hsome]
    simp [if_pos hsince]

private theorem reaction_plan {e : Event} {id : Bytes} {a : Bytes → Addition} {q : Plan}
    (hactor : w.actor e = some id) (hin : InTime (w, a) e)
    (hq : (w.reaction e (w.servers id)).plan = some q) (hadded : q.entryAdded = false)
    (htype : q.type = .serverAddition)
    (hmatched : (w.servers id).plan = some q → q.matchIndex = (a id).answered.getD 0) :
    q.matchIndex = (noteAddition w e w' a id).answered.getD 0 := by
  have kept : Carries (w.servers id) (w.reaction e (w.servers id)) →
      noteAddition w e w' a = a → q.matchIndex = (noteAddition w e w' a id).answered.getD 0 := by
    intro hcarries hnote
    rw [hnote]
    exact hmatched (hcarries.before hq)
  cases e with
  | electionTimeout i =>
      exact kept ((carries_preVote false).after (.of_eq rfl rfl)) rfl
  | heartbeatTimeout i => exact kept (carries_appendEntries.after (.of_eq rfl rfl)) rfl
  | leadershipTransferTimeout i =>
      refine kept ?_ rfl
      simp only [reaction]
      split
      · exact .refl _
      · exact carries_onLeadershipTransferTimeout _
  | append i data => exact kept (carries_append data) rfl
  | transferLeadership i address => exact kept (carries_leadershipTransfer address) rfl
  | addServer i address =>
      obtain rfl : i = id := by simpa [actor] using hactor
      simp only [noteAddition]
      rcases addServer_plan address hq with hsame | ⟨hnone, hzero⟩
      · have hsome : (w.servers i).recfg.isNone = false := by
          cases hrecfg : (w.servers i).recfg with
          | none => simp [plan, hrecfg] at hsame
          | some r => rfl
        rw [hsome]
        exact hmatched hsame
      · rw [hnone, hzero]
        simp
  | delServer i address =>
      rcases delServer_plan address hq with hsame | hremoval
      · exact hmatched hsame
      · rw [hremoval] at htype
        cases htype
  | popCommitted i => exact kept carries_popCommitted rfl
  | applyNext i => exact kept carries_applyNext rfl
  | compact i => exact kept carries_compact rfl
  | writeFiles i files => exact kept (.of_eq rfl rfl) rfl
  | handle i recent =>
      simp only [reaction] at hq
      refine hmatched ?_
      split at hq
      · exact hq
      · rename_i c hc
        rcases serve_plan (s := w.servers id) recent c.request with hsame | hnone
        · rwa [← hsame]
        · rw [hnone] at hq
          cases hq
  | succeed i quick =>
      cases hc : w.calls[i]? with
      | none => simp [actor, hc] at hactor
      | some c =>
          obtain rfl : c.src = id := by simpa [actor, hc] using hactor
          simp only [reaction, hc] at hq
          have hcounted := (finish_answers _ _ quick c.request c.response).counted q hq hadded htype
          exact counted_succeed hcounted quick hc hin hmatched
  | fail i quick =>
      cases hc : w.calls[i]? with
      | none => simp [actor, hc] at hactor
      | some c =>
          obtain rfl : c.src = id := by simpa [actor, hc] using hactor
          simp only [reaction, hc] at hq
          exact hmatched ((finish_answers _ _ quick c.request none).counted q hq hadded htype).fail

private theorem matched_step {p q : World × (Bytes → Addition)} {e : Event} (h : Matched p)
    (hin : InTime p e) (hstep : noted step noteAddition p e = some q) : Matched q := by
  obtain ⟨hworld, hnote⟩ := noted_eq_some.mp hstep
  obtain ⟨id, hactor, -, hq⟩ := step_reaction hworld
  intro j r hr hadded htype
  rw [hnote]
  by_cases hj : j = id
  · subst hj
    rw [hq, act_self] at hr
    exact reaction_plan hactor hin hr hadded htype (h j r · hadded htype)
  · rw [hq, act_of_ne _ _ hj] at hr
    rw [noteAddition_of_ne hactor hj]
    exact h j r hr hadded htype

private theorem caughtUp_iff {n : Addition} {last : Nat} (hlast : last < 2 ^ 64)
    (hclose : (last + (2 ^ 64 - n.answered.getD 0)) % 2 ^ 64 ≤ 5) :
    n.CaughtUp last ↔ (5 < last ∨ n.answered.isSome) ∧ ∀ m ∈ n.answered, m ≤ last := by
  unfold Addition.CaughtUp
  cases hanswered : n.answered with
  | none =>
      rw [hanswered] at hclose
      simp only [Option.getD_none] at hclose
      simp
      omega
  | some m =>
      rw [hanswered] at hclose
      simp only [Option.getD_some] at hclose
      simp
      omega

/--
In a run in which no success of an earlier call counts for an addition, a
server that a callback takes in has answered with a match close to the end of
the log exactly when it has answered at all or the log has more than five
entries, and its match is not above the last index.
-/
theorem added_caught_up {p p' p'' : World × (Bytes → Addition)} {es : List Event} {e : Event}
    {id address : Bytes} (hstart : ∀ id, (p.1.servers id).recfg = none)
    (halong : Along (noted step noteAddition) InTime p es) (hin : InTime p' e)
    (hrun : run (noted step noteAddition) p es = some p')
    (hstep : noted step noteAddition p' e = some p'') (hcallback : e.callback)
    (hlast : (p'.1.servers id).log.lastEntryIndex < 2 ^ 64)
    (hold : address ∉ (p'.1.servers id).keys) (hnew : address ∈ (p''.1.servers id).keys) :
    (p''.2 id).CaughtUp (p'.1.servers id).log.lastEntryIndex ↔
      (5 < (p'.1.servers id).log.lastEntryIndex ∨ (p''.2 id).answered.isSome) ∧
        ∀ m ∈ (p''.2 id).answered, m ≤ (p'.1.servers id).log.lastEntryIndex := by
  have hmatched : Matched p' := by
    refine run_invariant (fun _ _ _ hin h hstep => matched_step h hin hstep) halong ?_ hrun
    intro j q hq
    simp [plan, hstart j] at hq
  obtain ⟨hworld, hnote⟩ := noted_eq_some.mp hstep
  obtain ⟨j, hactor, -, hw⟩ := step_reaction hworld
  have hid : id = j := by
    by_contra hne
    rw [hw, act_of_ne _ _ hne] at hnew
    exact hold hnew
  subst hid
  rw [hw, act_self] at hnew
  have hgrown : (p'.1.reaction e (p'.1.servers id)).keys ≠ (p'.1.servers id).keys := fun h =>
    hold (h ▸ hnew)
  suffices h : ∃ q : Plan, q.matchIndex = (p''.2 id).answered.getD 0 ∧
      ((p'.1.servers id).log.lastEntryIndex + (2 ^ 64 - q.matchIndex)) % 2 ^ 64 ≤ 5 by
    obtain ⟨q, hq, hclose⟩ := h
    exact caughtUp_iff hlast (hq ▸ hclose)
  rw [hnote]
  cases e with
  | succeed i quick =>
      cases hc : p'.1.calls[i]? with
      | none => simp [actor, hc] at hactor
      | some c =>
          obtain rfl : c.src = id := by simpa [actor, hc] using hactor
          simp only [reaction, hc] at hgrown
          rcases (finish_answers _ c.dst quick c.request c.response).keys with hsame | ⟨q, hq⟩
          · exact absurd hsame hgrown
          · refine ⟨q, counted_succeed hq.counted quick hc hin fun hplan => ?_, hq.close⟩
            exact hmatched _ q hplan hq.entryAdded hq.type
  | fail i quick =>
      cases hc : p'.1.calls[i]? with
      | none => simp [actor, hc] at hactor
      | some c =>
          obtain rfl : c.src = id := by simpa [actor, hc] using hactor
          simp only [reaction, hc] at hgrown
          rcases (finish_answers _ c.dst quick c.request none).keys with hsame | ⟨q, hq⟩
          · exact absurd hsame hgrown
          · exact ⟨q, hmatched _ q hq.counted.fail hq.entryAdded hq.type, hq.close⟩
  | _ => cases hcallback

def leaderAndServer : World :=
  let w := cluster ["a:1"] false
  { w with
    ids := [ascii "a:1", ascii "10.0.0.4:1"]
    servers := fun id => { w.servers id with serverCatchUpRounds := 2 } }

def answeredAddition : List Event :=
  [.electionTimeout (ascii "a:1"), .addServer (ascii "a:1") (ascii "10.0.0.4:1"),
    .handle 0 false, .succeed 0 true, .handle 1 false]

theorem added_caught_up_answered :
    ∃ p q, run (noted step noteAddition) (leaderAndServer, fun _ => ⟨0, none⟩)
        answeredAddition = some p ∧
      noted step noteAddition p (.succeed 1 true) = some q ∧
      ascii "10.0.0.4:1" ∈ (q.1.servers (ascii "a:1")).keys ∧
      (q.2 (ascii "a:1")).CaughtUp (p.1.servers (ascii "a:1")).log.lastEntryIndex := by
  have hrun := (Option.some_get (show (run (noted step noteAddition)
    (leaderAndServer, fun _ => ⟨0, none⟩) answeredAddition).isSome by decide)).symm
  have hstep := (Option.some_get (show (noted step noteAddition ((run (noted step noteAddition)
    (leaderAndServer, fun _ => ⟨0, none⟩) answeredAddition).get (by decide))
    (.succeed 1 true)).isSome by decide)).symm
  have hold : ascii "10.0.0.4:1" ∉ (((run (noted step noteAddition)
      (leaderAndServer, fun _ => ⟨0, none⟩) answeredAddition).get (by decide)).1.servers
        (ascii "a:1")).keys := by decide
  refine ⟨_, _, hrun, hstep, by decide, ?_⟩
  exact (added_caught_up (fun _ => rfl) (by decide) (by decide) hrun hstep rfl (by decide)
    hold (by decide)).mpr (by decide)

def unansweredAddition : List Event :=
  [.electionTimeout (ascii "a:1"), .addServer (ascii "a:1") (ascii "10.0.0.4:1"), .fail 0 true,
    .fail 1 true, .fail 2 true, .fail 3 true, .fail 4 true, .fail 5 true, .fail 6 true,
    .fail 7 true, .fail 8 true]

theorem unanswered_added :
    ¬ ∀ (p p' p'' : World × (Bytes → Addition)) (es : List Event) (e : Event)
      (id address : Bytes), (∀ id, (p.1.servers id).recfg = none) →
      run (noted step noteAddition) p es = some p' → noted step noteAddition p' e = some p'' →
      e.callback → (p'.1.servers id).log.lastEntryIndex < 2 ^ 64 →
      address ∉ (p'.1.servers id).keys → address ∈ (p''.1.servers id).keys →
      (p''.2 id).CaughtUp (p'.1.servers id).log.lastEntryIndex := by
  intro h
  have hrun := (Option.some_get (show (run (noted step noteAddition)
    (cluster ["a:1"] false, fun _ => ⟨0, none⟩) unansweredAddition).isSome by decide)).symm
  have hstep := (Option.some_get (show (noted step noteAddition ((run (noted step noteAddition)
    (cluster ["a:1"] false, fun _ => ⟨0, none⟩) unansweredAddition).get (by decide))
    (.fail 9 true)).isSome by decide)).symm
  have hcaught := h _ _ _ unansweredAddition (.fail 9 true) (ascii "a:1") (ascii "10.0.0.4:1")
    (fun _ => rfl) hrun hstep rfl (by decide) (by decide) (by decide)
  exact absurd hcaught (by decide)

end World

end Draft
