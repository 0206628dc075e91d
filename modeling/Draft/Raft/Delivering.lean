import Draft.Raft.Reconfiguring
import Draft.Raft.Sending

/-!
# Transfers of one leader

The iterator, the stream, the last name and the counters are those of the
leader, not of a transfer.  While no transfer begins before the one before it
has ended, every follower is sent the whole of each transfer in order, and only
then its end.
-/

namespace Draft

open Consensus

/-! ## Requests and answers of a transfer -/

/-- `add_server` goes on to a data transfer. -/
def Raft.addsServer (s : Raft) (name : Bytes) : Bool :=
  s.role = .leader && !s.contains (s.makeId name) && isIpv4 (s.makeId name) && s.recfg.isNone &&
    s.logCompactionEnabled

/-- The answer names an entry that the leader no longer has. -/
def Raft.lacks (s : Raft) (res : AppendEntriesRes) : Bool :=
  !res.success && !(s.currTerm < res.term) && (s.log.get (res.matchIndex + 1)).isNone

def Event.writesFiles (id : Bytes) : Event → Bool
  | .writeFiles i _ => i = id
  | _ => false

def Response.accepts : Response → Bool
  | .data res => res.success
  | _ => false

private theorem Response.of_accepts {res : Option Response} (h : res.any Response.accepts) :
    ∃ r, res = some (.data r) ∧ r.success := by
  cases res with
  | none => cases h
  | some res =>
      cases res with
      | data r => exact ⟨r, rfl, h⟩
      | vote r => cases h
      | append r => cases h

def Parcel.isDone : Parcel → Bool
  | .chunk .. => false
  | .done _ => true

def Parcel.toNode (node : Bytes) (p : Bytes × Parcel) : Option Parcel :=
  if p.1 = node then some p.2 else none

def Call.parcel (id : Bytes) (c : Call) : Option (Bytes × Parcel) :=
  if c.src = id then c.request.parcel.map (c.dst, ·) else none

/-- The parcel in a call whose callback has not run. -/
def Call.awaited (id : Bytes) (c : Call) : Option (Bytes × Parcel) :=
  if c.done then none else c.parcel id

namespace World

variable (w : World) (id : Bytes)

def parcels : List (Bytes × Parcel) := w.calls.filterMap (·.parcel id)

def sentTo (node : Bytes) : List Parcel := (w.parcels id).filterMap (Parcel.toNode node)

def awaited : List (Bytes × Parcel) := w.calls.filterMap (·.awaited id)

def begins : Event → Bool
  | .addServer i name => i = id && (w.servers id).addsServer name
  | .succeed i _ =>
      (w.calls[i]?).any fun c => c.src = id &&
        match c.request, c.response with
        | .appendEntries _, some (.append res) => (w.servers id).lacks res
        | _, _ => false
  | _ => false

def answers : Event → Option (Parcel × Option Response)
  | .succeed i _ => (w.calls[i]?).bind fun c => (c.parcel id).map fun p => (p.2, c.response)
  | .fail i _ => (w.calls[i]?).bind fun c => (c.parcel id).map fun p => (p.2, none)
  | _ => none

/-- The leader stays one, its files stay as they are and no call of a transfer fails. -/
structure Steady (id : Bytes) (w : World) (e : Event) : Prop where
  leads : (w.step e).all fun w' => (w'.servers id).role = .leader
  files : e.writesFiles id = false
  answered : (w.answers id e).all fun a => a.2.any Response.accepts

/--
No transfer begins before the last one has ended, and no empty file is taken
for one that goes on.
-/
structure Apart (id : Bytes) (w : World) (e : Event) : Prop where
  alone : w.begins id e = true → w.awaited id = []
  sized : (w.answers id e).any (!·.1.isDone) = true → ¬ (w.servers id).sender.Misjudged

structure Resting (id : Bytes) (w : World) : Prop where
  role : (w.servers id).role = .leader
  sent : (w.servers id).sent = []
  awaited : w.awaited id = []
  closed : (w.servers id).sender.fin.path = none
  tree : (w.servers id).sender.Tree

end World

namespace Sender

variable (s : Sender)

def requests : List Parcel := s.plan.zipIdx.map fun p => .chunk (p.2 + 1) p.1.1 p.1.2

def whole (name : Bytes) : List Parcel := s.requests ++ [.done name]

/-- Whole transfers, one after another, and as much of the next as is sent. -/
def Intact (parcels : List Parcel) : Prop :=
  ∃ (names : List Bytes) (name : Bytes) (k : Nat),
    parcels = names.flatMap s.whole ++ (s.whole name).take k

variable {s}

private theorem requests_take {k : Nat} {p : Bytes × Bytes} {rest : List (Bytes × Bytes)}
    (h : s.plan.drop k = p :: rest) :
    s.requests.take (k + 1) = s.requests.take k ++ [.chunk (k + 1) p.1 p.2] ∧
      s.plan.drop (k + 1) = rest := by
  have hlt : k < s.plan.length := by
    by_contra hge
    rw [List.drop_eq_nil_of_le (by omega)] at h
    cases h
  rw [List.drop_eq_getElem_cons hlt] at h
  injection h with hget hrest
  refine ⟨?_, hrest⟩
  have hlength : k < s.requests.length := by simpa [requests] using hlt
  rw [List.take_add_one, List.getElem?_eq_getElem hlength]
  simp [requests, hget]

private theorem requests_all {k : Nat} (h : s.plan.drop k = []) : s.requests.take k = s.requests := by
  rw [List.take_of_length_le]
  simpa [requests] using List.drop_eq_nil_iff.mp h

theorem Intact.head {p q : Parcel} {ps qs : List Parcel} (h : s.Intact (q :: qs))
    (hrequests : s.requests = p :: ps) : q = p := by
  obtain ⟨names, name, k, heq⟩ := h
  have hwhole : ∀ name, s.whole name = p :: (ps ++ [.done name]) := by
    intro name
    rw [whole, hrequests, List.cons_append]
  cases names with
  | nil =>
      cases k with
      | zero => cases heq
      | succ k =>
          rw [hwhole, List.flatMap_nil, List.nil_append, List.take_succ_cons] at heq
          exact (List.cons.inj heq).1
  | cons n names =>
      rw [List.flatMap_cons, hwhole] at heq
      exact (List.cons.inj heq).1

/-! ## The stages of a transfer -/

inductive Stage (s t : Sender) : List (Bytes × Parcel) → List (Bytes × Parcel) → Prop
  | idle (hclosed : t.fin.path = none) : Stage s t [] []
  | sending {node : Bytes} {p : Parcel} (hdone : p.isDone = false) (hpos : 0 < t.dataTransferId)
      (hwithin : t.Within) (hleft : t.Left (s.plan.drop t.dataTransferId)) :
      Stage s t [(node, p)] ((s.requests.take t.dataTransferId).map (node, ·))
  | ending {node name : Bytes} (hclosed : t.fin.path = none) :
      Stage s t [(node, .done name)] ((s.whole name).map (node, ·))

end Sender

theorem Sender.exists_of_regular {s : Sender} {path : Bytes} (h : s.isRegularFile path = true) :
    s.exists_ path = true := by
  unfold Sender.isRegularFile at h
  unfold Sender.exists_
  split at h
  · rw [‹s.node path = _›]
    rfl
  · cases h

namespace Raft

variable {s : Raft} {files t : Sender} {node : Bytes}

private theorem doDataTransfer_sends {rest : List (Bytes × Bytes)} {k : Nat}
    (hsends : s.doDataTransfer node = s.sendChunk node) (hid : s.sender.dataTransferId = k)
    (hsame : files.SameFiles s.sender) (hplan : files.plan.drop k = rest)
    (hnext : Sender.Sends { s.sender with dataTransferId := k + 1 } rest) :
    ∃ p, (s.doDataTransfer node).sending.2.2 = s.sending.2.2 ++ [(node, p)] ∧
      files.SameFiles (s.doDataTransfer node).sender ∧
      files.Stage (s.doDataTransfer node).sender [(node, p)]
        ((files.requests.take k).map (node, ·) ++ [(node, p)]) := by
  obtain ⟨left, hrest, hleft⟩ := hnext.left
  have hsending := sendChunk_sending (s := s) node
  rw [hid] at hsending
  have hsender := congrArg Prod.fst hsending
  dsimp only [sending] at hsender
  have hnumber : (s.sendChunk node).sender.dataTransferId = k + 1 := by
    rw [hsender]
    exact hnext.dataTransferId
  obtain ⟨htake, hdrop⟩ := Sender.requests_take (hplan.trans hrest)
  have hsame' : files.SameFiles { s.sender with dataTransferId := k + 1 } :=
    ⟨hsame.files, hsame.path⟩
  rw [hsends]
  refine ⟨_, congrArg (·.2.2) hsending, ?_, ?_⟩
  · rw [hsender]
    exact hsame'.trans hnext.same
  · have hstage := @Sender.Stage.sending files (s.sendChunk node).sender node
      (.chunk (k + 1) (Sender.transfer { s.sender with dataTransferId := k + 1 }).2.1
        (Sender.transfer { s.sender with dataTransferId := k + 1 }).2.2) rfl
      (by rw [hnumber]; exact Nat.succ_pos k) (by rw [hsender]; exact hnext.within)
      (by rw [hnumber, hdrop, hsender]; exact hleft)
    rw [hnumber, htake, List.map_append] at hstage
    exact hstage

private theorem doDataTransfer_begins (node : Bytes) (hrole : s.role = .leader)
    (hinit : s.sender = t.initTransfer)
    (hsame : files.SameFiles t) (htree : files.Tree) (hclosed : t.fin.path = none) :
    ∃ current, (s.doDataTransfer node).sending.2.2 = s.sending.2.2 ++ current ∧
      files.SameFiles (s.doDataTransfer node).sender ∧
      files.Stage (s.doDataTransfer node).sender current current := by
  have hsame' : files.SameFiles s.sender := by
    rw [hinit]
    exact ⟨hsame.files, hsame.path⟩
  by_cases hguard : s.sender.pending = [] ∧ s.newly node ∧ ¬ s.sender.exists_ s.sender.path ∧
      (s.findNode node).all (!·.transferDataTo)
  · have hskip : (s.doDataTransfer node).sending = s.sending := by
      unfold doDataTransfer
      rw [if_neg (by simp [hrole]), if_pos hguard]
      exact appendEntriesTo_frame .sending node
    refine ⟨[], by rw [hskip, List.append_nil], ?_, ?_⟩
    · rw [sender_of_sending hskip]
      exact hsame'
    · refine .idle ?_
      rw [sender_of_sending hskip, hinit]
      exact hclosed
  · have hsends : s.doDataTransfer node = s.sendChunk node := by
      unfold doDataTransfer
      rw [if_neg (by simp [hrole]), if_neg hguard]
    let u : Sender := { s.sender with dataTransferId := 0 + 1 }
    have hsame'' : files.SameFiles u := ⟨hsame'.files, hsame'.path⟩
    have hnext : u.Sends u.plan := by
      refine Sender.sends_plan ?_ (hsame''.tree htree) ?_
      · change s.sender.fin.path = none
        rw [hinit]
        exact hclosed
      · rw [hsame''.path, hsame''.isDirectory, hsame''.below, ← hsame.path, ← hsame.isDirectory,
          ← hsame.below]
        change s.sender.pending = _
        rw [hinit]
        rfl
    rw [hsame''.plan] at hnext
    obtain ⟨p, hparcel, hfiles, hstage⟩ := doDataTransfer_sends (k := 0) hsends
      (by rw [hinit]; rfl) hsame' List.drop_zero hnext
    exact ⟨[(node, p)], hparcel, hfiles, by simpa using hstage⟩

private theorem onDataTransfer_stage (node : Bytes) {res : DataRes} (hrole : s.role = .leader)
    (hsuccess : res.success)
    (hsame : files.SameFiles s.sender) (htree : files.Tree) (hsize : ¬ s.sender.Misjudged)
    (hwithin : s.sender.Within) (hleft : s.sender.Left (files.plan.drop s.sender.dataTransferId)) :
    ∃ p, (s.onDataTransfer node (some res)).sending.2.2 = s.sending.2.2 ++ [(node, p)] ∧
      files.SameFiles (s.onDataTransfer node (some res)).sender ∧
      files.Stage (s.onDataTransfer node (some res)).sender [(node, p)]
        ((files.requests.take s.sender.dataTransferId).map (node, ·) ++ [(node, p)]) := by
  obtain ⟨hsame', hid, hgoes⟩ := hleft.answered hwithin (hsame.tree htree) hsize
  let t : Raft := { s with sender := s.sender.advance }
  have hanswer : s.onDataTransfer node (some res) = t.onDataSuccess node := if_pos hsuccess
  rw [hanswer]
  have hadvanced : files.SameFiles t.sender := hsame.trans hsame'
  rcases hgoes with ⟨hfinished, hplan, hclosed⟩ | ⟨hfinished, hnext⟩
  · let sender := if t.sender.isRegularFile t.sender.path then t.sender.close else t.sender
    have hend : t.onDataSuccess node = Raft.doDoneTransfer { t with sender := sender } node :=
      if_pos hfinished
    have hfiles : files.SameFiles sender := by
      refine hadvanced.trans ?_
      dsimp only [sender]
      split
      · exact ⟨rfl, rfl⟩
      · exact .refl _
    have hshut : sender.fin.path = none := by
      dsimp only [sender]
      split
      · rfl
      · exact hclosed (Bool.eq_false_of_not_eq_true ‹_›)
    have hsending := doDoneTransfer_sending (s := { t with sender := sender }) node
    have hsender := congrArg Prod.fst hsending
    dsimp only [sending] at hsender
    rw [hend]
    refine ⟨_, congrArg (·.2.2) hsending, ?_, ?_⟩
    · rw [hsender]
      exact ⟨hfiles.files, hfiles.path⟩
    · rw [Sender.requests_all hplan]
      have hstage := @Sender.Stage.ending files
        (Raft.doDoneTransfer { t with sender := sender } node).sender node sender.last
        (by rw [hsender]; exact hshut)
      rw [Sender.whole, List.map_append] at hstage
      exact hstage
  · have hgoesOn : t.onDataSuccess node = t.doDataTransfer node :=
      if_neg (by rw [hfinished]; exact Bool.false_ne_true)
    have hsends : t.doDataTransfer node = t.sendChunk node := by
      unfold doDataTransfer
      rw [if_neg (by simpa [t] using hrole), if_neg]
      rintro ⟨hpending, -, hexists, -⟩
      simp only [transferFinished, Bool.and_eq_false_iff, decide_eq_false_iff_not,
        Bool.or_eq_false_iff, Bool.not_eq_false'] at hfinished
      rcases hfinished with hne | ⟨hfile, -⟩
      · exact hne hpending
      · exact hexists (Sender.exists_of_regular hfile)
    rw [hgoesOn]
    exact doDataTransfer_sends hsends hid hadvanced rfl (hnext _)

private theorem onDoneTransfer_stage (node : Bytes) {res : DataRes} (hsuccess : res.success)
    (hsame : files.SameFiles s.sender) (hclosed : s.sender.fin.path = none) :
    (s.onDoneTransfer node (some res)).sending.2.2 = s.sending.2.2 ∧
      files.SameFiles (s.onDoneTransfer node (some res)).sender ∧
      files.Stage (s.onDoneTransfer node (some res)).sender [] [] := by
  have hanswer : s.onDoneTransfer node (some res) =
      (s.initTransfer.modifyNode node fun n => { n with transferDataTo := false }).appendEntriesTo
        node := if_pos hsuccess
  have hsending : (s.onDoneTransfer node (some res)).sending = s.initTransfer.sending := by
    rw [hanswer]
    exact (appendEntriesTo_frame .sending node).trans (modifyNode_frame .sending node _)
  refine ⟨congrArg (·.2.2) hsending, ?_, .idle ?_⟩
  · rw [sender_of_sending hsending]
    exact ⟨hsame.files, hsame.path⟩
  · rw [sender_of_sending hsending]
    exact hclosed

/-! ## What begins no transfer -/

private theorem addServer_sending {name : Bytes} (h : ¬ (s.role = .leader ∧ s.addsServer name)) :
    (s.addServer name).sending = s.sending := by
  unfold addServer
  dsimp only
  split
  · rfl
  split
  · rfl
  split
  · rfl
  split
  · rfl
  split
  · rename_i hrole hcontains hipv4 hrecfg hcompaction
    refine absurd ⟨not_not.mp hrole, ?_⟩ h
    have hcompaction : s.logCompactionEnabled = true := hcompaction
    simp_all [addsServer]
  · exact appendEntriesTo_frame .sending _

private theorem onAppendEntries_sending {res : Option AppendEntriesRes} {quick : Bool}
    (h : ¬ (s.role = .leader ∧ res.any s.lacks)) :
    (s.onAppendEntries node res quick).sending = s.sending := by
  unfold onAppendEntries
  split
  · split
    · exact handleCatchUpServerAppendEntries_frame .sending rfl quick
    · rfl
  · rename_i res
    split
    · rfl
    split
    · exact onAppendSuccess_frame .sending rfl node res.matchIndex quick
    split
    · exact stepDown_frame .sending rfl rfl _ _
    · rename_i hrole hsuccess hterm
      unfold onAppendInconsistent
      dsimp only
      split
      · rename_i hget
        refine absurd ⟨not_not.mp hrole, ?_⟩ h
        have hget : (s.log.get (res.matchIndex + 1)).isNone := hget
        simp_all [lacks]
      · exact (appendEntriesTo_frame .sending node).trans (modifyNode_frame .sending node _)

private theorem serve_sending {recent : Bool} {req : Request}
    (hrole : (s.serve recent req).1.role = .leader) :
    (s.serve recent req).1.sending = s.sending := by
  cases req with
  | doneTransfer req =>
      have hsame : (s.handleDoneTransfer req).1 = s := handleDoneTransfer_unheeded hrole
      exact congrArg sending hsame
  | _ => exact serve_frame .sending recent (by simp [Request.serves])

private theorem finish_sending {quick : Bool} {req : Request} {res : Option Response}
    (hparcel : req.parcel = none)
    (hlacks : ∀ r a, req = .appendEntries r → res = some (.append a) →
      ¬ (s.role = .leader ∧ s.lacks a)) :
    (s.finish node quick req res).sending = s.sending := by
  unfold finish
  split
  all_goals first
    | exact onTimeoutNow_frame .sending _ _
    | exact onPreVote_frame .sending rfl rfl rfl _
    | exact onRequestVote_frame .sending rfl rfl _
    | exact onAppendEntries_sending (hlacks _ _ rfl rfl)
    | exact onAppendEntries_sending (by simp)
    | exact absurd hparcel (Option.some_ne_none _)
    | rfl

/-! ## What begins one -/

private theorem addServer_begins {name : Bytes} (h : s.addsServer name) :
    ∃ (t : Raft) (node : Bytes), s.addServer name = t.doDataTransfer node ∧ t.role = .leader ∧
      t.sender = s.sender.initTransfer ∧ t.sent = s.sent := by
  simp only [addsServer, Bool.and_eq_true, decide_eq_true_eq, Bool.not_eq_true'] at h
  obtain ⟨⟨⟨⟨hrole, hcontains⟩, hipv4⟩, hrecfg⟩, hcompaction⟩ := h
  let n := s.makeNode (s.makeId name) defaultRpcPort
  refine ⟨(s.makeConfig n .serverAddition).initTransfer, n.id, ?_, hrole, rfl, rfl⟩
  unfold addServer
  dsimp only
  rw [if_neg (by simp [hrole]), if_neg (by simp [hcontains]), if_neg (by simp [hipv4]),
    if_neg (by simpa using hrecfg)]
  exact if_pos hcompaction

private theorem onAppendEntries_begins (node : Bytes) {res : AppendEntriesRes} (quick : Bool)
    (hrole : s.role = .leader)
    (h : s.lacks res) :
    ∃ t : Raft, s.onAppendEntries node (some res) quick = t.doDataTransfer node ∧ t.role = .leader ∧
      t.sender = s.sender.initTransfer ∧ t.sent = s.sent := by
  simp only [lacks, Bool.and_eq_true, decide_eq_false_iff_not, Bool.not_eq_true'] at h
  obtain ⟨⟨hsuccess, hterm⟩, hget⟩ := h
  refine ⟨((s.modifyNode node fun n => { n with nextIndex := res.matchIndex + 1 }).initTransfer
    ).modifyNode node fun n => { n with transferDataTo := true }, ?_, hrole, rfl, rfl⟩
  unfold onAppendEntries
  dsimp only
  rw [if_neg (by simp [hrole]), if_neg (by simp [hsuccess]), if_neg hterm]
  exact if_pos hget

end Raft

/-! ## Calls -/

section Calls

variable {α β : Type*} {g : α → Option β} {l : List α} {i : Nat} {a b : α}

private theorem filterMap_set_same (hget : l[i]? = some a) (h : g b = g a) :
    (l.set i b).filterMap g = l.filterMap g := by
  obtain ⟨hlt, rfl⟩ := List.getElem?_eq_some_iff.mp hget
  rw [List.set_eq_take_append_cons_drop, if_pos hlt]
  conv_rhs => rw [← List.take_append_drop i l, List.drop_eq_getElem_cons hlt]
  simp only [List.filterMap_append, List.filterMap_cons, h]

private theorem filterMap_set_only {x y : β} (hget : l[i]? = some a) (ha : g a = some x) (hb : g b = none)
    (honly : l.filterMap g = [y]) : x = y ∧ (l.set i b).filterMap g = [] := by
  obtain ⟨hlt, rfl⟩ := List.getElem?_eq_some_iff.mp hget
  rw [← List.take_append_drop i l, List.drop_eq_getElem_cons hlt, List.filterMap_append,
    List.filterMap_cons, ha] at honly
  rw [List.set_eq_take_append_cons_drop, if_pos hlt, List.filterMap_append, List.filterMap_cons, hb]
  have hlength := congrArg List.length honly
  simp only [List.length_append, List.length_cons, List.length_nil] at hlength
  have hleft : (l.take i).filterMap g = [] := List.length_eq_zero_iff.mp (by omega)
  have hright : (l.drop (i + 1)).filterMap g = [] := List.length_eq_zero_iff.mp (by omega)
  rw [hleft, hright] at honly
  refine ⟨by simpa using honly, ?_⟩
  simp [hleft, hright]

end Calls

namespace World

variable {w w' : World} {id : Bytes} {e : Event}

private theorem act_parcels (w : World) (id : Bytes) (t : Raft) :
    (w.act id t).parcels id = w.parcels id ++ t.sending.2.2 ∧
      (w.act id t).awaited id = w.awaited id ++ t.sending.2.2 := by
  have hsent : ∀ l : List Outgoing,
      (l.map (Outgoing.call id)).filterMap (·.parcel id) =
          l.filterMap (fun o => o.request.parcel.map (o.dst, ·)) ∧
        (l.map (Outgoing.call id)).filterMap (·.awaited id) =
          l.filterMap (fun o => o.request.parcel.map (o.dst, ·)) := by
    intro l
    rw [List.filterMap_map, List.filterMap_map]
    constructor
    · refine List.filterMap_congr fun o _ => ?_
      simp [Call.parcel, Outgoing.call]
    · refine List.filterMap_congr fun o _ => ?_
      simp [Call.awaited, Call.parcel, Outgoing.call]
  constructor
  · rw [parcels, parcels, act, List.filterMap_append, (hsent t.sent).1]
    rfl
  · rw [awaited, awaited, act, List.filterMap_append, (hsent t.sent).2]
    rfl

private theorem act_other {other : Bytes} (hne : id ≠ other) (w : World) (t : Raft) :
    (w.act other t).parcels id = w.parcels id ∧ (w.act other t).awaited id = w.awaited id := by
  have hnone : ∀ o : Outgoing, (o.call other).parcel id = none := by
    intro o
    simp [Call.parcel, Outgoing.call, Ne.symm hne]
  constructor
  · rw [parcels, parcels, act, List.filterMap_append, List.filterMap_map]
    simp [hnone]
  · rw [awaited, awaited, act, List.filterMap_append, List.filterMap_map]
    simp [Function.comp_def, Call.awaited, hnone]

/-! ## Steps -/

structure Still (id : Bytes) (w w' : World) : Prop where
  sender : (w'.servers id).sender = (w.servers id).sender
  parcels : w'.parcels id = w.parcels id
  awaited : w'.awaited id = w.awaited id

private theorem still_act {t : Raft} (hsent : (w.servers id).sent = [])
    (h : t.sending = (w.servers id).sending) : Still id w (w.act id t) := by
  have hnone : t.sending.2.2 = [] := by
    rw [h, Raft.sending, hsent]
    rfl
  have hparcels := act_parcels w id t
  rw [hnone, List.append_nil, List.append_nil] at hparcels
  have hsender : t.sender = (w.servers id).sender := Raft.sender_of_sending h
  refine ⟨?_, hparcels.1, hparcels.2⟩
  rw [act_self]
  exact hsender

private theorem still_other {other : Bytes} (hne : id ≠ other) (t : Raft) :
    Still id w (w.act other t) := by
  obtain ⟨hparcels, hawaited⟩ := act_other hne w t
  exact ⟨by rw [act_of_ne w t hne], hparcels, hawaited⟩

private theorem still_set {i : Nat} {c : Call} (c' : Call) (hc : w.calls[i]? = some c)
    (hparcel : c'.parcel id = c.parcel id) (hawaited : c'.awaited id = c.awaited id) :
    Still id w { w with calls := w.calls.set i c' } :=
  ⟨rfl, filterMap_set_same hc hparcel, filterMap_set_same hc hawaited⟩

theorem Still.trans {w'' : World} (h : Still id w w') (k : Still id w' w'') : Still id w w'' :=
  ⟨k.sender.trans h.sender, k.parcels.trans h.parcels, k.awaited.trans h.awaited⟩

private theorem still_local {i : Bytes} {f : Raft → Raft} (hsent : (w.servers id).sent = [])
    (hf : ∀ s : Raft, (f s).sending = s.sending) (h : w.local_ i f = some w') : Still id w w' := by
  unfold local_ at h
  split at h
  · cases h
    by_cases hi : id = i
    · subst hi
      exact still_act hsent (hf _)
    · exact still_other hi _
  · cases h

/-! ## Runs -/

structure Delivering (w₀ : World) (id : Bytes) (w : World) : Prop where
  role : (w.servers id).role = .leader
  sent : (w.servers id).sent = []
  same : (w₀.servers id).sender.SameFiles (w.servers id).sender
  stage : ∃ (ends : List (Bytes × Bytes)) (current : List (Bytes × Parcel)),
    w.parcels id = w₀.parcels id ++
      ends.flatMap (fun p => ((w₀.servers id).sender.whole p.2).map (p.1, ·)) ++ current ∧
    (w₀.servers id).sender.Stage (w.servers id).sender (w.awaited id) current

variable {w₀ : World}

private theorem Resting.delivering (h : w₀.Resting id) : Delivering w₀ id w₀ :=
  ⟨h.role, h.sent, .refl _, [], [], by simp, by rw [h.awaited]; exact .idle h.closed⟩

private theorem Delivering.still (h : Delivering w₀ id w) (hstill : Still id w w')
    (hrole : (w'.servers id).role = .leader) (hsent : (w'.servers id).sent = []) :
    Delivering w₀ id w' := by
  obtain ⟨ends, current, hparcels, hstage⟩ := h.stage
  refine ⟨hrole, hsent, by rw [hstill.sender]; exact h.same, ends, current, ?_, ?_⟩
  · rw [hstill.parcels, hparcels]
  · rw [hstill.sender, hstill.awaited]
    exact hstage

theorem Delivering.act {t : Raft} {ends : List (Bytes × Bytes)}
    {current next : List (Bytes × Parcel)}
    (hparcels : w.parcels id = w₀.parcels id ++
      ends.flatMap (fun p => ((w₀.servers id).sender.whole p.2).map (p.1, ·)) ++ current)
    (hawaited : w.awaited id = []) (hrole : t.role = .leader)
    (hsame : (w₀.servers id).sender.SameFiles t.sender) (hsending : t.sending.2.2 = next)
    (hstage : (w₀.servers id).sender.Stage t.sender next (current ++ next)) :
    Delivering w₀ id (w.act id t) := by
  obtain ⟨hparcels', hawaited'⟩ := act_parcels w id t
  rw [hsending] at hparcels' hawaited'
  rw [hawaited, List.nil_append] at hawaited'
  refine ⟨by rw [act_self]; exact hrole, by rw [act_self], by rw [act_self]; exact hsame,
    ends, current ++ next, ?_, ?_⟩
  · rw [hparcels', hparcels, List.append_assoc]
  · rw [act_self, hawaited']
    exact hstage

theorem Delivering.begins (h : Delivering w₀ id w) (htree : (w₀.servers id).sender.Tree)
    (hawaited : w.awaited id = []) {t : Raft} {node : Bytes} (hrole : t.role = .leader)
    (hinit : t.sender = (w.servers id).sender.initTransfer) (hsent : t.sent = [])
    (hlead : (t.doDataTransfer node).role = .leader) :
    Delivering w₀ id (w.act id (t.doDataTransfer node)) := by
  obtain ⟨ends, current, hparcels, hstage⟩ := h.stage
  rw [hawaited] at hstage
  cases hstage with
  | idle hclosed =>
      have hnone : t.sending.2.2 = [] := by
        rw [Raft.sending, hsent]
        rfl
      obtain ⟨current, hsending, hsame, hnext⟩ :=
        Raft.doDataTransfer_begins node hrole hinit h.same htree hclosed
      rw [hnone, List.nil_append] at hsending
      exact Delivering.act hparcels hawaited hlead hsame hsending hnext

theorem Delivering.answered (h : Delivering w₀ id w) (htree : (w₀.servers id).sender.Tree)
    {i : Nat} {c : Call} {p : Parcel} (hc : w.calls[i]? = some c) (hdone : c.done = false)
    (hparcel : c.parcel id = some (c.dst, p)) (haccepts : c.response.any Response.accepts)
    (hsize : p.isDone = false → ¬ (w.servers id).sender.Misjudged) {quick : Bool}
    (hlead : ((w.servers id).finish c.dst quick c.request c.response).role = .leader) :
    Delivering w₀ id ({ w with calls := w.calls.set i { c with done := true } }.act id
      ((w.servers id).finish c.dst quick c.request c.response)) := by
  obtain ⟨ends, current, hparcels, hstage⟩ := h.stage
  generalize hu : ({ w with calls := w.calls.set i { c with done := true } } : World) = u
  have hsame : u.parcels id = w.parcels id := by
    subst hu
    exact filterMap_set_same hc rfl
  have hawaits : c.awaited id = some (c.dst, p) := by
    rw [Call.awaited, hdone]
    exact hparcel
  have honly : ∀ q, w.awaited id = [q] → (c.dst, p) = q ∧ u.awaited id = [] := by
    subst hu
    exact fun q hq => filterMap_set_only hc hawaits rfl hq
  have hsent : (w.servers id).sending.2.2 = [] := by
    rw [Raft.sending, h.sent]
    rfl
  have hrequest : c.request.parcel = some p := by
    unfold Call.parcel at hparcel
    split at hparcel
    · simpa using hparcel
    · cases hparcel
  generalize hawaited : w.awaited id = awaited at hstage
  cases hstage with
  | idle hclosed =>
      have hmem : (c.dst, p) ∈ w.awaited id :=
        List.mem_filterMap.mpr ⟨c, List.mem_of_getElem? hc, hawaits⟩
      rw [hawaited] at hmem
      cases hmem
  | @sending node q hchunk hpos hwithin hleft =>
      obtain ⟨heq, hempty⟩ := honly _ hawaited
      obtain ⟨rfl, rfl⟩ : c.dst = node ∧ p = q := by simpa using heq
      cases hreq : c.request with
      | dataTransfer req =>
          rw [hreq] at hlead
          obtain ⟨res, hres, hsuccess⟩ := Response.of_accepts haccepts
          rw [hres] at hlead ⊢
          obtain ⟨next, hsending, hfiles, hnext⟩ := Raft.onDataTransfer_stage c.dst h.role
            hsuccess h.same htree (hsize hchunk) hwithin hleft
          rw [hsent, List.nil_append] at hsending
          exact Delivering.act (hsame.trans hparcels) hempty hlead hfiles hsending hnext
      | doneTransfer req =>
          rw [hreq] at hrequest
          cases hrequest
          cases hchunk
      | _ =>
          rw [hreq] at hrequest
          cases hrequest
  | @ending node name hclosed =>
      obtain ⟨heq, hempty⟩ := honly _ hawaited
      obtain ⟨rfl, rfl⟩ : c.dst = node ∧ p = .done name := by simpa using heq
      cases hreq : c.request with
      | doneTransfer req =>
          rw [hreq] at hlead
          obtain ⟨res, hres, hsuccess⟩ := Response.of_accepts haccepts
          rw [hres] at hlead ⊢
          obtain ⟨hsending, hfiles, hnext⟩ :=
            Raft.onDoneTransfer_stage c.dst hsuccess h.same hclosed
          rw [hsent] at hsending
          have hended : u.parcels id = w₀.parcels id ++ (ends ++ [(c.dst, name)]).flatMap
              (fun p => ((w₀.servers id).sender.whole p.2).map (p.1, ·)) ++ [] := by
            rw [hsame, hparcels]
            simp
          exact Delivering.act hended hempty hlead hfiles hsending hnext
      | dataTransfer req =>
          rw [hreq] at hrequest
          cases hrequest
      | _ =>
          rw [hreq] at hrequest
          cases hrequest

private theorem step_sent (hsent : (w.servers id).sent = []) (hstep : w.step e = some w') :
    (w'.servers id).sent = [] := by
  obtain ⟨j, t, hcreates⟩ := creates_step hstep
  obtain ⟨calls, rfl⟩ := hcreates.act
  by_cases hj : id = j
  · subst hj
    rw [act_self]
  · rw [act_of_ne _ _ hj]
    exact hsent

private theorem still_finish {i : Nat} {c : Call} {response : Option Response} {quick : Bool}
    (hsent : (w.servers id).sent = []) (hc : w.calls[i]? = some c)
    (hcall : c.src = id → c.request.parcel = none ∧
      ((w.servers id).finish c.dst quick c.request response).sending = (w.servers id).sending)
    (hstep : w.finishCall i c response quick = some w') : Still id w w' := by
  unfold finishCall at hstep
  split at hstep
  · cases hstep
    have hset : c.parcel id = none →
        Still id w { w with calls := w.calls.set i { c with done := true } } := by
      intro hnone
      have hdone : ∀ d : Call, d.parcel id = none → d.awaited id = none := by
        intro d hd
        unfold Call.awaited
        rw [hd, ite_self]
      exact still_set _ hc rfl ((hdone { c with done := true } hnone).trans (hdone c hnone).symm)
    by_cases hsrc : c.src = id
    · obtain ⟨hparcel, hsending⟩ := hcall hsrc
      subst hsrc
      refine (hset (by simp [Call.parcel, hparcel])).trans ?_
      exact still_act hsent hsending
    · refine (hset (by simp [Call.parcel, hsrc])).trans ?_
      exact still_other (Ne.symm hsrc) _
  · cases hstep

private theorem still_handle {i : Nat} {c : Call} {recent : Bool} (hsent : (w.servers id).sent = [])
    (hc : w.calls[i]? = some c) (hstep : w.handleCall i c recent = some w')
    (hrole : (w'.servers id).role = .leader) : Still id w w' := by
  unfold handleCall at hstep
  split at hstep
  · cases hstep
    let answered : Call :=
      { c with response := some ((w.servers c.dst).serve recent c.request).2 }
    have hset : Still id w { w with calls := w.calls.set i answered } := still_set _ hc rfl rfl
    refine hset.trans ?_
    by_cases hdst : id = c.dst
    · subst hdst
      rw [act_self] at hrole
      exact still_act hsent (Raft.serve_sending hrole)
    · exact still_other hdst _
  · cases hstep

private theorem still_step (hsent : (w.servers id).sent = []) (hstep : w.step e = some w')
    (hrole : (w'.servers id).role = .leader)
    (hfiles : e.writesFiles id = false) (hbegins : w.begins id e = false)
    (hanswers : w.answers id e = none) : Still id w w' := by
  cases e with
  | electionTimeout i =>
      simp only [World.step] at hstep
      split at hstep
      · exact still_local hsent (f := Raft.onElectionTimeout)
          (fun s => Raft.preVote_frame .sending rfl rfl rfl false) hstep
      · cases hstep
  | heartbeatTimeout i =>
      simp only [World.step] at hstep
      split at hstep
      · exact still_local hsent (f := Raft.onHeartbeatTimeout)
          (fun s => Raft.appendEntries_frame .sending rfl) hstep
      · cases hstep
  | leadershipTransferTimeout i =>
      simp only [World.step] at hstep
      split at hstep
      · cases hstep
      · rename_i node _
        exact still_local hsent (f := fun s => s.onLeadershipTransferTimeout node)
          (fun s => Raft.onLeadershipTransferTimeout_frame .sending rfl node) hstep
  | append i data =>
      exact still_local hsent (f := fun s => s.append data)
        (fun s => Raft.append_frame .sending rfl data) hstep
  | transferLeadership i address =>
      exact still_local hsent (f := fun s => (s.leadershipTransfer address).1)
        (fun s => Raft.leadershipTransfer_frame .sending address) hstep
  | addServer i address =>
      simp only [World.step, local_] at hstep
      split at hstep
      · cases hstep
        by_cases hi : id = i
        · subst hi
          refine still_act hsent (Raft.addServer_sending ?_)
          rintro ⟨-, hadds⟩
          simp [begins, hadds] at hbegins
        · exact still_other hi _
      · cases hstep
  | delServer i address =>
      exact still_local hsent (f := fun s => s.delServer address)
        (fun s => Raft.delServer_frame .sending rfl address) hstep
  | popCommitted i =>
      exact still_local hsent (f := Raft.popCommitted) (fun s => Raft.popCommitted_frame .sending)
        hstep
  | applyNext i =>
      exact still_local hsent (f := Raft.applyNext) (fun s => Raft.applyNext_frame .sending rfl)
        hstep
  | compact i =>
      exact still_local hsent (f := Raft.compact)
        (fun s => Raft.compact_frame .sending rfl rfl) hstep
  | writeFiles i files =>
      simp only [World.step, local_] at hstep
      split at hstep
      · cases hstep
        by_cases hi : id = i
        · simp [Event.writesFiles, hi] at hfiles
        · exact still_other hi _
      · cases hstep
  | handle i recent =>
      simp only [World.step] at hstep
      split at hstep
      · cases hstep
      · exact still_handle hsent ‹_› hstep hrole
  | succeed i quick =>
      simp only [World.step] at hstep
      split at hstep
      · cases hstep
      · rename_i c hc
        split at hstep
        · cases hstep
        · refine still_finish hsent hc (fun hsrc => ?_) hstep
          have hparcel : c.request.parcel = none := by
            simpa [answers, hc, Call.parcel, hsrc] using hanswers
          refine ⟨hparcel, Raft.finish_sending hparcel fun r a hr ha hlacks => ?_⟩
          simp [begins, hc, hsrc, hr, ha, hlacks.2] at hbegins
  | fail i quick =>
      simp only [World.step] at hstep
      split at hstep
      · cases hstep
      · rename_i c hc
        refine still_finish hsent hc (fun hsrc => ?_) hstep
        have hparcel : c.request.parcel = none := by
          simpa [answers, hc, Call.parcel, hsrc] using hanswers
        exact ⟨hparcel, Raft.finish_sending hparcel fun _ _ _ hres => by cases hres⟩

private theorem begins_act (hrole : (w.servers id).role = .leader) (hbegins : w.begins id e = true)
    (hstep : w.step e = some w') :
    ∃ (u : World) (t : Raft) (node : Bytes), w' = u.act id (t.doDataTransfer node) ∧
      Still id w u ∧ u.servers = w.servers ∧ t.role = .leader ∧
      t.sender = (w.servers id).sender.initTransfer ∧ t.sent = (w.servers id).sent := by
  cases e with
  | addServer i name =>
      simp only [begins, Bool.and_eq_true, decide_eq_true_eq] at hbegins
      obtain ⟨rfl, hadds⟩ := hbegins
      obtain ⟨t, node, heq, ht⟩ := Raft.addServer_begins hadds
      simp only [step, local_, heq] at hstep
      split at hstep
      · cases hstep
        exact ⟨w, t, node, rfl, ⟨rfl, rfl, rfl⟩, rfl, ht⟩
      · cases hstep
  | succeed i quick =>
      simp only [step, begins] at hstep hbegins
      split at hstep
      · cases hstep
      · rename_i c hc
        rw [hc, Option.any_some, Bool.and_eq_true, decide_eq_true_eq] at hbegins
        obtain ⟨rfl, hlacks⟩ := hbegins
        split at hstep
        · cases hstep
        split at hlacks
        · rename_i req res hreq hres
          obtain ⟨t, heq, ht⟩ := Raft.onAppendEntries_begins c.dst quick hrole
            hlacks
          have hfinish : (w.servers c.src).finish c.dst quick c.request c.response =
              t.doDataTransfer c.dst := by
            rw [hreq, hres]
            exact heq
          unfold finishCall at hstep
          rw [hfinish] at hstep
          split at hstep
          · cases hstep
            have hparcel : ∀ d : Call, d.request = c.request → d.parcel c.src = none := by
              intro d hd
              simp [Call.parcel, hd, hreq, Request.parcel]
            have hawaited : ∀ d : Call, d.request = c.request → d.awaited c.src = none := by
              intro d hd
              rw [Call.awaited, hparcel d hd, ite_self]
            let ended : Call := { c with done := true }
            refine ⟨_, t, c.dst, rfl, still_set ended hc rfl ?_, rfl, ht⟩
            exact (hawaited ended rfl).trans (hawaited c rfl).symm
          · cases hstep
        · cases hlacks
  | _ => cases hbegins

private theorem answers_act {p : Parcel} {response : Option Response}
    (hanswers : w.answers id e = some (p, response)) (hresponse : response.any Response.accepts)
    (hstep : w.step e = some w') :
    ∃ (i : Nat) (c : Call) (quick : Bool), w.calls[i]? = some c ∧ c.done = false ∧ c.src = id ∧
      c.parcel id = some (c.dst, p) ∧ c.response = response ∧
      w' = { w with calls := w.calls.set i { c with done := true } }.act id
        ((w.servers id).finish c.dst quick c.request c.response) := by
  cases e with
  | succeed i quick =>
      simp only [step, answers] at hstep hanswers
      split at hstep
      · cases hstep
      · rename_i c hc
        rw [hc, Option.bind_some] at hanswers
        obtain ⟨q, hq, heq⟩ := Option.map_eq_some_iff.mp hanswers
        cases heq
        have hsrc : c.src = id := by
          unfold Call.parcel at hq
          split at hq
          · assumption
          · cases hq
        have hdst : q = (c.dst, q.2) := by
          simp only [Call.parcel, hsrc, if_true, Option.map_eq_some_iff] at hq
          obtain ⟨r, -, rfl⟩ := hq
          rfl
        split at hstep
        · cases hstep
        unfold finishCall at hstep
        split at hstep
        · rename_i hcond
          cases hstep
          subst hsrc
          exact ⟨i, c, quick, hc, hcond.2.2, rfl, hdst ▸ hq, rfl, rfl⟩
        · cases hstep
  | fail i quick =>
      simp only [answers] at hanswers
      obtain ⟨c, -, hc⟩ := Option.bind_eq_some_iff.mp hanswers
      obtain ⟨q, -, heq⟩ := Option.map_eq_some_iff.mp hc
      cases heq
      cases hresponse
  | _ => cases hanswers

theorem Delivering.step (h : Delivering w₀ id w) (htree : (w₀.servers id).sender.Tree)
    (hsteady : Steady id w e) (hapart : Apart id w e) (hstep : w.step e = some w') :
    Delivering w₀ id w' := by
  have hrole : (w'.servers id).role = .leader := by
    have hleads := hsteady.leads
    rw [hstep] at hleads
    simpa using hleads
  have hsent := step_sent h.sent hstep
  by_cases hbegins : w.begins id e = true
  · obtain ⟨u, t, node, rfl, hstill, hservers, hlead, hinit, hnone⟩ :=
      begins_act h.role hbegins hstep
    have hu : Delivering w₀ id u :=
      h.still hstill (by rw [hservers]; exact h.role) (by rw [hservers]; exact h.sent)
    rw [act_self] at hrole
    refine hu.begins htree (hstill.awaited.trans (hapart.alone hbegins)) hlead ?_
      (hnone.trans h.sent) hrole
    rw [hservers]
    exact hinit
  · cases hanswers : w.answers id e with
    | none =>
        exact h.still (still_step h.sent hstep hrole hsteady.files
          (Bool.eq_false_of_not_eq_true hbegins) hanswers) hrole hsent
    | some answer =>
        obtain ⟨p, response⟩ := answer
        have haccepts := hsteady.answered
        have hsized := hapart.sized
        simp only [hanswers, Option.all_some, Option.any_some] at haccepts hsized
        obtain ⟨i, c, quick, hc, hdone, rfl, hparcel, rfl, rfl⟩ :=
          answers_act hanswers haccepts hstep
        rw [act_self] at hrole
        exact h.answered htree hc hdone hparcel haccepts (fun hchunk => hsized (by simp [hchunk]))
          hrole

/--
Since a state every node has been sent whole transfers and a part of one more;
no part is left when nothing is awaited.
-/
def SentWhole (w₀ : World) (id : Bytes) (w : World) : Prop :=
  ∀ node, ∃ parcels, w.sentTo id node = w₀.sentTo id node ++ parcels ∧
    (w₀.servers id).sender.Intact parcels ∧
    (w.awaited id = [] →
      ∃ names : List Bytes, parcels = names.flatMap (w₀.servers id).sender.whole)

private theorem filterMap_toNode (node dst : Bytes) (ps : List Parcel) :
    (ps.map (dst, ·)).filterMap (Parcel.toNode node) = if dst = node then ps else [] := by
  rw [List.filterMap_map]
  split
  · have hsome : Parcel.toNode node ∘ (dst, ·) = some := by
      funext p
      exact if_pos ‹_›
    rw [hsome, List.filterMap_some]
  · have hnone : Parcel.toNode node ∘ (dst, ·) = fun _ => none := by
      funext p
      exact if_neg ‹_›
    rw [hnone]
    simp

private theorem filterMap_whole (s : Sender) (node : Bytes) (ends : List (Bytes × Bytes)) :
    ∃ names : List Bytes, (ends.flatMap fun p => (s.whole p.2).map (p.1, ·)).filterMap
      (Parcel.toNode node) = names.flatMap s.whole := by
  induction ends with
  | nil => exact ⟨[], rfl⟩
  | cons p ends ih =>
      obtain ⟨names, hnames⟩ := ih
      rw [List.flatMap_cons, List.filterMap_append, filterMap_toNode, hnames]
      split
      · exact ⟨p.2 :: names, rfl⟩
      · exact ⟨names, rfl⟩

private theorem stage_start {s t : Sender} {awaited current : List (Bytes × Parcel)}
    (h : s.Stage t awaited current) :
    (∃ node name k, current = ((s.whole name).take k).map (node, ·)) ∧
      (awaited = [] → current = []) := by
  cases h with
  | idle hclosed => exact ⟨⟨[], [], 0, rfl⟩, fun _ => rfl⟩
  | @sending node p hdone hpos hwithin hleft =>
      refine ⟨⟨node, [], t.dataTransferId ⊓ s.requests.length, ?_⟩, nofun⟩
      rw [Sender.whole, List.take_append_of_le_length (Nat.min_le_right _ _)]
      congr 1
      rcases Nat.le_total t.dataTransferId s.requests.length with hle | hge
      · rw [Nat.min_eq_left hle]
      · rw [Nat.min_eq_right hge, List.take_of_length_le hge, List.take_length]
  | @ending node name hclosed =>
      exact ⟨⟨node, name, (s.whole name).length, by rw [List.take_length]⟩, nofun⟩

private theorem Delivering.sentWhole (h : Delivering w₀ id w) : SentWhole w₀ id w := by
  intro node
  obtain ⟨ends, current, hparcels, hstage⟩ := h.stage
  obtain ⟨⟨dst, name, k, hcurrent⟩, hnone⟩ := stage_start hstage
  obtain ⟨names, hnames⟩ := filterMap_whole (w₀.servers id).sender node ends
  refine ⟨names.flatMap (w₀.servers id).sender.whole ++ current.filterMap (Parcel.toNode node),
    ?_, ?_, fun hawaited => ⟨names, ?_⟩⟩
  · rw [sentTo, hparcels, List.filterMap_append, List.filterMap_append, hnames, List.append_assoc]
    rfl
  · rw [hcurrent, filterMap_toNode]
    split
    · exact ⟨names, name, k, rfl⟩
    · exact ⟨names, name, 0, rfl⟩
  · rw [hnone hawaited, List.filterMap_nil, List.append_nil]

/--
As long as no transfer begins before the last one has ended, every node is sent
each request of a transfer once, in order, from number 1 on, and then its end.
-/
theorem transfers_apart {es : List Event} (start : w₀.Resting id)
    (along : Along World.step (fun w e => Steady id w e ∧ Apart id w e) w₀ es)
    (hrun : run World.step w₀ es = some w) : SentWhole w₀ id w :=
  (run_invariant (P := Delivering w₀ id)
    (fun _ _ _ hstep h => h.step start.tree hstep.1 hstep.2) along start.delivering hrun).sentWhole

instance (id : Bytes) (w : World) (e : Event) : Decidable (Steady id w e) :=
  decidable_of_iff (((w.step e).all fun w' => (w'.servers id).role = .leader) ∧
      e.writesFiles id = false ∧ (w.answers id e).all fun a => a.2.any Response.accepts)
    ⟨fun h => ⟨h.1, h.2.1, h.2.2⟩, fun h => ⟨h.1, h.2, h.3⟩⟩

instance (id : Bytes) (w : World) (e : Event) : Decidable (Apart id w e) :=
  decidable_of_iff ((w.begins id e = true → w.awaited id = []) ∧
      ((w.answers id e).any (!·.1.isDone) = true → ¬ (w.servers id).sender.Misjudged))
    ⟨fun h => ⟨h.1, h.2⟩, fun h => ⟨h.1, h.2⟩⟩

def fleet : World :=
  { World.cluster ["a:1", "b:1", "c:1"] true with
    ids := ["a:1", "b:1", "c:1", "10.0.0.4:1"].map ascii }

/-- The server `a` is elected and commits an entry with `b`; `c` has lost its last request. -/
def compacting (files : List (Bytes × FileNode)) : List Event :=
  [.writeFiles (ascii "a:1") files, .electionTimeout (ascii "a:1"), .handle 0 false,
    .succeed 0 false, .handle 3 false, .succeed 3 false, .append (ascii "a:1") (ascii "x"),
    .heartbeatTimeout (ascii "a:1"), .handle 6 false, .succeed 6 true, .popCommitted (ascii "a:1"),
    .applyNext (ascii "a:1"), .applyNext (ascii "a:1"), .compact (ascii "a:1")]

def oneByOne : List Event :=
  [.heartbeatTimeout (ascii "a:1"), .handle 9 false, .succeed 9 true, .handle 10 true,
    .succeed 10 true, .handle 11 true, .succeed 11 true, .handle 12 true, .succeed 12 true,
    .addServer (ascii "a:1") (ascii "10.0.0.4:1"), .handle 14 true, .succeed 14 true]

theorem transfers_apart_two :
    ∃ w₀ w, w₀.Resting (ascii "a:1") ∧ run World.step w₀ oneByOne = some w ∧
      SentWhole w₀ (ascii "a:1") w := by
  have hstart := (Option.some_get (show (run World.step fleet (compacting
    [(ascii "db", .directory false), (ascii "db/data", .regular (ascii "x")),
      (ascii "db/old", .directory true)])).isSome by decide)).symm
  have hresting : Resting (ascii "a:1") ((run World.step fleet (compacting
    [(ascii "db", .directory false), (ascii "db/data", .regular (ascii "x")),
      (ascii "db/old", .directory true)])).get (by decide)) :=
    ⟨by decide, by decide, by decide, by decide, by decide⟩
  exact ⟨_, _, hresting, (Option.some_get (by decide)).symm,
    transfers_apart hresting (by decide) (Option.some_get (by decide)).symm⟩

/--
While the first request to `c` has no answer a server is added: its first
request is read from the stream of the transfer to `c`, and is empty.
-/
def atOnce : List Event :=
  [.heartbeatTimeout (ascii "a:1"), .handle 9 false, .succeed 9 true,
    .addServer (ascii "a:1") (ascii "10.0.0.4:1")]

theorem transfers_mixed :
    ¬ ∀ (w₀ w : World) (id : Bytes) (es : List Event), w₀.Resting id →
      Along World.step (Steady id) w₀ es → run World.step w₀ es = some w →
      SentWhole w₀ id w := by
  intro h
  have hresting : Resting (ascii "a:1") ((run World.step fleet (compacting
    [(ascii "db", .regular (ascii "x"))])).get (by decide)) :=
    ⟨by decide, by decide, by decide, by decide, by decide⟩
  have hsent := h _ _ _ atOnce hresting (by decide) (Option.some_get (by decide)).symm
    (ascii "10.0.0.4:1")
  obtain ⟨parcels, hparcels, hintact, -⟩ := hsent
  have hbefore := congrArg (· ++ parcels) (show ((run World.step fleet (compacting
    [(ascii "db", .regular (ascii "x"))])).get (by decide)).sentTo (ascii "a:1")
      (ascii "10.0.0.4:1") = [] by decide)
  have hchunk : [Parcel.chunk 1 (ascii "db") []] = [] ++ parcels :=
    Eq.trans (by decide) (hparcels.trans hbefore)
  rw [List.nil_append] at hchunk
  rw [← hchunk] at hintact
  exact absurd
    (@Sender.Intact.head _ (.chunk 1 (ascii "db") (ascii "x")) _ [] _ hintact (by decide))
    (by decide)

end World

end Draft
