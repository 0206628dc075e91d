import Mathlib.Data.List.Chain
import Mathlib.Data.List.TakeWhile
import Draft.Foundation.FileSystem
import Draft.Raft.Frames

/-!
# The receiving side of a data transfer

`rpc_service_impl` keeps the name it received last and one output stream for
all transfers.  The first request of a transfer removes the old file; the file
is opened when the name differs from the last one; the end of the transfer
closes the stream and leaves the last name alone.
-/

namespace Draft

/-- A server with its files, and the `last` and the `fout` of its service. -/
structure Receiver where
  raft : Raft
  files : FileSystem
  last : Bytes
  fout : Option Nat

def FileSystem.nodes (fs : FileSystem) : List (Bytes × FileNode) :=
  fs.names.map (fun p => (p.1, .regular (fs.contents[p.2]?.getD []))) ++
    fs.directories.map fun name =>
      (name, .directory (fs.names.all (fun p => !FileSystem.within name p.1 || p.1 = name) &&
        fs.directories.all fun other => !FileSystem.within name other || other = name))

/-- `on_data_transfer` of the storage server before a transfer; a directory is not removed. -/
def preTransfer (fs : FileSystem) (path : Bytes) : FileSystem :=
  if path.getLast? = some 47 then fs else fs.removeAll path

def firstComponent (name : Bytes) : Bytes :=
  name.takeWhile (· ≠ 47) ++ (if 47 ∈ name then [47] else [])

namespace Receiver

variable (r : Receiver)

def start (raft : Raft) (files : FileSystem) : Receiver :=
  { raft := raft, files := files, last := [], fout := none }

/-- The stream for a name that is not the last one. -/
def reopen (name : Bytes) : Receiver :=
  let parent := FileSystem.parentPath name
  let files := if parent = [] then r.files else r.files.createDirectories parent
  let opened := files.openAppend name
  { r with files := opened.1, fout := opened.2, last := name }

/-- The part of `data_transfer` that writes a file or a directory. -/
def receiveName (name data : Bytes) : Receiver :=
  if name.getLast? = some 47 then
    { r with files := r.files.createDirectories name.dropLast, last := name.dropLast }
  else
    let r := if name ≠ r.last then r.reopen name else r
    { r with files := r.files.write r.fout data }

def dataTransfer (req : DataReq) : Receiver × DataRes :=
  let (raft, res) := r.raft.handleDataTransfer req
  let r := { r with raft := raft }
  if ¬ res.success then (r, res)
  else
    let r :=
      if req.id = 1 ∧ req.name ≠ [] then
        { r with files := preTransfer r.files (firstComponent req.name) }
      else r
    if req.name = [] then (r, res) else (r.receiveName req.name req.data, res)

/-- `done_transfer`, which looks for the path among the files as they are now. -/
def doneTransfer (req : DoneReq) : Receiver × DataRes :=
  let raft := { r.raft with sender := { r.raft.sender with files := r.files.nodes } }
  let (raft, res) := raft.handleDoneTransfer req
  let r := { r with raft := raft }
  (if res.success then { r with fout := none } else r, res)

end Receiver

/-! ## Transfers of one file -/

structure Transfer where
  term : Nat
  leaderId : Bytes
  lastIndex : Nat
  lastTerm : Nat
  lastConfig : Bytes
  name : Bytes
  first : Bytes
  rest : List Bytes
  deriving DecidableEq, Repr

namespace Transfer

variable (t : Transfer)

def bytes : Bytes := t.first ++ t.rest.flatten

def dataReq (id : Nat) (data : Bytes) : DataReq :=
  { term := t.term, leaderId := t.leaderId, lastIndex := t.lastIndex, lastTerm := t.lastTerm,
    lastConfig := if id = 1 then t.lastConfig else [], name := t.name, data := data, id := id }

def doneReq : DoneReq := { term := t.term, leaderId := t.leaderId, name := t.name }

/-- The name of a file: the storage server takes it for one when it has no slash. -/
structure NamesFile : Prop where
  nonempty : t.name ≠ []
  plain : 47 ∉ t.name

end Transfer

namespace Receiver

def receiveRest (t : Transfer) (r : Receiver) (id : Nat) : List Bytes → Receiver
  | [] => r
  | data :: rest => receiveRest t (r.dataTransfer (t.dataReq id data)).1 (id + 1) rest

def receive (r : Receiver) (t : Transfer) : Receiver :=
  ((receiveRest t (r.dataTransfer (t.dataReq 1 t.first)).1 2 t.rest).doneTransfer t.doneReq).1

/-- The file is there with all its bytes, and a reload of the database is queued. -/
structure Arrived (r : Receiver) (t : Transfer) : Prop where
  file : (r.receive t).files.read t.name = some t.bytes
  queued : (r.receive t).raft.dataTransferQueue = r.raft.dataTransferQueue + 1

def Intact (r : Receiver) : List Transfer → Prop
  | [] => True
  | t :: ts => r.Arrived t ∧ Intact (r.receive t) ts

end Receiver

/-! ## The handlers of the server -/

theorem takeWhile_plain {name : Bytes} (h : 47 ∉ name) : name.takeWhile (· ≠ 47) = name := by
  rw [List.takeWhile_eq_self_iff]
  intro c hc
  simpa using fun heq : c = 47 => h (heq ▸ hc)

namespace Raft

variable {s : Raft}

theorem handleDataTransfer_accepted {req : DataReq} (h : s.currTerm ≤ req.term) :
    (s.handleDataTransfer req).2.success = true ∧
      (s.handleDataTransfer req).1.currTerm = req.term := by
  have hterm := (followSender_election h req.leaderId).1
  unfold handleDataTransfer
  rw [if_neg (by omega)]
  refine ⟨rfl, ?_⟩
  dsimp only
  split
  · have helection : ((s.followSender req.term req.leaderId).beginTransfer req).toElection =
        (s.followSender req.term req.leaderId).toElection := by
      unfold beginTransfer
      dsimp only
      split
      · exact installBase_election _ _
      · rfl
    rw [helection, hterm]
  · exact hterm

private theorem handleDoneTransfer_accepted {req : DoneReq} (h : s.currTerm ≤ req.term)
    (hname : req.name ≠ []) (hplain : 47 ∉ req.name) :
    (s.handleDoneTransfer req).2.success = true ∧
      (s.handleDoneTransfer req).1.currTerm = req.term ∧
      (s.handleDoneTransfer req).1.dataTransferQueue =
        s.dataTransferQueue + if s.sender.exists_ req.name then 1 else 0 := by
  have hterm := (followSender_election h req.leaderId).1
  have hsending : (s.followSender req.term req.leaderId).sending = s.sending :=
    followSender_frame .sending rfl rfl _ _
  have hpath := takeWhile_plain hplain
  unfold handleDoneTransfer
  rw [if_neg (by omega)]
  refine ⟨rfl, ?_, ?_⟩
  · dsimp only
    rw [if_neg hname]
    exact hterm
  · dsimp only
    rw [if_neg hname, hpath, sender_of_sending hsending, queue_of_sending hsending]

end Raft

private theorem exists_nodes (s : Sender) (fs : FileSystem) (name : Bytes) :
    Sender.exists_ { s with files := fs.nodes } name = fs.exists_ name := by
  rw [Bool.eq_iff_iff]
  simp only [Sender.exists_, Sender.node, FileSystem.exists_, FileSystem.inode,
    FileSystem.nodes, Option.isSome_map, List.find?_isSome, Bool.or_eq_true, decide_eq_true_eq,
    List.mem_append, List.mem_map]
  constructor
  · rintro ⟨_, ⟨p, hp, rfl⟩ | ⟨d, hd, rfl⟩, heq⟩
    · exact .inl ⟨p, hp, heq⟩
    · exact .inr (heq ▸ hd)
  · rintro (⟨p, hp, heq⟩ | hd)
    · exact ⟨_, .inl ⟨p, hp, rfl⟩, heq⟩
    · exact ⟨_, .inr ⟨name, hd, rfl⟩, rfl⟩

namespace Receiver

variable {r : Receiver} {t : Transfer}

/-! ## One transfer -/

structure Writing (r : Receiver) (t : Transfer) (content : Bytes) : Prop where
  last : r.last = t.name
  stream : ∃ i, r.fout = some i ∧ r.files.inode t.name = some i ∧
    r.files.contents[i]? = some content

structure Lost (r : Receiver) (t : Transfer) : Prop where
  last : r.last = t.name
  fout : r.fout = none
  inode : r.files.inode t.name = none
  directories : t.name ∉ r.files.directories

theorem dataTransfer_accepted (hname : t.NamesFile) (hterm : r.raft.currTerm ≤ t.term) (id : Nat)
    (data : Bytes) :
    ∃ raft : Raft, raft.currTerm = t.term ∧
      raft.dataTransferQueue = r.raft.dataTransferQueue ∧
      (r.dataTransfer (t.dataReq id data)).1 =
        Receiver.receiveName
          { r with
            raft := raft
            files := if id = 1 then r.files.removeAll t.name else r.files } t.name data := by
  have hsending : (r.raft.handleDataTransfer (t.dataReq id data)).1.sending = r.raft.sending :=
    Raft.handleDataTransfer_frame .sending rfl rfl rfl _
  have hterm' : r.raft.currTerm ≤ (t.dataReq id data).term := hterm
  obtain ⟨hsuccess, hcurr⟩ := Raft.handleDataTransfer_accepted hterm'
  refine ⟨(r.raft.handleDataTransfer (t.dataReq id data)).1, hcurr,
    Raft.queue_of_sending hsending, ?_⟩
  have hpre : preTransfer r.files (firstComponent t.name) = r.files.removeAll t.name := by
    have hcomponent : firstComponent t.name = t.name := by
      rw [firstComponent, takeWhile_plain hname.plain, if_neg hname.plain, List.append_nil]
    rw [hcomponent, preTransfer, if_neg]
    exact fun hlast => hname.plain (List.mem_of_getLast? hlast)
  have hnonempty : (t.dataReq id data).name ≠ [] := hname.nonempty
  unfold dataTransfer
  dsimp only
  rw [if_neg (by simp [hsuccess]), if_neg hnonempty]
  by_cases hid : id = 1
  · rw [if_pos ⟨hid, hnonempty⟩, if_pos hid]
    exact congrArg (fun files => (Receiver.receiveName ⟨_, files, r.last, r.fout⟩ t.name data)) hpre
  · rw [if_neg fun h => hid h.1, if_neg hid]
    rfl

theorem Transfer.NamesFile.receiveName (hname : t.NamesFile) (data : Bytes) :
    r.receiveName t.name data =
      { (if t.name ≠ r.last then r.reopen t.name else r) with
        files := (if t.name ≠ r.last then r.reopen t.name else r).files.write
          (if t.name ≠ r.last then r.reopen t.name else r).fout data } := by
  unfold Receiver.receiveName
  rw [if_neg fun hlast => hname.plain (List.mem_of_getLast? hlast)]

theorem receiveName_raft (r : Receiver) (name data : Bytes) :
    (r.receiveName name data).raft = r.raft := by
  unfold Receiver.receiveName
  dsimp only
  repeat' split
  all_goals rfl

theorem Writing.receiveName {content : Bytes} (h : r.Writing t content) (hname : t.NamesFile)
    (data : Bytes) : (r.receiveName t.name data).Writing t (content ++ data) := by
  obtain ⟨i, hfout, hinode, hcontent⟩ := h.stream
  rw [Transfer.NamesFile.receiveName hname, if_neg (by simp [h.last])]
  refine ⟨h.last, i, hfout, ?_, ?_⟩
  · rw [FileSystem.inode_write]
    exact hinode
  · rw [hfout]
    exact FileSystem.contents_write hcontent

theorem Lost.receiveName (h : r.Lost t) (hname : t.NamesFile) (data : Bytes) :
    (r.receiveName t.name data).Lost t := by
  rw [Transfer.NamesFile.receiveName hname, if_neg (by simp [h.last]), h.fout]
  exact ⟨h.last, h.fout, h.inode, h.directories⟩

theorem receiveName_opens (hname : t.NamesFile) (hlast : r.last ≠ t.name)
    (hinode : r.files.inode t.name = none) (hdir : t.name ∉ r.files.directories) (data : Bytes) :
    (r.receiveName t.name data).Writing t data := by
  have hparent : FileSystem.parentPath t.name = [] := by
    have hall : t.name.reverse.dropWhile (· ≠ 47) = [] := by
      rw [List.dropWhile_eq_nil_iff]
      intro c hc
      simpa using fun heq : c = 47 => hname.plain (heq ▸ List.mem_reverse.mp hc)
    rw [FileSystem.parentPath, hall]
    rfl
  obtain ⟨i, hopen, hinode', hcontent⟩ := FileSystem.openAppend_new hdir hinode
  rw [Transfer.NamesFile.receiveName hname, if_pos (Ne.symm hlast), Receiver.reopen, hparent]
  dsimp only
  rw [if_pos rfl, hopen]
  refine ⟨rfl, i, rfl, ?_, ?_⟩
  · rw [FileSystem.inode_write]
    exact hinode'
  · exact FileSystem.contents_write hcontent

private theorem receiveName_loses (hname : t.NamesFile) (hlast : r.last = t.name) (hfout : r.fout = none)
    (hinode : r.files.inode t.name = none) (hdir : t.name ∉ r.files.directories) (data : Bytes) :
    (r.receiveName t.name data).Lost t :=
  Lost.receiveName ⟨hlast, hfout, hinode, hdir⟩ hname data

private theorem receiveRest_induction (P : Receiver → Bytes → Prop) (hname : t.NamesFile)
    (hP : ∀ r raft content data, P r content →
      P (Receiver.receiveName { r with raft := raft } t.name data) (content ++ data))
    (rest : List Bytes) {id : Nat} (hid : 1 < id) (content : Bytes)
    (hterm : r.raft.currTerm ≤ t.term) (h : P r content) :
    P (receiveRest t r id rest) (content ++ rest.flatten) ∧
      (receiveRest t r id rest).raft.currTerm ≤ t.term ∧
      (receiveRest t r id rest).raft.dataTransferQueue = r.raft.dataTransferQueue := by
  induction rest generalizing r id content with
  | nil => exact ⟨by simpa [receiveRest] using h, hterm, rfl⟩
  | cons data rest ih =>
      obtain ⟨raft, hcurr, hqueue, hreceived⟩ := dataTransfer_accepted hname hterm id data
      rw [if_neg (by omega)] at hreceived
      rw [receiveRest, hreceived, List.flatten_cons, ← List.append_assoc]
      have hraft := receiveName_raft (Receiver.mk raft r.files r.last r.fout) t.name data
      have hnext : 1 < id + 1 := by omega
      obtain ⟨hall, hle, hsame⟩ := ih hnext (content ++ data) (by rw [hraft]; exact hcurr.le)
        (hP r raft content data h)
      rw [hraft] at hsame
      exact ⟨hall, hle, hsame.trans hqueue⟩

structure Ended (r r' : Receiver) (t : Transfer) : Prop where
  last : r'.last = t.name
  fout : r'.fout = none
  currTerm : r'.raft.currTerm = t.term

theorem doneTransfer_accepted (hname : t.NamesFile) (hterm : r.raft.currTerm ≤ t.term)
    (hlast : r.last = t.name) :
    Ended r (r.doneTransfer t.doneReq).1 t ∧
      (r.doneTransfer t.doneReq).1.files = r.files ∧
      (r.doneTransfer t.doneReq).1.raft.dataTransferQueue =
        r.raft.dataTransferQueue + if r.files.exists_ t.name then 1 else 0 := by
  let raft : Raft := { r.raft with sender := { r.raft.sender with files := r.files.nodes } }
  have hterm' : raft.currTerm ≤ t.doneReq.term := hterm
  obtain ⟨hsuccess, hcurr, hqueue⟩ :=
    Raft.handleDoneTransfer_accepted hterm' hname.nonempty hname.plain
  have hexists : raft.sender.exists_ t.doneReq.name = r.files.exists_ t.name :=
    exists_nodes r.raft.sender r.files t.name
  rw [hexists] at hqueue
  have hdone : (r.doneTransfer t.doneReq).1 =
      { r with raft := (raft.handleDoneTransfer t.doneReq).1, fout := none } := by
    unfold doneTransfer
    exact if_pos hsuccess
  rw [hdone]
  exact ⟨⟨hlast, rfl, hcurr⟩, rfl, hqueue⟩

/-- A transfer arrives if its name differs from the one before, and only then. -/
theorem receive_arrived (hname : t.NamesFile) (hterm : r.raft.currTerm ≤ t.term)
    (hfout : r.fout = none) :
    Ended r (r.receive t) t ∧ (r.Arrived t ↔ r.last ≠ t.name) := by
  obtain ⟨raft, hcurr, hqueue, hfirst⟩ := dataTransfer_accepted hname hterm 1 t.first
  rw [if_pos rfl] at hfirst
  have hraft := receiveName_raft (Receiver.mk raft (r.files.removeAll t.name) r.last r.fout)
    t.name t.first
  have hterm' : (r.dataTransfer (t.dataReq 1 t.first)).1.raft.currTerm ≤ t.term := by
    rw [hfirst, hraft]
    exact hcurr.le
  have hqueue' : (r.dataTransfer (t.dataReq 1 t.first)).1.raft.dataTransferQueue =
      r.raft.dataTransferQueue := by
    rw [hfirst, hraft]
    exact hqueue
  by_cases hlast : r.last = t.name
  · have hlost : (r.dataTransfer (t.dataReq 1 t.first)).1.Lost t := by
      rw [hfirst]
      exact receiveName_loses (r := ⟨raft, r.files.removeAll t.name, r.last, r.fout⟩) hname hlast
        hfout FileSystem.inode_removeAll FileSystem.not_directory_removeAll t.first
    obtain ⟨hrest, hle, -⟩ := receiveRest_induction (fun r _ => r.Lost t) hname
      (fun r raft _ data h => Lost.receiveName (r := ⟨raft, r.files, r.last, r.fout⟩)
        ⟨h.last, h.fout, h.inode, h.directories⟩ hname data)
      t.rest (by decide : 1 < 2) t.first hterm' hlost
    obtain ⟨hended, hfiles, -⟩ := doneTransfer_accepted hname hle hrest.last
    refine ⟨⟨hended.last, hended.fout, hended.currTerm⟩,
      iff_of_false (fun h => ?_) (by simpa using hlast)⟩
    have hread := h.file
    rw [receive, hfiles, FileSystem.read, hrest.inode] at hread
    cases hread
  · have hwriting : (r.dataTransfer (t.dataReq 1 t.first)).1.Writing t t.first := by
      rw [hfirst]
      exact receiveName_opens (r := ⟨raft, r.files.removeAll t.name, r.last, r.fout⟩) hname hlast
        FileSystem.inode_removeAll FileSystem.not_directory_removeAll t.first
    obtain ⟨hrest, hle, hsame⟩ := receiveRest_induction (fun r content => r.Writing t content) hname
      (fun r raft content data h => Writing.receiveName (r := ⟨raft, r.files, r.last, r.fout⟩)
        ⟨h.last, h.stream⟩ hname data)
      t.rest (by decide : 1 < 2) t.first hterm' hwriting
    obtain ⟨hended, hfiles, hqueued⟩ := doneTransfer_accepted hname hle hrest.last
    refine ⟨⟨hended.last, hended.fout, hended.currTerm⟩, iff_of_true ⟨?_, ?_⟩ hlast⟩
    · obtain ⟨i, -, hinode, hcontent⟩ := hrest.stream
      rw [receive, hfiles, FileSystem.read, hinode]
      exact hcontent
    · obtain ⟨i, -, hinode, -⟩ := hrest.stream
      have hexists : (receiveRest t (r.dataTransfer (t.dataReq 1 t.first)).1 2 t.rest).files.exists_
          t.name = true := by
        simp [FileSystem.exists_, hinode]
      rw [receive, hqueued, hexists, hsame, hqueue']
      rfl

/-! ## Many transfers -/

/-- The terms of the transfers never fall, so that every request is accepted. -/
def TermsRise (term : Nat) (ts : List Transfer) : Prop :=
  List.IsChain (· ≤ ·) (term :: ts.map (·.term))

private theorem intact_iff {ts : List Transfer} (hnames : ∀ t ∈ ts, t.NamesFile)
    (hterms : TermsRise r.raft.currTerm ts) (hfout : r.fout = none) :
    r.Intact ts ↔ List.IsChain (· ≠ ·) (r.last :: ts.map (·.name)) := by
  induction ts generalizing r with
  | nil => exact iff_of_true trivial (List.isChain_singleton _)
  | cons t ts ih =>
      rw [TermsRise, List.map_cons, List.isChain_cons_cons] at hterms
      obtain ⟨hended, harrived⟩ := receive_arrived (hnames t List.mem_cons_self) hterms.1 hfout
      rw [List.map_cons, List.isChain_cons_cons, Intact, harrived]
      refine and_congr_right fun _ => ?_
      rw [← hended.last]
      refine ih (fun x hx => hnames x (List.mem_cons_of_mem _ hx)) ?_ hended.fout
      rw [TermsRise, hended.currTerm]
      exact hterms.2

/--
A process that has just started receives every transfer of a sequence if and
only if no two in a row have the same name.
-/
theorem transfers_intact {raft : Raft} {files : FileSystem} {ts : List Transfer}
    (hnames : ∀ t ∈ ts, t.NamesFile) (hterms : TermsRise raft.currTerm ts) :
    (start raft files).Intact ts ↔ List.IsChain (· ≠ ·) (ts.map (·.name)) := by
  rw [intact_iff hnames hterms rfl]
  cases ts with
  | nil => simp
  | cons t ts =>
      rw [List.map_cons, List.isChain_cons_cons]
      exact and_iff_right (hnames t List.mem_cons_self).nonempty.symm

def sample (name : String) : Transfer :=
  { term := 2, leaderId := ascii "a:2023", lastIndex := 3, lastTerm := 2, lastConfig := [],
    name := ascii name, first := ascii "k1 = v1", rest := [ascii "k2 = v2"] }

private theorem sample_names (name : String) (h : ascii name ≠ []) (hplain : 47 ∉ ascii name) :
    (sample name).NamesFile :=
  ⟨h, hplain⟩

def follower : Raft := (World.cluster ["a:2023", "b:2023"] true).servers (ascii "b:2023")

theorem transfers_intact_two :
    (start follower ⟨[], [], []⟩).Intact [sample "db", sample "other"] := by
  refine (transfers_intact ?_ ?_).mpr ?_
  · intro t ht
    simp only [List.mem_cons, List.not_mem_nil, or_false] at ht
    rcases ht with rfl | rfl
    · exact sample_names "db" (by decide) (by decide)
    · exact sample_names "other" (by decide) (by decide)
  · exact List.isChain_cons_cons.mpr ⟨by decide,
      List.isChain_cons_cons.mpr ⟨by decide, List.isChain_singleton _⟩⟩
  · exact List.isChain_cons_cons.mpr ⟨by decide, List.isChain_singleton _⟩

/-- The second transfer of one file leaves no file at all. -/
theorem same_file_lost :
    ∃ ts : List Transfer, (∀ t ∈ ts, t.NamesFile) ∧ TermsRise follower.currTerm ts ∧
      ¬ (start follower ⟨[], [], []⟩).Intact ts := by
  have hnames : ∀ t ∈ [sample "db", sample "db"], t.NamesFile := by
    intro t ht
    obtain rfl : t = sample "db" := by simpa using ht
    exact sample_names "db" (by decide) (by decide)
  have hterms : TermsRise follower.currTerm [sample "db", sample "db"] :=
    List.isChain_cons_cons.mpr ⟨by decide,
      List.isChain_cons_cons.mpr ⟨by decide, List.isChain_singleton _⟩⟩
  refine ⟨_, hnames, hterms, ?_⟩
  rw [intact_iff (r := start follower ⟨[], [], []⟩) hnames hterms rfl, List.map_cons, List.map_cons,
    List.isChain_cons_cons, List.isChain_cons_cons]
  exact fun h => h.2.1 rfl

end Receiver

end Draft
