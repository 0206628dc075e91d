import Draft.Kv.Acknowledging
import Draft.Kv.Snapshot
import Draft.Raft.Converging
import Draft.Raft.Receiving

/-!
# Shipping a snapshot

A leader that has compacted what a follower lacks sends it the snapshot file instead.
The first chunk drops the follower's database; the end of the transfer queues a reload, and
the entries behind the snapshot come by replication and are applied by another thread.
-/

namespace Draft.Kv

open Consensus Raft

variable (parse : Bytes → Option (List (Bytes × Bytes)))

/-! ## The follower -/

/-- A follower with its files and its database; no session waits for an entry on it. -/
structure Backup extends Receiver where
  db : Database

namespace Backup

variable (b : Backup)

/-- The callback before a transfer drops the database, unless the name is a directory's. -/
def drops (req : DataReq) (res : DataRes) : Bool :=
  res.success && req.id = 1 && !req.name.isEmpty && (firstComponent req.name).getLast? ≠ some 47

def dataTransfer (req : DataReq) : Backup × DataRes :=
  let (r, res) := b.toReceiver.dataTransfer req
  ({ toReceiver := r, db := if drops req res then .empty else b.db }, res)

def doneTransfer (req : DoneReq) : Backup × DataRes :=
  let (r, res) := b.toReceiver.doneTransfer req
  ({ b with toReceiver := r }, res)

def serve (recent : Bool) : Request → Backup × Response
  | .dataTransfer req => (b.dataTransfer req).map id .data
  | .doneTransfer req => (b.doneTransfer req).map id .data
  | req =>
      let (raft, res) := b.raft.serve recent req
      ({ b with raft := raft }, res)

def applied (texts : List Bytes) : Backup := { b with db := b.db.restore texts }

/-- `load_database` of the file at `path_`; a directory is not read. -/
def reload : Option Backup :=
  match b.files.read b.raft.sender.path with
  | none => some b
  | some text => (loadDatabase parse b.db text).map fun db => { b with db := db }

/-- One turn of `apply_data_transfer`, which waits for something in its queue. -/
def applyDataTransfer : Option Backup :=
  if b.raft.dataTransferQueue = 0 then none
  else
    reload parse
      { b with raft := { b.raft with dataTransferQueue := b.raft.dataTransferQueue - 1 } }

def idle : Backup := { b with raft := { b.raft with sent := [] } }

/-- What `done_transfer` sees: the files of the server's own are those it received. -/
def withNodes : Raft := { b.raft with sender := { b.raft.sender with files := b.files.nodes } }

end Backup

/-! ## The leader and the follower -/

structure Shipment where
  leader : Raft
  backup : Backup
  call : Option Request

namespace Shipment

def after (node : Bytes) (s : Raft) (b : Backup) : Shipment :=
  { leader := { s with sent := [] }
    backup := b.idle
    call := ((s.sent.filter (·.dst = node)).map (·.request)).head? }

def start (node : Bytes) (s : Raft) (b : Backup) : Shipment := after node s.onHeartbeatTimeout b

def step (node : Bytes) (recent quick : Bool) (x : Shipment) : Shipment :=
  if x.leader.faulted then x
  else
    match x.call with
    | none =>
        if x.leader.heartbeatTimer then after node x.leader.onHeartbeatTimeout x.backup else x
    | some req =>
        if x.backup.raft.faulted then x
        else
          after node (x.leader.finish node quick req (some (x.backup.serve recent req).2))
            (x.backup.serve recent req).1

def pair (x : Shipment) : Pair := ⟨x.leader, x.backup.raft, x.call⟩

variable {node : Bytes} (recent quick : Bool) {x : Shipment} {b : Backup}

private theorem dataTransfer_receiver (req : DataReq) :
    (b.dataTransfer req).1.toReceiver = (b.toReceiver.dataTransfer req).1 ∧
      (b.dataTransfer req).1.db =
        if Backup.drops req (b.toReceiver.dataTransfer req).2 then Database.empty else b.db :=
  ⟨rfl, rfl⟩

private theorem serve_dataTransfer (req : DataReq) :
    (b.dataTransfer req).1.raft = (b.raft.handleDataTransfer req).1 ∧
      (b.dataTransfer req).2 = (b.raft.handleDataTransfer req).2 := by
  unfold Backup.dataTransfer Receiver.dataTransfer
  dsimp only
  repeat' split
  all_goals first
    | exact ⟨rfl, rfl⟩
    | exact ⟨Receiver.receiveName_raft _ _ _, rfl⟩

private theorem serve_doneTransfer (req : DoneReq) :
    (b.doneTransfer req).1.raft = (b.withNodes.handleDoneTransfer req).1 ∧
      (b.doneTransfer req).2 = (b.withNodes.handleDoneTransfer req).2 := by
  unfold Backup.doneTransfer Receiver.doneTransfer Backup.withNodes
  dsimp only
  split <;> exact ⟨rfl, rfl⟩

theorem step_call {req : Request} (hcall : x.call = some req) (halive : x.leader.faulted = false)
    (hserves : x.backup.raft.faulted = false) :
    step node recent quick x = after node
      (x.leader.finish node quick req (some (x.backup.serve recent req).2))
      (x.backup.serve recent req).1 := by
  rw [step, if_neg (by simp [halive]), hcall]
  dsimp only
  rw [if_neg (by simp [hserves])]

private theorem step_pair (hcall : ∀ req, x.call ≠ some (.doneTransfer req)) :
    (step node recent quick x).pair = Pair.step node recent quick x.pair := by
  obtain ⟨leader, b, call⟩ := x
  by_cases hleader : leader.faulted
  · simp [step, Pair.step, pair, hleader]
  cases call with
  | none =>
      by_cases htimer : leader.heartbeatTimer
      · simp [step, Pair.step, pair, after, Pair.after, Backup.idle, hleader, htimer]
      · simp [step, Pair.step, pair, hleader, htimer]
  | some req =>
      have hserve : (b.serve recent req).1.raft = (b.raft.serve recent req).1 ∧
          (b.serve recent req).2 = (b.raft.serve recent req).2 := by
        cases req with
        | dataTransfer req =>
            obtain ⟨hraft, hres⟩ := serve_dataTransfer (b := b) req
            exact ⟨hraft, congrArg Response.data hres⟩
        | doneTransfer req => exact absurd rfl (hcall req)
        | timeoutNow | preVote | requestVote | appendEntries => exact ⟨rfl, rfl⟩
      by_cases hfollower : b.raft.faulted
      · simp [step, Pair.step, pair, hleader, hfollower]
      · simp [step, Pair.step, pair, after, Pair.after, Backup.idle, hleader, hfollower, hserve]

private theorem step_pair_done (node : Bytes) {req : DoneReq} (hcall : x.call = some (.doneTransfer req))
    (halive : x.leader.faulted = false) (hserves : x.backup.raft.faulted = false) :
    (step node recent quick x).pair =
      Pair.step node recent quick ⟨x.leader, x.backup.withNodes, x.call⟩ := by
  obtain ⟨hraft, hres⟩ := serve_doneTransfer (b := x.backup) req
  have hfaulted : x.backup.withNodes.faulted = false := hserves
  rw [step_call recent quick hcall halive hserves]
  simp [Pair.step, pair, after, Pair.after, Backup.idle, Backup.serve, Raft.serve, halive, hfaulted,
    hcall, hraft, hres]

structure Keeps (b c : Backup) : Prop where
  files : c.files = b.files
  last : c.last = b.last
  db : c.db = b.db
  sender : c.raft.sender = b.raft.sender
  queue : c.raft.dataTransferQueue = b.raft.dataTransferQueue

private theorem step_appends (node : Bytes) {req : AppendEntriesReq}
    (hcall : x.call = some (.appendEntries req)) (halive : x.leader.faulted = false)
    (hserves : x.backup.raft.faulted = false) :
    (step node recent quick x).pair = Pair.step node recent quick x.pair ∧
      Keeps x.backup (step node recent quick x).backup := by
  have hsending := Raft.handleAppendEntries_frame .sending rfl rfl rfl (s := x.backup.raft) req
  have hsender := Raft.sender_of_sending hsending
  have hqueue := Raft.queue_of_sending hsending
  refine ⟨step_pair recent quick fun req => ?_, ?_⟩
  · rw [hcall]
    exact fun heq => by cases heq
  · rw [step_call recent quick hcall halive hserves]
    exact ⟨rfl, rfl, rfl, hsender, hqueue⟩

/-! ## The chunks of one file -/

variable {l : Raft} {g : List Entry} {n : Node} {log : EntryLogger} {files : Sender}
  {path content : Bytes} {left : List Bytes}

def transferOf (l : Raft) (path : Bytes) : Transfer :=
  { term := l.currTerm, leaderId := l.selfId, lastIndex := l.log.lastIndex,
    lastTerm := l.log.lastTerm, lastConfig := l.log.lastConfig, name := path, first := [],
    rest := [] }

private theorem dataReq_transferOf (hcompaction : l.logCompactionEnabled = true) (id : Nat)
    (data : Bytes) : l.dataReq id path data = (transferOf l path).dataReq id data := by
  simp [Raft.dataReq, Transfer.dataReq, transferOf, hcompaction]

private theorem transfer_name (s : Sender) : s.transfer.2.1 = [] ∨
    s.transfer.2.1 = s.transfer.1.last ∨ s.transfer.2.1 = s.transfer.1.last ++ ascii "/" := by
  have hfile : ∀ (s : Sender) (path : Bytes),
      (s.transferFile path).2.1 = (s.transferFile path).1.last := by
    intro s path
    unfold Sender.transferFile Sender.read
    dsimp only
    repeat' split
    all_goals rfl
  unfold Sender.transfer
  dsimp only
  repeat' split
  all_goals first
    | exact .inl rfl
    | exact .inr (.inr rfl)
    | exact .inr (.inl (hfile _ _))

structure Ships (l : Raft) (g : List Entry) (node : Bytes) (n : Node) (log : EntryLogger)
    (path content : Bytes) (left : List Bytes) (x : Shipment) : Prop where
  transfers : Pair.Transfers l g node n log x.pair
  waits : ∃ handled, (x.pair.exchange handled).Waits (left.map (path, ·))
  clear : Sender.Clear x.leader.sender.ahead
  last : x.leader.sender.last = path
  queue : x.backup.raft.dataTransferQueue = 0
  call : ∃ id data written, x.call = some (.dataTransfer (l.dataReq id path data)) ∧
    written ++ data ++ left.flatten = content ∧
    (id = 1 ∧ written = [] ∧ x.backup.last ≠ path ∨
      id ≠ 1 ∧ x.backup.toReceiver.Writing (transferOf l path) written ∧ x.backup.db = .empty)

structure Has (l : Raft) (path content : Bytes) (b : Backup) : Prop where
  writing : b.toReceiver.Writing (transferOf l path) content
  db : b.db = .empty
  queue : b.raft.dataTransferQueue = 0

private theorem drops_file {req : DataReq} {res : DataRes} (hname : req.name ≠ []) (hplain : 47 ∉ req.name)
    (hsuccess : res.success = true) : Backup.drops req res = decide (req.id = 1) := by
  have hcomponent : firstComponent req.name = req.name := by
    rw [firstComponent, takeWhile_plain hplain, if_neg hplain, List.append_nil]
  have hlast : req.name.getLast? ≠ some 47 := fun hlast => hplain (List.mem_of_getLast? hlast)
  simp [Backup.drops, hcomponent, hlast, hsuccess, hname]

theorem Ships.taken (hl : l.Presides node) (hname : (transferOf l path).NamesFile)
    (h : Ships l g node n log path content left x) :
    ∃ written, written ++ left.flatten = content ∧
      Has l path written (step node recent quick x).backup := by
  obtain ⟨id, data, written, hcall, hcontent, hkept⟩ := h.call
  refine ⟨written ++ data, hcontent, ?_⟩
  have hterm : x.backup.raft.currTerm ≤ (transferOf l path).term := h.transfers.trails.currTerm
  obtain ⟨raft, -, hqueue, hreceived⟩ :=
    Receiver.dataTransfer_accepted (r := x.backup.toReceiver) hname hterm id data
  have hterm' : x.backup.raft.currTerm ≤ (l.dataReq id path data).term := hterm
  have hsuccess := (Raft.handleDataTransfer_accepted hterm').1
  have hres := (serve_dataTransfer (b := x.backup) (l.dataReq id path data)).2
  rw [← dataReq_transferOf hl.compaction] at hreceived
  have hbackup : (step node recent quick x).backup =
      (x.backup.dataTransfer (l.dataReq id path data)).1.idle := by
    rw [step_call recent quick hcall h.transfers.leads.alive h.transfers.trails.alive]
    rfl
  have hdrops : Backup.drops (l.dataReq id path data)
      (x.backup.toReceiver.dataTransfer (l.dataReq id path data)).2 = decide (id = 1) :=
    drops_file hname.nonempty hname.plain (by
      rw [← hsuccess, ← hres]
      rfl)
  have hwriting : (x.backup.toReceiver.dataTransfer (l.dataReq id path data)).1.Writing
      (transferOf l path) (written ++ data) := by
    rw [hreceived]
    rcases hkept with ⟨rfl, rfl, hlast⟩ | ⟨hid, hwriting, -⟩
    · exact Receiver.receiveName_opens (r := ⟨raft, _, x.backup.last, x.backup.fout⟩) hname hlast
        FileSystem.inode_removeAll FileSystem.not_directory_removeAll data
    · rw [if_neg hid]
      exact Receiver.Writing.receiveName (r := ⟨raft, x.backup.files, x.backup.last, x.backup.fout⟩)
        ⟨hwriting.last, hwriting.stream⟩ hname data
  obtain ⟨hreceiver, hdb⟩ := dataTransfer_receiver (b := x.backup) (l.dataReq id path data)
  rw [← hreceiver] at hwriting hreceived
  rw [hbackup]
  refine ⟨⟨hwriting.last, hwriting.stream⟩, ?_, ?_⟩
  · refine hdb.trans ?_
    rw [hdrops]
    rcases hkept with ⟨rfl, -⟩ | ⟨hid, -, hempty⟩
    · rfl
    · rw [if_neg (by simpa using hid), hempty]
  · have hraft := congrArg Receiver.raft hreceived
    rw [Receiver.receiveName_raft] at hraft
    exact (congrArg (fun s : Raft => s.dataTransferQueue) hraft).trans (hqueue.trans h.queue)

private theorem last_of_nextChunk (hname : (transferOf l path).NamesFile) {files : Sender}
    (hchunk : (Pair.nextChunk files).2.1 = path) : (Pair.nextChunk files).1.last = path := by
  rcases transfer_name { files with dataTransferId := files.dataTransferId + 1 } with
    hnil | hlast | hslash
  · exact absurd (hchunk.symm.trans hnil) hname.nonempty
  · exact hlast.symm.trans hchunk
  · have hmem : (47 : UInt8) ∈ path := by
      rw [hchunk.symm.trans hslash]
      exact List.mem_append_right _ (by decide)
    exact absurd hmem hname.plain

structure Shipped (l : Raft) (g : List Entry) (node : Bytes) (n : Node) (log : EntryLogger)
    (path content : Bytes) (x : Shipment) : Prop where
  ending : Pair.Ending l g node n log x.pair
  call : ∃ req, x.call = some (.doneTransfer req) ∧ req.name = path
  has : Has l path content x.backup

theorem Ships.next (hl : l.Presides node) (hname : (transferOf l path).NamesFile)
    (h : Ships l g node n log path content left x) :
    left = [] ∧ Shipped l g node n log path content (step node recent quick x) ∨
      ∃ data rest, left = data :: rest ∧
        Ships l g node n log path content rest (step node recent quick x) := by
  obtain ⟨written, hcontent, hhas⟩ := h.taken recent quick hl hname
  obtain ⟨handled, hwaits⟩ := h.waits
  have hpair : (step node recent quick x).pair = Pair.step node recent quick x.pair := by
    obtain ⟨id, data, -, hcall, -⟩ := h.call
    refine step_pair recent quick fun req => ?_
    rw [hcall]
    exact fun heq => by cases heq
  have hcall := congrArg Pair.call hpair
  have hleader := congrArg Pair.leader hpair
  rcases Pair.step_waits recent quick hl h.transfers hwaits h.clear with
    ⟨hnil, hending, req, hdone, hlast⟩ | ⟨p, rest, handled', hleft, htransfers, hwaits', hclear,
      hsends, hchunk⟩
  · rw [List.map_eq_nil_iff] at hnil
    subst hnil
    rw [List.flatten_nil, List.append_nil] at hcontent
    exact .inl ⟨rfl, hpair ▸ hending, ⟨req, hcall.trans hdone, hlast.trans h.last⟩, hcontent ▸ hhas⟩
  · obtain ⟨data, rest', rfl, rfl, rfl⟩ := List.map_eq_cons_iff.mp hleft
    have hpath : (Pair.nextChunk x.pair.leader.sender.advance).2.1 = path := by rw [hchunk]
    have hdata : (Pair.nextChunk x.pair.leader.sender.advance).2.2 = data := by rw [hchunk]
    refine .inr ⟨data, rest', rfl, hpair ▸ htransfers, ⟨handled', hpair ▸ hwaits'⟩, ?_, ?_,
      hhas.queue, ?_⟩
    · rw [← hleader] at hclear
      exact hclear
    · have hsender := hsends.sender
      rw [← hleader] at hsender
      exact (congrArg Sender.last hsender).trans (last_of_nextChunk hname hpath)
    · refine ⟨x.leader.sender.advance.dataTransferId + 1, data, written, ?_, ?_,
        .inr ⟨?_, hhas.writing, hhas.db⟩⟩
      · refine hcall.trans (hsends.call.trans ?_)
        rw [hpath, hdata]
        rfl
      · rw [← hcontent, List.flatten_cons, List.append_assoc]
      · have hbegun : x.leader.sender.dataTransferId ≠ 0 := h.transfers.begun
        rw [Pair.advance_dataTransferId]
        exact fun heq => hbegun (by omega)

theorem Ships.all (hl : l.Presides node) (hname : (transferOf l path).NamesFile)
    (h : Ships l g node n log path content left x) :
    ∃ k, Shipped l g node n log path content ((step node recent quick)^[k] x) := by
  induction left generalizing x with
  | nil =>
      rcases h.next recent quick hl hname with ⟨-, hshipped⟩ | ⟨data, rest, hleft, -⟩
      · exact ⟨1, hshipped⟩
      · cases hleft
  | cons data left ih =>
      rcases h.next recent quick hl hname with ⟨hleft, -⟩ | ⟨data', rest, hleft, hnext⟩
      · cases hleft
      · cases hleft
        obtain ⟨k, hk⟩ := ih hnext
        exact ⟨k + 1, hk⟩

private theorem plan_file (files : Sender) (hfile : files.node files.path = some (.regular content)) :
    files.plan = (Sender.pieces content).map (files.path, ·) := by
  have hregular : files.isRegularFile files.path = true := by simp [Sender.isRegularFile, hfile]
  have hdir : files.isDirectory files.path = false := by simp [Sender.isDirectory, hfile]
  have hcontent : files.content files.path = content := by simp [Sender.content, hfile]
  rw [Sender.plan, if_neg (by simp [hdir]), if_pos hregular, hcontent]

private theorem ships_first (hl : l.Presides node) (hname : (transferOf l l.sender.path).NamesFile)
    (h : Pair.Stands l g node l.sender n x.pair) (hasks : Pair.Asks l n x.call)
    (hfiles : Pair.Quiescent l.sender)
    (hhas : x.backup.raft.log.hasEntry (l.appendEntriesReq n).prevLogIndex
      (l.appendEntriesReq n).prevLogTerm = false)
    (hrange : ¬ (l.log.lastIndex ≤ x.backup.raft.log.lastEntryIndex ∧
      x.backup.raft.log.lastEntryIndex < g.length))
    (hfile : l.sender.node l.sender.path = some (.regular content)) (hseen : l.sender.EndsSeen)
    (hlast : x.backup.last ≠ l.sender.path) (hqueue : x.backup.raft.dataTransferQueue = 0) :
    ∃ left, Ships l g node n (Pair.installed l x.backup.raft.log) l.sender.path content left
      (step node recent quick x) := by
  obtain ⟨commit, hcall⟩ := id hasks
  obtain ⟨hpair, hkeeps⟩ := step_appends recent quick node hcall h.leads.alive h.trails.alive
  obtain ⟨htransfers, hsends, u, hsender, hrole, hinit, hexchange⟩ :=
    Pair.step_transfers recent quick hl h hasks hhas hrange
  have htree : l.sender.FileTree :=
    hfiles.tree.resolve_right (by rw [hfile]; exact Option.some_ne_none _)
  have htree' : u.sender.FileTree := by
    rw [hsender]
    exact ⟨htree.nodup, htree.slash, htree.root, htree.leaf, htree.empty, htree.order⟩
  have hplan : u.sender.plan = (Sender.pieces content).map (l.sender.path, ·) := by
    rw [hsender]
    exact plan_file l.sender.initTransfer hfile
  have hclosed : u.sender.fin.path = none := by
    rw [hsender]
    exact hfiles.closed
  obtain ⟨p, rest, id, heq, hwaits, hawaited, hclear⟩ :=
    Exchange.start_waits node hrole hinit hclosed htree'
  rw [← hexchange, ← hpair] at hwaits hawaited hclear
  rw [← hpair] at htransfers hsends
  rw [hplan] at heq
  obtain ⟨data, left, hpieces, rfl, rfl⟩ := List.map_eq_cons_iff.mp heq
  have hchunk : (Pair.nextChunk l.sender.initTransfer).2 = (l.sender.path, data) := by
    rw [Pair.exchange, hsends.call] at hawaited
    obtain ⟨-, hname, hdata⟩ : _ ∧ (Pair.nextChunk l.sender.initTransfer).2.1 = l.sender.path ∧
        (Pair.nextChunk l.sender.initTransfer).2.2 = data := by
      simpa [Request.parcel, Raft.dataReq] using hawaited
    exact Prod.ext hname hdata
  have hseen' : u.sender.EndsSeen := by
    rw [hsender]
    exact hseen
  refine ⟨left, htransfers, ⟨[], hwaits⟩, hclear.mpr hseen', ?_, hkeeps.queue.trans hqueue, 1, data,
    [], ?_, ?_, .inl ⟨rfl, rfl, ?_⟩⟩
  · exact (congrArg Sender.last hsends.sender).trans
      (last_of_nextChunk hname (by rw [hchunk]))
  · refine hsends.call.trans ?_
    rw [hchunk]
    rfl
  · rw [← Sender.pieces_flatten content, hpieces, List.nil_append, List.flatten_cons]
  · rw [hkeeps.last]
    exact hlast

/-! ## Behind the snapshot -/

structure Queued (path content : Bytes) (b : Backup) : Prop where
  file : b.files.read path = some content
  path : b.raft.sender.path = path
  queue : b.raft.dataTransferQueue = 1
  db : b.db = .empty

theorem Queued.keeps {c : Backup} (h : Queued path content b) (hkeeps : Keeps b c) :
    Queued path content c := by
  refine ⟨?_, ?_, hkeeps.queue.trans h.queue, hkeeps.db.trans h.db⟩
  · rw [hkeeps.files]
    exact h.file
  · rw [hkeeps.sender]
    exact h.path

private theorem handleDoneTransfer_path {s : Raft} {req : DoneReq} (hterm : s.currTerm ≤ req.term)
    (hname : req.name ≠ []) (hplain : 47 ∉ req.name) :
    (s.handleDoneTransfer req).1.sender.path = req.name := by
  unfold Raft.handleDoneTransfer
  rw [if_neg (by omega)]
  dsimp only
  rw [if_neg hname, takeWhile_plain hplain]

theorem Shipped.next (hname : (transferOf l path).NamesFile)
    (h : Shipped l g node n log path content x) :
    Pair.Stands l g node x.leader.sender.initTransfer (Pair.transferred g n)
        (step node recent quick x).pair ∧
      Pair.Asks l (Pair.transferred g n) (step node recent quick x).call ∧
      (step node recent quick x).backup.raft.log = log ∧
      Queued path content (step node recent quick x).backup := by
  obtain ⟨req, hcall, hreq⟩ := h.call
  have halive := h.ending.leads.alive
  have hserves := h.ending.trails.alive
  have htrails := h.ending.trails
  have hending : Pair.Ending l g node n log ⟨x.leader, x.backup.withNodes, x.call⟩ :=
    ⟨h.ending.leads, h.ending.idle, ⟨htrails.currTerm, htrails.compaction, htrails.alive⟩,
      h.ending.call, h.ending.log⟩
  obtain ⟨hstands, hasks, hlog⟩ := Pair.step_done recent quick hending
  have hpair := step_pair_done recent quick node hcall halive hserves
  have hcall' := congrArg Pair.call hpair
  have hfollower := congrArg Pair.follower hpair
  have hterm : req.term = l.currTerm := by
    obtain ⟨req', hcall', hterm⟩ := h.ending.call
    have heq : some (Request.doneTransfer req) = some (.doneTransfer req') :=
      hcall.symm.trans hcall'
    cases heq
    exact hterm
  refine ⟨hpair ▸ hstands, ?_, (congrArg (fun s : Raft => s.log) hfollower).trans hlog, ?_⟩
  · rw [← hcall'] at hasks
    exact hasks
  let t : Transfer := { transferOf l path with leaderId := req.leaderId }
  have ht : t.NamesFile := ⟨hname.nonempty, hname.plain⟩
  have hdone : req = t.doneReq := by
    rw [show t.doneReq = ⟨l.currTerm, req.leaderId, path⟩ from rfl, ← hterm, ← hreq]
  obtain ⟨hinode, hread⟩ : x.backup.files.inode path ≠ none ∧
      x.backup.files.read path = some content := by
    obtain ⟨i, -, hinode, hcontent⟩ := h.has.writing.stream
    rw [FileSystem.read, show x.backup.files.inode path = some i from hinode]
    exact ⟨Option.some_ne_none i, hcontent⟩
  obtain ⟨-, hfiles, hqueue⟩ := Receiver.doneTransfer_accepted (r := x.backup.toReceiver) ht
    htrails.currTerm h.has.writing.last
  rw [← hdone] at hfiles hqueue
  have hexists : x.backup.files.exists_ t.name = true := by
    rw [FileSystem.exists_, show t.name = path from rfl, Option.isSome_iff_ne_none.mpr hinode,
      Bool.true_or]
  rw [hexists, h.has.queue] at hqueue
  have hpath : (x.backup.withNodes.handleDoneTransfer req).1.sender.path = req.name :=
    handleDoneTransfer_path (htrails.currTerm.trans hterm.ge) (hreq ▸ hname.nonempty)
      (hreq ▸ hname.plain)
  rw [← (serve_doneTransfer (b := x.backup) req).1, hreq] at hpath
  rw [step_call recent quick hcall halive hserves]
  refine ⟨?_, hpath, hqueue, h.has.db⟩
  rw [← hfiles] at hread
  exact hread

private theorem behind_repaired (hl : l.Presides node) (h : Pair.Stands l g node files n x.pair)
    (hf : x.backup.raft.log.Holds (g.take l.log.lastIndex)) (hasks : Pair.Asks l n x.call)
    (hn : Pair.Replicates n) (hnext : n.nextIndex = g.length + 1)
    (hqueued : Queued path content x.backup) :
    ∃ k, Pair.Repaired g node ((step node recent quick)^[k] x).pair ∧
      ((step node recent quick)^[k] x).backup.raft.log.lastIndex =
        x.backup.raft.log.lastIndex ∧
      Queued path content ((step node recent quick)^[k] x).backup := by
  have hbase : l.log.lastIndex ≤ g.length := h.leads.holds.base_le
  have hlen : (g.take l.log.lastIndex).length = l.log.lastIndex := by
    rw [List.length_take, Nat.min_eq_left hbase]
  have hpart : g.take l.log.lastIndex <+: g := List.take_prefix _ _
  obtain ⟨commit, hcall⟩ := id hasks
  obtain ⟨hpair, hkeeps⟩ :=
    step_appends recent quick node hcall h.leads.alive h.trails.alive
  rcases hbase.eq_or_lt with hall | hlt
  · obtain ⟨hrepaired, hlog⟩ := Pair.step_extends recent quick hl h hf hasks hn (agree_take g _)
      hpart hlen.ge (by rw [hlen, hall, hnext])
    rw [← hpair] at hrepaired hlog
    exact ⟨1, hrepaired, hlog, hqueued.keeps hkeeps⟩
  · have hprev := (Pair.asks_behind h.leads.holds hnext h.leads.holds.base_le le_rfl).1
    have hbeyond : (g.take l.log.lastIndex).length < (l.appendEntriesReq n).prevLogIndex := by
      omega
    have hrefused := Pair.refused_beyond hf hbeyond
    obtain ⟨hstands, hasks', hlog⟩ := Pair.step_retries recent quick hl h hasks hrefused
      (hf.lastEntryIndex_eq.trans hlen) le_rfl hlt
    have hf' : (Pair.step node recent quick x.pair).follower.log.Holds (g.take l.log.lastIndex) :=
      hlog ▸ hf
    rw [← hpair] at hstands hasks' hlog hf'
    obtain ⟨commit', hcall'⟩ := id hasks'
    obtain ⟨hpair', hkeeps'⟩ :=
      step_appends recent quick node hcall' hstands.leads.alive hstands.trails.alive
    obtain ⟨hrepaired, hlog'⟩ := Pair.step_extends recent quick hl hstands hf' hasks'
      ⟨hn.leader, hn.data⟩ (agree_take g _) hpart hlen.ge (by rw [hlen]; rfl)
    rw [← hpair'] at hrepaired hlog'
    exact ⟨2, hrepaired, hlog'.trans (congrArg EntryLogger.lastIndex hlog),
      (hqueued.keeps hkeeps).keeps hkeeps'⟩

end Shipment

/-! ## The database -/

variable {g : List Entry} {entries : List (Bytes × Bytes)} {before behind : List Bytes}

private theorem loadDatabase_snapshot {parse : Bytes → Option (List (Bytes × Bytes))}
    (hreads : ReadsLines parse) (db : Database) {loaded : Database} (hlists : loaded.Lists entries)
    (hplain : ∀ e ∈ entries, Plain e.1 e.2) :
    loadDatabase parse db (takeSnapshot entries) = some fun key => (loaded key).or (db key) := by
  by_cases hnil : takeSnapshot entries = []
  · have hentries : entries = [] := by
      cases entries with
      | nil => rfl
      | cons e rest => simp [takeSnapshot] at hnil
    have hempty : ∀ key, loaded key = none := by
      subst hentries
      intro key
      cases hkey : loaded key with
      | none => rfl
      | some value => cases (hlists.mem key value).mpr hkey
    simp [loadDatabase, hnil, hempty]
  · have hlines : split 10 (takeSnapshot entries) =
        (entries.map fun e => snapshotLine e.1 e.2) ++ [[]] :=
      split_snapshot fun e he => newline_not_mem_line (hplain e he).clean (hplain e he).value_clean
    rw [loadDatabase, if_neg hnil, hreads, hlines, configLines_blank,
      configLines_entries fun e he => configLine_plain (hplain e he), Option.map_some,
      hlists.parsed]

/--
A key that is changed before the snapshot is loaded is changed again behind it, or the
snapshot has no value for it or the one that it has in the end.
-/
def Outlived (loaded full : Database) (before behind : List Bytes) : Prop :=
  ∀ u ∈ before.filterMap Database.change,
    u.1 ∈ (behind.filterMap Database.change).map Prod.fst ∨
      loaded u.1 = none ∨ loaded u.1 = full u.1

private theorem loaded_of_notMem {base taken : Nat} (hle : base ≤ taken)
    (hsplit : texts (g.drop base) = before ++ behind) {key : Bytes}
    (hbefore : key ∉ (before.filterMap Database.change).map Prod.fst)
    (hbehind : key ∉ (behind.filterMap Database.change).map Prod.fst) :
    Database.empty.restore (texts (g.take taken)) key =
      Database.empty.restore (texts (g.take base)) key := by
  have hmore : texts (g.take taken) =
      texts (g.take base) ++ texts ((g.drop base).take (taken - base)) := by
    rw [← texts_append, ← List.take_add, Nat.add_sub_cancel' hle]
  have hpart : texts ((g.drop base).take (taken - base)) <+: before ++ behind := by
    rw [← hsplit]
    exact ((List.take_prefix _ _).filter _).map _
  rw [hmore, Database.restore_append, Database.restore_eq_replay _ (texts (List.take _ _)),
    replay_of_notMem]
  intro hmem
  have hsub := ((hpart.filterMap Database.change).map Prod.fst).subset hmem
  rw [List.filterMap_append, List.map_append, List.mem_append] at hsub
  exact hsub.elim hbefore hbehind

private theorem loaded_between {base taken : Nat} (hle : base ≤ taken)
    (hsplit : texts (g.drop base) = before ++ behind) :
    Database.restore (fun key => (Database.empty.restore (texts (g.take taken)) key).or
        (Database.empty.restore before key)) behind = Database.empty.restore (texts g) ↔
      Outlived (Database.empty.restore (texts (g.take taken))) (Database.empty.restore (texts g))
        before behind := by
  have hwhole : Database.empty.restore (texts g) =
      ((Database.empty.restore (texts (g.take base))).restore before).restore behind := by
    rw [← Database.restore_append, ← Database.restore_append, ← hsplit, ← texts_append,
      List.take_append_drop]
  -- what the entries up to the reload make of a key that is not changed behind it
  have hstays : ∀ key, key ∉ (behind.filterMap Database.change).map Prod.fst →
      Database.empty.restore (texts g) key =
        (Database.empty.restore (texts (g.take base))).restore before key := by
    intro key hkey
    rw [hwhole, Database.restore_eq_replay _ behind, replay_of_notMem hkey]
  conv_lhs => rw [hwhole]
  rw [Database.restore_eq_replay _ behind, Database.restore_eq_replay _ behind, replay_eq_iff]
  constructor
  · intro hall u _
    by_cases hbehind : u.1 ∈ (behind.filterMap Database.change).map Prod.fst
    · exact .inl hbehind
    have hsame := (hall u.1).resolve_left hbehind
    cases hloaded : Database.empty.restore (texts (g.take taken)) u.1 with
    | none => exact .inr (.inl rfl)
    | some value =>
        rw [hloaded, Option.some_or, ← hstays u.1 hbehind] at hsame
        exact .inr (.inr hsame)
  · intro houtlived key
    by_cases hbehind : key ∈ (behind.filterMap Database.change).map Prod.fst
    · exact .inl hbehind
    refine .inr ?_
    by_cases hbefore : key ∈ (before.filterMap Database.change).map Prod.fst
    · obtain ⟨u, hu, rfl⟩ := List.mem_map.mp hbefore
      rcases (houtlived u hu).resolve_left hbehind with hnone | hfull
      · rw [hnone, Option.none_or, Database.restore_eq_replay _ before,
          Database.restore_eq_replay _ before]
        exact replay_of_mem hbefore
      · rw [hfull, hstays u.1 hbehind]
        cases hvalue : (Database.empty.restore (texts (g.take base))).restore before u.1 with
        | some value => rfl
        | none =>
            rw [Option.none_or, ← hvalue, Database.restore_eq_replay _ before,
              Database.restore_eq_replay _ before]
            exact replay_of_mem hbefore
    · rw [loaded_of_notMem hle hsplit hbefore hbehind, Database.restore_eq_replay _ before,
        Database.restore_eq_replay _ before, replay_of_notMem hbefore, replay_of_notMem hbefore]
      exact Option.or_none

/-! ## Installing a snapshot -/

namespace Shipment

variable {l : Raft} {full : List Entry} {n : Node} {b : Backup} {taken : Nat}
  (recent quick : Bool)

/-- The first request is refused, and the leader has not got what the follower lacks. -/
structure Outdated (l : Raft) (g : List Entry) (n : Node) (log : EntryLogger) : Prop where
  refused : log.hasEntry (l.appendEntriesReq n).prevLogIndex
    (l.appendEntriesReq n).prevLogTerm = false
  missing : ¬ (l.log.lastIndex ≤ log.lastEntryIndex ∧ log.lastEntryIndex < g.length)

/-- The path of the leader is the snapshot of what the log held up to some index. -/
structure Saved (l : Raft) (g : List Entry) (taken : Nat) (entries : List (Bytes × Bytes)) :
    Prop where
  name : (transferOf l l.sender.path).NamesFile
  file : l.sender.node l.sender.path = some (.regular (takeSnapshot entries))
  seen : l.sender.EndsSeen
  lists : (Database.empty.restore (texts (g.take taken))).Lists entries
  plain : ∀ e ∈ entries, Plain e.1 e.2
  base_le : l.log.lastIndex ≤ taken

theorem installed (h : Pair.Begins l b.raft g full n) (hlog : Outdated l g n b.raft.log)
    (hsaved : Saved l g taken entries) (hlast : b.last ≠ l.sender.path)
    (hqueue : b.raft.dataTransferQueue = 0) :
    ∃ k, Pair.Repaired g n.id ((step n.id recent quick)^[k] (start n.id l b)).pair ∧
      ((step n.id recent quick)^[k] (start n.id l b)).backup.raft.log.lastIndex =
        l.log.lastIndex ∧
      Queued l.sender.path (takeSnapshot entries)
        ((step n.id recent quick)^[k] (start n.id l b)).backup := by
  obtain ⟨hstands, hasks, hsame⟩ := h.start
  have hl := h.presides
  obtain ⟨left, hships⟩ := ships_first (x := start n.id l b) recent quick hl hsaved.name hstands
    hasks h.files hlog.refused hlog.missing hsaved.file hsaved.seen hlast hqueue
  obtain ⟨k, hshipped⟩ := hships.all recent quick hl hsaved.name
  obtain ⟨hstands', hasks', hlog', hqueued⟩ := hshipped.next recent quick hsaved.name
  have hinstalled := Pair.installed_holds (l := l) h.logged.holds h.holds.chop_all
  rw [← show (start n.id l b).backup.raft.log = b.raft.log from hsame, ← hlog'] at hinstalled
  obtain ⟨m, hrepaired, hbase, hqueued'⟩ := behind_repaired recent quick hl hstands' hinstalled
    hasks' ⟨h.replicates.leader, rfl⟩ rfl hqueued
  rw [hlog'] at hbase
  simp only [← Function.iterate_succ_apply, ← Function.iterate_succ_apply' (step n.id recent quick),
    ← Function.iterate_add_apply] at hrepaired hbase hqueued'
  exact ⟨_, hrepaired, hbase, hqueued'⟩

private theorem Queued.reloads {parse : Bytes → Option (List (Bytes × Bytes))} {path : Bytes}
    {loaded : Database} (h : Queued path (takeSnapshot entries) b) (hreads : ReadsLines parse)
    (hlists : loaded.Lists entries) (hplain : ∀ e ∈ entries, Plain e.1 e.2)
    (before : List Bytes) :
    ∃ c, (b.applied before).applyDataTransfer parse = some c ∧ c.raft.dataTransferQueue = 0 ∧
      c.db = fun key => (loaded key).or (Database.empty.restore before key) := by
  have hload := loadDatabase_snapshot hreads (Database.empty.restore before) hlists hplain
  let c : Backup := { b with
    raft := { b.raft with dataTransferQueue := b.raft.dataTransferQueue - 1 }
    db := fun key => (loaded key).or (Database.empty.restore before key) }
  refine ⟨c, ?_, ?_, rfl⟩
  · unfold Backup.applyDataTransfer Backup.applied
    rw [if_neg (by simp [h.queue]), Backup.reload, h.path, h.file, h.db]
    dsimp only
    rw [hload]
    rfl
  · rw [show c.raft.dataTransferQueue = b.raft.dataTransferQueue - 1 from rfl, h.queue]

/--
Installing a snapshot: the exchange of chunks repairs the follower's log, and with the
snapshot loaded at whatever time among the entries behind it the follower's database is
what the whole log gives exactly when no key is left at its value in the snapshot that was
changed before the loading.
-/
theorem snapshot_installed {parse : Bytes → Option (List (Bytes × Bytes))}
    (hreads : ReadsLines parse) (h : Pair.Begins l b.raft g full n)
    (hlog : Outdated l g n b.raft.log) (hsaved : Saved l g taken entries)
    (hlast : b.last ≠ l.sender.path) (hqueue : b.raft.dataTransferQueue = 0) :
    ∃ y k, y = (step n.id recent quick)^[k] (start n.id l b) ∧ Pair.Repaired g n.id y.pair ∧
      y.backup.raft.log.lastIndex = l.log.lastIndex ∧ y.backup.db = .empty ∧
      ∀ before behind, texts (y.backup.raft.log.entries.map LogEntry.toEntry) = before ++ behind →
        ∃ c, (y.backup.applied before).applyDataTransfer parse = some c ∧
          c.raft.dataTransferQueue = 0 ∧
          ((c.applied behind).db = Database.empty.restore (texts g) ↔
            Outlived (Database.empty.restore (texts (g.take taken)))
              (Database.empty.restore (texts g)) before behind) := by
  obtain ⟨k, hrepaired, hbase, hqueued⟩ := installed recent quick h hlog hsaved hlast hqueue
  refine ⟨_, k, rfl, hrepaired, hbase, hqueued.db, fun before behind hsplit => ?_⟩
  obtain ⟨c, hreload, hempty, hdb⟩ := hqueued.reloads hreads hsaved.lists hsaved.plain before
  have hsplit' : texts (g.drop l.log.lastIndex) = before ++ behind := by
    rw [← hsplit, ← hbase]
    exact congrArg texts hrepaired.follower.symm
  refine ⟨c, hreload, hempty, ?_⟩
  rw [Backup.applied, hdb]
  exact loaded_between hsaved.base_le hsplit'

def history : List Entry :=
  [{ term := 1, index := 1, data := ascii "a:1,b:1", config := true },
    { term := 1, index := 2, data := ascii "set k v", config := false },
    { term := 3, index := 3, data := ascii "set j w", config := false }]

/-- The leader of term 4 has the snapshot of the first two entries. -/
def shipper : Raft :=
  { Pair.elected [1, 1, 3] with
    log :=
      { lastIndex := 2
        lastTerm := 1
        lastConfig := ascii "a:1,b:1"
        cfgEntryIndex := 0
        entries :=
          [{ term := 3, index := 3, data := ascii "set j w", config := false, prevCfg := 0 }] }
    commitIndex := 2
    lastApplied := 2
    sender :=
      { path := ascii "db"
        files := [(ascii "db", .regular (takeSnapshot [(ascii "k", ascii "v")]))]
        pending := []
        fin := { path := none, position := 0, good := true, gcount := 0 }
        last := []
        dataTransferId := 0
        doneTransferId := 0 } }

/-- The follower has the configuration only, and an older file. -/
def outdated : Backup :=
  { raft := Pair.behind [1]
    files := { names := [(ascii "db", 0)], directories := [], contents := [ascii "j = u\n"] }
    last := []
    fout := none
    db := Database.empty.insert { key := ascii "j", value := ascii "u", type := .set } }

private theorem begins_shipper :
    Pair.Begins shipper outdated.raft history (Pair.entriesOf [1]) Pair.nodeB where
  role := rfl
  alive := rfl
  compaction := rfl
  logged := ⟨by decide, by decide, by decide, by decide⟩
  ids := by decide
  matched := by decide
  idle := rfl
  files := ⟨rfl, .inl (by decide)⟩
  member := by decide
  other := by decide
  settled := rfl
  replicates := ⟨rfl, rfl⟩
  next_pos := by decide
  next_le := by decide
  holds := by decide
  currTerm := Nat.le_succ 3
  compacts := rfl
  serves := rfl
  agree := by decide

private theorem saved_shipper : Saved shipper history 2 [(ascii "k", ascii "v")] where
  name := ⟨by decide, by decide⟩
  file := rfl
  seen := by decide
  lists := lists_insert _ _
  plain := by
    intro e he
    obtain rfl := List.mem_singleton.mp he
    exact ⟨by simp [ascii], by simp [ascii], by decide, by decide, by decide⟩
  base_le := le_rfl

theorem snapshot_installed_first :
    ∃ y k, y = (step (ascii "b:1") false false)^[k] (start (ascii "b:1") shipper outdated) ∧
      ∃ c, y.backup.applyDataTransfer (fun text => configLines [] (split 10 text)) = some c ∧
        (c.applied [ascii "set j w"]).db = Database.empty.restore (texts history) := by
  obtain ⟨y, k, hy, hrepaired, hbase, -, hall⟩ := snapshot_installed (n := Pair.nodeB) false false
    (fun _ => rfl) begins_shipper ⟨by decide, by decide⟩ saved_shipper (by decide) rfl
  have hentries : texts (y.backup.raft.log.entries.map LogEntry.toEntry) = [ascii "set j w"] := by
    refine (congrArg texts hrepaired.follower).trans ?_
    rw [show y.pair.follower.log.lastIndex = 2 from hbase]
    decide
  obtain ⟨c, hc, -, hiff⟩ := hall [] [ascii "set j w"] hentries
  exact ⟨y, k, hy, c, hc, hiff.mpr fun u hu => by simp at hu⟩

end Shipment

end Draft.Kv
