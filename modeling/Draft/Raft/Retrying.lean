import Draft.Raft.Exchange

/-!
# Calls that fail while a server is added

A failed call of a transfer to a new server is not made again: the next request
is made, from where the stream and the counter are.  What the receiver has not
handled is lost, unless it held nothing.
-/

namespace Draft

namespace Sender

variable {s : Sender} {path : Bytes} {k : Nat}

def needed (size : Nat) : Nat := max 1 ((size + (buffSize - 1)) / buffSize)

/-- The first request handled is number 1, and what the requests hold are the pieces of the file. -/
structure Kept (s : Sender) (handled : List Parcel) : Prop where
  first : ∃ data, handled.head? = some (.chunk 1 s.path data)
  chunks : (handled.filterMap Parcel.file).filter (·.2 ≠ []) =
    ((pieces (s.content s.path)).filter (· ≠ [])).map (s.path, ·)

/-! ## Reads of a file, handled or not -/

/-- Of the file at the path `k` reads have been made, some of them behind its end. -/
structure Read (s : Sender) (path : Bytes) (k : Nat) : Prop where
  root : s.path = path
  pending : s.pending = []
  file : s.isRegularFile path = true
  last : s.last = path
  stream : s.fin.path = if s.fileSize path = 0 then none else some path
  position : s.fileSize path ≠ 0 → s.fin.position = min (k * buffSize) (s.fileSize path)
  gcount : s.fileSize path ≠ 0 → s.fin.gcount = (piece (s.content path) (k - 1)).length
  good : s.fileSize path ≠ 0 → s.fin.good = decide (s.fin.gcount = buffSize)

theorem Read.numbered (h : s.Read path k) (n : Nat) :
    Read { s with dataTransferId := n } path k :=
  ⟨h.root, h.pending, h.file, h.last, h.stream, h.position, h.gcount, h.good⟩

structure Reads (s : Sender) (path : Bytes) (k : Nat) : Prop where
  request : s.transfer.2 = (path, piece (s.content path) k)
  read : s.transfer.1.Read path (k + 1)
  same : SameFiles s s.transfer.1
  dataTransferId : s.transfer.1.dataTransferId = s.dataTransferId

private theorem piece_of_le {content : Bytes} (h : content.length ≤ k * buffSize) :
    piece content k = [] := by
  rw [piece, List.drop_eq_nil_of_le h, List.take_nil]

private theorem reads_first (hclosed : s.fin.path = none) (hroot : s.path = path)
    (hpending : s.pending = []) (hfile : s.isRegularFile path = true) : s.Reads path 0 := by
  subst hroot
  have hpiece := @sendsPiece_first s s.path hclosed
  have htransfer := transfer_single hpending hfile
  have hprogress := hpiece.progress
  have hsame := hpiece.same
  constructor
  case request => rw [htransfer, hpiece.request]
  case same => exact htransfer ▸ hsame.toSameFiles
  case dataTransferId => exact htransfer ▸ hsame.dataTransferId
  case read =>
    rw [htransfer]
    refine ⟨hsame.path, hsame.pending.trans hpending, ?_, hprogress.last, hprogress.stream,
      hprogress.position, fun hsize => ?_, hprogress.good⟩
    · rw [hsame.isRegularFile]
      exact hfile
    · rw [hprogress.gcount hsize, length_piece]
      unfold fileSize buffSize
      omega

private theorem transferFile_failed (hsize : s.fileSize path ≠ 0) (hopen : s.fin.path = some path)
    (hgood : s.fin.good = false) :
    s.transferFile path = ({ s with fin := { s.fin with gcount := 0 } }, s.last, []) := by
  rw [transferFile, if_neg hsize]
  simp [hopen, read, hgood]

private theorem Read.eof_needs (h : s.Read path k) (hk : 0 < k) (heof : s.eof path = true) :
    needed (s.fileSize path) ≤ k := by
  by_cases hsize : s.fileSize path = 0
  · rw [hsize]
    exact hk
  · have hcount := h.gcount hsize
    rw [length_piece] at hcount
    simp only [eof, Bool.or_eq_true, decide_eq_true_eq, hcount] at heof
    have hlength : (s.content path).length = s.fileSize path := rfl
    rw [hlength] at heof
    unfold needed buffSize at *
    omega

theorem Read.same {s' : Sender} {j : Nat} (h : s.Read path j) (hsame : SameFiles s s')
    (hpending : s'.pending = s.pending) (hlast : s'.last = path)
    (hstream : s'.fin.path = s.fin.path)
    (hposition : s.fileSize path ≠ 0 → s'.fin.position = min (k * buffSize) (s.fileSize path))
    (hgcount : s.fileSize path ≠ 0 → s'.fin.gcount = (piece (s.content path) (k - 1)).length)
    (hgood : s.fileSize path ≠ 0 → s'.fin.good = decide (s'.fin.gcount = buffSize)) :
    s'.Read path k where
  root := hsame.path.trans h.root
  pending := hpending.trans h.pending
  file := (hsame.isRegularFile path).trans h.file
  last := hlast
  stream := by
    rw [hstream, hsame.fileSize]
    exact h.stream
  position := by
    rw [hsame.fileSize]
    exact hposition
  gcount := by
    rw [hsame.fileSize, hsame.content]
    exact hgcount
  good := by
    rw [hsame.fileSize]
    exact hgood

theorem Read.next (h : s.Read path k) (hk : 0 < k) : s.Reads path k := by
  have hroot := h.root
  subst hroot
  have htransfer := transfer_single h.pending h.file
  by_cases hsize : s.fileSize s.path = 0
  · have hcontent : s.content s.path = [] := List.length_eq_zero_iff.mp hsize
    have hsame : SameFiles s { s with last := s.path } := ⟨rfl, rfl⟩
    rw [transferFile_empty hsize] at htransfer
    constructor
    case request => rw [htransfer, hcontent]; simp [piece]
    case same => rw [htransfer]; exact hsame
    case dataTransferId => rw [htransfer]
    case read =>
      rw [htransfer]
      exact h.same hsame rfl rfl rfl (absurd hsize) (absurd hsize) (absurd hsize)
  · have hopen : s.fin.path = some s.path := by rw [h.stream, if_neg hsize]
    have hgcount := h.gcount hsize
    have hposition := h.position hsize
    have hlength : ∀ j, (piece (s.content s.path) j).length =
        min buffSize (s.fileSize s.path - j * buffSize) := length_piece _
    obtain ⟨j, rfl⟩ : ∃ j, k = j + 1 := ⟨k - 1, by omega⟩
    rw [Nat.add_sub_cancel, hlength] at hgcount
    by_cases hfull : s.fin.gcount = buffSize
    · have hread : (j + 1) * buffSize ≤ s.fileSize s.path := by
        unfold buffSize at *
        omega
      rw [Nat.min_eq_left hread] at hposition
      have hmin : min ((j + 1 + 1) * buffSize) (s.fileSize s.path) =
          (j + 1) * buffSize + (piece (s.content s.path) (j + 1)).length := by
        rw [hlength]
        unfold buffSize at *
        omega
      obtain ⟨position, hnext⟩ : ∃ n, n =
          (j + 1) * buffSize + (piece (s.content s.path) (j + 1)).length := ⟨_, rfl⟩
      rw [transferFile_reads hsize hopen (by simp [h.good hsize, hfull]) hposition hnext]
        at htransfer
      constructor
      case request => rw [htransfer, h.last]
      case same => rw [htransfer]; exact ⟨rfl, rfl⟩
      case dataTransferId => rw [htransfer]
      case read =>
        rw [htransfer]
        refine h.same ⟨rfl, rfl⟩ rfl h.last rfl (fun _ => hnext.trans hmin.symm) (fun _ => ?_)
          fun _ => rfl
        rw [Nat.add_sub_cancel]
    · have hshort : s.fileSize s.path ≤ (j + 1) * buffSize := by
        unfold buffSize at *
        omega
      have hnothing : piece (s.content s.path) (j + 1) = [] := piece_of_le hshort
      have hgood : s.fin.good = false := by simp [h.good hsize, hfull]
      have hempty : 0 ≠ buffSize := by decide
      have hend : min ((j + 1) * buffSize) (s.fileSize s.path) =
          min ((j + 1 + 1) * buffSize) (s.fileSize s.path) := by
        unfold buffSize at *
        omega
      rw [transferFile_failed hsize hopen hgood] at htransfer
      constructor
      case request => rw [htransfer, hnothing, h.last]
      case same => rw [htransfer]; exact ⟨rfl, rfl⟩
      case dataTransferId => rw [htransfer]
      case read =>
        rw [htransfer]
        refine h.same ⟨rfl, rfl⟩ rfl h.last rfl (fun _ => hposition.trans hend) (fun _ => ?_)
          fun _ => ?_
        · rw [Nat.add_sub_cancel, hnothing]
          rfl
        · simp [hgood, hempty]

end Sender

namespace Exchange

variable {node path content : Bytes} {k : Nat} {x : Exchange} {s : Raft}

def Acknowledged (x : Exchange) : Prop := ∃ name, .done name ∈ x.handled

/-- What the receiver handles of the requests for a file, by the answers to them. -/
def heard (path content : Bytes) : Nat → List (Option DataRes) → List Parcel
  | _, [] => []
  | k, res :: rest =>
      (if res.isSome then [.chunk k path (Sender.piece content (k - 1))] else []) ++
        heard path content (k + 1) rest

/-! ## The calls of a transfer -/

structure Reading (node path content : Bytes) (k : Nat) (x : Exchange) : Prop where
  role : x.leader.role = .leader
  newly : x.leader.newly node = true
  idle : x.leader.sent = []
  pos : 0 < k
  number : x.leader.sender.dataTransferId = k
  holds : x.leader.sender.content path = content
  read : x.leader.sender.Read path k
  awaited : x.awaited = some (.chunk k path (Sender.piece content (k - 1)))

private theorem reading_calls (hrole : s.role = .leader) (hnewly : s.newly node = true)
    (hidle : s.sent = []) (hnumber : s.sender.dataTransferId = k)
    (hcontent : s.sender.content path = content)
    (hfile : s.sender.isRegularFile s.sender.path = true)
    (hreads : Sender.Reads { s.sender with dataTransferId := k + 1 } path k)
    (handled : List Parcel) :
    (after handled (s.doDataTransfer node)).Reading node path content (k + 1) := by
  have hcalls := @calls_doDataTransfer node s hidle hrole
    (.inr (Sender.exists_of_regular hfile)) handled
  have hsender := hcalls.sender
  have hawaited := hcalls.awaited
  rw [hnumber] at hsender hawaited
  constructor
  case role => exact hcalls.role.trans hrole
  case newly => exact hcalls.newly.trans hnewly
  case idle => exact hcalls.idle
  case pos => exact Nat.succ_pos k
  case number => rw [hsender, hreads.dataTransferId]
  case holds =>
    rw [hsender, hreads.same.content]
    exact hcontent
  case read => exact hsender ▸ hreads.read
  case awaited =>
    rw [hawaited, hreads.request, Nat.add_sub_cancel]
    exact congrArg (fun c => some (Parcel.chunk (k + 1) path (Sender.piece c k))) hcontent

theorem Reading.next (h : x.Reading node path content k) (handled : List Parcel) :
    (after handled (x.leader.doDataTransfer node)).Reading node path content (k + 1) := by
  have hfile : x.leader.sender.isRegularFile x.leader.sender.path = true := by
    rw [h.read.root]
    exact h.read.file
  exact reading_calls h.role h.newly h.idle h.number h.holds hfile
    ((h.read.numbered (k + 1)).next h.pos) handled

private theorem awaited_after {handled : List Parcel} (h : s.sending.2.2 = []) :
    (after handled s).awaited = none := by
  have hnone : s.sent.filterMap (·.request.parcel) = [] := by
    rw [List.filterMap_eq_nil_iff]
    intro o ho
    have hparcel := List.filterMap_eq_nil_iff.mp h o ho
    simpa using hparcel
  exact congrArg List.head? hnone

private theorem answer_none (h : x.awaited = none) (answers : List (Option DataRes)) :
    answers.foldl (Exchange.answer node) x = x := by
  induction answers with
  | nil => rfl
  | cons res answers ih =>
      have hstays : x.answer node res = x := by rw [Exchange.answer, h]
      rw [List.foldl_cons, hstays, ih]

structure Ending (node path : Bytes) (x : Exchange) : Prop where
  newly : x.leader.newly node = true
  idle : x.leader.sent = []
  last : x.leader.sender.last = path
  awaited : x.awaited = some (.done path)

private theorem ending_calls (hnewly : s.newly node = true) (hidle : s.sent = [])
    (hlast : s.sender.last = path) (handled : List Parcel) :
    (after handled (s.doDoneTransfer node)).Ending node path := by
  have hends := @ends_doDoneTransfer node s hidle handled
  constructor
  case newly => exact hends.newly.trans hnewly
  case idle => exact hends.idle
  case last => exact hends.last.trans hlast
  case awaited => rw [hends.awaited, hlast]

theorem Ending.run (answers : List (Option DataRes)) (h : x.Ending node path)
    (hnone : ∀ name, .done name ∉ x.handled)
    (hacked : (answers.foldl (answer node) x).Acknowledged) :
    (answers.foldl (answer node) x).handled = x.handled ++ [.done path] := by
  induction answers generalizing x with
  | nil =>
      obtain ⟨name, hname⟩ := hacked
      exact absurd hname (hnone name)
  | cons res answers ih =>
      rw [List.foldl_cons] at hacked ⊢
      rw [answer_done h.awaited] at hacked ⊢
      cases res with
      | none =>
          have hagain : x.leader.onDoneTransfer node none = x.leader.doDoneTransfer node :=
            if_pos h.newly
          rw [hagain] at hacked ⊢
          exact ih (ending_calls h.newly h.idle h.last _) hnone hacked
      | some res =>
          have hquiet : (x.leader.onDoneTransfer node (some res)).sending.2.2 = [] := by
            have hidle : x.leader.sending.2.2 = [] := by simp [Raft.sending, h.idle]
            unfold Raft.onDoneTransfer
            dsimp only
            split
            · exact (Raft.parcels_of_sending (Raft.appendEntriesTo_frame .sending node)).trans hidle
            split
            · refine (Raft.parcels_of_sending ?_).trans hidle
              exact Raft.stepDown_frame .sending rfl rfl _ _
            · exact hidle
          rw [answer_none (awaited_after hquiet)]
          rfl

theorem Reading.answer (h : x.Reading node path content k) (res : Option DataRes) :
    (x.answer node res).handled = x.handled ++ heard path content k [res] ∧
      ((x.answer node res).Reading node path content (k + 1) ∨
        Sender.needed content.length ≤ k ∧ (x.answer node res).Ending node path ∨
        (x.answer node res).awaited = none) := by
  rw [answer_chunk h.awaited]
  cases res with
  | none =>
      have hagain : x.leader.onDataTransfer node none = x.leader.doDataTransfer node :=
        if_pos h.newly
      rw [hagain]
      exact ⟨by simp [after, heard], .inl (h.next _)⟩
  | some res =>
      refine ⟨by simp [after, heard], ?_⟩
      by_cases hsuccess : res.success = true
      · have hanswer : x.leader.onDataTransfer node (some res) = x.leader.onDataSuccess node := by
          unfold Raft.onDataTransfer
          dsimp only
          rw [if_pos hsuccess, Sender.advance_nil h.read.pending]
        rw [hanswer]
        cases hfinished : Raft.transferFinished x.leader.sender with
        | false =>
            have hgoesOn : x.leader.onDataSuccess node = x.leader.doDataTransfer node :=
              if_neg (by simp [hfinished])
            rw [hgoesOn]
            exact .inl (h.next _)
        | true =>
            have hend : x.leader.onDataSuccess node =
                Raft.doDoneTransfer { x.leader with sender := x.leader.sender.close } node := by
              unfold Raft.onDataSuccess
              rw [if_pos hfinished, h.read.root, if_pos h.read.file]
            have heof : x.leader.sender.eof path = true := by
              have hends : x.leader.sender.pending = [] ∧ x.leader.sender.eof path = true := by
                simpa [Raft.transferFinished, h.read.root, h.read.file] using hfinished
              exact hends.2
            have hneeded := h.read.eof_needs h.pos heof
            rw [Sender.fileSize, h.holds] at hneeded
            rw [hend]
            exact .inr (.inl ⟨hneeded, ending_calls
              (s := { x.leader with sender := x.leader.sender.close }) h.newly h.idle
              h.read.last _⟩)
      · have hidle : x.leader.sending.2.2 = [] := by simp [Raft.sending, h.idle]
        refine .inr (.inr (awaited_after ?_))
        unfold Raft.onDataTransfer
        dsimp only
        rw [if_neg hsuccess]
        split
        · have hdown := Raft.parcels_of_sending
            (Raft.stepDown_frame (s := { x.leader with sender := x.leader.sender.advance }) .sending
              rfl rfl res.term node)
          exact hdown.trans hidle
        · exact hidle

/--
Up to the acknowledgement there have been some calls of requests, the last of
them handled, and the receiver has handled those that did not fail.
-/
theorem Reading.run (answers : List (Option DataRes)) (h : x.Reading node path content k)
    (hnone : ∀ name, .done name ∉ x.handled)
    (hacked : (answers.foldl (Exchange.answer node) x).Acknowledged) :
    ∃ j, Sender.needed content.length ≤ k + j ∧ j < answers.length ∧
      (answers.foldl (Exchange.answer node) x).handled =
        x.handled ++ heard path content k (answers.take (j + 1)) ++ [.done path] := by
  induction answers generalizing x k with
  | nil =>
      obtain ⟨name, hname⟩ := hacked
      exact absurd hname (hnone name)
  | cons res answers ih =>
      obtain ⟨hhandled, hnext⟩ := h.answer res
      have hnone' : ∀ name, .done name ∉ (x.answer node res).handled := by
        rw [hhandled]
        cases res <;> simpa [heard] using hnone
      rw [List.foldl_cons] at hacked ⊢
      rcases hnext with hreading | ⟨hneeded, hending⟩ | hawaited
      · obtain ⟨j, hneeded, hlt, hrun⟩ := ih hreading hnone' hacked
        refine ⟨j + 1, by omega, Nat.succ_lt_succ hlt, ?_⟩
        rw [hrun, hhandled, List.take_succ_cons, heard, heard, heard, List.append_nil]
        simp only [List.append_assoc]
      · refine ⟨0, hneeded, Nat.succ_pos _, ?_⟩
        rw [hending.run answers hnone' hacked, hhandled]
        rfl
      · rw [answer_none hawaited] at hacked
        obtain ⟨name, hname⟩ := hacked
        exact absurd hname (hnone' name)

/-! ## What has been handled -/

def chunks (handled : List Parcel) : List (Bytes × Bytes) :=
  (handled.filterMap Parcel.file).filter (·.2 ≠ [])

private theorem chunks_append (handled rest : List Parcel) :
    chunks (handled ++ rest) = chunks handled ++ chunks rest := by
  simp [chunks]

private theorem heard_append (answers rest : List (Option DataRes)) :
    heard path content k (answers ++ rest) =
      heard path content k answers ++ heard path content (k + answers.length) rest := by
  induction answers generalizing k with
  | nil => rfl
  | cons res answers ih =>
      rw [List.cons_append, heard, heard, ih, List.length_cons, List.append_assoc]
      congr 3
      omega

private theorem heard_id {answers : List (Option DataRes)} {p : Parcel}
    (h : p ∈ heard path content k answers) : ∃ i data, k ≤ i ∧ p = .chunk i path data := by
  induction answers generalizing k with
  | nil => cases h
  | cons res answers ih =>
      rw [heard, List.mem_append] at h
      rcases h with h | h
      · split at h
        · exact ⟨k, _, Nat.le_refl k, List.mem_singleton.mp h⟩
        · cases h
      · obtain ⟨i, data, hle, hp⟩ := ih h
        exact ⟨i, data, Nat.le_of_succ_le hle, hp⟩

private theorem chunks_behind (hk : 0 < k) (h : content.length ≤ (k - 1) * buffSize)
    (answers : List (Option DataRes)) : chunks (heard path content k answers) = [] := by
  induction answers generalizing k with
  | nil => rfl
  | cons res answers ih =>
      have hnext : content.length ≤ (k + 1 - 1) * buffSize :=
        h.trans (Nat.mul_le_mul_right _ (by omega))
      rw [heard, chunks_append, ih (Nat.succ_pos k) hnext, Sender.piece_of_le h]
      split <;> simp [chunks, Parcel.file]

private theorem length_chunks (hk : 0 < k) (answers : List (Option DataRes))
    (h : (k - 1 + answers.length) * buffSize < content.length + buffSize) :
    (chunks (heard path content k answers)).length = answers.countP Option.isSome := by
  induction answers generalizing k with
  | nil => rfl
  | cons res answers ih =>
      rw [List.length_cons] at h
      have hnext : (k + 1 - 1 + answers.length) * buffSize < content.length + buffSize :=
        (Nat.mul_le_mul_right _ (by omega)).trans_lt h
      have hpiece : Sender.piece content (k - 1) ≠ [] := by
        apply List.ne_nil_of_length_pos
        rw [Sender.length_piece]
        unfold buffSize at h ⊢
        omega
      rw [heard, chunks_append, List.length_append, ih (Nat.succ_pos k) hnext, List.countP_cons]
      cases res <;> simp [chunks, Parcel.file, hpiece, Nat.add_comm]

private theorem heard_all (hk : 0 < k) {answers : List (Option DataRes)}
    (h : ∀ res ∈ answers, res.isSome) :
    (heard path content k answers).filterMap Parcel.file =
      (List.range' (k - 1) answers.length).map fun i => (path, Sender.piece content i) := by
  induction answers generalizing k with
  | nil => rfl
  | cons res answers ih =>
      obtain ⟨hsome, h⟩ := List.forall_mem_cons.mp h
      obtain ⟨k, rfl⟩ : ∃ j, k = j + 1 := ⟨k - 1, by omega⟩
      rw [heard, if_pos hsome, List.filterMap_append, ih (k := k + 1 + 1) (Nat.succ_pos _) h]
      simp [Parcel.file, List.range'_succ]

private theorem pieces_chunks (content : Bytes) :
    (Sender.pieces content).filter (· ≠ []) =
      ((List.range (Sender.needed content.length)).map (Sender.piece content)).filter
        (· ≠ []) := by
  obtain ⟨n, hn⟩ : ∃ n, Sender.rounds content.length = Sender.needed content.length + n := by
    refine ⟨Sender.rounds content.length - Sender.needed content.length, ?_⟩
    unfold Sender.rounds Sender.needed buffSize
    split <;> omega
  have hbehind : ((List.range' (Sender.needed content.length) n).map
      (Sender.piece content)).filter (· ≠ []) = [] := by
    simp only [List.filter_eq_nil_iff, List.mem_map, List.mem_range', forall_exists_index,
      and_imp, decide_eq_true_eq, not_not]
    rintro piece i j hj rfl rfl
    apply Sender.piece_of_le
    unfold Sender.needed buffSize
    omega
  rw [Sender.pieces, hn, List.range_eq_range', List.range_eq_range', ← List.range'_append,
    List.map_append, List.filter_append, Nat.zero_add, Nat.one_mul, hbehind, List.append_nil]

private theorem needed_pos (size : Nat) : 0 < Sender.needed size := by
  unfold Sender.needed
  omega

private theorem chunks_heard (answers : List (Option DataRes)) :
    chunks (heard path content 1 answers) =
      chunks (heard path content 1 (answers.take (Sender.needed content.length))) := by
  have hsplit := List.take_append_drop (Sender.needed content.length) answers
  have hbehind : ∀ rest, answers.drop (Sender.needed content.length) = rest → rest ≠ [] →
      content.length ≤ (1 + (answers.take (Sender.needed content.length)).length - 1) *
        buffSize := by
    intro rest hrest hne
    have hlt : Sender.needed content.length < answers.length := by
      rw [← List.length_pos_iff, ← hrest, List.length_drop] at hne
      omega
    rw [List.length_take, Nat.min_eq_left hlt.le, Nat.add_sub_cancel_left]
    unfold Sender.needed buffSize
    omega
  conv_lhs => rw [← hsplit, heard_append, chunks_append]
  cases hrest : answers.drop (Sender.needed content.length) with
  | nil => exact List.append_nil _
  | cons res rest =>
      rw [chunks_behind (by omega) (hbehind _ hrest (List.cons_ne_nil res rest)),
        List.append_nil]

private theorem chunks_all {answers : List (Option DataRes)}
    (hlength : answers.length = Sender.needed content.length)
    (hanswers : ∀ res ∈ answers, res.isSome) :
    chunks (heard path content 1 answers) =
      ((Sender.pieces content).filter (· ≠ [])).map (path, ·) := by
  rw [chunks, heard_all Nat.one_pos hanswers, pieces_chunks, hlength, List.range_eq_range',
    Nat.sub_self, List.filter_map, List.filter_map, List.map_map]
  simp only [Function.comp_def]

private theorem chunks_complete {answers : List (Option DataRes)} (hcontent : content ≠ [])
    (hlength : answers.length = Sender.needed content.length) :
    chunks (heard path content 1 answers) =
        ((Sender.pieces content).filter (· ≠ [])).map (path, ·) ↔
      ∀ res ∈ answers, res.isSome := by
  have hshort : (1 - 1 + Sender.needed content.length) * buffSize <
      content.length + buffSize := by
    have hpos := List.length_pos_iff.mpr hcontent
    unfold Sender.needed buffSize
    omega
  let full : List (Option DataRes) :=
    List.replicate (Sender.needed content.length) (some { term := 0, success := true })
  have hfull : full.length = Sender.needed content.length := List.length_replicate
  have hall : ∀ res ∈ full, res.isSome := by
    intro res hres
    rw [List.eq_of_mem_replicate hres]
    rfl
  constructor
  · intro heq
    rw [← @chunks_all path content full hfull hall] at heq
    have hcount := congrArg List.length heq
    rw [length_chunks Nat.one_pos answers (by rwa [hlength]),
      length_chunks Nat.one_pos full (by rwa [hfull]), List.countP_eq_length.mpr hall, hfull,
      ← hlength] at hcount
    exact List.countP_eq_length.mp hcount
  · exact chunks_all hlength

private theorem first_heard (answers : List (Option DataRes)) :
    (∃ data, (heard path content 1 answers ++ [Parcel.done path]).head? =
        some (.chunk 1 path data)) ↔
      ∃ res ∈ answers.head?, res.isSome := by
  cases answers with
  | nil => simp [heard]
  | cons res answers =>
      cases res with
      | some res => simp [heard]
      | none =>
          refine iff_of_false ?_ (by simp)
          rintro ⟨data, hhead⟩
          rw [heard, if_neg (by simp), List.nil_append] at hhead
          cases hrest : heard path content 2 answers with
          | nil =>
              rw [hrest] at hhead
              cases hhead
          | cons p rest =>
              obtain ⟨i, data', hle, hp⟩ :=
                heard_id (hrest ▸ List.mem_cons_self : p ∈ heard path content 2 answers)
              rw [hrest, hp] at hhead
              cases hhead
              omega

private theorem kept_heard {answers : List (Option DataRes)} {j : Nat}
    (hneeded : Sender.needed content.length ≤ 1 + j) (hlt : j < answers.length) :
    ((∃ data, (heard path content 1 (answers.take (j + 1)) ++ [Parcel.done path]).head? =
          some (.chunk 1 path data)) ∧
        chunks (heard path content 1 (answers.take (j + 1)) ++ [Parcel.done path]) =
          ((Sender.pieces content).filter (· ≠ [])).map (path, ·)) ↔
      ∀ res ∈ answers.take (Sender.needed content.length), res.isSome := by
  have hpos := needed_pos content.length
  have hlength : (answers.take (Sender.needed content.length)).length =
      Sender.needed content.length := by
    rw [List.length_take]
    omega
  have hchunks : chunks (heard path content 1 (answers.take (j + 1)) ++ [Parcel.done path]) =
      chunks (heard path content 1 (answers.take (Sender.needed content.length))) := by
    rw [chunks_append, chunks_heard, List.take_take, Nat.min_eq_left (by omega)]
    exact List.append_nil _
  rw [first_heard, hchunks]
  cases answers with
  | nil => cases hlt
  | cons res answers =>
      constructor
      case mp =>
        rintro ⟨hfirst, hkept⟩
        by_cases hcontent : content = []
        · have hone : Sender.needed content.length = 1 := by
            rw [hcontent]
            rfl
          simpa [hone] using hfirst
        · exact (chunks_complete hcontent hlength).mp hkept
      case mpr =>
        intro hanswers
        refine ⟨⟨res, rfl, hanswers res ?_⟩, chunks_all hlength hanswers⟩
        obtain ⟨m, hm⟩ := Nat.exists_eq_succ_of_ne_zero hpos.ne'
        rw [hm, List.take_succ_cons]
        exact List.mem_cons_self

private theorem start_reading (hrole : s.role = .leader) (hnewly : s.newly node = true)
    (hinit : s.initTransfer = s) (hclosed : s.sender.fin.path = none)
    (hfile : s.sender.isRegularFile s.sender.path = true) :
    (start node s).Reading node s.sender.path (s.sender.content s.sender.path) 1 := by
  have hsender : s.sender.initTransfer = s.sender := congrArg (·.sender) hinit
  have hnumber : s.sender.dataTransferId = 0 := (congrArg (·.dataTransferId) hsender).symm
  have hpending : s.sender.pending = [] := by
    have hbegun := congrArg (·.pending) hsender
    simp only [Sender.initTransfer, Sender.not_directory_of_regular hfile] at hbegun
    exact hbegun.symm
  exact reading_calls (s := { s with sent := [] }) hrole hnewly rfl hnumber rfl hfile
    (Sender.reads_first (s := { s.sender with dataTransferId := 0 + 1 }) hclosed rfl hpending
      hfile) []

/--
When the end of a transfer to a new server is acknowledged, the receiver has
had all of the file in order and from number 1 on exactly when none of the
requests that hold it has failed.
-/
theorem retries_keep {answers : List (Option DataRes)} (hrole : s.role = .leader)
    (hnewly : s.newly node = true) (hinit : s.initTransfer = s)
    (hclosed : s.sender.fin.path = none)
    (hfile : s.sender.isRegularFile s.sender.path = true)
    (hacked : (run node s answers).Acknowledged) :
    s.sender.Kept (run node s answers).handled ↔
      ∀ res ∈ answers.take (Sender.needed (s.sender.fileSize s.sender.path)), res.isSome := by
  have hstart := start_reading hrole hnewly hinit hclosed hfile
  obtain ⟨j, hneeded, hlt, hrun⟩ := hstart.run answers (by simp [start, after]) hacked
  have hhandled : (run node s answers).handled = heard s.sender.path
      (s.sender.content s.sender.path) 1 (answers.take (j + 1)) ++ [.done s.sender.path] := by
    rw [run, hrun]
    rfl
  have hkept := @kept_heard s.sender.path _ _ _ hneeded hlt
  rw [hhandled]
  exact ⟨fun h => hkept.mp ⟨h.first, h.chunks⟩, fun h => ⟨(hkept.mpr h).1, (hkept.mpr h).2⟩⟩

def adding (files : List (Bytes × FileNode)) : Raft :=
  { holding files with
    recfg := some
      { type := .serverAddition
        n := (holding files).makeNode (ascii "10.0.0.4") (ascii "1")
        rounds := 1
        entryAdded := false } }

theorem retries_keep_end :
    (adding [(ascii "db", .regular (ascii "x"))]).sender.Kept
      (run (ascii "10.0.0.4:1") (adding [(ascii "db", .regular (ascii "x"))])
        [some { term := 0, success := true }, none, some { term := 0, success := true }]).handled :=
  (@retries_keep (ascii "10.0.0.4:1") _ _ rfl (by decide) rfl rfl (by decide)
    ⟨ascii "db", by decide⟩).mpr (by decide)

/-- The first request fails: the next one has number 2, and nothing is left to be read. -/
theorem retries_lose :
    ¬ ∀ (node : Bytes) (s : Raft) (answers : List (Option DataRes)), s.role = .leader →
      s.newly node = true → s.initTransfer = s → s.sender.fin.path = none →
      s.sender.isRegularFile s.sender.path = true → (run node s answers).Acknowledged →
      s.sender.Kept (run node s answers).handled := by
  intro h
  have hkept := h (ascii "10.0.0.4:1") (adding [(ascii "db", .regular (ascii "x"))])
    [none, some { term := 0, success := true }, some { term := 0, success := true }]
    rfl (by decide) rfl rfl (by decide) ⟨ascii "db", by decide⟩
  have hhandled : (run (ascii "10.0.0.4:1") (adding [(ascii "db", .regular (ascii "x"))])
      [none, some { term := 0, success := true }, some { term := 0, success := true }]).handled =
      [.chunk 2 (ascii "db") [], .done (ascii "db")] := by decide
  rw [hhandled] at hkept
  obtain ⟨data, hdata⟩ := hkept.first
  cases hdata

end Exchange

end Draft
