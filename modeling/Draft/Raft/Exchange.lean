import Draft.Raft.Delivering

/-!
# One transfer by itself

A leader transfers what is at its path to one node, and nothing else happens:
each call is answered, or it fails before the receiver has handled it.  The end
of a file is guessed from the count of the last read; when the file is empty
that read was one of another file, and the guess may be wrong for ever.
-/

namespace Draft

def Parcel.file : Parcel → Option (Bytes × Bytes)
  | .chunk _ name data => some (name, data)
  | .done _ => none

/-- A transfer: the leader, what the receiver has handled, and the call without an answer. -/
structure Exchange where
  leader : Raft
  handled : List Parcel
  awaited : Option Parcel

namespace Exchange

def after (handled : List Parcel) (s : Raft) : Exchange :=
  { leader := { s with sent := [] }
    handled := handled
    awaited := (s.sent.filterMap (·.request.parcel)).head? }

def start (node : Bytes) (s : Raft) : Exchange :=
  after [] ({ s with sent := [] }.doDataTransfer node)

def answer (node : Bytes) (x : Exchange) (res : Option DataRes) : Exchange :=
  match x.awaited with
  | none => x
  | some parcel =>
      after (if res.isSome then x.handled ++ [parcel] else x.handled)
        (if parcel.isDone then x.leader.onDoneTransfer node res
        else x.leader.onDataTransfer node res)

def run (node : Bytes) (s : Raft) (answers : List (Option DataRes)) : Exchange :=
  answers.foldl (answer node) (start node s)

end Exchange

namespace Sender

variable (s : Sender)

/-! ## What a transfer is to bring about -/

structure FileTree : Prop where
  nodup : (s.files.map (·.1)).Nodup
  slash : ∀ path ∈ s.files.map (·.1), path.getLast? ≠ some 47
  root : s.isDirectory s.path = true ∨ s.isRegularFile s.path = true
  leaf : s.isRegularFile s.path = true → s.below s.path = []
  empty : s.isDirectory s.path = true → (s.isEmptyDirectory s.path = true ↔ s.below s.path = [])
  order : s.Tree

/--
The requests for each file stand together and hold its content; each empty
directory is named once.
-/
structure Conveyed (requests : List (Bytes × Bytes)) : Prop where
  files : ∀ path ∈ s.path :: s.below s.path, s.isRegularFile path = true →
    ∃ before chunks after, requests = before ++ chunks.map (path, ·) ++ after ∧
      chunks ≠ [] ∧ chunks.flatten = s.content path ∧ ∀ r ∈ before ++ after, r.1 ≠ path
  directories : ∀ path ∈ s.path :: s.below s.path, s.isEmptyDirectory path = true →
    ∃ before after, requests = before ++ (path ++ ascii "/", []) :: after ∧
      ∀ r ∈ before ++ after, r.1 ≠ path ++ ascii "/"

def visits : List Bytes := if s.isDirectory s.path then s.below s.path else [s.path]

def sizes (paths : List Bytes) : List Nat := (paths.filter s.isRegularFile).map s.fileSize

/-- No empty file stands right behind a count of a full buffer. -/
def Clear (counts : List Nat) : Prop :=
  counts.IsChain fun count size => count = buffSize → size ≠ 0

instance (counts : List Nat) : Decidable (Clear counts) :=
  inferInstanceAs (Decidable (counts.IsChain _))

/--
The end of each file is seen: no empty file is the next one after a file of
exactly one buffer, or the first one after a transfer that ended with such a file.
-/
def EndsSeen : Prop := Clear (s.fin.gcount :: s.sizes s.visits)

instance : Decidable s.EndsSeen := inferInstanceAs (Decidable (Clear _))

instance : Decidable s.FileTree :=
  decidable_of_iff ((s.files.map (·.1)).Nodup ∧
      (∀ path ∈ s.files.map (·.1), path.getLast? ≠ some 47) ∧
      (s.isDirectory s.path = true ∨ s.isRegularFile s.path = true) ∧
      (s.isRegularFile s.path = true → s.below s.path = []) ∧
      (s.isDirectory s.path = true →
        (s.isEmptyDirectory s.path = true ↔ s.below s.path = [])) ∧ s.Tree)
    ⟨fun ⟨h₁, h₂, h₃, h₄, h₅, h₆⟩ => ⟨h₁, h₂, h₃, h₄, h₅, h₆⟩,
      fun ⟨h₁, h₂, h₃, h₄, h₅, h₆⟩ => ⟨h₁, h₂, h₃, h₄, h₅, h₆⟩⟩

variable {s} {requests : List (Bytes × Bytes)}

/-! ## The plan conveys the files -/

def sentName (s : Sender) (path : Bytes) : Bytes :=
  if s.isDirectory path then path ++ ascii "/" else path

private theorem planFrom_append (paths rest : List Bytes) :
    s.planFrom (paths ++ rest) = s.planFrom paths ++ s.planFrom rest := by
  induction paths with
  | nil => rfl
  | cons path paths ih =>
      simp only [List.cons_append, planFrom, ih, List.append_assoc]

private theorem planFrom_name {paths : List Bytes} {r : Bytes × Bytes} (h : r ∈ s.planFrom paths) :
    ∃ path ∈ paths, r.1 = s.sentName path := by
  induction paths with
  | nil => cases h
  | cons path rest ih =>
      rw [planFrom, List.mem_append] at h
      rcases h with h | h
      · refine ⟨path, List.mem_cons_self, ?_⟩
        unfold sentName
        split at h
        · rename_i hdir
          rw [if_pos hdir]
          split at h
          · rw [List.mem_singleton.mp h]
          · cases h
        · rename_i hdir
          rw [if_neg hdir]
          obtain ⟨data, -, hdata⟩ := List.mem_map.mp h
          rw [← hdata]
      · obtain ⟨p, hp, hname⟩ := ih h
        exact ⟨p, List.mem_cons_of_mem _ hp, hname⟩

private theorem sentName_inj {path other : Bytes} (h : path.getLast? ≠ some 47)
    (hother : other.getLast? ≠ some 47) (heq : s.sentName path = s.sentName other) :
    path = other := by
  have hslash : ∀ name : Bytes, (name ++ ascii "/").getLast? = some 47 := by
    intro name
    rw [List.getLast?_append]
    rfl
  unfold sentName at heq
  split at heq <;> split at heq
  · exact List.append_cancel_right heq
  · exact absurd (heq ▸ hslash path) hother
  · exact absurd (heq ▸ hslash other) h
  · exact heq

private theorem planFrom_split {paths : List Bytes} {path : Bytes} (hnodup : paths.Nodup)
    (hslash : ∀ p ∈ paths, p.getLast? ≠ some 47) (hpath : path ∈ paths) :
    ∃ before after, s.planFrom paths = before ++ s.planFrom [path] ++ after ∧
      ∀ r ∈ before ++ after, r.1 ≠ s.sentName path := by
  obtain ⟨front, rest, rfl⟩ := List.append_of_mem hpath
  refine ⟨s.planFrom front, s.planFrom rest, ?_, ?_⟩
  · rw [planFrom_append, ← List.singleton_append, planFrom_append, List.append_assoc]
  · intro r hr hname
    rw [← planFrom_append] at hr
    obtain ⟨p, hp, hsent⟩ := planFrom_name hr
    have hmem : p ∈ front ++ path :: rest := by
      rcases List.mem_append.mp hp with h | h
      · exact List.mem_append_left _ h
      · exact List.mem_append_right _ (List.mem_cons_of_mem _ h)
    have heq := sentName_inj (hslash p hmem) (hslash path hpath) (hsent.symm.trans hname)
    subst heq
    have hfresh := (List.nodup_middle.mp hnodup)
    rw [List.nodup_cons] at hfresh
    exact hfresh.1 hp

private theorem planFrom_file {path : Bytes} (h : s.isRegularFile path = true) :
    s.planFrom [path] = (pieces (s.content path)).map (path, ·) := by
  simp [planFrom, not_directory_of_regular h]

private theorem directory_of_empty {path : Bytes} (h : s.isEmptyDirectory path = true) :
    s.isDirectory path = true := by
  unfold isEmptyDirectory at h
  unfold isDirectory
  rw [decide_eq_true_eq] at h
  rw [h]

private theorem planFrom_directory {path : Bytes} (h : s.isEmptyDirectory path = true) :
    s.planFrom [path] = [(path ++ ascii "/", [])] := by
  simp [planFrom, directory_of_empty h, h]

private theorem pieces_ne_nil (content : Bytes) : pieces content ≠ [] := by
  apply List.ne_nil_of_length_pos
  rw [length_pieces]
  exact rounds_pos _

private theorem conveyed_plan (h : s.FileTree) : s.Conveyed s.plan := by
  have hsub : ∀ path ∈ s.below s.path, path ∈ s.files.map (·.1) := fun path hpath =>
    List.mem_of_mem_filter hpath
  have hnodup : (s.below s.path).Nodup := h.nodup.filter _
  have hslash : ∀ path ∈ s.below s.path, path.getLast? ≠ some 47 := fun path hpath =>
    h.slash path (hsub path hpath)
  by_cases hdir : s.isDirectory s.path = true
  · have hplan : s.plan =
        if s.below s.path = [] then [(s.path ++ ascii "/", [])]
        else s.planFrom (s.below s.path) := if_pos hdir
    constructor
    case files =>
      intro path hpath hfile
      have hbelow : path ∈ s.below s.path := by
        rcases List.mem_cons.mp hpath with rfl | hbelow
        · rw [not_directory_of_regular hfile] at hdir
          cases hdir
        · exact hbelow
      rw [hplan, if_neg (List.ne_nil_of_mem hbelow)]
      obtain ⟨before, after, heq, hnames⟩ := planFrom_split (s := s) hnodup hslash hbelow
      rw [sentName, if_neg (by simp [not_directory_of_regular hfile])] at hnames
      rw [planFrom_file hfile] at heq
      exact ⟨before, _, after, heq, pieces_ne_nil _, pieces_flatten _, hnames⟩
    case directories =>
      intro path hpath hempty
      by_cases hroot : path ∈ s.below s.path
      · rw [hplan, if_neg (List.ne_nil_of_mem hroot)]
        obtain ⟨before, after, heq, hnames⟩ := planFrom_split (s := s) hnodup hslash hroot
        rw [sentName, if_pos (directory_of_empty hempty)] at hnames
        rw [planFrom_directory hempty, List.append_assoc] at heq
        exact ⟨before, after, heq, hnames⟩
      · have hself : path = s.path := (List.mem_cons.mp hpath).resolve_right hroot
        subst hself
        rw [hplan, if_pos ((h.empty hdir).mp hempty)]
        exact ⟨[], [], rfl, by simp⟩
  · have hfile : s.isRegularFile s.path = true := h.root.resolve_left hdir
    have hplan : s.plan = (pieces (s.content s.path)).map (s.path, ·) := by
      rw [plan, if_neg hdir, if_pos hfile]
    have hself : ∀ path ∈ s.path :: s.below s.path, path = s.path := by
      rw [h.leaf hfile]
      simp
    constructor
    case files =>
      intro path hpath _
      rw [hself path hpath, hplan]
      exact ⟨[], _, [], by simp, pieces_ne_nil _, pieces_flatten _, by simp⟩
    case directories =>
      intro path hpath hempty
      rw [hself path hpath] at hempty
      exact absurd (directory_of_empty hempty) hdir

/-! ## Counts that are still to come -/

def visiting (s : Sender) : List Bytes := if s.pending = [] then [s.path] else s.pending

def ahead (s : Sender) : List Nat :=
  (if s.fin.path = none then [s.fin.gcount] else []) ++ s.sizes s.visiting

@[simp] theorem sizes_nil : s.sizes [] = [] := rfl

private theorem sizes_file {path : Bytes} (rest : List Bytes) (h : s.isRegularFile path = true) :
    s.sizes (path :: rest) = s.fileSize path :: s.sizes rest := by
  simp [sizes, h]

theorem sizes_skip {path : Bytes} (rest : List Bytes) (h : s.isRegularFile path = false) :
    s.sizes (path :: rest) = s.sizes rest := by
  simp [sizes, h]

private theorem not_regular_of_directory {path : Bytes} (h : s.isDirectory path = true) :
    s.isRegularFile path = false := by
  by_contra hfile
  rw [Bool.not_eq_false] at hfile
  rw [not_directory_of_regular hfile] at h
  cases h

private theorem sizes_skipDirectories (paths : List Bytes) :
    s.sizes (s.skipDirectories paths) = s.sizes paths := by
  induction paths with
  | nil => rfl
  | cons path rest ih =>
      rw [skipDirectories]
      split
      · rename_i hskip
        rw [Bool.and_eq_true] at hskip
        rw [ih, sizes_skip rest (not_regular_of_directory hskip.1)]
      · rfl

theorem SameFiles.sizes {s' : Sender} (h : SameFiles s s') (paths : List Bytes) :
    s'.sizes paths = s.sizes paths := by
  have hregular : s'.isRegularFile = s.isRegularFile := funext h.isRegularFile
  have hsize : s'.fileSize = s.fileSize := funext h.fileSize
  rw [Sender.sizes, Sender.sizes, hregular, hsize]

private theorem clear_cons_of_ne {count size : Nat} {counts : List Nat} (h : size ≠ 0) :
    Clear (count :: size :: counts) ↔ Clear (size :: counts) := by
  simp [Clear, h]

private theorem clear_congr {count other : Nat} {counts : List Nat}
    (h : count = buffSize ↔ other = buffSize) :
    Clear (count :: counts) ↔ Clear (other :: counts) := by
  cases counts with
  | nil => simp [Clear]
  | cons size counts => simp [Clear, h]

private theorem clear_tail {count : Nat} {counts : List Nat} (h : count ≠ buffSize) :
    Clear (count :: counts) ↔ Clear counts := by
  cases counts with
  | nil => simp [Clear]
  | cons size counts => simp [Clear, h]

private theorem clear_transferFile {path : Bytes} {rest : List Bytes}
    (hvisiting : s.visiting = path :: rest) (hfile : s.isRegularFile path = true) :
    Clear (s.transferFile path).1.ahead ↔ Clear s.ahead := by
  by_cases hsize : s.fileSize path = 0
  · rw [transferFile_empty hsize]
    rfl
  · have hsame : SameFiles s (s.transferFile path).1 := by
      rw [transferFile, if_neg hsize]
      split <;> exact ⟨rfl, rfl⟩
    have hpending : (s.transferFile path).1.pending = s.pending := by
      rw [transferFile, if_neg hsize]
      split <;> rfl
    have hopen : (s.transferFile path).1.fin.path = some (s.fin.path.getD path) := by
      rw [transferFile, if_neg hsize]
      cases hpath : s.fin.path with
      | none => rfl
      | some open_ => exact hpath
    have hvisiting' : (s.transferFile path).1.visiting = path :: rest := by
      rw [visiting, hpending, hsame.path]
      exact hvisiting
    rw [ahead, ahead, hvisiting, hvisiting', hopen, hsame.sizes, sizes_file rest hfile,
      if_neg (Option.some_ne_none _), List.nil_append]
    split
    · exact (clear_cons_of_ne hsize).symm
    · rfl

private theorem clear_transfer (hwithin : s.Within) (htree : s.Tree) :
    Clear s.transfer.1.ahead ↔ Clear s.ahead := by
  by_cases hpending : s.pending = []
  · by_cases hfile : s.isRegularFile s.path = true
    · rw [transfer_single hpending hfile]
      exact clear_transferFile (if_pos hpending) hfile
    · unfold transfer
      rw [if_neg (by simp [hpending]), if_neg hfile]
      split <;> rfl
  · obtain ⟨path, rest, hskip, hsuffix, -, -⟩ :=
      skipDirectories_spec hpending (hwithin.last htree)
    let t : Sender := { s with pending := path :: rest }
    have hahead : t.ahead = s.ahead := by
      have hvisiting : s.visiting = s.pending := if_neg hpending
      rw [ahead, ahead, hvisiting, ← sizes_skipDirectories s.pending, hskip]
      rfl
    by_cases hdir : s.isDirectory path = true
    · have htransfer : s.transfer = ({ t with last := path }, path ++ ascii "/", []) := by
        unfold transfer
        rw [if_pos hpending, hskip]
        exact if_pos hdir
      rw [htransfer]
      exact iff_of_eq (congrArg Clear hahead)
    · have hmem : path ∈ s.below s.path := (hsuffix.trans hwithin).subset List.mem_cons_self
      have hfile := regular_of_below hmem (by simpa using hdir)
      have htransfer : s.transfer = t.transferFile path := by
        unfold transfer
        rw [if_pos hpending, hskip]
        exact (if_neg hdir).trans (if_pos hfile)
      rw [htransfer, ← hahead]
      exact clear_transferFile (s := t) rfl hfile

theorem not_clear_of_misjudged {left : List (Bytes × Bytes)} (h : s.Left left)
    (hsize : s.Misjudged) : ¬ Clear s.ahead := by
  obtain ⟨hregular, hzero, hfull⟩ := hsize
  have hahead : ∀ path rest, s.visiting = path :: rest → s.current = path →
      s.fin.path = none → ¬ Clear s.ahead := by
    intro path rest hvisiting hcurrent hclosed hclear
    rw [hcurrent] at hregular hzero
    rw [ahead, if_pos hclosed, hvisiting, sizes_file rest hregular, hfull, hzero] at hclear
    simp [Clear] at hclear
  cases h with
  | @directory path rest hpath hpending hdir hclosed =>
      exact hahead path rest (by simp [visiting, hpending]) (by simp [current, hpending]) hclosed
  | @file path rest k hpath hpending hfile hprogress =>
      have hcurrent : s.current = path := by simp [current, hpending]
      refine hahead path rest (by simp [visiting, hpending]) hcurrent ?_
      rw [hprogress.stream, if_pos (hcurrent ▸ hzero)]
  | @single k hpending hfile hprogress =>
      have hcurrent : s.current = s.path := by simp [current, hpending]
      refine hahead s.path [] (by simp [visiting, hpending]) hcurrent ?_
      rw [hprogress.stream, if_pos (hcurrent ▸ hzero)]
  | bare hpending hfile hclosed =>
      exact hahead s.path [] (by simp [visiting, hpending]) (by simp [current, hpending]) hclosed

private theorem sizes_visiting {t : Sender} {rest : List Bytes} (hsame : SameFiles s t)
    (hpath : s.isDirectory s.path = true) (hpending : t.pending = rest) :
    t.sizes t.visiting = s.sizes rest := by
  rw [hsame.sizes, visiting, hpending, hsame.path]
  split
  · rename_i hnil
    rw [hnil, sizes_skip [] (not_regular_of_directory hpath)]
  · rfl

private theorem Progress.gcount_end {path : Bytes} (h : s.Progress path (rounds (s.fileSize path)))
    (hsize : s.fileSize path ≠ 0) : s.fin.gcount = buffSize ↔ s.fileSize path = buffSize := by
  rw [h.gcount hsize]
  unfold rounds buffSize
  split <;> omega

private theorem Left.clear_advance {left : List (Bytes × Bytes)} (h : s.Left left)
    (hsize : ¬ s.Misjudged) : Clear s.advance.ahead ↔ Clear s.ahead := by
  cases h with
  | @directory path rest hpath hpending hdir hclosed =>
      have hsame : SameFiles s { s with pending := rest } := ⟨rfl, rfl⟩
      have hvisiting : s.visiting = path :: rest := by simp [visiting, hpending]
      rw [advance_directory hpending hdir, ahead, ahead, sizes_visiting hsame hpath rfl,
        hvisiting, sizes_skip rest (not_regular_of_directory hdir)]
  | @file path rest k hpath hpending hfile hprogress =>
      cases heof : s.eof path with
      | false => rw [advance_stays hpending hfile heof]
      | true =>
          have hsame : SameFiles s (Sender.close { s with pending := rest }) := ⟨rfl, rfl⟩
          have hvisiting : s.visiting = path :: rest := by simp [visiting, hpending]
          have hcurrent : s.current = path := by simp [current, hpending]
          rw [advance_end hpending hfile heof, ahead, ahead, sizes_visiting hsame hpath rfl,
            hvisiting, sizes_file rest hfile, hprogress.stream]
          by_cases hzero : s.fileSize path = 0
          · have hcount : s.fin.gcount ≠ buffSize := fun hfull =>
              hsize ⟨hcurrent ▸ hfile, hcurrent ▸ hzero, hfull⟩
            have hempty : 0 ≠ buffSize := by decide
            rw [if_pos hzero, hzero]
            exact (clear_congr (iff_of_false hcount hempty)).trans (clear_tail hcount).symm
          · have hend := (hprogress.eof_iff (absurd · hzero)).mp heof
            subst hend
            rw [if_neg hzero]
            exact clear_congr (hprogress.gcount_end hzero)
  | single hpending hfile hprogress => rw [advance_nil hpending]
  | bare hpending hfile hclosed => rw [advance_nil hpending]

private theorem ahead_begun (hclosed : s.fin.path = none)
    (hpending : s.pending = if s.isDirectory s.path then s.below s.path else []) :
    s.ahead = s.fin.gcount :: s.sizes s.visits := by
  rw [ahead, if_pos hclosed, List.singleton_append, visiting, visits, hpending]
  congr 1
  by_cases hdir : s.isDirectory s.path = true
  · rw [if_pos hdir]
    split
    · rename_i hnil
      rw [hnil, sizes_skip [] (not_regular_of_directory hdir)]
    · rfl
  · rw [if_neg hdir, if_pos rfl, if_neg hdir]

private theorem exists_of_directory {path : Bytes} (h : s.isDirectory path = true) :
    s.exists_ path = true := by
  unfold isDirectory at h
  unfold exists_
  split at h
  · rename_i hnode
    rw [hnode]
    rfl
  · cases h

theorem Within.advance (h : s.Within) : s.advance.Within := by
  unfold Sender.advance
  split
  · exact h
  · rename_i path rest hpending
    have hrest : rest <:+ s.below s.path := (List.suffix_cons path rest).trans (hpending ▸ h)
    split
    · exact hrest
    split
    · exact hrest
    · exact h

theorem Left.numbered {left : List (Bytes × Bytes)} (h : s.Left left) (n : Nat) :
    Left { s with dataTransferId := n } left := by
  have hsame : SameFiles s { s with dataTransferId := n } := ⟨rfl, rfl⟩
  cases h with
  | @directory path rest hpath hpending hdir hclosed =>
      rw [← hsame.planFrom]
      exact .directory hpath hpending hdir hclosed
  | @file path rest k hpath hpending hfile hprogress =>
      rw [← hsame.planFrom]
      exact .file hpath hpending hfile (hprogress.numbered n)
  | single hpending hfile hprogress => exact .single hpending hfile (hprogress.numbered n)
  | bare hpending hfile hclosed => exact .bare hpending hfile hclosed

private theorem misjudged_again {left : List (Bytes × Bytes)} (h : s.Left left) (hsize : s.Misjudged) :
    s.advance = s ∧ Raft.transferFinished s = false ∧ s.transfer.1 = s := by
  obtain ⟨hregular, hzero, hfull⟩ := hsize
  have hagain : ∀ path, s.current = path → s.last = path → s.eof path = false ∧
      (s.transferFile path).1 = s := by
    intro path hcurrent hlast
    rw [hcurrent] at hzero
    have hempty : 0 ≠ buffSize := by decide
    refine ⟨by simp [eof, hfull, hzero, hempty], ?_⟩
    rw [transferFile_empty hzero, ← hlast]
  cases h with
  | @directory path rest hpath hpending hdir hclosed =>
      have hcurrent : s.current = path := by simp [current, hpending]
      rw [hcurrent, not_regular_of_directory hdir] at hregular
      cases hregular
  | @file path rest k hpath hpending hfile hprogress =>
      obtain ⟨heof, hsame⟩ := hagain path (by simp [current, hpending]) hprogress.last
      refine ⟨advance_stays hpending hfile heof, by simp [Raft.transferFinished, hpending], ?_⟩
      rw [transfer_file hpending hfile]
      exact hsame
  | @single k hpending hfile hprogress =>
      obtain ⟨heof, hsame⟩ := hagain s.path (by simp [current, hpending]) hprogress.last
      refine ⟨advance_nil hpending, by simp [Raft.transferFinished, hfile, heof], ?_⟩
      rw [transfer_single hpending hfile]
      exact hsame
  | bare hpending hfile hclosed =>
      have hcurrent : s.current = s.path := by simp [current, hpending]
      rw [hcurrent, hfile] at hregular
      cases hregular

private theorem clear_of_finished (h : Raft.transferFinished s = true) : Clear s.ahead := by
  simp only [Raft.transferFinished, Bool.and_eq_true, decide_eq_true_eq] at h
  obtain ⟨hpending, hfile⟩ := h
  have hvisiting : s.visiting = [s.path] := if_pos hpending
  rw [ahead, hvisiting]
  cases hregular : s.isRegularFile s.path with
  | false =>
      rw [sizes_skip [] hregular]
      split <;> simp [Clear]
  | true =>
      have heof : s.fin.gcount ≠ buffSize ∨ s.fileSize s.path = buffSize := by
        simpa [hregular, eof] using hfile
      rw [sizes_file [] hregular]
      split
      · rw [Clear, List.singleton_append, sizes_nil, List.isChain_cons_cons]
        refine ⟨fun hfull hzero => ?_, by simp⟩
        rw [hzero] at heof
        exact heof.elim (absurd hfull) (by decide)
      · simp [Clear]

end Sender

namespace Exchange

variable {node : Bytes} {x : Exchange} {s : Raft} {left : List (Bytes × Bytes)}

/-! ## One answer -/

theorem answer_chunk {id : Nat} {name data : Bytes} (h : x.awaited = some (.chunk id name data))
    (res : Option DataRes) : x.answer node res =
      after (if res.isSome then x.handled ++ [.chunk id name data] else x.handled)
        (x.leader.onDataTransfer node res) := by
  rw [answer, h]
  rfl

theorem answer_done {name : Bytes} (h : x.awaited = some (.done name)) (res : Option DataRes) :
    x.answer node res = after (if res.isSome then x.handled ++ [.done name] else x.handled)
      (x.leader.onDoneTransfer node res) := by
  rw [answer, h]
  rfl

theorem newly_modifyNode {id : Bytes} {f : Node → Node} (hid : ∀ n, (f n).id = n.id) :
    (s.modifyNode id f).newly node = s.newly node := by
  unfold Raft.newly Raft.modifyNode
  cases s.recfg with
  | none => rfl
  | some r =>
      dsimp only [Option.map_some]
      split
      · rw [hid]
      · rfl

structure Calls (s : Raft) (node : Bytes) (x : Exchange) : Prop where
  role : x.leader.role = s.role
  newly : x.leader.newly node = s.newly node
  idle : x.leader.sent = []
  sender : x.leader.sender =
    (Sender.transfer { s.sender with dataTransferId := s.sender.dataTransferId + 1 }).1
  awaited : x.awaited = some (.chunk (s.sender.dataTransferId + 1)
    (Sender.transfer { s.sender with dataTransferId := s.sender.dataTransferId + 1 }).2.1
    (Sender.transfer { s.sender with dataTransferId := s.sender.dataTransferId + 1 }).2.2)

private theorem calls_sendChunk (hidle : s.sent = []) (handled : List Parcel) :
    Calls s node (after handled (s.sendChunk node)) := by
  unfold Raft.sendChunk
  dsimp only
  split
  · constructor
    case awaited => simp [after, Raft.invoke, Raft.modifyNode, hidle, Request.parcel, Raft.dataReq]
    case newly =>
      exact newly_modifyNode (s := s) (f := fun n =>
        { n with transferDataTo := true, nextIndex := s.log.lastEntryIndex + 1 }) (by intro n; rfl)
    all_goals rfl
  · constructor
    case awaited => simp [after, Raft.invoke, hidle, Request.parcel, Raft.dataReq]
    all_goals rfl

theorem calls_doDataTransfer (hidle : s.sent = []) (hrole : s.role = .leader)
    (hthere : s.sender.pending ≠ [] ∨ s.sender.exists_ s.sender.path = true)
    (handled : List Parcel) : Calls s node (after handled (s.doDataTransfer node)) := by
  have hsends : s.doDataTransfer node = s.sendChunk node := by
    unfold Raft.doDataTransfer
    rw [if_neg (by simp [hrole]), if_neg]
    rintro ⟨hpending, -, hnothing, -⟩
    exact hthere.elim (absurd hpending) hnothing
  rw [hsends]
  exact calls_sendChunk hidle handled

structure Ends (s : Raft) (node : Bytes) (x : Exchange) : Prop where
  newly : x.leader.newly node = s.newly node
  idle : x.leader.sent = []
  last : x.leader.sender.last = s.sender.last
  awaited : x.awaited = some (.done s.sender.last)

theorem ends_doDoneTransfer (hidle : s.sent = []) (handled : List Parcel) :
    Ends s node (after handled (s.doDoneTransfer node)) := by
  constructor
  case awaited =>
    simp [after, Raft.doDoneTransfer, Raft.invoke, Raft.doneReq, hidle, Request.parcel]
  all_goals rfl

structure Waits (x : Exchange) (left : List (Bytes × Bytes)) : Prop where
  role : x.leader.role = .leader
  idle : x.leader.sent = []
  awaited : ∃ id name data, x.awaited = some (.chunk id name data)
  within : x.leader.sender.Within
  tree : x.leader.sender.Tree
  left : x.leader.sender.Left left

theorem Calls.waits (h : Calls s node x) (hrole : s.role = .leader) (htree : s.sender.Tree)
    (hsends : ∀ n, Sender.Sends { s.sender with dataTransferId := n } left) :
    ∃ p rest id, left = p :: rest ∧ x.Waits rest ∧ x.awaited = some (.chunk id p.1 p.2) := by
  have hnext := hsends (s.sender.dataTransferId + 1)
  obtain ⟨rest, heq, hleft⟩ := hnext.left
  refine ⟨_, rest, _, heq, ?_, h.awaited⟩
  constructor
  case role => exact h.role.trans hrole
  case idle => exact h.idle
  case awaited => exact ⟨_, _, _, h.awaited⟩
  case within => exact h.sender ▸ hnext.within
  case tree =>
    rw [h.sender]
    exact hnext.same.tree htree
  case left => exact h.sender ▸ hleft

theorem Calls.clear (h : Calls s node x) (hwithin : s.sender.Within) (htree : s.sender.Tree) :
    Sender.Clear x.leader.sender.ahead ↔ Sender.Clear s.sender.ahead := by
  rw [h.sender]
  exact Sender.clear_transfer (s := { s.sender with dataTransferId := s.sender.dataTransferId + 1 })
    hwithin htree

variable (node)

theorem Waits.answer (h : x.Waits left) (hsize : ¬ x.leader.sender.Misjudged) {res : DataRes}
    (hsuccess : res.success) :
    left = [] ∧ Sender.Clear x.leader.sender.ahead ∧
        (∃ name, (x.answer node (some res)).awaited = some (.done name)) ∨
      ∃ p rest id, left = p :: rest ∧ (x.answer node (some res)).Waits rest ∧
        (x.answer node (some res)).awaited = some (.chunk id p.1 p.2) ∧
        (Sender.Clear (x.answer node (some res)).leader.sender.ahead ↔
          Sender.Clear x.leader.sender.ahead) := by
  obtain ⟨id, name, data, hawaited⟩ := h.awaited
  let t : Raft := { x.leader with sender := x.leader.sender.advance }
  have htree : t.sender.Tree := (h.left.answered h.within h.tree hsize).same.tree h.tree
  have hanswer : x.answer node (some res) =
      after (x.handled ++ [.chunk id name data]) (t.onDataSuccess node) := by
    rw [answer_chunk hawaited]
    exact congrArg (after _) (if_pos hsuccess)
  rw [hanswer]
  rcases (h.left.answered h.within h.tree hsize).goesOn with
    ⟨hfinished, hnil, -⟩ | ⟨hfinished, hnext⟩
  · have hclear := (h.left.clear_advance hsize).mp (Sender.clear_of_finished hfinished)
    refine .inl ⟨hnil, hclear, ?_⟩
    let u : Raft := { t with
      sender := if t.sender.isRegularFile t.sender.path then t.sender.close else t.sender }
    have hend : t.onDataSuccess node = u.doDoneTransfer node := if_pos hfinished
    rw [hend]
    exact ⟨_, (ends_doDoneTransfer (s := u) h.idle _).awaited⟩
  · have hgoesOn : t.onDataSuccess node = t.doDataTransfer node :=
      if_neg (by rw [hfinished]; exact Bool.false_ne_true)
    have hthere : t.sender.pending ≠ [] ∨ t.sender.exists_ t.sender.path = true := by
      simp only [Raft.transferFinished, Bool.and_eq_false_iff, decide_eq_false_iff_not,
        Bool.or_eq_false_iff, Bool.not_eq_false'] at hfinished
      exact hfinished.imp_right fun hfile => Sender.exists_of_regular hfile.1
    have hcalls := @calls_doDataTransfer node t h.idle h.role hthere
      (x.handled ++ [.chunk id name data])
    obtain ⟨p, rest, id', heq, hwaits, hawaited'⟩ := hcalls.waits h.role htree hnext
    rw [hgoesOn]
    refine .inr ⟨p, rest, id', heq, hwaits, hawaited', ?_⟩
    exact (hcalls.clear h.within.advance htree).trans (h.left.clear_advance hsize)

private theorem Waits.answer_misjudged (h : x.Waits left) (hsize : x.leader.sender.Misjudged)
    {res : DataRes} (hsuccess : res.success) :
    (x.answer node (some res)).Waits left ∧
      ¬ Sender.Clear (x.answer node (some res)).leader.sender.ahead := by
  obtain ⟨id, name, data, hawaited⟩ := h.awaited
  obtain ⟨hstays, hfinished, -⟩ := Sender.misjudged_again h.left hsize
  have hnext : x.answer node (some res) =
      after (x.handled ++ [.chunk id name data]) (x.leader.doDataTransfer node) := by
    rw [answer_chunk hawaited]
    refine (congrArg (after _) (if_pos hsuccess)).trans ?_
    rw [hstays]
    exact congrArg (after _) (if_neg (by simp [hfinished]))
  have hthere : x.leader.sender.pending ≠ [] ∨
      x.leader.sender.exists_ x.leader.sender.path = true := by
    simp only [Raft.transferFinished, Bool.and_eq_false_iff, decide_eq_false_iff_not,
      Bool.or_eq_false_iff, Bool.not_eq_false'] at hfinished
    exact hfinished.imp_right fun hfile => Sender.exists_of_regular hfile.1
  have hcalls := @calls_doDataTransfer node _ h.idle h.role hthere
    (x.handled ++ [.chunk id name data])
  have hsender := hcalls.sender
  have hagain := Sender.misjudged_again
    (h.left.numbered (x.leader.sender.dataTransferId + 1)) hsize
  rw [hagain.2.2] at hsender
  rw [hnext]
  constructor
  · constructor
    case role => exact hcalls.role.trans h.role
    case idle => exact hcalls.idle
    case awaited => exact ⟨_, _, _, hcalls.awaited⟩
    case within =>
      rw [hsender]
      exact h.within
    case tree =>
      rw [hsender]
      exact h.tree
    case left =>
      rw [hsender]
      exact h.left.numbered _
  · rw [hsender]
    exact Sender.not_clear_of_misjudged (h.left.numbered _) hsize

/-! ## A whole transfer -/

structure Delivered (s : Sender) (x : Exchange) : Prop where
  ends : ∃ name, x.awaited = some (.done name)
  conveyed : s.Conveyed (x.handled.filterMap Parcel.file)

theorem Waits.answer_hidden (h : x.Waits left) {res : DataRes} (hsuccess : res.success)
    (hhidden : ¬ Sender.Clear x.leader.sender.ahead) :
    ∃ rest, (x.answer node (some res)).Waits rest ∧
      ¬ Sender.Clear (x.answer node (some res)).leader.sender.ahead := by
  by_cases hsize : x.leader.sender.Misjudged
  · exact ⟨left, h.answer_misjudged node hsize hsuccess⟩
  · rcases h.answer node hsize hsuccess with ⟨-, hclear, -⟩ | ⟨p, rest, id, -, hwaits, -, hiff⟩
    · exact absurd hclear hhidden
    · exact ⟨rest, hwaits, hiff.not.mpr hhidden⟩

theorem Waits.goes_on (answers : List DataRes) (hanswers : ∀ res ∈ answers, res.success)
    (h : x.Waits left) (hhidden : ¬ Sender.Clear x.leader.sender.ahead) :
    ∃ rest, ((answers.map some).foldl (Exchange.answer node) x).Waits rest := by
  induction answers generalizing x left with
  | nil => exact ⟨left, h⟩
  | cons res answers ih =>
      obtain ⟨hsuccess, hanswers⟩ := List.forall_mem_cons.mp hanswers
      obtain ⟨rest, hwaits, hhidden'⟩ := h.answer_hidden node hsuccess hhidden
      exact ih hanswers hwaits hhidden'

theorem Waits.ends (answers : List DataRes) (hanswers : ∀ res ∈ answers, res.success)
    (h : x.Waits left) (hclear : Sender.Clear x.leader.sender.ahead)
    (hlength : answers.length = left.length + 1) {id : Nat} {name data : Bytes}
    (hawaited : x.awaited = some (.chunk id name data)) :
    (∃ last, ((answers.map some).foldl (Exchange.answer node) x).awaited = some (.done last)) ∧
      ((answers.map some).foldl (Exchange.answer node) x).handled.filterMap Parcel.file =
        x.handled.filterMap Parcel.file ++ (name, data) :: left := by
  induction answers generalizing x left id name data with
  | nil => cases hlength
  | cons res answers ih =>
      obtain ⟨hsuccess, hanswers⟩ := List.forall_mem_cons.mp hanswers
      have hsize : ¬ x.leader.sender.Misjudged := fun hsize =>
        Sender.not_clear_of_misjudged h.left hsize hclear
      have hhandled : (x.answer node (some res)).handled.filterMap Parcel.file =
          x.handled.filterMap Parcel.file ++ [(name, data)] := by
        rw [answer_chunk hawaited]
        simp [after, Parcel.file]
      rcases h.answer node hsize hsuccess with
        ⟨rfl, -, hdone⟩ | ⟨p, rest, id', rfl, hwaits, hawaited', hiff⟩
      · have hnil : answers = [] := by simpa using hlength
        subst hnil
        exact ⟨hdone, hhandled⟩
      · obtain ⟨hdone, hall⟩ :=
          ih hanswers hwaits (hiff.mpr hclear) (by simpa using hlength) hawaited'
        refine ⟨hdone, hall.trans ?_⟩
        rw [hhandled, List.append_assoc]
        rfl

theorem start_waits (hrole : s.role = .leader) (hinit : s.initTransfer = s)
    (hclosed : s.sender.fin.path = none) (htree : s.sender.FileTree) :
    ∃ p rest id, s.sender.plan = p :: rest ∧ (start node s).Waits rest ∧
      (start node s).awaited = some (.chunk id p.1 p.2) ∧
      (Sender.Clear (start node s).leader.sender.ahead ↔ s.sender.EndsSeen) := by
  have hpending : s.sender.pending =
      if s.sender.isDirectory s.sender.path then s.sender.below s.sender.path else [] :=
    (congrArg (·.sender.pending) hinit).symm
  have hthere : s.sender.pending ≠ [] ∨ s.sender.exists_ s.sender.path = true :=
    .inr (htree.root.elim Sender.exists_of_directory Sender.exists_of_regular)
  have hcalls := @calls_doDataTransfer node { s with sent := [] } rfl hrole hthere []
  have hsends : ∀ n, Sender.Sends { s.sender with dataTransferId := n } s.sender.plan := by
    intro n
    have hsame : Sender.SameFiles s.sender { s.sender with dataTransferId := n } := ⟨rfl, rfl⟩
    have hplan := Sender.sends_plan (s := { s.sender with dataTransferId := n }) hclosed
      htree.order hpending
    rwa [hsame.plan] at hplan
  have hwithin : s.sender.Within := by
    rw [Sender.Within, hpending]
    split
    · exact List.suffix_rfl
    · exact List.nil_suffix
  obtain ⟨p, rest, id, heq, hwaits, hawaited⟩ := hcalls.waits hrole htree.order hsends
  refine ⟨p, rest, id, heq, hwaits, hawaited, (hcalls.clear hwithin htree.order).trans ?_⟩
  have hahead := Sender.ahead_begun hclosed hpending
  exact iff_of_eq (congrArg Sender.Clear hahead)

private theorem run_map (answers : Nat → DataRes) (k : Nat) :
    run node s ((List.range k).map fun i => some (answers i)) =
      (((List.range k).map answers).map some).foldl (answer node) (start node s) := by
  rw [run, List.map_map]
  rfl

/-- A transfer in which the end of some file is not seen never comes to its own. -/
theorem never_delivered {answers : Nat → DataRes} (hrole : s.role = .leader)
    (hinit : s.initTransfer = s) (hclosed : s.sender.fin.path = none)
    (htree : s.sender.FileTree) (hanswers : ∀ i, (answers i).success)
    (hhidden : ¬ s.sender.EndsSeen) (k : Nat) :
    ¬ (run node s ((List.range k).map fun i => some (answers i))).Delivered s.sender := by
  intro hdelivered
  obtain ⟨p, rest, id, -, hwaits, -, hclear⟩ := start_waits node hrole hinit hclosed htree
  rw [run_map] at hdelivered
  have hsuccess : ∀ res ∈ (List.range k).map answers, res.success := by
    simpa using fun i _ => hanswers i
  obtain ⟨rest, hwaits⟩ := hwaits.goes_on node _ hsuccess (hclear.not.mpr hhidden)
  obtain ⟨id, name, data, hchunk⟩ := hwaits.awaited
  obtain ⟨last, hdone⟩ := hdelivered.ends
  rw [hchunk] at hdone
  cases hdone

/--
With no failed calls a transfer comes to its end, with every file sent in order
and every empty directory named, exactly when the end of each file is seen.
-/
theorem transfer_ends {answers : Nat → DataRes} (hrole : s.role = .leader)
    (hinit : s.initTransfer = s) (hclosed : s.sender.fin.path = none)
    (htree : s.sender.FileTree) (hanswers : ∀ i, (answers i).success) :
    (∃ k, (run node s ((List.range k).map fun i => some (answers i))).Delivered s.sender) ↔
      s.sender.EndsSeen := by
  constructor
  case mp =>
    rintro ⟨k, hdelivered⟩
    by_contra hhidden
    exact never_delivered node hrole hinit hclosed htree hanswers hhidden k hdelivered
  case mpr =>
    intro hseen
    obtain ⟨p, rest, id, hplan, hwaits, hawaited, hclear⟩ :=
      start_waits node hrole hinit hclosed htree
    have hsuccess : ∀ res ∈ (List.range (rest.length + 1)).map answers, res.success := by
      simpa using fun i _ => hanswers i
    have hlength : ((List.range (rest.length + 1)).map answers).length = rest.length + 1 := by
      simp
    obtain ⟨hends, hhandled⟩ :=
      hwaits.ends node _ hsuccess (hclear.mpr hseen) hlength hawaited
    refine ⟨rest.length + 1, ?_⟩
    rw [run_map]
    refine ⟨hends, ?_⟩
    rw [hhandled]
    have hconveyed := Sender.conveyed_plan htree
    rw [hplan] at hconveyed
    exact hconveyed

def holding (files : List (Bytes × FileNode)) : Raft :=
  { World.fleet.servers (ascii "a:1") with
    role := .leader
    sender := Sender.initTransfer
      { path := ascii "db"
        files := files
        pending := []
        fin := { path := none, position := 0, good := true, gcount := 0 }
        last := []
        dataTransferId := 0
        doneTransferId := 0 } }

theorem transfer_ends_directory :
    ∃ k, (run (ascii "10.0.0.4:1") (holding
      [(ascii "db", .directory false), (ascii "db/data", .regular (ascii "x")),
        (ascii "db/empty", .regular []), (ascii "db/old", .directory true)])
      ((List.range k).map fun _ => some { term := 0, success := true })).Delivered
        (holding [(ascii "db", .directory false), (ascii "db/data", .regular (ascii "x")),
          (ascii "db/empty", .regular []), (ascii "db/old", .directory true)]).sender :=
  (transfer_ends _ rfl rfl rfl (by decide) fun _ => rfl).mpr (by decide)

def fullAndEmpty : List (Bytes × FileNode) :=
  [(ascii "db", .directory false), (ascii "db/data", .regular (List.replicate buffSize 0)),
    (ascii "db/empty", .regular [])]

theorem transfer_endless :
    ¬ ∀ (node : Bytes) (s : Raft) (answers : Nat → DataRes), s.role = .leader →
      s.initTransfer = s → s.sender.fin.path = none → s.sender.FileTree →
      (∀ i, (answers i).success) →
      ∃ k, (run node s ((List.range k).map fun i => some (answers i))).Delivered s.sender := by
  intro h
  have htree : (holding fullAndEmpty).sender.FileTree := by decide
  have hsizes : (holding fullAndEmpty).sender.sizes (holding fullAndEmpty).sender.visits =
      [(List.replicate buffSize (0 : UInt8)).length, 0] := rfl
  have hhidden : ¬ (holding fullAndEmpty).sender.EndsSeen := by
    rw [Sender.EndsSeen, hsizes, List.length_replicate]
    decide
  obtain ⟨k, hdelivered⟩ := h (ascii "10.0.0.4:1") (holding fullAndEmpty)
    (fun _ => { term := 0, success := true }) rfl rfl rfl htree fun _ => rfl
  exact never_delivered _ rfl rfl rfl htree (fun _ => rfl) hhidden k hdelivered

end Exchange

end Draft
