import Draft.Raft.Frames

/-!
# One transfer at a time

What a leader sends for the files below its path when it does nothing else with
its iterator and its stream: the pieces of each file in their order, one name
for each empty directory.  A file of several full buffers ends with an empty
piece, because its end is seen only when a read falls short.
-/

namespace Draft

namespace Sender

/-! ## The pieces of a file -/

def piece (content : Bytes) (k : Nat) : Bytes := (content.drop (k * buffSize)).take buffSize

def rounds (size : Nat) : Nat := if size = buffSize then 1 else size / buffSize + 1

def pieces (content : Bytes) : List Bytes :=
  (List.range (rounds content.length)).map (piece content)

theorem length_piece (content : Bytes) (k : Nat) :
    (piece content k).length = min buffSize (content.length - k * buffSize) := by
  simp [piece]

theorem length_pieces (content : Bytes) : (pieces content).length = rounds content.length := by
  simp [pieces]

theorem rounds_pos (size : Nat) : 0 < rounds size := by
  unfold rounds
  split <;> exact Nat.succ_pos _

private theorem lt_rounds {size k : Nat} (h : k + 1 < rounds size) : (k + 1) * buffSize ≤ size := by
  unfold rounds buffSize at *
  split at h <;> omega

private theorem size_le_rounds (size : Nat) : size ≤ rounds size * buffSize := by
  unfold rounds buffSize
  split <;> omega

theorem pieces_flatten (content : Bytes) : (pieces content).flatten = content := by
  have htake : ∀ n, ((List.range n).map (piece content)).flatten =
      content.take (n * buffSize) := by
    intro n
    induction n with
    | zero => simp
    | succ n ih =>
        rw [List.range_succ, List.map_append, List.flatten_append, ih, Nat.succ_mul, List.take_add]
        simp [piece]
  rw [pieces, htake, List.take_of_length_le (size_le_rounds _)]

private theorem drop_pieces {content : Bytes} {k : Nat} (h : k < rounds content.length) :
    (pieces content).drop k = piece content k :: (pieces content).drop (k + 1) := by
  have hlt : k < (pieces content).length := by rwa [length_pieces]
  have hget : (pieces content)[k] = piece content k := by simp [pieces]
  rw [List.drop_eq_getElem_cons hlt, hget]

variable (s : Sender)

/-! ## What is sent -/

def planFrom : List Bytes → List (Bytes × Bytes)
  | [] => []
  | path :: rest =>
      (if s.isDirectory path then
        if s.isEmptyDirectory path then [(path ++ ascii "/", [])] else []
      else (pieces (s.content path)).map (path, ·)) ++ planFrom rest

/-- The names and the data of one transfer, in their order. -/
def plan : List (Bytes × Bytes) :=
  if s.isDirectory s.path then
    if s.below s.path = [] then [(s.path ++ ascii "/", [])] else s.planFrom (s.below s.path)
  else if s.isRegularFile s.path then (pieces (s.content s.path)).map (s.path, ·)
  else [([], [])]

/-- Behind a directory that is not empty the iterator visits what is in it. -/
def Tree : Prop :=
  ∀ path, (s.below s.path).getLast? = some path →
    s.isDirectory path = true → s.isEmptyDirectory path = true

instance : Decidable s.Tree :=
  inferInstanceAs (Decidable (∀ path ∈ (s.below s.path).getLast?,
    s.isDirectory path = true → s.isEmptyDirectory path = true))

variable {s} {s' : Sender}

structure SameFiles (s s' : Sender) : Prop where
  files : s'.files = s.files
  path : s'.path = s.path

namespace SameFiles

theorem refl (s : Sender) : SameFiles s s := ⟨rfl, rfl⟩

theorem trans {s'' : Sender} (h : SameFiles s s') (k : SameFiles s' s'') : SameFiles s s'' :=
  ⟨k.files.trans h.files, k.path.trans h.path⟩

variable (h : SameFiles s s')

include h

theorem node (path : Bytes) : s'.node path = s.node path := by
  rw [Sender.node, h.files, Sender.node]

theorem isDirectory (path : Bytes) : s'.isDirectory path = s.isDirectory path := by
  rw [Sender.isDirectory, h.node, Sender.isDirectory]

theorem isEmptyDirectory (path : Bytes) : s'.isEmptyDirectory path = s.isEmptyDirectory path := by
  rw [Sender.isEmptyDirectory, h.node, Sender.isEmptyDirectory]

theorem isRegularFile (path : Bytes) : s'.isRegularFile path = s.isRegularFile path := by
  rw [Sender.isRegularFile, h.node, Sender.isRegularFile]

theorem content (path : Bytes) : s'.content path = s.content path := by
  rw [Sender.content, h.node, Sender.content]

theorem fileSize (path : Bytes) : s'.fileSize path = s.fileSize path := by
  rw [Sender.fileSize, h.content, Sender.fileSize]

theorem below (path : Bytes) : s'.below path = s.below path := by
  rw [Sender.below, h.files, Sender.below]

theorem planFrom (paths : List Bytes) : s'.planFrom paths = s.planFrom paths := by
  induction paths with
  | nil => rfl
  | cons path rest ih =>
      simp only [Sender.planFrom, ih, h.isDirectory, h.isEmptyDirectory, h.content]

theorem plan : s'.plan = s.plan := by
  simp only [Sender.plan, h.path, h.isDirectory, h.isRegularFile, h.content, h.below, h.planFrom]

theorem tree (htree : s.Tree) : s'.Tree := by
  intro path hlast hdir
  rw [h.path, h.below] at hlast
  rw [h.isDirectory] at hdir
  rw [h.isEmptyDirectory]
  exact htree path hlast hdir

end SameFiles

/-! ## One file -/

structure Progress (s : Sender) (path : Bytes) (k : Nat) : Prop where
  pos : 0 < k
  le : k ≤ rounds (s.fileSize path)
  last : s.last = path
  stream : s.fin.path = if s.fileSize path = 0 then none else some path
  position : s.fileSize path ≠ 0 → s.fin.position = min (k * buffSize) (s.fileSize path)
  gcount : s.fileSize path ≠ 0 →
    s.fin.gcount = min (k * buffSize) (s.fileSize path) - (k - 1) * buffSize
  good : s.fileSize path ≠ 0 → s.fin.good = decide (s.fin.gcount = buffSize)

def current (s : Sender) : Bytes := s.pending.head?.getD s.path

/-- The file at hand is empty and the last read, of another file, filled the buffer. -/
def Misjudged (s : Sender) : Prop :=
  s.isRegularFile s.current ∧ s.fileSize s.current = 0 ∧ s.fin.gcount = buffSize

instance (s : Sender) : Decidable s.Misjudged :=
  inferInstanceAs (Decidable (_ ∧ _))

theorem Progress.eof_iff {path : Bytes} {k : Nat} (h : s.Progress path k)
    (hempty : s.fileSize path = 0 → s.fin.gcount ≠ buffSize) :
    s.eof path = true ↔ k = rounds (s.fileSize path) := by
  have hpos := h.pos
  have hle := h.le
  by_cases hzero : s.fileSize path = 0
  · have hne := hempty hzero
    rw [hzero] at hle ⊢
    simp only [eof, Bool.or_eq_true, decide_eq_true_eq, hne, ne_eq, not_false_eq_true, true_or,
      true_iff]
    have hone : rounds 0 = 1 := rfl
    omega
  · have hcount := h.gcount hzero
    simp only [eof, Bool.or_eq_true, decide_eq_true_eq, hcount]
    unfold rounds buffSize at *
    by_cases hfull : s.fileSize path = 65536
    · simp only [if_pos hfull] at hle ⊢
      omega
    · simp only [if_neg hfull] at hle ⊢
      omega

theorem Progress.numbered {path : Bytes} {k : Nat} (h : s.Progress path k) (n : Nat) :
    Sender.Progress { s with dataTransferId := n } path k :=
  ⟨h.pos, h.le, h.last, h.stream, h.position, h.gcount, h.good⟩

theorem transferFile_empty {path : Bytes} (hsize : s.fileSize path = 0) :
    s.transferFile path = ({ s with last := path }, path, []) := by
  rw [transferFile, if_pos hsize]

private theorem transferFile_opens {path : Bytes} (hsize : s.fileSize path ≠ 0)
    (hclosed : s.fin.path = none) :
    s.transferFile path =
      ({ s with
          last := path
          fin :=
            { path := some path
              position := (piece (s.content path) 0).length
              good := decide ((piece (s.content path) 0).length = buffSize)
              gcount := (piece (s.content path) 0).length } },
        path, piece (s.content path) 0) := by
  have hcontent : ∀ fin : InputStream,
      Sender.content { s with last := path, fin := fin } path = s.content path := fun _ => rfl
  rw [transferFile, if_neg hsize]
  simp [hclosed, read, piece, hcontent]

theorem transferFile_reads {path : Bytes} (hsize : s.fileSize path ≠ 0) {k position : Nat}
    (hopen : s.fin.path = some path) (hgood : s.fin.good = true)
    (hposition : s.fin.position = k * buffSize)
    (hnext : position = k * buffSize + (piece (s.content path) k).length) :
    s.transferFile path =
      ({ s with
          fin := { s.fin with
            position := position
            good := decide ((piece (s.content path) k).length = buffSize)
            gcount := (piece (s.content path) k).length } },
        s.last, piece (s.content path) k) := by
  rw [transferFile, if_neg hsize, hnext]
  simp [hopen, read, piece, hgood, hposition]

structure SameIterator (s s' : Sender) : Prop extends SameFiles s s' where
  pending : s'.pending = s.pending
  dataTransferId : s'.dataTransferId = s.dataTransferId

private theorem sameIterator_update (s : Sender) (last : Bytes) (fin : InputStream) :
    SameIterator s { s with last := last, fin := fin } :=
  ⟨⟨rfl, rfl⟩, rfl, rfl⟩

structure SendsPiece (s : Sender) (path : Bytes) (k : Nat) : Prop where
  request : (s.transferFile path).2 = (path, piece (s.content path) k)
  progress : (s.transferFile path).1.Progress path (k + 1)
  same : SameIterator s (s.transferFile path).1

theorem sendsPiece_first {path : Bytes} (hclosed : s.fin.path = none) : s.SendsPiece path 0 := by
  by_cases hsize : s.fileSize path = 0
  · have hcontent : s.content path = [] := List.length_eq_zero_iff.mp hsize
    have hsame : SameFiles s { s with last := path } := ⟨rfl, rfl⟩
    have hpiece : piece (s.content path) 0 = [] := by simp [piece, hcontent]
    have hsize' : Sender.fileSize { s with last := path } path = 0 :=
      (hsame.fileSize path).trans hsize
    constructor
    case request => rw [transferFile_empty hsize, hpiece]
    case progress =>
      rw [transferFile_empty hsize]
      refine ⟨Nat.one_pos, rounds_pos _, rfl, ?_, fun h => absurd hsize' h,
        fun h => absurd hsize' h, fun h => absurd hsize' h⟩
      rw [if_pos hsize']
      exact hclosed
    case same =>
      rw [transferFile_empty hsize]
      exact sameIterator_update s _ _
  · have hlength := length_piece (s.content path) 0
    have hopens := transferFile_opens hsize hclosed
    have hsame : SameIterator s (s.transferFile path).1 := by
      rw [hopens]
      exact sameIterator_update s _ _
    have hsize' := hsame.fileSize path
    refine ⟨by rw [hopens], ?_, hsame⟩
    rw [Nat.zero_mul, Nat.sub_zero] at hlength
    constructor
    case pos => exact Nat.one_pos
    case le => exact rounds_pos _
    case last => rw [hopens]
    case stream => rw [hsize', if_neg hsize, hopens]
    case position =>
      intro _
      rw [hsize', hopens, Nat.one_mul]
      exact hlength
    case gcount =>
      intro _
      rw [hsize', hopens, Nat.one_mul, Nat.sub_self, Nat.zero_mul, Nat.sub_zero]
      exact hlength
    case good =>
      intro _
      rw [hopens]

private theorem Progress.sendsPiece {path : Bytes} {k : Nat} (h : s.Progress path k)
    (hk : k < rounds (s.fileSize path)) : s.SendsPiece path k := by
  have hpos := h.pos
  have hsize : s.fileSize path ≠ 0 := by
    intro hzero
    have hone : rounds 0 = 1 := rfl
    rw [hzero, hone] at hk
    omega
  have hfull : k * buffSize ≤ s.fileSize path := by
    obtain ⟨j, rfl⟩ : ∃ j, k = j + 1 := ⟨k - 1, by omega⟩
    exact lt_rounds hk
  have hgcount : s.fin.gcount = buffSize := by
    rw [h.gcount hsize, Nat.min_eq_left hfull, ← Nat.sub_mul]
    have hone : k - (k - 1) = 1 := by omega
    rw [hone, Nat.one_mul]
  have hopen : s.fin.path = some path := by rw [h.stream, if_neg hsize]
  have hposition : s.fin.position = k * buffSize := by
    rw [h.position hsize, Nat.min_eq_left hfull]
  have hlength : (piece (s.content path) k).length =
      min buffSize (s.fileSize path - k * buffSize) :=
    length_piece _ _
  have hmin : min ((k + 1) * buffSize) (s.fileSize path) =
      k * buffSize + (piece (s.content path) k).length := by
    rw [hlength]
    unfold buffSize at *
    omega
  -- a variable, so that no later step computes with the size of the buffer
  obtain ⟨position, hnext⟩ : ∃ n, n = k * buffSize + (piece (s.content path) k).length :=
    ⟨_, rfl⟩
  have hgood : s.fin.good = true := by rw [h.good hsize, hgcount]; simp
  have hreads := transferFile_reads hsize hopen hgood hposition hnext
  have hsame : SameIterator s (s.transferFile path).1 := by
    rw [hreads]
    exact sameIterator_update s _ _
  have hsize' := hsame.fileSize path
  refine ⟨by rw [hreads, h.last], ?_, hsame⟩
  constructor
  case pos => exact Nat.succ_pos k
  case le =>
    rw [hsize']
    exact hk
  case last => rw [hreads]; exact h.last
  case stream => rw [hsize', if_neg hsize, hreads]; exact hopen
  case position =>
    intro _
    rw [hsize', hreads, hmin, hnext]
  case gcount =>
    intro _
    rw [hsize', hreads, hmin]
    simp
  case good =>
    intro _
    rw [hreads]

/-! ## What is left of a transfer -/

/--
What is left to be sent behind a request that has no answer yet: of the path
the iterator is at, of the file at the path of the sender, or nothing.
-/
inductive Left (s : Sender) : List (Bytes × Bytes) → Prop
  | directory {path : Bytes} {rest : List Bytes} (hpath : s.isDirectory s.path = true)
      (hpending : s.pending = path :: rest) (hdir : s.isDirectory path = true)
      (hclosed : s.fin.path = none) : Left s (s.planFrom rest)
  | file {path : Bytes} {rest : List Bytes} {k : Nat} (hpath : s.isDirectory s.path = true)
      (hpending : s.pending = path :: rest) (hfile : s.isRegularFile path = true)
      (hprogress : s.Progress path k) :
      Left s (((pieces (s.content path)).drop k).map (path, ·) ++ s.planFrom rest)
  | single {k : Nat} (hpending : s.pending = []) (hfile : s.isRegularFile s.path = true)
      (hprogress : s.Progress s.path k) :
      Left s (((pieces (s.content s.path)).drop k).map (s.path, ·))
  | bare (hpending : s.pending = []) (hfile : s.isRegularFile s.path = false)
      (hclosed : s.fin.path = none) : Left s []

def Within (s : Sender) : Prop := s.pending <:+ s.below s.path

theorem Within.last (h : s.Within) (htree : s.Tree) :
    ∀ path, s.pending.getLast? = some path → s.isDirectory path = true →
      s.isEmptyDirectory path = true := by
  intro path hpath
  apply htree
  obtain ⟨before, hbefore⟩ := h
  rw [← hbefore, List.getLast?_append, hpath]
  rfl

theorem not_directory_of_regular {path : Bytes} (h : s.isRegularFile path = true) :
    s.isDirectory path = false := by
  unfold isRegularFile at h
  unfold isDirectory
  split at h
  · rename_i heq
    rw [heq]
  · cases h

theorem regular_of_below {root path : Bytes} (hmem : path ∈ s.below root)
    (hdir : s.isDirectory path = false) : s.isRegularFile path = true := by
  have hkey : path ∈ s.files.map (·.1) := List.mem_of_mem_filter hmem
  obtain ⟨f, hf, hname⟩ := List.mem_map.mp hkey
  have hfound : (s.node path).isSome := by
    rw [node, Option.isSome_map, List.find?_isSome]
    exact ⟨f, hf, by simpa using hname⟩
  obtain ⟨node, hnode⟩ := Option.isSome_iff_exists.mp hfound
  unfold isDirectory at hdir
  unfold isRegularFile
  rw [hnode] at hdir ⊢
  cases node with
  | directory empty => cases hdir
  | regular content => rfl

theorem skipDirectories_spec {paths : List Bytes} (hne : paths ≠ [])
    (hlast : ∀ path, paths.getLast? = some path → s.isDirectory path = true →
      s.isEmptyDirectory path = true) :
    ∃ path rest, s.skipDirectories paths = path :: rest ∧ path :: rest <:+ paths ∧
      (s.isDirectory path = true → s.isEmptyDirectory path = true) ∧
      s.planFrom paths = s.planFrom (path :: rest) := by
  induction paths with
  | nil => exact absurd rfl hne
  | cons path rest ih =>
      rw [skipDirectories]
      by_cases hskip : (s.isDirectory path && !s.isEmptyDirectory path) = true
      · rw [if_pos hskip]
        simp only [Bool.and_eq_true, Bool.not_eq_true'] at hskip
        have hrest : rest ≠ [] := by
          rintro rfl
          have := hlast path rfl hskip.1
          rw [hskip.2] at this
          cases this
        obtain ⟨p, r, heq, hsuffix, hempty, hplan⟩ := ih hrest fun q hq =>
          hlast q (by rw [List.getLast?_cons, hq]; rfl)
        refine ⟨p, r, heq, hsuffix.trans (List.suffix_cons path rest), hempty, ?_⟩
        rw [← hplan, planFrom, if_pos hskip.1, if_neg (by simp [hskip.2]), List.nil_append]
      · rw [if_neg hskip]
        refine ⟨path, rest, rfl, List.suffix_rfl, fun hdir => ?_, rfl⟩
        simpa [hdir] using hskip

structure Sends (s : Sender) (plan : List (Bytes × Bytes)) : Prop where
  same : SameFiles s s.transfer.1
  dataTransferId : s.transfer.1.dataTransferId = s.dataTransferId
  within : s.transfer.1.Within
  left : ∃ rest, plan = s.transfer.2 :: rest ∧ s.transfer.1.Left rest

theorem transfer_file {path : Bytes} {rest : List Bytes} (hpending : s.pending = path :: rest)
    (hfile : s.isRegularFile path = true) : s.transfer = s.transferFile path := by
  obtain ⟨root, files, pending, fin, last, dataTransferId, doneTransferId⟩ := s
  dsimp only at hpending
  subst hpending
  have hdir := not_directory_of_regular hfile
  unfold transfer
  rw [if_pos (List.cons_ne_nil path rest), skipDirectories, if_neg (by simp [hdir])]
  exact (if_neg (by rw [hdir]; simp)).trans (if_pos hfile)

theorem transfer_single (hpending : s.pending = []) (hfile : s.isRegularFile s.path = true) :
    s.transfer = s.transferFile s.path := by
  unfold transfer
  rw [if_neg (by simp [hpending]), if_pos hfile]

theorem SendsPiece.within {path : Bytes} {k : Nat} (h : s.SendsPiece path k) (hwithin : s.Within) :
    (s.transferFile path).1.Within := by
  rw [Within, h.same.pending, h.same.path, h.same.below]
  exact hwithin

private theorem sends_file {path : Bytes} {rest : List Bytes} {k : Nat}
    (hpath : s.isDirectory s.path = true)
    (hpending : s.pending = path :: rest) (hfile : s.isRegularFile path = true)
    (hwithin : s.Within) (hpiece : s.SendsPiece path k) (hk : k < rounds (s.fileSize path)) :
    s.Sends (((pieces (s.content path)).drop k).map (path, ·) ++ s.planFrom rest) := by
  have htransfer := transfer_file hpending hfile
  have hsame := hpiece.same
  constructor
  case same => exact htransfer ▸ hsame.toSameFiles
  case dataTransferId => exact htransfer ▸ hsame.dataTransferId
  case within => exact htransfer ▸ hpiece.within hwithin
  case left =>
    have hleft := Left.file (s := (s.transferFile path).1)
      (by rw [hsame.path, hsame.isDirectory]; exact hpath) (hsame.pending.trans hpending)
      (by rw [hsame.isRegularFile]; exact hfile) hpiece.progress
    rw [hsame.content, hsame.planFrom] at hleft
    refine ⟨_, ?_, htransfer ▸ hleft⟩
    rw [htransfer, hpiece.request, drop_pieces hk, List.map_cons, List.cons_append]

private theorem sends_single {k : Nat} (hpending : s.pending = []) (hfile : s.isRegularFile s.path = true)
    (hwithin : s.Within) (hpiece : s.SendsPiece s.path k) (hk : k < rounds (s.fileSize s.path)) :
    s.Sends (((pieces (s.content s.path)).drop k).map (s.path, ·)) := by
  have htransfer := transfer_single hpending hfile
  have hsame := hpiece.same
  constructor
  case same => exact htransfer ▸ hsame.toSameFiles
  case dataTransferId => exact htransfer ▸ hsame.dataTransferId
  case within => exact htransfer ▸ hpiece.within hwithin
  case left =>
    have hleft := Left.single (s := (s.transferFile s.path).1) (k := k + 1)
      (hsame.pending.trans hpending) (by rw [hsame.path, hsame.isRegularFile]; exact hfile)
      (by rw [hsame.path]; exact hpiece.progress)
    rw [hsame.path, hsame.content] at hleft
    refine ⟨_, ?_, htransfer ▸ hleft⟩
    rw [htransfer, hpiece.request, drop_pieces hk, List.map_cons]

private theorem sends_bare (hpending : s.pending = []) (hfile : s.isRegularFile s.path = false)
    (hwithin : s.Within) (hclosed : s.fin.path = none) :
    s.Sends [if s.isDirectory s.path then (s.path ++ ascii "/", []) else ([], [])] := by
  by_cases hdir : s.isDirectory s.path = true
  · have htransfer : s.transfer = ({ s with last := s.path }, s.path ++ ascii "/", []) := by
      unfold transfer
      rw [if_neg (by simp [hpending]), if_neg (by simp [hfile]), if_pos hdir]
    rw [if_pos hdir]
    constructor
    case same => rw [htransfer]; exact ⟨rfl, rfl⟩
    case dataTransferId => rw [htransfer]
    case within => rw [htransfer]; exact hwithin
    case left =>
      rw [htransfer]
      exact ⟨[], rfl, .bare hpending hfile hclosed⟩
  · have htransfer : s.transfer = (s, [], []) := by
      unfold transfer
      rw [if_neg (by simp [hpending]), if_neg (by simp [hfile]), if_neg hdir]
    rw [if_neg hdir]
    constructor
    case same => rw [htransfer]; exact .refl s
    case dataTransferId => rw [htransfer]
    case within => rw [htransfer]; exact hwithin
    case left =>
      rw [htransfer]
      exact ⟨[], rfl, .bare hpending hfile hclosed⟩

private theorem sends_pending (hpath : s.isDirectory s.path = true) (hne : s.pending ≠ [])
    (hwithin : s.Within) (htree : s.Tree) (hclosed : s.fin.path = none) :
    s.Sends (s.planFrom s.pending) := by
  obtain ⟨path, rest, hskip, hsuffix, hempty, hplan⟩ :=
    skipDirectories_spec hne (hwithin.last htree)
  let t : Sender := { s with pending := path :: rest }
  have hsame : SameFiles s t := ⟨rfl, rfl⟩
  have hwithin' : t.Within := hsuffix.trans hwithin
  by_cases hdir : s.isDirectory path = true
  · have htransfer : s.transfer = ({ t with last := path }, path ++ ascii "/", []) := by
      unfold transfer
      rw [if_pos hne, hskip]
      exact if_pos hdir
    have hsame' : SameFiles s { t with last := path } := ⟨rfl, rfl⟩
    rw [hplan, planFrom, if_pos hdir, if_pos (hempty hdir)]
    constructor
    case same => rw [htransfer]; exact hsame'
    case dataTransferId => rw [htransfer]
    case within => rw [htransfer]; exact hwithin'
    case left =>
      have hleft := @Left.directory { t with last := path } path rest
        hpath rfl hdir hclosed
      rw [hsame'.planFrom] at hleft
      rw [htransfer]
      exact ⟨_, rfl, hleft⟩
  · have hmem : path ∈ s.below s.path := hwithin'.subset List.mem_cons_self
    have hfile := regular_of_below hmem (by simpa using hdir)
    have htransfer : s.transfer = t.transfer := by
      rw [transfer_file (s := t) rfl hfile]
      unfold transfer
      rw [if_pos hne, hskip]
      exact (if_neg hdir).trans (if_pos hfile)
    have hsends := sends_file (s := t) (k := 0) hpath rfl hfile hwithin'
      (sendsPiece_first hclosed) (rounds_pos _)
    rw [hplan, planFrom, if_neg hdir]
    rw [List.drop_zero, hsame.planFrom, hsame.content] at hsends
    constructor
    case same => rw [htransfer]; exact hsame.trans hsends.same
    case dataTransferId => rw [htransfer]; exact hsends.dataTransferId
    case within => rw [htransfer]; exact hsends.within
    case left => rw [htransfer]; exact hsends.left

theorem sends_plan (hclosed : s.fin.path = none) (htree : s.Tree)
    (hpending : s.pending = if s.isDirectory s.path then s.below s.path else []) :
    s.Sends s.plan := by
  have hwithin : s.Within := by
    rw [Within, hpending]
    split
    · exact List.suffix_rfl
    · exact List.nil_suffix
  by_cases hdir : s.isDirectory s.path = true
  · have hfile : s.isRegularFile s.path = false := by
      by_contra hfile
      have := not_directory_of_regular (Bool.not_eq_false _ ▸ hfile)
      rw [hdir] at this
      cases this
    rw [if_pos hdir] at hpending
    rw [plan, if_pos hdir]
    split
    · have hbare := sends_bare (hpending.trans ‹_›) hfile hwithin hclosed
      rwa [if_pos hdir] at hbare
    · have hsends := sends_pending hdir (hpending ▸ ‹_›) hwithin htree hclosed
      rwa [hpending] at hsends
  · rw [if_neg hdir] at hpending
    rw [plan, if_neg hdir]
    split
    · have hsends := sends_single hpending ‹_› hwithin (sendsPiece_first hclosed) (rounds_pos _)
      rwa [List.drop_zero] at hsends
    · rename_i hfile
      have hbare := sends_bare hpending (Bool.eq_false_of_not_eq_true hfile) hwithin hclosed
      rwa [if_neg hdir] at hbare

/-! ## The answer to a request -/

theorem advance_directory {path : Bytes} {rest : List Bytes} (hpending : s.pending = path :: rest)
    (hdir : s.isDirectory path = true) : s.advance = { s with pending := rest } := by
  unfold advance
  rw [hpending]
  exact if_pos hdir

theorem advance_end {path : Bytes} {rest : List Bytes} (hpending : s.pending = path :: rest)
    (hfile : s.isRegularFile path = true) (heof : s.eof path = true) :
    s.advance = Sender.close { s with pending := rest } := by
  unfold advance
  rw [hpending]
  dsimp only
  rw [if_neg (by simp [not_directory_of_regular hfile]), if_pos (by simp [hfile, heof])]

theorem advance_stays {path : Bytes} {rest : List Bytes} (hpending : s.pending = path :: rest)
    (hfile : s.isRegularFile path = true) (heof : s.eof path = false) : s.advance = s := by
  unfold advance
  rw [hpending]
  dsimp only
  rw [if_neg (by simp [not_directory_of_regular hfile]), if_neg (by simp [heof])]

theorem advance_nil (hpending : s.pending = []) : s.advance = s := by
  unfold advance
  rw [hpending]

structure Answered (s : Sender) (left : List (Bytes × Bytes)) : Prop where
  same : SameFiles s s.advance
  dataTransferId : s.advance.dataTransferId = s.dataTransferId
  goesOn : (Raft.transferFinished s.advance = true ∧ left = [] ∧
      (s.advance.isRegularFile s.advance.path = false → s.advance.fin.path = none)) ∨
    (Raft.transferFinished s.advance = false ∧
      ∀ n, Sends { s.advance with dataTransferId := n } left)

private theorem answered_next {t : Sender} {rest : List Bytes} (hadvance : s.advance = t)
    (hpath : s.isDirectory s.path = true) (hsame : SameFiles s t)
    (hid : t.dataTransferId = s.dataTransferId) (hpending : t.pending = rest)
    (hwithin : t.Within) (htree : s.Tree) (hclosed : t.fin.path = none) :
    s.Answered (s.planFrom rest) := by
  have hfile : t.isRegularFile t.path = false := by
    by_contra hfile
    have := not_directory_of_regular (Bool.not_eq_false _ ▸ hfile)
    rw [hsame.path, hsame.isDirectory, hpath] at this
    cases this
  refine ⟨hadvance ▸ hsame, hadvance ▸ hid, ?_⟩
  rw [hadvance]
  cases rest with
  | nil => exact .inl ⟨by simp [Raft.transferFinished, hpending, hfile], rfl, fun _ => hclosed⟩
  | cons path rest =>
      refine .inr ⟨by simp [Raft.transferFinished, hpending], fun n => ?_⟩
      let u : Sender := { t with dataTransferId := n }
      have hsame' : SameFiles s u := hsame.trans ⟨rfl, rfl⟩
      have hne : u.pending ≠ [] := hpending ▸ List.cons_ne_nil path rest
      have hsends := sends_pending (s := u) (by rw [hsame'.path, hsame'.isDirectory]; exact hpath)
        hne hwithin (hsame'.tree htree) hclosed
      have hplan : u.planFrom u.pending = s.planFrom (path :: rest) := by
        rw [hsame'.planFrom]
        exact congrArg s.planFrom hpending
      rwa [hplan] at hsends

theorem Left.answered {left : List (Bytes × Bytes)} (h : s.Left left) (hwithin : s.Within)
    (htree : s.Tree) (hsize : ¬ s.Misjudged) : s.Answered left := by
  cases h with
  | @directory path rest hpath hpending hdir hclosed =>
      refine answered_next (advance_directory hpending hdir) hpath ⟨rfl, rfl⟩ rfl rfl ?_ htree
        hclosed
      exact (List.suffix_cons path rest).trans (hpending ▸ hwithin)
  | @file path rest k hpath hpending hfile hprogress =>
      have hcurrent : s.current = path := by rw [current, hpending]; rfl
      have heof := hprogress.eof_iff fun hzero hfull =>
        hsize ⟨hcurrent ▸ hfile, hcurrent ▸ hzero, hfull⟩
      by_cases hend : k = rounds (s.fileSize path)
      · have hadvance := advance_end hpending hfile (heof.mpr hend)
        have hnone : (pieces (s.content path)).drop k = [] :=
          List.drop_eq_nil_of_le (by rw [length_pieces]; exact hend.ge)
        rw [hnone, List.map_nil, List.nil_append]
        refine answered_next hadvance hpath ⟨rfl, rfl⟩ rfl rfl ?_ htree rfl
        exact (List.suffix_cons path rest).trans (hpending ▸ hwithin)
      · have hnot : s.eof path = false := by
          rw [← Bool.not_eq_true, heof]
          exact hend
        have hadvance := advance_stays hpending hfile hnot
        have hlt : k < rounds (s.fileSize path) := Nat.lt_of_le_of_ne hprogress.le hend
        refine ⟨hadvance.symm ▸ .refl s, congrArg Sender.dataTransferId hadvance, .inr ?_⟩
        rw [hadvance]
        refine ⟨by simp [Raft.transferFinished, hpending], fun n => ?_⟩
        let u : Sender := { s with dataTransferId := n }
        have hsame : SameFiles s u := ⟨rfl, rfl⟩
        have hsends := sends_file (s := u) hpath hpending hfile hwithin
          ((hprogress.numbered n).sendsPiece hlt) hlt
        rwa [hsame.planFrom, hsame.content] at hsends
  | @single k hpending hfile hprogress =>
      have hadvance := advance_nil hpending
      have hcurrent : s.current = s.path := by rw [current, hpending]; rfl
      have heof := hprogress.eof_iff fun hzero hfull =>
        hsize ⟨hcurrent ▸ hfile, hcurrent ▸ hzero, hfull⟩
      refine ⟨hadvance.symm ▸ .refl s, congrArg Sender.dataTransferId hadvance, ?_⟩
      rw [hadvance]
      by_cases hend : k = rounds (s.fileSize s.path)
      · have hnone : (pieces (s.content s.path)).drop k = [] :=
          List.drop_eq_nil_of_le (by rw [length_pieces]; exact hend.ge)
        refine .inl ⟨?_, by rw [hnone, List.map_nil], fun hnot => ?_⟩
        · simp [Raft.transferFinished, hpending, heof.mpr hend]
        · rw [hfile] at hnot
          cases hnot
      · have hlt : k < rounds (s.fileSize s.path) := Nat.lt_of_le_of_ne hprogress.le hend
        have hnot : s.eof s.path = false := by
          rw [← Bool.not_eq_true, heof]
          exact hend
        refine .inr ⟨by simp [Raft.transferFinished, hpending, hfile, hnot], fun n => ?_⟩
        exact sends_single (s := { s with dataTransferId := n }) hpending hfile hwithin
          ((hprogress.numbered n).sendsPiece hlt) hlt
  | bare hpending hfile hclosed =>
      have hadvance := advance_nil hpending
      refine ⟨hadvance.symm ▸ .refl s, congrArg Sender.dataTransferId hadvance, .inl ?_⟩
      rw [hadvance]
      exact ⟨by simp [Raft.transferFinished, hpending, hfile], rfl, fun _ => hclosed⟩

end Sender

end Draft
