import Draft.Foundation.Bytes

/-!
# Files and the streams that write them

A name stands for an inode.  A stream writes to the inode it has opened, also
after the name is gone.  Permission bits and the current directory are left out.
-/

namespace Draft

structure FileSystem where
  names : List (Bytes × Nat)
  directories : List Bytes
  /-- What the inodes hold, by number. -/
  contents : List Bytes
  deriving DecidableEq, Repr

namespace FileSystem

variable (fs : FileSystem)

def inode (name : Bytes) : Option Nat := (fs.names.find? (·.1 = name)).map (·.2)

def read (name : Bytes) : Option Bytes := (fs.inode name).bind (fs.contents[·]?)

def exists_ (name : Bytes) : Bool := (fs.inode name).isSome || name ∈ fs.directories

def within (path name : Bytes) : Bool := name = path || (path ++ [47]).isPrefixOf name

def removeAll (path : Bytes) : FileSystem :=
  { fs with
    names := fs.names.filter fun p => !within path p.1
    directories := fs.directories.filter fun name => !within path name }

/-- The directories on the way to a path, the path itself last. -/
def ancestors (path : Bytes) : List Bytes :=
  path.inits.filter fun p => p ≠ [] && (path.drop p.length).head?.all (· = 47)

def createDirectories (path : Bytes) : FileSystem :=
  { fs with directories := fs.directories ++
      (ancestors path).filter fun name => name ∉ fs.directories }

def parentPath (path : Bytes) : Bytes := (path.reverse.dropWhile (· ≠ 47)).tail.reverse

/-- Open for appending: a file that does not exist is created, a directory does not open. -/
def openAppend (name : Bytes) : FileSystem × Option Nat :=
  if name ∈ fs.directories then (fs, none)
  else
    match fs.inode name with
    | some i => (fs, some i)
    | none =>
        ({ fs with
            names := fs.names ++ [(name, fs.contents.length)]
            contents := fs.contents ++ [[]] }, some fs.contents.length)

/-- A write to an inode; a stream that is not open writes nothing. -/
def write (stream : Option Nat) (data : Bytes) : FileSystem :=
  match stream with
  | none => fs
  | some i => { fs with contents := fs.contents.modify i (· ++ data) }

variable {fs} {name data : Bytes}

theorem inode_removeAll : (fs.removeAll name).inode name = none := by
  have hnone : (fs.removeAll name).names.find? (·.1 = name) = none := by
    rw [List.find?_eq_none]
    intro p hp
    have hout : within name p.1 = false := by simpa using (List.mem_filter.mp hp).2
    simp only [within, Bool.or_eq_false_iff, decide_eq_false_iff_not] at hout
    simpa using hout.1
  rw [inode, hnone]
  rfl

theorem not_directory_removeAll : name ∉ (fs.removeAll name).directories := by
  simp [removeAll, within]

theorem openAppend_new (hdir : name ∉ fs.directories) (hinode : fs.inode name = none) :
    ∃ i, (fs.openAppend name).2 = some i ∧ (fs.openAppend name).1.inode name = some i ∧
      (fs.openAppend name).1.contents[i]? = some [] := by
  have hopen : fs.openAppend name =
      ({ fs with
          names := fs.names ++ [(name, fs.contents.length)]
          contents := fs.contents ++ [[]] }, some fs.contents.length) := by
    rw [openAppend, if_neg hdir, hinode]
  have hnone : fs.names.find? (·.1 = name) = none := by simpa [inode] using hinode
  rw [hopen]
  refine ⟨fs.contents.length, rfl, ?_, by simp⟩
  rw [inode, List.find?_append, hnone]
  simp

@[simp] theorem inode_write (stream : Option Nat) : (fs.write stream data).inode name =
    fs.inode name := by
  cases stream <;> rfl

@[simp] theorem directories_write (stream : Option Nat) :
    (fs.write stream data).directories = fs.directories := by
  cases stream <;> rfl

theorem contents_write {i : Nat} {content : Bytes} (h : fs.contents[i]? = some content) :
    (fs.write (some i) data).contents[i]? = some (content ++ data) := by
  simp [write, h]

end FileSystem

end Draft
