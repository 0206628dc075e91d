import Draft.Foundation.Bytes

/-!
# The sending side of a data transfer

A leader keeps one directory iterator, one input stream and one pair of
request counters for all its transfers.  Paths are named relative to the
parent of `path_`, as `relative` does before a name is sent.
-/

namespace Draft

inductive FileNode where
  | directory (empty : Bool)
  | regular (content : Bytes)
  deriving DecidableEq, Repr

/-- The `std::ifstream fin`: the path it has open, its position and its last count. -/
structure InputStream where
  path : Option Bytes
  position : Nat
  good : Bool
  gcount : Nat
  deriving DecidableEq, Repr

structure Sender where
  /-- `path_`. -/
  path : Bytes
  /-- What the file system holds, in the order the directory iterator visits it. -/
  files : List (Bytes × FileNode)
  /-- The paths from `begin` on; the empty list is `end`. -/
  pending : List Bytes
  fin : InputStream
  last : Bytes
  dataTransferId : Nat
  doneTransferId : Nat
  deriving DecidableEq, Repr

def buffSize : Nat := 65536

namespace Sender

variable (s : Sender)

def node (path : Bytes) : Option FileNode :=
  (s.files.find? fun f => f.1 = path).map (·.2)

def exists_ (path : Bytes) : Bool := (s.node path).isSome

def isDirectory (path : Bytes) : Bool :=
  match s.node path with
  | some (.directory _) => true
  | _ => false

def isRegularFile (path : Bytes) : Bool :=
  match s.node path with
  | some (.regular _) => true
  | _ => false

def isEmptyDirectory (path : Bytes) : Bool := s.node path = some (.directory true)

def content (path : Bytes) : Bytes :=
  match s.node path with
  | some (.regular content) => content
  | _ => []

def fileSize (path : Bytes) : Nat := (s.content path).length

/-- The paths below `path`, which the recursive iterator visits. -/
def below (path : Bytes) : List Bytes :=
  (s.files.map (·.1)).filter fun p => (path ++ ascii "/").isPrefixOf p

def initTransfer : Sender :=
  { s with
    dataTransferId := 0
    doneTransferId := 0
    pending := if s.isDirectory s.path then s.below s.path else [] }

/-- `fin.read` of one buffer; a stream that has failed reads nothing. -/
def read : Sender × Bytes :=
  let chunk :=
    if s.fin.good then
      ((s.content (s.fin.path.getD [])).drop s.fin.position).take buffSize
    else []
  ({ s with fin := { s.fin with
      position := s.fin.position + chunk.length
      good := s.fin.good && chunk.length = buffSize
      gcount := chunk.length } }, chunk)

/-- `transfer(req, path)`: the name and the data of the request. -/
def transferFile (path : Bytes) : Sender × Bytes × Bytes :=
  if s.fileSize path = 0 then
    ({ s with last := path }, path, [])
  else
    let s :=
      if s.fin.path.isSome then s
      else { s with
        last := path
        fin := { s.fin with path := some path, position := 0, good := true } }
    let (s, chunk) := s.read
    (s, s.last, chunk)

def skipDirectories : List Bytes → List Bytes
  | [] => []
  | path :: rest =>
      if s.isDirectory path && !s.isEmptyDirectory path then skipDirectories rest
      else path :: rest

/-- The part of `do_data_transfer` that fills the name and the data of a request. -/
def transfer : Sender × Bytes × Bytes :=
  if s.pending ≠ [] then
    let s := { s with pending := s.skipDirectories s.pending }
    match s.pending with
    | [] => (s, [], [])
    | path :: _ =>
        if s.isDirectory path then ({ s with last := path }, path ++ ascii "/", [])
        else if s.isRegularFile path then s.transferFile path
        else (s, [], [])
  else if s.isRegularFile s.path then s.transferFile s.path
  else if s.isDirectory s.path then ({ s with last := s.path }, s.path ++ ascii "/", [])
  else (s, [], [])

/-- `eof`: the end of a file is guessed from the count of the last read. -/
def eof (path : Bytes) : Bool := s.fin.gcount ≠ buffSize || s.fileSize path = buffSize

def close : Sender := { s with fin := { s.fin with path := none } }

/-- The iterator part of `on_data_transfer`. -/
def advance : Sender :=
  match s.pending with
  | [] => s
  | path :: rest =>
      if s.isDirectory path then { s with pending := rest }
      else if s.isRegularFile path && s.eof path then { s with pending := rest }.close
      else s

end Sender

end Draft
