import BlazeNet.Lib.Transfer
import Mathlib.Data.List.AList

/-!
# Paths and files of a Unix file system

A path is a list of components from the root. A disk maps places, which have no `..` in them, to
directories and files; the kernel walks a path through the directories it names, and `..` climbs
to the parent. There are no links, `/` alone separates names, and a name may be of any length. As in
`Path::components` a slash at the end of a text is dropped, so the calls do not see one. The disk
also keeps a log of the places that calls opened, created, renamed or removed.

The calls are programs with faults: `stat` and what is built on it, `mkdir`, `createDirAll`, the
opening, reading, writing, removing and renaming of files.
-/

namespace UnixFs

open FaultIo Io RustStd

abbrev Name := List Char

inductive Component where
  | parentDir
  | normal (name : Name)
  deriving DecidableEq

/-- A path from the root. -/
abbrev Path := List Component

/-- A directory entry, by the names on the way to it. -/
abbrev Place := List Name

section Paths

/-- One piece of a path text between slashes. -/
def component (piece : Name) : Option Component :=
  if piece = [] ∨ piece = ['.'] then none
  else if piece = ['.', '.'] then some .parentDir
  else some (.normal piece)

def components (text : String) : Path := (text.toList.splitOn '/').filterMap component

def isAbsolute (text : String) : Bool := text.toList.head? = some '/'

/-- `Path::join`: an absolute argument replaces the base. -/
def join (base : Path) (text : String) : Path :=
  if isAbsolute text then components text else base ++ components text

/-- `Path::parent`. -/
def parent (path : Path) : Option Path := if path = [] then none else some path.dropLast

/-- `Path::file_stem`: what stands before the last dot, unless nothing does. -/
def fileStem (name : Name) : Name :=
  let before := ((name.reverse.dropWhile (· ≠ '.')).drop 1).reverse
  if before = [] then name else before

/-- `Path::extension`: what stands after the last dot, unless nothing stands before it. -/
def extension (name : Name) : Option Name :=
  if ((name.reverse.dropWhile (· ≠ '.')).drop 1).reverse = [] then none
  else some (name.reverse.takeWhile (· ≠ '.')).reverse

/-- `Path::with_extension`. -/
def withExtension (path : Path) (extension : Name) : Path :=
  match path.getLast? with
  | some (.normal name) => path.dropLast ++ [.normal (fileStem name ++ '.' :: extension)]
  | _ => path

/-- The path to a place. -/
def ofPlace (place : Place) : Path := place.map .normal

def climb (place : Place) : Component → Place
  | .parentDir => place.dropLast
  | .normal name => place ++ [name]

/-- The place a path names. -/
def resolve (path : Path) : Place := path.foldl climb []

end Paths

inductive Node where
  | file (content : FileBytes)
  | dir
  deriving DecidableEq

inductive Access where
  | open
  | create
  | mkdir
  | remove
  | rename
  deriving DecidableEq

structure Disk where
  nodes : AList fun _ : Place => Node
  log : List (Access × Place)

inductive Errno where
  | notFound
  | notDirectory
  | isDirectory
  | alreadyExists
  deriving DecidableEq

/-- An error type that holds the errors of the kernel. -/
class OsError (ε : Type) where
  ofErrno : Errno → ε
  isNotFound : ε → Bool
  isNotFound_ofErrno : ∀ e, isNotFound (ofErrno e) = decide (e = .notFound)

namespace Disk

def node (d : Disk) (place : Place) : Option Node := d.nodes.lookup place

/-- The disk with these entries, the first for each place. -/
def ofList (entries : List (Place × Node)) : Disk :=
  ⟨(entries.map fun e => (⟨e.1, e.2⟩ : Sigma fun _ : Place => Node)).toAList, []⟩

def put (d : Disk) (place : Place) (n : Node) (access : Access) : Disk :=
  ⟨d.nodes.insert place n, (access, place) :: d.log⟩

def del (d : Disk) (place : Place) : Disk := ⟨d.nodes.erase place, (.remove, place) :: d.log⟩

def note (d : Disk) (place : Place) (access : Access) : Disk :=
  { d with log := (access, place) :: d.log }

/-- New content of an open file. -/
def fill (d : Disk) (place : Place) (content : FileBytes) : Disk :=
  { d with nodes := d.nodes.insert place (.file content) }

/-- A file moves. -/
def move (d : Disk) (source target : Place) (content : FileBytes) : Disk :=
  ⟨(d.nodes.erase source).insert target (.file content),
    (.rename, source) :: (.rename, target) :: d.log⟩

/-- The kernel's walk: what is walked through must be a directory. -/
def walk (d : Disk) : Place → Path → Except Errno Place
  | place, [] => .ok place
  | place, c :: rest => match d.node place with
    | some .dir => d.walk (climb place c) rest
    | some (.file _) => .error .notDirectory
    | none => .error .notFound

def find (d : Disk) (path : Path) : Except Errno Place := d.walk [] path

def stat (d : Disk) (path : Path) : Except Errno Node := match d.find path with
  | .ok place => match d.node place with
    | some n => .ok n
    | none => .error .notFound
  | .error e => .error e

def isFile (d : Disk) (path : Path) : Bool := match d.stat path with
  | .ok (.file _) => true
  | _ => false

def isDir (d : Disk) (path : Path) : Bool := match d.stat path with
  | .ok .dir => true
  | _ => false

def pathExists (d : Disk) (path : Path) : Bool := match d.stat path with
  | .ok _ => true
  | _ => false

end Disk

section Calls

variable {ε : Type} [OsError ε] {α : Type}

/-- A system call that is done or fails. -/
def sys (f : Disk → Except Errno (α × Disk)) : Io ε Disk α := atomic fun d => match f d with
  | .ok (a, d') => (.ok a, d')
  | .error e => (.error (OsError.ofErrno e), d)

/-- A system call on the place that a path names. -/
def sysAt (path : Path) (act : Disk → Place → Except Errno (α × Disk)) : Io ε Disk α :=
  sys fun d => match d.find path with
    | .ok place => act d place
    | .error e => .error e

def ask (f : Disk → Except Errno α) : Io ε Disk α :=
  query fun d => (f d).mapError OsError.ofErrno

/-- What the caller learns from `stat`; a failed call counts as `no`. -/
def test (yes : Node → Bool) (path : Path) : Io ε Disk Bool := do
  match ← attempt (ask fun d => d.stat path : Io ε Disk Node) with
  | .ok n => pure (yes n)
  | .error _ => pure false

def isFile : Path → Io ε Disk Bool := test fun n => match n with
  | .file _ => true
  | .dir => false

def isDir : Path → Io ε Disk Bool := test fun n => match n with
  | .file _ => false
  | .dir => true

def pathExists : Path → Io ε Disk Bool := test fun _ => true

def mkdir (path : Path) : Io ε Disk Unit := sysAt path fun d place =>
  match d.node place with
  | some _ => .error .alreadyExists
  | none => .ok ((), d.put place .dir .mkdir)

/-- `mkdir`, where a directory that is there already will do. -/
def orIsDir (path : Path) (e : ε) : Io ε Disk Unit := do
  if ← isDir path then pure () else stop (.err e)

/-- `fs::create_dir_all` of a path given from its end. -/
def createDirAllRev : List Component → Io ε Disk Unit
  | [] => pure ()
  | c :: up => do
    match ← attempt (mkdir (c :: up).reverse : Io ε Disk Unit) with
    | .ok () => pure ()
    | .error e =>
      if OsError.isNotFound e then do
        createDirAllRev up
        match ← attempt (mkdir (c :: up).reverse : Io ε Disk Unit) with
        | .ok () => pure ()
        | .error e => orIsDir (c :: up).reverse e
      else orIsDir (c :: up).reverse e

def createDirAll (path : Path) : Io ε Disk Unit := createDirAllRev path.reverse

/-- `File::open`: the place of the open file. A directory can be opened too. -/
def openFile (path : Path) : Io ε Disk Place := sysAt path fun d place =>
  match d.node place with
  | some _ => .ok (place, d.note place .open)
  | none => .error .notFound

/-- `File::create`. -/
def createFile (path : Path) : Io ε Disk Place := sysAt path fun d place =>
  match d.node place with
  | some .dir => .error .isDirectory
  | _ => .ok (place, d.put place (.file []) .create)

/-- One positional read of an open file. -/
def readFrom (place : Place) (n offset : ℕ) : Io ε Disk FileBytes := call fun fault d =>
  match d.node place with
  | some (.file content) => match fault with
    | .none => (.ok (pread content offset n), d)
    | .short k => (.ok (pread content offset (min k n)), d)
    | .fail _ e => (.error (.err e), d)
    | .kill _ => (.error .killed, d)
  | _ => (.error (.err (OsError.ofErrno .isDirectory)), d)

/-- `fs::read`. -/
def readFile (path : Path) : Io ε Disk FileBytes := sysAt path fun d place =>
  match d.node place with
  | some (.file content) => .ok (content, d.note place .open)
  | some .dir => .error .isDirectory
  | none => .error .notFound

/-- A write of all the data into an open file; a failure may leave a part of it written. -/
def writeInto (place : Place) (data : FileBytes) (offset : ℕ) : Io ε Disk Unit :=
  call fun fault d =>
    let written (part : FileBytes) : Disk := match d.node place with
      | some (.file content) => d.fill place (pwrite content offset part)
      | _ => d
    match fault with
    | .fail n e => (.error (.err e), written (data.take n))
    | .kill n => (.error .killed, written (data.take n))
    | _ => (.ok (), written data)

/-- `fs::write`. -/
def writeFile (path : Path) (data : FileBytes) : Io ε Disk Unit := do
  let place ← createFile path
  writeInto place data 0

def removeFile (path : Path) : Io ε Disk Unit := sysAt path fun d place =>
  match d.node place with
  | some (.file _) => .ok ((), d.del place)
  | some .dir => .error .isDirectory
  | none => .error .notFound

/-- `fs::rename` of a file. -/
def renameFile (source target : Path) : Io ε Disk Unit := sysAt source fun d a =>
  match d.node a, d.find target with
  | none, _ => .error .notFound
  | some .dir, _ => .error .isDirectory
  | some (.file _), .error e => .error e
  | some (.file content), .ok b =>
    if d.node b = some .dir then .error .isDirectory else .ok ((), d.move a b content)

/-- `fs::read_dir`: the names in a directory. -/
def readDir (path : Path) : Io ε Disk (List Name) := sysAt path fun d place =>
  match d.node place with
  | some .dir => .ok (d.nodes.keys.filterMap fun p =>
      if p.dropLast = place then p.getLast? else none, d)
  | some (.file _) => .error .notDirectory
  | none => .error .notFound

/-- `File::sync_all` and the closing of a file. -/
def flushFile : Io ε Disk Unit := query fun _ => .ok ()

end Calls

end UnixFs
