import Insomnilog.Lib.Slots

/-! Session log files and their rotation when a sink is constructed. -/
namespace Insomnilog.Session

/-- The bytes of an OS string. -/
abbrev OsString := List UInt8

/-- Sessions are numbered in the order in which their log files were created. -/
abbrev SessionId := ℕ

inductive ErrorKind where
  | notFound
  | alreadyExists
  | invalidInput
  | other
  deriving DecidableEq, Repr

inductive FileOp where
  | removeFile (path : OsString)
  | rename (source target : OsString)
  | openFile (path : OsString)
  deriving DecidableEq

/-- The operations the system refuses during one construction, for another reason than
a missing file. -/
abbrev Faults := FileOp → Bool

/-- Which session's log each file holds. `overwritten` records the logs that a rename
has replaced; nothing reads it. -/
structure Disk where
  files : OsString → Option SessionId
  overwritten : List SessionId

/-- `std::fs::OpenOptions`. -/
structure OpenOptions where
  read : Bool
  write : Bool
  append : Bool
  truncate : Bool
  create : Bool
  createNew : Bool
  deriving DecidableEq

/-- `OpenOptions::new()`. -/
def OpenOptions.new : OpenOptions := ⟨false, false, false, false, false, false⟩

/-- Some access mode is requested, and the creation flags go with it. -/
def OpenOptions.valid (o : OpenOptions) : Bool :=
  if o.append then !o.truncate || o.createNew
  else if o.write then true
  else o.read && !(o.truncate || o.create || o.createNew)

/-- An I/O operation: its result and the disk it leaves. -/
abbrev Io (α : Type) := Disk → Except ErrorKind α × Disk

/-- `self?; next`. -/
def Io.andThen {α β : Type} (x : Io α) (next : α → Io β) : Io β := fun d =>
  match x d with
  | (.ok a, d) => next a d
  | (.error e, d) => (.error e, d)

namespace Fs

def removeFile (faults : Faults) (path : OsString) : Io Unit := fun d =>
  if faults (.removeFile path) then (.error .other, d)
  else
    match d.files path with
    | none => (.error .notFound, d)
    | some _ => (.ok (), { d with files := fun p => if p = path then none else d.files p })

/-- Replaces the file at `target`, if there is one. -/
def rename (faults : Faults) (source target : OsString) : Io Unit := fun d =>
  if faults (.rename source target) then (.error .other, d)
  else
    match d.files source with
    | none => (.error .notFound, d)
    | some session =>
        (.ok (), {
          files := fun p =>
            if p = source then none else if p = target then some session else d.files p
          overwritten := d.overwritten ++ (d.files target).toList })

/-- Opens the log file of `session`. A file that exists and is neither refused nor
truncated keeps the log it holds. -/
def openFile (faults : Faults) (options : OpenOptions) (path : OsString) (session : SessionId) :
    Io Unit := fun d =>
  if !options.valid then (.error .invalidInput, d)
  else if faults (.openFile path) then (.error .other, d)
  else
    let fresh : Disk := { d with files := fun p => if p = path then some session else d.files p }
    match d.files path with
    | none => if options.create || options.createNew then (.ok (), fresh) else (.error .notFound, d)
    | some _ =>
        if options.createNew then (.error .alreadyExists, d)
        else if options.truncate then (.ok (), fresh)
        else (.ok (), d)

end Fs

namespace SessionFileSink

/-- The decimal digits of an index, as bytes. -/
def digits (index : ℕ) : List UInt8 := (Nat.toDigits 10 index).map fun c => UInt8.ofNat c.toNat

def getBackupPathForIndex (path : OsString) (index : ℕ) : OsString :=
  if index = 0 then path else path ++ (46 :: digits index)

/-- The arm `Err(e) if e.kind() == NotFound => Ok(())`. -/
def skipMissing (x : Io Unit) : Io Unit := fun d =>
  match x d with
  | (.error .notFound, d) => (.ok (), d)
  | other => other

def removeIfPresent (faults : Faults) (path : OsString) : Io Unit :=
  skipMissing (Fs.removeFile faults path)

def renameIfPresent (faults : Faults) (source target : OsString) : Io Unit :=
  skipMissing (Fs.rename faults source target)

/-- The loop over `(1..=max_backups).rev()`. -/
def renameLoop (faults : Faults) (path : OsString) : ℕ → Io Unit
  | 0 => fun d => (.ok (), d)
  | index + 1 =>
    (renameIfPresent faults (getBackupPathForIndex path index)
      (getBackupPathForIndex path (index + 1))).andThen fun _ => renameLoop faults path index

def rotate (faults : Faults) (path : OsString) (maxBackups : ℕ) : Io Unit :=
  (removeIfPresent faults (getBackupPathForIndex path maxBackups)).andThen fun _ =>
    renameLoop faults path maxBackups

/-- The file operations of `try_from_options`, for the log of `session`. -/
def tryFromOptions (faults : Faults) (path : OsString) (maxBackups : ℕ) (options : OpenOptions)
    (session : SessionId) : Io Unit :=
  (rotate faults path maxBackups).andThen fun _ => Fs.openFile faults options path session

def tryNew (faults : Faults) (path : OsString) (maxBackups : ℕ) (session : SessionId) : Io Unit :=
  tryFromOptions faults path maxBackups { OpenOptions.new with append := true, create := true }
    session

end SessionFileSink

/-- The files `path`, `path.1`, `path.2`, … as numbered slots. -/
def Disk.slots (d : Disk) (path : OsString) (i : ℕ) : Option SessionId :=
  d.files (SessionFileSink.getBackupPathForIndex path i)

end Insomnilog.Session
