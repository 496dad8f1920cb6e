import Insomnilog.Backend.Shutdown
import Insomnilog.Lib.InsertOnce
import Insomnilog.Lib.RefCount

/-! The registries of loggers and sinks, the `Arc`s that user code holds, and the backend
at work. A logger has its address as identity, and so has a sink. The records carry
addresses of loggers, which the worker dereferences. -/
namespace Insomnilog.Registry
open Wire Frontend Backend

/-- The calls of `create_logger` and of `register_sink` that have found their name free
and hold the lock are in `creating` and `registering`, with what was moved into them.
`dangling` records whether the worker has ever dereferenced a dead address. -/
structure World (t : Target) where
  loggers : LockedMap String t.Ptr
  loggerHeap : RefHeap t.Ptr Logger
  sinks : LockedMap String ℕ
  sinkHeap : RefHeap ℕ Unit
  creating : Option (List ℕ × LogLevel)
  registering : Option ℕ
  heldLoggers : List t.Ptr
  heldSinks : List ℕ
  backend : State t
  dangling : Bool

inductive Event (t : Target) where
  /-- `create_logger` takes the lock and looks the name up. -/
  | createLookup (name : String) (sinks : List ℕ) (level : LogLevel)
  /-- `Logger::new` at an address from the allocator, and the insertion. -/
  | createInsert (address : t.Ptr)
  | getLogger (name : String)
  | registerLookup (name : String) (sink : ℕ)
  | registerInsert
  | getSink (name : String)
  | newSink (address : ℕ)
  | cloneLogger (address : t.Ptr)
  | dropLogger (address : t.Ptr)
  | cloneSink (address : ℕ)
  | dropSink (address : ℕ)
  | setLevel (address : t.Ptr) (level : LogLevel)
  | runner (e : Backend.Event t)

variable {t : Target}

/-- The backend, where the addresses point to the given loggers. -/
def withLoggers (cfg : Config t) (logger : t.Ptr → Logger) : Config t := { cfg with logger }

namespace World

def deref (s : World t) (a : t.Ptr) : Option Logger := s.loggerHeap.value a

/-- What the worker finds at an address; at a dead one, anything. -/
def loggerAt (s : World t) (a : t.Ptr) : Logger := (s.deref a).getD ⟨"", []⟩

/-- Drop of an `Arc<Logger>`. With the last one, the sinks of the logger are dropped. -/
def releaseLogger (s : World t) (a : t.Ptr) : World t :=
  let heap := s.loggerHeap.drop a
  { s with
    loggerHeap := heap
    sinkHeap :=
      match s.deref a, heap.value a with
      | some l, none => s.sinkHeap.dropAll l.sinks
      | _, _ => s.sinkHeap }

def createLookup (s : World t) (name : String) (sinks : List ℕ) (level : LogLevel) : World t :=
  let s := { s with heldSinks := s.heldSinks.diff sinks }
  match s.loggers.find name with
  | some existing => { s with
      loggers := s.loggers.lookup name
      loggerHeap := s.loggerHeap.clone existing
      heldLoggers := existing :: s.heldLoggers
      sinkHeap := s.sinkHeap.dropAll sinks }
  | none => { s with loggers := s.loggers.lookup name, creating := some (sinks, level) }

/-- One reference goes to the caller and one into the map, where a value that is replaced
is dropped. -/
def createInsert (s : World t) (name : String) (sinks : List ℕ) (level : LogLevel) (a : t.Ptr) :
    World t :=
  let s :=
    match s.loggers.find name with
    | some old => s.releaseLogger old
    | none => s
  { s with
    loggers := s.loggers.insert name a
    loggerHeap := (s.loggerHeap.alloc a ⟨name, sinks⟩).clone a
    creating := none
    heldLoggers := a :: s.heldLoggers
    backend := { s.backend with level := Function.update s.backend.level a level } }

def getLogger (s : World t) (name : String) : World t :=
  let s' := { s with loggers := s.loggers.get name }
  match s.loggers.find name with
  | some a => { s' with loggerHeap := s.loggerHeap.clone a, heldLoggers := a :: s.heldLoggers }
  | none => s'

def registerLookup (s : World t) (name : String) (sink : ℕ) : World t :=
  let s := { s with heldSinks := s.heldSinks.erase sink }
  match s.sinks.find name with
  | some existing => { s with
      sinks := s.sinks.lookup name
      sinkHeap := (s.sinkHeap.clone existing).drop sink
      heldSinks := existing :: s.heldSinks }
  | none => { s with sinks := s.sinks.lookup name, registering := some sink }

def registerInsert (s : World t) (name : String) (sink : ℕ) : World t :=
  { s with
    sinks := s.sinks.insert name sink
    sinkHeap :=
      match s.sinks.find name with
      | some old => s.sinkHeap.drop old
      | none => s.sinkHeap
    registering := none }

def getSink (s : World t) (name : String) : World t :=
  let s' := { s with sinks := s.sinks.get name }
  match s.sinks.find name with
  | some b => { s' with sinkHeap := s.sinkHeap.clone b, heldSinks := b :: s.heldSinks }
  | none => s'

/-- The address that the worker's next step dereferences in `process_record`. -/
def dereferenced (s : World t) : Option t.Ptr :=
  match s.backend.worker with
  | .advance _ _ _ _ (.ok raw) _ => some raw.loggerPtr
  | _ => none

/-- A log call needs a reference to its logger, and so does a change of the level. -/
def admits (s : World t) : Backend.Event t → Bool
  | .act _ (.check r) => r.loggerPtr ∈ s.heldLoggers
  | .setLevel .. => false
  | _ => true

def runnerStep (cfg : Config t) (s : World t) (e : Backend.Event t) : Option (World t) :=
  (Backend.step (withLoggers cfg s.loggerAt) s.backend e).map fun b =>
    { s with
      backend := b
      dangling := s.dangling ||
        (e = .work && s.dereferenced.any fun a => (s.deref a).isNone) }

end World

def step (cfg : Config t) (s : World t) : Event t → Option (World t)
  | .createLookup name sinks level =>
      if s.loggers.writer = none ∧ sinks.Subperm s.heldSinks then
        some (s.createLookup name sinks level)
      else none
  | .createInsert a =>
    match s.loggers.writer, s.creating with
    | some name, some (sinks, level) =>
        if s.loggerHeap.cell a = none then some (s.createInsert name sinks level a) else none
    | _, _ => none
  | .getLogger name => if s.loggers.writer = none then some (s.getLogger name) else none
  | .registerLookup name sink =>
      if s.sinks.writer = none ∧ sink ∈ s.heldSinks then some (s.registerLookup name sink)
      else none
  | .registerInsert =>
    match s.sinks.writer, s.registering with
    | some name, some sink => some (s.registerInsert name sink)
    | _, _ => none
  | .getSink name => if s.sinks.writer = none then some (s.getSink name) else none
  | .newSink b =>
      if s.sinkHeap.cell b = none then
        some { s with sinkHeap := s.sinkHeap.alloc b (), heldSinks := b :: s.heldSinks }
      else none
  | .cloneLogger a =>
      if a ∈ s.heldLoggers then
        some { s with loggerHeap := s.loggerHeap.clone a, heldLoggers := a :: s.heldLoggers }
      else none
  | .dropLogger a =>
      if a ∈ s.heldLoggers then
        some { s.releaseLogger a with heldLoggers := s.heldLoggers.erase a }
      else none
  | .cloneSink b =>
      if b ∈ s.heldSinks then
        some { s with sinkHeap := s.sinkHeap.clone b, heldSinks := b :: s.heldSinks }
      else none
  | .dropSink b =>
      if b ∈ s.heldSinks then
        some { s with sinkHeap := s.sinkHeap.drop b, heldSinks := s.heldSinks.erase b }
      else none
  | .setLevel a level =>
      if a ∈ s.heldLoggers then
        some { s with
          backend := { s.backend with level := Function.update s.backend.level a level } }
      else none
  | .runner e => if s.admits e then s.runnerStep cfg e else none

/-- All runs of a started backend and of the threads that use it. -/
def system (cfg : Config t) (level : t.Ptr → LogLevel) : StepSystem (World t) (Event t) where
  init :=
    { loggers := .empty
      loggerHeap := .empty
      sinks := .empty
      sinkHeap := .empty
      creating := none
      registering := none
      heldLoggers := []
      heldSinks := []
      backend := (Backend.system cfg level).init
      dangling := false }
  step := step cfg

end Insomnilog.Registry
