import Insomnilog.Frontend.LogCall

/-! Dispatch of one record to the sinks of its logger. The sinks are user code: what
their methods return is a parameter, and any of them may panic. -/
namespace Insomnilog.Backend
open Wire Frontend

/-- A logger; its level is kept with the state, since it changes at run time. Sinks are
numbered. -/
structure Logger where
  name : String
  sinks : List ℕ

/-- What sinks are given. -/
structure LogRecord (t : Target) where
  timestampNs : BitVec 64
  loggerName : String
  metadata : t.Ptr
  args : List DecodedArg
  deriving DecidableEq

/-- What the methods of a sink do for one record. A level of `none` is a panic. -/
structure SinkScript where
  level : Option LogLevel
  write : Outcome Unit Unit
  flush : Outcome Unit Unit

inductive Method where
  | level
  | write
  | flush
  deriving DecidableEq, Repr

/-- One round of the loop in `fanout_to_sinks`: the calls made, what is added to the
error counters, and whether the round unwinds. -/
structure Visit where
  steps : List (Method × Outcome Unit Unit)
  writeErrors : ℕ
  flushErrors : ℕ
  panicked : Bool
  deriving DecidableEq

def visitSink (script : SinkScript) (level : LogLevel) : Visit :=
  match script.level with
  | none => ⟨[(.level, .panic)], 0, 0, true⟩
  | some sinkLevel =>
    if level < sinkLevel then ⟨[(.level, .ok ())], 0, 0, false⟩
    else
      match script.write with
      | .ok () =>
        match script.flush with
        | .ok () => ⟨[(.level, .ok ()), (.write, .ok ()), (.flush, .ok ())], 0, 0, false⟩
        | .err () => ⟨[(.level, .ok ()), (.write, .ok ()), (.flush, .err ())], 0, 1, false⟩
        | .panic => ⟨[(.level, .ok ()), (.write, .ok ()), (.flush, .panic)], 0, 0, true⟩
      | .err () => ⟨[(.level, .ok ()), (.write, .err ())], 1, 0, false⟩
      | .panic => ⟨[(.level, .ok ()), (.write, .panic)], 0, 0, true⟩

/-- A call made to a sink for the record `index` of a thread. -/
structure SinkCall (t : Target) where
  sink : ℕ
  thread : ℕ
  index : ℕ
  position : ℕ
  method : Method
  verdict : Outcome Unit Unit
  record : LogRecord t
  deriving DecidableEq

/-- A fan-out under way, before the sink at `position`. -/
structure Fanout (t : Target) where
  thread : ℕ
  index : ℕ
  record : LogRecord t
  position : ℕ
  deriving DecidableEq

namespace Fanout
variable {t : Target}

def calls (f : Fanout t) (sink : ℕ) (v : Visit) : List (SinkCall t) :=
  v.steps.map fun p => ⟨sink, f.thread, f.index, f.position, p.1, p.2, f.record⟩

def next (f : Fanout t) : Fanout t := { f with position := f.position + 1 }

/-- All calls of the fan-out to the sinks still to come, up to a panic. -/
def remaining (script : ℕ → SinkScript) (level : LogLevel) (f : Fanout t) :
    List ℕ → List (SinkCall t)
  | [] => []
  | sink :: sinks =>
      let v := visitSink (script f.position) level
      f.calls sink v ++ if v.panicked then [] else f.next.remaining script level sinks

end Fanout
end Insomnilog.Backend
