import Insomnilog.Queue.Capacity
import Insomnilog.Queue.Fifo
import Insomnilog.Wire.Prefix
import Insomnilog.Wire.Total
import Insomnilog.Frontend.Nesting
import Insomnilog.Frontend.SizeLimits
import Insomnilog.Framing.Lockstep
import Insomnilog.Backend.Conservation
import Insomnilog.Backend.Join
import Insomnilog.Backend.Drain
import Insomnilog.Backend.Flush
import Insomnilog.Backend.Batch
import Insomnilog.Backend.Fairness
import Insomnilog.Backend.Idle
import Insomnilog.Backend.Report
import Insomnilog.Lifecycle.Start
import Insomnilog.Registry.Identity
import Insomnilog.Session.Failure
import Insomnilog.Session.Shift
import Insomnilog.Formatter.Grammar
import Insomnilog.Formatter.Outline
import Insomnilog.Formatter.Message
import Insomnilog.Formatter.Padding
import Insomnilog.Formatter.Timestamp
import Insomnilog.Sink.TornLines
import Insomnilog.Sink.WholeLines
import Insomnilog.Sink.Concurrent
import Insomnilog.Output.Files
import Insomnilog.Visibility.Orderings
import Insomnilog.Visibility.Sequential
