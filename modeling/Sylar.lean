import Sylar.Log.Escape
import Sylar.Library.Table
import Sylar.Library.Settle
import Sylar.Library.Machine
import Sylar.Library.Chain
import Sylar.Config.Var
import Sylar.Config.History
import Sylar.Config.Race
import Sylar.Yaml
import Sylar.Config.Load
import Sylar.Library.Heap
import Sylar.Log.Logger
import Sylar.Log.Define
import Sylar.Log.Initer
import Sylar.Log.Change
import Sylar.Log.Codec
import Sylar.Library.Reach
import Sylar.Fiber.Machine
import Sylar.Fiber.Discipline
import Sylar.Fiber.Schedule
import Sylar.Fiber.Life
import Sylar.Fiber.Frames
import Sylar.Fiber.References
import Sylar.Fiber.Destruction
import Sylar.Config.Registry
import Sylar.Config.Reload
import Sylar.Log.System
import Sylar.Log.Residue
import Sylar.Yaml.Flow
import Sylar.Config.Container
import Sylar.Log.Dump
import Sylar.Log.Objects
import Sylar.Log.Manager
import Sylar.Log.Inherit
import Sylar.Library.Locks
import Sylar.Log.Threads
import Sylar.Log.Locks
import Sylar.Log.Own
import Sylar.Library.Files
import Sylar.Log.File
import Sylar.Log.Names
import Sylar.Library.Alone
import Sylar.Log.Alone
import Sylar.Config.Strings
import Sylar.Config.Alphabet
import Sylar.Config.Flatten
import Sylar.Yaml.Graph
import Sylar.Library.Walk
import Sylar.Config.Reenter
import Sylar.Library.Since
import Sylar.Config.Listeners
import Sylar.Config.Report
import Sylar.Env
import Sylar.Env.Help
import Sylar.Log.Stream
import Sylar.Startup
import Sylar.Fiber.Main
import Sylar.Log.Formats
import Sylar.Log.Order
import Sylar.Config.Case
import Sylar.Library.ReadWrite
import Sylar.Library.Sections
import Sylar.Config.Threads
import Sylar.Log.Lines
import Sylar.Config.Locks
import Sylar.Library.Ranks
import Sylar.Fiber.Memory
import Sylar.Fiber.Uses
import Sylar.Log.Restore
import Sylar.Mutex
import Sylar.Fiber.Counters
import Sylar.Library.Columns
import Sylar.Log.Columns
import Sylar.Env.Threads
import Sylar.Env.Paths
import Sylar.Semaphore
import Sylar.Library.Streams
import Sylar.Log.Append
