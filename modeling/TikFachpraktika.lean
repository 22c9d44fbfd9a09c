import TikFachpraktika.Semaphore.System
import TikFachpraktika.Barbershop.Program
import TikFachpraktika.Barbershop.Balance
import TikFachpraktika.Barbershop.DeadlockFreedom
import TikFachpraktika.Posix.Bytes
import TikFachpraktika.Posix.OpenFile
import TikFachpraktika.Keyed.FirstMatch
import TikFachpraktika.Tikdb.Format
import TikFachpraktika.Tikdb.Commands
import TikFachpraktika.Tikdb.Store
import TikFachpraktika.Tikdb.Map
import TikFachpraktika.Tikfs.Calls
import TikFachpraktika.Tikfs.Session
import TikFachpraktika.Tikfs.Flush
import TikFachpraktika.Tikfs.Persistence
import TikFachpraktika.Tikfs.KeyOrder
import TikFachpraktika.Tikfs.Threads
import TikFachpraktika.Tikfs.Agreement
import TikFachpraktika.Tikfs.Flags
import TikFachpraktika.Tikfs.Attributes
import TikFachpraktika.Tikfs.Layout
import TikFachpraktika.Chat.Common
import TikFachpraktika.Chat.Server.State
import TikFachpraktika.Chat.Server.Commands
import TikFachpraktika.Chat.Server.Events
import TikFachpraktika.Chat.Server.Registry
import TikFachpraktika.Chat.Server.Delivery
import TikFachpraktika.Chat.Server.Names
import TikFachpraktika.Chat.Server.Private
import TikFachpraktika.Chat.Server.Aliases
import TikFachpraktika.Chat.Server.Dispatch
import TikFachpraktika.Chat.Client
import TikFachpraktika.Chat.Lines
import TikFachpraktika.Chat.InStep
import TikFachpraktika.Chat.Messages
import TikFachpraktika.Pageshm.HandOver
import TikFachpraktika.Semaphore.Trace
import TikFachpraktika.Barbershop.Closing
import TikFachpraktika.Barbershop.Pairing
import TikFachpraktika.Tikfs.Contents
import TikFachpraktika.Tikfs.Updates
import TikFachpraktika.Tikfs.Save
import TikFachpraktika.Tikfs.Rewrite
import TikFachpraktika.Tikfs.Headers
import TikFachpraktika.Tikfs.Rollback
import TikFachpraktika.Tikfs.Lookup
import TikFachpraktika.Framing.Split
import TikFachpraktika.Tikdb.Split
import TikFachpraktika.Tikfs.Acceptance
import TikFachpraktika.Tikfs.Remount
import TikFachpraktika.Tikfs.TableBlock
import TikFachpraktika.Tikdb.Add
import TikFachpraktika.Tikdb.Overread
import TikFachpraktika.Tikdb.Print
import TikFachpraktika.Chat.WriteExact
import TikFachpraktika.Chat.Server.Queue
import TikFachpraktika.Chat.Server.Texts
import TikFachpraktika.Chat.Server.Broadcast
import TikFachpraktika.Chat.Server.Who
import TikFachpraktika.Chat.Server.Requests
import TikFachpraktika.Chat.Server.MsgPointer
import TikFachpraktika.Logged.Run
import TikFachpraktika.Chat.Server.Accesses
import TikFachpraktika.Chat.Server.Scan
import TikFachpraktika.Chat.Compare
import TikFachpraktika.Shell.Tokens
import TikFachpraktika.Chat.Server.Cow
import TikFachpraktika.Pageshm.TestData
import TikFachpraktika.Pageshm.Tester
import TikFachpraktika.Intro.Substring
import TikFachpraktika.Chain.Ring
import TikFachpraktika.Intro.LinkedList
import TikFachpraktika.Driver.Morse
import TikFachpraktika.Chat.Server.Errno
import TikFachpraktika.Chat.Server.AccessRules
import TikFachpraktika.Chat.Server.Freed
import TikFachpraktika.Chat.Server.PassedMsg
import TikFachpraktika.Transition.Trace
import TikFachpraktika.Chat.Room
import TikFachpraktika.Chat.Server.Simulation
import TikFachpraktika.Chat.Server.Overtaken
import TikFachpraktika.Chat.Server.History
import TikFachpraktika.Chat.Server.Secrecy
import TikFachpraktika.Barbershop.Termination
import TikFachpraktika.Barbershop.Cleanup
import TikFachpraktika.Chat.Simple
import TikFachpraktika.Pageshm.Progress
import TikFachpraktika.Pageshm.Sentence
import TikFachpraktika.Tikdb.Interrupted
import TikFachpraktika.Tikfs.Lifetime
import TikFachpraktika.Transition.Fair
import TikFachpraktika.Tikfs.Killed
import TikFachpraktika.Chat.Network
import TikFachpraktika.Transition.Locked
import TikFachpraktika.Tikfs.Locked
import TikFachpraktika.Driver.Device
import TikFachpraktika.Pageshm.Caching
