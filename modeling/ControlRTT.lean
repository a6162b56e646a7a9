import ControlRTT.Lib.CInt
import ControlRTT.Lib.Mealy
import ControlRTT.Lib.NorFlash
import ControlRTT.Lib.Runs
import ControlRTT.Lib.Probe
import ControlRTT.Lib.Parties
import ControlRTT.Lib.RingLayout
import ControlRTT.Lib.WordMem
import ControlRTT.Kernel.RtDef
import ControlRTT.Kernel.Thread
import ControlRTT.Kernel.Semaphore
import ControlRTT.Applications.MachReply
import ControlRTT.Applications.BlueFrame
import ControlRTT.Applications.Flash
import ControlRTT.Applications.FlashAnswers
import ControlRTT.Applications.FlashPlan
import ControlRTT.Applications.FlashLoop
import ControlRTT.Applications.FlashContents
import ControlRTT.Applications.FlashWrite
import ControlRTT.Applications.FlashStruct
import ControlRTT.Applications.Axes
import ControlRTT.Applications.Joystick
import ControlRTT.Applications.Control
import ControlRTT.Applications.RunSpeed
import ControlRTT.Applications.TiltWords
import ControlRTT.Applications.Tilts
import ControlRTT.Applications.Pwm
import ControlRTT.Applications.Divisors
import ControlRTT.Applications.Config
import ControlRTT.Kernel.Mutex
import ControlRTT.Kernel.MemPool
import ControlRTT.Kernel.MemPoolBlocks
import ControlRTT.Kernel.SlabPage
import ControlRTT.Kernel.Slab
import ControlRTT.Kernel.SlabPlaces
import ControlRTT.Kernel.SlabChunks
import ControlRTT.Kernel.SlabLists
import ControlRTT.Kernel.SlabZones
import ControlRTT.Kernel.SlabCalls
import ControlRTT.Kernel.SlabRuns
import ControlRTT.Kernel.SmallMem
import ControlRTT.Kernel.SmallMemBlocks
import ControlRTT.Kernel.SmallMemRuns
import ControlRTT.Kernel.Timer
import ControlRTT.Kernel.TimerFlag
import ControlRTT.Kernel.SoftTimer
import ControlRTT.Kernel.TimerClock
import ControlRTT.Kernel.TimerThread
import ControlRTT.Kernel.HardTimer
import ControlRTT.Kernel.Ffs
import ControlRTT.Kernel.ReadyMap
import ControlRTT.Kernel.Scheduler
import ControlRTT.Kernel.WaitLists
import ControlRTT.Kernel.MutexSystem
import ControlRTT.Kernel.Inheritance
import ControlRTT.Kernel.WaitOrder
import ControlRTT.Kernel.Event
import ControlRTT.Kernel.Mailbox
import ControlRTT.Kernel.MessageQueue
import ControlRTT.Kernel.MessageQueueNodes
import ControlRTT.Kernel.MessageQueueRuns
import ControlRTT.Drivers.RingBuffer
import ControlRTT.Drivers.RingQueue
import ControlRTT.Drivers.DataQueue
import ControlRTT.Drivers.WaitQueue
import ControlRTT.Drivers.Completion
import ControlRTT.Drivers.WorkQueue
import ControlRTT.Kernel.Device
import ControlRTT.Kernel.Reclaim
import ControlRTT.Kernel.Signal
import ControlRTT.Drivers.Pipe
import ControlRTT.Drivers.PipeDevice
import ControlRTT.Drivers.SerialFifo
import ControlRTT.Drivers.SerialDmaTx
import ControlRTT.Drivers.SerialOpen
import ControlRTT.Drivers.RingBlock
import ControlRTT.Drivers.RingBlockQueue
import ControlRTT.Net.Client
import ControlRTT.Net.HandOver
import ControlRTT.Net.ResponseLines
import ControlRTT.Net.SendBuffer
import ControlRTT.Net.LineEditors
import ControlRTT.Components.Ymodem
import ControlRTT.Components.FileDescriptors
import ControlRTT.Components.MountTable
import ControlRTT.Applications.DebugPort
import ControlRTT.Applications.DebugSync
import ControlRTT.Components.FinshHeap
import ControlRTT.Net.AtStream
import ControlRTT.Net.AtSocketTable
import ControlRTT.Net.SalSockets
import ControlRTT.Net.DhcpLeases
import ControlRTT.Components.PthreadCond
import ControlRTT.Components.RwLock
import ControlRTT.Components.Barrier
import ControlRTT.Components.Pthread
import ControlRTT.Components.NamedIpc
import ControlRTT.Lib.PriorityQueue
import ControlRTT.Components.PrioQueue
import ControlRTT.Components.VbusRing
import ControlRTT.Components.VbusInput
import ControlRTT.Lib.PathStack
import ControlRTT.Components.NormalizedPath
import ControlRTT.Components.DfsPath
import ControlRTT.Components.RamFiles
import ControlRTT.Components.RamFilesRuns
import ControlRTT.Kernel.SmallMemSearch
import ControlRTT.Kernel.SmallMemLowest
import ControlRTT.Kernel.SmallMemFit
import ControlRTT.Kernel.SmallMemContents
import ControlRTT.Kernel.SmallMemSizes
import ControlRTT.Lib.Crc
import ControlRTT.Components.YmodemCrc
import ControlRTT.Drivers.RingBufferCreate
import ControlRTT.Drivers.PipeTransfers
import ControlRTT.Drivers.RingBlockPreview
import ControlRTT.Components.YmodemSession
import ControlRTT.Lib.ByteMem
import ControlRTT.Kernel.MallocAlign
import ControlRTT.Kernel.Mdelay
import ControlRTT.Kernel.MemHeap
import ControlRTT.Kernel.MemHeapCalls
import ControlRTT.Lib.Programs
import ControlRTT.Components.FinshToken
import ControlRTT.Components.FinshParser
import ControlRTT.Components.FinshTermination
import ControlRTT.Components.FinshCompiler
import ControlRTT.Components.FinshLiterals
import ControlRTT.Lib.ByteAccess
import ControlRTT.Components.FinshVm
import ControlRTT.Components.FinshGrammar
import ControlRTT.Components.FinshSound
import ControlRTT.Components.FinshComplete
import ControlRTT.Components.FinshAccepts
import ControlRTT.Kernel.StringCompare
import ControlRTT.Components.FinshSymbols
import ControlRTT.Components.MshSplit
import ControlRTT.Components.Poll
import ControlRTT.Components.Select
import ControlRTT.Drivers.WorkCompletion
import ControlRTT.Kernel.MemCopy
import ControlRTT.Components.RomfsLookup
import ControlRTT.Net.DhcpAlloc
import ControlRTT.Net.DhcpOptions
import ControlRTT.Kernel.PrintNumber
import ControlRTT.Kernel.NumberRoundTrip
import ControlRTT.Kernel.Vsnprintf
import ControlRTT.Kernel.VsnprintfBounds
import ControlRTT.Lib.Loops
import ControlRTT.Kernel.TimerCheck
import ControlRTT.Kernel.SignalList
import ControlRTT.Kernel.MemHeapRealloc
import ControlRTT.Kernel.MemHeapRuns
import ControlRTT.Kernel.MemHeapServes
import ControlRTT.Components.FinshStack
import ControlRTT.Components.FinshMeaning
import ControlRTT.Lib.Turns
import ControlRTT.Kernel.TimeSlice
import ControlRTT.Applications.MotorThread
import ControlRTT.Net.ModbusAscii
import ControlRTT.Lib.OnesComplement
import ControlRTT.Net.InetChksum
import ControlRTT.Net.PbufChksum
import ControlRTT.Net.AddressTranslation
