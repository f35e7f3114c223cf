import EltexTasks.Run
import EltexTasks.Update
import EltexTasks.CString
import EltexTasks.ChatClient
import EltexTasks.ShmChat
import EltexTasks.ShmSteps
import EltexTasks.ShmMembers
import EltexTasks.ShmReaders
import EltexTasks.ShmPermit
import EltexTasks.ShmLines
import EltexTasks.ClientHandover
import EltexTasks.Ring
import EltexTasks.ChatServer
import EltexTasks.ChatUpdates
import EltexTasks.ChatBroadcast
import EltexTasks.ChatSender
import EltexTasks.ChatFaults
import EltexTasks.PriorityQueue
import EltexTasks.ChatShutdown
import EltexTasks.PointerBytes
import EltexTasks.ManConServer
import EltexTasks.ManConCompact
import EltexTasks.ManConPool
import EltexTasks.ManConStale
import EltexTasks.SelectingServer
import EltexTasks.Heap
import EltexTasks.ThreadCreating
import EltexTasks.ThreadCount
import EltexTasks.FileManager
import EltexTasks.Viewport
import EltexTasks.Panes
import EltexTasks.Chain
import EltexTasks.Phonebook
import EltexTasks.Shell
import EltexTasks.ShellParse
import EltexTasks.ShellProcesses
import EltexTasks.ShellPipes
import EltexTasks.ShellStream
import EltexTasks.ChatPending
import EltexTasks.ShellWords
import EltexTasks.ShellLoop
import EltexTasks.ShellInput
import EltexTasks.PhonebookOrder
import EltexTasks.PhonebookSearch
import EltexTasks.PhonebookDelete
import EltexTasks.PhonebookInput
import EltexTasks.PhonebookMenu
import EltexTasks.Shop
import EltexTasks.ShopGoods
import EltexTasks.ShopStart
import EltexTasks.SpiralMatrix
import EltexTasks.PrintMatrix
import EltexTasks.ByteEdit
import EltexTasks.WindowFrame
import EltexTasks.FileReverse
import EltexTasks.Plugins
import EltexTasks.RawUdp
import EltexTasks.ThreadList
import EltexTasks.ThreadSweep
import EltexTasks.ChatCopies
import EltexTasks.Block
import EltexTasks.ShellArgs
import EltexTasks.Feed
import EltexTasks.ShmLog
import EltexTasks.ChatOrder
import EltexTasks.ProcessTree
import EltexTasks.Threads
import EltexTasks.ForkTask
import EltexTasks.PhonebookSession
import EltexTasks.RawIp
import EltexTasks.RawSession
import EltexTasks.Calculator
import EltexTasks.ErrStr
import EltexTasks.ShellExec
import EltexTasks.ThreadReplies
import EltexTasks.ShellSession
import EltexTasks.ManConOrders
import EltexTasks.ChatRoom
import EltexTasks.MsgTask
import EltexTasks.DiagonalMatrix
