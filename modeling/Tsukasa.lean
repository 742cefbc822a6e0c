import Tsukasa.Lib.Run
import Tsukasa.Base.Word
import Tsukasa.Lib.Bytes
import Tsukasa.Mm.Pmm
import Tsukasa.Mm.PmmRun
import Tsukasa.Lib.Radix
import Tsukasa.Mm.Paging
import Tsukasa.Mm.Vmm
import Tsukasa.Mm.PageTree
import Tsukasa.Mm.Walk
import Tsukasa.Mm.VmmRange
import Tsukasa.Mm.MapExact
import Tsukasa.Mm.AddressSpace
import Tsukasa.Fs.Vfs
import Tsukasa.Fs.VfsRefs
import Tsukasa.Lib.Ring
import Tsukasa.Fs.VfsCalls
import Tsukasa.Fs.VfsRun
import Tsukasa.Fs.Pipe
import Tsukasa.Lib.Linked
import Tsukasa.Proc.Process
import Tsukasa.Proc.SchedCalls
import Tsukasa.Proc.SchedRun
import Tsukasa.Proc.Termination
import Tsukasa.Ipc.Shm
import Tsukasa.Ipc.ShmInv
import Tsukasa.Ipc.ShmCalls
import Tsukasa.Ipc.ShmRun
import Tsukasa.Fs.Mount
import Tsukasa.Mm.Isolation
import Tsukasa.Mm.KernelCalls
import Tsukasa.Mm.Coherence
import Tsukasa.Mm.LargePages
import Tsukasa.Mm.BootMap
import Tsukasa.Proc.SchedFrame
import Tsukasa.Proc.Signals
import Tsukasa.Proc.Children
import Tsukasa.Ipc.ShmLedger
import Tsukasa.Ipc.ShmSequence
import Tsukasa.Ipc.ShmFrames
import Tsukasa.Fs.Fat32
import Tsukasa.Fs.Fat32Dir
import Tsukasa.Fs.Fat32Path
import Tsukasa.Fs.Fat32Lookup
import Tsukasa.Fs.Fat32File
import Tsukasa.Fs.Fat32Overwrite
import Tsukasa.Fs.Fat12
import Tsukasa.Lib.AllocTable
import Tsukasa.Lib.Packed
import Tsukasa.Fs.Fat12Table
import Tsukasa.Fs.Fat12Dir
import Tsukasa.Fs.Fat12File
import Tsukasa.Fs.Fat12Write
import Tsukasa.Gui.EventRing
import Tsukasa.Gui.Event
import Tsukasa.Gui.EventQueues
import Tsukasa.Net.E1000
import Tsukasa.Net.E1000Ring
import Tsukasa.Net.VirtioNet
import Tsukasa.Net.VirtioTx
import Tsukasa.Net.VirtioRx
import Tsukasa.Ipc.ShmSpaces
import Tsukasa.Ipc.ShmApart
import Tsukasa.Gui.GuiSlots
import Tsukasa.Irq.LockPaths
import Tsukasa.Fs.Fat12Space
import Tsukasa.Fs.FatBuffer
import Tsukasa.Fs.FatStore
import Tsukasa.Fs.FatDescriptor
import Tsukasa.Fs.FatClose
import Tsukasa.Fs.FatShared
import Tsukasa.Gui.Wm
import Tsukasa.Ipc.ShmIds
import Tsukasa.Lib.DoublyLinked
import Tsukasa.Gui.WmList
import Tsukasa.Gui.GuiDraw
import Tsukasa.Gui.Screenshot
import Tsukasa.Gui.WmDirty
import Tsukasa.Syscall.Ksprintf
import Tsukasa.Syscall.Theme
import Tsukasa.Ipc.ShmAttach
import Tsukasa.Lib.Segments
import Tsukasa.Mm.Heap
import Tsukasa.Mm.HeapFree
import Tsukasa.Mm.VmmProtect
import Tsukasa.Proc.Context
import Tsukasa.Proc.Creation
import Tsukasa.Proc.HandlerTick
import Tsukasa.Proc.TickPolicy
import Tsukasa.Lib.Lexical
import Tsukasa.Fs.PathCanon
import Tsukasa.Lib.Doubling
import Tsukasa.Fs.GrowBuffer
import Tsukasa.Fs.Memfs
import Tsukasa.Fs.WriteBounds
import Tsukasa.Fs.Seek
import Tsukasa.Fs.VfsSim
import Tsukasa.Fs.MemfsFiles
import Tsukasa.Fs.Fat12Fail
import Tsukasa.Fs.Fat12Names
import Tsukasa.Fs.Fat32Empty
import Tsukasa.Fs.OpenFails
import Tsukasa.Fs.Fat12Bounds
import Tsukasa.Fs.Fat12Ends
import Tsukasa.Fs.Fat32Names
import Tsukasa.Fs.Fat32Rename
import Tsukasa.Fs.Fat32Scan
import Tsukasa.Fs.Fat32Lfn
import Tsukasa.Fs.Fat32LongName
import Tsukasa.Lib.FirstMatch
import Tsukasa.Fs.Fat32Scanners
import Tsukasa.Lib.Traced
import Tsukasa.Fs.Fat32Runs
import Tsukasa.Fs.Fat32Buffers
import Tsukasa.Fs.Fat32Ends
import Tsukasa.Lib.Grid
import Tsukasa.Gui.GuiPaint
import Tsukasa.Gui.PaintBounds
import Tsukasa.Loader.Elf
import Tsukasa.Text.Kprintf
import Tsukasa.Text.Printf
import Tsukasa.Text.Stdio
import Tsukasa.User.CalcGui
import Tsukasa.Gui.BmpBounds
import Tsukasa.Lib.Trim
import Tsukasa.User.Shell
import Tsukasa.Lib.CString
import Tsukasa.User.AppRuntime
import Tsukasa.Lib.Spans
import Tsukasa.Lib.Gregorian
import Tsukasa.User.Time
import Tsukasa.Lib.BubbleSort
import Tsukasa.User.Stdlib
import Tsukasa.Fs.Bootfs
import Tsukasa.Lib.LongDivision
import Tsukasa.Base.CompilerRt
import Tsukasa.Text.Atoi
import Tsukasa.Lib.LineEditor
import Tsukasa.User.Textbox
import Tsukasa.Fs.Fat12Entries
import Tsukasa.Lib.Fifo
import Tsukasa.Proc.RunQueueFifo
import Tsukasa.Lib.Progress
import Tsukasa.Proc.TimeSlices
import Tsukasa.Proc.Fairness
import Tsukasa.Lib.SpinLock
import Tsukasa.Gui.EventLock
import Tsukasa.Drv.Ata
import Tsukasa.Drv.AtaSpec
import Tsukasa.Drv.Rtc
import Tsukasa.Mm.HeapRun
import Tsukasa.Lib.Latch
import Tsukasa.Lib.Edges
import Tsukasa.Tty.Tty
import Tsukasa.Drv.Ps2Kbd
import Tsukasa.Drv.Console
import Tsukasa.Drv.Ps2Mouse
import Tsukasa.User.ShellRun
