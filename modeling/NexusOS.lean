import NexusOS.Association
import NexusOS.BlockCopy
import NexusOS.BumpArena
import NexusOS.BumpHeap
import NexusOS.ByteMemory
import NexusOS.CommandHistory
import NexusOS.Comparers
import NexusOS.ConsoleBounds
import NexusOS.ConsoleWindow
import NexusOS.CookedOutput
import NexusOS.CountedLoop
import NexusOS.DelayReturns
import NexusOS.DictRefines
import NexusOS.DiskImage
import NexusOS.EchoScreen
import NexusOS.EnterKey
import NexusOS.EscapeSyntax
import NexusOS.FirstFit
import NexusOS.GcAlloc
import NexusOS.GcCollect
import NexusOS.GcFree
import NexusOS.GcHeap
import NexusOS.GcMark
import NexusOS.GcRealloc
import NexusOS.GcRuns
import NexusOS.HeaderWalk
import NexusOS.HeapCapacity
import NexusOS.HeldKeys
import NexusOS.HistoryWalk
import NexusOS.ImagePacker
import NexusOS.IntegerExpressions
import NexusOS.IntegerText
import NexusOS.InterruptStubs
import NexusOS.IrqDispatch
import NexusOS.KeyPuts
import NexusOS.KeyboardRing
import NexusOS.LineDraft
import NexusOS.LineEditor
import NexusOS.LineEndings
import NexusOS.LineSafety
import NexusOS.LiveFrames
import NexusOS.MapLookup
import NexusOS.Marking
import NexusOS.MemoryAreas
import NexusOS.MemoryMove
import NexusOS.MpDict
import NexusOS.MpMap
import NexusOS.OpenAddressing
import NexusOS.PackedTable
import NexusOS.QstrFirmware
import NexusOS.QstrIntern
import NexusOS.QstrPool
import NexusOS.RawImage
import NexusOS.Repacking
import NexusOS.ReplSession
import NexusOS.RingWindow
import NexusOS.ScancodeDecoder
import NexusOS.ScriptLaunch
import NexusOS.ScrollingPage
import NexusOS.StdinMerge
import NexusOS.StdinProgress
import NexusOS.StringOrder
import NexusOS.TimerDelay
import NexusOS.VgaConsole
