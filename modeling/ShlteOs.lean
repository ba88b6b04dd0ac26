import ShlteOs.ByteMemory
import ShlteOs.CallSequence
import ShlteOs.PointerWalk
import ShlteOs.PageAllocator
import ShlteOs.PageAllocatorSteps
import ShlteOs.SlabAllocator
import ShlteOs.InitialFreeList
import ShlteOs.PageClients
import ShlteOs.PageReturn
import ShlteOs.PageSafety
import ShlteOs.PageAccounting
import ShlteOs.HeapSafety
import ShlteOs.CircularScan
import ShlteOs.FieldCopy
import ShlteOs.ProcessTable
import ShlteOs.SchedulerInvariant
import ShlteOs.ProcessIdentity
import ShlteOs.RoundRobin
import ShlteOs.ContextPreservation
import ShlteOs.BufferCursor
import ShlteOs.StringFormat
import ShlteOs.BoundedFormatting
import ShlteOs.PrintkFormat
import ShlteOs.PrintkBounds
import ShlteOs.ArmInstructions
import ShlteOs.ExceptionEntry
import ShlteOs.IrqDispatch
import ShlteOs.PageWalk
import ShlteOs.X86Paging
import ShlteOs.ArmPaging
import ShlteOs.BumpAllocator
import ShlteOs.ProcessOccupancy
import ShlteOs.SlabAccounting
import ShlteOs.PrefixParsing
import ShlteOs.FormatReads
import ShlteOs.PrintkArguments
import ShlteOs.FormatAgreement
import ShlteOs.DecimalRoundTrip
import ShlteOs.PageBitmap
import ShlteOs.BuddyRepresentation
import ShlteOs.BitmapAddressing
import ShlteOs.BlockSplitting
import ShlteOs.BlockCoalescing
import ShlteOs.FreeRepresentation
import ShlteOs.NumberRendering
import ShlteOs.StringFields
import ShlteOs.MachineCode
import ShlteOs.ConsoleOutput
import ShlteOs.ArmConsole
import ShlteOs.X86Console
import ShlteOs.ConsoleAgreement
import ShlteOs.SlabFrame
import ShlteOs.Reallocation
import ShlteOs.PageRequests
import ShlteOs.PoolSetup
import ShlteOs.ContextRegisters
import ShlteOs.InitialContext
import ShlteOs.ProcessNames
import ShlteOs.DigitBuffers
import ShlteOs.VsprintfSteps
import ShlteOs.SprintfNumerals
import ShlteOs.PointerPrinting
import ShlteOs.MemoryMoves
import ShlteOs.StringCopy
import ShlteOs.StringComparison
import ShlteOs.StringSearch
import ShlteOs.FormatNumber
import ShlteOs.SwitchAccounting
import ShlteOs.HeapBootstrap
import ShlteOs.GicSetup
import ShlteOs.GicRuns
import ShlteOs.PicSetup
import ShlteOs.PolledQueue
import ShlteOs.TransmitQueue
import ShlteOs.ReceiveQueue
import ShlteOs.PrintkConsole
import ShlteOs.StringBuilding
import ShlteOs.MappedHeap
import ShlteOs.SyscallRuns
import ShlteOs.BssClearing
import ShlteOs.ComSetup
import ShlteOs.EarlyUartInit
