import KernelDesign.ExecuteFailure
import KernelDesign.FsAccess
import KernelDesign.Descriptors
import KernelDesign.ReadBounds
import KernelDesign.ProcessSteps
import KernelDesign.Accounting
import KernelDesign.Balanced
import KernelDesign.Isolation
import KernelDesign.Library.LineInput
import KernelDesign.LineDiscipline
import KernelDesign.TerminalIsolation
import KernelDesign.Lookup
import KernelDesign.FilePosition
import KernelDesign.Library.PageWalk
import KernelDesign.Translation
import KernelDesign.TerminalSwitch
import KernelDesign.VideoTable
import KernelDesign.ScreenRestore
import KernelDesign.LineEditor
import KernelDesign.Mailbox
import KernelDesign.ParentPointers
import KernelDesign.DirectoryReads
import KernelDesign.Arguments
import KernelDesign.CommandLine
import KernelDesign.DirectoryListing
import KernelDesign.ExecutableCheck
import KernelDesign.ProgramLoad
import KernelDesign.TermWrite
import KernelDesign.Library.TextPage
import KernelDesign.Screen
import KernelDesign.TypedText
import KernelDesign.ReadSteps
import KernelDesign.ClockRate
import KernelDesign.ContextSwitch
import KernelDesign.InterruptMasks
import KernelDesign.Library.Memory
import KernelDesign.Library.Numerals
import KernelDesign.MemoryOps
import KernelDesign.Modifiers
import KernelDesign.NumberFormat
import KernelDesign.Printf
import KernelDesign.VideoMemory
import KernelDesign.ClockPorts
import KernelDesign.CursorPorts
import KernelDesign.DeviceVectors
import KernelDesign.Library.StackMachine
import KernelDesign.Linkage
import KernelDesign.NestedEntries
import KernelDesign.Scheduler
import KernelDesign.Library.Layout
import KernelDesign.StoredFiles
import KernelDesign.StoredPrograms
import KernelDesign.WriteAndKeys
