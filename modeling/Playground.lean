import Playground.Machine.CallNesting
import Playground.Machine.Walls
import Playground.Machine.Undoable
import Playground.Machine.SavedRun
import Playground.Hosted.Heap
import Playground.Hosted.Realloc
import Playground.Isa.Execute
import Playground.Isa.MultiWord
import Playground.Isa.Bitfield
import Playground.Isa.Allocated
import Playground.Isa.TornLoads
import Playground.Isa.StructureInverse
import Playground.Isa.NullPage
import Playground.Assembler.Line
import Playground.Assembler.NegativeImmediate
import Playground.Assembler.MovImmediate
import Playground.Assembler.NumberReaders
import Playground.Frontend.EquateChains
import Playground.Frontend.LiteralLoads
import Playground.Frontend.ExprGrammar
import Playground.Frontend.RoundTrip
import Playground.Frontend.M4Caps
import Playground.Frontend.NearestLabels
import Playground.Worker.StandDown
import Playground.Machine.FrameChain
import Playground.Machine.RecordWatch
import Playground.Machine.StepOver
import Playground.Hosted.Memmove
import Playground.Hosted.Strtok
import Playground.Hosted.Bsearch
import Playground.Hosted.Strtol
import Playground.Hosted.PrintfCalls
import Playground.Hosted.FileOffsets
import Playground.Hosted.ScanfPrintf
import Playground.Editor.FileMap
import Playground.Editor.BreakpointSteps
import Playground.Editor.Share
import Playground.Editor.ConsoleRuns
import Playground.Frames.LayoutSound
import Playground.Frontend.Detection
import Playground.Hosted.VarargWalk
import Playground.Machine.HeapReplay
import Playground.Machine.MemoryReplay
import Playground.Machine.DirtyLog
import Playground.Editor.FrameTiling
import Playground.Editor.Ieee754Text
import Playground.Hosted.QsortRuns
import Playground.Hosted.FileRuns
import Playground.Hosted.ScanfArrival
