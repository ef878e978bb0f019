import Unitrace.Metrics.DeviceSections
import Unitrace.Metrics.KernelInstances
import Unitrace.Trace.Buffer
import Unitrace.Itt.EndVariants
import Unitrace.Itt.TaskIntervals
import Unitrace.Itt.Teardown
import Unitrace.Itt.TaskArgs
import Unitrace.Ccl.Report
import Unitrace.Summary.CclRecords
import Unitrace.Summary.Categories
import Unitrace.Trace.ChromeLog
import Unitrace.Trace.MergeTrace
import Unitrace.Trace.LateFinalize
import Unitrace.Itt.DirtyMemory
import Unitrace.Metrics.SourcePosition
import Unitrace.Metrics.BlockCover
import Unitrace.Summary.RuleOrder
import Unitrace.Trace.RepairTrace
import Unitrace.Itt.EventIntervals
import Unitrace.Itt.Precedence
import Unitrace.Metrics.AllInstances
import Unitrace.Metrics.OtherStalls
import Unitrace.Summary.Aggregate
import Unitrace.Metrics.ViewLinks
import Unitrace.Trace.LogFileName
import Unitrace.Metrics.ReportPages
import Unitrace.Itt.LongNames
import Unitrace.Itt.EnableVariable
import Unitrace.Roofline.Lines
import Unitrace.Trace.Reentrance
import Unitrace.Roofline.Html
import Unitrace.Utils.Bounds
import Unitrace.Itt.Handles
import Unitrace.Lib.CriticalSection
import Unitrace.Itt.Interleaving
import Unitrace.Ccl.Interleaving
import Unitrace.Utils.Logger
import Unitrace.Launch.Options
import Unitrace.Launch.Processes
import Unitrace.Lib.Additions
import Unitrace.Summary.TarArchive
import Unitrace.Summary.Ranks
import Unitrace.Trace.Timeline
import Unitrace.Trace.JobTrace
import Unitrace.Trace.TracedTasks
import Unitrace.Metrics.StallPaths
import Unitrace.Metrics.StallReport
