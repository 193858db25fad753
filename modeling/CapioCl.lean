import CapioCl.ParseOutcome
import CapioCl.Versions
import CapioCl.DirectoryCount
import CapioCl.IoGraph
import CapioCl.Reorder
import CapioCl.Resolution
import CapioCl.RoundTrip
import CapioCl.StoreInvariants
import CapioCl.Multicast
import CapioCl.HomeNode
import CapioCl.FileSystemMonitor
import CapioCl.CommitToken
import CapioCl.HomeNodeToken
import CapioCl.MonitorBackends
import CapioCl.DumpReadable
import CapioCl.PatternRoundTrip
import CapioCl.Kinds
import CapioCl.Unproduced
import CapioCl.Creation
import CapioCl.EntryField
import CapioCl.Setters
import CapioCl.FirstLookup
import CapioCl.Dependencies
import CapioCl.EqualityLaws
import CapioCl.Lookup
import CapioCl.EntryJson
import CapioCl.FileCount
import CapioCl.StreamingRules
import CapioCl.Transpose
import CapioCl.Registration
import CapioCl.NeutralItem
import CapioCl.TomlFlattening
import CapioCl.Datagrams
import CapioCl.HomeNodeMessages
import CapioCl.Lib.Utf8
import CapioCl.EncodedMessages
import CapioCl.CriticalSections
import CapioCl.Linearizability
import CapioCl.SectionEffects
import CapioCl.StoreAllThreads
import CapioCl.Progress
import CapioCl.MonitorThreads
import CapioCl.MonitorOrigins
import CapioCl.MonitorAnswers
import CapioCl.MonitorProgress
import CapioCl.Bisimulation
