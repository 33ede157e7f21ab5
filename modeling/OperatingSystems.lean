import OperatingSystems.Mealy
import OperatingSystems.VMMachine
import OperatingSystems.VMPageTable
import OperatingSystems.VMMain
import OperatingSystems.VMFilter
import OperatingSystems.VMInput
import OperatingSystems.VMFault
import OperatingSystems.VMInverse
import OperatingSystems.VMTransparency
import OperatingSystems.Paging
import OperatingSystems.VMStats
import OperatingSystems.VMWorkingSet
import OperatingSystems.VMConsult
import OperatingSystems.Frames
import OperatingSystems.VMAccess
import OperatingSystems.VMClock
import OperatingSystems.VMDirty
import OperatingSystems.Recency
import OperatingSystems.VMInclusion
import OperatingSystems.VMOrder
import OperatingSystems.VMVictims
import OperatingSystems.VMCompetitive
import OperatingSystems.VMZero
import OperatingSystems.InputGen
import OperatingSystems.Links
import OperatingSystems.Lists
import OperatingSystems.VMLinked
import OperatingSystems.WebThreads
import OperatingSystems.WebHandoff
import OperatingSystems.WebBuffer
import OperatingSystems.WebCrash
import OperatingSystems.WebClient
import OperatingSystems.CStrings
import OperatingSystems.Formats
import OperatingSystems.WebProcess
import OperatingSystems.WebCopies
import OperatingSystems.WebRedirect
import OperatingSystems.WebReply
import OperatingSystems.Chunks
import OperatingSystems.WordCount
import OperatingSystems.WordProcesses
import OperatingSystems.Layout
import OperatingSystems.FSDisk
import OperatingSystems.FSUtil
import OperatingSystems.FSFile
import OperatingSystems.FSDirectory
import OperatingSystems.FSCommand
import OperatingSystems.FSAlloc
import OperatingSystems.FSBlocks
import OperatingSystems.FSFormat
import OperatingSystems.FSListing
import OperatingSystems.FSCompact
import OperatingSystems.FSOutcome
import OperatingSystems.FSDirOutcome
import OperatingSystems.FSFailure
import OperatingSystems.FSOwned
import OperatingSystems.FSContent
import OperatingSystems.FSFsck
import OperatingSystems.FSShared
import OperatingSystems.NameTree
import OperatingSystems.FSTree
import OperatingSystems.FSFrame
import OperatingSystems.FSNavigate
import OperatingSystems.FSReturn
import OperatingSystems.FSScarce
import OperatingSystems.FSEnter
import OperatingSystems.FSAccess
import OperatingSystems.FSCopy
import OperatingSystems.FSMount
import OperatingSystems.FSReports
import OperatingSystems.FSShell
import OperatingSystems.FSTable
import OperatingSystems.FSTableStep
import OperatingSystems.FSSession
import OperatingSystems.FSHierarchy
import OperatingSystems.FSHierarchyStep
import OperatingSystems.FSHierarchySession
import OperatingSystems.FSTyped
