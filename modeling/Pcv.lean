import Pcv.PartitionSort.PartitionSortClassifier
import Pcv.PartitionSort.BTreeToRules
import Pcv.Library.Ensures
import Pcv.Library.Interleave
import Pcv.PartitionSort.MempoolOwnership
import Pcv.PartitionSort.MempoolRun
import Pcv.PartitionSort.Layer
import Pcv.PartitionSort.LayerSearch
import Pcv.PartitionSort.BTreeNodeNavigator
import Pcv.PartitionSort.LayerSplit
import Pcv.PartitionSort.LayerEnds
import Pcv.PartitionSort.LayerFill
import Pcv.PartitionSort.LayerRemove
import Pcv.Library.TrieRemove
import Pcv.PartitionSort.Route
import Pcv.PartitionSort.PathRemove
import Pcv.Library.Forest
import Pcv.PartitionSort.TreeNodes
import Pcv.PartitionSort.TreeRuns
import Pcv.Library.Trie
import Pcv.Library.TrieInsert
import Pcv.Library.TrieToList
import Pcv.PartitionSort.LayeredTree
import Pcv.PartitionSort.LayeredTreeSearch
import Pcv.PartitionSort.NewPath
import Pcv.PartitionSort.LayerInsert
import Pcv.PartitionSort.CompressedNode
import Pcv.PartitionSort.SearchPath
import Pcv.PartitionSort.LayeredTreeInsert
import Pcv.PartitionSort.PathInsert
import Pcv.PartitionSort.LayeredBTree
import Pcv.PartitionSort.TreeOfRules
import Pcv.PartitionSort.SingleLayer
import Pcv.PartitionSort.UsedLevels
import Pcv.PartitionSort.NodeIndex
import Pcv.Library.Procedures
import Pcv.PartitionSort.ClassifierCalls
import Pcv.PartitionSort.ClassifierBooks
import Pcv.PartitionSort.ClassifierTermination
import Pcv.PartitionSort.ClassifierRuns
import Pcv.PartitionSort.TreeToRules
import Pcv.PartitionSort.ClassifierRebuild
import Pcv.Common.RangeMask
import Pcv.Ovs.StructFlow
import Pcv.Library.Words
import Pcv.RuleParser.Rule
import Pcv.RuleParser.RuleSegments
import Pcv.RuleParser.RuleVecUtils
import Pcv.RuleParser.VecRoundTrip
import Pcv.Library.Text
import Pcv.RuleParser.ClassBench
import Pcv.RuleParser.ClassBenchParse
import Pcv.RuleParser.ClassBenchSafety
import Pcv.RuleParser.ClassBenchRoundTrip
import Pcv.RuleParser.OpenFlow
import Pcv.RuleParser.FlowText
import Pcv.RuleParser.FlowCursor
import Pcv.RuleParser.FlowLines
import Pcv.RuleParser.RuleReader
import Pcv.RuleParser.RuleFormats
import Pcv.PartitionSort.ClassifierRuleMap
import Pcv.Ovs.OvsClassifier
import Pcv.Ovs.OvsRuns
import Pcv.PartitionSort.ResolvedOrder
import Pcv.Common.ResortedArray
import Pcv.Ovs.StructFlowPacketSpec
import Pcv.Common.RangePrefix
import Pcv.RuleParser.RuleIpv4
import Pcv.RuleParser.TraceTools
import Pcv.PartitionSort.KeyIteration
import Pcv.PartitionSort.MempoolLock
import Pcv.Ovs.OvsMatch
import Pcv.PartitionSort.IntervalSchedules
import Pcv.Library.TrieFill
import Pcv.PartitionSort.PathCompression
import Pcv.Library.TrieLevels
import Pcv.PartitionSort.TreeLevels
import Pcv.PartitionSort.ClassifierTrees
import Pcv.PartitionSort.ClassifierLevels
import Pcv.PartitionSort.LevelRuns
import Pcv.Library.TrieValues
import Pcv.PartitionSort.TreeValues
import Pcv.Library.Lanes
import Pcv.PartitionSort.SearchAvx2
import Pcv.PartitionSort.Decompression
import Pcv.Library.MaximalChain
import Pcv.PartitionSort.MaximalPath
import Pcv.PartitionSort.ClassifierRanks
import Pcv.PartitionSort.ClassifierValues
import Pcv.PartitionSort.PriorityRuns
import Pcv.PartitionSort.PathLookup
import Pcv.PartitionSort.TreeContents
import Pcv.PartitionSort.ClassifierContents
import Pcv.PartitionSort.ClassifierSupply
import Pcv.PartitionSort.StoredRules
import Pcv.Benchmarks.ListClassifier
import Pcv.PartitionSort.RulesByPriority
import Pcv.Library.TrieEntries
import Pcv.PartitionSort.TreeEntries
import Pcv.PartitionSort.ClassifierInvariant
import Pcv.PartitionSort.FoundRules
import Pcv.PartitionSort.ClassifierDestructor
import Pcv.RuleParser.RulesetFile
import Pcv.RuleParser.PacketGenerator
import Pcv.PartitionSort.AclRules
import Pcv.Library.Spinlock
import Pcv.PartitionSort.MempoolThreads
import Pcv.Library.TrieWithdraw
import Pcv.PartitionSort.TreeRemovals
import Pcv.PartitionSort.ClassifierRemovals
import Pcv.Ovs.OvsLookup
import Pcv.PartitionSort.IntegrityCheck
import Pcv.Library.TrieCount
import Pcv.PartitionSort.TreeSize
import Pcv.Library.LongestMatch
import Pcv.Benchmarks.TssLike
