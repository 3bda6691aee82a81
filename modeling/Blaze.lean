import Blaze.Core.DsuHistory
import Blaze.Storage.StreamCalls
import Blaze.Storage.HeaderChecks
import Blaze.Storage.Varint
import Blaze.Storage.MovedRoots
import Blaze.Storage.FilteredBase
import Blaze.Storage.MixedAges
import Blaze.Storage.WalkBudget
import Blaze.Storage.MemberAnswers
import Blaze.Storage.RunSpans
import Blaze.Ingest.PartitionDelivery
import Blaze.Storage.TierCounter
import Blaze.System.CatalogHistory
import Blaze.System.Levels
import Blaze.System.LocalFiles
import Blaze.System.DoubleWrites
import Blaze.System.SplitGroups
import Blaze.System.StartPosition
import Blaze.System.AdoptedMerge
import Blaze.System.Sweeping
import Blaze.System.SweptTwice
import Blaze.System.FileSpans
import Blaze.System.Pipeline
