import ReplicatedSplinter.Consistency
import ReplicatedSplinter.Commit
import ReplicatedSplinter.Calls
import ReplicatedSplinter.RetryOutcome
import ReplicatedSplinter.LeaderDiscovery
import ReplicatedSplinter.Routing
import ReplicatedSplinter.PackFaults
import ReplicatedSplinter.LogBatch
import ReplicatedSplinter.PackAppend
import ReplicatedSplinter.RoundRobin
import ReplicatedSplinter.Endpoints
import ReplicatedSplinter.SessionGuarantees
import ReplicatedSplinter.LogReaders
import ReplicatedSplinter.LoggerThreads
import ReplicatedSplinter.Duplicates
import ReplicatedSplinter.Durability
import ReplicatedSplinter.EndToEnd
import ReplicatedSplinter.Cli
import ReplicatedSplinter.LogFiles
import ReplicatedSplinter.Startup
import ReplicatedSplinter.PackInterleaved
