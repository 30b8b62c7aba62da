import ChainIndex.Chain
import ChainIndex.Following
import ChainIndex.Index.Heights
import ChainIndex.Index.Times
import ChainIndex.Rehearsal.Script
import ChainIndex.Proofs.Batches
import ChainIndex.Proofs.BlockTree
import ChainIndex.Proofs.Chronicle
import ChainIndex.Proofs.Yields
import ChainIndex.Proofs.Lulls
import ChainIndex.Proofs.SwitchSteps
import ChainIndex.Proofs.Stages
import ChainIndex.Proofs.RunTurns
import ChainIndex.Proofs.Numerals
import ChainIndex.Proofs.PointerText
import ChainIndex.Proofs.RecordedTips
import ChainIndex.Proofs.Terms
import ChainIndex.Proofs.Acts
import ChainIndex.Proofs.CommonAncestor
import ChainIndex.Proofs.Branches
import ChainIndex.Proofs.Heading
import ChainIndex.Proofs.Flight
import ChainIndex.Proofs.Rounds
import ChainIndex.Proofs.Histories
import ChainIndex.Proofs.Serving
import ChainIndex.Proofs.TrackOrder
import ChainIndex.Proofs.Holdings
import ChainIndex.Proofs.StandardEntries
import ChainIndex.Proofs.StandardIndexes
import ChainIndex.Proofs.StandardHoldings
import ChainIndex.Proofs.Contents
import ChainIndex.Proofs.CrashConsistency
import ChainIndex.Proofs.AtRest
import ChainIndex.Proofs.Convergence
import ChainIndex.Proofs.Announcements
import ChainIndex.Proofs.OwnKeys
import ChainIndex.Proofs.HeightsInSight
import ChainIndex.Proofs.CalmHosts
import ChainIndex.Proofs.Erasure
import ChainIndex.Proofs.FaithfulEvents
import ChainIndex.Proofs.SteadySync
import ChainIndex.Proofs.Weaving
import ChainIndex.Proofs.Grouping
import ChainIndex.Proofs.Walks
import ChainIndex.Proofs.DurableTips
import ChainIndex.Proofs.Accounts
import ChainIndex.Proofs.Attention
import ChainIndex.Proofs.Caution
import ChainIndex.Proofs.Interruptions
import ChainIndex.Proofs.Headway
import ChainIndex.Proofs.Shutdown
import ChainIndex.Proofs.Strides
import ChainIndex.Proofs.Backlog
import ChainIndex.Proofs.Coverage
import ChainIndex.Proofs.InFlight
import ChainIndex.Proofs.Plans
import ChainIndex.Proofs.SwitchCourse
import ChainIndex.Proofs.StemScans
import ChainIndex.Proofs.LoneIndexes
import ChainIndex.Proofs.TimeStack
import ChainIndex.Proofs.TimeRanges
import ChainIndex.Proofs.HeightLookups
import ChainIndex.Proofs.BestChain
import ChainIndex.Proofs.Escalation
import ChainIndex.Proofs.RunOutcomes
