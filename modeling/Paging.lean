import Paging.Hardware.PageWalk
import Paging.Session.Basic
import Paging.Proofs.EntryCodec
import Paging.Proofs.Placement
import Paging.Proofs.VirtualPages
import Paging.Proofs.FreshFrames
import Paging.Proofs.Growth
import Paging.Proofs.Access
import Paging.Proofs.Descent
import Paging.Proofs.LeafChange
import Paging.Proofs.MapOutcome
import Paging.Proofs.Activation
import Paging.Proofs.UnmapOutcome
import Paging.Proofs.Actions
import Paging.Proofs.AccessAgreement
import Paging.Proofs.Runs
import Paging.Proofs.TreeInvariant
import Paging.Proofs.Views
import Paging.Proofs.StaleTranslations
import Paging.Proofs.PageMap
import Paging.Proofs.ScriptedFrames
import Paging.Proofs.WindowImage
import Paging.Proofs.EffectivePermissions
import Paging.Proofs.Liveness
import Paging.Proofs.NewTables
import Paging.Proofs.Footprint
import Paging.Proofs.Answers
import Paging.Proofs.TablePaths
import Paging.Proofs.MapReport
import Paging.Proofs.FrameCount
import Paging.Proofs.PageVisits
import Paging.Proofs.IdentityMapping
import Paging.Proofs.RegionCoverage
import Paging.Proofs.Resumption
import Paging.Proofs.WalkAgreement
import Paging.Proofs.RootLoading
import Paging.Proofs.SafeStops
import Paging.Proofs.Deliveries
import Paging.Proofs.SameTables
import Paging.Proofs.TwoRuns
import Paging.Proofs.UnusedFrames
import Paging.Proofs.ProcessorWalk
import Paging.Proofs.WindowAddresses
import Paging.Proofs.MapperCalls
import Paging.Proofs.RangeEnds
import Paging.Proofs.EntryRoundTrip
import Paging.Proofs.RootSwitching
import Paging.Proofs.IndexRoundTrip
