import Datboi.Index.Writes
import Datboi.Ingest.Refine
import Datboi.Ingest.Unpack
import Datboi.Ingest.WriteRuns
import Datboi.Exec.Delivered
import Datboi.Exec.EvictSafe
import Datboi.Exec.LicenseSound
import Datboi.Server.GcRuns
import Datboi.Server.RefinerOrder
import Datboi.Server.Reconstruct
import Datboi.P2p.Recon
import Datboi.P2p.Sync
import Datboi.Core.RecipeCanonical
import Datboi.Core.SnapshotCanonical
import Datboi.Core.ViewSnap
import Datboi.Store.Blob
import Datboi.Store.Scrub
import Datboi.Ingest.Members
import Datboi.Xf.CsoParams
import Datboi.Index.Sweep
import Datboi.Index.SweepRuns
import Datboi.Catalog.HeldRows
import Datboi.Catalog.ViewImage
import Datboi.Catalog.Evidence
import Datboi.Catalog.DiffMatching
import Datboi.Catalog.OnePerFamily
import Datboi.Core.AssembleReader
import Datboi.Ingest.Coverage
import Datboi.Ingest.MintRebuilds
import Datboi.Ingest.Extents
import Datboi.Ingest.Iso9660Exact
import Datboi.Catalog.Selection
import Datboi.Server.PlannersSafe
import Datboi.Runtime.PipeSafe
import Datboi.Server.NfsSafe
import Datboi.Ingest.PreflateRebuilds
import Datboi.Ingest.WiiVerified
import Datboi.Xf.CsoRoundTrip
import Datboi.Xf.Xgd1FlatExact
import Datboi.Ingest.EcmRebuilds
import Datboi.Index.IndexCalls
import Datboi.Catalog.StatesnapRuns
import Datboi.Cli.RecoverState
import Datboi.Server.JobsRuns
import Datboi.Index.OpenFileRuns
import Datboi.P2p.RecipeImport
import Datboi.Server.NfsWalksRuns
import Datboi.Exec.AssembleReads
import Datboi.Core.AssembleArith
import Datboi.Lib.Authority
import Datboi.Server.Auth
import Datboi.Server.CrossOrigin
import Datboi.Lib.Since
import Datboi.Server.AuthRuns
import Datboi.Server.Handoff
import Datboi.Lib.Worklist
import Datboi.Catalog.MergeModes
import Datboi.Xf.Xgd1Fill
import Datboi.Xf.GcJunk
import Datboi.Xf.WiiCryptRange
import Datboi.Xf.EcmParity
import Datboi.Formats.ChdBits
import Datboi.Lib.Outcome
import Datboi.Lib.CanonicalCode
import Datboi.Formats.ChdHeader
import Datboi.Formats.ChdHuffman
import Datboi.Formats.Skipper
import Datboi.Formats.SkipperXml
import Datboi.Catalog.Fat32Order
import Datboi.Lib.GuestTraps
import Datboi.Xf.CsoTotal
import Datboi.Catalog.NameLimits
import Datboi.Formats.ChdFlac
import Datboi.Catalog.Audit
import Datboi.Catalog.Placeholders
import Datboi.Server.Uploads
import Datboi.P2p.Forward
