import Oxen.Lib.ThreeWayMerge
import Oxen.Verification.Checkout.Abort
import Oxen.Verification.Checkout.Reached
import Oxen.Verification.Merge.Comparison
import Oxen.Verification.History.Between
import Oxen.Verification.History.Windows
import Oxen.Verification.History.CountRuns
import Oxen.Verification.Server.Pushes
import Oxen.Verification.Commit.Retry
import Oxen.Verification.Transfer.Download
import Oxen.Verification.Transfer.NodeSync
import Oxen.Verification.Transfer.PushComplete
import Oxen.Verification.Storage.VersionStore
import Oxen.Verification.Upload.Containment
import Oxen.Verification.Storage.Prune
import Oxen.Verification.Pull.LocalCommits
import Oxen.Verification.FastForward.Outcome
import Oxen.Verification.Merge.CommonAncestor
import Oxen.Verification.DataFrames.Columns
import Oxen.Verification.DataFrames.Filters
import Oxen.Verification.Workspaces.Names
import Oxen.Verification.Tree.HasPath
import Oxen.Verification.Tree.NodeCache
import Oxen.Verification.DataFrames.Rows
import Oxen.Verification.Storage.Backends
import Oxen.Verification.Storage.NodeFiles
import Oxen.Verification.Staging.RestoreStaged
import Oxen.Verification.Merge.PathClash
import Oxen.Verification.Merge.RealChanges
import Oxen.Verification.Commit.FileLookup
import Oxen.Verification.Diff.Pages
import Oxen.Verification.Staging.Unstage
import Oxen.Verification.Staging.RemoveModified
import Oxen.Verification.Workspaces.Conflicts
import Oxen.Lib.KeySet
import Oxen.Lib.Changes
import Oxen.Verification.Diff.Differences
import Oxen.Verification.Diff.Hunks
import Oxen.Verification.Server.Resources
import Oxen.Verification.Commit.Identity
import Oxen.Verification.Storage.NodeUnpack
import Oxen.Verification.Import.PublicHosts
import Oxen.Verification.Import.ZipArchive
import Oxen.Verification.Import.Download
import Oxen.Verification.Workspaces.Moves
import Oxen.Verification.Status.Exact
import Oxen.Verification.Server.Forks
import Oxen.Lib.Keeps
import Oxen.Model.RemoteCheckout
import Oxen.Verification.Checkout.Addressed
import Oxen.Verification.Checkout.RemoteMode
import Oxen.Lib.Discovery
import Oxen.Model.GlobSearch
import Oxen.Verification.Paths.RelativePath
import Oxen.Verification.Paths.GlobSearch
import Oxen.Verification.Paths.RemovedPaths
import Oxen.Verification.Paths.BothSides
import Oxen.Verification.Storage.RebuildDirHashes
import Oxen.Verification.Paths.Listings
import Oxen.Lib.Retries
import Oxen.Lib.ZeroPadded
import Oxen.Model.BulkUpload
import Oxen.Verification.Upload.BulkUploads
import Oxen.Verification.Commit.Overlay
import Oxen.Model.CleanVersions
import Oxen.Verification.Storage.CleanVersions
import Oxen.Verification.Storage.StoredVersions
import Oxen.Model.LargeUpload
import Oxen.Verification.Upload.LargeUploads
