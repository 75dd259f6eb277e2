import ObjectCatalog.Bytes
import ObjectCatalog.Text.Utf8
import ObjectCatalog.Id
import ObjectCatalog.Time.Calendar
import ObjectCatalog.Time.Instant
import ObjectCatalog.Position
import ObjectCatalog.Redundancy
import ObjectCatalog.Encryption
import ObjectCatalog.Error
import ObjectCatalog.Metadata
import ObjectCatalog.Piece
import ObjectCatalog.Piece.Blob
import ObjectCatalog.Table
import ObjectCatalog.Column
import ObjectCatalog.Object
import ObjectCatalog.Segment
import ObjectCatalog.Store
import ObjectCatalog.Store.Edit
import ObjectCatalog.Node
import ObjectCatalog.Node.Cache
import ObjectCatalog.Catalog
import ObjectCatalog.Upload.Begin
import ObjectCatalog.Upload.Segment
import ObjectCatalog.Upload.Parts
import ObjectCatalog.Upload.Commit
import ObjectCatalog.Segment.Resolve
import ObjectCatalog.Reading
import ObjectCatalog.Copy
import ObjectCatalog.Deletion.Streams
import ObjectCatalog.Deletion
import ObjectCatalog.Deletion.Sweep
import ObjectCatalog.Listing
import ObjectCatalog.Listing.Pending
import ObjectCatalog.Scan
import ObjectCatalog.Text.Json
import ObjectCatalog.Observer
import ObjectCatalog.Text.Integer
import ObjectCatalog.Text.Shapeless
import ObjectCatalog.Text.Escaped
import ObjectCatalog.Options
import ObjectCatalog.Configuration
import ObjectCatalog.Operations
import ObjectCatalog.Program
import ObjectCatalog.Main
import ObjectCatalog.Proofs.Aliases
import ObjectCatalog.Proofs.Blobs
import ObjectCatalog.Proofs.Outcomes
import ObjectCatalog.Proofs.Families
import ObjectCatalog.Proofs.Rows
import ObjectCatalog.Proofs.Changes
import ObjectCatalog.Proofs.Removal
import ObjectCatalog.Proofs.Coherence
import ObjectCatalog.Proofs.Copies
import ObjectCatalog.Proofs.Deletions
import ObjectCatalog.Proofs.Lookups
import ObjectCatalog.Proofs.Stability
import ObjectCatalog.Proofs.Calls
import ObjectCatalog.Proofs.UploadCalls
import ObjectCatalog.Proofs.DeleteCalls
import ObjectCatalog.Proofs.Runs
import ObjectCatalog.Proofs.Relations
import ObjectCatalog.Proofs.Conservation
import ObjectCatalog.Proofs.CopyReads
import ObjectCatalog.Proofs.Failures
import ObjectCatalog.Proofs.Confluence
import ObjectCatalog.Proofs.Layout
import ObjectCatalog.Proofs.Sizes
import ObjectCatalog.Proofs.Marks
import ObjectCatalog.Proofs.Soundness
import ObjectCatalog.Proofs.Effects
import ObjectCatalog.Proofs.Lifecycle
import ObjectCatalog.Proofs.Instances
import ObjectCatalog.Proofs.Prefixes
import ObjectCatalog.Proofs.Legible
import ObjectCatalog.Proofs.Listed
import ObjectCatalog.Proofs.Listings
import ObjectCatalog.Proofs.ListCalls
import ObjectCatalog.Proofs.Paging
import ObjectCatalog.Proofs.Instants
import ObjectCatalog.Proofs.Qualities
import ObjectCatalog.Proofs.Scans
import ObjectCatalog.Proofs.SegmentScans
import ObjectCatalog.Proofs.ScanCalls
import ObjectCatalog.Proofs.Caches
import ObjectCatalog.Proofs.AliasRuns
import ObjectCatalog.Proofs.ReadPaths
import ObjectCatalog.Proofs.Shapes
import ObjectCatalog.Proofs.Parts
import ObjectCatalog.Proofs.Completions
import ObjectCatalog.Proofs.ListedCompletions
import ObjectCatalog.Proofs.Overwrites
import ObjectCatalog.Proofs.Storing
import ObjectCatalog.Proofs.ReadBack
import ObjectCatalog.Proofs.SegmentPages
import ObjectCatalog.Proofs.Versions
import ObjectCatalog.Proofs.Sweeps
import ObjectCatalog.Proofs.LongUploads
import ObjectCatalog.Proofs.CopyKeys
import ObjectCatalog.Proofs.BlobForms
import ObjectCatalog.Proofs.ObjectRows
import ObjectCatalog.Proofs.PendingListings
import ObjectCatalog.Proofs.SegmentLoop
import ObjectCatalog.Proofs.Precedence
