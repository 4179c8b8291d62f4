import Docket.Client.Script
import Docket.Schema.Admits
import Docket.Schema.Json
import Docket.Schema.Sound
import Docket.Proofs.Commit.Race
import Docket.Proofs.Commit.Retry
import Docket.Proofs.Database.Fencing
import Docket.Proofs.Database.Listing
import Docket.Proofs.Store.Restore
import Docket.Proofs.Store.States
import Docket.Proofs.Store.Scan
import Docket.Proofs.Blob.Reuse
import Docket.Proofs.Client.Exchange
import Docket.Proofs.Commit.Course
import Docket.Proofs.Commit.Rounds
import Docket.Proofs.Client.Shared
import Docket.Proofs.Desk
import Docket.Proofs.Commit.Conflict
import Docket.Proofs.Client.Moves
import Docket.Proofs.Database.Standing
import Docket.Proofs.Client.Rules
import Docket.Proofs.Deletions
import Docket.Proofs.Schema.Rules
import Docket.Proofs.Blob.Prefix
import Docket.Proofs.Blob.Typed
import Docket.Proofs.Blob.Writable
import Docket.Proofs.Schema.Reading
import Docket.Proofs.Schema.Index
import Docket.Proofs.Schema.Obtained
import Docket.Proofs.Schema.RoundTrip
import Docket.Proofs.FieldRoundTrip
import Docket.Proofs.Store.Deeds
import Docket.Proofs.Store.History
import Docket.Proofs.Blob.Blocks
import Docket.Proofs.Blob.Compact
import Docket.Proofs.Blob.Split
import Docket.Proofs.Blob.Overflow
import Docket.Proofs.Changes
import Docket.Proofs.Database.Digests
import Docket.Proofs.Blob.Guarded
import Docket.Proofs.Journal.Line
import Docket.Proofs.Journal.Keys
