import ProjectRegistry.Artifacts
import ProjectRegistry.Bundle
import ProjectRegistry.Configuration
import ProjectRegistry.Decimal.Binary64
import ProjectRegistry.Decimal.Shortest
import ProjectRegistry.Digest
import ProjectRegistry.Event
import ProjectRegistry.Failure
import ProjectRegistry.Files.Path
import ProjectRegistry.Files.Tree
import ProjectRegistry.Flow
import ProjectRegistry.Json.Number
import ProjectRegistry.Json.Reader
import ProjectRegistry.Json.Record
import ProjectRegistry.Json.Tree
import ProjectRegistry.Json.Value
import ProjectRegistry.Limits
import ProjectRegistry.Project
import ProjectRegistry.Proofs.Artifacts
import ProjectRegistry.Proofs.Artifacts.Confinement
import ProjectRegistry.Proofs.Configuration
import ProjectRegistry.Proofs.Decimal.Rounding
import ProjectRegistry.Proofs.Decimal.Shortest
import ProjectRegistry.Proofs.Digest
import ProjectRegistry.Proofs.Files
import ProjectRegistry.Proofs.Files.Components
import ProjectRegistry.Proofs.Files.Places
import ProjectRegistry.Proofs.Json.Doubles
import ProjectRegistry.Proofs.Json.Grammar
import ProjectRegistry.Proofs.Json.Layouts
import ProjectRegistry.Proofs.Json.Reader
import ProjectRegistry.Proofs.Json.Records
import ProjectRegistry.Proofs.Json.Spelling
import ProjectRegistry.Proofs.Json.Value
import ProjectRegistry.Proofs.Registry.Archives
import ProjectRegistry.Proofs.Registry.Atomicity
import ProjectRegistry.Proofs.Registry.AuditLog
import ProjectRegistry.Proofs.Registry.Bundles
import ProjectRegistry.Proofs.Registry.Cleanup
import ProjectRegistry.Proofs.Registry.Copies
import ProjectRegistry.Proofs.Registry.Equivalence
import ProjectRegistry.Proofs.Registry.Flows
import ProjectRegistry.Proofs.Registry.Grants
import ProjectRegistry.Proofs.Registry.Integrity
import ProjectRegistry.Proofs.Registry.Isolation
import ProjectRegistry.Proofs.Registry.Journal
import ProjectRegistry.Proofs.Registry.Lookups
import ProjectRegistry.Proofs.Registry.Names
import ProjectRegistry.Proofs.Registry.Numbers
import ProjectRegistry.Proofs.Registry.Paging
import ProjectRegistry.Proofs.Registry.Pointer
import ProjectRegistry.Proofs.Registry.Readings
import ProjectRegistry.Proofs.Registry.Retention
import ProjectRegistry.Proofs.Registry.Settings
import ProjectRegistry.Proofs.Registry.StoredTexts
import ProjectRegistry.Proofs.Registry.Superseded
import ProjectRegistry.Proofs.Registry.SweepFailures
import ProjectRegistry.Proofs.Registry.Sweeps
import ProjectRegistry.Proofs.Registry.Twins
import ProjectRegistry.Proofs.Registry.Uploads
import ProjectRegistry.Proofs.Rights
import ProjectRegistry.Proofs.RoundTrips
import ProjectRegistry.Proofs.Spellings
import ProjectRegistry.Proofs.Store.Alike
import ProjectRegistry.Proofs.Store.Answers
import ProjectRegistry.Proofs.Store.Bundles
import ProjectRegistry.Proofs.Store.Cells
import ProjectRegistry.Proofs.Store.Change
import ProjectRegistry.Proofs.Store.Damage
import ProjectRegistry.Proofs.Store.DatabaseJournal
import ProjectRegistry.Proofs.Store.DatabasePlans
import ProjectRegistry.Proofs.Store.Flows
import ProjectRegistry.Proofs.Store.Graphs
import ProjectRegistry.Proofs.Store.InPlace
import ProjectRegistry.Proofs.Store.Journal
import ProjectRegistry.Proofs.Store.Lookups
import ProjectRegistry.Proofs.Store.Medium
import ProjectRegistry.Proofs.Store.MemoryJournal
import ProjectRegistry.Proofs.Store.MemoryPlans
import ProjectRegistry.Proofs.Store.Names
import ProjectRegistry.Proofs.Store.Parts
import ProjectRegistry.Proofs.Store.Plans
import ProjectRegistry.Proofs.Store.Queries
import ProjectRegistry.Proofs.Store.Readable
import ProjectRegistry.Proofs.Store.Retention
import ProjectRegistry.Proofs.Store.RowIds
import ProjectRegistry.Proofs.Store.Soundness
import ProjectRegistry.Proofs.Store.Steps
import ProjectRegistry.Proofs.Store.Texts
import ProjectRegistry.Proofs.Store.Twins
import ProjectRegistry.Proofs.Store.Versions
import ProjectRegistry.Proofs.Tables
import ProjectRegistry.Proofs.Text.Blank
import ProjectRegistry.Proofs.Text.Digits
import ProjectRegistry.Proofs.Text.Hex
import ProjectRegistry.Proofs.Text.Utf8
import ProjectRegistry.Proofs.Time
import ProjectRegistry.Proofs.Time.Calendar
import ProjectRegistry.Proofs.Time.Texts
import ProjectRegistry.Proofs.Timeless
import ProjectRegistry.Proofs.Version
import ProjectRegistry.Registry
import ProjectRegistry.Registry.Call
import ProjectRegistry.Registry.Opening
import ProjectRegistry.Registry.Retention
import ProjectRegistry.Rights
import ProjectRegistry.Store.Database
import ProjectRegistry.Store.Database.Address
import ProjectRegistry.Store.Database.Cells
import ProjectRegistry.Store.Database.Edit
import ProjectRegistry.Store.Database.Location
import ProjectRegistry.Store.Database.Opening
import ProjectRegistry.Store.Database.Statements
import ProjectRegistry.Store.Interface
import ProjectRegistry.Store.Memory
import ProjectRegistry.Store.Relations
import ProjectRegistry.Store.Step
import ProjectRegistry.Table
import ProjectRegistry.Text.Blank
import ProjectRegistry.Text.Digits
import ProjectRegistry.Text.Hex
import ProjectRegistry.Text.Percent
import ProjectRegistry.Text.Quoted
import ProjectRegistry.Text.Split
import ProjectRegistry.Text.Unprintable
import ProjectRegistry.Text.Utf8
import ProjectRegistry.Time.Calendar
import ProjectRegistry.Time.Instant
import ProjectRegistry.Toml.Document
import ProjectRegistry.Toml.Scalar
import ProjectRegistry.Toml.Value
import ProjectRegistry.Version
import ProjectRegistry.Proofs.Bundle
import ProjectRegistry.Proofs.Registry.Listings
