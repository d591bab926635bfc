import Ocx.Announce.Closure
import Ocx.Announce.Concurrent
import Ocx.Announce.Document
import Ocx.Announce.Isolation
import Ocx.Announce.Protocol
import Ocx.Announce.Rebuild
import Ocx.Announce.Tags
import Ocx.Announce.Takeover
import Ocx.Announce.Yank
import Ocx.Cascade.Apply
import Ocx.Cascade.Blockers
import Ocx.Cascade.Concrete
import Ocx.Cascade.Decompose
import Ocx.Cascade.Graph
import Ocx.Cascade.Listing
import Ocx.Cascade.Orphans
import Ocx.Cascade.Publish
import Ocx.Cascade.Push
import Ocx.Cascade.Repair
import Ocx.Cascade.Rolling
import Ocx.Config.Basic
import Ocx.Config.Loader
import Ocx.Config.Shell
import Ocx.Fs.Path
import Ocx.Index.Authority
import Ocx.Index.Basic
import Ocx.Index.Chained
import Ocx.Index.Grow
import Ocx.Index.Local
import Ocx.Index.Merge
import Ocx.Index.Pins
import Ocx.Index.ReadOnly
import Ocx.Index.RootDocument
import Ocx.Index.RootRead
import Ocx.Index.Sweep
import Ocx.Index.WireWriter
import Ocx.Oci.Copy
import Ocx.Oci.Digest
import Ocx.Oci.Manifest
import Ocx.Oci.PackageRef
import Ocx.Oci.Platform
import Ocx.Oci.PlatformGrammar
import Ocx.Oci.PlatformText
import Ocx.Oci.Refinement
import Ocx.Oci.Selection
import Ocx.Oci.Ssrf
import Ocx.Package.Assertions
import Ocx.Package.Bundle
import Ocx.Package.Closure
import Ocx.Package.ClosureAgree
import Ocx.Package.Compose
import Ocx.Package.DependencyPaths
import Ocx.Package.Escape
import Ocx.Package.Gather
import Ocx.Package.Graft
import Ocx.Package.PublishGate
import Ocx.Package.Resolved
import Ocx.Package.Template
import Ocx.Package.Visibility
import Ocx.Patch.Glob
import Ocx.Patch.Installed
import Ocx.Patch.Order
import Ocx.Patch.Overlay
import Ocx.Patch.Snapshot
import Ocx.Project.Basic
import Ocx.Project.Consent
import Ocx.Project.Ledger
import Ocx.Project.Platforms
import Ocx.Project.Reconcile
import Ocx.Project.Resolve
import Ocx.Project.Sharing
import Ocx.Project.Touched
import Ocx.Prune.Basic
import Ocx.Prune.Phases
import Ocx.Prune.Safety
import Ocx.Prune.Spec
import Ocx.Shell.Env
import Ocx.Shell.Ledger
import Ocx.Shell.Lists
import Ocx.Shell.PathExports
import Ocx.Shell.Plan
import Ocx.Shell.Prompt
import Ocx.Shell.Restore
import Ocx.Store.Attribution
import Ocx.Store.GarbageCollection
import Ocx.Store.Layout
import Ocx.Store.LinkRace
import Ocx.Store.LinkRecovery
import Ocx.Store.Purge
import Ocx.Store.References
import Ocx.Tasks.Drain
import Ocx.Tasks.NameOwnership
import Ocx.Tasks.Singleflight
import Ocx.Tasks.ToolchainNames
import Ocx.Trust.Policy
import Ocx.Trust.Scope
import Ocx.Util.Best
import Ocx.Util.Buckets
import Ocx.Util.Cached
import Ocx.Util.Consult
import Ocx.Util.Frame
import Ocx.Util.Interleave
import Ocx.Util.Layered
import Ocx.Util.Map
import Ocx.Util.Merge
import Ocx.Util.Order
import Ocx.Util.OrderedMap
import Ocx.Util.Outcome
import Ocx.Util.Reach
import Ocx.Util.Replace
import Ocx.Util.Rolling
import Ocx.Util.Run
import Ocx.Util.Schedule
import Ocx.Util.Sorted
import Ocx.Util.Text
import Ocx.Util.Triple
import Ocx.Util.Visits
import Ocx.Version.Basic
import Ocx.Version.Faithful
import Ocx.Version.Reserved
import Ocx.Version.Tag
import Ocx.Version.Text
