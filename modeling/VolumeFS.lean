import VolumeFS.Bench.Runner
import VolumeFS.Bench.Toml
import VolumeFS.Config.Properties
import VolumeFS.Config.Record
import VolumeFS.Opening
import VolumeFS.Record.Fault
import VolumeFS.Record.Json
import VolumeFS.Record.Path
import VolumeFS.Record.Placement
import VolumeFS.Record.Status
import VolumeFS.Record.Volume
import VolumeFS.Stream.Sink
import VolumeFS.Tree.Script
import VolumeFS.World
import VolumeFS.Proofs.Client.Contest
import VolumeFS.Proofs.Client.Copy
import VolumeFS.Proofs.Client.CopyTree
import VolumeFS.Proofs.Client.Create
import VolumeFS.Proofs.Client.Endless
import VolumeFS.Proofs.Client.Exposed
import VolumeFS.Proofs.Client.Faults
import VolumeFS.Proofs.Client.Keys
import VolumeFS.Proofs.Client.Listing
import VolumeFS.Proofs.Client.Lossless
import VolumeFS.Proofs.Client.Ownership
import VolumeFS.Proofs.Client.Rename
import VolumeFS.Proofs.Client.Sessions
import VolumeFS.Proofs.Client.SetOwner
import VolumeFS.Proofs.Client.Tree
import VolumeFS.Proofs.Command.Given
import VolumeFS.Proofs.Command.Listing
import VolumeFS.Proofs.Contract.Beneath
import VolumeFS.Proofs.Contract.Runs
import VolumeFS.Proofs.Contract.SelfRename
import VolumeFS.Proofs.Disk.Change
import VolumeFS.Proofs.Disk.Streams
import VolumeFS.Proofs.Mount.Host
import VolumeFS.Proofs.Mount.Lifecycle
import VolumeFS.Proofs.Mount.Links
import VolumeFS.Proofs.Mount.Overlap
import VolumeFS.Proofs.Mount.Path
import VolumeFS.Proofs.Mount.QuickRead
import VolumeFS.Proofs.Mount.Revisit
import VolumeFS.Proofs.Mount.Settings
import VolumeFS.Proofs.Names
import VolumeFS.Proofs.Numeral
import VolumeFS.Proofs.Parallel.Mkdirs
import VolumeFS.Proofs.Path.Join
import VolumeFS.Proofs.Path.Obtained
import VolumeFS.Proofs.Path.Printed
import VolumeFS.Proofs.Placement.Common
import VolumeFS.Proofs.Placement.Groups
import VolumeFS.Proofs.Placement.Locations
import VolumeFS.Proofs.Placement.Replica
import VolumeFS.Proofs.Placement.Translators
import VolumeFS.Proofs.Placement.Unescaped
import VolumeFS.Proofs.Run
import VolumeFS.Proofs.Stream.Exposed
import VolumeFS.Proofs.Stream.Ledger
import VolumeFS.Proofs.Stream.Seeking
import VolumeFS.Proofs.Stream.Shared
import VolumeFS.Proofs.Stream.Transfer
import VolumeFS.Proofs.Table
import VolumeFS.Proofs.Tree.Layout
import VolumeFS.Proofs.Tree.Mkdirs
import VolumeFS.Proofs.Tree.Recorded
import VolumeFS.Proofs.Tree.Reluctant
import VolumeFS.Proofs.Tree.Remove
import VolumeFS.Proofs.Tree.Script
import VolumeFS.Proofs.Tree.Stubborn
import VolumeFS.Proofs.Volume.Attributes
import VolumeFS.Proofs.Volume.Positioned
import VolumeFS.Proofs.Volume.Reachable
import VolumeFS.Proofs.Volume.Streams
