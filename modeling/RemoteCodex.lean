import RemoteCodex.Interact.Program
import RemoteCodex.Interact.Guarantee
import RemoteCodex.Interact.Runs
import RemoteCodex.Interact.Table
import RemoteCodex.Interact.Pages
import RemoteCodex.Interact.Sorted
import RemoteCodex.Files.Disk
import RemoteCodex.Files.System
import RemoteCodex.Files.Frame
import RemoteCodex.Wire.Code
import RemoteCodex.Wire.Json
import RemoteCodex.Transfer.Protocol
import RemoteCodex.Transfer.Paths
import RemoteCodex.Transfer.Journal
import RemoteCodex.Transfer.Inspect
import RemoteCodex.Transfer.Staging
import RemoteCodex.Transfer.Text
import RemoteCodex.Transfer.LookLaws
import RemoteCodex.Transfer.Change
import RemoteCodex.Transfer.StageLaws
import RemoteCodex.Transfer.CommandLaws
import RemoteCodex.Transfer.Headway
import RemoteCodex.Transfer.Publication
import RemoteCodex.Transfer.Checkpoint
import RemoteCodex.Transfer.Reconciled
import RemoteCodex.Transfer.Removal
import RemoteCodex.Protocol.Value
import RemoteCodex.Protocol.Approval
import RemoteCodex.Local.Approvals
import RemoteCodex.Local.Permissions
import RemoteCodex.Local.Ancestry
import RemoteCodex.Native.Policy
import RemoteCodex.Native.Request
import RemoteCodex.Local.Route
import RemoteCodex.Remote.Recovery
import RemoteCodex.Remote.Budget
import RemoteCodex.Protocol.Encode
import RemoteCodex.Protocol.Frame
import RemoteCodex.Server.Store
import RemoteCodex.Server.Replay
import RemoteCodex.Server.Retention
import RemoteCodex.Server.Output
import RemoteCodex.Server.Presence
import RemoteCodex.Config.Key
import RemoteCodex.Config.Value
import RemoteCodex.Config.Layer
import RemoteCodex.Config.Environment
import RemoteCodex.Server.Runtime
import RemoteCodex.Server.Profiles
import RemoteCodex.Server.Accepted
import RemoteCodex.Tunnel.Closure
import RemoteCodex.Tunnel.Relay
import RemoteCodex.Tunnel.Stall
import RemoteCodex.Interact.Pair
import RemoteCodex.Execution.Policy
import RemoteCodex.Execution.Operations
import RemoteCodex.Execution.Actor
import RemoteCodex.Execution.Alike
import RemoteCodex.Execution.Refusals
import RemoteCodex.Protocol.Identity
import RemoteCodex.Interact.Steps
import RemoteCodex.Execution.Others
import RemoteCodex.Execution.Discipline
import RemoteCodex.Execution.Duties
import RemoteCodex.Execution.Scene
import RemoteCodex.Execution.Lifecycle
import RemoteCodex.Execution.Jobs
import RemoteCodex.Local.Lease
import RemoteCodex.Local.Intent
import RemoteCodex.Editor.Workspace
import RemoteCodex.Editor.Staged
import RemoteCodex.Editor.Files
import RemoteCodex.Editor.Uploads
import RemoteCodex.Editor.Saves
import RemoteCodex.Credentials.Store
import RemoteCodex.Credentials.Tasks
import RemoteCodex.Credentials.Fading
import RemoteCodex.Credentials.Locks
import RemoteCodex.Credentials.Steps
import RemoteCodex.Credentials.Rotation
import RemoteCodex.Credentials.Settings
import RemoteCodex.Credentials.Consistency
import RemoteCodex.Credentials.Revisions
import RemoteCodex.Remote.Configuration
import RemoteCodex.Remote.Settings
import RemoteCodex.Remote.Synchronize
import RemoteCodex.Remote.Applied
import RemoteCodex.Gateway.Connection
import RemoteCodex.Gateway.Serve
import RemoteCodex.Gateway.Delivery
import RemoteCodex.Terminal.Sessions
import RemoteCodex.Terminal.Slots
import RemoteCodex.Terminal.Relaying
import RemoteCodex.Terminal.Switching
import RemoteCodex.Engine.Task
import RemoteCodex.Engine.Run
import RemoteCodex.Engine.Service
import RemoteCodex.Engine.Ledger
import RemoteCodex.Engine.Accounting
import RemoteCodex.Engine.Held
import RemoteCodex.Engine.Items
import RemoteCodex.Servers.Removal
import RemoteCodex.Adapter.Driver
import RemoteCodex.Adapter.Answers
import RemoteCodex.Chat.State
import RemoteCodex.Chat.History
import RemoteCodex.Chat.Reverts
import RemoteCodex.Tabs.Paths
import RemoteCodex.Tabs.State
import RemoteCodex.Tabs.Moves
import RemoteCodex.Tabs.Drafts
import RemoteCodex.Server.Installation
import RemoteCodex.Server.Replacement
import RemoteCodex.Transfer.Stamps
import RemoteCodex.Transfer.Names
import RemoteCodex.Engine.Naming
import RemoteCodex.Transfer.Saved
import RemoteCodex.Wire.Pieces
import RemoteCodex.Protocol.Codec
import RemoteCodex.Protocol.Packets
import RemoteCodex.Remote.Codec
import RemoteCodex.Transfer.Handles
import RemoteCodex.Transfer.Confined
import RemoteCodex.Interact.Forest
import RemoteCodex.Interact.Smallest
import RemoteCodex.Transfer.Listing
import RemoteCodex.Engine.Sources
import RemoteCodex.Engine.Scan
import RemoteCodex.Config.Applied
import RemoteCodex.Wire.Split
import RemoteCodex.Config.Proxy
import RemoteCodex.Wire.Ip
import RemoteCodex.Connection.Endpoint
import RemoteCodex.Wire.Shell
import RemoteCodex.Connection.Quote
import RemoteCodex.Adapter.Usage
import RemoteCodex.Wire.Utf8
import RemoteCodex.Interact.Cursors
import RemoteCodex.Adapter.Tools
import RemoteCodex.Adapter.History
import RemoteCodex.Adapter.Serving
import RemoteCodex.Adapter.Outputs
import RemoteCodex.Application.Output
import RemoteCodex.Application.Deferred
import RemoteCodex.Protocol.Reread
import RemoteCodex.Adapter.Paging
import RemoteCodex.Files.Links
import RemoteCodex.Transfer.Parts
import RemoteCodex.Updates.Package
import RemoteCodex.Updates.Unpacking
import RemoteCodex.Updates.Extraction
import RemoteCodex.Chat.Distinct
import RemoteCodex.Chat.Refresh
import RemoteCodex.Chat.Merging
import RemoteCodex.Chat.Updates
import RemoteCodex.Files.Moves
import RemoteCodex.Skills.Agreement
import RemoteCodex.Chat.Arrival
import RemoteCodex.Chat.Arriving
import RemoteCodex.Chat.Received
import RemoteCodex.Interact.Every
import RemoteCodex.Execution.Authority
import RemoteCodex.Execution.Evidence
import RemoteCodex.Execution.Handover
import RemoteCodex.Server.Untouched
import RemoteCodex.Execution.Owning
import RemoteCodex.Tunnel.Delivery
import RemoteCodex.Tunnel.Events
import RemoteCodex.Tunnel.Requests
import RemoteCodex.Service.Calls
import RemoteCodex.Service.Steps
import RemoteCodex.Service.Owners
import RemoteCodex.Service.Isolation
import RemoteCodex.Service.Actors
import RemoteCodex.Interact.Noted
import RemoteCodex.Engine.Asked
import RemoteCodex.Engine.Regular
import RemoteCodex.Engine.Guards
import RemoteCodex.Engine.Holding
import RemoteCodex.Engine.Passage
import RemoteCodex.Engine.Rounds
import RemoteCodex.Engine.Turns
import RemoteCodex.Engine.Histories
