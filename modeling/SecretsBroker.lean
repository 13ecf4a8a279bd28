import SecretsBroker.Foundations.Interaction
import SecretsBroker.Foundations.Utf8
import SecretsBroker.Foundations.Quote
import SecretsBroker.Broker.Run
import SecretsBroker.Broker.Gate
import SecretsBroker.Broker.Runner
import SecretsBroker.Broker.Host
import SecretsBroker.Foundations.Symlinks
import SecretsBroker.Broker.WorkingDir
import SecretsBroker.Foundations.Json
import SecretsBroker.Worker.Protocol
import SecretsBroker.Relay.Server
import SecretsBroker.Approval.Tailscale
import SecretsBroker.Approval.Safety
import SecretsBroker.Foundations.Files
import SecretsBroker.Foundations.Replacement
import SecretsBroker.Admin.Edit
import SecretsBroker.Admin.Verdicts
import SecretsBroker.Admin.Editor
import SecretsBroker.Admin.Recovery
import SecretsBroker.Admin.Audit
import SecretsBroker.Admin.Protocol
import SecretsBroker.Admin.Concurrent
import SecretsBroker.Admin.Disk
import SecretsBroker.Admin.Effects
import SecretsBroker.Admin.Artifacts
import SecretsBroker.Admin.Restoration
import SecretsBroker.Admin.Outcomes
import SecretsBroker.Relay.Lifetime
import SecretsBroker.Foundations.JsonText
import SecretsBroker.Foundations.JsonStruct
import SecretsBroker.Foundations.JsonStrings
import SecretsBroker.Foundations.Journal
import SecretsBroker.Audit.Log
import SecretsBroker.Audit.Trail
import SecretsBroker.Admin.Headers
import SecretsBroker.Admin.Relayout
import SecretsBroker.Admin.Editable
import SecretsBroker.AdminWeb.Forms
import SecretsBroker.AdminWeb.Handlers
import SecretsBroker.Foundations.Drafts
import SecretsBroker.Admin.Sharing
import SecretsBroker.Admin.Meaning
import SecretsBroker.AdminWeb.Commit
import SecretsBroker.AdminWeb.Conduct
import SecretsBroker.AdminWeb.Tokens
import SecretsBroker.AdminWeb.Widening
import SecretsBroker.Foundations.Base64
import SecretsBroker.Worker.Frames
import SecretsBroker.Worker.Diagnose
import SecretsBroker.Worker.Access
import SecretsBroker.Worker.ProjectList
import SecretsBroker.Broker.DryRun
import SecretsBroker.Broker.Prompt
import SecretsBroker.Admin.Frame
import SecretsBroker.Admin.Roundtrip
import SecretsBroker.Admin.Literals
import SecretsBroker.Approval.Loop
import SecretsBroker.Foundations.SortSlice
import SecretsBroker.Approval.Registration
import SecretsBroker.Relay.Snapshot
import SecretsBroker.Admin.ArtifactText
import SecretsBroker.Admin.Publication
import SecretsBroker.Admin.Publishers
import SecretsBroker.Admin.Listing
import SecretsBroker.AdminWeb.Checks
import SecretsBroker.Worker.Aggregate
import SecretsBroker.AdminWeb.Listener
import SecretsBroker.Foundations.Threaded
import SecretsBroker.Worker.Session
import SecretsBroker.Worker.Accounting
import SecretsBroker.Worker.CommandLine
import SecretsBroker.Foundations.TwoRuns
import SecretsBroker.Worker.Deployment
import SecretsBroker.Worker.Trail
import SecretsBroker.Worker.Secrecy
import SecretsBroker.Admin.Atomic
import SecretsBroker.Admin.Trail
import SecretsBroker.Foundations.Html
import SecretsBroker.Relay.Pages
import SecretsBroker.Relay.Browser
import SecretsBroker.Approval.Taps
