import CategorySelection.Main
import CategorySelection.Log.Fields
import CategorySelection.Proofs.Catalog.Refinement
import CategorySelection.Proofs.Expression.Precedence
import CategorySelection.Proofs.Expression.RoundTrip
import CategorySelection.Proofs.Expression.Merged
import CategorySelection.Proofs.Session.Draft
import CategorySelection.Proofs.Expression.Stable
import CategorySelection.Proofs.Catalog.Outages
import CategorySelection.Proofs.Catalog.Faults
import CategorySelection.Proofs.Catalog.Apart
import CategorySelection.Proofs.Session.Flags
import CategorySelection.Proofs.Session.Commits
import CategorySelection.Proofs.Checklist.Map
import CategorySelection.Proofs.Program.ClosedForm
import CategorySelection.Proofs.Program.Tasks
import CategorySelection.Proofs.Binary64.Order
import CategorySelection.Proofs.Registry.Live
import CategorySelection.Proofs.Service.OpenSessions
import CategorySelection.Proofs.Service.Visits
import CategorySelection.Proofs.Service.Kept
import CategorySelection.Proofs.Service.Contained
import CategorySelection.Proofs.Service.Isolation
import CategorySelection.Proofs.Checklist.Refused
import CategorySelection.Proofs.Store.Refusals
import CategorySelection.Proofs.Store.Leftovers
import CategorySelection.Proofs.Catalog.Reloaded
import CategorySelection.Proofs.Session.Target
import CategorySelection.Proofs.Store.Determined
import CategorySelection.Proofs.Log.Programs
import CategorySelection.Proofs.Session.Lines
import CategorySelection.Proofs.Log.Tags
import CategorySelection.Proofs.Settings.Ranges
