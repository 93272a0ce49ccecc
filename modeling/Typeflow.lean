import Typeflow.Cache.History
import Typeflow.Host.Description
import Typeflow.Proofs.CurrentCode
import Typeflow.Proofs.Detachment
import Typeflow.Proofs.EveryBody
import Typeflow.Proofs.Resolution
import Typeflow.Proofs.Resources.Load
import Typeflow.Proofs.Rerun
import Typeflow.Session.Probe
import Typeflow.Session.ScopeHistory
import Typeflow.Proofs.Lattice
import Typeflow.Proofs.Termination
import Typeflow.Proofs.Wakeup
import Typeflow.Proofs.Growth
import Typeflow.Proofs.Headed
import Typeflow.Proofs.Reanalysis
import Typeflow.Proofs.Registry.Reload
import Typeflow.Proofs.Registry.Placement
import Typeflow.Proofs.Generation.Reload
import Typeflow.Proofs.Registry.Steady
import Typeflow.Proofs.Registry.Cells
import Typeflow.Proofs.Registry.Validity
import Typeflow.Proofs.Registry.Indexes
import Typeflow.Proofs.Imports.Watch
import Typeflow.Proofs.Imports.Missed
import Typeflow.Proofs.Imports.Retry
import Typeflow.Proofs.Replacement
import Typeflow.Proofs.Line
import Typeflow.Proofs.Memo.Once
import Typeflow.Proofs.Balance
import Typeflow.Proofs.Identity
import Typeflow.Proofs.Kinds
import Typeflow.Proofs.Offers
import Typeflow.Proofs.Lookup
import Typeflow.Proofs.Dispatch
import Typeflow.Proofs.Saturation
import Typeflow.Proofs.Order
import Typeflow.Proofs.Registry.Titles
import Typeflow.Proofs.Accumulation
import Typeflow.Proofs.Readers.Exact
import Typeflow.Proofs.Lookup.Views
import Typeflow.Proofs.Unseen
import Typeflow.Proofs.Alternatives
import Typeflow.Proofs.Paths
import Typeflow.Proofs.Binding
import Typeflow.Proofs.Super
import Typeflow.Proofs.Layout
import Typeflow.Proofs.Settings
import Typeflow.Proofs.Imports.Relative
import Typeflow.Proofs.Alternatives.Canonical
import Typeflow.Proofs.Count
import Typeflow.Proofs.NodeValues
