import Tomo.Ctl.Broadcast
import Tomo.Ctl.Commands
import Tomo.Ctl.Keeping
import Tomo.Ctl.Verdicts
import Tomo.Engine.Absorbing
import Tomo.Engine.Adoption
import Tomo.Engine.Covering
import Tomo.Engine.Gossip
import Tomo.Engine.Minting
import Tomo.Engine.Overflow
import Tomo.Engine.Polling
import Tomo.Engine.Pruning
import Tomo.Engine.Staging
import Tomo.History.Dates
import Tomo.History.Migration
import Tomo.Lib.Ownership
import Tomo.Lib.Shell
import Tomo.Lib.Toml
import Tomo.Session.Accounting
import Tomo.Session.Agreement
import Tomo.Session.Assembling
import Tomo.Session.Batching
import Tomo.Session.Caching
import Tomo.Session.Clearing
import Tomo.Session.Collision
import Tomo.Session.Completing
import Tomo.Session.Echo
import Tomo.Session.EveryChange
import Tomo.Session.Guarding
import Tomo.Session.Installing
import Tomo.Session.Isolation
import Tomo.Session.Losing
import Tomo.Session.Normalizing
import Tomo.Session.Parity
import Tomo.Session.Permitted
import Tomo.Session.Quiet
import Tomo.Session.Refusal
import Tomo.Session.Scanning
import Tomo.Session.Stalling
import Tomo.Session.Switching
import Tomo.Session.Tidying
import Tomo.Session.Unversioned
import Tomo.Session.Verifying
import Tomo.Session.Versioning
import Tomo.Session.Walking
import Tomo.Session.Watching
import Tomo.Transport.Bootstrap
import Tomo.Transport.Connect
import Tomo.Transport.Documents
import Tomo.Transport.Globbing
import Tomo.Transport.Including
import Tomo.Transport.Progress
import Tomo.Transport.Pushing
import Tomo.Transport.Quote
import Tomo.Transport.Remote
import Tomo.Transport.Rewriting
import Tomo.Transport.Route
import Tomo.Transport.Serving
import Tomo.Transport.Targets
import Tomo.Transport.Window
import Tomo.Transport.Writing
import Tomo.Tui.Desk
import Tomo.Tui.Handling
import Tomo.Tui.Listing
import Tomo.Tui.Settling
import Tomo.Tui.State
import Tomo.Wire.Decoding
import Tomo.Wire.Digest
import Tomo.Wire.Frame
import Tomo.Wire.Messages
import Tomo.Wire.Migrating
import Tomo.Wire.Reloading
