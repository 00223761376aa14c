import AmbScript.Session.Basic
import AmbScript.Diagnostic.Json
import AmbScript.Proofs.Store.Rewinding
import AmbScript.Proofs.Machine.Budget
import AmbScript.Proofs.Machine.Environments
import AmbScript.Proofs.Machine.Isolation
import AmbScript.Proofs.Machine.Shedding
import AmbScript.Proofs.Listing.Runs
import AmbScript.Proofs.Course.Products
import AmbScript.Proofs.Course.Loops
import AmbScript.Proofs.Reach.Restored
import AmbScript.Proofs.Orphan.Session
import AmbScript.Proofs.Session.Budgeted
import AmbScript.Proofs.Session.Single
import AmbScript.Proofs.Json.Diagnostics
import AmbScript.Proofs.Parser.Quotation
import AmbScript.Proofs.Parser.Extents
import AmbScript.Proofs.Parser.Nesting
import AmbScript.Proofs.Parser.Chains
import AmbScript.Proofs.Parser.Layout
import AmbScript.Proofs.Parser.Precedence
import AmbScript.Proofs.Parser.Totality
import AmbScript.Proofs.Library.Choices
import AmbScript.Proofs.Declaration.Placeholders
import AmbScript.Proofs.Source.LineStarts
import AmbScript.Proofs.Token.Bytes
import AmbScript.Proofs.Token.Literals
import AmbScript.Proofs.Session.Identity
