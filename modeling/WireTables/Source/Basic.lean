import WireTables.Source.Python
import WireTables.Source.TypeScript

/-!
# Sources of a client library

The languages that sources can be printed in, and the sources of a schema.
-/

namespace WireTables

/-- The printer of a language, where there is one. -/
def Language.printer? : Language → Option Source.Printer
  | .node => some Source.TypeScript.printer
  | .py => some Source.Python.printer
  | .cpp | .csharp | .java => none

end WireTables
