import Lineage.Address
import Lineage.TypeId

/-!
# Symbols

Two kinds of symbols carry addresses. A *procedure* goes by its qualified name and
mostly has a type, which ties it to a class. A *public symbol* goes by a mangled name only,
and has to be tied to its class through that.
-/

namespace Lineage

/-- A global procedure of the program. -/
structure Procedure where
  name : Text
  type : Option TypeId
  address : Address
deriving DecidableEq

/-- A public symbol of the program. -/
structure PublicSymbol where
  mangled : Text
  address : Address
deriving DecidableEq

end Lineage
