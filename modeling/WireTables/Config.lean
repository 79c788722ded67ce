import WireTables.Text.Case
import WireTables.Text.Search

/-!
# Configuration

The facts about a protocol that its tables do not tell.
-/

namespace WireTables

/-- Which repeated constants are left out: those of the listed enumerations whose comment holds the
marker, in any mix of upper and lower case. -/
structure ReservedRule where
  enums : List String := ["TPM_RH"]
  marker : String := "RESERVED"
  deriving DecidableEq, Repr

namespace ReservedRule

/-- A repeated constant of an owner and with a comment is left out. -/
def allowsDrop (rule : ReservedRule) (owner comment : String) : Bool :=
  rule.enums.contains owner && Text.occurs (Text.upper rule.marker) (Text.upper comment)

end ReservedRule

/-- A field of a structure. -/
structure FieldRef where
  record : String
  field : String
  deriving DecidableEq, Repr

/-- The facts about a protocol that its tables do not tell. -/
structure Config where
  reserved : ReservedRule := {}
  /-- The selector of the member that stands for absence. -/
  nullSelector : String := "TPM_ALG_NULL"
  /-- The common start of the names of algorithm constants. -/
  algPrefix : String := "TPM_ALG_"
  /-- Structures that are never inlined. -/
  keptWrappers : List String := ["TPMT_HA"]
  /-- Fields whose length follows from the enclosing region. -/
  implicitLengths : List FieldRef := [⟨"TPMS_ID_OBJECT", "encIdentity"⟩]
  /-- Structures whose tail is absent when their selector is the null selector. -/
  nullTails : List String := ["TPMT_SYM_DEF", "TPMT_SYM_DEF_OBJECT"]
  deriving DecidableEq, Repr

namespace Config

/-- The length of a field follows from the enclosing region. -/
def isImplicitLength (c : Config) (record field : String) : Bool :=
  c.implicitLengths.any fun f => f.record == record && f.field == field

end Config

end WireTables
