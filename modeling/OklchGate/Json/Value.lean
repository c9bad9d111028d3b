import OklchGate.Number.Binary64
import OklchGate.Text

/-!
# JSON values

An object keeps its members in the order in which they are written.  When a
name comes more than once, the last member counts.
-/

namespace OklchGate

/-- A JSON value.  A number without fraction and exponent is an integer; the
other numbers are binary64, with infinities and NaN among them. -/
inductive JsonValue where
  | null
  | bool (value : Bool)
  | integer (value : Int)
  | real (value : Binary64)
  | string (value : Text)
  | array (items : List JsonValue)
  | object (members : List (Text × JsonValue))
  deriving Inhabited

/-- The last member of a list of members with the given name. -/
def JsonValue.member? (name : Text) (members : List (Text × JsonValue)) :
    Option JsonValue :=
  (members.reverse.find? fun member => member.1 = name).map (·.2)

end OklchGate
