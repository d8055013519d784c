import BinaryLayout.Value.Array

/-!
# Plain data as values

A datum is what a caller has at hand: an integer, a text, nothing, a list, or a value
already built. Integers become 32-bit ones, texts are closed, lists become arrays.
-/

namespace BinaryLayout

/-- Data from which values are made. -/
inductive Datum where
  | int (value : Int64)
  | text (content : String)
  | null
  | list (items : List Datum)
  | value (value : Value)

namespace Datum

mutual

/-- The value of a datum. -/
def toValue : Datum → Except LayoutError Value
  | int number => Value.ofInt .int32 number.toInt
  | text content => .ok (.ofString content)
  | null => .ok .null
  | list items => do Value.sequence (← toValues items) none
  | value built => .ok built

/-- The values of some data; the first refusal is reported. -/
def toValues : List Datum → Except LayoutError (List Value)
  | [] => .ok []
  | item :: rest => do
      let first ← toValue item
      return first :: (← toValues rest)

end

end Datum

namespace Constants

/-- Add a constant. The name is judged before the value, and the value must have a
    literal form. -/
def add (constants : Constants) (name : String) (datum : Datum) :
    Except LayoutError Constants := do
  constants.checkName name
  let constant ← (← datum.toValue).toConstant
  return constants.append name constant

/-- Add constants in order, on demand without those whose name starts with an
    underscore. The ones before a refusal stay added. -/
def addAll (ignorePrivate : Bool) (constants : Constants) :
    List (String × Datum) → Except LayoutError Unit × Constants
  | [] => (.ok (), constants)
  | (name, datum) :: rest =>
      if ignorePrivate && name.toList.head? = some '_' then
        addAll ignorePrivate constants rest
      else
        match constants.add name datum with
        | .ok added => addAll ignorePrivate added rest
        | .error refusal => (.error refusal, constants)

end Constants
end BinaryLayout
