import BinaryLayout.Ty.Merge
import BinaryLayout.Value.Basic

/-!
# Arrays of values

Arrays are built from values whose types can be merged. Values that can be stored in
place make an array in place, all others a table of references to them. A fixed size
only bounds the number of values; the places behind them are stored as zeros.
-/

namespace BinaryLayout.Value

/-- The element type that some values have in common with a declared one. -/
def commonElement (element : Ty) (items : List Value) : Except LayoutError Ty :=
  items.foldlM (fun element item => element.merge item.type) element

/-- An array in place of a declared element type, which the values may complete. -/
def arrayOf (element : Ty) (items : List Value) (fixed align : Option Nat) :
    Except LayoutError Value := do
  checkCapacity items.length fixed
  let element ← commonElement element items
  return array element fixed (← Ty.arrayAlign element align) items

/-- A text stored in place. -/
def stringOf (content : String) (fixed : Option Nat) (terminated : Bool) :
    Except LayoutError Value :=
  (TextArray.build content fixed terminated).map text

/-- The same array in place at another alignment. -/
def realign (value : Value) (align : Nat) : Except LayoutError Value := do
  match value with
  | array element fixed _ items =>
      return array element fixed (← Ty.arrayAlign element (some align)) items
  | text content => return text { content with align := ← Ty.arrayAlign .char (some align) }
  | blob fixed _ content => return blob fixed (← Ty.arrayAlign .char (some align)) content
  | other => return other

/-- A blob stored as an array of bytes. -/
def blobOf (content : Blob) (fixed align : Option Nat) : Except LayoutError Value := do
  checkCapacity content.bytes.length fixed
  let align ← Ty.arrayAlign .char (some (align.getD Blob.defaultAlign))
  return blob fixed align content

/-- The target type that some values have in common with one seen before. References
    cannot be targets. -/
def commonTarget (target : Ty) (items : List Value) : Except LayoutError Ty :=
  items.foldlM
    (fun target item =>
      if item.isRef then refuse (.referenceElement item.type.uniqueName)
      else item.type.mergeKnown target)
    target

/-- A table of references to values; null values become null references. -/
def refTableOf (items : List Value) (fixed : Option Nat) (width : RefWidth) :
    Except LayoutError Value := do
  match items with
  | [] => refuse .emptyArray
  | first :: _ =>
      checkCapacity items.length fixed
      let target ← commonTarget first.type items
      let _ ← Ty.refTableOf target fixed width
      return refTable target fixed width items

/-- An array of values of one type: in place where that is possible, a reference
    table otherwise. -/
def sequence (items : List Value) (fixed : Option Nat) : Except LayoutError Value := do
  match items with
  | [] => refuse .emptyArray
  | first :: rest =>
      let element ← rest.foldlM (fun element item => element.mergeKnown item.type) first.type
      if element.isRef then refuse (.referenceElement element.uniqueName)
      else if element.isInPlace then arrayOf element items fixed none
      else refTableOf items fixed .w32

end BinaryLayout.Value
