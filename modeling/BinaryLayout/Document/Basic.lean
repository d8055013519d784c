import BinaryLayout.Value.Pack

/-!
# Documents

A document is a value packed on its own and filled up with zero bytes to a multiple
of an alignment. A whole extra unit may follow a document that already ends there, so
that readers of whole words stay within it.
-/

namespace BinaryLayout

/-- When a document that needs no padding gets a whole unit of it. -/
inductive ExtraPadding where
  | never
  | always
  /-- Only behind packed bits. -/
  | trailingBits
  deriving DecidableEq

namespace ExtraPadding

/-- A whole unit is due, given how the document ends. -/
def isDue (extra : ExtraPadding) (endsInBits : Bool) : Bool :=
  match extra with
  | never => false
  | always => true
  | trailingBits => endsInBits

end ExtraPadding

/-- How a document is padded. -/
structure DocumentOptions where
  align : Nat
  isPadded : Bool
  extra : ExtraPadding
  deriving DecidableEq

namespace DocumentOptions

/-- Padding to the usual alignment, with an extra unit behind packed bits. -/
def standard : DocumentOptions :=
  ⟨Draft.defaultAlign, true, .trailingBits⟩

/-- Zero bytes behind a document of some length. -/
def padding (options : DocumentOptions) (length : Nat) (endsInBits : Bool) : Nat :=
  if !options.isPadded || options.align = 0 then 0
  else
    let missing := options.align - length % options.align
    if options.extra.isDue endsInBits || missing ≠ options.align then missing else 0

end DocumentOptions

namespace Value

/-- The bytes of a whole document. -/
def document (root : Value) (options : DocumentOptions) : Except LayoutError (List UInt8) := do
  if options.isPadded && options.align = 0 then refuse .zeroAlignment
  else
    let packed ← root.pack none
    let padding := options.padding packed.bytes.length packed.endsInBits
    return packed.bytes ++ List.replicate padding 0

/-- A reference counts from its struct, and zeros complete the document. -/
example :
    document (.struct ⟨"S", [⟨"c", 0, .char 0x41, false⟩,
        ⟨"text", 1, .ref (.ofString "hi") .w8, false⟩], 1, some 2, .empty, []⟩) .standard =
      .ok [0x41, 0x02, 0x68, 0x69, 0x00, 0x00, 0x00, 0x00] := by rfl

end Value
end BinaryLayout
