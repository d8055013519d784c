import BinaryLayout.Ty.Basic

/-!
# Merging types built independently

Two values built from one description have equal types, except where one of them
knows less: a null reference does not know its target. Merging fills in what either
side knows and refuses what they state differently. Parts whose unique names agree
are taken from the first type without being looked into, and so are the constants
and enumerations declared beside a struct.
-/

namespace BinaryLayout.Ty

/-- Let an unknown target stand for the other one. -/
def known (merge : Ty → Except LayoutError Ty) (a b : Ty) : Except LayoutError Ty :=
  if a.isNull then .ok b
  else if b.isNull then .ok a
  else merge b

/-- Merge parts only where their unique names differ. -/
def unlessSame (merge : Ty → Except LayoutError Ty) (a b : Ty) : Except LayoutError Ty :=
  if a.uniqueName = b.uniqueName then .ok a else merge b

/-- Two types state something differently. -/
def conflict (a b : Ty) (detail : String) : Except LayoutError Ty :=
  .error (.incompatible a.uniqueName b.uniqueName detail)

mutual

/-- The common type of two types. -/
def merge : Ty → Ty → Except LayoutError Ty
  | int a, int b => if a = b then .ok (int a) else conflict (int a) (int b) "different kinds of type"
  | char, char => .ok char
  | null, null => .ok null
  | ref a v, ref b w =>
      if v ≠ w then conflict (ref a v) (ref b w) "reference widths differ"
      else (known (merge a) a b).map (ref · v)
  | array a m p, array b n q =>
      if m ≠ n then conflict (array a m p) (array b n q) "fixed sizes differ"
      else if p ≠ q then conflict (array a m p) (array b n q) "alignments differ"
      else (unlessSame (merge a) a b).map (array · m p)
  | refTable a m v, refTable b n w =>
      if m ≠ n then conflict (refTable a m v) (refTable b n w) "fixed sizes differ"
      else if v ≠ w then conflict (refTable a m v) (refTable b n w) "reference widths differ"
      else if a.uniqueName = b.uniqueName then .ok (refTable a m v)
      else known (merge a) a b >>= (refTableOf · m v)
  | bitField a, bitField b =>
      if a.name ≠ b.name ∨ a.total ≠ b.total then
        conflict (bitField a) (bitField b) "names or word widths differ"
      else if a.fields ≠ b.fields then conflict (bitField a) (bitField b) "field layouts differ"
      else .ok (bitField a)
  | bitTable a, bitTable b =>
      if a = b then .ok (bitTable a)
      else conflict (bitTable a) (bitTable b) "field lists differ"
  | enum a, enum b =>
      if a = b then .ok (enum a) else conflict (enum a) (enum b) "enum members differ"
  | struct ⟨name, members, align, size, constants, enums⟩, struct other =>
      let record : Record Ty := ⟨name, members, align, size, constants, enums⟩
      if name ≠ other.name then conflict (struct record) (struct other) "names differ"
      else if size ≠ other.size then
        conflict (struct record) (struct other) "one is finalized, or the sizes differ"
      else if members.map (·.name) ≠ other.members.map (·.name) then
        conflict (struct record) (struct other) "member lists differ"
      else
        (mergeMembers members other.members).map fun merged =>
          struct ⟨name, merged, align, size, constants, enums⟩
  | a, b => conflict a b "different kinds of type"

/-- Merge members pairwise; the first conflict in order is reported. -/
def mergeMembers : List (Member Ty) → List (Member Ty) → Except LayoutError (List (Member Ty))
  | ⟨name, offset, a, isPadding⟩ :: rest, b :: others => do
      let type ← unlessSame (merge a) a b.content
      return ⟨name, offset, type, isPadding⟩ :: (← mergeMembers rest others)
  | _, _ => .ok []

end

/-- The common type of two types of which either may be unknown. -/
def mergeKnown (a b : Ty) : Except LayoutError Ty :=
  known a.merge a b

end BinaryLayout.Ty
