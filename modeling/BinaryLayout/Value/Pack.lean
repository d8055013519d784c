import BinaryLayout.Blocks
import BinaryLayout.Record.Draft

/-!
# Packing values

A value is packed at an offset: the distance from the start of the record that
resolves its references to the next free byte. References of a struct and of a
reference table resolve against that struct or table; every other part resolves
against its own start. What a reference points to is packed as a document of its own
and aligned to its type. The program stops at a distance that is no 64-bit word.
-/

namespace BinaryLayout.Value

/-- The free byte at `running`, counted from `position` instead of the start. -/
def rebase (running position : Nat) : Except LayoutError Nat :=
  if position ≤ running then .ok (running - position) else .error .overflow

/-- A value on its own: packed behind its own bytes, both blocks in one. -/
def packWhole (value : Value) (packAt : Nat → Except LayoutError Blocks) :
    Except LayoutError Blocks := do
  let size ← value.size
  if value.isRef then .error .unresolvedReference
  else return (← packAt size).combine

/-- A reference to a target that is placed at the next multiple of its alignment. The
    target is packed before the offset is judged. -/
def resolve (width : RefWidth) (align offset : Nat) (target : Except LayoutError Blocks) :
    Except LayoutError Blocks := do
  let padding := gap offset align
  let start ← checked .overflow (offset + padding)
  let data ← target
  let stored ← width.kind.encode start
  return ⟨⟨stored, false⟩, ⟨List.replicate padding 0 ++ data.bytes, data.endsInBits⟩⟩

mutual

/-- The blocks of a value at an offset. -/
def packAt : Value → (offset : Nat) → Except LayoutError Blocks
  | int integer, _ => .ok (.ofBytes integer.bytes)
  | char byte, _ => .ok (.ofBytes [byte])
  | null, _ => .ok ⟨.empty, .empty⟩
  | ref target width, offset =>
      resolve width target.type.align offset (packWhole target (packAt target))
  | nullRef _ width, _ => .ok (.ofBytes (width.kind.store 0))
  | array element fixed align items, offset => do
      let parts ← packItems items 0 offset
      let size ← (array element fixed align items).size
      return (Blocks.join parts).fill size
  | text content, _ => .ok ((Blocks.ofBytes content.bytes).fill (content.fixed.getD 0))
  | blob fixed _ content, _ => .ok ((Blocks.ofBits content.bytes).fill (fixed.getD 0))
  | refTable target fixed width items, offset => do
      let parts ← packEntries width items offset
      let size ← (refTable target fixed width items).size
      return (Blocks.join parts).fill size
  | bitField field, _ => field.bytes.map Blocks.ofBytes
  | bitTable table, _ => table.bytes.map Blocks.ofBits
  | enum chosen, _ => .ok (.ofBytes chosen.bytes)
  | struct ⟨_, members, _, size, _, _⟩, offset => do
      let parts ← packMembers members 0 offset
      let size ← match size with
        | some size => .ok size
        | none => membersSize 0 members
      return (Blocks.join parts).fill size

/-- Items of an array, each resolving against its own place. -/
def packItems : List Value → (position running : Nat) → Except LayoutError (List Blocks)
  | [], _, _ => .ok []
  | item :: rest, position, running => do
      let part ← packAt item (← rebase running position)
      let running ← checked .overflow (running + part.referred.bytes.length)
      let parts ← packItems rest (position + part.inPlace.bytes.length) running
      return part :: parts

/-- Entries of a reference table, all resolving against the table. -/
def packEntries (width : RefWidth) : List Value → (running : Nat) → Except LayoutError (List Blocks)
  | [], _ => .ok []
  | item :: rest, running => do
      let part ←
        if item.isNull then .ok (.ofBytes (width.kind.store 0))
        else resolve width item.type.align running (packWhole item (packAt item))
      let running ← checked .overflow (running + part.referred.bytes.length)
      let parts ← packEntries width rest running
      return part :: parts

/-- Members of a struct: references resolve against it, the others against their own
    place. -/
def packMembers : List (Member Value) → (position running : Nat) →
    Except LayoutError (List Blocks)
  | [], _, _ => .ok []
  | ⟨_, _, value, _⟩ :: rest, position, running => do
      let part ← packAt value (← if value.isRef then .ok running else rebase running position)
      let running ← checked .overflow (running + part.referred.bytes.length)
      let parts ← packMembers rest (position + part.inPlace.bytes.length) running
      return part :: parts

end

/-- Pack a value at an offset not below its size, or on its own. -/
def pack (value : Value) (offset : Option Nat) : Except LayoutError Blocks := do
  match offset with
  | none => packWhole value value.packAt
  | some offset =>
      let size ← value.size
      if offset < size then .error (.valueRange (toString offset) "data offset")
      else value.packAt offset

end BinaryLayout.Value
