import BinaryLayout.Ty.Basic

/-!
# Types within types

`contained` lists the types that one type stores or refers to directly. `tree` lists
all of them at every depth, children before their parents and the type itself last.
An unknown target of a reference is not listed.
-/

namespace BinaryLayout.Ty

/-- The types a type stores or refers to directly. -/
def contained : Ty → List Ty
  | ref target _ => if target.isNull then [] else [target]
  | array element _ _ => [element]
  | refTable target _ _ => if target.isNull then [] else [target]
  | bitField type => type.fields.filterMap fun field =>
      match field.kind with
      | .enum enumeration => some (enum enumeration)
      | _ => none
  | enum type => [ofStorage type.storage]
  | struct record => record.members.map (·.content) ++ record.enums.map enum
  | int _ => []
  | char => []
  | null => []
  | bitTable _ => []

/-- The tree of an enumeration: its storage, then the enumeration. -/
def enumTree (type : Enumeration) : List Ty :=
  [ofStorage type.storage, enum type]

/-- The trees of the enumerations that a bit field uses. -/
def fieldTrees (type : BitFieldType) : List Ty :=
  type.fields.flatMap fun field =>
    match field.kind with
    | .enum enumeration => enumTree enumeration
    | _ => []

mutual

/-- Every type within a type, children first. -/
def tree : Ty → List Ty
  | ref target width =>
      (if target.isNull then [] else tree target) ++ [ref target width]
  | array element fixed align => tree element ++ [array element fixed align]
  | refTable target fixed width =>
      (if target.isNull then [] else tree target) ++ [refTable target fixed width]
  | bitField type => fieldTrees type ++ [bitField type]
  | enum type => enumTree type
  | struct ⟨name, members, align, size, constants, enums⟩ =>
      memberTrees members ++ enums.flatMap enumTree
        ++ [struct ⟨name, members, align, size, constants, enums⟩]
  | int kind => [int kind]
  | char => [char]
  | null => [null]
  | bitTable type => [bitTable type]

/-- Every type within the members of a struct. -/
def memberTrees : List (Member Ty) → List Ty
  | [] => []
  | ⟨_, _, type, _⟩ :: rest => tree type ++ memberTrees rest

end

end BinaryLayout.Ty
