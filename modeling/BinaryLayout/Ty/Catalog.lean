import BinaryLayout.Ty.Contained
import BinaryLayout.Ty.Merge

/-!
# Catalogs of types

A catalog holds one type for every unique name, in the order in which the names were
first seen. Adding a type whose name is taken merges it into the entry; a type that
cannot be merged leaves the catalog as it was.
-/

namespace BinaryLayout

/-- Types by unique name. -/
structure Catalog where
  entries : List (String × Ty)
  deriving DecidableEq

namespace Catalog

/-- The catalog without types. -/
def empty : Catalog := ⟨[]⟩

/-- The unique names in order. -/
def names (catalog : Catalog) : List String :=
  catalog.entries.map (·.1)

/-- The type entered under a unique name. -/
def get? (catalog : Catalog) (name : String) : Option Ty :=
  (catalog.entries.find? (·.1 = name)).map (·.2)

/-- A unique name has an entry. -/
def contains (catalog : Catalog) (name : String) : Bool :=
  catalog.entries.any (·.1 = name)

/-- Replace the type entered under a unique name. -/
def replace (catalog : Catalog) (name : String) (type : Ty) : Catalog :=
  ⟨catalog.entries.map fun entry => if entry.1 = name then (name, type) else entry⟩

/-- Add a type, or merge it into the entry of its unique name. -/
def insert (catalog : Catalog) (type : Ty) : Except LayoutError Catalog :=
  let name := type.uniqueName
  match catalog.get? name with
  | some entered => (entered.merge type).map (catalog.replace name)
  | none => .ok ⟨catalog.entries ++ [(name, type)]⟩

/-- Add types one after another. -/
def insertAll (catalog : Catalog) (types : List Ty) : Except LayoutError Catalog :=
  types.foldlM insert catalog

/-- Every type within some roots, children before parents. -/
def collect (roots : List Ty) : Except LayoutError Catalog :=
  empty.insertAll (roots.flatMap Ty.tree)

end Catalog
end BinaryLayout
