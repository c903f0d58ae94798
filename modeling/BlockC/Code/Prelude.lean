import BlockC.Symbol.Table
import BlockC.Text.Join

/-! # The prelude

Definitions that let the emitted code stand alone: the headers it needs, and the built-in types in
terms of those of C.
-/
namespace BlockC
namespace Code

/-- The C type that a built-in type stands for; none if a header defines the name. -/
def cType? : String → Option String
  | "i8" => some "int8_t"
  | "u8" => some "uint8_t"
  | "i16" => some "int16_t"
  | "u16" => some "uint16_t"
  | "i32" => some "int32_t"
  | "u32" => some "uint32_t"
  | "i64" => some "int64_t"
  | "u64" => some "uint64_t"
  | "f32" => some "float"
  | "f64" => some "double"
  | "string" => some "char*"
  | _ => none

/-- The headers that the code needs. -/
def headers : List String :=
  ["stdbool.h", "stddef.h", "stdint.h"]

/-- The line that defines a built-in type; empty if a header does. -/
def typedef (name : String) : String :=
  match cType? name with
  | some type => "typedef " ++ type ++ " " ++ name ++ ";\n"
  | none => ""

/-- The text of the prelude. -/
def prelude : String :=
  Text.joined "" (headers.map fun header => "#include <" ++ header ++ ">\n") ++
    Text.joined "" (builtinNames.map typedef)

end Code
end BlockC
