import BlockC.Symbol.Lookup
import BlockC.Text.Blank

/-! # C declarators

How C writes a name of a given type.  Qualifiers are laid around the name from the outermost one on:
a pointer or a slice is a star before it, an array is a size behind it, and parentheses keep a star
inside an array.  Stars that end up in front move to the base type.
-/
namespace BlockC
namespace Code

/-- Lays a qualifier around what is declared. -/
def qualify (declared : List Char) : Qualifier → List Char
  | .pointer | .slice => '*' :: declared
  | .array size =>
    let bounds := "[".toList ++ (Numeral.decimal size.toNat).toList ++ "]".toList
    match declared with
    | '*' :: _ => '(' :: declared ++ ')' :: bounds
    | _ => declared ++ bounds

/-- The base type with the leading stars of what is declared, then the rest of it. -/
def afterBase (base : String) (declared : List Char) : String :=
  String.ofList (Text.trimEnd
    (base.toList ++ declared.takeWhile (· == '*') ++ ' ' :: declared.dropWhile (· == '*')))

/-- The parameters of a function in parentheses. -/
def parameterList (params : List String) : String :=
  "(" ++ Text.joined "," params ++ ")"

mutual

/-- The declarator of a name of the given type.  An empty name leaves the type alone. -/
def declarator (t : Table) : Typing → String → Except Cause String
  | .ref symbol qualifiers, name => do
    let base := (← t.get symbol).name
    return afterBase base (qualifiers.foldl qualify name.toList)
  | .signature params returns variadic, name => do
    let params ← abstractDeclarators t params
    let params := if variadic then params ++ ["..."] else params
    declarator t returns ("(*" ++ name ++ ")" ++ parameterList params)

/-- The types alone, as they stand in a parameter list. -/
def abstractDeclarators (t : Table) : List Typing → Except Cause (List String)
  | [] => .ok []
  | typing :: rest => do
    let first ← declarator t typing ""
    return first :: (← abstractDeclarators t rest)

end

/-- The head of a function: its name and parameters inside the declarator of what it returns. -/
def functionHead (t : Table) (returns : Typing) (name : String) (params : List String) :
    Except Cause String :=
  declarator t returns (name ++ parameterList params)

end Code
end BlockC
