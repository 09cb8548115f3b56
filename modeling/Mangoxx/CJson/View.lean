import Mangoxx.CJson.Defs
import Mangoxx.Lib.Json

namespace Mangoxx.CJson

open Lib.Json

variable {D : Type}

abbrev View (D : Type) := Value (Int × D) (Option Text)

mutual

def view : Item D → View D
  | ⟨child, type, valuestring, valueint, valuedouble, _⟩ =>
    match type with
    | .null => .null
    | .false => .bool false
    | .true => .bool true
    | .number => .num (valueint, valuedouble)
    | .string => .str valuestring
    | .array => .arr (viewElements child)
    | .object => .obj (viewMembers child)

def viewElements : List (Item D) → List (View D)
  | [] => []
  | c :: child => view c :: viewElements child

def viewMembers : List (Item D) → List (Option Text × View D)
  | [] => []
  | c :: child => (c.string, view c) :: viewMembers child

end

end Mangoxx.CJson
