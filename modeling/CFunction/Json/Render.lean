import CFunction.Json.Print

/-!
# The text of an item

What a printed item is as a text, without the buffer it is written to.
-/

namespace CFunction
namespace Json

open CString

variable {ν : Type}

/-- A string in quotes. -/
def renderString (s : Bytes) : Bytes :=
  ascii '"' :: s.flatMap (fun c => (escape c).1) ++ [ascii '"']

def tabs (depth : Nat) : Bytes := List.replicate depth (ascii '\t')

/-- Bytes of the formatted text only. -/
def formatted (format : Bool) (bytes : Bytes) : Bytes := if format then bytes else []

mutual

def render (D : Doubles ν) (format : Bool) (depth : Nat) : Item ν → Bytes
  | .null => text "null"
  | .bool valueint => if valueint then text "true" else text "false"
  | .int valueint => sprintfLld valueint
  | .number valuedouble => sprintfDouble D valuedouble
  | .raw valuestring => valuestring.val
  | .string valuestring => renderString valuestring.val
  | .array child => ascii '[' :: renderElements D format (depth + 1) child ++ [ascii ']']
  | .object child =>
    ascii '\x7b' :: formatted format [ascii '\n'] ++ renderMembers D format (depth + 1) child ++
      formatted format (tabs depth) ++ [ascii '\x7d']

def renderElements (D : Doubles ν) (format : Bool) (depth : Nat) : List (Item ν) → Bytes
  | [] => []
  | item :: rest =>
    render D format depth item ++
      (if rest.isEmpty then [] else ascii ',' :: formatted format [ascii ' ']) ++
      renderElements D format depth rest

def renderMembers (D : Doubles ν) (format : Bool) (depth : Nat) : List (Str × Item ν) → Bytes
  | [] => []
  | (name, item) :: rest =>
    formatted format (tabs depth) ++ renderString name.val ++
      ascii ':' :: formatted format [ascii '\t'] ++ render D format depth item ++
      (if rest.isEmpty then [] else [ascii ',']) ++ formatted format [ascii '\n'] ++
      renderMembers D format depth rest

end

end Json
end CFunction
