/-! # Text in messages

How truth values, numbers and lists are written in messages.
-/

namespace CallSchema

def boolText : Bool → String
  | true => "True"
  | false => "False"

def intText (i : Int) : String :=
  (if i < 0 then "-" else "") ++ String.ofList (Nat.toDigits 10 i.natAbs)

def commaSeparated (items : List String) : String :=
  ", ".intercalate items

end CallSchema
