import TieredStore.Text.Digits

/-!
# JSON

Reports for programs are JSON values, printed with one entry a line and two
spaces for each level.  The fields of an object are printed in the order in
which they are listed.
-/

namespace TieredStore
namespace Text

/-- A JSON value; numbers are natural. -/
inductive Json
  | bool (value : Bool)
  | number (value : Nat)
  | string (value : String)
  | array (items : List Json)
  | object (fields : List (String × Json))

namespace Json

def escapeChar (c : Char) : String :=
  if c = '"' then "\\\""
  else if c = '\\' then "\\\\"
  else if c.toNat = 8 then "\\b"
  else if c.toNat = 9 then "\\t"
  else if c.toNat = 10 then "\\n"
  else if c.toNat = 12 then "\\f"
  else if c.toNat = 13 then "\\r"
  else if c.toNat < 32 then "\\u" ++ hex 4 c.toNat
  else c.toString

def quote (text : String) : String :=
  "\"" ++ String.join (text.toList.map escapeChar) ++ "\""

def indent (level : Nat) : String := String.ofList (List.replicate (2 * level) ' ')

def enclose (level : Nat) (left right : String) (entries : List String) : String :=
  if entries.isEmpty then left ++ right
  else
    left ++ "\n" ++ ",\n".intercalate (entries.map (indent (level + 1) ++ ·)) ++
      "\n" ++ indent level ++ right

mutual

def printAt (level : Nat) : Json → String
  | bool value => if value then "true" else "false"
  | number value => toString value
  | string value => quote value
  | array items => enclose level "[" "]" (printItems (level + 1) items)
  | object fields => enclose level "\x7b" "\x7d" (printFields (level + 1) fields)

def printItems (level : Nat) : List Json → List String
  | [] => []
  | item :: rest => printAt level item :: printItems level rest

def printFields (level : Nat) : List (String × Json) → List String
  | [] => []
  | (key, value) :: rest => (quote key ++ ": " ++ printAt level value) :: printFields level rest

end

def print (value : Json) : String := printAt 0 value

def optional (key : String) (value : Option Nat) : List (String × Json) :=
  (value.map fun n => (key, number n)).toList

end Json
end Text
end TieredStore
