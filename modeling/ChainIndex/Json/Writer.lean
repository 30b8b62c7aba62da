import ChainIndex.Json.Basic

/-!
# Writing JSON

The written form has no blanks: members and items are separated by commas, keys
and values by colons, in the order in which the document holds them.
-/

namespace ChainIndex

namespace Json

def between (opening closing : UInt8) (parts : List Bytes) : Bytes :=
  opening :: (List.intercalate [44] parts ++ [closing])

def quote (lexeme : Bytes) : Bytes :=
  34 :: (lexeme ++ [34])

mutual

def write : Json → Bytes
  | .null => Bytes.ofText "null"
  | .bool true => Bytes.ofText "true"
  | .bool false => Bytes.ofText "false"
  | .number lexeme => lexeme
  | .text lexeme => quote lexeme
  | .array items => between 91 93 (writeItems items)
  | .object members => between 123 125 (writeMembers members)

def writeItems : List Json → List Bytes
  | [] => []
  | item :: rest => write item :: writeItems rest

def writeMembers : List (Bytes × Json) → List Bytes
  | [] => []
  | (key, value) :: rest => (quote key ++ 58 :: write value) :: writeMembers rest

end

end Json

end ChainIndex
