import ChainIndex.Json.Quoted

/-!
# JSON documents

A document is a tree whose leaves keep their lexemes: a number the bytes it was
written with, a text the bytes between its quotation marks.  What a leaf means
is asked of the leaf, so a document may hold numbers of any size and texts that
spell nothing, as long as nobody reads them.

Members of an object keep the order in which they were written and may repeat.
-/

namespace ChainIndex

inductive Json where
  | null
  | bool (value : Bool)
  | number (lexeme : Bytes)
  | text (lexeme : Bytes)
  | array (items : List Json)
  | object (members : List (Bytes × Json))

namespace Json

instance : Inhabited Json := ⟨.null⟩

/-!
# Values as documents
-/

def ofText (text : String) : Json :=
  .text (Quoted.ofText text)

def ofNat (n : Nat) : Json :=
  .number (Numeral.decimal n)

def ofWord (n : UInt64) : Json :=
  ofNat n.toNat

def ofInt (z : Int) : Json :=
  .number (Numeral.signed z)

def ofTexts (texts : List String) : Json :=
  .array (texts.map ofText)

def ofOption (f : α → Json) : Option α → Json
  | none => .null
  | some a => f a

def ofMembers (members : List (String × Json)) : Json :=
  .object (members.map fun m => (Quoted.ofText m.1, m.2))

/-!
# Documents as values

Integers are read from numbers without fraction, exponent, or redundant sign:
a minus sign before a zero does not denote an integer.
-/

def text? : Json → Option String
  | .text lexeme => Quoted.spell? lexeme
  | _ => none

def bool? : Json → Option Bool
  | .bool value => some value
  | _ => none

def integer? : Json → Option Int
  | .number lexeme =>
      if lexeme = [45, 48] then none else Numeral.integer? lexeme
  | _ => none

def natural? (json : Json) : Option Nat :=
  json.integer?.bind Int.toNat?

def word? (json : Json) : Option UInt64 :=
  json.natural?.bind Numeral.word?

def signedWord? (json : Json) : Option Int64 :=
  json.integer?.bind Numeral.signedWord?

def byte? (json : Json) : Option UInt8 :=
  json.natural?.bind fun n => if n < 256 then some n.toUInt8 else none

def optional? (read : Json → Option α) : Json → Option (Option α)
  | .null => some none
  | json => (read json).map some

def items? (read : Json → Option α) : Json → Option (List α)
  | .array items => items.mapM read
  | _ => none

/-!
# Records and variants

A record is an object, whose unknown members are passed over, or an array of
its fields in order, which may leave out fields at its end.  Either way the
reader gets one slot per field, empty where the field is absent.
-/

/-- The value of the last member with the given name. -/
def member? (name : String) : Json → Option Json
  | .object members =>
      (members.reverse.find? fun m => Quoted.spell? m.1 = some name).map (·.2)
  | _ => none

/-- No name of the record is given twice, and every name that is given is text. -/
def distinctNames (names : List String) (members : List (Bytes × Json)) : Bool :=
  members.all (fun m => (Quoted.spell? m.1).isSome) &&
    names.all fun name => (members.countP fun m => Quoted.spell? m.1 = some name) ≤ 1

def slots? (names : List String) : Json → Option (List (Option Json))
  | .object members =>
      if distinctNames names members then
        some (names.map fun name => (Json.object members).member? name)
      else none
  | .array items =>
      if items.length ≤ names.length then
        some (items.map some ++ List.replicate (names.length - items.length) none)
      else none
  | _ => none

/-- The variant's name, bare or as the only member of an object over a null. -/
def variant? : Json → Option String
  | .text lexeme => Quoted.spell? lexeme
  | .object [(lexeme, .null)] => Quoted.spell? lexeme
  | _ => none

/-- Text by text: among members of one name the last one counts. -/
def texts? : Json → Option (List (String × String))
  | .object members =>
      members.mapM fun m => do
        let name ← Quoted.spell? m.1
        let value ← m.2.text?
        return (name, value)
  | _ => none

/-!
# Settled documents

Where a document has been taken into a map, of the members that share a name
only the last one is left, in nested objects too.
-/

def keepLast (members : List (Bytes × Json)) : List (Bytes × Json) :=
  members.foldr
    (fun m kept =>
      if kept.any fun k => Quoted.spell? k.1 = Quoted.spell? m.1 then kept else m :: kept) []

mutual

def settled : Json → Json
  | .array items => .array (settledItems items)
  | .object members => .object (keepLast (settledMembers members))
  | .null => .null
  | .bool value => .bool value
  | .number lexeme => .number lexeme
  | .text lexeme => .text lexeme

def settledItems : List Json → List Json
  | [] => []
  | item :: rest => settled item :: settledItems rest

def settledMembers : List (Bytes × Json) → List (Bytes × Json)
  | [] => []
  | (key, value) :: rest => (key, settled value) :: settledMembers rest

end

end Json

end ChainIndex
