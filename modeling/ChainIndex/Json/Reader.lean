import ChainIndex.Json.Basic

/-!
# Reading JSON

The reader is an automaton that takes one byte at a time.  Its state is what is
expected next, together with the arrays and objects still open, innermost first.
A document is accepted when the bytes run out where a document is complete.

The stack of open containers is part of the state, so nesting may be of any
depth.
-/

namespace ChainIndex

namespace Json

namespace Reader

def isBlank (b : UInt8) : Bool :=
  b = 32 || b = 9 || b = 10 || b = 13

/-!
# Lexemes
-/

inductive InText where
  | plain
  | escape
  | codeUnit (missing : Nat)
deriving DecidableEq

def InText.next (b : UInt8) : InText → Option InText
  | .plain => if b = 92 then some .escape else if b < 32 then none else some .plain
  | .escape =>
      if b = 117 then some (.codeUnit 4)
      else if (Quoted.unescape? b).isSome then some .plain
      else none
  | .codeUnit missing =>
      if (Numeral.hexDigit? b).isSome then
        if missing ≤ 1 then some .plain else some (.codeUnit (missing - 1))
      else none

inductive InNumber where
  | sign
  | zero
  | whole
  | point
  | fraction
  | exponent
  | exponentSign
  | power
deriving DecidableEq

def InNumber.isComplete : InNumber → Bool
  | .zero | .whole | .fraction | .power => true
  | .sign | .point | .exponent | .exponentSign => false

def isDigit (b : UInt8) : Bool :=
  48 ≤ b && b ≤ 57

def InNumber.begin (b : UInt8) : Option InNumber :=
  if b = 45 then some .sign
  else if b = 48 then some .zero
  else if isDigit b then some .whole
  else none

def InNumber.continued (b : UInt8) (pointAllowed : Bool) : Option InNumber :=
  if pointAllowed && b = 46 then some .point
  else if b = 101 || b = 69 then some .exponent
  else none

def InNumber.next (b : UInt8) : InNumber → Option InNumber
  | .sign => if b = 48 then some .zero else if isDigit b then some .whole else none
  | .zero => InNumber.continued b true
  | .whole => if isDigit b then some .whole else InNumber.continued b true
  | .point => if isDigit b then some .fraction else none
  | .fraction => if isDigit b then some .fraction else InNumber.continued b false
  | .exponent =>
      if b = 43 || b = 45 then some .exponentSign else if isDigit b then some .power else none
  | .exponentSign => if isDigit b then some .power else none
  | .power => if isDigit b then some .power else none

/-!
# States

Items, members and the bytes of a lexeme are collected newest first.
-/

inductive Open where
  | array (items : List Json)
  | object (members : List (Bytes × Json)) (key : Bytes)

inductive Mode where
  /-- A value has to begin. -/
  | value
  /-- A value has to begin, or the array just opened ends. -/
  | firstItem
  /-- A key has to begin, or, before the first, the object ends. -/
  | key (members : List (Bytes × Json)) (first : Bool)
  | keyText (members : List (Bytes × Json)) (place : InText) (lexeme : Bytes)
  | colon (members : List (Bytes × Json)) (key : Bytes)
  | text (place : InText) (lexeme : Bytes)
  | number (place : InNumber) (lexeme : Bytes)
  | word (rest : Bytes) (value : Json)
  /-- A value is complete. -/
  | complete (value : Json)

structure State where
  mode : Mode
  stack : List Open

/-!
# Steps
-/

def beginValue (stack : List Open) (b : UInt8) : Option State :=
  if b = 34 then some ⟨.text .plain [], stack⟩
  else if b = 91 then some ⟨.firstItem, .array [] :: stack⟩
  else if b = 123 then some ⟨.key [] true, stack⟩
  else if b = 116 then some ⟨.word (Bytes.ofText "rue") (.bool true), stack⟩
  else if b = 102 then some ⟨.word (Bytes.ofText "alse") (.bool false), stack⟩
  else if b = 110 then some ⟨.word (Bytes.ofText "ull") .null, stack⟩
  else (InNumber.begin b).map fun place => ⟨.number place [b], stack⟩

def afterValue (value : Json) (stack : List Open) (b : UInt8) : Option State :=
  if isBlank b then some ⟨.complete value, stack⟩
  else
    match stack with
    | [] => none
    | .array items :: outer =>
        if b = 44 then some ⟨.value, .array (value :: items) :: outer⟩
        else if b = 93 then some ⟨.complete (.array (value :: items).reverse), outer⟩
        else none
    | .object members key :: outer =>
        if b = 44 then some ⟨.key ((key, value) :: members) false, outer⟩
        else if b = 125 then
          some ⟨.complete (.object ((key, value) :: members).reverse), outer⟩
        else none

def step (state : State) (b : UInt8) : Option State :=
  match state with
  | ⟨.value, stack⟩ => if isBlank b then some ⟨.value, stack⟩ else beginValue stack b
  | ⟨.firstItem, stack⟩ =>
      if isBlank b then some ⟨.firstItem, stack⟩
      else if b = 93 then some ⟨.complete (.array []), stack.tail⟩
      else beginValue stack b
  | ⟨.key members first, stack⟩ =>
      if isBlank b then some ⟨.key members first, stack⟩
      else if b = 34 then some ⟨.keyText members .plain [], stack⟩
      else if first && b = 125 then some ⟨.complete (.object []), stack⟩
      else none
  | ⟨.keyText members place lexeme, stack⟩ =>
      if place = .plain ∧ b = 34 then some ⟨.colon members lexeme.reverse, stack⟩
      else (place.next b).map fun place => ⟨.keyText members place (b :: lexeme), stack⟩
  | ⟨.colon members key, stack⟩ =>
      if isBlank b then some ⟨.colon members key, stack⟩
      else if b = 58 then some ⟨.value, .object members key :: stack⟩
      else none
  | ⟨.text place lexeme, stack⟩ =>
      if place = .plain ∧ b = 34 then some ⟨.complete (.text lexeme.reverse), stack⟩
      else (place.next b).map fun place => ⟨.text place (b :: lexeme), stack⟩
  | ⟨.number place lexeme, stack⟩ =>
      match place.next b with
      | some place => some ⟨.number place (b :: lexeme), stack⟩
      | none =>
          if place.isComplete then afterValue (.number lexeme.reverse) stack b else none
  | ⟨.word [] value, stack⟩ => afterValue value stack b
  | ⟨.word (c :: rest) value, stack⟩ =>
      if b = c then some ⟨.word rest value, stack⟩ else none
  | ⟨.complete value, stack⟩ => afterValue value stack b

def result? : State → Option Json
  | ⟨.complete value, []⟩ => some value
  | ⟨.number place lexeme, []⟩ => if place.isComplete then some (.number lexeme.reverse) else none
  | ⟨.word [] value, []⟩ => some value
  | _ => none

def feed (state : State) : Bytes → Option State
  | [] => some state
  | b :: rest => (step state b).bind fun next => feed next rest

@[simp] theorem feed_nil (state : State) : feed state [] = some state := rfl

theorem feed_cons (state : State) (b : UInt8) (rest : Bytes) :
    feed state (b :: rest) = (step state b).bind fun next => feed next rest := rfl

end Reader

def read? (bytes : Bytes) : Option Json :=
  (Reader.feed ⟨.value, []⟩ bytes).bind Reader.result?

end Json

end ChainIndex
