import HeaderForge.Bytes
/-!
# Number lexemes

The number grammar of JSON: an optional minus, an integer part without a leading zero, an optional
fraction and an optional exponent.
-/

namespace HeaderForge

namespace Number

/-- Consumes one or more digits. -/
def digits? (t : Bytes) : Option Bytes :=
  match t with
  | [] => none
  | b :: _ => if Byte.isDigit b then some (t.dropWhile Byte.isDigit) else none

/-- Consumes the integer part: a zero that no digit follows, or digits that start otherwise. -/
def integer? (t : Bytes) : Option Bytes :=
  match t with
  | z :: b :: _ => if z == byte '0' && Byte.isDigit b then none else digits? t
  | _ => digits? t

/-- Consumes a fraction when a point starts one. -/
def fraction? (t : Bytes) : Option Bytes :=
  match t with
  | b :: rest => if b == byte '.' then digits? rest else some t
  | [] => some []

def dropSign (t : Bytes) : Bytes :=
  match t with
  | b :: rest => if b == byte '+' || b == byte '-' then rest else t
  | [] => []

/-- Consumes an exponent when its letter starts one. -/
def exponent? (t : Bytes) : Option Bytes :=
  match t with
  | b :: rest => if b == byte 'e' || b == byte 'E' then digits? (dropSign rest) else some t
  | [] => some []

def dropMinus (t : Bytes) : Bytes :=
  match t with
  | b :: rest => if b == byte '-' then rest else t
  | [] => []

/-- Whether a text is a number and nothing else. -/
def isLexeme (t : Bytes) : Bool :=
  ((integer? (dropMinus t)).bind fraction?).bind exponent? == some []

end Number

end HeaderForge
