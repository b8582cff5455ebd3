import HeaderForge.Bytes
/-!
# Quoted text

How text is escaped inside JSON strings, and how code points named by escapes become bytes.
-/

namespace HeaderForge

namespace Quoted

/-- One byte of a JSON string: quotes, backslashes and control bytes are escaped. -/
def escapeByte (b : UInt8) : Bytes :=
  if b == byte '\\' then bytes "\\\\"
  else if b == byte '"' then bytes "\\\""
  else if b == byte '\n' then bytes "\\n"
  else if b == byte '\r' then bytes "\\r"
  else if b == byte '\t' then bytes "\\t"
  else if b < 0x20 then bytes "\\u00" ++ hexText 2 b.toNat
  else [b]

def escape (t : Bytes) : Bytes := t.flatMap escapeByte

/-- A JSON string, quotes included. -/
def quote (t : Bytes) : Bytes := byte '"' :: escape t ++ [byte '"']

/-- A code point in UTF-8 form. A surrogate is encoded like any other code unit. -/
def utf8 (code : Nat) : Bytes :=
  if code < 0x80 then [code.toUInt8]
  else if code < 0x800 then [(0xC0 + code / 0x40).toUInt8, (0x80 + code % 0x40).toUInt8]
  else if code < 0x10000 then
    [(0xE0 + code / 0x1000).toUInt8, (0x80 + code / 0x40 % 0x40).toUInt8,
      (0x80 + code % 0x40).toUInt8]
  else
    [(0xF0 + code / 0x40000).toUInt8, (0x80 + code / 0x1000 % 0x40).toUInt8,
      (0x80 + code / 0x40 % 0x40).toUInt8, (0x80 + code % 0x40).toUInt8]

/-- The code unit that four hexadecimal digits name. -/
def hex4? (d₃ d₂ d₁ d₀ : UInt8) : Option Nat :=
  match Byte.hexValue? d₃, Byte.hexValue? d₂, Byte.hexValue? d₁, Byte.hexValue? d₀ with
  | some a, some b, some c, some d => some (((a * 16 + b) * 16 + c) * 16 + d)
  | _, _, _, _ => none

def isHighSurrogate (unit : Nat) : Bool := 0xD800 ≤ unit && unit ≤ 0xDBFF
def isLowSurrogate (unit : Nat) : Bool := 0xDC00 ≤ unit && unit ≤ 0xDFFF

/-- The code point of a pair of surrogates. -/
def pairCode (high low : Nat) : Nat := 0x10000 + (high - 0xD800) * 0x400 + (low - 0xDC00)

end Quoted

end HeaderForge
