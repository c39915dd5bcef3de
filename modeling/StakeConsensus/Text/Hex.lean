import StakeConsensus.Bytes.Fixed
import StakeConsensus.Text.Quote

/-!
# Hexadecimal text

Two digits per byte, high half first. Writing uses lower case and reading takes
either. Reading works on the UTF-8 bytes of the text: an odd number of them is
reported before any bad digit, and the first bad digit by its byte position.
-/

namespace StakeConsensus

/-- Why a text is not the hexadecimal form of a byte string. -/
inductive HexError where
  | oddLength
  | badDigit (byte : UInt8) (position : Nat)
  | wrongLength
deriving DecidableEq

namespace HexError

/-- The offending byte is shown as the character of its own number. -/
def message : HexError → String
  | oddLength => "Odd number of digits"
  | badDigit b i =>
    "Invalid character " ++ Quote.char (Char.ofNat b.toNat) ++ " at position " ++ toString i
  | wrongLength => "Invalid string length"

end HexError

namespace Hex

def digit (n : Nat) : Char :=
  if n < 10 then Char.ofNat (48 + n) else Char.ofNat (87 + n)

def digits (b : UInt8) : List Char := [digit (b.toNat / 16), digit (b.toNat % 16)]

def encode (bs : Bytes) : String := String.ofList (bs.flatMap digits)

/-- The value of an ASCII hexadecimal digit of either case. -/
def value? (b : UInt8) : Option UInt8 :=
  if 48 ≤ b && b ≤ 57 then some (b - 48)
  else if 97 ≤ b && b ≤ 102 then some (b - 87)
  else if 65 ≤ b && b ≤ 70 then some (b - 55)
  else none

/-- Pairs of digits, the first of them at `position`. -/
def decodeFrom (position : Nat) : Bytes → Except HexError Bytes
  | hi :: lo :: rest =>
    match value? hi, value? lo with
    | none, _ => .error (.badDigit hi position)
    | some _, none => .error (.badDigit lo (position + 1))
    | some h, some l => (decodeFrom (position + 2) rest).map ((h * 16 + l) :: ·)
  | _ => .ok []

def decodeBytes (text : Bytes) : Except HexError Bytes :=
  if text.length % 2 = 1 then .error .oddLength else decodeFrom 0 text

def decode (s : String) : Except HexError Bytes := decodeBytes s.toUTF8.toList

/-- The text of exactly `n` bytes. -/
def decodeFixed (n : Nat) (s : String) : Except HexError (FixedBytes n) :=
  match decode s with
  | .error e => .error e
  | .ok bs =>
    match FixedBytes.ofList? bs with
    | some a => .ok a
    | none => .error .wrongLength

end Hex

namespace FixedBytes

variable {n : Nat}

def toHex (a : FixedBytes n) : String := Hex.encode a.toList

/-- The full text, marked as hexadecimal. -/
def display (a : FixedBytes n) : String := "0x" ++ a.toHex

end FixedBytes

namespace Digest

/-- The first six bytes, enough to recognise a hash in a message. -/
def short (h : Digest) : String := Hex.encode (h.toList.take 6)

def inspect (h : Digest) : String := "Hash(" ++ h.short ++ ")"

end Digest

namespace Address

def inspect (a : Address) : String := "Address(" ++ Hex.encode (a.toList.take 4) ++ ")"

/-- Forty digits, after at most one `0x`. -/
def ofHex (s : String) : Except HexError Address :=
  Hex.decodeFixed 20 (String.ofList (match s.toList with
    | '0' :: 'x' :: rest => rest
    | cs => cs))

end Address

end StakeConsensus
