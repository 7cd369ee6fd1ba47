import RuleLang.Text.Hex

/-!
Strict UTF-8. The first octet of a sequence fixes how many more it has and in which range the
second lies; every later one lies between 0x80 and 0xbf. Decoding stops at the first octet that
no well-formed sequence has in its place and reports the octets of the sequence read so far, or
the first octet alone if it starts none.
-/
namespace RuleLang.Text.Utf8

inductive Fault
  | invalidStart | invalidContinuation | unexpectedEnd
  deriving DecidableEq, Repr

def Fault.text : Fault → String
  | .invalidStart => "invalid start byte"
  | .invalidContinuation => "invalid continuation byte"
  | .unexpectedEnd => "unexpected end of data"

/-- A run of octets that is not UTF-8: where it starts, how many octets it has, and the first
of them. -/
structure DecodeError where
  fault : Fault
  first : Nat
  length : Nat
  octet : UInt8
  deriving DecidableEq, Repr

def DecodeError.message (e : DecodeError) : String :=
  let place :=
    if e.length ≤ 1 then
      "byte 0x" ++ String.ofList (Hex.fixed 2 e.octet.toNat) ++ " in position " ++ toString e.first
    else
      "bytes in position " ++ toString e.first ++ "-" ++ toString (e.first + e.length - 1)
  "'utf-8' codec can't decode " ++ place ++ ": " ++ e.fault.text

/-- A sequence under way: the value so far, how many octets are missing, and the range of the
next. -/
structure Pending where
  first : Nat
  octet : UInt8
  length : Nat
  value : Nat
  missing : Nat
  low : Nat
  high : Nat

/-- What an octet above 0x7f starts: its share of the value, how many octets follow, and the
range of the next. -/
def start? (n : Nat) : Option (Nat × Nat × Nat × Nat) :=
  if 0xc2 ≤ n ∧ n ≤ 0xdf then some (n - 0xc0, 1, 0x80, 0xbf)
  else if n = 0xe0 then some (0, 2, 0xa0, 0xbf)
  else if n = 0xed then some (0xd, 2, 0x80, 0x9f)
  else if 0xe1 ≤ n ∧ n ≤ 0xef then some (n - 0xe0, 2, 0x80, 0xbf)
  else if n = 0xf0 then some (0, 3, 0x90, 0xbf)
  else if 0xf1 ≤ n ∧ n ≤ 0xf3 then some (n - 0xf0, 3, 0x80, 0xbf)
  else if n = 0xf4 then some (4, 3, 0x80, 0x8f)
  else none

def decodeFrom (position : Nat) :
    Option Pending → List UInt8 → Except DecodeError (List Char)
  | none, [] => .ok []
  | some p, [] => .error ⟨.unexpectedEnd, p.first, p.length, p.octet⟩
  | none, b :: rest =>
    if b.toNat < 0x80 then
      (Char.ofNat b.toNat :: ·) <$> decodeFrom (position + 1) none rest
    else match start? b.toNat with
      | none => .error ⟨.invalidStart, position, 1, b⟩
      | some (value, missing, low, high) =>
        decodeFrom (position + 1) (some ⟨position, b, 1, value, missing, low, high⟩) rest
  | some p, b :: rest =>
    if p.low ≤ b.toNat ∧ b.toNat ≤ p.high then
      let value := p.value * 64 + (b.toNat - 0x80)
      if p.missing ≤ 1 then (Char.ofNat value :: ·) <$> decodeFrom (position + 1) none rest
      else
        decodeFrom (position + 1)
          (some ⟨p.first, p.octet, p.length + 1, value, p.missing - 1, 0x80, 0xbf⟩) rest
    else .error ⟨.invalidContinuation, p.first, p.length, p.octet⟩

def decode (octets : List UInt8) : Except DecodeError (List Char) := decodeFrom 0 none octets

def encode (cs : List Char) : List UInt8 := cs.flatMap String.utf8EncodeChar

end RuleLang.Text.Utf8
