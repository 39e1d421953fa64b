import LambdaCalculus.Text.Quoted

/-!
# Decoding UTF-8

`decode` reads bytes as UTF-8 text. A character takes one to four bytes: the first tells how many
follow and which values the second may have (so that no character has two encodings and no surrogate
has one), the others are continuation bytes. At the first byte that does not fit, the decoder stops
and names the span of bytes that it could not read.
-/

namespace LambdaCalculus.Utf8

inductive Reason where
  | invalidStart
  | invalidContinuation
  | unexpectedEnd
deriving DecidableEq

/-- The bytes from `start` up to and including `last` cannot be read; `byte` is the first of
them. -/
structure Fault where
  byte : UInt8
  start : Nat
  last : Nat
  reason : Reason
deriving DecidableEq

def Reason.message : Reason → String
  | .invalidStart => "invalid start byte"
  | .invalidContinuation => "invalid continuation byte"
  | .unexpectedEnd => "unexpected end of data"

/-- The wording of a fault: one byte is shown, several are only counted. -/
def Fault.message (fault : Fault) : String :=
  let span :=
    if fault.start = fault.last then
      "byte 0x" ++ String.ofList (Text.hexDigits 2 fault.byte.toNat) ++ " in position " ++
        toString fault.start
    else "bytes in position " ++ toString fault.start ++ "-" ++ toString fault.last
  "'utf-8' codec can't decode " ++ span ++ ": " ++ fault.reason.message

/-- A character of which some bytes are read: where it starts and with which byte, the bits so far,
how many bytes are missing, and the bounds of the next one. -/
structure Pending where
  start : Nat
  lead : UInt8
  bits : Nat
  missing : Nat
  low : UInt8 := 0x80
  high : UInt8 := 0xBF

/-- The character that starts with the given byte of several. -/
def Pending.ofLead? (start : Nat) (lead : UInt8) : Option Pending :=
  let low5 := lead.toNat % 0x20
  let low4 := lead.toNat % 0x10
  let low3 := lead.toNat % 0x08
  if lead < 0xC2 then none
  else if lead < 0xE0 then some { start, lead, bits := low5, missing := 1 }
  else if lead = 0xE0 then some { start, lead, bits := low4, missing := 2, low := 0xA0 }
  else if lead = 0xED then some { start, lead, bits := low4, missing := 2, high := 0x9F }
  else if lead < 0xF0 then some { start, lead, bits := low4, missing := 2 }
  else if lead = 0xF0 then some { start, lead, bits := low3, missing := 3, low := 0x90 }
  else if lead < 0xF4 then some { start, lead, bits := low3, missing := 3 }
  else if lead = 0xF4 then some { start, lead, bits := low3, missing := 3, high := 0x8F }
  else none

/-- Decodes the bytes from `position` on, the first of them behind a pending character if there is
one. -/
def decodeFrom (position : Nat) : Option Pending → List UInt8 → Except Fault (List Char)
  | none, [] => .ok []
  | some p, [] => .error ⟨p.lead, p.start, position - 1, .unexpectedEnd⟩
  | none, b :: rest =>
      if b < 0x80 then (decodeFrom (position + 1) none rest).map (Char.ofNat b.toNat :: ·)
      else
        match Pending.ofLead? position b with
        | some p => decodeFrom (position + 1) (some p) rest
        | none => .error ⟨b, position, position, .invalidStart⟩
  | some p, b :: rest =>
      if p.low ≤ b ∧ b ≤ p.high then
        let bits := p.bits * 0x40 + b.toNat % 0x40
        if p.missing = 1 then (decodeFrom (position + 1) none rest).map (Char.ofNat bits :: ·)
        else decodeFrom (position + 1)
          (some { p with bits, missing := p.missing - 1, low := 0x80, high := 0xBF }) rest
      else .error ⟨p.lead, p.start, position - 1, .invalidContinuation⟩

def decode (bytes : List UInt8) : Except Fault (List Char) := decodeFrom 0 none bytes

end LambdaCalculus.Utf8
