import Kconfig.Text.Lines
/-!
Decoding of text files.

Bytes are read as UTF-8, strictly: a sequence that is too long, a surrogate, or a stray byte is a
`Fault`, which keeps the bytes it was found in for the message. A file arrives in blocks, so a
fault in a later block is met only after the lines of the earlier blocks; a character that the end
of the file cuts off is met after all complete lines.
-/
namespace Kconfig.Text

/-- Why bytes are not UTF-8. -/
inductive FaultReason where
  | invalidStart | invalidContinuation | unexpectedEnd
  deriving DecidableEq, Repr

/-- The reason as messages give it. -/
def FaultReason.message : FaultReason → String
  | .invalidStart => "invalid start byte"
  | .invalidContinuation => "invalid continuation byte"
  | .unexpectedEnd => "unexpected end of data"

/-- Bytes that are not UTF-8: those from `start` to before `stop` of `bytes`. -/
structure Fault where
  bytes : List UInt8
  start : Nat
  stop : Nat
  reason : FaultReason
  deriving DecidableEq, Repr

/-- A stretch that does not decode: its place, its length, and why. -/
structure Misfit where
  start : Nat
  length : Nat
  reason : FaultReason
  deriving DecidableEq, Repr

/-- Whether a byte continues a character. -/
def isTail (b : UInt8) : Bool := 0x80 ≤ b && b < 0xC0

/-- The character of a lead byte's low bits and the tail bytes after it. -/
def assemble (lead : Nat) (tail : List UInt8) : Char :=
  Char.ofNat (tail.foldl (fun n b => n * 64 + b.toNat % 64) lead)

/-- Whether a byte may follow the lead byte of a character of three or four bytes. -/
def mayFollow (lead b : UInt8) : Bool :=
  isTail b && (lead != 0xE0 || 0xA0 ≤ b) && (lead != 0xED || b < 0xA0) &&
    (lead != 0xF0 || 0x90 ≤ b) && (lead != 0xF4 || b < 0x90)

/-- The characters of the bytes up to the first misfit, which is at or after offset `n`. -/
def decodeFrom (n : Nat) : List UInt8 → List Char × Option Misfit
  | [] => ([], none)
  | a :: s =>
    let misfit := fun (length : Nat) reason => (([] : List Char), some (Misfit.mk n length reason))
    let more := fun (c : Char) (r : List Char × Option Misfit) => (c :: r.1, r.2)
    if a < 0x80 then more (Char.ofNat a.toNat) (decodeFrom (n + 1) s)
    else if a < 0xC2 then misfit 1 .invalidStart
    else if a < 0xE0 then
      match s with
      | [] => misfit 1 .unexpectedEnd
      | b :: s =>
        if isTail b then more (assemble (a.toNat % 32) [b]) (decodeFrom (n + 2) s)
        else misfit 1 .invalidContinuation
    else if a < 0xF0 then
      match s with
      | [] => misfit 1 .unexpectedEnd
      | b :: s =>
        if !mayFollow a b then misfit 1 .invalidContinuation
        else match s with
          | [] => misfit 2 .unexpectedEnd
          | c :: s =>
            if isTail c then more (assemble (a.toNat % 16) [b, c]) (decodeFrom (n + 3) s)
            else misfit 2 .invalidContinuation
    else if a < 0xF5 then
      match s with
      | [] => misfit 1 .unexpectedEnd
      | b :: s =>
        if !mayFollow a b then misfit 1 .invalidContinuation
        else match s with
          | [] => misfit 2 .unexpectedEnd
          | c :: s =>
            if !isTail c then misfit 2 .invalidContinuation
            else match s with
              | [] => misfit 3 .unexpectedEnd
              | d :: s =>
                if isTail d then more (assemble (a.toNat % 8) [b, c, d]) (decodeFrom (n + 4) s)
                else misfit 3 .invalidContinuation
    else misfit 1 .invalidStart

/-- The text of some bytes, all of them at once. -/
def decode (bytes : List UInt8) : Except Fault (List Char) :=
  match decodeFrom 0 bytes with
  | (s, none) => .ok s
  | (_, some m) => .error ⟨bytes, m.start, m.start + m.length, m.reason⟩

/-- The bytes in blocks of `n + 1`. -/
def blocks (n : Nat) : List UInt8 → List (List UInt8)
  | [] => []
  | b :: s => (b :: s.take n) :: blocks n (s.drop n)
termination_by s => s.length
decreasing_by exact Nat.lt_succ_of_le (by rw [List.length_drop]; exact Nat.sub_le ..)

/-- What a file gives: the text that can be read, and the fault met when more is asked for. -/
structure Decoded where
  text : List Char
  fault : Option Fault
  deriving DecidableEq, Repr

/-- Text that a fault follows; a carriage return before it waits for its line feed. -/
def Decoded.cut (text : List Char) (fault : Fault) : Decoded :=
  ⟨unifyLineEnds (if text.getLast? = some '\r' then text.dropLast else text), some fault⟩

/-- Decodes block after block; `held` are the bytes of a character that the last block cut off. -/
def decodeBlocks (text : List Char) (held : List UInt8) : List (List UInt8) → Decoded
  | [] =>
    if held.isEmpty then ⟨unifyLineEnds text, none⟩
    else .cut text ⟨held, 0, held.length, .unexpectedEnd⟩
  | block :: more =>
    let bytes := held ++ block
    match decodeFrom 0 bytes with
    | (s, none) => decodeBlocks (text ++ s) [] more
    | (s, some m) =>
      if m.reason = .unexpectedEnd then decodeBlocks (text ++ s) (bytes.drop m.start) more
      else .cut text ⟨bytes, m.start, m.start + m.length, m.reason⟩

/-- The text of a file, read in blocks of 8192 bytes. -/
def decodeFile (bytes : List UInt8) : Decoded := decodeBlocks [] [] (blocks 8191 bytes)

/-- The lines that can be read; before a fault only those that are complete. -/
def Decoded.lines (d : Decoded) : List (List Char) :=
  match d.fault with
  | none => splitKeep d.text
  | some _ => (splitKeep d.text).filter fun line => line.getLast? = some '\n'

/-- The first `n` characters, if they can be read. -/
def Decoded.read (d : Decoded) (n : Nat) : Except Fault (List Char) :=
  match d.fault with
  | some fault => if d.text.length < n then .error fault else .ok (d.text.take n)
  | none => .ok (d.text.take n)

/-- A byte inside a quoted byte text. -/
def quotedByte (quote : Char) (b : UInt8) : List Char :=
  if b = 9 then ['\\', 't']
  else if b = 10 then ['\\', 'n']
  else if b = 13 then ['\\', 'r']
  else if b.toNat = quote.toNat || b = 92 then ['\\', Char.ofNat b.toNat]
  else if 32 ≤ b && b < 127 then [Char.ofNat b.toNat]
  else ['\\', 'x', Nat.digitChar (b.toNat / 16), Nat.digitChar (b.toNat % 16)]

/-- Bytes as messages show them; single quotes unless the bytes hold those and no double ones. -/
def quotedBytes (bytes : List UInt8) : String :=
  let quote := if bytes.contains 39 && !bytes.contains 34 then '"' else '\''
  "b" ++ String.ofList (quote :: bytes.flatMap (quotedByte quote) ++ [quote])

/-- The faulty bytes with up to forty bytes on either side. -/
def Fault.surroundings (f : Fault) : List UInt8 :=
  (f.bytes.take (f.stop + 40)).drop (f.start - 40)

/-- The faulty bytes. -/
def Fault.culprit (f : Fault) : List UInt8 := (f.bytes.take f.stop).drop f.start

end Kconfig.Text
