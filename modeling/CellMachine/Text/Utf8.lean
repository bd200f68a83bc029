/-!
# Strict UTF-8

`decode` turns bytes into characters. The first place where the bytes are not well formed is
reported with the extent of the part at fault: the lead byte together with those continuation
bytes that could still belong to it.

`unixLines` then turns every line end, CR LF or a lone CR, into a line feed.
-/

namespace CellMachine.Text

/-- What is wrong with a byte sequence. -/
inductive DecodeCause where
  | startByte
  | continuationByte
  | endOfData
  deriving DecidableEq, Repr

def DecodeCause.message : DecodeCause → String
  | .startByte => "invalid start byte"
  | .continuationByte => "invalid continuation byte"
  | .endOfData => "unexpected end of data"

/-- A fault at a position: the bytes at fault are `first` and `extra` more after it. -/
structure DecodeFault where
  position : Nat
  first : UInt8
  extra : Nat
  cause : DecodeCause
  deriving DecidableEq, Repr

def DecodeFault.message (f : DecodeFault) : String :=
  let digits := Nat.toDigits 16 f.first.toNat
  let byte := String.ofList (List.replicate (2 - digits.length) '0' ++ digits)
  let last := f.position + f.extra
  (if f.extra = 0 then s!"'utf-8' codec can't decode byte 0x{byte} in position {f.position}: "
   else s!"'utf-8' codec can't decode bytes in position {f.position}-{last}: ") ++
    f.cause.message

/-- What a lead byte announces: the number of continuation bytes, the payload bits of the lead
byte, and the range in which the first continuation byte must lie. -/
structure Lead where
  following : Nat
  payload : Nat
  low : Nat := 0x80
  high : Nat := 0xBF

/-- The lead bytes of well-formed sequences. The ranges leave out overlong forms, surrogates and
code points past U+10FFFF. -/
def lead? (b : Nat) : Option Lead :=
  if b < 0x80 then some ⟨0, b, 0x80, 0xBF⟩
  else if b < 0xC2 then none
  else if b < 0xE0 then some ⟨1, b - 0xC0, 0x80, 0xBF⟩
  else if b = 0xE0 then some ⟨2, 0, 0xA0, 0xBF⟩
  else if b = 0xED then some ⟨2, 0xD, 0x80, 0x9F⟩
  else if b < 0xF0 then some ⟨2, b - 0xE0, 0x80, 0xBF⟩
  else if b = 0xF0 then some ⟨3, 0, 0x90, 0xBF⟩
  else if b < 0xF4 then some ⟨3, b - 0xF0, 0x80, 0xBF⟩
  else if b = 0xF4 then some ⟨3, 4, 0x80, 0x8F⟩
  else none

/-- Where the decoder stands: between characters, or inside one that began at `start` with the
byte `first`, of which `seen` continuation bytes were read and `owed` are to come. -/
inductive DecodeState where
  | between
  | within (start : Nat) (first : UInt8) (seen owed payload low high : Nat)

/-- Begin a character at position `position` with the byte `b`. The result is a finished
character, or the state inside a longer one. -/
def beginChar (position : Nat) (b : UInt8) : Except DecodeFault (Option Char × DecodeState) :=
  match lead? b.toNat with
  | none => .error ⟨position, b, 0, .startByte⟩
  | some ⟨0, payload, _, _⟩ => .ok (some (Char.ofNat payload), .between)
  | some ⟨following, payload, low, high⟩ =>
    .ok (none, .within position b 0 following payload low high)

/-- Read one byte. -/
def decodeByte (position : Nat) (b : UInt8) :
    DecodeState → Except DecodeFault (Option Char × DecodeState)
  | .between => beginChar position b
  | .within start first seen owed payload low high =>
    if low ≤ b.toNat ∧ b.toNat ≤ high then
      let payload := payload * 64 + (b.toNat - 0x80)
      if owed ≤ 1 then .ok (some (Char.ofNat payload), .between)
      else .ok (none, .within start first (seen + 1) (owed - 1) payload 0x80 0xBF)
    else .error ⟨start, first, seen, .continuationByte⟩

/-- Read the bytes from `position` on; the characters read so far are kept in reverse. -/
def decodeFrom (position : Nat) (state : DecodeState) (done : List Char) :
    List UInt8 → Except DecodeFault (List Char)
  | [] =>
    match state with
    | .between => .ok done.reverse
    | .within start first seen _ _ _ _ => .error ⟨start, first, seen, .endOfData⟩
  | b :: rest =>
    match decodeByte position b state with
    | .error fault => .error fault
    | .ok (some c, state) => decodeFrom (position + 1) state (c :: done) rest
    | .ok (none, state) => decodeFrom (position + 1) state done rest

/-- The characters that the bytes encode. -/
def decode (bytes : List UInt8) : Except DecodeFault (List Char) :=
  decodeFrom 0 .between [] bytes

/-- Every line end as a line feed. -/
def unixLines : List Char → List Char
  | '\r' :: '\n' :: rest => '\n' :: unixLines rest
  | '\r' :: rest => '\n' :: unixLines rest
  | c :: rest => c :: unixLines rest
  | [] => []

end CellMachine.Text
