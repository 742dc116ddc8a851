import JscAndroid.Wtf.HexDigits
import JscAndroid.Unicode.Macros
import JscAndroid.Wtf.StringBuilders

/-!
# Encoding and decoding of URIs

`encode` and `decode` of JSGlobalObjectFunctions.cpp and the four functions of the global object
that use them. The instances for 8-bit and 16-bit characters differ in how `decode` appends a
character that it copies.
-/

namespace JscAndroid.Uri

open Unicode.Encodings Unicode.Macros Wtf.StringBuilders
open Wtf.HexDigits (isASCIIHexDigit convertHex convertUnicode)

/-- How a call ends. -/
inductive Outcome where
  | value (text : List ℕ)
  | uriError (message : String)
  | outOfMemory
  | crash
deriving DecidableEq

/-- `Bitmap<256>`, as a test of a character. -/
abbrev Bitmap := ℕ → Bool

def makeCharacterBitmap (characters : String) : Bitmap :=
  fun c => (characters.toList.map Char.toNat).contains c

/-- What is returned at the end of both functions. -/
def finish (builder : StringBuilder) : Outcome :=
  if builder.hasOverflowed then .outOfMemory else .value builder.characters

/-! ## Encoding -/

/-- `hexDigitsForMode(Uppercase)`. -/
def uppercaseHexDigit (n : ℕ) : ℕ := ("0123456789ABCDEF".toList.map Char.toNat).getD n 0

/-- The loop of `appendHex`, from the last digit to the first; the buffer has 16 digits. -/
def appendHexDigits : ℕ → ℕ → List ℕ → List ℕ
  | 0, _, digits => digits
  | room + 1, number, digits =>
    let digits := uppercaseHexDigit (number &&& 0xF) :: digits
    if number >>> 4 ≠ 0 then appendHexDigits room (number >>> 4) digits else digits

/-- `hex`. -/
def hex (number minimumDigits : ℕ) : List ℕ :=
  (appendHexDigits 16 number []).leftpad (min minimumDigits 16) '0'.toNat

/-- The octets as `%XY`. -/
def appendEscapes : List ℕ → StringBuilder → Option StringBuilder
  | [], builder => some builder
  | octet :: octets, builder => do
    let builder ← builder.appendLChar '%'.toNat
    let builder ← builder.appendFromAdapters (hex octet 2)
    appendEscapes octets builder

def encodeError : Outcome := .uriError "String contained an illegal UTF-16 sequence."

/-- The loop of `encode`. -/
def encodeLoop (doNotEscape : Bitmap) : List ℕ → StringBuilder → Outcome
  | [], builder => finish builder
  | character :: rest, builder =>
    if character < 256 && doNotEscape character then
      (builder.appendLChar character).elim .crash (encodeLoop doNotEscape rest)
    else if u16IsTrail character then encodeError
    else if !u16IsLead character then
      (appendEscapes (utf8 character) builder).elim .crash (encodeLoop doNotEscape rest)
    else
      match rest with
      | [] => encodeError
      | trail :: rest =>
        if !u16IsTrail trail then encodeError
        else
          (appendEscapes (utf8 (u16GetSupplementary character trail)) builder).elim .crash
            (encodeLoop doNotEscape rest)

def encode (doNotEscape : Bitmap) (view : StringImpl) : Outcome :=
  encodeLoop doNotEscape view.characters (StringBuilder.reserveCapacity view.length {})

/-! ## Decoding -/

/-- The bytes of the escapes that follow the first one. -/
def sequenceAfter : ℕ → List ℕ → Option (List ℕ)
  | 0, _ => some []
  | n + 1, q0 :: q1 :: q2 :: q =>
    if q0 = '%'.toNat && isASCIIHexDigit q1 && isASCIIHexDigit q2 then
      (sequenceAfter n q).map (convertHex q1 q2 :: ·)
    else none
  | _ + 1, _ => none

/-- The code point of the escapes at the start, and their length `charLen`; none if `charLen` stays
0. -/
def escapeAt : List ℕ → Option (ℕ × ℕ)
  | p0 :: p1 :: p2 :: p =>
    if isASCIIHexDigit p1 && isASCIIHexDigit p2 then
      let b0 := convertHex p1 p2
      let sequenceLen := 1 + u8CountTrailBytes b0
      if sequenceLen * 3 ≤ (p0 :: p1 :: p2 :: p).length then
        match sequenceAfter (sequenceLen - 1) p with
        | none => none
        | some tail =>
          match u8Next (b0 :: tail) 0 with
          | (none, _) => none
          | (some character, _) => some (sequenceLen * 3, character)
      else none
    else none
  | _ => none

/-- The escapes `%uXXXX` of the mode that is not strict. -/
def unicodeEscapeAt : List ℕ → Option ℕ
  | _ :: p1 :: p2 :: p3 :: p4 :: p5 :: _ =>
    if p1 = 'u'.toNat && isASCIIHexDigit p2 && isASCIIHexDigit p3 && isASCIIHexDigit p4 &&
        isASCIIHexDigit p5 then
      some (convertUnicode p2 p3 p4 p5)
    else none
  | _ => none

/-- What one round of the loop of `decode` does: it throws, or it appends `UChar`s and goes behind
the escape, or it appends `UChar`s and copies the character. -/
inductive Round where
  | throw
  | replace (units : List ℕ) (charLen : ℕ)
  | copy (units : List ℕ)

/-- The last test of a round with an escape, for the last unit `u`. -/
def replaceUnlessReserved (doNotUnescape : Bitmap) (units : List ℕ) (u charLen : ℕ) : Round :=
  if u ≥ 128 || !doNotUnescape u then .replace (units ++ [u]) charLen else .copy units

def decodeRound (doNotUnescape : Bitmap) (strict : Bool) (p : List ℕ) : Round :=
  if p.head? = some '%'.toNat then
    match escapeAt p with
    | some (charLen, character) =>
      if !isBmp character then
        replaceUnlessReserved doNotUnescape [u16Lead character] (u16Trail character) charLen
      else replaceUnlessReserved doNotUnescape [] character charLen
    | none =>
      if strict then .throw
      else
        match unicodeEscapeAt p with
        | some u => replaceUnlessReserved doNotUnescape [] u 6
        | none => .copy []
  else .copy []

/-- `append` for a character of the string. -/
def appendCopied (is8Bit : Bool) (c : ℕ) (builder : StringBuilder) : Option StringBuilder :=
  if is8Bit then builder.appendLChar c else builder.appendUChar c

/-- The loop of `decode`, with a bound on the rounds. -/
def decodeLoop (is8Bit : Bool) (doNotUnescape : Bitmap) (strict : Bool) :
    ℕ → List ℕ → StringBuilder → Option Outcome
  | _, [], builder => some (finish builder)
  | 0, _ :: _, _ => none
  | fuel + 1, c :: rest, builder =>
    match decodeRound doNotUnescape strict (c :: rest) with
    | .throw => some (.uriError "URI error")
    | .replace units charLen =>
      match units.foldlM (fun builder u => builder.appendUChar u) builder with
      | none => some .crash
      | some builder =>
        decodeLoop is8Bit doNotUnescape strict fuel ((c :: rest).drop charLen) builder
    | .copy units =>
      match units.foldlM (fun builder u => builder.appendUChar u) builder >>= appendCopied is8Bit c
        with
      | none => some .crash
      | some builder => decodeLoop is8Bit doNotUnescape strict fuel rest builder

def decode (view : StringImpl) (doNotUnescape : Bitmap) (strict : Bool) : Option Outcome :=
  decodeLoop view.is8Bit doNotUnescape strict view.length view.characters {}

/-! ## The functions of the global object -/

def doNotUnescapeWhenDecodingURI : Bitmap := makeCharacterBitmap "#$&+,/:;=?@"

def emptyBitmap : Bitmap := makeCharacterBitmap ""

def doNotEscapeWhenEncodingURI : Bitmap := makeCharacterBitmap
  ("ABCDEFGHIJKLMNOPQRSTUVWXYZ" ++ "abcdefghijklmnopqrstuvwxyz" ++ "0123456789" ++
    "!#$&'()*+,-./:;=?@_~")

def doNotEscapeWhenEncodingURIComponent : Bitmap := makeCharacterBitmap
  ("ABCDEFGHIJKLMNOPQRSTUVWXYZ" ++ "abcdefghijklmnopqrstuvwxyz" ++ "0123456789" ++ "!'()*-._~")

def globalFuncDecodeURI (argument : StringImpl) : Option Outcome :=
  decode argument doNotUnescapeWhenDecodingURI true

def globalFuncDecodeURIComponent (argument : StringImpl) : Option Outcome :=
  decode argument emptyBitmap true

def globalFuncEncodeURI (argument : StringImpl) : Outcome :=
  encode doNotEscapeWhenEncodingURI argument

def globalFuncEncodeURIComponent (argument : StringImpl) : Outcome :=
  encode doNotEscapeWhenEncodingURIComponent argument

end JscAndroid.Uri
