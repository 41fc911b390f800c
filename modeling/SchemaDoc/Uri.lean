import SchemaDoc.Uri.Address

/-! # Resource identifiers

A target is read as a resource identifier first: scheme, authority, query and
fragment are dropped and the path is decoded. A text that is no identifier, or
one without a path, stands for itself.
-/

namespace SchemaDoc.Uri

/-- A percent sign must be followed by two hexadecimal digits, which it decodes together with. The
first test may refuse decoded bytes, the second one bytes that stand for themselves. -/
def decode? (decoded plain : UInt8 → Bool) : Bytes → Option Bytes
  | [] => some []
  | 0x25 :: a :: b :: s =>
    match Bytes.hexValue? a, Bytes.hexValue? b with
    | some m, some n =>
      let byte := (m * 16 + n).toUInt8
      if decoded byte then (decode? decoded plain s).map (byte :: ·) else none
    | _, _ => none
  | 0x25 :: _ => none
  | b :: s => if plain b then (decode? decoded plain s).map (b :: ·) else none

private def anyByte (_ : UInt8) : Bool := true

def decodeFree? (s : Bytes) : Option Bytes := decode? anyByte anyByte s

private def isSchemeContinue (b : UInt8) : Bool :=
  Bytes.isLetter b || Bytes.isDigit b || b == 0x2B || b == 0x2D || b == 0x2E

/-- The scheme and what is behind its colon. A text without a scheme has an empty one; a colon at
the very start is a mistake. -/
def scheme? (s : Bytes) : Option (Bytes × Bytes) :=
  match s with
  | [] => some ([], [])
  | b :: _ =>
    if b = 0x3A then none
    else if !Bytes.isLetter b then some ([], s)
    else match s.dropWhile isSchemeContinue with
      | 0x3A :: rest => some (s.takeWhile isSchemeContinue, rest)
      | _ => some ([], s)

private def isHostByte (b : UInt8) : Bool :=
  0x80 ≤ b || Bytes.isLetter b || Bytes.isDigit b ||
    (bytes "!$&'()*+,;=:[]<>\"-_.~").contains b

/-- Only bytes outside of ASCII, and the percent sign, may be encoded in a host. -/
private def isEncodedHostByte (b : UInt8) : Bool := 0x80 ≤ b || b == 0x25

/-- In a zone, blanks and whatever may stand in a host may be encoded as well. -/
private def isEncodedZoneByte (b : UInt8) : Bool :=
  b == 0x25 || b == 0x20 || (b < 0x80 && isHostByte b)

private def isHost (s : Bytes) : Bool := (decode? isEncodedHostByte isHostByte s).isSome

private def isZone (s : Bytes) : Bool := (decode? isEncodedZoneByte isHostByte s).isSome

private def isPort : Bytes → Bool
  | [] => true
  | b :: s => b == 0x3A && s.all Bytes.isDigit

private def cutLast? (b : UInt8) (s : Bytes) : Option (Bytes × Bytes) :=
  match s.reverse.dropWhile (· != b) with
  | [] => none
  | _ :: before => some (before.reverse, s.drop before.length)

/-- The text before and from the first occurrence of `%25` on. -/
private def cutZone? : Bytes → Option (Bytes × Bytes)
  | [] => none
  | b :: s =>
    if Bytes.startsWith (bytes "%25") (b :: s) then some ([], b :: s)
    else (cutZone? s).map fun (before, rest) => (b :: before, rest)

/-- Whether a text between brackets is an address. A zone may follow it and is not empty. -/
private def isBracketed (s : Bytes) : Bool :=
  match cutZone? s with
  | none => Address.isAddress s
  | some (address, zone) => Address.isAddress address && isZone zone && 3 < zone.length

/-- Whether a text is a host with an optional port. An opening bracket stands only before an
address, which makes up the whole host. -/
private def isHostAndPort (s : Bytes) : Bool :=
  if s.contains 0x5B then
    Bytes.startsWith [0x5B] s && !(s.drop 1).contains 0x5B &&
      match cutLast? 0x5D s with
      | none => false
      | some (opening, closing) => isBracketed (opening.drop 1) && isPort (closing.drop 1)
  else
    (match cutLast? 0x3A s with
      | none => true
      | some (_, port) => isPort port) && isHost s

private def isUserByte (b : UInt8) : Bool :=
  Bytes.isLetter b || Bytes.isDigit b || (bytes "-._:~!$&'()*+,;=%@").contains b

/-- Whether a text is an authority: a host, behind an at sign if a user is named. -/
def isAuthority (s : Bytes) : Bool :=
  match cutLast? 0x40 s with
  | none => isHostAndPort s
  | some (user, host) =>
    isHostAndPort (host.drop 1) && user.all isUserByte && (decodeFree? user).isSome

private def isControl (b : UInt8) : Bool := b < 0x20 || b == 0x7F

/-- The still encoded path of an identifier without its fragment; `none` for no identifier. -/
def rawPath? (s : Bytes) : Option Bytes :=
  if s.any isControl then none
  else if s = bytes "*" then some s
  else match scheme? s with
    | none => none
    | some (scheme, rest) =>
      let rest := (Bytes.cut 0x3F rest).1
      if !Bytes.startsWith [0x2F] rest && !scheme.isEmpty then some []
      else if !Bytes.startsWith [0x2F] rest && (Bytes.cut 0x2F rest).1.contains 0x3A then none
      else if Bytes.startsWith (bytes "//") rest &&
          (!scheme.isEmpty || !Bytes.startsWith (bytes "///") rest) then
        let behind := rest.drop 2
        if isAuthority (behind.takeWhile (· != 0x2F)) then some (behind.dropWhile (· != 0x2F))
        else none
      else some rest

/-- The decoded path of an identifier; `none` for a text that is no identifier. -/
def path? (s : Bytes) : Option Bytes :=
  let (body, fragment) := Bytes.cut 0x23 s
  match rawPath? body, decodeFree? (fragment.getD []) with
  | some raw, some _ => decodeFree? raw
  | _, _ => none

def target (s : Bytes) : Bytes :=
  match path? s with
  | some (b :: path) => b :: path
  | _ => s

end SchemaDoc.Uri
