import SchemaDoc.Text.Bytes

/-! # Texts that read as a time

A date, or a date and a time of day with a zone behind the letter T or without
one behind blanks. Months, days, hours, minutes and seconds may have one digit;
the day must exist in its month.
-/

namespace SchemaDoc.Yaml.Timestamp

private def number? : Bytes → Option (Nat × Bytes)
  | a :: b :: s =>
    if Bytes.isDigit a then
      if Bytes.isDigit b then some (Bytes.digitsValue [a, b], s)
      else some (Bytes.digitsValue [a], b :: s)
    else none
  | [a] => if Bytes.isDigit a then some (Bytes.digitsValue [a], []) else none
  | [] => none

private def token? (b : UInt8) : Bytes → Option Bytes
  | [] => none
  | a :: s => if a = b then some s else none

private def isLeap (year : Nat) : Bool := year % 4 == 0 && (year % 100 != 0 || year % 400 == 0)

private def daysIn (year month : Nat) : Nat :=
  if month = 2 then if isLeap year then 29 else 28
  else if month = 4 || month = 6 || month = 9 || month = 11 then 30
  else 31

private def date? (s : Bytes) : Option Bytes := do
  let year := s.take 4
  if year.length != 4 || !year.all Bytes.isDigit then failure
  let s ← token? 0x2D (s.drop 4)
  let (month, s) ← number? s
  let s ← token? 0x2D s
  let (day, s) ← number? s
  if month < 1 || 12 < month then failure
  if day < 1 || daysIn (Bytes.digitsValue year) month < day then failure
  return s

private def dropFraction : Bytes → Bytes
  | a :: b :: s =>
    if (a == 0x2E || a == 0x2C) && Bytes.isDigit b then s.dropWhile Bytes.isDigit else a :: b :: s
  | s => s

/-- A time of day at the start of a text. -/
private def clock? (s : Bytes) : Option Bytes := do
  let (hour, s) ← number? s
  let s ← token? 0x3A s
  let (minute, s) ← number? s
  let s ← token? 0x3A s
  let (second, s) ← number? s
  if 24 ≤ hour || 60 ≤ minute || 60 ≤ second then failure
  return dropFraction s

/-- Whether a text is the letter Z or an offset of hours and minutes. -/
private def isZone : Bytes → Bool
  | [0x5A] => true
  | [sign, h, i, 0x3A, m, n] =>
    (sign == 0x2B || sign == 0x2D) && [h, i, m, n].all Bytes.isDigit &&
      Bytes.digitsValue [h, i] ≤ 24 && Bytes.digitsValue [m, n] ≤ 60
  | _ => false

private def isTimeOfDay : Bytes → Bool
  | [] => true
  | b :: s =>
    if b = 0x54 || b = 0x74 then ((clock? s).map isZone).getD false
    else if b = 0x20 then ((clock? (s.dropWhile (· == 0x20))).map List.isEmpty).getD false
    else false

end Timestamp

def isTimestamp (s : Bytes) : Bool := ((Timestamp.date? s).map Timestamp.isTimeOfDay).getD false

end SchemaDoc.Yaml
