import GraphQLDoc.Text.Character
import GraphQLDoc.Yaml.Problem

/-!
Timestamps of YAML 1.1: a date, or a date, a time of day and an optional distance from universal
time. A text may have the form of a timestamp and name no day or time that exists.
-/
namespace GraphQLDoc.Yaml

structure TimeOfDay where
  hour : Nat
  minute : Nat
  second : Nat
  /-- The distance from universal time in seconds, where the text gives one with a sign. -/
  offset : Option Int

structure Timestamp where
  year : Nat
  month : Nat
  day : Nat
  time : Option TimeOfDay
  /-- Whether month and day have two digits each. -/
  padded : Bool

namespace Timestamp

/-- Reads at least `least` and at most `most` digits. -/
def digits? (least most : Nat) (cs : List Char) : Option (List Char × List Char) :=
  let ds := (cs.take most).takeWhile isDigit
  if least ≤ ds.length then some (ds, cs.drop ds.length) else none

def number (ds : List Char) : Nat := ds.foldl (fun n c => n * 10 + hexValue c) 0

def char? (c : Char) (cs : List Char) : Option (List Char) :=
  if cs.head? = some c then some (cs.drop 1) else none

def blanks (cs : List Char) : List Char := cs.dropWhile fun c => c == ' ' || c == '\t'

/-- The mark behind a time of day: nothing, the letter for universal time, or a sign with hours and
perhaps minutes. -/
def zone? (cs : List Char) : Option (Option Int) :=
  match cs, blanks cs with
  | [], _ => some none
  | _, ['Z'] => some none
  | _, sign :: rest =>
    if sign = '+' ∨ sign = '-' then do
      let (hours, rest) ← digits? 1 2 rest
      let minutes ← match rest with
        | [] => some []
        | _ => do
          let (minutes, rest) ← digits? 2 2 (← char? ':' rest)
          if rest.isEmpty then some minutes else none
      let seconds : Int := (number hours * 60 + number minutes) * 60
      return some (if sign = '-' then -seconds else seconds)
    else none
  | _, [] => none

def fraction (cs : List Char) : List Char :=
  match cs with
  | '.' :: rest => rest.dropWhile isDigit
  | _ => cs

def time? (cs : List Char) : Option TimeOfDay := do
  let (hour, rest) ← digits? 1 2 cs
  let (minute, rest) ← digits? 2 2 (← char? ':' rest)
  let (second, rest) ← digits? 2 2 (← char? ':' rest)
  let offset ← zone? (fraction rest)
  return ⟨number hour, number minute, number second, offset⟩

/-- What separates the date from the time is one letter or some blanks. -/
def afterDate? (cs : List Char) : Option (Option TimeOfDay) :=
  match cs with
  | [] => some none
  | c :: rest =>
    if c = 'T' ∨ c = 't' then (time? rest).map some
    else if c = ' ' ∨ c = '\t' then (time? (blanks rest)).map some
    else none

def parse? (cs : List Char) : Option Timestamp := do
  let (year, rest) ← digits? 4 4 cs
  let (month, rest) ← digits? 1 2 (← char? '-' rest)
  let (day, rest) ← digits? 1 2 (← char? '-' rest)
  let time ← afterDate? rest
  return ⟨number year, number month, number day, time, month.length == 2 && day.length == 2⟩

def isLeapYear (y : Nat) : Bool := y % 4 == 0 && (y % 100 != 0 || y % 400 == 0)

def daysInMonth (year month : Nat) : Nat :=
  if month = 2 then (if isLeapYear year then 29 else 28)
  else if month ∈ [4, 6, 9, 11] then 30
  else 31

def dateFault? (t : Timestamp) : Option CalendarFault :=
  if t.year = 0 then some .year
  else if t.month < 1 ∨ 12 < t.month then some .month
  else if t.day < 1 ∨ daysInMonth t.year t.month < t.day then some .day
  else none

def timeFault? (t : TimeOfDay) : Option CalendarFault :=
  if 23 < t.hour then some .hour
  else if 59 < t.minute then some .minute
  else if 59 < t.second then some .second
  else none

def offsetFault? (t : TimeOfDay) : Option CalendarFault :=
  t.offset.bind fun s =>
    if s.natAbs < CalendarFault.secondsPerDay.natAbs then none else some (.offset s)

/-- Why the timestamp does not exist. The distance from universal time is looked at first. -/
def fault? (t : Timestamp) : Option CalendarFault :=
  (t.time.bind offsetFault?).or ((dateFault? t).or (t.time.bind timeFault?))

end Timestamp

end GraphQLDoc.Yaml
