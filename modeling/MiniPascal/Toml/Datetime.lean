/-!
# Dates and times

A date, a time of day, or both, and then perhaps the distance from universal time.  The form allows
numbers that no calendar has; `Datetime.fault?` finds them.
-/

namespace MiniPascal.Toml

structure Date where
  year : Nat
  month : Nat
  day : Nat

/-- A time of day as it is written.  Fractions of a second are left out. -/
structure Time where
  hour : Nat
  minute : Nat
  second : Nat

/-- The distance from universal time. -/
structure Zone where
  text : String
  hours : Nat := 0
  minutes : Nat := 0

/-- A date, a time, or both. -/
structure Datetime where
  text : String
  date : Option Date := none
  time : Option Time := none
  zone : Option Zone := none

/-- What is wrong with a date or a time. -/
inductive TimeFault where
  | month
  | day
  | hour
  | minute
  | second
  /-- A text behind a time that does not count as part of it. -/
  | extra (text : String)

def TimeFault.message : TimeFault → String
  | month => "month out of range"
  | day => "day out of range"
  | hour => "hour out of range"
  | minute => "minute out of range"
  | second => "second out of range"
  | extra text => "extra text: \"" ++ text ++ "\""

namespace Date

def isLeap (year : Nat) : Bool := year % 4 == 0 && (year % 100 != 0 || year % 400 == 0)

def daysIn (year month : Nat) : Nat :=
  if month == 2 then if isLeap year then 29 else 28
  else if [4, 6, 9, 11].contains month then 30
  else 31

def hasMonth (d : Date) : Bool := 1 ≤ d.month && d.month ≤ 12

def hasDay (d : Date) : Bool := 1 ≤ d.day && d.day ≤ daysIn d.year d.month

end Date

/-- The first number of a time that is too large. -/
def Time.fault? (t : Time) : Option TimeFault :=
  if 24 ≤ t.hour then some .hour
  else if 60 ≤ t.minute then some .minute
  else if 60 ≤ t.second then some .second
  else none

/-- Whether a distance is at most a day, and its minutes at most an hour. -/
def Zone.isValid (z : Zone) : Bool := z.hours ≤ 24 && z.minutes ≤ 60

namespace Datetime

/-- Whether the month has the day, if there is a date. -/
def hasDay (d : Datetime) : Bool := d.date.all Date.hasDay

/-- What is wrong: the month, then the time, then what comes behind it, then the day.  If the day or the
distance from universal time is wrong, a distance is taken for extra text. -/
def fault? (d : Datetime) : Option TimeFault :=
  if !d.date.all Date.hasMonth then some .month
  else
    match d.time.bind Time.fault?, d.zone with
    | some e, _ => some e
    | none, some z => if z.isValid && d.hasDay then none else some (.extra z.text)
    | none, none => if d.hasDay then none else some .day

end Datetime

end MiniPascal.Toml
