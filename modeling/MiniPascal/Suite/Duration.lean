/-!
# Durations

Durations are whole numbers of nanoseconds.
-/

namespace MiniPascal.Duration

/-- A text with blanks before it, at least `width` characters long. -/
def padLeft (width : Nat) (text : String) : String := "".pushn ' ' (width - text.length) ++ text

/-- A duration in milliseconds, or in microseconds if it is shorter than one of those. -/
def short (ns : Int) : String :=
  if ns < 1000000 then padLeft 6 (toString (ns.tdiv 1000)) ++ "us"
  else padLeft 6 (toString (ns.tdiv 1000000)) ++ "ms"

/-- A number of `10 ^ places` parts of a unit, with a point but without zeros at the end. -/
def decimal (n places : Nat) : String :=
  let unit := Nat.pow 10 places
  let whole := toString (n / unit)
  let digits := Nat.toDigits 10 (n % unit)
  let padded := List.replicate (places - digits.length) '0' ++ digits
  let kept := (padded.reverse.dropWhile (· = '0')).reverse
  if n % unit = 0 then whole else whole ++ "." ++ String.ofList kept

/-- A duration in hours, minutes and seconds, or in the largest smaller unit if it is shorter than a
second. -/
def long (ns : Int) : String :=
  let n := ns.natAbs
  let sign := if ns < 0 then "-" else ""
  if n = 0 then "0s"
  else if n < 1000 then sign ++ toString n ++ "ns"
  else if n < 1000000 then sign ++ decimal n 3 ++ "µs"
  else if n < 1000000000 then sign ++ decimal n 6 ++ "ms"
  else
    let minutes := n / 60000000000
    let seconds := decimal (n % 60000000000) 9 ++ "s"
    if minutes = 0 then sign ++ seconds
    else if minutes < 60 then sign ++ toString minutes ++ "m" ++ seconds
    else sign ++ toString (minutes / 60) ++ "h" ++ toString (minutes % 60) ++ "m" ++ seconds

end MiniPascal.Duration
