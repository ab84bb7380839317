import Narrative.Instant.Basic

/-!
This module contains the written form of instants: date and time of day in coordinated universal
time, with the fewest of no, three, six or nine digits after the point that are exact.
-/

namespace Narrative

def paddedDigits (width : Nat) (n : Nat) : List Char :=
  let digits := Nat.toDigits 10 n
  List.replicate (width - digits.length) '0' ++ digits

namespace CivilDay

def writtenYear (year : Int) : List Char :=
  if 0 ≤ year ∧ year ≤ 9999 then paddedDigits 4 year.toNat
  else (if year < 0 then '-' else '+') :: paddedDigits 4 year.natAbs

def written (d : CivilDay) : List Char :=
  writtenYear d.year ++ '-' :: paddedDigits 2 d.month ++ '-' :: paddedDigits 2 d.day

end CivilDay

namespace Instant

def writtenFraction (nanos : Nat) : List Char :=
  if nanos = 0 then []
  else if nanos % 1000000 = 0 then '.' :: paddedDigits 3 (nanos / 1000000)
  else if nanos % 1000 = 0 then '.' :: paddedDigits 6 (nanos / 1000)
  else '.' :: paddedDigits 9 nanos

def writtenTime (t : Instant) : List Char :=
  let second := t.secondOfDay
  let leap := t.nanos / 1000000000
  paddedDigits 2 (second / 3600) ++ ':' :: paddedDigits 2 (second / 60 % 60)
    ++ ':' :: paddedDigits 2 (second % 60 + leap) ++ writtenFraction (t.nanos % 1000000000)

def toString (t : Instant) : String :=
  String.ofList ((CivilDay.ofDayNumber t.dayNumber).written ++ 'T' :: t.writtenTime ++ ['Z'])

end Instant

end Narrative
