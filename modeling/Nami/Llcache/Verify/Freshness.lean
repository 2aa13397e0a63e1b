import Nami.Llcache.Metadata

/-!
# The remaining lifetime of an object

The formula of RFC 2616 over integers (sections 13.2.3 and 13.2.4), and where `int` values are enough for it. A
max-age of 4294967295 seconds is the value that stands for no max-age.
-/

namespace Nami.Llcache

open Ascii

variable {cd : CacheControl} {age maxAge : Option Nat} {now : Int}

/-! ## What the headers leave -/

namespace CacheControl

def apparentAge (cd : CacheControl) : Int := max 0 (cd.resTime - cd.date)

def currentAge (cd : CacheControl) (age : Option Nat) (now : Int) : Int :=
  max cd.apparentAge (age.getD 0) + (cd.resTime - cd.reqTime) + (now - cd.resTime)

/-- The lifetime without max-age. -/
def otherLifetime (cd : CacheControl) (now : Int) : Int :=
  if cd.expires ≠ 0 then cd.expires - cd.date
  else if cd.lastModified ≠ 0 then (now - cd.lastModified).tdiv 10
  else 0

/-- `freshness_lifetime`. -/
def lifetime (cd : CacheControl) (maxAge : Option Nat) (now : Int) : Int :=
  match maxAge with
  | some n => n
  | none => cd.otherLifetime now

/-- Nothing is lost in an `int`. -/
structure Fits (cd : CacheControl) (age maxAge : Option Nat) (now : Int) : Prop where
  apparent : cd.apparentAge < 2147483648
  given : ∀ n ∈ age, n < 2147483648
  current : cd.currentAge age now < 2147483648
  life : -2147483648 ≤ cd.lifetime maxAge now ∧ cd.lifetime maxAge now < 2147483648

end CacheControl

/-- A record for a response at some time. -/
def CacheControl.at (time maxAge : Int) : CacheControl :=
  { CacheControl.invalidated with reqTime := time, resTime := time, date := time, maxAge }

end Nami.Llcache
