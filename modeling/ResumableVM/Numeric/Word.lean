/-! # Word: numbers of 64 bits

Whole numbers are computed without bounds, and become words only where a word can hold them. -/

namespace ResumableVM

/-- An integer as a signed word, if it is in range. -/
def signedWord? (n : Int) : Option Int64 :=
  if Int64.minValue.toInt ≤ n ∧ n ≤ Int64.maxValue.toInt then some (Int64.ofInt n) else none

/-- A natural number as an unsigned word, if it is in range. -/
def unsignedWord? (n : Nat) : Option UInt64 :=
  if n < UInt64.size then some (UInt64.ofNat n) else none

end ResumableVM
