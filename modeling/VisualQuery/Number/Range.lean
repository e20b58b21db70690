/-!
# Ranges of 64-bit words

Integers are carried in unbounded form and are tested against the range of a
signed or an unsigned 64-bit word where a format asks for it.
-/

namespace VisualQuery

/-- The number of signed 64-bit words that are not negative. -/
def signedBound : Nat := 1 <<< 63

/-- The number of 64-bit words. -/
def unsignedBound : Nat := 1 <<< 64

/-- An integer that a signed 64-bit word holds. -/
def FitsSigned (value : Int) : Prop := -signedBound ≤ value ∧ value < signedBound

/-- An integer that an unsigned 64-bit word holds. -/
def FitsUnsigned (value : Int) : Prop := 0 ≤ value ∧ value < unsignedBound

instance (value : Int) : Decidable (FitsSigned value) :=
  inferInstanceAs (Decidable (_ ∧ _))

instance (value : Int) : Decidable (FitsUnsigned value) :=
  inferInstanceAs (Decidable (_ ∧ _))

theorem fitsSigned_iff {value : Int} :
    FitsSigned value ↔ -9223372036854775808 ≤ value ∧ value < 9223372036854775808 :=
  Iff.rfl

theorem fitsUnsigned_iff {value : Int} :
    FitsUnsigned value ↔ 0 ≤ value ∧ value < 18446744073709551616 :=
  Iff.rfl

end VisualQuery
