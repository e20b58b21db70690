import VisualQuery.Json.Parser
import VisualQuery.Proofs.Json.Reading
import VisualQuery.Proofs.Number.Finite

/-!
# Numbers of trees that are read from text

A number that is read from text is an integer of 64 bits, a finite double, or
unreadable: digits are taken while they fit 64 bits, a product past the largest double
is refused, and a quotient by a power of ten does not grow.  So every tree that is read
from text is in range.
-/

namespace VisualQuery
namespace Json

/-! ## Scaling by decades -/

section

variable {exponent : Nat}

/-- The powers of ten past the first are not below two. -/
theorem powerOfTen_large (positive : 0 < exponent) (listed : exponent ≤ 308) :
    1024 ≤ (powerOfTen exponent).exponentField := by
  have two : 2 ≤ 10 ^ exponent :=
    calc 2 ≤ 10 ^ 1 := by decide
      _ ≤ 10 ^ exponent := Nat.pow_le_pow_right (by decide) positive
  have large : 2 ≤ Binary64.rational (1 * 10 ^ exponent, 1) := by
    rw [Binary64.rational, Nat.cast_one, div_one, one_mul]
    exact_mod_cast two
  have one : Nat.log2 1 = 0 := by decide
  have power : Binary64.scaleRatio 10 exponent (1, 1) = (1 * 10 ^ exponent, 1) :=
    if_pos (Int.natCast_nonneg exponent)
  rw [powerOfTen, Binary64.ofDecimal, if_neg one_ne_zero]
  dsimp only
  rw [one, if_neg (by omega), if_neg (by omega), power]
  exact Binary64.large_ofRatio false one_pos large

theorem isFinite_divide_powerOfTen
    {value : Binary64}
    (finite : value.isFinite = true)
    (positive : 0 < exponent)
    (listed : exponent ≤ 308) :
    (value.divide (powerOfTen exponent)).isFinite = true :=
  Binary64.isFinite_divide finite (powerOfTen_large positive listed)

end

/-- What a finite double becomes when it is scaled is finite. -/
theorem isFinite_of_scaleDecades
    {value result : Binary64}
    {exponent : Int}
    (finite : value.isFinite = true)
    (scaled : scaleDecades value exponent = some result) :
    result.isFinite = true := by
  fun_induction scaleDecades value exponent with
  | case1 => cases scaled
  | case2 value exponent _ _ product notInfinite =>
      obtain rfl := Option.some.inj scaled
      exact Binary64.isFinite_ofRatio_of_not_isInfinite (Bool.not_eq_true _ ▸ notInfinite)
  | case3 => exact Option.some.inj scaled ▸ finite
  | case4 => cases scaled
  | case5 value exponent negative close =>
      obtain rfl := Option.some.inj scaled
      exact isFinite_divide_powerOfTen finite (by omega) (by omega)
  | case6 => exact Option.some.inj scaled ▸ finite
  | case7 value exponent _ _ _ inductionHypothesis =>
      have divided : (value.divide (powerOfTen 308)).isFinite = true :=
        isFinite_divide_powerOfTen finite (by decide) le_rfl
      exact inductionHypothesis divided scaled

/-! ## Numbers -/

/-- Digits are taken while the number fits 64 bits. -/
theorem absorbDigits_fits
    {value : Nat}
    (fits : value < unsignedBound)
    (digits : List Char) :
    (absorbDigits value digits).1 < unsignedBound := by
  fun_induction absorbDigits value digits with
  | case1 => exact fits
  | case2 value digit rest next nextFits final taken taking inductionHypothesis =>
      rw [taking] at inductionHypothesis
      exact inductionHypothesis nextFits
  | case3 => exact fits

theorem isFinite_ofInt_natCast
    {value : Nat}
    (fits : value < unsignedBound) :
    (Binary64.ofInt value).isFinite = true :=
  Binary64.isFinite_ofInt_of_fits (Or.inr ⟨Int.natCast_nonneg value, Int.ofNat_lt.2 fits⟩)

/-- A number literal is in range. -/
theorem inRange_value (literal : NumberLiteral) : literal.value.InRange := by
  obtain ⟨negative, whole, fraction, exponent⟩ := literal
  have wholeFits : (absorbDigits 0 whole).1 < unsignedBound := absorbDigits_fits (by decide) whole
  have significandFits := absorbDigits_fits wholeFits (fraction.getD [])
  have signed : ∀ magnitude : Binary64, magnitude.isFinite = true →
      InRange (.float (if negative then magnitude.negate else magnitude)) := by
    intro magnitude finite
    cases negative with
    | false => exact .float finite
    | true => exact .float (Binary64.isFinite_negate finite)
  have finite : ∀ {exponent : Int} {magnitude : Binary64},
      scaleDecades (.ofInt (absorbDigits (absorbDigits 0 whole).1 (fraction.getD [])).1) exponent =
        some magnitude → magnitude.isFinite = true :=
    fun scaled => isFinite_of_scaleDecades (isFinite_ofInt_natCast significandFits) scaled
  unfold NumberLiteral.value
  dsimp only
  split
  · split
    · exact .int (Or.inr ⟨Int.natCast_nonneg _, Int.ofNat_lt.2 wholeFits⟩)
    · split
      · rename_i fits
        refine .int (Or.inl ⟨?_, ?_⟩)
        · have magnitude := fits.2
          omega
        · have bound : 0 < signedBound := by decide
          omega
      · exact signed _ (isFinite_ofInt_natCast wholeFits)
  · cases exponent with
    | none =>
        dsimp only
        split
        · exact signed _ (finite ‹_›)
        · exact .unreadable
    | some exponent =>
        dsimp only
        split
        · split
          · exact signed _ (finite ‹_›)
          · exact .unreadable
        · split
          · exact .unreadable
          · exact signed _ (by decide)

theorem inRange_of_readNumber?
    {text rest : List Char}
    {tree : Json}
    (read : readNumber? text = some (tree, rest)) :
    tree.InRange := by
  unfold readNumber? at read
  split at read <;>
    · obtain ⟨⟨literal, _⟩, _, same⟩ := Option.map_eq_some_iff.1 read
      obtain ⟨rfl, _⟩ := Prod.mk.inj same
      exact inRange_value literal

/-! ## Trees -/

theorem InRange.atDepth
    {container : Json}
    (inRange : container.InRange)
    (depth : Nat) :
    (Json.atDepth depth container).InRange := by
  rw [Json.atDepth]
  split
  · exact inRange
  · exact .unreadable

theorem inRange_ofMembers
    {members : List (Option String × Json)}
    (each : ∀ member ∈ members, member.2.InRange) :
    (ofMembers members).InRange := by
  rw [ofMembers]
  split
  · rename_i named read
    refine .obj fun member listed => ?_
    obtain ⟨source, isSource, sourceRead⟩ := exists_of_mem_mapM read listed
    obtain ⟨name, _, rfl⟩ := Option.map_eq_some_iff.1 sourceRead
    exact each source isSource
  · exact .unreadable

/-- All values that are read with some fuel are in range. -/
structure ReadsInRange (fuel : Nat) : Prop where
  value : ∀ {depth text tree rest},
    readValue? fuel depth text = some (tree, rest) → tree.InRange
  items : ∀ {depth text items rest},
    readItems? fuel depth text = some (items, rest) → ∀ item ∈ items, item.InRange
  members : ∀ {depth text members rest},
    readMembers? fuel depth text = some (members, rest) → ∀ member ∈ members, member.2.InRange

theorem readsInRange_zero : ReadsInRange 0 where
  value := nofun
  items := nofun
  members := nofun

section

variable {fuel depth : Nat} {text rest : List Char}

theorem ReadsInRange.value_succ
    (reads : ReadsInRange fuel)
    {tree : Json}
    (read : readValue? (fuel + 1) depth text = some (tree, rest)) :
    tree.InRange := by
  rw [readValue?] at read
  split at read
  · split at read
    · obtain ⟨rfl, _⟩ := Prod.mk.inj (Option.some.inj read)
      exact (InRange.obj (List.forall_mem_nil _)).atDepth depth
    · obtain ⟨⟨members, _⟩, membersRead, same⟩ := Option.map_eq_some_iff.1 read
      obtain ⟨rfl, _⟩ := Prod.mk.inj same
      exact (inRange_ofMembers (reads.members membersRead)).atDepth depth
  · split at read
    · obtain ⟨rfl, _⟩ := Prod.mk.inj (Option.some.inj read)
      exact (InRange.arr (List.forall_mem_nil _)).atDepth depth
    · obtain ⟨⟨items, _⟩, itemsRead, same⟩ := Option.map_eq_some_iff.1 read
      obtain ⟨rfl, _⟩ := Prod.mk.inj same
      exact (InRange.arr (reads.items itemsRead)).atDepth depth
  · obtain ⟨⟨value, _⟩, _, same⟩ := Option.map_eq_some_iff.1 read
    obtain ⟨rfl, _⟩ := Prod.mk.inj same
    cases value with
    | none => exact .unreadable
    | some value => exact .str value
  · obtain ⟨_, _, same⟩ := Option.map_eq_some_iff.1 read
    obtain ⟨rfl, _⟩ := Prod.mk.inj same
    exact .null
  · obtain ⟨_, _, same⟩ := Option.map_eq_some_iff.1 read
    obtain ⟨rfl, _⟩ := Prod.mk.inj same
    exact .bool true
  · obtain ⟨_, _, same⟩ := Option.map_eq_some_iff.1 read
    obtain ⟨rfl, _⟩ := Prod.mk.inj same
    exact .bool false
  · exact inRange_of_readNumber? read

theorem ReadsInRange.items_succ
    (reads : ReadsInRange fuel)
    {items : List Json}
    (read : readItems? (fuel + 1) depth text = some (items, rest)) :
    ∀ item ∈ items, item.InRange := by
  rw [readItems?] at read
  obtain ⟨⟨item, _⟩, itemRead, read⟩ := Option.bind_eq_some_iff.1 read
  dsimp only at read
  split at read
  · obtain ⟨⟨others, _⟩, othersRead, same⟩ := Option.bind_eq_some_iff.1 read
    obtain ⟨rfl, _⟩ := Prod.mk.inj (Option.some.inj same)
    exact List.forall_mem_cons.2 ⟨reads.value itemRead, reads.items othersRead⟩
  · obtain ⟨rfl, _⟩ := Prod.mk.inj (Option.some.inj read)
    exact List.forall_mem_singleton.2 (reads.value itemRead)
  · cases read

theorem ReadsInRange.members_succ
    (reads : ReadsInRange fuel)
    {members : List (Option String × Json)}
    (read : readMembers? (fuel + 1) depth text = some (members, rest)) :
    ∀ member ∈ members, member.2.InRange := by
  rw [readMembers?] at read
  split at read
  · obtain ⟨⟨name, _⟩, _, read⟩ := Option.bind_eq_some_iff.1 read
    obtain ⟨_, _, read⟩ := Option.bind_eq_some_iff.1 read
    obtain ⟨⟨value, _⟩, valueRead, read⟩ := Option.bind_eq_some_iff.1 read
    dsimp only at read
    split at read
    · obtain ⟨⟨others, _⟩, othersRead, same⟩ := Option.bind_eq_some_iff.1 read
      obtain ⟨rfl, _⟩ := Prod.mk.inj (Option.some.inj same)
      exact List.forall_mem_cons.2 ⟨reads.value valueRead, reads.members othersRead⟩
    · obtain ⟨rfl, _⟩ := Prod.mk.inj (Option.some.inj read)
      exact List.forall_mem_singleton.2 (reads.value valueRead)
    · cases read
  · cases read

end

theorem readsInRange (fuel : Nat) : ReadsInRange fuel := by
  induction fuel with
  | zero => exact readsInRange_zero
  | succ fuel reads => exact ⟨reads.value_succ, reads.items_succ, reads.members_succ⟩

/-- A tree that is read from a text is in range. -/
theorem InRange.of_parse?
    {text : String}
    {tree : Json}
    (read : parse? text = some tree) :
    tree.InRange := by
  obtain ⟨⟨value, _⟩, valueRead, read⟩ := Option.bind_eq_some_iff.1 read
  dsimp only at read
  split at read
  · obtain rfl := Option.some.inj read
    exact (readsInRange _).value valueRead
  · cases read

end Json
end VisualQuery
