import Mathlib.Data.List.Nodup
import VisualQuery.Graph.VariableNames

/-!
# When query variables are distinct

A label is first given its normalized form and then that form with 1, 2, …
behind it.  Names of one normalized label never meet.  Names of two different
ones meet exactly when one of them is the other with a number behind it that
was handed out: the first use of the longer label repeats that name.
-/

namespace VisualQuery
namespace VariableNames

/-! ## Numerals -/

/-- The beginning of a numeral is a numeral of a smaller number. -/
theorem exists_numeral_of_append
    {number : Nat}
    (positive : 0 < number)
    {front back : List Char}
    (nonempty : front ≠ [])
    (split : Nat.toDigits 10 number = front ++ back) :
    ∃ smaller, 0 < smaller ∧ smaller ≤ number ∧ front = Nat.toDigits 10 smaller := by
  induction number using Nat.strongRecOn generalizing back with
  | _ number inductionHypothesis =>
      rcases List.eq_nil_or_concat back with rfl | ⟨init, last, rfl⟩
      · exact ⟨number, positive, Nat.le_refl number, by simpa using split.symm⟩
      · rw [List.concat_eq_append, ← List.append_assoc] at split
        by_cases short : number < 10
        · rw [Nat.toDigits_of_lt_base short] at split
          have lengths := congrArg List.length split
          have frontPositive := List.length_pos_of_ne_nil nonempty
          simp only [List.length_append, List.length_cons, List.length_nil] at lengths
          omega
        · rw [Nat.toDigits_of_base_le (by omega) (by omega)] at split
          obtain ⟨init_eq, _⟩ := List.append_inj' split rfl
          obtain ⟨smaller, smallerPositive, bound, front_eq⟩ :=
            inductionHypothesis (number / 10) (by omega) (by omega) init_eq
          exact ⟨smaller, smallerPositive, by omega, front_eq⟩

theorem toDigits_injective
    {left right : Nat}
    (same : Nat.toDigits 10 left = Nat.toDigits 10 right) :
    left = right := by
  have values := congrArg (fun digits => Nat.ofDigitChars 10 digits 0) same
  simpa using values

/-- A base with a number behind it; zero is not written. -/
def numbered (base : String) : Nat → String
  | 0 => base
  | number + 1 => base ++ Nat.repr (number + 1)

/-- What stands behind the base. -/
def suffix : Nat → List Char
  | 0 => []
  | number + 1 => Nat.toDigits 10 (number + 1)

theorem toList_numbered
    (base : String)
    (number : Nat) :
    (numbered base number).toList = base.toList ++ suffix number := by
  cases number with
  | zero => simp [numbered, suffix]
  | succ number => simp [numbered, suffix]

theorem suffix_injective
    {left right : Nat}
    (same : suffix left = suffix right) :
    left = right := by
  cases left with
  | zero =>
      cases right with
      | zero => rfl
      | succ right => exact absurd same.symm Nat.toDigits_ne_nil
  | succ left =>
      cases right with
      | zero => exact absurd same Nat.toDigits_ne_nil
      | succ right => exact toDigits_injective same

theorem numbered_injective
    {base : String}
    {left right : Nat}
    (same : numbered base left = numbered base right) :
    left = right := by
  have lists := congrArg String.toList same
  rw [toList_numbered, toList_numbered] at lists
  exact suffix_injective (List.append_cancel_left lists)

/-- If a longer base has a name of a shorter one, it is the shorter base with a
number that is at most the number of that name. -/
theorem exists_number_of_longer
    {base longer : String}
    {rest : List Char}
    {number other : Nat}
    (different : base ≠ longer)
    (extends_base : longer.toList = base.toList ++ rest)
    (meets : suffix number = rest ++ suffix other) :
    ∃ smaller, 0 < smaller ∧ smaller ≤ number ∧ longer = base ++ Nat.repr smaller := by
  have nonempty : rest ≠ [] := by
    rintro rfl
    apply different
    rw [List.append_nil] at extends_base
    exact (String.toList_injective extends_base).symm
  cases number with
  | zero =>
      have isEmpty := (List.append_eq_nil_iff.1 meets.symm).1
      exact absurd isEmpty nonempty
  | succ number =>
      obtain ⟨smaller, positive, bound, rest_eq⟩ :=
        exists_numeral_of_append (Nat.succ_pos number) nonempty meets
      refine ⟨smaller, positive, bound, ?_⟩
      apply String.toList_injective
      rw [extends_base, rest_eq]
      simp

/-! ## Normalized labels -/

theorem normalize_ne_empty (label : String) : normalize label ≠ "" := by
  unfold normalize
  split
  · decide
  · rename_i letters nonempty
    intro isEmpty
    apply nonempty
    simpa using congrArg String.toList isEmpty

/-! ## Handing out names -/

/-- How many labels have a normalized form. -/
def uses (base : String) (labels : List String) : Nat :=
  labels.countP fun label => normalize label = base

theorem uses_append_self
    (labels : List String)
    (label : String) :
    uses (normalize label) (labels ++ [label]) = uses (normalize label) labels + 1 := by
  simp [uses]

theorem uses_append_of_ne
    {base label : String}
    (different : normalize label ≠ base)
    (labels : List String) :
    uses base (labels ++ [label]) = uses base labels := by
  simp [uses, different]

/-- Names for some labels one after the other, and the counters after them. -/
def issue : List String → VariableNames → List String × VariableNames
  | [], names => ([], names)
  | label :: rest, names =>
    let (name, between) := names.next label
    let (others, last) := issue rest between
    (name :: others, last)

theorem issue_append
    (first second : List String)
    (names : VariableNames) :
    issue (first ++ second) names =
      ((issue first names).1 ++ (issue second (issue first names).2).1,
        (issue second (issue first names).2).2) := by
  induction first generalizing names with
  | nil => rfl
  | cons label rest inductionHypothesis =>
      simp only [List.cons_append, issue, inductionHypothesis]

/-- Counters after some labels: a base is missing before its first use and
afterwards counts the uses behind the first. -/
def Counts (labels : List String) (names : VariableNames) : Prop :=
  ∀ base, KeyedList.lookup? base names.counters =
    match uses base labels with
    | 0 => none
    | count + 1 => some count

theorem counts_nil : Counts [] {} := by
  intro base
  rfl

/-- The next name carries the number of earlier uses. -/
theorem next_of_counts
    {labels : List String}
    {names : VariableNames}
    (counts : Counts labels names)
    (label : String) :
    (names.next label).1 = numbered (normalize label) (uses (normalize label) labels) ∧
      Counts (labels ++ [label]) (names.next label).2 := by
  have stored := counts (normalize label)
  have others (inserted : Nat) (base : String) (different : normalize label ≠ base) :
      KeyedList.lookup? base (KeyedList.insert (normalize label) inserted names.counters) =
        match uses base (labels ++ [label]) with
        | 0 => none
        | count + 1 => some count := by
    rw [KeyedList.lookup?_insert_of_ne (Ne.symm different), uses_append_of_ne different]
    exact counts base
  cases used : uses (normalize label) labels with
  | zero =>
      rw [used] at stored
      simp only [next, stored]
      refine ⟨rfl, ?_⟩
      intro base
      by_cases same : normalize label = base
      · subst same
        rw [KeyedList.lookup?_insert_self, uses_append_self, used]
      · exact others 0 base same
  | succ count =>
      rw [used] at stored
      simp only [next, stored]
      refine ⟨rfl, ?_⟩
      intro base
      by_cases same : normalize label = base
      · subst same
        rw [KeyedList.lookup?_insert_self, uses_append_self, used]
      · exact others (count + 1) base same

/-- Base and number of the names that follow some earlier labels. -/
def slots (earlier : List String) : List String → List (String × Nat)
  | [] => []
  | label :: rest =>
    (normalize label, uses (normalize label) earlier) :: slots (earlier ++ [label]) rest

/-- The names handed out are those of the slots. -/
theorem issue_eq_slots
    {earlier : List String}
    {names : VariableNames}
    (counts : Counts earlier names)
    (labels : List String) :
    (issue labels names).1 = (slots earlier labels).map fun slot => numbered slot.1 slot.2 := by
  induction labels generalizing earlier names with
  | nil => rfl
  | cons label rest inductionHypothesis =>
      obtain ⟨name_eq, nextCounts⟩ := next_of_counts counts label
      simp only [issue, slots, List.map_cons, name_eq, inductionHypothesis nextCounts]

theorem map_fst_slots (earlier labels : List String) :
    (slots earlier labels).map Prod.fst = labels.map normalize := by
  induction labels generalizing earlier with
  | nil => rfl
  | cons label rest inductionHypothesis => simp [slots, inductionHypothesis]

/-- The slots of a base are the numbers of its new uses. -/
theorem mem_slots
    {earlier labels : List String}
    {base : String}
    {number : Nat} :
    (base, number) ∈ slots earlier labels ↔
      uses base earlier ≤ number ∧ number < uses base (earlier ++ labels) := by
  induction labels generalizing earlier with
  | nil =>
      simp only [slots, List.not_mem_nil, List.append_nil, false_iff]
      omega
  | cons label rest inductionHypothesis =>
      have regroup : earlier ++ label :: rest = (earlier ++ [label]) ++ rest := by simp
      have grows : uses base (earlier ++ [label]) ≤ uses base ((earlier ++ [label]) ++ rest) :=
        (List.sublist_append_left _ _).countP_le
      simp only [slots, List.mem_cons, Prod.mk.injEq, inductionHypothesis, regroup]
      by_cases same : normalize label = base
      · subst same
        rw [uses_append_self] at grows ⊢
        simp only [true_and]
        omega
      · rw [uses_append_of_ne same] at grows ⊢
        simp only [Ne.symm same, false_and, false_or]

theorem nodup_slots (earlier labels : List String) :
    (slots earlier labels).Nodup := by
  induction labels generalizing earlier with
  | nil => exact List.nodup_nil
  | cons label rest inductionHypothesis =>
      refine List.nodup_cons.2 ⟨?_, inductionHypothesis _⟩
      rw [mem_slots, uses_append_self]
      omega

/-! ## The exact condition -/

/-- Some label is another one with a number behind it, and the other one was
used more often than that number says. -/
def Clash (labels : List String) : Prop :=
  ∃ label ∈ labels, ∃ longer ∈ labels, ∃ number,
    0 < number ∧ number < uses (normalize label) labels ∧
      normalize longer = normalize label ++ Nat.repr number

theorem exists_label_of_uses_pos
    {base : String}
    {labels : List String}
    (used : 0 < uses base labels) :
    ∃ label ∈ labels, normalize label = base := by
  obtain ⟨label, member, normalized⟩ := List.countP_pos_iff.1 used
  exact ⟨label, member, by simpa using normalized⟩

theorem uses_pos_of_mem
    {label : String}
    {labels : List String}
    (member : label ∈ labels) :
    0 < uses (normalize label) labels :=
  List.countP_pos_iff.2 ⟨label, member, by simp⟩

/-- Two bases with a common name clash if the second is the longer one. -/
theorem clash_of_longer
    {labels : List String}
    {base longer : String}
    {rest : List Char}
    {number other : Nat}
    (different : base ≠ longer)
    (numberUsed : number < uses base labels)
    (otherUsed : other < uses longer labels)
    (extends_base : longer.toList = base.toList ++ rest)
    (meets : suffix number = rest ++ suffix other) :
    Clash labels := by
  obtain ⟨smaller, positive, bound, longer_eq⟩ :=
    exists_number_of_longer different extends_base meets
  obtain ⟨label, member, rfl⟩ := exists_label_of_uses_pos (Nat.zero_lt_of_lt numberUsed)
  obtain ⟨longLabel, longMember, rfl⟩ := exists_label_of_uses_pos (Nat.zero_lt_of_lt otherUsed)
  exact ⟨label, member, longLabel, longMember, smaller, positive, by omega, longer_eq⟩

/-- Different slots with one name clash. -/
theorem clash_of_numbered_eq
    {labels : List String}
    {left right : String × Nat}
    (leftUsed : left.2 < uses left.1 labels)
    (rightUsed : right.2 < uses right.1 labels)
    (different : left ≠ right)
    (same : numbered left.1 left.2 = numbered right.1 right.2) :
    Clash labels := by
  obtain ⟨leftBase, leftNumber⟩ := left
  obtain ⟨rightBase, rightNumber⟩ := right
  dsimp only at leftUsed rightUsed same
  have differentBases : leftBase ≠ rightBase := by
    rintro rfl
    exact different (by rw [numbered_injective same])
  have lists := congrArg String.toList same
  rw [toList_numbered, toList_numbered] at lists
  rcases List.append_eq_append_iff.1 lists with
    ⟨rest, right_eq, meets⟩ | ⟨rest, left_eq, meets⟩
  · exact clash_of_longer differentBases leftUsed rightUsed right_eq meets
  · exact clash_of_longer (Ne.symm differentBases) rightUsed leftUsed left_eq meets

/-- Names handed out from the start are distinct exactly if no labels clash. -/
theorem nodup_issue_iff (labels : List String) :
    (issue labels {}).1.Nodup ↔ ¬Clash labels := by
  rw [issue_eq_slots counts_nil, List.nodup_map_iff_inj_on (nodup_slots [] labels)]
  have member (slot : String × Nat) :
      slot ∈ slots [] labels ↔ slot.2 < uses slot.1 labels := by
    obtain ⟨base, number⟩ := slot
    rw [mem_slots]
    simp [uses]
  constructor
  · rintro injective ⟨label, labelMember, longer, longerMember, number, positive, used, meets⟩
    have same := injective (normalize label, number) ((member _).2 used)
      (normalize longer, 0) ((member _).2 (uses_pos_of_mem longerMember)) (by
        obtain ⟨count, rfl⟩ := Nat.exists_eq_succ_of_ne_zero (Nat.ne_of_gt positive)
        exact meets.symm)
    injection same with _ number_eq
    omega
  · intro clear left leftMember right rightMember same
    by_contra different
    exact clear (clash_of_numbered_eq ((member left).1 leftMember)
      ((member right).1 rightMember) different same)

example : (issue ["Person", "Person", "Person1"] {}).1 = ["person", "person1", "person1"] := by
  decide +kernel

/-- Names of one normalized label are always distinct. -/
theorem nodup_zip_issue (labels : List String) :
    ((labels.map normalize).zip (issue labels {}).1).Nodup := by
  rw [issue_eq_slots counts_nil, ← map_fst_slots [] labels, List.zip_map']
  refine (nodup_slots [] labels).map ?_
  rintro ⟨leftBase, leftNumber⟩ ⟨rightBase, rightNumber⟩ same
  injection same with base_eq name_eq
  dsimp only at base_eq name_eq
  subst base_eq
  rw [numbered_injective name_eq]

end VariableNames
end VisualQuery
