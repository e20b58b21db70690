import Mathlib.Data.Prod.Lex
import Mathlib.Data.String.Basic
import VisualQuery.Metadata.Registry
import VisualQuery.Proofs.KeyedList

/-!
# Registering labels in any order

A label that a declaration lists among its children is registered with it, and
the first declaration in label order that claims a label becomes its parent,
unless the label names a parent itself.  So a registry depends neither on the
order in which the labels are declared nor on the order in which a hash table
of the declarations is met.
-/

namespace VisualQuery
namespace LabelRegistry

/-! ## Claiming children -/

/-- A declaration claims the labels it lists, apart from its own. -/
def Claims (entry : String × LabelDeclaration) (label : String) : Prop :=
  label ≠ entry.1 ∧ label ∈ entry.2.children

instance (entry : String × LabelDeclaration) (label : String) : Decidable (Claims entry label) :=
  inferInstanceAs (Decidable (_ ∧ _))

/-- The first label whose declaration claims a label. -/
def claimant? (entries : List (String × LabelDeclaration)) (label : String) : Option String :=
  (entries.find? fun entry => Claims entry label).map Prod.fst

/-- A declaration, or an empty one, with a parent for want of its own. -/
def withParent (parent : String) (found : Option LabelDeclaration) : LabelDeclaration :=
  { found.getD {} with parent := some (((found.getD {}).parent).getD parent) }

/-- What is registered for a label, given who claims it first. -/
def claimed (claimant : Option String) (found : Option LabelDeclaration) :
    Option LabelDeclaration :=
  match claimant with
  | some parent => some (withParent parent found)
  | none => found

@[simp] theorem withParent_parent (parent : String) (found : Option LabelDeclaration) :
    (withParent parent found).parent = some ((found.bind LabelDeclaration.parent).getD parent) := by
  cases found <;> rfl

/-- A parent of its own stays. -/
theorem withParent_eq_self
    {declaration : LabelDeclaration}
    {elder : String}
    (own : declaration.parent = some elder)
    (parent : String) :
    withParent parent (some declaration) = declaration := by
  simp only [withParent, Option.getD_some, own]
  rw [← own]

/-- Children of one label are adopted one by one. -/
theorem lookup?_adopt
    (parent child label : String)
    (known : KeyedList LabelDeclaration) :
    KeyedList.lookup? label (adopt parent known child) =
      if label ≠ parent ∧ label = child then
        some (withParent parent (KeyedList.lookup? label known))
      else KeyedList.lookup? label known := by
  by_cases isChild : label = child
  · subst isChild
    by_cases isSelf : label = parent
    · simp [adopt, isSelf]
    · rw [if_pos ⟨isSelf, rfl⟩, adopt, if_neg isSelf]
      cases found : KeyedList.lookup? label known with
      | none =>
          rw [KeyedList.lookup?_insert_self]
          rfl
      | some declaration =>
          cases own : declaration.parent with
          | none =>
              simp only [own, KeyedList.lookup?_insert_self]
              simp [withParent, own]
          | some elder =>
              simp only [own, found, withParent_eq_self own]
  · rw [if_neg (fun both => isChild both.2), adopt]
    split
    · rfl
    · split
      · split
        · rfl
        · exact KeyedList.lookup?_insert_of_ne isChild _ _
      · exact KeyedList.lookup?_insert_of_ne isChild _ _

/-- All children of a label are adopted, whatever their order and however often
they are listed. -/
theorem lookup?_foldl_adopt
    (parent label : String)
    (children : List String)
    (known : KeyedList LabelDeclaration) :
    KeyedList.lookup? label (children.foldl (adopt parent) known) =
      if label ≠ parent ∧ label ∈ children then
        some (withParent parent (KeyedList.lookup? label known))
      else KeyedList.lookup? label known := by
  induction children generalizing known with
  | nil => simp
  | cons child rest inductionHypothesis =>
      rw [List.foldl_cons, inductionHypothesis, lookup?_adopt]
      by_cases isSelf : label = parent
      · simp [isSelf]
      · by_cases isChild : label = child
        · subst isChild
          have stays := withParent_eq_self
            (withParent_parent parent (KeyedList.lookup? label known)) parent
          simp [isSelf, stays]
        · simp [isSelf, isChild]

/-- Of several labels that claim a label, the first one gets it. -/
theorem lookup?_foldl_claims
    (entries : List (String × LabelDeclaration))
    (label : String)
    (known : KeyedList LabelDeclaration) :
    KeyedList.lookup? label
        (entries.foldl (fun known entry => entry.2.children.foldl (adopt entry.1) known) known) =
      claimed (claimant? entries label) (KeyedList.lookup? label known) := by
  induction entries generalizing known with
  | nil => rfl
  | cons entry rest inductionHypothesis =>
      rw [List.foldl_cons, inductionHypothesis, lookup?_foldl_adopt]
      by_cases claims : Claims entry label
      · have first : claimant? (entry :: rest) label = some entry.1 := by
          simp [claimant?, claims]
        rw [if_pos (show label ≠ entry.1 ∧ label ∈ entry.2.children from claims), first]
        cases claimant? rest label <;> rfl
      · have later : claimant? (entry :: rest) label = claimant? rest label := by
          simp [claimant?, claims]
        rw [if_neg (show ¬ (label ≠ entry.1 ∧ label ∈ entry.2.children) from claims), later]

/-! ## The claimant with the least label -/

variable {entries : List (String × LabelDeclaration)} {label parent : String}

theorem claimant?_eq_none_iff :
    claimant? entries label = none ↔ ∀ entry ∈ entries, ¬ Claims entry label := by
  simp [claimant?, List.find?_eq_none]

/-- In label order the first claimant is the least one. -/
theorem claimant?_eq_some_iff
    (sorted : KeyedList.Sorted entries) :
    claimant? entries label = some parent ↔
      (∃ entry ∈ entries, entry.1 = parent ∧ Claims entry label) ∧
        ∀ rival ∈ entries, Claims rival label → parent ≤ rival.1 := by
  induction entries with
  | nil => simp [claimant?]
  | cons entry rest inductionHypothesis =>
      obtain ⟨before, others⟩ := List.pairwise_cons.1 sorted
      by_cases claims : Claims entry label
      · have first : claimant? (entry :: rest) label = some entry.1 := by
          simp [claimant?, claims]
        rw [first, Option.some_inj]
        constructor
        · rintro rfl
          refine ⟨⟨entry, List.mem_cons_self, rfl, claims⟩, ?_⟩
          intro rival member _
          rcases List.mem_cons.1 member with rfl | later
          · exact String.le_refl _
          · exact String.not_lt.1 (String.lt_asymm (before rival later))
        · rintro ⟨⟨other, member, rfl, _⟩, least⟩
          rcases List.mem_cons.1 member with rfl | later
          · rfl
          · exact absurd (before other later)
              (String.not_lt.2 (least entry List.mem_cons_self claims))
      · have later : claimant? (entry :: rest) label = claimant? rest label := by
          simp [claimant?, claims]
        rw [later, inductionHypothesis others]
        simp [claims]

/-! ## What is registered -/

variable
  (declared : List (String × LabelDeclaration))
  (overrides : Option LabelDeclaration)
  (relationFilter : Option (Relationship → Bool))

/-- The declaration of a label gets a parent for want of its own, from the
first label that claims it. -/
theorem lookup?_build (label : String) :
    KeyedList.lookup? label (build declared overrides relationFilter).declarations =
      claimed (claimant? (KeyedList.ofList declared) label)
        (KeyedList.lookup? label (KeyedList.ofList declared)) :=
  lookup?_foldl_claims _ label _

/-- Declared labels and labels listed as children are registered, and no
others. -/
theorem mem_labels_iff :
    label ∈ (build declared overrides relationFilter).labels ↔
      label ∈ KeyedList.keys (KeyedList.ofList declared) ∨
        ∃ entry ∈ KeyedList.ofList declared, label ∈ entry.2.children := by
  have missing : label ∉ (build declared overrides relationFilter).labels ↔
      claimant? (KeyedList.ofList declared) label = none ∧
        label ∉ KeyedList.keys (KeyedList.ofList declared) := by
    rw [labels, ← KeyedList.lookup?_eq_none_iff, lookup?_build, ← KeyedList.lookup?_eq_none_iff]
    cases claimant? (KeyedList.ofList declared) label <;> simp [claimed]
  rw [← not_iff_not, missing, claimant?_eq_none_iff, not_or]
  constructor
  · rintro ⟨noClaim, undeclared⟩
    refine ⟨undeclared, ?_⟩
    rintro ⟨entry, member, listed⟩
    refine noClaim entry member ⟨?_, listed⟩
    rintro rfl
    exact undeclared (List.mem_map_of_mem member)
  · rintro ⟨undeclared, unlisted⟩
    exact ⟨fun entry member claims => unlisted ⟨entry, member, claims.2⟩, undeclared⟩

/-- The nearest declaration of a label is its own. -/
theorem resolve_parent
    (registry : LabelRegistry)
    (label : String) :
    (registry.resolve label).parent =
      (KeyedList.lookup? label registry.declarations).bind LabelDeclaration.parent := by
  have nearest : (ancestry registry.declarations label []).head? =
      KeyedList.lookup? label registry.declarations := by
    rw [ancestry, dif_neg List.not_mem_nil]
    split
    · rename_i undeclared
      rw [undeclared]
      rfl
    · rename_i declaration found
      rw [found]
      split <;> rfl
  exact congrArg (Option.bind · LabelDeclaration.parent) nearest

/-- A label has the parent it names, else the first label that claims it. -/
theorem claimed_parent
    (claimant : Option String)
    (found : Option LabelDeclaration) :
    (claimed claimant found).bind LabelDeclaration.parent =
      (found.bind LabelDeclaration.parent <|> claimant) := by
  cases claimant with
  | none => simp [claimed]
  | some parent =>
    cases own : found.bind LabelDeclaration.parent <;> simp [claimed, own]

/-- The parent of a label is the one it names, else the least label that claims
it. -/
theorem resolve_parent_eq_some_iff :
    ((build declared overrides relationFilter).resolve label).parent = some parent ↔
      (∃ declaration,
        (label, declaration) ∈ KeyedList.ofList declared ∧ declaration.parent = some parent) ∨
      ((∀ declaration,
          (label, declaration) ∈ KeyedList.ofList declared → declaration.parent = none) ∧
        (∃ entry ∈ KeyedList.ofList declared, entry.1 = parent ∧ Claims entry label) ∧
          ∀ rival ∈ KeyedList.ofList declared, Claims rival label → parent ≤ rival.1) := by
  have sorted := KeyedList.sorted_ofList declared
  rw [resolve_parent, lookup?_build, claimed_parent, ← claimant?_eq_some_iff sorted]
  simp only [← sorted.lookup?_eq_some_iff]
  cases found : KeyedList.lookup? label (KeyedList.ofList declared) with
  | none => simp
  | some declaration =>
      cases own : declaration.parent <;> simp [own]

/-! ## Meeting the declarations in some order -/

/-- Labels with their children, for the labels that have some. -/
def parents (met : List (String × LabelDeclaration)) : List (String × List String) :=
  (met.filter fun entry => !entry.2.children.isEmpty).map fun entry =>
    (entry.1, entry.2.children)

/-- Adopt the children of all declarations of a table that is met in some
order: the labels with their children are sorted before the table changes. -/
def adoptMet (met : List (String × LabelDeclaration)) (table : KeyedList LabelDeclaration) :
    KeyedList LabelDeclaration :=
  ((parents met).mergeSort fun left right => toLex left ≤ toLex right).foldl
    (fun known entry => entry.2.foldl (adopt entry.1) known) table

/-- In label order, labels with their children are sorted already. -/
theorem parents_ordered
    {table : KeyedList LabelDeclaration}
    (sorted : table.Sorted) :
    (parents table).Pairwise fun left right => toLex left ≤ toLex right := by
  refine List.pairwise_map.2 ((List.Pairwise.filter _ sorted).imp ?_)
  intro left right before
  exact (Prod.Lex.toLex_le_toLex).2 (Or.inl before)

/-- Sorting makes up for the order in which the declarations are met. -/
theorem mergeSort_parents
    {met : List (String × LabelDeclaration)}
    {table : KeyedList LabelDeclaration}
    (sorted : table.Sorted)
    (perm : met.Perm table) :
    ((parents met).mergeSort fun left right => toLex left ≤ toLex right) = parents table := by
  have isSorted : ((parents met).mergeSort fun left right => toLex left ≤ toLex right).Pairwise
      fun left right => decide (toLex left ≤ toLex right) = true :=
    List.pairwise_mergeSort (fun _ _ _ => by simpa using le_trans)
      (fun _ _ => by simpa using le_total _ _) _
  simp only [decide_eq_true_eq] at isSorted
  refine List.Perm.eq_of_pairwise ?_ isSorted (parents_ordered sorted)
    ((List.mergeSort_perm _ _).trans ((perm.filter _).map _))
  intro left right _ _ before after
  exact toLex.injective (le_antisymm before after)

/-- However the table is met, its children are adopted alike. -/
theorem adoptMet_eq
    {met : List (String × LabelDeclaration)}
    {table : KeyedList LabelDeclaration}
    (sorted : table.Sorted)
    (perm : met.Perm table) :
    adoptMet met table = adoptChildren table := by
  rw [adoptMet, mergeSort_parents sorted perm, parents, List.foldl_map, List.foldl_filter,
    adoptChildren]
  congr
  funext known entry
  cases entry.2.children <;> rfl

/-! ## Independence of the order -/

/-- Labels that are declared once can be declared in any order, and a hash table
of them met in any order: the labels registered and what they are resolved to
are the same.  Registered are the labels that are declared and those listed as
children.  The parent of a label is the one it names, else the least label
other than itself that lists it. -/
theorem registration_orderFree
    {declared other : List (String × LabelDeclaration)}
    (distinct : (declared.map Prod.fst).Nodup)
    (reordered : other.Perm declared)
    (overrides : Option LabelDeclaration)
    (relationFilter : Option (Relationship → Bool)) :
    (build other overrides relationFilter).labels =
        (build declared overrides relationFilter).labels ∧
      (∀ label, (build other overrides relationFilter).resolve label =
        (build declared overrides relationFilter).resolve label) ∧
      (∀ met, met.Perm (KeyedList.ofList other) →
        adoptMet met (KeyedList.ofList other) =
          (build declared overrides relationFilter).declarations) ∧
      ∀ label,
        (label ∈ (build declared overrides relationFilter).labels ↔
          label ∈ declared.map Prod.fst ∨ ∃ entry ∈ declared, label ∈ entry.2.children) ∧
        ∀ parent,
          ((build declared overrides relationFilter).resolve label).parent = some parent ↔
            (∃ declaration,
              (label, declaration) ∈ declared ∧ declaration.parent = some parent) ∨
            ((∀ declaration, (label, declaration) ∈ declared → declaration.parent = none) ∧
              (∃ entry ∈ declared,
                entry.1 = parent ∧ label ≠ entry.1 ∧ label ∈ entry.2.children) ∧
              ∀ rival ∈ declared,
                label ≠ rival.1 ∧ label ∈ rival.2.children → parent ≤ rival.1) := by
  have sameTable : KeyedList.ofList other = KeyedList.ofList declared :=
    KeyedList.ofList_eq_of_perm reordered distinct
  have sameRegistry : build other overrides relationFilter =
      build declared overrides relationFilter := by
    simp only [build, sameTable]
  have sorted := KeyedList.sorted_ofList declared
  have asDeclared {entry : String × LabelDeclaration} :
      entry ∈ KeyedList.ofList declared ↔ entry ∈ declared :=
    (KeyedList.ofList_perm distinct).mem_iff
  refine ⟨by rw [sameRegistry], fun label => by rw [sameRegistry], ?_, fun label => ⟨?_, ?_⟩⟩
  · intro met perm
    rw [sameTable] at perm ⊢
    exact adoptMet_eq sorted perm
  · rw [mem_labels_iff, KeyedList.mem_keys_ofList]
    simp only [asDeclared]
  · intro parent
    rw [resolve_parent_eq_some_iff]
    simp only [asDeclared, Claims]

/-- Two labels list one child, declared in either order: the lesser one is its
parent. -/
theorem registration_orderFree_sharedCustomer :
    let declared : List (String × LabelDeclaration) :=
      [("Company", { children := ["Customer", "Company"] }),
        ("Account", { children := ["Customer"], group := some true })]
    (declared.map Prod.fst).Nodup ∧ declared.reverse.Perm declared ∧
      (build declared.reverse none none).labels = ["Account", "Company", "Customer"] ∧
      ((build declared.reverse none none).resolve "Customer").parent = some "Account" := by
  intro declared
  have distinct : (declared.map Prod.fst).Nodup := by decide
  have reordered : declared.reverse.Perm declared := List.reverse_perm declared
  obtain ⟨sameLabels, sameMetadata, _, registered⟩ :=
    registration_orderFree distinct reordered none none
  refine ⟨distinct, reordered, ?_, ?_⟩
  · rw [sameLabels]
    decide +kernel
  · rw [sameMetadata]
    refine ((registered "Customer").2 "Account").2 (Or.inr ⟨?_, ?_, ?_⟩)
    · simp [declared]
    · exact ⟨_, List.mem_cons_of_mem _ List.mem_cons_self, rfl, by decide, by decide⟩
    · simp [declared]

end LabelRegistry
end VisualQuery
