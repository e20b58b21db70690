import Mathlib.Data.List.Nodup
import VisualQuery.KeyedList

/-!
# Keyed lists as finite maps

Collected pairs are sorted by key, so a keyed list is determined by what is found
under its keys.  Pairs with different keys can therefore be collected in any
order.
-/

namespace VisualQuery
namespace KeyedList

variable {α : Type}

/-! ## What is stored -/

/-- A value stays under its key while other keys, or the same value, are
stored. -/
theorem lookup?_foldl_insert
    {key : String}
    {value : α}
    (pairs : List (String × α))
    (entries : KeyedList α)
    (only : ∀ pair ∈ pairs, pair.1 = key → pair.2 = value)
    (present : (key, value) ∈ pairs ∨ lookup? key entries = some value) :
    lookup? key (pairs.foldl (fun entries pair => insert pair.1 pair.2 entries) entries) =
      some value := by
  induction pairs generalizing entries with
  | nil =>
      rcases present with impossible | stored
      · simp at impossible
      · exact stored
  | cons pair rest inductionHypothesis =>
      apply inductionHypothesis
      · intro other member
        exact only other (List.mem_cons_of_mem _ member)
      · show (key, value) ∈ rest ∨ lookup? key (insert pair.1 pair.2 entries) = some value
        by_cases same : pair.1 = key
        · refine Or.inr ?_
          rw [same, only pair List.mem_cons_self same]
          exact lookup?_insert_self key value entries
        · rcases present with member | stored
          · rcases List.mem_cons.1 member with rfl | later
            · exact absurd rfl same
            · exact Or.inl later
          · refine Or.inr ?_
            rw [lookup?_insert_of_ne (Ne.symm same)]
            exact stored

/-- A pair that no other pair contradicts is found under its key. -/
theorem lookup?_ofList_of_mem
    {key : String}
    {value : α}
    {pairs : List (String × α)}
    (member : (key, value) ∈ pairs)
    (only : ∀ pair ∈ pairs, pair.1 = key → pair.2 = value) :
    lookup? key (ofList pairs) = some value :=
  lookup?_foldl_insert pairs [] only (Or.inl member)

theorem mem_keys_insert
    {key other : String}
    {value : α}
    {entries : KeyedList α} :
    other ∈ keys (insert key value entries) ↔ other = key ∨ other ∈ keys entries := by
  induction entries with
  | nil => simp [insert, keys]
  | cons entry rest inductionHypothesis =>
      obtain ⟨candidate, stored⟩ := entry
      simp only [keys] at inductionHypothesis
      simp only [insert]
      split
      · rename_i same
        simp [keys, same]
      · split
        · simp [keys]
        · simp only [keys, List.map_cons, List.mem_cons, inductionHypothesis]
          exact or_left_comm

/-- The keys of collected pairs are those of the pairs. -/
theorem mem_keys_ofList
    {key : String}
    {pairs : List (String × α)} :
    key ∈ keys (ofList pairs) ↔ key ∈ pairs.map Prod.fst := by
  have collected : ∀ entries : KeyedList α,
      key ∈ keys (pairs.foldl (fun entries pair => insert pair.1 pair.2 entries) entries) ↔
        key ∈ pairs.map Prod.fst ∨ key ∈ keys entries := by
    induction pairs with
    | nil => simp
    | cons pair rest inductionHypothesis =>
        intro entries
        rw [List.foldl_cons, inductionHypothesis, mem_keys_insert, List.map_cons, List.mem_cons,
          or_assoc, or_left_comm]
  rw [ofList, collected]
  simp [keys]

/-- Storing a pair adds nothing else. -/
theorem mem_of_mem_insert
    {key : String}
    {value : α}
    {pair : String × α}
    {entries : KeyedList α}
    (member : pair ∈ insert key value entries) :
    pair = (key, value) ∨ pair ∈ entries := by
  induction entries with
  | nil => exact Or.inl (List.mem_singleton.1 member)
  | cons entry rest inductionHypothesis =>
      simp only [insert] at member
      split at member
      · exact (List.mem_cons.1 member).imp_right (List.mem_cons_of_mem _)
      · split at member
        · exact List.mem_cons.1 member
        · rcases List.mem_cons.1 member with rfl | later
          · exact Or.inr List.mem_cons_self
          · exact (inductionHypothesis later).imp_right (List.mem_cons_of_mem _)

/-- Only pairs that are stored are collected. -/
theorem mem_of_mem_ofList
    {pair : String × α}
    {pairs : List (String × α)}
    (member : pair ∈ ofList pairs) :
    pair ∈ pairs := by
  have collected : ∀ entries : KeyedList α,
      pair ∈ pairs.foldl (fun entries pair => insert pair.1 pair.2 entries) entries →
        pair ∈ pairs ∨ pair ∈ entries := by
    clear member
    induction pairs with
    | nil => exact fun _ => Or.inr
    | cons new rest inductionHypothesis =>
        intro entries within
        rcases inductionHypothesis _ within with later | before
        · exact Or.inl (List.mem_cons_of_mem _ later)
        · rcases mem_of_mem_insert before with rfl | earlier
          · exact Or.inl List.mem_cons_self
          · exact Or.inr earlier
  exact (collected [] member).resolve_right List.not_mem_nil

/-- Nothing is found exactly under the keys that are missing. -/
theorem lookup?_eq_none_iff
    {key : String}
    {entries : KeyedList α} :
    lookup? key entries = none ↔ key ∉ keys entries := by
  induction entries with
  | nil => simp [keys]
  | cons entry rest inductionHypothesis =>
      obtain ⟨candidate, stored⟩ := entry
      simp only [keys] at inductionHypothesis
      by_cases same : candidate = key
      · simp [lookup?, keys, same]
      · simp [lookup?, keys, same, Ne.symm same, inductionHypothesis]

theorem contains_iff
    {key : String}
    {entries : KeyedList α} :
    contains key entries = true ↔ key ∈ keys entries := by
  rw [contains, Option.isSome_iff_ne_none, Ne, lookup?_eq_none_iff, Classical.not_not]

/-! ## Order -/

/-- Storing keeps the order of the keys. -/
theorem Sorted.insert
    {entries : KeyedList α}
    (sorted : Sorted entries)
    (key : String)
    (value : α) :
    Sorted (insert key value entries) := by
  induction entries with
  | nil => exact List.pairwise_singleton _ _
  | cons entry rest inductionHypothesis =>
      obtain ⟨candidate, stored⟩ := entry
      obtain ⟨first, others⟩ := List.pairwise_cons.1 sorted
      simp only [KeyedList.insert]
      split
      · rename_i same
        exact List.pairwise_cons.2 ⟨fun entry member => same ▸ first entry member, others⟩
      · rename_i different
        split
        · rename_i before
          refine List.pairwise_cons.2 ⟨?_, sorted⟩
          intro entry member
          rcases List.mem_cons.1 member with rfl | later
          · exact before
          · exact String.lt_trans before (first entry later)
        · rename_i notBefore
          refine List.pairwise_cons.2 ⟨?_, inductionHypothesis others⟩
          intro entry member
          have stays : entry.1 = key ∨ entry.1 ∈ keys rest :=
            mem_keys_insert.1 (List.mem_map_of_mem member)
          rcases stays with same | later
          · rw [same, ← String.not_le]
            intro reversed
            exact different (String.le_antisymm (String.not_lt.1 notBefore) reversed)
          · obtain ⟨other, otherMember, named⟩ := List.mem_map.1 later
            exact named ▸ first other otherMember

/-- Collected pairs are sorted. -/
theorem sorted_ofList (pairs : List (String × α)) : Sorted (ofList pairs) := by
  have collected : ∀ entries : KeyedList α, Sorted entries →
      Sorted (pairs.foldl (fun entries pair => KeyedList.insert pair.1 pair.2 entries)
        entries) := by
    induction pairs with
    | nil => exact fun _ sorted => sorted
    | cons pair rest inductionHypothesis =>
        exact fun entries sorted => inductionHypothesis _ (sorted.insert pair.1 pair.2)
  exact collected [] List.Pairwise.nil

/-- The entries of a sorted list are found under their keys, and nothing else
is. -/
theorem Sorted.lookup?_eq_some_iff
    {entries : KeyedList α}
    (sorted : Sorted entries)
    {key : String}
    {value : α} :
    lookup? key entries = some value ↔ (key, value) ∈ entries := by
  induction entries with
  | nil => simp
  | cons entry rest inductionHypothesis =>
      obtain ⟨candidate, stored⟩ := entry
      obtain ⟨first, others⟩ := List.pairwise_cons.1 sorted
      by_cases same : candidate = key
      · subst same
        have elsewhere : (candidate, value) ∉ rest := fun member =>
          String.lt_irrefl candidate (first (candidate, value) member)
        simp [lookup?, elsewhere, eq_comm]
      · simp [lookup?, same, Ne.symm same, inductionHypothesis others]

/-- A sorted list has different keys. -/
theorem Sorted.nodup_keys
    {entries : KeyedList α}
    (sorted : Sorted entries) :
    (entries.map Prod.fst).Nodup := by
  refine List.pairwise_map.2 (sorted.imp ?_)
  intro earlier later before same
  exact String.lt_irrefl _ (same ▸ before)

/-- Two entries of a sorted list with one key are the same. -/
theorem Sorted.eq_of_key_eq
    {entries : KeyedList α}
    (sorted : Sorted entries)
    {left right : String × α}
    (leftMember : left ∈ entries)
    (rightMember : right ∈ entries)
    (same : left.1 = right.1) :
    left = right := by
  have atLeft := sorted.lookup?_eq_some_iff.2 leftMember
  rw [same, sorted.lookup?_eq_some_iff.2 rightMember] at atLeft
  injection atLeft with sameValue
  exact Prod.ext same sameValue.symm

/-- In front of an entry of a sorted list stand those with smaller keys. -/
theorem Sorted.mem_front_iff
    {front back : KeyedList α}
    {entry other : String × α}
    (sorted : Sorted (front ++ entry :: back)) :
    other ∈ front ↔ other ∈ front ++ entry :: back ∧ other.1 < entry.1 := by
  obtain ⟨_, fromEntry, inFront⟩ := List.pairwise_append.1 sorted
  constructor
  · intro member
    exact ⟨List.mem_append_left _ member, inFront other member entry List.mem_cons_self⟩
  · rintro ⟨member, smaller⟩
    rcases List.mem_append.1 member with before | notBefore
    · exact before
    · rcases List.mem_cons.1 notBefore with rfl | behind
      · exact absurd smaller (String.lt_irrefl _)
      · have greater := (List.pairwise_cons.1 fromEntry).1 other behind
        exact absurd (String.lt_trans smaller greater) (String.lt_irrefl _)

/-- Sorted lists with the same members are equal. -/
theorem Sorted.eq_of_perm
    {left right : KeyedList α}
    (leftSorted : Sorted left)
    (rightSorted : Sorted right)
    (perm : left.Perm right) :
    left = right := by
  refine List.Perm.eq_of_pairwise ?_ leftSorted rightSorted perm
  intro one other _ _ before after
  exact absurd (String.lt_trans before after) (String.lt_irrefl _)

/-! ## Pairs with different keys -/

/-- Collecting pairs with different keys loses none of them. -/
theorem ofList_perm
    {pairs : List (String × α)}
    (distinct : (pairs.map Prod.fst).Nodup) :
    (ofList pairs).Perm pairs := by
  have sorted := sorted_ofList pairs
  refine (List.perm_ext_iff_of_nodup (List.Nodup.of_map _ sorted.nodup_keys)
    (List.Nodup.of_map _ distinct)).2 ?_
  have keeps : ∀ pair ∈ pairs, pair ∈ ofList pairs := by
    intro pair member
    refine sorted.lookup?_eq_some_iff.1 (lookup?_ofList_of_mem member ?_)
    intro other otherMember same
    rw [List.inj_on_of_nodup_map distinct otherMember member same]
  rintro ⟨key, value⟩
  refine ⟨fun member => ?_, keeps _⟩
  obtain ⟨pair, pairMember, named⟩ :=
    List.mem_map.1 (mem_keys_ofList.1 (List.mem_map_of_mem (f := Prod.fst) member))
  rwa [← sorted.eq_of_key_eq (keeps pair pairMember) member named]

/-- Sorted pairs are collected as they are. -/
theorem Sorted.ofList_eq
    {entries : KeyedList α}
    (sorted : Sorted entries) :
    ofList entries = entries :=
  (sorted_ofList entries).eq_of_perm sorted (ofList_perm sorted.nodup_keys)

/-- Pairs with different keys are collected alike in any order. -/
theorem ofList_eq_of_perm
    {left right : List (String × α)}
    (perm : left.Perm right)
    (distinct : (right.map Prod.fst).Nodup) :
    ofList left = ofList right := by
  have leftDistinct : (left.map Prod.fst).Nodup := (perm.map Prod.fst).nodup_iff.2 distinct
  exact (sorted_ofList left).eq_of_perm (sorted_ofList right)
    ((ofList_perm leftDistinct).trans (perm.trans (ofList_perm distinct).symm))

end KeyedList
end VisualQuery
