/-!
# Lists sorted by key

Attribute bags, result rows and parameter bindings are finite maps whose text
form lists the keys in increasing order.  A keyed list holds the pairs in that
order.  `insert` keeps the order and replaces the value of a key that is
already there, so `ofList` lets the last of several equal keys win.
-/

namespace VisualQuery

/-- Pairs of a key and a value; the operations keep the keys strictly increasing. -/
abbrev KeyedList (α : Type) := List (String × α)

namespace KeyedList

variable {α β : Type}

/-- The keys increase strictly from left to right. -/
def Sorted (entries : KeyedList α) : Prop :=
  entries.Pairwise fun left right => left.1 < right.1

/-- Keys in order. -/
def keys (entries : KeyedList α) : List String :=
  entries.map Prod.fst

/-- The value stored under a key. -/
def lookup? (key : String) : KeyedList α → Option α
  | [] => none
  | (candidate, value) :: rest =>
    if candidate = key then some value else lookup? key rest

/-- Whether a key is present. -/
def contains (key : String) (entries : KeyedList α) : Bool :=
  (lookup? key entries).isSome

/-- Store a value under a key, replacing the value that is there. -/
def insert (key : String) (value : α) : KeyedList α → KeyedList α
  | [] => [(key, value)]
  | (candidate, other) :: rest =>
    if candidate = key then (key, value) :: rest
    else if key < candidate then (key, value) :: (candidate, other) :: rest
    else (candidate, other) :: insert key value rest

/-- Collect pairs; of several pairs with one key the last wins. -/
def ofList (pairs : List (String × α)) : KeyedList α :=
  pairs.foldl (fun entries pair => insert pair.1 pair.2 entries) []

/-- Apply a function to every value. -/
def mapValues (f : α → β) (entries : KeyedList α) : KeyedList β :=
  entries.map fun entry => (entry.1, f entry.2)

@[simp] theorem lookup?_nil (key : String) :
    lookup? key ([] : KeyedList α) = none := rfl

@[simp] theorem lookup?_insert_self
    (key : String)
    (value : α)
    (entries : KeyedList α) :
    lookup? key (insert key value entries) = some value := by
  induction entries with
  | nil => simp [insert, lookup?]
  | cons entry rest inductionHypothesis =>
      obtain ⟨candidate, other⟩ := entry
      simp only [insert]
      split
      · simp [lookup?]
      · split
        · simp [lookup?]
        · rename_i different _
          simp [lookup?, different, inductionHypothesis]

/-- Storing under one key leaves every other key alone. -/
theorem lookup?_insert_of_ne
    {key other : String}
    (different : other ≠ key)
    (value : α)
    (entries : KeyedList α) :
    lookup? other (insert key value entries) = lookup? other entries := by
  induction entries with
  | nil => simp [insert, lookup?, Ne.symm different]
  | cons entry rest inductionHypothesis =>
      obtain ⟨candidate, stored⟩ := entry
      simp only [insert]
      split
      · rename_i same
        subst same
        simp [lookup?, Ne.symm different]
      · split
        · simp [lookup?, Ne.symm different]
        · simp only [lookup?]
          split
          · rfl
          · exact inductionHypothesis

end KeyedList
end VisualQuery
