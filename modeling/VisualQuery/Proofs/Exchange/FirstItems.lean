import Mathlib.Data.List.Basic
import VisualQuery.Exchange.GraphResult

/-!
# Items that are shown first

A graph result keeps an item of the response exactly if it has an id that no item in
front of it has, be it in the same entry or in an earlier one.  So the order of the
response stays, no id is lost and none occurs twice.  What an id is, and which items
an entry shows, is said here by the members of objects alone.
-/

namespace VisualQuery
namespace GraphResult

variable {response : TransactionResponse} {name : String} {items : List Json} {seen : List String}

/-! ## Members and ids -/

/-- An object holds a value under a name: it is the last member of this name. -/
def Holds (name : String) (tree value : Json) : Prop :=
  ∃ before after, tree = .obj (before ++ (name, value) :: after) ∧
    ∀ later ∈ after, later.1 ≠ name

theorem holds_iff {tree value : Json} : Holds name tree value ↔ tree.get? name = some value := by
  cases tree with
  | obj members =>
      simp only [Json.get?, Option.map_eq_some_iff, List.find?_eq_some_iff_append]
      constructor
      · rintro ⟨before, after, same, last⟩
        injection same with same
        exact ⟨(name, value), ⟨by simp, after.reverse, before.reverse, by simp [same],
          by simpa using last⟩, rfl⟩
      · rintro ⟨⟨other, _⟩, ⟨named, after, before, reversed, last⟩, rfl⟩
        obtain rfl : other = name := of_decide_eq_true named
        refine ⟨before.reverse, after.reverse, ?_, by simpa using last⟩
        rw [← List.reverse_reverse members, reversed]
        simp
  | null | bool | int | float | str | arr | unreadable =>
      exact iff_of_false (fun ⟨_, _, same, _⟩ => nomatch same) nofun

/-- The id of an item is the text of its member `id` if this is a string, and the
compact text of any other value there.  Without this member there is no id. -/
inductive HasId (item : Json) : String → Prop
  | text {text : String} : Holds "id" item (.str text) → HasId item text
  | written {value : Json} :
      Holds "id" item value → (∀ text, value ≠ .str text) → HasId item value.compact

theorem hasId_iff {item : Json} {id : String} : HasId item id ↔ identity? item = some id := by
  rw [identity?]
  constructor
  · rintro (held | ⟨held, other⟩)
    · rw [holds_iff.1 held]
      rfl
    · rw [holds_iff.1 held, Option.map_some]
      split
      · exact absurd rfl (other _)
      · rfl
  · intro own
    obtain ⟨value, held, rfl⟩ := Option.map_eq_some_iff.1 own
    split
    · exact .text (holds_iff.2 held)
    · rename_i other
      exact .written (holds_iff.2 held) other

/-! ## Items of a response -/

/-- An entry shows the items of the array that its graph holds under a name.  Without a
graph it shows none, nor does it if its graph holds no array there. -/
inductive Shows (name : String) : DataEntry → List Json → Prop
  | array {entry : DataEntry} {graph : Json} {items : List Json} :
      entry.graph = some graph → Holds name graph (.arr items) → Shows name entry items
  | nothing {entry : DataEntry} :
      (∀ graph items, entry.graph = some graph → ¬ Holds name graph (.arr items)) →
        Shows name entry []

/-- The items under a name that the entries of the second result show, entry by entry. -/
def Shown (name : String) (response : TransactionResponse) (items : List Json) : Prop :=
  ∃ shares : List (List Json),
    List.Forall₂ (Shows name) ((response.results[1]?.map StatementResult.data).getD []) shares ∧
      items = shares.flatten

/-- An item has an id that no item in front of it has. -/
def IsNew (front : List Json) (item : Json) : Prop :=
  ∃ id, HasId item id ∧ ∀ earlier ∈ front, ¬ HasId earlier id

instance (front : List Json) (item : Json) : Decidable (IsNew front item) :=
  match own : identity? item with
  | some id =>
    decidable_of_iff (∀ earlier ∈ front, identity? earlier ≠ some id)
      (by simp [IsNew, hasId_iff, own])
  | none => .isFalse (by simp [IsNew, hasId_iff, own])

/-- Of some items behind others, those that are new at their place, in order. -/
def newBehind (front items : List Json) : List Json :=
  (items.zipIdx.filter fun place => IsNew (front ++ items.take place.2) place.1).map Prod.fst

/-- Of some items the new ones are kept, in their order. -/
structure KeepsNew (items kept : List Json) : Prop where
  stable : kept = newBehind [] items
  /-- No id is lost. -/
  complete : ∀ item ∈ items, ∀ id, HasId item id → ∃ first ∈ kept, HasId first id
  /-- No id occurs twice. -/
  distinct : kept.Pairwise fun left right => ∀ id, HasId left id → ¬ HasId right id

/-! ## Reading with a record of what was seen -/

/-- The record holds the identities of the items in front. -/
def Records (seen : List String) (front : List Json) : Prop :=
  ∀ id, id ∈ seen ↔ ∃ earlier ∈ front, HasId earlier id

/-- With the items in front on record, an item is new if its identity is not. -/
theorem Records.isNew_iff
    {front : List Json}
    (records : Records seen front)
    {item : Json} :
    IsNew front item ↔ ∃ id, identity? item = some id ∧ id ∉ seen := by
  refine exists_congr fun id => and_congr hasId_iff ?_
  rw [records id]
  simp

/-- Whether an item enters the record or is passed over, its identity is then on
record. -/
theorem Records.pass
    {front : List Json}
    (records : Records seen front)
    {item : Json}
    (passed : ∀ id, identity? item = some id → id ∈ seen) :
    Records seen (front ++ [item]) := by
  intro id
  rw [records id]
  constructor
  · rintro ⟨earlier, member, same⟩
    exact ⟨earlier, List.mem_append_left _ member, same⟩
  · rintro ⟨earlier, member, same⟩
    rcases List.mem_append.1 member with before | last
    · exact ⟨earlier, before, same⟩
    · rw [List.mem_singleton.1 last, hasId_iff] at same
      exact (records id).1 (passed id same)

theorem Records.enter
    {front : List Json}
    (records : Records seen front)
    {item : Json}
    {id : String}
    (own : identity? item = some id) :
    Records (id :: seen) (front ++ [item]) := by
  intro other
  simp [records other, hasId_iff, own, or_comm, eq_comm]

/-! ## What is kept -/

theorem newBehind_cons (front : List Json) (item : Json) (rest : List Json) :
    newBehind front (item :: rest) =
      (if IsNew front item then [item] else []) ++ newBehind (front ++ [item]) rest := by
  have behind :
      (fun place : Json × Nat =>
          decide (IsNew (front ++ (item :: rest).take (place.2 + 1)) place.1)) =
        fun place => decide (IsNew (front ++ [item] ++ rest.take place.2) place.1) := by
    funext place
    rw [List.take_succ_cons, List.append_assoc, List.singleton_append]
  rw [newBehind, List.zipIdx_cons, List.zipIdx_succ, List.filter_cons, List.filter_map,
    Function.comp_def, behind]
  simp only [List.take_zero, List.append_nil]
  split <;> simp_all [newBehind, Function.comp_def]

/-- Reading with a record of the items in front keeps the new ones. -/
theorem distinctFrom_eq_newBehind
    {front : List Json}
    (records : Records seen front) :
    distinctFrom seen items = newBehind front items := by
  induction items generalizing seen front with
  | nil => rfl
  | cons item rest inductionHypothesis =>
      rw [newBehind_cons, distinctFrom]
      cases own : identity? item with
      | none =>
          have passed : Records seen (front ++ [item]) := records.pass (by simp [own])
          simp [records.isNew_iff, own, inductionHypothesis passed]
      | some id =>
          by_cases known : id ∈ seen
          · have passed : Records seen (front ++ [item]) := records.pass (by simp [own, known])
            simp [records.isNew_iff, own, known, inductionHypothesis passed]
          · simp [records.isNew_iff, own, known, inductionHypothesis (records.enter own)]

/-- Every identity is on record or kept. -/
theorem exists_first_of_mem
    {item : Json}
    (member : item ∈ items)
    {id : String}
    (own : identity? item = some id) :
    id ∈ seen ∨ ∃ first ∈ distinctFrom seen items, identity? first = some id := by
  induction items generalizing seen with
  | nil => cases member
  | cons head rest inductionHypothesis =>
      rw [distinctFrom]
      rcases List.mem_cons.1 member with rfl | later
      · rw [own]
        by_cases known : id ∈ seen
        · exact Or.inl known
        · exact Or.inr ⟨item, by simp [known], own⟩
      · cases headOwn : identity? head with
        | none => exact inductionHypothesis later
        | some other =>
            by_cases known : other ∈ seen
            · simpa [known] using inductionHypothesis later
            · rcases @inductionHypothesis (other :: seen) later with recorded | kept
              · rcases List.mem_cons.1 recorded with rfl | before
                · exact Or.inr ⟨head, by simp [known], headOwn⟩
                · exact Or.inl before
              · obtain ⟨first, kept, same⟩ := kept
                exact Or.inr ⟨first, by simp [known, kept], same⟩

/-- What is kept has an identity that was not on record. -/
theorem new_of_mem_distinctFrom
    {item : Json}
    (kept : item ∈ distinctFrom seen items) :
    ∃ id, identity? item = some id ∧ id ∉ seen := by
  induction items generalizing seen with
  | nil => cases kept
  | cons head rest inductionHypothesis =>
      rw [distinctFrom] at kept
      cases own : identity? head with
      | none =>
          rw [own] at kept
          exact inductionHypothesis kept
      | some id =>
          by_cases known : id ∈ seen
          · simp only [own, known, if_true] at kept
            exact inductionHypothesis kept
          · simp only [own, known, if_false] at kept
            rcases List.mem_cons.1 kept with rfl | later
            · exact ⟨id, own, known⟩
            · obtain ⟨other, same, isNew⟩ := inductionHypothesis later
              exact ⟨other, same, fun before => isNew (List.mem_cons_of_mem _ before)⟩

theorem nodup_identities (seen : List String) (items : List Json) :
    ((distinctFrom seen items).map identity?).Nodup := by
  induction items generalizing seen with
  | nil => exact List.Pairwise.nil
  | cons head rest inductionHypothesis =>
      rw [distinctFrom]
      cases own : identity? head with
      | none => exact inductionHypothesis seen
      | some id =>
          by_cases known : id ∈ seen
          · simpa [known] using inductionHypothesis seen
          · simp only [known, if_false, List.map_cons, own, List.nodup_cons]
            refine ⟨?_, inductionHypothesis (id :: seen)⟩
            intro again
            obtain ⟨item, kept, same⟩ := List.mem_map.1 again
            obtain ⟨other, isOther, isNew⟩ := new_of_mem_distinctFrom kept
            rw [same] at isOther
            injection isOther with isOther
            exact isNew (isOther ▸ List.mem_cons_self)

/-- Reading from an empty record keeps what is new. -/
theorem keepsNew_distinctFrom (items : List Json) : KeepsNew items (distinctFrom [] items) where
  stable := distinctFrom_eq_newBehind (by simp [Records])
  complete item member id own := by
    obtain ⟨first, kept, same⟩ :=
      (exists_first_of_mem member (hasId_iff.1 own)).resolve_left List.not_mem_nil
    exact ⟨first, kept, hasId_iff.2 same⟩
  distinct := by
    refine (List.pairwise_map.1 (nodup_identities [] items)).imp fun different id left right => ?_
    rw [hasId_iff] at left right
    exact different (left.trans right.symm)

/-! ## Graph results -/

theorem shows_itemsOf {graph : Json} {row : List PropertyValue} :
    Shows name ⟨row, some graph⟩ (itemsOf name graph) := by
  rw [itemsOf]
  split
  · rename_i items held
    exact .array rfl (holds_iff.2 held)
  · rename_i noArray
    refine .nothing fun other items same held => noArray items ?_
    rw [Option.some.inj same]
    exact holds_iff.1 held

/-- What is read of the graphs of some entries is what the entries show. -/
theorem exists_shares (name : String) (entries : List DataEntry) :
    ∃ shares, List.Forall₂ (Shows name) entries shares ∧
      (entries.filterMap DataEntry.graph).flatMap (itemsOf name) = shares.flatten := by
  induction entries with
  | nil => exact ⟨[], .nil, rfl⟩
  | cons entry rest inductionHypothesis =>
      obtain ⟨shares, shown, same⟩ := inductionHypothesis
      obtain ⟨row, graph⟩ := entry
      cases graph with
      | none => exact ⟨[] :: shares, .cons (.nothing nofun) shown, same⟩
      | some graph =>
          refine ⟨itemsOf name graph :: shares, .cons shows_itemsOf shown, ?_⟩
          rw [List.filterMap_cons_some (f := DataEntry.graph) rfl, List.flatMap_cons, same,
            List.flatten_cons]

theorem shown_itemsOf (name : String) (response : TransactionResponse) :
    Shown name response ((graphs response).flatMap (itemsOf name)) := by
  obtain ⟨results, errors⟩ := response
  match results with
  | [] | [_] => exact ⟨[], .nil, rfl⟩
  | _ :: second :: _ => exact exists_shares name second.data

/-- For every response the nodes of the graph result are the items that the graphs
of the second result show as nodes, less those without id and those whose id some
node in front has; and the edges are the same of the relationships, whatever ids
nodes have. -/
theorem ofResponse_keepsNew (response : TransactionResponse) :
    (∃ items, Shown "nodes" response items ∧ KeepsNew items (ofResponse response).nodes) ∧
      ∃ items, Shown "relationships" response items ∧
        KeepsNew items (ofResponse response).edges :=
  ⟨⟨_, shown_itemsOf "nodes" response, keepsNew_distinctFrom _⟩,
    ⟨_, shown_itemsOf "relationships" response, keepsNew_distinctFrom _⟩⟩

/-- A number has the id of the string of its digits, and a list that of the string of
its text.  The item without id goes. -/
example :
    let item (id : Json) : Json := .obj [("id", id)]
    let entry (items : List Json) : DataEntry := ⟨[], some (.obj [("nodes", .arr items)])⟩
    let first := entry [item (.str "1"), .obj [], item (.int 1), item (.arr [.null, .bool true])]
    let second := entry [item (.str "[null,true]"), item (.int 2), item (.str "\"2\"")]
    (ofResponse ⟨[⟨[], []⟩, ⟨[], [first, ⟨[], none⟩, second]⟩], []⟩).nodes =
      [item (.str "1"), item (.arr [.null, .bool true]), item (.int 2), item (.str "\"2\"")] := by
  rfl

end GraphResult
end VisualQuery
