import VisualQuery.Proofs.Compiler.Constraint
import VisualQuery.Proofs.Compiler.Hygiene
import VisualQuery.Proofs.Compiler.StraightPath
import VisualQuery.Proofs.Metadata.Decoding

/-!
# Distinct columns

Rows are keyed by the columns of their statement, so they keep every cell exactly
if the columns are distinct.  A column goes by the name of a returned attribute or
by a name of its builder's own.  Attributes are returned once and differ in their
names, and a statement's own columns differ too; only a listing has both kinds, and
an attribute named like the column of the counts is lost there.
-/

namespace VisualQuery

/-! ## Cells of a row -/

namespace StatementResult

variable {columns names : List String} {column : String}

/-- The cells of an entry with their columns, in order. -/
def cells (columns : List String) (entry : DataEntry) : List (String × PropertyValue) :=
  columns.zipIdx.map fun (column, index) => (column, entry.row.getD index .null)

/-- Rows with these columns have all cells of their entries. -/
def KeepsCells (columns : List String) : Prop :=
  ∀ entry, (rowOf columns entry).Perm (cells columns entry)

@[simp] theorem map_fst_cells (columns : List String) (entry : DataEntry) :
    (cells columns entry).map Prod.fst = columns := by
  simp [cells, Function.comp_def]

theorem rowOf_eq_ofList (columns : List String) (entry : DataEntry) :
    rowOf columns entry = KeyedList.ofList (cells columns entry) := rfl

theorem keepsCells_iff_nodup : KeepsCells columns ↔ columns.Nodup := by
  constructor
  · intro keeps
    have same := (keeps ⟨[], none⟩).map Prod.fst
    rw [map_fst_cells] at same
    exact same.nodup_iff.1 (KeyedList.sorted_ofList _).nodup_keys
  · intro distinct entry
    rw [rowOf_eq_ofList]
    exact KeyedList.ofList_perm ((map_fst_cells columns entry).symm ▸ distinct)

/-- A row has its columns once each. -/
theorem keys_rowOf_perm
    (distinct : names.Nodup)
    (same : ∀ column, column ∈ columns ↔ column ∈ names)
    (entry : DataEntry) :
    (KeyedList.keys (rowOf columns entry)).Perm names := by
  rw [rowOf_eq_ofList]
  refine (List.perm_ext_iff_of_nodup (KeyedList.sorted_ofList _).nodup_keys distinct).2 ?_
  intro column
  exact KeyedList.mem_keys_ofList.trans (by rw [map_fst_cells, same])

/-- Where the last column repeats another one, rows have one cell less than the
statement has columns, and show the last one there. -/
theorem rowOf_append_of_mem
    (distinct : names.Nodup)
    (repeated : column ∈ names)
    (entry : DataEntry) :
    (rowOf (names ++ [column]) entry).length = names.length ∧
      KeyedList.lookup? column (rowOf (names ++ [column]) entry) =
        some (entry.row.getD names.length .null) := by
  constructor
  · have keys : (KeyedList.keys (rowOf (names ++ [column]) entry)).Perm names :=
      keys_rowOf_perm distinct (by simp [repeated]) entry
    simpa [KeyedList.keys] using keys.length_eq
  · rw [rowOf_eq_ofList, cells, List.zipIdx_append, List.map_append, KeyedList.ofList,
      List.foldl_append]
    simp

end StatementResult

namespace Compiler

open Cypher

/-! ## Columns of a statement -/

/-- The columns of a statement about a node that returns some attributes; a graph
statement names none. -/
def StatementKind.columns (returned : List Attribute) : StatementKind → List String
  | .results => returned.map Attribute.name
  | .graph => []
  | .count _ => [countColumn]
  | .values _ => returned.map Attribute.name ++ [countColumn]
  | .relations _ => ["relationship", "label", countColumn]

theorem columns_of_parts
    {context : QueryContext}
    {kind : StatementKind}
    {about : Node}
    {query : Query}
    (built : context.parts kind = .ok (about, query)) :
    query.columns = kind.columns (context.metadata.resolve about.label).returnAttributes := by
  cases kind with
  | results =>
      simp only [QueryContext.parts, QueryContext.resultParts, bind_eq_ok_iff, pure, Except.pure,
        Except.ok.injEq, Prod.mk.injEq, Prod.exists] at built
      obtain ⟨root, _, _, rfl, rfl⟩ := built
      exact columns_attributeProjections context root
  | graph =>
      simp only [QueryContext.parts, QueryContext.graphParts, bind_eq_ok_iff, pure, Except.pure,
        Except.ok.injEq, Prod.mk.injEq, Prod.exists] at built
      obtain ⟨root, elements, _, rfl, rfl⟩ := built
      simp [Query.columns, StatementKind.columns, Projection.column?]
  | count node =>
      simp only [QueryContext.parts, QueryContext.countParts, bind_eq_ok_iff, pure, Except.pure,
        Except.ok.injEq, Prod.mk.injEq] at built
      obtain ⟨_, _, counted, _, _, _, rfl, rfl⟩ := built
      rfl
  | values node =>
      simp only [QueryContext.parts, QueryContext.valueParts, bind_eq_ok_iff, pure, Except.pure,
        Except.ok.injEq, Prod.mk.injEq] at built
      obtain ⟨_, _, target, _, _, _, rfl, rfl⟩ := built
      rw [Query.columns, List.filterMap_append, columns_attributeProjections]
      rfl
  | relations node =>
      simp only [QueryContext.parts, QueryContext.relationParts, bind_eq_ok_iff, pure, Except.pure,
        Except.ok.injEq, Prod.mk.injEq] at built
      obtain ⟨_, _, target, _, _, _, _, _, rfl, rfl⟩ := built
      rfl

/-- The columns of a statement are distinct, unless it lists values of a node that
returns a property named like the counts. -/
theorem nodup_columns_iff
    {returned : List Attribute}
    (distinct : returned.Nodup)
    (decoded : ∀ candidate ∈ returned, candidate.IsDecoded)
    (kind : StatementKind) :
    (kind.columns returned).Nodup ↔
      ∀ node, kind = .values node → .property countColumn ∉ returned := by
  have names : (returned.map Attribute.name).Nodup := distinct.map_on
    fun left leftMember right rightMember => (decoded left leftMember).eq_of_name_eq
      (decoded right rightMember)
  cases kind with
  | results => simpa [StatementKind.columns] using names
  | graph => simp [StatementKind.columns]
  | count node => simp [StatementKind.columns]
  | values node =>
      have named : countColumn ∈ returned.map Attribute.name ↔
          .property countColumn ∈ returned := by
        rw [List.mem_map]
        constructor
        · rintro ⟨candidate, member, same⟩
          have counts : (Attribute.property countColumn).IsDecoded := ⟨countColumn, rfl⟩
          rwa [← (decoded candidate member).eq_of_name_eq counts same]
        · exact fun member => ⟨_, member, rfl⟩
      rw [StatementKind.columns, List.nodup_append, ← named]
      simp [names]
  | relations node => simp [StatementKind.columns, countColumn]

/-! ## Built statements -/

/-- The links that a statement matches are links of the graph. -/
theorem exists_link_of_mem_links
    {graph : QueryGraph}
    (coherent : graph.Coherent)
    {root : Node}
    (isRoot : graph.root = .ok root)
    {kind : StatementKind}
    {links : List LinkId}
    (selected : kind.links graph root.id = .ok links) :
    ∀ id ∈ links, ∃ link ∈ graph.links, link.id = id := by
  cases kind with
  | relations node =>
      obtain ⟨crossed, walk, rfl⟩ := coherent.exists_walk_of_linksToRoot isRoot selected
      intro id member
      obtain ⟨link, crosses, named⟩ := List.mem_map.1 member
      exact ⟨link, walk.mem_links link crosses, named⟩
  | _ =>
      rw [← Except.ok.inj selected]
      exact fun _ => QueryGraph.exists_link_of_mem_relevantLinks

/-- A statement is built if its links are found. -/
theorem exists_parts
    {context : QueryContext}
    (coherent : context.graph.Coherent)
    {root : Node}
    (isRoot : context.graph.root = .ok root)
    {kind : StatementKind}
    (known : ∀ id, kind.about? = some id → id ∈ context.graph.nodeIds)
    {links : List LinkId}
    (selected : kind.links context.graph root.id = .ok links) :
    ∃ about query, context.parts kind = .ok (about, query) := by
  obtain ⟨hops, found⟩ :=
    coherent.exists_hops (exists_link_of_mem_links coherent isRoot selected)
  have compiled := compileElements_ok context.metadata
    (coherent.node_of_mem (QueryGraph.mem_of_root isRoot).1) found context.direction
  cases kind with
  | results =>
      obtain rfl := Except.ok.inj selected
      simp only [QueryContext.parts, QueryContext.resultParts, QueryContext.rootElements,
        bind_eq_ok_iff, pure, Except.pure, Except.ok.injEq, Prod.mk.injEq, Prod.exists]
      exact ⟨root, _, root, _, ⟨root, isRoot, _, compiled root.id true false, rfl, rfl⟩, rfl, rfl⟩
  | graph =>
      obtain rfl := Except.ok.inj selected
      simp only [QueryContext.parts, QueryContext.graphParts, QueryContext.rootElements,
        bind_eq_ok_iff, pure, Except.pure, Except.ok.injEq, Prod.mk.injEq, Prod.exists]
      exact ⟨root, _, root, _, ⟨root, isRoot, _, compiled root.id true false, rfl, rfl⟩, rfl, rfl⟩
  | count node =>
      obtain rfl := Except.ok.inj selected
      obtain ⟨counted, member, rfl⟩ := QueryGraph.mem_nodeIds.1 (known node rfl)
      simp only [QueryContext.parts, QueryContext.countParts, bind_eq_ok_iff, pure, Except.pure,
        Except.ok.injEq, Prod.mk.injEq]
      exact ⟨counted, _, root, isRoot, counted, coherent.node_of_mem member, _,
        compiled counted.id true false, rfl, rfl⟩
  | values node =>
      obtain rfl := Except.ok.inj selected
      obtain ⟨target, member, rfl⟩ := QueryGraph.mem_nodeIds.1 (known node rfl)
      simp only [QueryContext.parts, QueryContext.valueParts, bind_eq_ok_iff, pure, Except.pure,
        Except.ok.injEq, Prod.mk.injEq]
      exact ⟨target, _, root, isRoot, target, coherent.node_of_mem member, _,
        compiled target.id true _, rfl, rfl⟩
  | relations node =>
      obtain ⟨target, member, rfl⟩ := QueryGraph.mem_nodeIds.1 (known node rfl)
      simp only [QueryContext.parts, QueryContext.relationParts, bind_eq_ok_iff, pure, Except.pure,
        Except.ok.injEq, Prod.mk.injEq]
      exact ⟨target, _, root, isRoot, target, coherent.node_of_mem member, links, selected, _,
        compiled target.id false false, rfl, rfl⟩

/-- Let all attributes of a registry have been read from names.  Then the columns of
result, count and discovery statements about any graph are distinct, and rows keep all
their cells.  The columns of the listing of a node are distinct exactly if its label
returns no property named like the counts.  If it does, every row lacks one cell and
has the number of roots where the values of that property belong. -/
theorem keepsCells_iff_count_not_returned
    {declared : List (String × LabelDeclaration)}
    {overrides : Option LabelDeclaration}
    (decoded : ∀ declaration ∈ declared.map Prod.snd ++ overrides.toList, declaration.IsDecoded)
    (relationFilter : Option (Relationship → Bool))
    (options : QueryOptions)
    (edits : List GraphEdit)
    {node : Node}
    (member : node ∈ (GraphEdit.run edits .empty).nodes) :
    let registry := LabelRegistry.build declared overrides relationFilter
    let returned := (registry.resolve node.label).returnAttributes
    let context : QueryContext := ⟨GraphEdit.run edits .empty, registry.metadata, options⟩
    (∀ kind ∈ [StatementKind.results, .count node.id, .values node.id],
        ∃ about query, context.parts kind = .ok (about, query)) ∧
      ((∃ about query, context.parts (.relations node.id) = .ok (about, query)) ↔
        ∃ path, context.graph.linksToRoot node.id = .ok path) ∧
      (∀ kind ∈ [StatementKind.results, .count node.id, .relations node.id], ∀ about query,
        context.parts kind = .ok (about, query) →
          query.columns.Nodup ∧ StatementResult.KeepsCells query.columns) ∧
      ∀ about query, context.parts (.values node.id) = .ok (about, query) →
        (query.columns.Nodup ↔ .property countColumn ∉ returned) ∧
          (StatementResult.KeepsCells query.columns ↔ .property countColumn ∉ returned) ∧
          (.property countColumn ∈ returned → ∀ entry,
            (StatementResult.rowOf query.columns entry).length + 1 = query.columns.length ∧
              KeyedList.lookup? countColumn (StatementResult.rowOf query.columns entry) =
                some (entry.row.getD (query.columns.length - 1) .null)) := by
  intro registry returned context
  have coherent : context.graph.Coherent := (GraphEdit.run_wellFormed edits).toCoherent
  obtain ⟨root, _, isRoot, _, _⟩ := coherent.root_ok member
  have known : ∀ id, some node.id = some id → id ∈ context.graph.nodeIds :=
    fun id same => QueryGraph.mem_nodeIds.2 ⟨node, member, Option.some.inj same⟩
  have distinct : ∀ (label : String) (kind : StatementKind),
      (kind.columns (registry.resolve label).returnAttributes).Nodup ↔
        ∀ id, kind = .values id →
          .property countColumn ∉ (registry.resolve label).returnAttributes :=
    fun label => nodup_columns_iff (registry.nodup_returnAttributes label)
      (LabelRegistry.isDecoded_of_mem_returnAttributes decoded relationFilter label)
  refine ⟨?_, ⟨?_, ?_⟩, ?_, ?_⟩
  · intro kind listed
    simp only [List.mem_cons, List.not_mem_nil, or_false] at listed
    rcases listed with rfl | rfl | rfl
    · exact exists_parts coherent isRoot (by simp [StatementKind.about?]) rfl
    · exact exists_parts coherent isRoot known rfl
    · exact exists_parts coherent isRoot known rfl
  · rintro ⟨about, query, built⟩
    obtain ⟨root, links, _, _, assembled⟩ := exists_assembled built
    exact ⟨links, assembled.selected⟩
  · rintro ⟨path, walked⟩
    exact exists_parts coherent isRoot known walked
  · intro kind listed about query built
    have columns : query.columns.Nodup := by
      rw [columns_of_parts built]
      refine (distinct about.label kind).2 fun id same => ?_
      subst same
      simp at listed
    exact ⟨columns, StatementResult.keepsCells_iff_nodup.2 columns⟩
  · intro about query built
    obtain ⟨listing, listed, _⟩ := exists_valueParts context coherent member
    obtain ⟨rfl, rfl⟩ := Prod.mk.inj (Except.ok.inj (built.symm.trans listed))
    have columns : query.columns = returned.map Attribute.name ++ [countColumn] :=
      columns_of_parts built
    have nodup : query.columns.Nodup ↔ .property countColumn ∉ returned :=
      (congrArg List.Nodup columns ▸ distinct about.label (.values about.id)).trans
        ⟨fun free => free about.id rfl, fun free _ _ => free⟩
    refine ⟨nodup, StatementResult.keepsCells_iff_nodup.trans nodup, fun clash entry => ?_⟩
    have names : (returned.map Attribute.name).Nodup :=
      (distinct about.label .results).2 (by simp)
    have repeated : countColumn ∈ returned.map Attribute.name :=
      List.mem_map.2 ⟨_, clash, rfl⟩
    obtain ⟨shorter, shown⟩ := StatementResult.rowOf_append_of_mem names repeated entry
    rw [columns, List.length_append, shorter, shown]
    exact ⟨rfl, rfl⟩

/-- A label that is written to return a property named like the counts: its listing
has two columns of this name. -/
theorem keepsCells_iff_count_not_returned_account :
    let account : LabelDeclaration :=
      { returnAttributes := some [.property "name", .property "count"]
        constraintAttribute := some (.property "name") }
    let registry := LabelRegistry.build [("Account", account)] none none
    let context : QueryContext :=
      ⟨GraphEdit.run [.addRoot "Account"] .empty, registry.metadata, {}⟩
    account.IsDecoded ∧
      ∃ node ∈ context.graph.nodes, ∃ about query,
        context.parts (.values node.id) = .ok (about, query) ∧
          query.columns = ["name", "count", "count"] ∧ ¬query.columns.Nodup ∧
            ¬StatementResult.KeepsCells query.columns := by
  intro account registry context
  have read : LabelDeclaration.ofJson? (.obj
      [("return_attributes", .arr [.str "name", .str "count"]),
        ("constraint_attribute", .str "name")]) = some account := rfl
  have decoded := LabelDeclaration.isDecoded_of_ofJson? read
  have allDecoded : ∀ declaration ∈ [("Account", account)].map Prod.snd ++
      (none : Option LabelDeclaration).toList, declaration.IsDecoded := by
    simpa using decoded
  obtain ⟨node, member, labelled⟩ :
      ∃ node ∈ context.graph.nodes, node.label = "Account" := by
    decide +kernel
  have returned : (registry.resolve node.label).returnAttributes =
      [.property "name", .property "count"] := by
    rw [labelled]
    decide +kernel
  have clash : .property countColumn ∈ (registry.resolve node.label).returnAttributes := by
    rw [returned]
    exact List.mem_cons_of_mem _ List.mem_cons_self
  obtain ⟨query, built, columns⟩ := exists_valueParts context
    (GraphEdit.run_wellFormed [.addRoot "Account"]).toCoherent member
  obtain ⟨nodup, keeps, _⟩ := (keepsCells_iff_count_not_returned allDecoded none {}
    [.addRoot "Account"] member).2.2.2 node query built
  refine ⟨decoded, node, member, node, query, built, ?_, fun distinct => nodup.1 distinct clash,
    fun kept => keeps.1 kept clash⟩
  rw [columns]
  show (registry.resolve node.label).returnAttributes.map Attribute.name ++ _ = _
  rw [returned]
  rfl

end Compiler
end VisualQuery
