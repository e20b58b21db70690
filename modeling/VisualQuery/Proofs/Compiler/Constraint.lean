import VisualQuery.Exchange.Response
import VisualQuery.Proofs.Compiler.Fragments
import VisualQuery.Proofs.Compiler.Selection
import VisualQuery.Proofs.Graph.Listings
import VisualQuery.Proofs.Metadata.Returned

/-!
# From the columns of a listing to the constraint of a node

A listing returns the attributes of its node under their names, the constraint
attribute among them, so a row of the response has a cell for it.  A node bound
to a value made from such a row is constrained in the result statement by that
cell, which is looked up under the same name.
-/

namespace VisualQuery

/-! ## Columns and rows -/

namespace Cypher

/-- The column a projection returns, if it names one. -/
def Projection.column? : Projection → Option String
  | .field _ column => some column
  | .collect _ column => some column
  | .countDistinct _ column => some column
  | .var _ => none
  | .expression _ column => some column

/-- The columns a statement returns, in order. -/
def Query.columns (query : Query) : List String := query.projections.filterMap Projection.column?

end Cypher

/-- A row finds the cell at the position of a column, if columns are distinct. -/
theorem StatementResult.lookup?_rowOf
    {columns : List String}
    (distinct : columns.Nodup)
    {entry : DataEntry}
    {index : Nat}
    {column : String}
    {cell : PropertyValue}
    (at_column : columns[index]? = some column)
    (at_cell : entry.row[index]? = some cell) :
    KeyedList.lookup? column (rowOf columns entry) = some cell := by
  have cell_eq : entry.row.getD index .null = cell := by
    rw [List.getD_eq_getElem?_getD, at_cell]
    rfl
  apply KeyedList.lookup?_ofList_of_mem
  · refine List.mem_map.2 ⟨(column, index), List.mem_zipIdx_iff_getElem?.2 at_column, ?_⟩
    exact Prod.ext rfl cell_eq
  · intro pair member same
    obtain ⟨⟨other, position⟩, placed, rfl⟩ := List.mem_map.1 member
    have at_other : columns[position]? = some other := List.mem_zipIdx_iff_getElem?.1 placed
    have sameColumn : other = column := same
    have below := (List.getElem?_eq_some_iff.1 at_column).1
    have positions : index = position :=
      (List.getElem?_inj below distinct).1 (at_column.trans (sameColumn ▸ at_other.symm))
    rw [← cell_eq, positions]

namespace LabelRegistry

/-- Without declarations no label has hooks. -/
theorem hooks_resolve_empty (label : String) : (empty.resolve label).hooks = {} := by
  have unregistered : empty.chain label = [] := by
    rw [chain, ancestry]
    rfl
  rw [resolve, unregistered]
  rfl

end LabelRegistry

namespace Compiler

open Cypher

/-- The attributes of a node are returned under their names. -/
theorem columns_attributeProjections
    (context : QueryContext)
    (node : Node) :
    (context.attributeProjections node).filterMap Projection.column? =
      (context.metadata.resolve node.label).returnAttributes.map Attribute.name := by
  unfold QueryContext.attributeProjections
  rw [List.filterMap_map, ← List.filterMap_eq_map]
  congr 1
  funext candidate
  simp only [Function.comp_apply]
  split <;> rfl

/-- The listing of a node of a coherent graph exists and returns the attributes of
the node. -/
theorem exists_valueParts
    (context : QueryContext)
    (coherent : context.graph.Coherent)
    {target : Node}
    (member : target ∈ context.graph.nodes) :
    ∃ query,
      context.valueParts target.id = .ok (target, query) ∧
        query.columns =
          (context.metadata.resolve target.label).returnAttributes.map Attribute.name ++
            [countColumn] := by
  obtain ⟨root, rootMember, isRoot, _, _⟩ := coherent.root_ok member
  have known : ∀ id ∈ context.graph.relevantLinks root.id target.id,
      ∃ link ∈ context.graph.links, link.id = id :=
    fun _ => QueryGraph.exists_link_of_mem_relevantLinks
  obtain ⟨hops, found⟩ := coherent.exists_hops known
  have compiled := compileElements_ok context.metadata (coherent.node_of_mem rootMember)
    found context.direction target.id true (target.id = root.id)
  refine ⟨_, by
    simp only [QueryContext.valueParts, isRoot, coherent.node_of_mem member, compiled, bind,
      Except.bind, pure, Except.pure]
    rfl, ?_⟩
  rw [Query.columns, List.filterMap_append, columns_attributeProjections]
  rfl

/-- The nodes that can be listed are those of the graph. -/
theorem exists_valueQuery_iff
    (context : QueryContext)
    (coherent : context.graph.Coherent)
    {id : NodeId} :
    (∃ query, context.valueQuery id = .ok query) ↔ id ∈ context.graph.nodeIds := by
  constructor
  · rintro ⟨query, listed⟩
    by_contra missing
    rw [QueryContext.valueQuery, QueryContext.valueParts,
      QueryGraph.node_of_not_mem missing] at listed
    cases root : context.graph.root with
    | error error =>
        rw [root] at listed
        cases listed
    | ok root =>
        rw [root] at listed
        cases listed
  · intro known
    obtain ⟨target, member, rfl⟩ := QueryGraph.mem_nodeIds.1 known
    obtain ⟨listing, parts, _⟩ := exists_valueParts context coherent member
    refine ⟨context.finish QueryHooks.values (target, listing), ?_⟩
    rw [QueryContext.valueQuery, parts]
    rfl

/-! ## The constraint of a bound node -/

/-- Another node that the result statement matches uses a parameter. -/
def UsedElsewhere (context : QueryContext) (node : Node) (parameter : String) : Prop :=
  ∃ other name,
    context.graph.Pictured other ∧ other.id ≠ node.id ∧ other.isBound = true ∧
      (context.metadata.resolve other.label).constraintAttribute = .property name ∧
      parameterName other name = parameter

/-- A statement constrains a node by a cell: by the integer the cell holds,
`null` if it holds none, where the database identity constrains, and else inline
by a parameter.  The parameter holds the cell unless another node uses it
too. -/
def Constrains
    (context : QueryContext)
    (query : Query)
    (node : Node)
    (cell : PropertyValue) : Prop :=
  match (context.metadata.resolve node.label).constraintAttribute with
  | .internalId => .internalId node.var cell.asInt? ∈ query.predicates
  | .property name =>
    { labeled node with constraint := some ⟨name, parameterName node name⟩ } ∈
        nodePatterns query.matched ∧
      (¬ UsedElsewhere context node (parameterName node name) →
        KeyedList.lookup? (parameterName node name) query.parameters = some cell)

/-- Only what statements say about a term matters. -/
theorem Constrains.congr
    {context : QueryContext}
    {query : Query}
    {left right : Node}
    {cell : PropertyValue}
    (constrains : Constrains context query left cell)
    (id : left.id = right.id)
    (label : left.label = right.label)
    (var : left.var = right.var) :
    Constrains context query right cell := by
  unfold Constrains UsedElsewhere labeled parameterName at *
  rw [id, label, var] at constrains
  exact constrains

/-- Where the database identity constrains, a predicate does. -/
theorem Constrains.predicate_mem
    {context : QueryContext}
    {query : Query}
    {node : Node}
    {cell : PropertyValue}
    (constrains : Constrains context query node cell)
    (identity : (context.metadata.resolve node.label).constraintAttribute = .internalId) :
    .internalId node.var cell.asInt? ∈ query.predicates := by
  rw [Constrains, identity] at constrains
  exact constrains

section Paths

variable {context : QueryContext} {paths : List Fragment} {root node value : Node} {name : String}

/-- The pattern of a pictured node, constrained if it is bound, is among those
that the result statement matches. -/
theorem ArePaths.mem_nodePatterns
    (arePaths : ArePaths context.metadata context.direction context.graph paths)
    (tree : context.graph.Tree)
    (isRoot : context.graph.root = .ok root)
    (pictured : context.graph.Pictured node) :
    (nodePattern context.metadata context.graph node true).1 ∈
      nodePatterns (QueryElements.ofFragments
        (rootFragment context.metadata context.graph root true) paths).matched := by
  -- The last pattern of an element is the one that the root or the target contributes.
  have written := (arePaths.mem_contributions tree isRoot
    (fun fragment => fragment.element.patterns.getLast?.toList)
    (fun node => [(nodePattern context.metadata context.graph node true).1]) rfl
    (fun _ _ _ _ => rfl) _).2 ⟨node, pictured, List.mem_singleton_self _⟩
  have last : ∀ fragment : Fragment, ∀ pattern,
      pattern ∈ fragment.element.patterns.getLast?.toList → pattern ∈ fragment.element.patterns :=
    fun fragment pattern isLast => List.mem_of_getLast? (Option.mem_toList.1 isLast)
  rw [nodePatterns, QueryElements.ofFragments, List.flatMap_cons, List.flatMap_map]
  rcases List.mem_append.1 written with ofRoot | ofPath
  · exact List.mem_append_left _ (last _ _ ofRoot)
  · obtain ⟨fragment, fragmentMember, within⟩ := List.mem_flatMap.1 ofPath
    exact List.mem_append_right _
      (List.mem_flatMap.2 ⟨fragment, fragmentMember, last _ _ within⟩)

/-- A bound node that the database identity constrains has a predicate. -/
theorem ArePaths.internalId_mem_predicates
    (arePaths : ArePaths context.metadata context.direction context.graph paths)
    (tree : context.graph.Tree)
    (isRoot : context.graph.root = .ok root)
    (pictured : context.graph.Pictured node)
    (valueFound : context.graph.boundValue? node = some value)
    (sought : (context.metadata.resolve node.label).constraintAttribute = .internalId) :
    .internalId node.var value.internalId ∈
      (QueryElements.ofFragments
        (rootFragment context.metadata context.graph root true) paths).predicates := by
  refine (arePaths.mem_contributions tree isRoot Fragment.predicates
    (fun node => predefined context.metadata node ++
      (nodePattern context.metadata context.graph node true).2.1) rfl (fun _ _ _ _ => rfl) _).2
    ⟨node, pictured, List.mem_append_right _ ?_⟩
  simp [nodePattern, valueFound, constrainedPattern, sought]

/-- The parameter of a bound node holds its value unless another node uses it
too. -/
theorem ArePaths.lookup?_parameterName
    (arePaths : ArePaths context.metadata context.direction context.graph paths)
    (tree : context.graph.Tree)
    (isRoot : context.graph.root = .ok root)
    (pictured : context.graph.Pictured node)
    (valueFound : context.graph.boundValue? node = some value)
    (sought : (context.metadata.resolve node.label).constraintAttribute = .property name)
    (unused : ¬ UsedElsewhere context node (parameterName node name)) :
    KeyedList.lookup? (parameterName node name)
        (QueryElements.ofFragments
          (rootFragment context.metadata context.graph root true) paths).parameters =
      some ((value.attribute? name).getD .null) := by
  have bindings := arePaths.mem_contributions tree isRoot Fragment.bindings
    (fun node => (nodePattern context.metadata context.graph node true).2.2) rfl
    (fun _ _ _ _ => rfl)
  apply KeyedList.lookup?_ofList_of_mem
  · refine (bindings _).2 ⟨node, pictured, ?_⟩
    simp [nodePattern, valueFound, constrainedPattern, sought]
  · intro pair pairMember same
    obtain ⟨other, otherPictured, contributed⟩ := (bindings pair).1 pairMember
    obtain ⟨otherValue, otherName, otherFound, otherSought, rfl⟩ :=
      exists_of_mem_bindings contributed
    by_cases equal : other.id = node.id
    · have sameNode := tree.toCoherent.eq_of_id_eq otherPictured.member pictured.member equal
      rw [sameNode, valueFound] at otherFound
      rw [sameNode, sought] at otherSought
      injection otherFound with sameValue
      injection otherSought with sameName
      rw [← sameValue, ← sameName]
    · have otherBound : other.isBound = true := by
        simp [Node.isBound, (tree.toCoherent.boundValue?_eq_some_iff.1 otherFound).2]
      exact absurd ⟨other, otherName, otherPictured, equal, otherBound, otherSought, same⟩ unused

end Paths

/-- The result statement of a drawn graph constrains every bound node by the
cell of its value under the constraint attribute. -/
theorem exists_resultParts_constrains
    (context : QueryContext)
    (tree : context.graph.Tree)
    {node value : Node}
    (member : node ∈ context.graph.nodes)
    (valueMember : value ∈ context.graph.nodes)
    (bound : node.value = some value.id)
    (identity :
      value.internalId = (value.attribute? internalIdColumn).bind PropertyValue.asInt?)
    {cell : PropertyValue}
    (found :
      value.attribute? (context.metadata.resolve node.label).constraintAttribute.name =
        some cell) :
    ∃ root query,
      context.graph.root = .ok root ∧ context.resultParts = .ok (root, query) ∧
        Constrains context query node cell := by
  obtain ⟨root, _, isRoot, _, _⟩ := tree.toCoherent.root_ok member
  obtain ⟨paths, arePaths, built⟩ := exists_resultParts tree isRoot
  refine ⟨root, _, isRoot, built, ?_⟩
  have isBound : node.isBound = true := by simp [Node.isBound, bound]
  have pictured : context.graph.Pictured node :=
    ⟨member, tree.toCoherent.ne_value_of_isBound member isBound,
      Or.inr ⟨node, member, isBound, QueryGraph.Beneath.self⟩⟩
  have valueFound := tree.toCoherent.boundValue?_eq_some_iff.2 ⟨valueMember, bound⟩
  unfold Constrains
  cases sought : (context.metadata.resolve node.label).constraintAttribute with
  | internalId =>
      have held : value.internalId = cell.asInt? := by
        rw [sought] at found
        exact identity.trans (congrArg (Option.bind · PropertyValue.asInt?) found)
      have constrained := arePaths.internalId_mem_predicates tree isRoot pictured valueFound sought
      rw [held] at constrained
      exact constrained
  | property name =>
      have held : value.attribute? name = some cell := by
        rw [sought] at found
        exact found
      constructor
      · have written := arePaths.mem_nodePatterns tree isRoot pictured
        simp only [nodePattern, valueFound, constrainedPattern, sought, if_true] at written
        exact written
      · intro unused
        have holds :=
          arePaths.lookup?_parameterName tree isRoot pictured valueFound sought unused
        rw [held] at holds
        exact holds

end Compiler
end VisualQuery
