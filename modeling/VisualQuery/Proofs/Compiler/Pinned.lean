import VisualQuery.Proofs.Compiler.Connection
import VisualQuery.Proofs.Compiler.Hygiene
import VisualQuery.Proofs.Compiler.Placement
import VisualQuery.Proofs.Compiler.StraightPath
import VisualQuery.Proofs.Graph.Entrance

/-!
# Which statements hold a bound node to its value

Every statement but the discovery holds the bound nodes that it matches to their
values, all except the node it is about.  The discovery holds them only below an
immutable root.  Whether a node is immutable itself makes no difference to any
statement.
-/

namespace VisualQuery

namespace VariableNames

theorem numbered_ne_empty
    {base : String}
    (nonempty : base ≠ "")
    (number : Nat) :
    numbered base number ≠ "" := by
  intro isEmpty
  have letters := toList_numbered base number
  rw [isEmpty] at letters
  have front := (List.append_eq_nil_iff.1 letters.symm).1
  exact nonempty (String.toList_injective front)

end VariableNames

namespace GraphEdit

open QueryGraph

/-- Among the nodes of a graph made by plain edits a term is told by variable and
label. -/
theorem eq_of_var_and_label
    (edits : List GraphEdit)
    (plain : ∀ edit ∈ edits, edit.isPlain = true)
    {node other : Node}
    (isTerm : node ∈ (run edits .empty).terms)
    (otherMember : other ∈ (run edits .empty).nodes)
    (sameVar : other.var = node.var)
    (sameLabel : other.label = node.label) :
    other = node := by
  by_cases isValue : other.kind = .value
  · obtain ⟨number, named⟩ := exists_number_of_term edits isTerm
    have unnamed := run_valuesUnnamed edits plain other otherMember isValue
    rw [sameVar, named] at unnamed
    exact absurd unnamed
      (VariableNames.numbered_ne_empty (VariableNames.normalize_ne_empty _) number)
  · have recorded := recorded_handedOut edits wellFormed_empty recorded_empty
    have pairs := VariableNames.nodup_zip_issue
      ((handedOut edits .empty []).map Naming.label)
    rw [recorded.names, List.map_map, List.zip_map'] at pairs
    apply recorded.term_eq_of_key_eq
      (fun naming => (VariableNames.normalize naming.label, naming.name)) pairs
      (mem_terms.2 ⟨otherMember, isValue⟩) isTerm
    exact Prod.ext (congrArg VariableNames.normalize sameLabel) sameVar

end GraphEdit

namespace Compiler

open Cypher

/-- The pattern of a node stands in a statement. -/
def Matches (query : Query) (node : Node) : Prop :=
  ∃ pattern ∈ nodePatterns query.matched,
    pattern.var = node.var ∧ pattern.label = some node.label

/-- Only patterns of a node use a parameter. -/
def IsOwnParameter (query : Query) (node : Node) (parameter : String) : Prop :=
  ∀ pattern ∈ nodePatterns query.matched, ∀ constraint,
    pattern.constraint = some constraint → constraint.parameter = parameter →
      pattern.var = node.var ∧ pattern.label = some node.label

/-- A statement holds a node to a value: by a predicate on its identity or inside a
pattern of the node, by a parameter that has the value unless another node uses
it too. -/
inductive HeldTo (metadata : LabelMetadata) (query : Query) (node value : Node) : Prop where
  | byIdentity
      (sought : (metadata.resolve node.label).constraintAttribute = .internalId)
      (asked : .internalId node.var value.internalId ∈ query.predicates)
  | byProperty
      {name : String}
      (sought : (metadata.resolve node.label).constraintAttribute = .property name)
      (written :
        ⟨node.var, some node.label, some ⟨name, parameterName node name⟩⟩ ∈
          nodePatterns query.matched)
      (holds :
        IsOwnParameter query node (parameterName node name) →
          KeyedList.lookup? (parameterName node name) query.parameters =
            some ((value.attribute? name).getD .null))

/-! ## What a statement asks of its nodes -/

variable {context : QueryContext} {kind : StatementKind} {query : Query} {root node value : Node}
  {hops : List Hop}

/-- The ends of a hop, each with whether its value is asked for. -/
def hopAskings (selected : NodeId) (constrain : Bool) (hop : Hop) : List (Node × Bool) :=
  [(hop.source, false), (hop.target, constrain && hop.target.id ≠ selected)]

/-- The nodes of a statement, each with whether its value is asked for. -/
def askings (kind : StatementKind) (root : Node) (hops : List Hop) : List (Node × Bool) :=
  (root, (kind.asksValues || root.immutable) && !kind.leavesOut root.id) ::
    hops.flatMap
      (hopAskings (kind.about?.getD root.id) (kind.asksValues || root.immutable))

/-- What an asking contributes. -/
def QueryContext.asked (context : QueryContext) (asking : Node × Bool) :
    NodePattern × List Predicate × List (String × PropertyValue) :=
  nodePattern context.metadata context.graph asking.1 asking.2

/-- Patterns, predicates on identities and parameters of a statement are what its
askings contribute. -/
structure Spells
    (context : QueryContext)
    (asks : List (Node × Bool))
    (extra : List MatchElement)
    (query : Query) : Prop where
  patterns :
    nodePatterns query.matched =
      asks.map (fun asking => (context.asked asking).1) ++ nodePatterns extra
  identities :
    ∀ var id,
      .internalId var id ∈ query.predicates ↔
        ∃ asking ∈ asks, .internalId var id ∈ (context.asked asking).2.1
  parameters :
    query.parameters = KeyedList.ofList (asks.flatMap fun asking => (context.asked asking).2.2)

theorem mem_askings
    {asking : Node × Bool} :
    asking ∈ askings kind root hops ↔
      asking = (root, (kind.asksValues || root.immutable) && !kind.leavesOut root.id) ∨
        ∃ hop ∈ hops,
          asking = (hop.source, false) ∨
            asking =
              (hop.target, (kind.asksValues || root.immutable) &&
                hop.target.id ≠ kind.about?.getD root.id) := by
  simp [askings, hopAskings]

/-- Each asking is an occurrence of its node. -/
theorem map_occurrence_askings
    (metadata : LabelMetadata)
    (graph : QueryGraph)
    (kind : StatementKind)
    (root : Node)
    (hops : List Hop) :
    (askings kind root hops).map (fun asking => occurrence metadata graph asking.2 asking.1) =
      occurrence metadata graph
          ((kind.asksValues || root.immutable) && !kind.leavesOut root.id) root ::
        hops.flatMap
          (hopOccurrences metadata graph (kind.about?.getD root.id)
            (kind.asksValues || root.immutable)) := by
  rw [askings, List.map_cons, List.map_flatMap]
  congr 2
  funext hop
  simp only [hopAskings, hopOccurrences, List.map_cons, List.map_nil, occurrence,
    nodePattern_unconstrained]

/-- Predefined constraints are written as they are, never as predicates on an
identity. -/
theorem internalId_not_mem_predefined
    {metadata : LabelMetadata}
    {var : String}
    {id : Option Int64} :
    Predicate.internalId var id ∉ predefined metadata node := by
  simp [predefined]

/-- A statement asks for the root and for the ends of its links. -/
theorem Assembled.exists_spells
    {about : Node}
    {links : List LinkId}
    {elements : QueryElements}
    {extra : List MatchElement}
    (assembled : Assembled context kind about root links elements extra query)
    (coherent : context.graph.Coherent) :
    ∃ hops,
      links.mapM context.graph.hop = .ok hops ∧
        Spells context (askings kind root hops) extra query := by
  obtain ⟨rootMember, _⟩ := QueryGraph.mem_of_root assembled.isRoot
  obtain ⟨rootNode, hops, found, walked, rfl⟩ := exists_of_compileElements_ok assembled.compiled
  rw [coherent.node_of_mem rootMember] at found
  injection found with same
  subst same
  refine ⟨hops, walked, ?_, ?_, ?_⟩
  · rw [assembled.matched, nodePatterns, List.flatMap_append]
    congr 1
    refine (nodePatterns_ofFragments ..).trans ?_
    rw [← map_occurrence_askings, List.map_map]
    rfl
  · intro var id
    rw [assembled.predicates, QueryElements.ofFragments, List.mem_append, flatMap_predicates_hops]
    constructor
    · rintro (ofRoot | ofTarget)
      · have written := (List.mem_append.1 ofRoot).resolve_left internalId_not_mem_predefined
        exact ⟨_, mem_askings.2 (Or.inl rfl), written⟩
      · obtain ⟨place, placeMember, ofPlace⟩ := List.mem_flatMap.1 ofTarget
        obtain ⟨hop, member, rfl⟩ := List.mem_map.1 placeMember
        have written := (List.mem_append.1 ofPlace).resolve_left internalId_not_mem_predefined
        exact ⟨_, mem_askings.2 (Or.inr ⟨hop, member, Or.inr rfl⟩), written⟩
    · rintro ⟨asking, asked, written⟩
      rcases mem_askings.1 asked with rfl | ⟨hop, member, rfl | rfl⟩
      · exact Or.inl (List.mem_append_right _ written)
      · rw [QueryContext.asked, nodePattern_unconstrained] at written
        exact absurd written List.not_mem_nil
      · refine Or.inr (List.mem_flatMap.2 ⟨_, List.mem_map_of_mem member, ?_⟩)
        exact List.mem_append_right _ written
  · rw [assembled.parameters, parameters_ofFragments, ← map_occurrence_askings,
      List.filterMap_map, List.filterMap_eq_flatMap_toList]
    simp only [QueryContext.asked, bindings_nodePattern, Function.comp_def]

/-! ## Holding nodes and leaving them free -/

section Holding

variable {asks : List (Node × Bool)} {extra : List MatchElement}

/-- What a node contributes where a property holds it to its value. -/
theorem asked_byProperty
    (bound : context.graph.boundValue? node = some value)
    {name : String}
    (sought : (context.metadata.resolve node.label).constraintAttribute = .property name) :
    context.asked (node, true) =
      (⟨node.var, some node.label, some ⟨name, parameterName node name⟩⟩, [],
        [(parameterName node name, (value.attribute? name).getD .null)]) := by
  simp [QueryContext.asked, nodePattern, bound, constrainedPattern, sought, labeled]

/-- A binding comes from a constraint of the asking, and has the value of its
node. -/
theorem exists_constraint_of_binding
    {asking : Node × Bool}
    {pair : String × PropertyValue}
    (binds : pair ∈ (context.asked asking).2.2) :
    ∃ constraint, (context.asked asking).1.constraint = some constraint ∧
      pair = (constraint.parameter, ownValue context.metadata context.graph asking.1) := by
  rw [QueryContext.asked, bindings_nodePattern, Option.mem_toList, binding?,
    Option.map_eq_some_iff] at binds
  obtain ⟨constraint, constrained, rfl⟩ := binds
  exact ⟨constraint, constrained, rfl⟩

theorem labels_asked (asking : Node × Bool) :
    (context.asked asking).1.var = asking.1.var ∧
      (context.asked asking).1.label = some asking.1.label :=
  labels_nodePattern asking.1 asking.2

/-- The parameter of a node that is asked for has its value, if only patterns of
the node use it. -/
theorem Spells.lookup?_parameterName
    (spells : Spells context asks extra query)
    (told :
      ∀ asking ∈ asks,
        asking.1.var = node.var → asking.1.label = node.label → asking.1 = node)
    (asked : (node, true) ∈ asks)
    (bound : context.graph.boundValue? node = some value)
    {name : String}
    (sought : (context.metadata.resolve node.label).constraintAttribute = .property name)
    (isOwn : IsOwnParameter query node (parameterName node name)) :
    KeyedList.lookup? (parameterName node name) query.parameters =
      some ((value.attribute? name).getD .null) := by
  have binds : (parameterName node name, (value.attribute? name).getD .null) ∈
      (context.asked (node, true)).2.2 := by
    rw [asked_byProperty bound sought]
    exact List.mem_singleton_self _
  rw [spells.parameters]
  refine KeyedList.lookup?_ofList_of_mem (List.mem_flatMap.2 ⟨_, asked, binds⟩) ?_
  intro pair member sameName
  obtain ⟨asking, askingMember, contributed⟩ := List.mem_flatMap.1 member
  obtain ⟨constraint, constrained, rfl⟩ := exists_constraint_of_binding contributed
  -- The pattern that binds the parameter is one of the node, so the values agree.
  have written : (context.asked asking).1 ∈ nodePatterns query.matched := by
    rw [spells.patterns]
    exact List.mem_append_left _ (List.mem_map_of_mem askingMember)
  obtain ⟨sameVar, sameLabel⟩ := isOwn _ written constraint constrained sameName
  have same : asking.1 = node := by
    apply told asking askingMember
    · exact (labels_asked asking).1.symm.trans sameVar
    · exact Option.some.inj ((labels_asked asking).2.symm.trans sameLabel)
  show ownValue context.metadata context.graph asking.1 = _
  simp [same, ownValue, bound, sought, Attribute.name]

/-- A node whose value is asked for is held to it. -/
theorem Spells.heldTo
    (spells : Spells context asks extra query)
    (told :
      ∀ asking ∈ asks,
        asking.1.var = node.var → asking.1.label = node.label → asking.1 = node)
    (asked : (node, true) ∈ asks)
    (bound : context.graph.boundValue? node = some value) :
    HeldTo context.metadata query node value := by
  cases sought : (context.metadata.resolve node.label).constraintAttribute with
  | internalId =>
      refine .byIdentity sought ((spells.identities _ _).2 ⟨_, asked, ?_⟩)
      simp [QueryContext.asked, nodePattern, bound, constrainedPattern, sought]
  | property name =>
      refine .byProperty sought ?_ (spells.lookup?_parameterName told asked bound sought)
      rw [spells.patterns]
      exact List.mem_append_left _
        (List.mem_map.2 ⟨_, asked, congrArg Prod.fst (asked_byProperty bound sought)⟩)

/-- If no values are asked for, no node is held to any. -/
theorem Spells.not_heldTo
    (spells : Spells context asks extra query)
    (free : ∀ asking ∈ asks, asking.2 = false)
    (bare : ∀ pattern ∈ nodePatterns extra, pattern.constraint = none) :
    ¬ HeldTo context.metadata query node value := by
  have blank : ∀ asking ∈ asks, context.asked asking = (labeled asking.1, [], []) := by
    intro asking member
    rw [QueryContext.asked, free asking member, nodePattern_unconstrained]
  rintro (⟨_, asked⟩ | ⟨_, written, _⟩)
  · obtain ⟨asking, member, predicate⟩ := (spells.identities _ _).1 asked
    rw [blank asking member] at predicate
    exact absurd predicate List.not_mem_nil
  · rw [spells.patterns] at written
    rcases List.mem_append.1 written with ofAsking | behind
    · obtain ⟨asking, member, same⟩ := List.mem_map.1 ofAsking
      rw [blank asking member] at same
      injection same with _ _ unconstrained
      cases unconstrained
    · cases bare _ behind

end Holding

/-- A discovery puts no constraint on the path behind its elements. -/
theorem Assembled.bare
    {about : Node}
    {links : List LinkId}
    {elements : QueryElements}
    {extra : List MatchElement}
    (assembled : Assembled context kind about root links elements extra query) :
    ∀ pattern ∈ nodePatterns extra, pattern.constraint = none := by
  rcases assembled.behind with rfl | ⟨_, rfl⟩
  · simp [nodePatterns]
  · simp [nodePatterns, QueryContext.discoveryPath, MatchElement.patterns, labeled]

/-- The root is asked for its value unless the statement is about it. -/
theorem asked_of_root
    (asks : (kind.asksValues || root.immutable) = true)
    (other : kind.about? ≠ some root.id) :
    (root, true) ∈ askings kind root hops := by
  have within : kind.leavesOut root.id = false := by
    cases kind with
    | values node => exact decide_eq_false fun same => other (congrArg some same)
    | results | graph | count _ | relations _ => rfl
  refine mem_askings.2 (Or.inl ?_)
  rw [asks, within]
  rfl

section Links

variable {links : List LinkId}

/-- The node that a matched link leads to is asked for its value unless the
statement is about it. -/
theorem asked_of_entered
    (coherent : context.graph.Coherent)
    (walked : links.mapM context.graph.hop = .ok hops)
    {link : Link}
    (linkMember : link ∈ context.graph.links)
    (matched : link.id ∈ links)
    (member : node ∈ context.graph.nodes)
    (enters : link.target = node.id)
    (asks : (kind.asksValues || root.immutable) = true)
    (notRoot : node.id ≠ root.id)
    (other : kind.about? ≠ some node.id) :
    (node, true) ∈ askings kind root hops := by
  obtain ⟨index, hop, position, named⟩ := QueryGraph.exists_hop_at walked matched
  obtain ⟨_, hopLink, _, targetMember, _, targetNamed⟩ := QueryGraph.hop_at walked position
  rw [coherent.eq_of_link_id_eq hopLink linkMember named, enters] at targetNamed
  obtain rfl := coherent.eq_of_id_eq targetMember member targetNamed
  have unselected : hop.target.id ≠ kind.about?.getD root.id := by
    cases about : kind.about? with
    | none => exact notRoot
    | some id =>
        intro same
        rw [about, same] at other
        exact other rfl
  refine mem_askings.2 (Or.inr ⟨hop, List.mem_of_getElem? position, Or.inr ?_⟩)
  rw [asks, decide_eq_true unselected]
  rfl

/-- All statements but the discovery ask every bound node for its value, except
the node they are about. -/
theorem asked_of_bound
    (coherent : context.graph.Coherent)
    (entered : context.graph.TermsEntered)
    (isRoot : context.graph.root = .ok root)
    (asksValues : kind.asksValues = true)
    (selected : kind.links context.graph root.id = .ok links)
    (walked : links.mapM context.graph.hop = .ok hops)
    (member : node ∈ context.graph.nodes)
    (isBound : node.isBound = true)
    (other : kind.about? ≠ some node.id) :
    (node, true) ∈ askings kind root hops := by
  have asks : (kind.asksValues || root.immutable) = true := by rw [asksValues, Bool.true_or]
  obtain ⟨rootMember, rootKind⟩ := QueryGraph.mem_of_root isRoot
  by_cases same : node.id = root.id
  · rw [coherent.eq_of_id_eq member rootMember same] at other ⊢
    exact asked_of_root asks other
  · have notRoot : node.kind ≠ .root := by
      intro nodeKind
      apply same
      rw [(coherent.id_eq_of_isRoot member nodeKind).1,
        (coherent.id_eq_of_isRoot rootMember rootKind).1]
    obtain ⟨link, linkMember, isRelation, enters⟩ :=
      entered node member (coherent.ne_value_of_isBound member isBound) notRoot
    have matched : link.id ∈ links := by
      have chosen : link ∈ context.graph.selection root.id (kind.about?.getD root.id) :=
        coherent.mem_selection_of_entering member (Or.inr isBound)
          (QueryGraph.mem_relations.2 ⟨linkMember, isRelation⟩) enters
      have relevant := (List.mem_filter.1 chosen).2
      rw [decide_eq_true_eq] at relevant
      cases kind with
      | relations _ => cases asksValues
      | results | graph | count _ | values _ =>
          injection selected with links_eq
          rwa [links_eq] at relevant
    exact asked_of_entered coherent walked linkMember matched member enters asks same other

/-- A link on the way leads to every node of a discovery but the root, also where a
hop only starts at it. -/
theorem exists_link_to_passed
    (coherent : context.graph.Coherent)
    (isRoot : context.graph.root = .ok root)
    {id : NodeId}
    (selected : context.graph.linksToRoot id = .ok links)
    (walked : links.mapM context.graph.hop = .ok hops)
    {asking : Node × Bool}
    (passed : asking ∈ askings (.relations id) root hops)
    (notRoot : asking.1.id ≠ root.id) :
    ∃ link ∈ context.graph.links, link.id ∈ links ∧ link.target = asking.1.id := by
  rcases mem_askings.1 passed with rfl | ⟨hop, hopMember, rfl | rfl⟩
  · exact absurd rfl notRoot
  · obtain ⟨index, position⟩ := List.mem_iff_getElem?.1 hopMember
    obtain ⟨matched, linkMember, _, _, sourceNamed, _⟩ := QueryGraph.hop_at walked position
    obtain ⟨crossed, walk, rfl⟩ := coherent.exists_walk_of_linksToRoot isRoot selected
    obtain ⟨link, linkCrossed, named⟩ := List.mem_map.1 (List.mem_of_getElem? matched)
    obtain rfl := coherent.eq_of_link_id_eq (walk.mem_links link linkCrossed) linkMember named
    rcases walk.source_mem linkCrossed with atRoot | ⟨above, aboveCrossed, enters⟩
    · exact absurd (sourceNamed.trans atRoot) notRoot
    · exact ⟨above, walk.mem_links above aboveCrossed, List.mem_map_of_mem aboveCrossed,
        enters.trans sourceNamed.symm⟩
  · obtain ⟨index, position⟩ := List.mem_iff_getElem?.1 hopMember
    obtain ⟨matched, linkMember, _, _, _, targetNamed⟩ := QueryGraph.hop_at walked position
    exact ⟨hop.link, linkMember, List.mem_of_getElem? matched, targetNamed.symm⟩

/-- Below an immutable root the discovery asks every node on its way for its
value, except the node it is about. -/
theorem asked_of_walk
    (coherent : context.graph.Coherent)
    (isRoot : context.graph.root = .ok root)
    (immutable : root.immutable = true)
    {id : NodeId}
    (selected : context.graph.linksToRoot id = .ok links)
    (walked : links.mapM context.graph.hop = .ok hops)
    (member : node ∈ context.graph.nodes)
    {constrained : Bool}
    (passed : (node, constrained) ∈ askings (.relations id) root hops)
    (other : (StatementKind.relations id).about? ≠ some node.id) :
    (node, true) ∈ askings (.relations id) root hops := by
  have asks : ((StatementKind.relations id).asksValues || root.immutable) = true := immutable
  obtain ⟨rootMember, _⟩ := QueryGraph.mem_of_root isRoot
  by_cases same : node.id = root.id
  · rw [coherent.eq_of_id_eq member rootMember same] at other ⊢
    exact asked_of_root asks other
  · obtain ⟨link, linkMember, matched, enters⟩ :=
      exists_link_to_passed coherent isRoot selected walked passed same
    exact asked_of_entered coherent walked linkMember matched member enters asks same other

/-- A discovery below a root that can be changed asks for no values. -/
theorem free_of_discovery
    {id : NodeId}
    (changeable : root.immutable = false) :
    ∀ asking ∈ askings (.relations id) root hops, asking.2 = false := by
  intro asking member
  rcases mem_askings.1 member with rfl | ⟨hop, _, rfl | rfl⟩
  · simp [StatementKind.asksValues, changeable]
  · rfl
  · simp [StatementKind.asksValues, changeable]

end Links

/-- What a statement matches under the names of a node it asks for, or discovers
the relationships of. -/
theorem Assembled.exists_of_matches
    {about : Node}
    {links : List LinkId}
    {elements : QueryElements}
    {asks : List (Node × Bool)}
    {extra : List MatchElement}
    (assembled : Assembled context kind about root links elements extra query)
    (spells : Spells context asks extra query)
    (matched : Matches query node) :
    (∃ asking ∈ asks, asking.1.var = node.var ∧ asking.1.label = node.label) ∨
      kind.about? = some about.id ∧ about.var = node.var ∧ about.label = node.label := by
  obtain ⟨pattern, written, sameVar, sameLabel⟩ := matched
  rw [spells.patterns] at written
  rcases List.mem_append.1 written with ofAsking | behind
  · obtain ⟨asking, member, rfl⟩ := List.mem_map.1 ofAsking
    exact Or.inl ⟨asking, member, (labels_asked asking).1.symm.trans sameVar,
      Option.some.inj ((labels_asked asking).2.symm.trans sameLabel)⟩
  · rcases assembled.behind with rfl | ⟨isAbout, rfl⟩
    · exact absurd behind List.not_mem_nil
    · rcases List.mem_cons.1 behind with rfl | farEnd
      · exact Or.inr ⟨isAbout, sameVar, Option.some.inj sameLabel⟩
      · rw [List.mem_singleton.1 farEnd] at sameLabel
        cases sameLabel

/-- Every node asked for is one of the graph. -/
theorem mem_nodes_of_asking
    (isRoot : context.graph.root = .ok root)
    {links : List LinkId}
    (walked : links.mapM context.graph.hop = .ok hops) :
    ∀ asking ∈ askings kind root hops, asking.1 ∈ context.graph.nodes := by
  intro asking member
  rcases mem_askings.1 member with rfl | ⟨hop, hopMember, rfl | rfl⟩
  · exact (QueryGraph.mem_of_root isRoot).1
  · exact (mem_hops walked hopMember).1
  · exact (mem_hops walked hopMember).2

/-- In a graph made by plain edits, a statement holds a bound node that it matches
and is not about to its value exactly if it is not a discovery, or the root is
immutable.  So a discovery leaves out the value of an immutable node wherever the
root can be changed. -/
theorem heldTo_iff
    (edits : List GraphEdit)
    (plain : ∀ edit ∈ edits, edit.isPlain = true)
    (metadata : LabelMetadata)
    (options : QueryOptions)
    {kind : StatementKind}
    {about : Node}
    {query : Query}
    (built :
      QueryContext.parts ⟨GraphEdit.run edits .empty, metadata, options⟩ kind =
        .ok (about, query))
    {node value : Node}
    (member : node ∈ (GraphEdit.run edits .empty).nodes)
    (bound : (GraphEdit.run edits .empty).boundValue? node = some value)
    (other : kind.about? ≠ some node.id)
    (matched : Matches query node) :
    ∃ root,
      (GraphEdit.run edits .empty).root = .ok root ∧
        (HeldTo metadata query node value ↔
          (∀ id, kind ≠ .relations id) ∨ root.immutable = true) := by
  have coherent := (GraphEdit.run_wellFormed edits).toCoherent
  have isBound : node.isBound = true := by
    simp [Node.isBound, (coherent.boundValue?_eq_some_iff.1 bound).2]
  have isTerm := QueryGraph.mem_terms.2 ⟨member, coherent.ne_value_of_isBound member isBound⟩
  obtain ⟨root, links, elements, extra, assembled⟩ := exists_assembled built
  obtain ⟨hops, walked, spells⟩ := assembled.exists_spells coherent
  have told : ∀ asking ∈ askings kind root hops,
      asking.1.var = node.var → asking.1.label = node.label → asking.1 = node := by
    intro asking asked
    exact GraphEdit.eq_of_var_and_label edits plain isTerm
      (mem_nodes_of_asking assembled.isRoot walked asking asked)
  refine ⟨root, assembled.isRoot, ?_⟩
  constructor
  · intro held
    by_contra neither
    simp only [not_or, not_forall, not_not, Bool.not_eq_true] at neither
    obtain ⟨⟨id, rfl⟩, changeable⟩ := neither
    exact spells.not_heldTo (free_of_discovery changeable) assembled.bare held
  · intro applies
    refine spells.heldTo told ?_ bound
    cases asksValues : kind.asksValues with
    | true =>
        exact asked_of_bound coherent (GraphEdit.run_termsEntered edits plain) assembled.isRoot
          asksValues assembled.selected walked member isBound other
    | false =>
        obtain ⟨id, rfl⟩ : ∃ id, kind = .relations id := by
          cases kind with
          | relations id => exact ⟨id, rfl⟩
          | results | graph | count _ | values _ => cases asksValues
        have immutable := applies.resolve_left fun isOther => isOther id rfl
        rcases assembled.exists_of_matches spells matched with
          ⟨asking, asked, sameVar, sameLabel⟩ | ⟨isAbout, sameVar, sameLabel⟩
        · obtain rfl := told asking asked sameVar sameLabel
          exact asked_of_walk coherent assembled.isRoot immutable assembled.selected walked member
            asked other
        · have same := GraphEdit.eq_of_var_and_label edits plain isTerm assembled.aboutMember
            sameVar sameLabel
          exact absurd (same ▸ isAbout) other

/-- An account that can be changed, a contact below it that is bound to the identity
7 and immutable, and a person below the contact. -/
def pinnedContact : List GraphEdit :=
  [.addRoot "Account",
    .addRelationship ⟨0⟩ "OWNS" "Contact" false,
    .addValue ⟨1⟩ [("NEO4JID", .int 7)],
    .bindValue ⟨1⟩ ⟨3⟩,
    .setImmutable ⟨1⟩ true,
    .addRelationship ⟨1⟩ "KNOWS" "Person" false]

theorem heldTo_iff_pinnedContact :
    ∃ about query,
      QueryContext.parts
          ⟨GraphEdit.run pinnedContact .empty, LabelRegistry.empty.metadata, {}⟩ (.relations ⟨5⟩) =
        .ok (about, query) ∧
      ∃ contact ∈ (GraphEdit.run pinnedContact .empty).nodes,
        contact.immutable = true ∧ Matches query contact ∧
          ∃ value, (GraphEdit.run pinnedContact .empty).boundValue? contact = some value ∧
            ¬ HeldTo LabelRegistry.empty.metadata query contact value := by
  obtain ⟨contact, member, named, var, label, immutable, isBound⟩ :
      ∃ contact ∈ (GraphEdit.run pinnedContact .empty).nodes,
        contact.id = ⟨1⟩ ∧ contact.var = "contact" ∧ contact.label = "Contact" ∧
          contact.immutable = true ∧
            ((GraphEdit.run pinnedContact .empty).boundValue? contact).isSome = true := by
    decide +kernel
  obtain ⟨value, bound⟩ := Option.isSome_iff_exists.1 isBound
  have changeable : ∀ node ∈ (GraphEdit.run pinnedContact .empty).nodes,
      node.kind = .root → node.immutable = false := by
    decide +kernel
  have patterns :
      (QueryContext.parts
        ⟨GraphEdit.run pinnedContact .empty, LabelRegistry.empty.metadata, {}⟩
          (.relations ⟨5⟩)).map (fun answer => nodePatterns answer.2.matched) =
        .ok [⟨"account", some "Account", none⟩, ⟨"contact", some "Contact", none⟩,
          ⟨"person", some "Person", none⟩, ⟨"account", some "Account", none⟩,
          ⟨"contact", some "Contact", none⟩, ⟨"person", some "Person", none⟩,
          ⟨"x", none, none⟩] := by
    decide +kernel
  cases built : QueryContext.parts
      ⟨GraphEdit.run pinnedContact .empty, LabelRegistry.empty.metadata, {}⟩ (.relations ⟨5⟩) with
  | error failure =>
      rw [built] at patterns
      cases patterns
  | ok answer =>
      obtain ⟨about, query⟩ := answer
      rw [built] at patterns
      have written : nodePatterns query.matched = _ := Except.ok.inj patterns
      have matched : Matches query contact := by
        refine ⟨⟨"contact", some "Contact", none⟩, ?_, var.symm, congrArg some label.symm⟩
        rw [written]
        decide
      refine ⟨about, query, rfl, contact, member, immutable, matched, value, bound, ?_⟩
      obtain ⟨root, isRoot, held⟩ := heldTo_iff pinnedContact (by decide)
        LabelRegistry.empty.metadata {} built member bound (by rw [named]; decide) matched
      obtain ⟨rootMember, rootKind⟩ := QueryGraph.mem_of_root isRoot
      rw [held, changeable root rootMember rootKind]
      rintro (isOther | isImmutable)
      · exact isOther ⟨5⟩ rfl
      · cases isImmutable

end Compiler
end VisualQuery
