import VisualQuery.Compiler.Statements
import VisualQuery.Proofs.Compiler.Chain
import VisualQuery.Proofs.Compiler.Parameters
import VisualQuery.Proofs.Compiler.Selection
import VisualQuery.Proofs.Graph.History
import VisualQuery.Proofs.Graph.Listings

/-!
# Variables of nodes and of what lies between them

A statement names its relationships `r0`, `r1`, …, and a discovery names its
relationship `r` and its far end `x`.  Terms are named after their labels, in
the same space of names.  The two kinds of variables meet exactly for labels
whose normalized form is one of these names.
-/

namespace VisualQuery

namespace VariableNames

/-- A base whose numbered form starts with a letter and goes on with a numeral
is the letter or the letter with a numeral behind it. -/
theorem base_of_numbered_eq
    {base : String}
    (nonempty : base ≠ "")
    {number index : Nat}
    {letter : Char}
    (same : (numbered base number).toList = letter :: Nat.toDigits 10 index) :
    base.toList = [letter] ∨ ∃ smaller, base.toList = letter :: Nat.toDigits 10 smaller := by
  rw [toList_numbered] at same
  cases letters : base.toList with
  | nil => exact absurd (String.toList_injective (letters.trans rfl)) nonempty
  | cons first front =>
      rw [letters, List.cons_append] at same
      obtain ⟨rfl, digits⟩ := List.cons_eq_cons.1 same
      by_cases short : front = []
      · exact Or.inl (by rw [short])
      · refine Or.inr ?_
        rcases Nat.eq_zero_or_pos index with rfl | positive
        · refine ⟨0, ?_⟩
          have lengths := congrArg List.length digits
          have frontPositive := List.length_pos_of_ne_nil short
          have single : (Nat.toDigits 10 0).length = 1 := by decide
          rw [List.length_append, single] at lengths
          have noSuffix : suffix number = [] := List.length_eq_zero_iff.1 (by omega)
          rw [← digits, noSuffix, List.append_nil]
        · obtain ⟨smaller, _, _, front_eq⟩ :=
            exists_numeral_of_append positive short digits.symm
          exact ⟨smaller, by rw [front_eq]⟩

end VariableNames

namespace GraphEdit

open QueryGraph

/-- Terms are named after their labels. -/
theorem exists_number_of_term
    (edits : List GraphEdit)
    {node : Node}
    (member : node ∈ (run edits .empty).terms) :
    ∃ number, node.var = VariableNames.numbered (VariableNames.normalize node.label) number := by
  have recorded := recorded_handedOut edits wellFormed_empty recorded_empty
  generalize handedOut edits .empty [] = log at recorded
  have logged : node.naming ∈ log :=
    recorded.terms.subset (List.mem_map_of_mem member)
  have pairs : log.map (fun naming => (VariableNames.normalize naming.label, naming.name)) =
      (VariableNames.slots [] (log.map Naming.label)).map fun slot =>
        (slot.1, VariableNames.numbered slot.1 slot.2) := by
    have names := VariableNames.issue_eq_slots VariableNames.counts_nil (log.map Naming.label)
    have bases := VariableNames.map_fst_slots [] (log.map Naming.label)
    rw [recorded.names] at names
    rw [← List.zip_map', ← List.zip_map', ← names, bases, List.map_map]
    rfl
  have listed : (VariableNames.normalize _, _) ∈ log.map fun naming =>
      (VariableNames.normalize naming.label, naming.name) :=
    List.mem_map_of_mem logged
  rw [pairs] at listed
  obtain ⟨slot, _, same⟩ := List.mem_map.1 listed
  obtain ⟨base, name⟩ := Prod.mk.inj same
  refine ⟨slot.2, ?_⟩
  show node.naming.name = _
  rw [← name, base]
  rfl

/-- An edit that adds a bare node or link. -/
def isRaw : GraphEdit → Bool
  | .addNode _ _ _ | .addLink _ _ _ _ => true
  | _ => false

theorem not_isRaw_of_drawing
    {edits : List GraphEdit}
    {graph : QueryGraph}
    (drawing : Drawing edits graph) :
    ∀ edit ∈ edits, edit.isRaw = false := by
  intro edit member
  have plain := isPlain_of_drawing drawing edit member
  cases edit <;> simp [isRaw, isPlain] at plain ⊢

end GraphEdit

namespace Cypher

/-- The variables of the relationships of an element. -/
def MatchElement.relationVariables : MatchElement → List String
  | .node _ => []
  | .path _ relation _ => [relation.var]

/-- Variables of relationships, and of far ends of which no label is asked. -/
def auxiliaryVariables (matched : List MatchElement) : List String :=
  matched.flatMap MatchElement.relationVariables
    ++ ((nodePatterns matched).filter fun pattern => pattern.label.isNone).map NodePattern.var

theorem mem_auxiliaryVariables
    {matched : List MatchElement}
    {name : String} :
    name ∈ auxiliaryVariables matched ↔
      ∃ element ∈ matched,
        name ∈ element.relationVariables ∨
          ∃ pattern ∈ element.patterns, pattern.label = none ∧ pattern.var = name := by
  simp only [auxiliaryVariables, nodePatterns, List.mem_append, List.mem_flatMap, List.mem_map,
    List.mem_filter, Option.isNone_iff_eq_none]
  constructor
  · rintro (⟨element, member, relation⟩ | ⟨pattern, ⟨⟨element, member, written⟩, bare⟩, named⟩)
    · exact ⟨element, member, Or.inl relation⟩
    · exact ⟨element, member, Or.inr ⟨pattern, written, bare, named⟩⟩
  · rintro ⟨element, member, relation | ⟨pattern, written, bare, named⟩⟩
    · exact Or.inl ⟨element, member, relation⟩
    · exact Or.inr ⟨pattern, ⟨⟨element, member, written⟩, bare⟩, named⟩

end Cypher

namespace Compiler

open Cypher

/-- The statements that are built from a graph. -/
inductive StatementKind where
  | results
  | graph
  | count (node : NodeId)
  | values (node : NodeId)
  | relations (node : NodeId)

/-- The node that a statement is about, if it is about one. -/
def StatementKind.about? : StatementKind → Option NodeId
  | .results | .graph => none
  | .count node | .values node | .relations node => some node

/-- Whether a statement asks for the values of its nodes. -/
def StatementKind.asksValues : StatementKind → Bool
  | .relations _ => false
  | _ => true

/-- Whether a statement leaves out the value of the root: the listing of the root
does. -/
def StatementKind.leavesOut (root : NodeId) : StatementKind → Bool
  | .values node => node = root
  | _ => false

/-- The links that a statement matches. -/
def StatementKind.links
    (graph : QueryGraph)
    (root : NodeId) : StatementKind → Except QueryError (List LinkId)
  | .relations node => graph.linksToRoot node
  | kind => .ok (graph.relevantLinks root (kind.about?.getD root))

/-- A statement by its parts. -/
def QueryContext.parts (context : QueryContext) : StatementKind → Except QueryError (Node × Query)
  | .results => context.resultParts
  | .graph => context.graphParts
  | .count node => context.countParts node
  | .values node => context.valueParts node
  | .relations node => context.relationParts node

/-- A term that a statement matches has a variable that also stands for a
relationship or for a far end. -/
def Confuses (graph : QueryGraph) (query : Query) (node : Node) : Prop :=
  node ∈ graph.nodes ∧ node.kind ≠ .value ∧
    (∃ pattern ∈ nodePatterns query.matched,
      pattern.var = node.var ∧ pattern.label = some node.label) ∧
    node.var ∈ auxiliaryVariables query.matched

/-- Names that statements use for themselves: those of paths, and those of a
discovery. -/
def Reserved (name : String) : Prop :=
  name = "x" ∨ name = "r" ∨ ∃ index, name = "r" ++ Nat.repr index

/-! ## What statements name -/

variable {metadata : LabelMetadata} {graph : QueryGraph}

/-- The compiled elements have auxiliary variables for their paths only. -/
theorem mem_auxiliaryVariables_ofFragments
    {direction : Direction}
    {selected : NodeId}
    {constrainRoot constrain : Bool}
    {root : Node}
    {hops : List Hop}
    {name : String} :
    name ∈ auxiliaryVariables
        (QueryElements.ofFragments (rootFragment metadata graph root constrainRoot)
          (hops.zipIdx.map (hopFragment metadata graph direction selected constrain))).matched ↔
      ∃ index, index < hops.length ∧ name = relationVariable index := by
  have labelled : ∀ (node : Node) (constrained : Bool),
      (nodePattern metadata graph node constrained).1.label ≠ none := by
    intro node constrained
    rw [(labels_nodePattern node constrained).2]
    exact Option.some_ne_none _
  rw [mem_auxiliaryVariables]
  constructor
  · rintro ⟨element, member, named⟩
    rcases List.mem_cons.1 member with rfl | path
    · rcases named with relation | ⟨pattern, written, bare, _⟩
      · exact absurd relation List.not_mem_nil
      · rw [List.mem_singleton.1 written] at bare
        exact absurd bare (labelled root constrainRoot)
    · rw [List.map_map] at path
      obtain ⟨⟨hop, index⟩, position, rfl⟩ := List.mem_map.1 path
      obtain ⟨bound, _⟩ := List.getElem?_eq_some_iff.1 (List.mem_zipIdx_iff_getElem?.1 position)
      rcases named with relation | ⟨pattern, written, bare, _⟩
      · exact ⟨index, bound, List.mem_singleton.1 relation⟩
      · rcases List.mem_cons.1 written with rfl | target
        · exact absurd bare (Option.some_ne_none _)
        · rw [List.mem_singleton.1 target] at bare
          exact absurd bare (labelled hop.target _)
  · rintro ⟨index, bound, rfl⟩
    have position : (hops[index], index) ∈ hops.zipIdx :=
      List.mem_zipIdx_iff_getElem?.2 (by simp [bound])
    refine ⟨_, List.mem_cons_of_mem _ (List.mem_map_of_mem (List.mem_map_of_mem position)), ?_⟩
    exact Or.inl (List.mem_singleton_self _)

/-- A discovery adds its relationship and its far end. -/
theorem mem_auxiliaryVariables_discoveryPath
    {context : QueryContext}
    {about : Node}
    {name : String} :
    name ∈ auxiliaryVariables [context.discoveryPath about] ↔
      name = discoveryRelation ∨ name = discoveryEnd := by
  simp [auxiliaryVariables, nodePatterns, QueryContext.discoveryPath,
    MatchElement.relationVariables, MatchElement.patterns, labeled]

theorem mem_auxiliaryVariables_append
    {first second : List MatchElement}
    {name : String} :
    name ∈ auxiliaryVariables (first ++ second) ↔
      name ∈ auxiliaryVariables first ∨ name ∈ auxiliaryVariables second := by
  simp only [mem_auxiliaryVariables, List.mem_append, or_and_right, exists_or]

/-- A statement is made of compiled elements, and a discovery of its path behind
them. -/
structure Assembled
    (context : QueryContext)
    (kind : StatementKind)
    (about root : Node)
    (links : List LinkId)
    (elements : QueryElements)
    (extra : List MatchElement)
    (query : Query) : Prop where
  isRoot : context.graph.root = .ok root
  aboutMember : about ∈ context.graph.nodes
  selected : kind.links context.graph root.id = .ok links
  compiled :
    compileElements context.metadata context.graph context.direction root.id
      (kind.about?.getD root.id) links kind.asksValues (kind.leavesOut root.id) = .ok elements
  matched : query.matched = elements.matched ++ extra
  predicates : query.predicates = elements.predicates
  parameters : query.parameters = elements.parameters
  behind :
    extra = [] ∨ kind.about? = some about.id ∧ extra = [context.discoveryPath about]

theorem exists_assembled
    {context : QueryContext}
    {kind : StatementKind}
    {about : Node}
    {query : Query}
    (built : context.parts kind = .ok (about, query)) :
    ∃ root links elements extra, Assembled context kind about root links elements extra query := by
  cases kind with
  | results =>
      simp only [QueryContext.parts, QueryContext.resultParts, QueryContext.rootElements,
        bind_eq_ok_iff, pure, Except.pure, Except.ok.injEq, Prod.mk.injEq, Prod.exists] at built
      obtain ⟨_, _, ⟨root, isRoot, elements, compiled, rfl, rfl⟩, rfl, rfl⟩ := built
      exact ⟨root, _, elements, [], isRoot, (QueryGraph.mem_of_root isRoot).1, rfl, compiled,
        (List.append_nil _).symm, rfl, rfl, Or.inl rfl⟩
  | graph =>
      simp only [QueryContext.parts, QueryContext.graphParts, QueryContext.rootElements,
        bind_eq_ok_iff, pure, Except.pure, Except.ok.injEq, Prod.mk.injEq, Prod.exists] at built
      obtain ⟨_, _, ⟨root, isRoot, elements, compiled, rfl, rfl⟩, rfl, rfl⟩ := built
      exact ⟨root, _, elements, [], isRoot, (QueryGraph.mem_of_root isRoot).1, rfl, compiled,
        (List.append_nil _).symm, rfl, rfl, Or.inl rfl⟩
  | count node =>
      simp only [QueryContext.parts, QueryContext.countParts, bind_eq_ok_iff, pure, Except.pure,
        Except.ok.injEq, Prod.mk.injEq] at built
      obtain ⟨root, isRoot, counted, found, elements, compiled, rfl, rfl⟩ := built
      obtain ⟨aboutMember, rfl⟩ := QueryGraph.mem_of_node found
      exact ⟨root, _, elements, [], isRoot, aboutMember, rfl, compiled,
        (List.append_nil _).symm, rfl, rfl, Or.inl rfl⟩
  | values node =>
      simp only [QueryContext.parts, QueryContext.valueParts, bind_eq_ok_iff, pure, Except.pure,
        Except.ok.injEq, Prod.mk.injEq] at built
      obtain ⟨root, isRoot, target, found, elements, compiled, rfl, rfl⟩ := built
      obtain ⟨aboutMember, rfl⟩ := QueryGraph.mem_of_node found
      exact ⟨root, _, elements, [], isRoot, aboutMember, rfl, compiled,
        (List.append_nil _).symm, rfl, rfl, Or.inl rfl⟩
  | relations node =>
      simp only [QueryContext.parts, QueryContext.relationParts, bind_eq_ok_iff, pure, Except.pure,
        Except.ok.injEq, Prod.mk.injEq] at built
      obtain ⟨root, isRoot, target, found, links, walked, elements, compiled, rfl, rfl⟩ := built
      obtain ⟨aboutMember, rfl⟩ := QueryGraph.mem_of_node found
      exact ⟨root, links, elements, [context.discoveryPath target], isRoot, aboutMember, walked,
        compiled, rfl, rfl, rfl, Or.inr ⟨rfl, rfl⟩⟩

/-- Whatever a statement names besides terms has a reserved name. -/
theorem reserved_of_mem_auxiliaryVariables
    {context : QueryContext}
    {kind : StatementKind}
    {about : Node}
    {query : Query}
    (built : context.parts kind = .ok (about, query))
    {name : String}
    (member : name ∈ auxiliaryVariables query.matched) :
    Reserved name := by
  obtain ⟨root, links, elements, extra, assembled⟩ := exists_assembled built
  obtain ⟨rootNode, hops, _, _, rfl⟩ := exists_of_compileElements_ok assembled.compiled
  rw [assembled.matched, mem_auxiliaryVariables_append] at member
  rcases member with path | discovery
  · obtain ⟨index, _, named⟩ := mem_auxiliaryVariables_ofFragments.1 path
    exact Or.inr (Or.inr ⟨index, named⟩)
  · rcases assembled.behind with rfl | ⟨_, rfl⟩
    · exact absurd discovery List.not_mem_nil
    · rcases mem_auxiliaryVariables_discoveryPath.1 discovery with named | named
      · exact Or.inr (Or.inl named)
      · exact Or.inl named

/-- A number behind a name does not make it reserved. -/
theorem reserved_of_numbered
    {base : String}
    (nonempty : base ≠ "")
    {number : Nat}
    (reserved : Reserved (VariableNames.numbered base number)) :
    Reserved base := by
  have single : ∀ letter : Char,
      (VariableNames.numbered base number).toList = [letter] → base.toList = [letter] := by
    intro letter same
    rw [VariableNames.toList_numbered] at same
    rcases List.append_eq_singleton_iff.1 same with ⟨isEmpty, _⟩ | ⟨alone, _⟩
    · exact absurd (String.toList_injective isEmpty) nonempty
    · exact alone
  rcases reserved with named | named | ⟨index, named⟩
  · exact Or.inl (String.toList_injective (single 'x' (by rw [named]; rfl)))
  · exact Or.inr (Or.inl (String.toList_injective (single 'r' (by rw [named]; rfl))))
  · have letters : (VariableNames.numbered base number).toList =
        'r' :: Nat.toDigits 10 index := by
      rw [named]
      simp
    rcases VariableNames.base_of_numbered_eq nonempty letters with alone | ⟨smaller, longer⟩
    · exact Or.inr (Or.inl (String.toList_injective (alone.trans rfl)))
    · refine Or.inr (Or.inr ⟨smaller, String.toList_injective ?_⟩)
      rw [longer]
      simp

/-- A discovery writes its path behind the elements of the straight path. -/
theorem exists_relationParts_of_compiled
    {context : QueryContext}
    {id : NodeId}
    {root target : Node}
    {links : List LinkId}
    {elements : QueryElements}
    (isRoot : context.graph.root = .ok root)
    (found : context.graph.node id = .ok target)
    (walked : context.graph.linksToRoot target.id = .ok links)
    (compiled :
      compileElements context.metadata context.graph context.direction root.id target.id links
        false false = .ok elements) :
    ∃ query,
      context.relationParts id = .ok (target, query) ∧
        query.matched = elements.matched ++ [context.discoveryPath target] := by
  simp only [QueryContext.relationParts, isRoot, found, walked, compile, compiled, bind,
    Except.bind, pure, Except.pure]
  exact ⟨_, rfl, rfl⟩

/-- The discovery below the end of a chain names the root, its relationship, its
far end and a path for every relationship of the chain. -/
theorem exists_relationParts_of_chained
    (context : QueryContext)
    {label : String}
    {length : Nat}
    {root last : Node}
    (chained : context.graph.Chained label length root last)
    (tree : context.graph.Tree) :
    ∃ query,
      context.relationParts last.id = .ok (last, query) ∧
        (∃ pattern ∈ nodePatterns query.matched,
          pattern.var = root.var ∧ pattern.label = some root.label) ∧
        ∀ name,
          (name = discoveryRelation ∨ name = discoveryEnd ∨
            ∃ index, index < length ∧ name = relationVariable index) →
            name ∈ auxiliaryVariables query.matched := by
  have coherent := tree.toCoherent
  obtain ⟨path, walked, long, known⟩ := chained.exists_path tree
  obtain ⟨hops, found⟩ := coherent.exists_hops known
  obtain ⟨rootMember, _⟩ := QueryGraph.mem_of_root chained.isRoot
  have compiled := compileElements_ok context.metadata (coherent.node_of_mem rootMember) found
    context.direction last.id false false
  obtain ⟨query, built, matched⟩ := exists_relationParts_of_compiled chained.isRoot
    (coherent.node_of_mem chained.member) walked compiled
  refine ⟨query, built, ?_, ?_⟩
  · have first : (nodePattern context.metadata context.graph root root.immutable).1 ∈
        nodePatterns query.matched := by
      rw [matched]
      simp [nodePatterns, QueryElements.ofFragments, rootFragment, MatchElement.patterns]
    exact ⟨_, first, labels_nodePattern root _⟩
  · have counted : hops.length = path.length :=
      (mapM_eq_ok_iff.1 found).length_eq.symm
    intro name named
    rw [matched, mem_auxiliaryVariables_append]
    rcases named with relation | farEnd | ⟨index, below, path⟩
    · exact Or.inr (mem_auxiliaryVariables_discoveryPath.2 (Or.inl relation))
    · exact Or.inr (mem_auxiliaryVariables_discoveryPath.2 (Or.inr farEnd))
    · exact Or.inl (mem_auxiliaryVariables_ofFragments.2 ⟨index, by omega, path⟩)

/-- For a label, some graph drawn without bare nodes and links has a statement
that confuses a term of this label with one of its relationships or far ends,
exactly if the normalized label is a reserved name: `x`, `r` or `r` with a
number behind it.  So statements about graphs without such labels keep the two
kinds of variables apart, and for every such label some statement does not. -/
theorem exists_confuses_iff_reserved
    (metadata : LabelMetadata)
    (options : QueryOptions)
    (label : String) :
    (∃ edits kind about query node,
        (∀ edit ∈ edits, edit.isRaw = false) ∧
          (∀ id, StatementKind.about? kind = some id → (GraphEdit.run edits .empty).IsTerm id) ∧
          QueryContext.parts ⟨GraphEdit.run edits .empty, metadata, options⟩ kind =
            .ok (about, query) ∧
          Confuses (GraphEdit.run edits .empty) query node ∧ node.label = label) ↔
      Reserved (VariableNames.normalize label) := by
  constructor
  · rintro ⟨edits, kind, about, query, node, _, _, built, ⟨member, isTerm, _, meets⟩, rfl⟩
    obtain ⟨number, named⟩ :=
      GraphEdit.exists_number_of_term edits (QueryGraph.mem_terms.2 ⟨member, isTerm⟩)
    have reserved := reserved_of_mem_auxiliaryVariables built meets
    rw [named] at reserved
    exact reserved_of_numbered (VariableNames.normalize_ne_empty _) reserved
  · intro reserved
    obtain ⟨length, meets⟩ : ∃ length,
        VariableNames.normalize label = discoveryRelation ∨
          VariableNames.normalize label = discoveryEnd ∨
            ∃ index, index < length ∧ VariableNames.normalize label = relationVariable index := by
      rcases reserved with farEnd | relation | ⟨index, path⟩
      · exact ⟨0, Or.inr (Or.inl farEnd)⟩
      · exact ⟨0, Or.inl relation⟩
      · exact ⟨index + 1, Or.inr (Or.inr ⟨index, Nat.lt_succ_self index, path⟩)⟩
    obtain ⟨edits, root, last, drawing, chained⟩ := QueryGraph.exists_chain label length
    have tree : (GraphEdit.run edits .empty).Tree :=
      GraphEdit.run_tree edits QueryGraph.wellFormed_empty QueryGraph.tree_empty drawing
    obtain ⟨rootMember, isRoot⟩ := QueryGraph.mem_of_root chained.isRoot
    obtain ⟨query, built, written, names⟩ := exists_relationParts_of_chained
      ⟨GraphEdit.run edits .empty, metadata, options⟩ chained tree
    refine ⟨edits, .relations last.id, last, query, root, GraphEdit.not_isRaw_of_drawing drawing,
      ?_, built, ⟨rootMember, by simp [isRoot], written, ?_⟩, chained.labelled⟩
    · rintro id same
      injection same with same
      exact ⟨last, chained.member, same, chained.isTerm⟩
    · apply names
      rw [chained.named]
      exact meets

example : Reserved (VariableNames.normalize "R 12") := Or.inr (Or.inr ⟨12, by decide⟩)

end Compiler

end VisualQuery
