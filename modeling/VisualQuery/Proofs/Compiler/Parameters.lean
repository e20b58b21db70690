import VisualQuery.Proofs.Compiler.Fragments
import VisualQuery.Proofs.Graph.Invariance

/-!
# Whose value a parameter holds

All inline constraints of a statement share one set of parameters, named after
a variable and an attribute with an underscore between them.  Underscores may
stand inside variables and attributes too, so two nodes with different
variables can meet in one name, and then the later value counts for both.
-/

namespace VisualQuery

/-- A list can be split at a separator in two ways only if the separator occurs
inside one of the parts. -/
theorem append_cons_eq_append_cons_iff
    {α : Type}
    {separator : α}
    {left right leftEnd rightEnd : List α} :
    left ++ separator :: leftEnd = right ++ separator :: rightEnd ↔
      (left = right ∧ leftEnd = rightEnd) ∨
        (∃ rest, right = left ++ separator :: rest ∧ leftEnd = rest ++ separator :: rightEnd) ∨
        ∃ rest, left = right ++ separator :: rest ∧ rightEnd = rest ++ separator :: leftEnd := by
  constructor
  · intro same
    rcases List.append_eq_append_iff.1 same with ⟨middle, longer, ends⟩ | ⟨middle, longer, ends⟩
    · cases middle with
      | nil => exact Or.inl ⟨by simpa using longer.symm, by simpa using ends⟩
      | cons letter rest =>
          obtain ⟨rfl, below⟩ := List.cons_eq_cons.1 ends
          exact Or.inr (Or.inl ⟨rest, longer, below⟩)
    · cases middle with
      | nil => exact Or.inl ⟨by simpa using longer, by simpa using ends.symm⟩
      | cons letter rest =>
          obtain ⟨rfl, below⟩ := List.cons_eq_cons.1 ends
          exact Or.inr (Or.inr ⟨rest, longer, below⟩)
  · rintro (⟨rfl, rfl⟩ | ⟨rest, rfl, rfl⟩ | ⟨rest, rfl, rfl⟩)
    · rfl
    · simp
    · simp

/-- Two names with an underscore behind the first part are the same only if
their parts are, or one first part continues the other. -/
theorem append_underscore_eq_iff
    (left right leftEnd rightEnd : String) :
    left ++ "_" ++ leftEnd = right ++ "_" ++ rightEnd ↔
      (left = right ∧ leftEnd = rightEnd) ∨
        (∃ rest, right = left ++ "_" ++ rest ∧ leftEnd = rest ++ "_" ++ rightEnd) ∨
        ∃ rest, left = right ++ "_" ++ rest ∧ rightEnd = rest ++ "_" ++ leftEnd := by
  have letters : ∀ before behind : String,
      (before ++ "_" ++ behind).toList = before.toList ++ '_' :: behind.toList := by
    intro before behind
    simp [String.toList_append]
  have texts : ∀ property : List Char → Prop,
      (∃ rest, property rest) ↔ ∃ rest : String, property rest.toList := by
    intro property
    constructor
    · rintro ⟨rest, holds⟩
      exact ⟨String.ofList rest, by simpa using holds⟩
    · rintro ⟨rest, holds⟩
      exact ⟨rest.toList, holds⟩
  simp only [← String.toList_inj, letters, append_cons_eq_append_cons_iff, texts]

namespace KeyedList

/-- Every pair is found under its key exactly if no two pairs share a key and
differ. -/
theorem lookup?_ofList_iff
    {α : Type}
    {pairs : List (String × α)} :
    (∀ pair ∈ pairs, lookup? pair.1 (ofList pairs) = some pair.2) ↔
      ∀ left ∈ pairs, ∀ right ∈ pairs, left.1 = right.1 → left.2 = right.2 := by
  constructor
  · intro found left leftMember right rightMember sameKey
    have atLeft := found left leftMember
    rw [sameKey, found right rightMember] at atLeft
    injection atLeft with same
    exact same.symm
  · intro agree pair member
    apply lookup?_ofList_of_mem member
    intro other otherMember sameKey
    exact agree other otherMember pair member sameKey

end KeyedList

namespace Compiler

open Cypher

variable {metadata : LabelMetadata} {graph : QueryGraph}

/-! ## Nodes and their patterns -/

/-- The nodes that a statement writes patterns for: the root, then source and
target of every link. -/
def patternNodes (graph : QueryGraph) (root : NodeId) (links : List LinkId) :
    Except QueryError (List Node) := do
  let rootNode ← graph.node root
  let hops ← links.mapM graph.hop
  pure (rootNode :: hops.flatMap fun hop => [hop.source, hop.target])

/-- The constraint attribute of the value bound to a node, `null` if it is
missing. -/
def ownValue (metadata : LabelMetadata) (graph : QueryGraph) (node : Node) : PropertyValue :=
  ((graph.boundValue? node).bind fun value =>
    value.attribute? (metadata.resolve node.label).constraintAttribute.name).getD .null

/-- A node with a pattern written for it. -/
abbrev Occurrence := Node × NodePattern

/-- A constrained pattern finds the value of its own node under its
parameter. -/
def ReadsOwn
    (metadata : LabelMetadata)
    (graph : QueryGraph)
    (parameters : Parameters)
    (occurrence : Occurrence) : Prop :=
  ∀ constraint, occurrence.2.constraint = some constraint →
    KeyedList.lookup? constraint.parameter parameters =
      some (ownValue metadata graph occurrence.1)

/-- Two constrained patterns share a parameter and want different values in
it. -/
def Clash
    (metadata : LabelMetadata)
    (graph : QueryGraph)
    (left right : Occurrence) : Prop :=
  ∃ first second,
    left.2.constraint = some first ∧ right.2.constraint = some second ∧
      first.parameter = second.parameter ∧
      ownValue metadata graph left.1 ≠ ownValue metadata graph right.1

/-- The variable of one pattern is that of the other with an underscore and more
behind it, and the attribute of the other starts with what is more. -/
def Continues (shorter longer : Occurrence) : Prop :=
  ∃ first second rest,
    shorter.2.constraint = some first ∧ longer.2.constraint = some second ∧
      longer.1.var = shorter.1.var ++ "_" ++ rest ∧
      first.property = rest ++ "_" ++ second.property

/-- A node with its pattern, constrained if asked for. -/
def occurrence
    (metadata : LabelMetadata)
    (graph : QueryGraph)
    (constrain : Bool)
    (node : Node) : Occurrence :=
  (node, (nodePattern metadata graph node constrain).1)

/-- The two ends of a hop with their patterns. -/
def hopOccurrences
    (metadata : LabelMetadata)
    (graph : QueryGraph)
    (selected : NodeId)
    (constrain : Bool)
    (hop : Hop) : List Occurrence :=
  [(hop.source, labeled hop.source),
    occurrence metadata graph (constrain && hop.target.id ≠ selected) hop.target]

/-- What a pattern binds: its parameter to the value of its node. -/
def binding?
    (metadata : LabelMetadata)
    (graph : QueryGraph)
    (occurrence : Occurrence) : Option (String × PropertyValue) :=
  occurrence.2.constraint.map fun constraint =>
    (constraint.parameter, ownValue metadata graph occurrence.1)

/-- A constrained pattern belongs to a bound node and names the parameter after
it. -/
theorem constraint_nodePattern
    {node : Node}
    {constrain : Bool}
    {constraint : PropertyConstraint}
    (constrained : (nodePattern metadata graph node constrain).1.constraint = some constraint) :
    (∃ value, graph.boundValue? node = some value) ∧
      constraint.parameter = parameterName node constraint.property := by
  unfold nodePattern at constrained
  cases bound : graph.boundValue? node with
  | none => simp [bound, labeled] at constrained
  | some value =>
      cases constrain with
      | false => simp [bound, labeled] at constrained
      | true =>
          simp only [bound, if_true, constrainedPattern] at constrained
          cases sought : (metadata.resolve node.label).constraintAttribute with
          | internalId => simp [sought, labeled] at constrained
          | property name =>
              simp only [sought, Option.some.injEq] at constrained
              subst constrained
              exact ⟨⟨value, rfl⟩, rfl⟩

/-- The pattern of a node binds what its constraint asks for. -/
theorem bindings_nodePattern
    (metadata : LabelMetadata)
    (graph : QueryGraph)
    (node : Node)
    (constrain : Bool) :
    (nodePattern metadata graph node constrain).2.2 =
      (binding? metadata graph (occurrence metadata graph constrain node)).toList := by
  unfold occurrence binding? ownValue nodePattern
  cases bound : graph.boundValue? node with
  | none => rfl
  | some value =>
      cases constrain with
      | false => rfl
      | true =>
          simp only [if_true, constrainedPattern]
          cases sought : (metadata.resolve node.label).constraintAttribute <;> rfl

theorem labels_nodePattern
    (node : Node)
    (constrain : Bool) :
    (nodePattern metadata graph node constrain).1.var = node.var ∧
      (nodePattern metadata graph node constrain).1.label = some node.label := by
  unfold nodePattern
  cases graph.boundValue? node with
  | none => exact ⟨rfl, rfl⟩
  | some value =>
      cases constrain with
      | false => exact ⟨rfl, rfl⟩
      | true =>
          simp only [if_true, constrainedPattern]
          cases (metadata.resolve node.label).constraintAttribute <;> exact ⟨rfl, rfl⟩

/-! ## Whole statements -/

/-- All nodes of a statement with their patterns. -/
def occurrences
    (metadata : LabelMetadata)
    (graph : QueryGraph)
    (selected : NodeId)
    (constrain : Bool)
    (root : Node)
    (hops : List Hop) : List Occurrence :=
  occurrence metadata graph constrain root ::
    hops.flatMap (hopOccurrences metadata graph selected constrain)

theorem filterMap_cons_eq_append
    {α β : Type}
    (f : α → Option β)
    (item : α)
    (rest : List α) :
    (item :: rest).filterMap f = (f item).toList ++ rest.filterMap f := by
  cases found : f item <;> simp [found]

theorem occurrences_map_fst
    (metadata : LabelMetadata)
    (graph : QueryGraph)
    (selected : NodeId)
    (constrain : Bool)
    (root : Node)
    (hops : List Hop) :
    (occurrences metadata graph selected constrain root hops).map Prod.fst =
      root :: hops.flatMap fun hop => [hop.source, hop.target] := by
  simp [occurrences, occurrence, hopOccurrences, List.map_flatMap]

/-- The patterns of the hops, whatever their positions. -/
theorem flatMap_patterns_hops
    (metadata : LabelMetadata)
    (graph : QueryGraph)
    (direction : Direction)
    (selected : NodeId)
    (constrain : Bool)
    (hops : List Hop)
    (start : Nat) :
    ((hops.zipIdx start).map
        (hopFragment metadata graph direction selected constrain)).flatMap
          (fun fragment => fragment.element.patterns) =
      (hops.flatMap (hopOccurrences metadata graph selected constrain)).map Prod.snd := by
  rw [List.map_flatMap]
  exact flatMap_hops _ _ (fun _ _ => rfl) hops start

/-- The parameters bound by the hops, whatever their positions. -/
theorem flatMap_bindings_hops
    (metadata : LabelMetadata)
    (graph : QueryGraph)
    (direction : Direction)
    (selected : NodeId)
    (constrain : Bool)
    (hops : List Hop)
    (start : Nat) :
    ((hops.zipIdx start).map
        (hopFragment metadata graph direction selected constrain)).flatMap Fragment.bindings =
      (hops.flatMap (hopOccurrences metadata graph selected constrain)).filterMap
        (binding? metadata graph) := by
  rw [List.filterMap_flatMap]
  apply flatMap_hops
  intro hop index
  have source : binding? metadata graph (hop.source, labeled hop.source) = none := rfl
  show (nodePattern metadata graph hop.target _).2.2 = _
  rw [bindings_nodePattern, hopOccurrences, filterMap_cons_eq_append, filterMap_cons_eq_append,
    source]
  simp

/-- The patterns of compiled elements, read by their nodes. -/
theorem nodePatterns_ofFragments
    (metadata : LabelMetadata)
    (graph : QueryGraph)
    (direction : Direction)
    (selected : NodeId)
    (rootConstrained constrain : Bool)
    (root : Node)
    (hops : List Hop) :
    nodePatterns (QueryElements.ofFragments (rootFragment metadata graph root rootConstrained)
        (hops.zipIdx.map (hopFragment metadata graph direction selected constrain))).matched =
      (occurrence metadata graph rootConstrained root ::
        hops.flatMap (hopOccurrences metadata graph selected constrain)).map Prod.snd := by
  have paths := flatMap_patterns_hops metadata graph direction selected constrain hops 0
  simp only [nodePatterns, QueryElements.ofFragments, List.flatMap_cons, List.flatMap_map] at paths ⊢
  rw [paths]
  simp [occurrence, rootFragment, MatchElement.patterns]

/-- The parameters of compiled elements are those that the patterns bind. -/
theorem parameters_ofFragments
    (metadata : LabelMetadata)
    (graph : QueryGraph)
    (direction : Direction)
    (selected : NodeId)
    (rootConstrained constrain : Bool)
    (root : Node)
    (hops : List Hop) :
    (QueryElements.ofFragments (rootFragment metadata graph root rootConstrained)
        (hops.zipIdx.map (hopFragment metadata graph direction selected constrain))).parameters =
      KeyedList.ofList
        ((occurrence metadata graph rootConstrained root ::
          hops.flatMap (hopOccurrences metadata graph selected constrain)).filterMap
            (binding? metadata graph)) := by
  have paths := flatMap_bindings_hops metadata graph direction selected constrain hops 0
  have own := bindings_nodePattern metadata graph root rootConstrained
  simp only [QueryElements.ofFragments, paths, rootFragment, own, filterMap_cons_eq_append]

/-- What compiling gives, read by its nodes: their patterns and the parameters
they bind. -/
theorem exists_compile_occurrences
    (metadata : LabelMetadata)
    {root : Node}
    (isRoot : graph.node root.id = .ok root)
    {links : List LinkId}
    {hops : List Hop}
    (found : links.mapM graph.hop = .ok hops)
    (direction : Direction)
    (selected : NodeId)
    (constraintNeeded : Bool) :
    ∃ elements,
      compile metadata graph direction root.id selected links constraintNeeded = .ok elements ∧
        nodePatterns elements.matched =
          (occurrences metadata graph selected (constraintNeeded || root.immutable) root hops).map
            Prod.snd ∧
        elements.parameters =
          KeyedList.ofList
            ((occurrences metadata graph selected (constraintNeeded || root.immutable) root
              hops).filterMap (binding? metadata graph)) := by
  have compiled :=
    compileElements_ok metadata isRoot found direction selected constraintNeeded false
  rw [Bool.not_false, Bool.and_true] at compiled
  exact ⟨_, compiled, nodePatterns_ofFragments .., parameters_ofFragments ..⟩

/-- Every pattern of a statement is the pattern of its node. -/
theorem exists_nodePattern_of_mem
    {selected : NodeId}
    {constrain : Bool}
    {root : Node}
    {hops : List Hop}
    {written : Occurrence}
    (member : written ∈ occurrences metadata graph selected constrain root hops) :
    (written.1 = root ∨ ∃ hop ∈ hops, written.1 = hop.source ∨ written.1 = hop.target) ∧
      ∃ constrained, written.2 = (nodePattern metadata graph written.1 constrained).1 := by
  have unconstrained : ∀ node, labeled node = (nodePattern metadata graph node false).1 := by
    intro node
    unfold nodePattern
    cases graph.boundValue? node <;> rfl
  rcases List.mem_cons.1 member with rfl | later
  · exact ⟨Or.inl rfl, _, rfl⟩
  · obtain ⟨hop, hopMember, atEnd⟩ := List.mem_flatMap.1 later
    simp only [hopOccurrences, List.mem_cons, List.not_mem_nil, or_false] at atEnd
    rcases atEnd with rfl | rfl
    · exact ⟨Or.inr ⟨hop, hopMember, Or.inl rfl⟩, false, unconstrained hop.source⟩
    · exact ⟨Or.inr ⟨hop, hopMember, Or.inr rfl⟩, _, rfl⟩

theorem mem_hops
    {links : List LinkId}
    {hops : List Hop}
    (found : links.mapM graph.hop = .ok hops)
    {hop : Hop}
    (member : hop ∈ hops) :
    hop.source ∈ graph.nodes ∧ hop.target ∈ graph.nodes := by
  obtain ⟨index, position⟩ := List.mem_iff_getElem?.1 member
  obtain ⟨_, _, source, target, _⟩ := QueryGraph.hop_at found position
  exact ⟨source, target⟩

/-- Reading the own value is a statement about the parameters that are bound. -/
theorem readsOwn_iff_bindings
    {parameters : Parameters}
    {all : List Occurrence} :
    (∀ written ∈ all, ReadsOwn metadata graph parameters written) ↔
      ∀ pair ∈ all.filterMap (binding? metadata graph),
        KeyedList.lookup? pair.1 parameters = some pair.2 := by
  simp only [List.mem_filterMap, ReadsOwn, binding?, Option.map_eq_some_iff]
  constructor
  · rintro reads pair ⟨written, member, constraint, constrained, rfl⟩
    exact reads written member constraint constrained
  · intro found written member constraint constrained
    exact found _ ⟨written, member, constraint, constrained, rfl⟩

/-- Known links below a known root have nodes to write patterns for. -/
theorem exists_patternNodes
    (coherent : graph.Coherent)
    {root : Node}
    (member : root ∈ graph.nodes)
    {links : List LinkId}
    (known : ∀ id ∈ links, ∃ link ∈ graph.links, link.id = id) :
    ∃ nodes, patternNodes graph root.id links = .ok nodes := by
  obtain ⟨hops, found⟩ := coherent.exists_hops known
  rw [patternNodes, coherent.node_of_mem member, found]
  exact ⟨_, rfl⟩

theorem patternNodes_ok
    {root : NodeId}
    {links : List LinkId}
    {nodes : List Node}
    (known : patternNodes graph root links = .ok nodes) :
    ∃ rootNode hops,
      rootNode ∈ graph.nodes ∧ rootNode.id = root ∧ graph.node rootNode.id = .ok rootNode ∧
        links.mapM graph.hop = .ok hops ∧
        nodes = rootNode :: hops.flatMap fun hop => [hop.source, hop.target] := by
  simp only [patternNodes, bind_eq_ok_iff, pure, Except.pure, Except.ok.injEq] at known
  obtain ⟨rootNode, isRoot, hops, found, rfl⟩ := known
  obtain ⟨member, rfl⟩ := QueryGraph.mem_of_node isRoot
  exact ⟨rootNode, hops, member, rfl, isRoot, found, rfl⟩

/-- Two nodes whose patterns clash have variables of which one continues the
other. -/
theorem Clash.continues
    (distinct :
      ∀ left ∈ graph.nodes, ∀ right ∈ graph.nodes,
        left.kind ≠ .value → right.kind ≠ .value → left.var = right.var → left = right)
    {left right : Occurrence}
    (leftMember : left.1 ∈ graph.nodes)
    (rightMember : right.1 ∈ graph.nodes)
    {leftFlag rightFlag : Bool}
    (leftPattern : left.2 = (nodePattern metadata graph left.1 leftFlag).1)
    (rightPattern : right.2 = (nodePattern metadata graph right.1 rightFlag).1)
    (clash : Clash metadata graph left right)
    (leftTerm : left.1.kind ≠ .value)
    (rightTerm : right.1.kind ≠ .value) :
    Continues left right ∨ Continues right left := by
  obtain ⟨first, second, leftConstrained, rightConstrained, same, differ⟩ := clash
  have leftName := (constraint_nodePattern (leftPattern ▸ leftConstrained)).2
  have rightName := (constraint_nodePattern (rightPattern ▸ rightConstrained)).2
  rw [leftName, rightName, parameterName, parameterName, append_underscore_eq_iff] at same
  rcases same with ⟨sameVar, _⟩ | ⟨rest, longer, property⟩ | ⟨rest, longer, property⟩
  · have sameNode := distinct _ leftMember _ rightMember leftTerm rightTerm sameVar
    exact absurd (congrArg (ownValue metadata graph) sameNode) differ
  · exact Or.inl ⟨first, second, rest, leftConstrained, rightConstrained, longer, property⟩
  · exact Or.inr ⟨second, first, rest, rightConstrained, leftConstrained, longer, property⟩

/-- Compiling known links below a known root succeeds, and every pattern stands
for its node.  Every inline constraint finds the value of its own node exactly
if no two patterns clash; and with distinct variables two terms clash only where
the variable of one continues that of the other behind an underscore. -/
theorem compile_reads_own_iff_no_clash
    (metadata : LabelMetadata)
    (distinct :
      ∀ left ∈ graph.nodes, ∀ right ∈ graph.nodes,
        left.kind ≠ .value → right.kind ≠ .value → left.var = right.var → left = right)
    {root : NodeId}
    {links : List LinkId}
    {nodes : List Node}
    (known : patternNodes graph root links = .ok nodes)
    (direction : Direction)
    (selected : NodeId)
    (constraintNeeded : Bool) :
    ∃ elements,
      compile metadata graph direction root selected links constraintNeeded = .ok elements ∧
        List.Forall₂
          (fun node pattern => pattern.var = node.var ∧ pattern.label = some node.label)
          nodes (nodePatterns elements.matched) ∧
        ((∀ written ∈ nodes.zip (nodePatterns elements.matched),
            ReadsOwn metadata graph elements.parameters written) ↔
          ∀ left ∈ nodes.zip (nodePatterns elements.matched),
            ∀ right ∈ nodes.zip (nodePatterns elements.matched),
              ¬ Clash metadata graph left right) ∧
        ∀ left ∈ nodes.zip (nodePatterns elements.matched),
          ∀ right ∈ nodes.zip (nodePatterns elements.matched),
            Clash metadata graph left right →
              left.1.kind ≠ .value → right.1.kind ≠ .value →
                Continues left right ∨ Continues right left := by
  obtain ⟨rootNode, hops, rootMember, rfl, isRoot, found, rfl⟩ := patternNodes_ok known
  obtain ⟨elements, compiled, patterns, parameters⟩ :=
    exists_compile_occurrences metadata isRoot found direction selected constraintNeeded
  have nodes := occurrences_map_fst metadata graph selected
    (constraintNeeded || rootNode.immutable) rootNode hops
  generalize whole : occurrences metadata graph selected (constraintNeeded || rootNode.immutable)
    rootNode hops = all at patterns parameters nodes
  have written : ∀ occurrence ∈ all, occurrence.1 ∈ graph.nodes ∧
      ∃ flag, occurrence.2 = (nodePattern metadata graph occurrence.1 flag).1 := by
    intro occurrence member
    obtain ⟨place, pattern⟩ := exists_nodePattern_of_mem (whole ▸ member)
    refine ⟨?_, pattern⟩
    rcases place with isRoot | ⟨hop, hopMember, isSource | isTarget⟩
    · exact isRoot ▸ rootMember
    · exact isSource ▸ (mem_hops found hopMember).1
    · exact isTarget ▸ (mem_hops found hopMember).2
  have paired : (all.map Prod.fst).zip (nodePatterns elements.matched) = all := by
    rw [patterns, List.zip_map']
    simp
  rw [← nodes]
  refine ⟨elements, compiled, ?_, ?_, ?_⟩
  · rw [patterns, List.forall₂_map_left_iff, List.forall₂_map_right_iff, List.forall₂_same]
    intro occurrence member
    obtain ⟨_, flag, pattern⟩ := written occurrence member
    rw [pattern]
    exact labels_nodePattern occurrence.1 flag
  · rw [paired, readsOwn_iff_bindings, parameters, KeyedList.lookup?_ofList_iff]
    simp only [List.mem_filterMap, binding?, Option.map_eq_some_iff]
    constructor
    · rintro agree left leftMember right rightMember
        ⟨first, second, leftConstrained, rightConstrained, same, differ⟩
      exact differ (agree _ ⟨left, leftMember, first, leftConstrained, rfl⟩ _
        ⟨right, rightMember, second, rightConstrained, rfl⟩ same)
    · rintro noClash _ ⟨left, leftMember, first, leftConstrained, rfl⟩ _
        ⟨right, rightMember, second, rightConstrained, rfl⟩ same
      by_contra differ
      exact noClash left leftMember right rightMember
        ⟨first, second, leftConstrained, rightConstrained, same, differ⟩
  · rw [paired]
    intro left leftMember right rightMember clash
    obtain ⟨leftKnown, _, leftPattern⟩ := written left leftMember
    obtain ⟨rightKnown, _, rightPattern⟩ := written right rightMember
    exact clash.continues distinct leftKnown rightKnown leftPattern rightPattern

/-- Accounts and their owners, constrained so that two parameters get one name. -/
def ownedLabels : LabelMetadata :=
  (LabelRegistry.build
    [("Account", { constraintAttribute := some (.property "owner_name") }),
      ("Account_owner", { constraintAttribute := some (.property "name") })] none none).metadata

/-- An account bound to the owner name Ann, with a related owner bound to Bob. -/
def ownedAccount : List GraphEdit :=
  [.addRoot "Account", .addValue ⟨0⟩ [("owner_name", .string "Ann")], .bindValue ⟨0⟩ ⟨1⟩,
    .addRelationship ⟨0⟩ "OWNED_BY" "Account_owner" false,
    .addValue ⟨3⟩ [("name", .string "Bob")], .bindValue ⟨3⟩ ⟨5⟩]

theorem compile_misreads_ownedAccount :
    let graph := GraphEdit.run ownedAccount .empty
    ∃ nodes elements,
      patternNodes graph ⟨0⟩ [⟨4⟩] = .ok nodes ∧
        compile ownedLabels graph .out ⟨0⟩ ⟨0⟩ [⟨4⟩] true = .ok elements ∧
        ¬ ∀ written ∈ nodes.zip (nodePatterns elements.matched),
            ReadsOwn ownedLabels graph elements.parameters written := by
  intro graph
  have coherent : graph.Coherent := (GraphEdit.run_wellFormed ownedAccount).toCoherent
  have distinct : ∀ left ∈ graph.nodes, ∀ right ∈ graph.nodes,
      left.kind ≠ .value → right.kind ≠ .value → left.var = right.var → left = right := by
    decide +kernel
  obtain ⟨root, member, named⟩ : ∃ root ∈ graph.nodes, root.id = ⟨0⟩ := by decide +kernel
  obtain ⟨nodes, known⟩ := exists_patternNodes coherent member
    (show ∀ id ∈ [(⟨4⟩ : LinkId)], ∃ link ∈ graph.links, link.id = id by decide +kernel)
  rw [named] at known
  obtain ⟨elements, compiled, _, reads, _⟩ :=
    compile_reads_own_iff_no_clash ownedLabels distinct known .out ⟨0⟩ true
  refine ⟨nodes, elements, known, compiled, ?_⟩
  have patterns : (compile ownedLabels graph .out ⟨0⟩ ⟨0⟩ [⟨4⟩] true).map
      (fun elements => nodePatterns elements.matched) =
        .ok [⟨"account", some "Account", some ⟨"owner_name", "account_owner_name"⟩⟩,
          ⟨"account", some "Account", none⟩,
          ⟨"account_owner", some "Account_owner", some ⟨"name", "account_owner_name"⟩⟩] := by
    decide +kernel
  have values : (patternNodes graph ⟨0⟩ [⟨4⟩]).map (List.map (ownValue ownedLabels graph)) =
      .ok [.string "Ann", .string "Ann", .string "Bob"] := by
    decide +kernel
  simp only [compiled, Except.map, Except.ok.injEq] at patterns
  simp only [known, Except.map, Except.ok.injEq] at values
  obtain ⟨account, others, rfl, accountValue, others_eq⟩ := List.map_eq_cons_iff.1 values
  obtain ⟨again, others, rfl, _, others_eq⟩ := List.map_eq_cons_iff.1 others_eq
  obtain ⟨owner, others, rfl, ownerValue, others_eq⟩ := List.map_eq_cons_iff.1 others_eq
  rw [reads, patterns]
  intro noClash
  apply noClash (account, ⟨"account", some "Account", some ⟨"owner_name", "account_owner_name"⟩⟩)
    (by simp) (owner, ⟨"account_owner", some "Account_owner", some ⟨"name", "account_owner_name"⟩⟩)
    (by simp)
  refine ⟨_, _, rfl, rfl, rfl, ?_⟩
  rw [accountValue, ownerValue]
  decide

end Compiler
end VisualQuery
