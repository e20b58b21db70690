import VisualQuery.Proofs.Compiler.Selection
import VisualQuery.Proofs.Graph.Naming

/-!
# The result statement means the picture

A node of a property graph is found by the result statement of a drawn graph
exactly if it is the root of a placement that fits the picture.  An assignment
that satisfies the statement places the pictured nodes by their variables; a
placement that fits is made an assignment by choosing a relationship for every
path.
-/

namespace VisualQuery
namespace Compiler

open Cypher

variable
  {metadata : LabelMetadata}
  {direction : Direction}
  {graph : QueryGraph}
  {root : Node}
  {query : Query}
  {database : Database}
  {judge : Judge database}
  {assignment : Assignment database}
  {place : NodeId → database.Node}

/-- The variables of pictured nodes stand for the nodes of a placement. -/
def Agrees
    (graph : QueryGraph)
    (assignment : Assignment database)
    (place : NodeId → database.Node) : Prop :=
  ∀ node, graph.Pictured node → assignment node.var = .node (place node.id)

/-- Every path has a relationship between the places of its ends. -/
def Connects
    (direction : Direction)
    (graph : QueryGraph)
    (assignment : Assignment database)
    (place : NodeId → database.Node) : Prop :=
  ∀ index link source target, Matched graph index link source target →
    ∃ relation, assignment (relationVariable index) = .relation relation ∧
      database.Related link.label direction (place source.id) (place target.id) relation

namespace Describes

/-- The variables of the node patterns are those of the pictured nodes. -/
theorem exists_nodeVariable_iff
    (describes : Describes metadata direction graph root query)
    (tree : graph.Tree)
    (isRoot : graph.root = .ok root)
    {name : String} :
    (∃ element ∈ query.matched, name ∈ element.nodeVariables) ↔
      ∃ node, graph.Pictured node ∧ node.var = name := by
  constructor
  · rintro ⟨element, member, named⟩
    rcases (describes.matched element).1 member with
      rfl | ⟨index, link, source, target, matched, rfl⟩
    · simp only [MatchElement.nodeVariables, nodePattern_var, List.mem_singleton] at named
      exact ⟨root, (pictured_iff tree isRoot).2 (Or.inl rfl), named.symm⟩
    · simp only [MatchElement.nodeVariables, nodePattern_var, labeled, List.mem_cons,
        List.not_mem_nil, or_false] at named
      rcases named with ofSource | ofTarget
      · exact ⟨source, matched.pictured_source tree, ofSource.symm⟩
      · exact ⟨target, (matched.relation_and_pictured tree).2, ofTarget.symm⟩
  · rintro ⟨node, pictured, rfl⟩
    rcases (pictured_iff tree isRoot).1 pictured with
      rfl | ⟨index, link, source, matched⟩
    · refine ⟨_, (describes.matched _).2 (Or.inl rfl), ?_⟩
      simp [MatchElement.nodeVariables]
    · refine ⟨_, (describes.matched _).2 (Or.inr ⟨index, link, source, node, matched, rfl⟩), ?_⟩
      simp [MatchElement.nodeVariables]

/-- The judge is told the same about an assignment and a placement that
agree. -/
theorem standsFor_eq
    (describes : Describes metadata direction graph root query)
    (tree : graph.Tree)
    (isRoot : graph.root = .ok root)
    (agrees : Agrees graph assignment place) :
    standsFor query.matched assignment = placed graph place := by
  funext name stored
  apply propext
  unfold standsFor placed
  rw [describes.exists_nodeVariable_iff tree isRoot]
  constructor
  · rintro ⟨⟨node, pictured, rfl⟩, assigned⟩
    rw [agrees node pictured] at assigned
    injection assigned with same
    exact ⟨node, pictured, rfl, same⟩
  · rintro ⟨node, pictured, rfl, rfl⟩
    exact ⟨⟨node, pictured, rfl⟩, agrees node pictured⟩

/-- In a satisfied statement the pattern of every pictured node matches. -/
theorem exists_matches
    (describes : Describes metadata direction graph root query)
    (tree : graph.Tree)
    (isRoot : graph.root = .ok root)
    (satisfied : query.Satisfied judge assignment)
    {node : Node}
    (pictured : graph.Pictured node) :
    ∃ stored,
      (nodePattern metadata graph node true).1.Matches query.parameters assignment stored := by
  rcases (pictured_iff tree isRoot).1 pictured with rfl | ⟨index, link, source, matched⟩
  · exact satisfied.matched _ ((describes.matched _).2 (Or.inl rfl))
  · obtain ⟨_, second, _, _, matching⟩ := satisfied.matched _
      ((describes.matched _).2 (Or.inr ⟨index, link, source, node, matched, rfl⟩))
    exact ⟨second, matching⟩

/-- The pattern and the predicates of a pictured node hold if its place has its
label and meets its value. -/
theorem node_iff
    (describes : Describes metadata direction graph root query)
    (tree : graph.Tree)
    (judge : Judge database)
    (agrees : Agrees graph assignment place)
    {node : Node}
    (pictured : graph.Pictured node) :
    ((nodePattern metadata graph node true).1.Matches query.parameters assignment
          (place node.id) ∧
        ∀ predicate ∈ (nodePattern metadata graph node true).2.1,
          predicate.Holds assignment judge (standsFor query.matched assignment)) ↔
      database.hasLabel (place node.id) node.label ∧
        ∀ value ∈ graph.nodes, node.value = some value.id →
          Meets metadata node.label value (place node.id) := by
  rw [nodePattern_iff (agrees node pictured) (describes.parameters node pictured)]
  simp only [tree.toCoherent.boundValue?_eq_some_iff, and_imp]

/-- The pattern of a pictured node matches its place. -/
theorem matches_place
    (describes : Describes metadata direction graph root query)
    (tree : graph.Tree)
    (isRoot : graph.root = .ok root)
    (agrees : Agrees graph assignment place)
    (satisfied : query.Satisfied judge assignment)
    {node : Node}
    (pictured : graph.Pictured node) :
    database.hasLabel (place node.id) node.label ∧
      ∀ value ∈ graph.nodes, node.value = some value.id →
        Meets metadata node.label value (place node.id) := by
  obtain ⟨stored, matching⟩ := describes.exists_matches tree isRoot satisfied pictured
  have assigned := matching.var
  rw [nodePattern_var, agrees node pictured] at assigned
  injection assigned with same
  subst same
  apply (describes.node_iff tree judge agrees pictured).1
  refine ⟨matching, ?_⟩
  intro predicate member
  exact satisfied.predicates predicate
    ((describes.predicates predicate).2 ⟨node, pictured, Or.inr member⟩)

/-- A satisfied path has a relationship between the places of its ends. -/
theorem connects_of_satisfied
    (describes : Describes metadata direction graph root query)
    (tree : graph.Tree)
    (agrees : Agrees graph assignment place)
    (satisfied : query.Satisfied judge assignment) :
    Connects direction graph assignment place := by
  intro index link source target matched
  obtain ⟨first, second, ofSource, ⟨relation, assigned, related⟩, ofTarget⟩ :=
    satisfied.matched _
      ((describes.matched _).2 (Or.inr ⟨index, link, source, target, matched, rfl⟩))
  have sourceAssigned := ofSource.var
  have targetAssigned := ofTarget.var
  rw [labeled, agrees source (matched.pictured_source tree)] at sourceAssigned
  rw [nodePattern_var, agrees target (matched.relation_and_pictured tree).2] at targetAssigned
  injection sourceAssigned with sameSource
  injection targetAssigned with sameTarget
  rw [sameSource, sameTarget]
  exact ⟨relation, assigned, related⟩

/-- A placement that agrees with a satisfying assignment fits. -/
theorem fits_of_satisfied
    (describes : Describes metadata direction graph root query)
    (tree : graph.Tree)
    (isRoot : graph.root = .ok root)
    (agrees : Agrees graph assignment place)
    (satisfied : query.Satisfied judge assignment) :
    Fits metadata direction graph judge place where
  labels := by
    intro node pictured
    exact (describes.matches_place tree isRoot agrees satisfied pictured).1
  relations := by
    intro link member isRelation node pictured named
    obtain ⟨index, source, matched⟩ := exists_matched tree member isRelation pictured named
    obtain ⟨relation, _, related⟩ :=
      describes.connects_of_satisfied tree agrees satisfied index link source node matched
    rw [matched.sourceNamed, matched.targetNamed] at related
    exact ⟨relation, related⟩
  values := by
    intro node pictured
    exact (describes.matches_place tree isRoot agrees satisfied pictured).2
  predefined := by
    intro node pictured template member
    have contributed : .raw (substitute "$identifier" node.var template) ∈
        predefined metadata node := List.mem_map.2 ⟨template, member, rfl⟩
    have holds := satisfied.predicates _
      ((describes.predicates _).2 ⟨node, pictured, Or.inl contributed⟩)
    rw [describes.standsFor_eq tree isRoot agrees] at holds
    exact holds

/-- An assignment that agrees with a placement that fits, and has relationships
for the paths, satisfies the statement. -/
theorem satisfied_of_fits
    (describes : Describes metadata direction graph root query)
    (tree : graph.Tree)
    (isRoot : graph.root = .ok root)
    (agrees : Agrees graph assignment place)
    (fits : Fits metadata direction graph judge place)
    (connects : Connects direction graph assignment place) :
    query.Satisfied judge assignment := by
  have holds (node : Node) (pictured : graph.Pictured node) :=
    (describes.node_iff tree judge agrees pictured).2
      ⟨fits.labels node pictured, fits.values node pictured⟩
  constructor
  · intro element member
    rcases (describes.matched element).1 member with
      rfl | ⟨index, link, source, target, matched, rfl⟩
    · have pictured := (pictured_iff tree isRoot).2 (Or.inl (Eq.refl root))
      exact ⟨_, (holds root pictured).1⟩
    · have sourcePictured := matched.pictured_source tree
      have targetPictured := (matched.relation_and_pictured tree).2
      refine ⟨place source.id, place target.id, ?_, ?_, (holds target targetPictured).1⟩
      · refine ⟨agrees source sourcePictured, ?_, by simp [labeled]⟩
        intro required same
        injection same with same
        exact same ▸ fits.labels source sourcePictured
      · exact connects index link source target matched
  · intro predicate member
    obtain ⟨node, pictured, ofLabel | ofValue⟩ := (describes.predicates predicate).1 member
    · obtain ⟨template, templateMember, rfl⟩ := List.mem_map.1 ofLabel
      rw [describes.standsFor_eq tree isRoot agrees]
      exact fits.predefined node pictured template templateMember
    · exact (holds node pictured).2 predicate ofValue

end Describes

/-! ## From assignments to placements and back -/

/-- The nodes that the variables of terms stand for; `otherwise` where there is
none. -/
def placeOf
    (graph : QueryGraph)
    (assignment : Assignment database)
    (otherwise : database.Node)
    (id : NodeId) : database.Node :=
  match graph.node? id with
  | some node =>
    match assignment node.var with
    | .node stored => stored
    | .relation _ => otherwise
  | none => otherwise

theorem agrees_placeOf
    (describes : Describes metadata direction graph root query)
    (tree : graph.Tree)
    (isRoot : graph.root = .ok root)
    (satisfied : query.Satisfied judge assignment)
    (otherwise : database.Node) :
    Agrees graph assignment (placeOf graph assignment otherwise) := by
  intro node pictured
  obtain ⟨stored, matching⟩ := describes.exists_matches tree isRoot satisfied pictured
  have assigned := matching.var
  rw [nodePattern_var] at assigned
  rw [placeOf, tree.toCoherent.node?_of_mem pictured.member]
  simp only [assigned]

/-- A relationship of the database for a variable of a path. -/
def Chosen
    (direction : Direction)
    (graph : QueryGraph)
    (place : NodeId → database.Node)
    (name : String)
    (relation : database.Relation) : Prop :=
  ∃ index link source target, Matched graph index link source target ∧
    name = relationVariable index ∧
      database.Related link.label direction (place source.id) (place target.id) relation

/-- Variables of pictured nodes stand for their places and variables of paths
for some relationship between the places of their ends. -/
noncomputable def assignmentOf
    (direction : Direction)
    (graph : QueryGraph)
    (place : NodeId → database.Node)
    (otherwise : database.Node)
    (name : String) : Entity database := by
  classical
  exact
    if named : ∃ stored, placed graph place name stored then .node named.choose
    else if chosen : ∃ relation, Chosen direction graph place name relation then
      .relation chosen.choose
    else .node otherwise

theorem agrees_assignmentOf
    (distinct : DistinctNames metadata graph)
    (direction : Direction)
    (place : NodeId → database.Node)
    (otherwise : database.Node) :
    Agrees graph (assignmentOf direction graph place otherwise) place := by
  intro node pictured
  have named : ∃ stored, placed graph place node.var stored :=
    ⟨place node.id, node, pictured, rfl, rfl⟩
  obtain ⟨other, otherPictured, sameName, stored⟩ := named.choose_spec
  have same := distinct.terms other otherPictured.member node pictured.member
    otherPictured.isTerm pictured.isTerm sameName
  subst same
  rw [assignmentOf, dif_pos named, ← stored]

theorem relationVariable_injective
    {left right : Nat}
    (same : relationVariable left = relationVariable right) :
    left = right := by
  have lists := congrArg String.toList same
  simp only [relationVariable, String.toList_append, Nat.toList_repr] at lists
  exact VariableNames.toDigits_injective (List.append_cancel_left lists)

theorem connects_assignmentOf
    (tree : graph.Tree)
    (distinct : DistinctNames metadata graph)
    (fits : Fits metadata direction graph judge place)
    (otherwise : database.Node) :
    Connects direction graph (assignmentOf direction graph place otherwise) place := by
  intro index link source target matched
  have unnamed : ¬ ∃ stored, placed graph place (relationVariable index) stored := by
    rintro ⟨_, node, pictured, named, _⟩
    exact distinct.paths node pictured.member pictured.isTerm index named
  obtain ⟨isRelation, pictured⟩ := matched.relation_and_pictured tree
  have chosen : ∃ relation, Chosen direction graph place (relationVariable index) relation := by
    obtain ⟨relation, related⟩ :=
      fits.relations link matched.linkMember isRelation target pictured matched.targetNamed
    rw [← matched.sourceNamed, ← matched.targetNamed] at related
    exact ⟨relation, index, link, source, target, matched, rfl, related⟩
  refine ⟨chosen.choose, ?_, ?_⟩
  · rw [assignmentOf, dif_neg unnamed, dif_pos chosen]
  · obtain ⟨other, otherLink, otherSource, otherTarget, otherMatched, named, related⟩ :=
      chosen.choose_spec
    have sameIndex := relationVariable_injective named
    subst sameIndex
    have sameLink := matched.link_unique tree.toCoherent otherMatched
    subst sameLink
    rw [otherMatched.sourceNamed, otherMatched.targetNamed] at related
    rw [matched.sourceNamed, matched.targetNamed]
    exact related

/-- A statement that describes the picture finds a node exactly if it is the
root of a placement that fits. -/
theorem Describes.exists_satisfied_iff
    (describes : Describes metadata direction graph root query)
    (tree : graph.Tree)
    (isRoot : graph.root = .ok root)
    (distinct : DistinctNames metadata graph)
    (found : database.Node) :
    (∃ assignment : Assignment database,
        assignment root.var = .node found ∧ query.Satisfied judge assignment) ↔
      ∃ place : NodeId → database.Node,
        place root.id = found ∧ Fits metadata direction graph judge place := by
  have rootPictured := (pictured_iff tree isRoot).2 (Or.inl (Eq.refl root))
  constructor
  · rintro ⟨assignment, assigned, satisfied⟩
    have agrees := agrees_placeOf describes tree isRoot satisfied found
    refine ⟨placeOf graph assignment found, ?_, ?_⟩
    · have rootAssigned := agrees root rootPictured
      rw [assigned] at rootAssigned
      injection rootAssigned with same
      exact same.symm
    · exact describes.fits_of_satisfied tree isRoot agrees satisfied
  · rintro ⟨place, rfl, fits⟩
    have agrees := agrees_assignmentOf distinct direction place (place root.id)
    have connects := connects_assignmentOf tree distinct fits (place root.id)
    refine ⟨assignmentOf direction graph place (place root.id), agrees root rootPictured, ?_⟩
    exact describes.satisfied_of_fits tree isRoot agrees fits connects

/-- The result statement of a drawn graph finds a node of a property graph
exactly if the picture can be placed there with its root on that node.  The
statement is rendered as it is unless the label of the root has a hook, and
names must not collide. -/
theorem resultQuery_finds_picture
    (edits : List GraphEdit)
    (drawing : GraphEdit.Drawing edits .empty)
    (context : QueryContext)
    (drawn : context.graph = GraphEdit.run edits .empty)
    {root : Node}
    (isRoot : context.graph.root = .ok root)
    (unhooked : (context.metadata.resolve root.label).hooks.result = none)
    (distinct : DistinctNames context.metadata context.graph) :
    ∃ query,
      context.resultParts = .ok (root, query) ∧
        context.resultQuery = .ok query.toStructure ∧
          ∀ (database : Database) (judge : Judge database) (found : database.Node),
            (∃ assignment : Assignment database,
                assignment root.var = .node found ∧ query.Satisfied judge assignment) ↔
              ∃ place : NodeId → database.Node,
                place root.id = found ∧
                  Fits context.metadata context.direction context.graph judge place := by
  have tree : context.graph.Tree := by
    rw [drawn]
    exact GraphEdit.run_tree edits QueryGraph.wellFormed_empty QueryGraph.tree_empty drawing
  obtain ⟨query, parts, describes⟩ := resultParts_describes tree isRoot distinct
  refine ⟨query, parts, ?_, ?_⟩
  · rw [QueryContext.resultQuery, parts]
    simp only [Except.map, QueryContext.finish, unhooked, QueryHook.apply]
  · intro database judge found
    exact describes.exists_satisfied_iff tree isRoot distinct found

/-- Labels constrained by their names. -/
def namedLabels : LabelMetadata where
  resolve label :=
    { label, parent := none, constraintAttribute := .property "name", returnAttributes := []
      predefinedConstraints := ["$identifier.hidden IS NULL"], valueOrderBy := none
      valueOrderAscending := false, resultOrderBy := none, resultOrderAscending := true
      searchable := true, autoExpandRelations := false, group := false, hooks := {} }
  acceptRelation _ := true

/-- The two branches seen by the statement builders. -/
def twoBranchesContext : QueryContext where
  graph := GraphEdit.run GraphEdit.twoBranches .empty
  metadata := namedLabels
  options := {}

theorem distinctNames_twoBranches :
    DistinctNames namedLabels twoBranchesContext.graph where
  terms := by decide +kernel
  paths := by
    have initials : ∀ node ∈ twoBranchesContext.graph.nodes, node.kind ≠ .value →
        node.var.toList.head? ≠ some 'r' := by
      decide +kernel
    intro node member isTerm index same
    apply initials node member isTerm
    rw [same]
    simp
  parameters := by
    have single : ∀ left ∈ twoBranchesContext.graph.nodes,
        ∀ right ∈ twoBranchesContext.graph.nodes,
          left.isBound = true → right.isBound = true → left = right := by
      decide +kernel
    intro left leftMember right rightMember leftBound rightBound _ _ _ _ _
    exact single left leftMember right rightMember leftBound rightBound

theorem resultQuery_finds_twoBranches :
    ∃ root query,
      twoBranchesContext.resultParts = .ok (root, query) ∧
        twoBranchesContext.resultQuery = .ok query.toStructure ∧
          ∀ (database : Database) (judge : Judge database) (found : database.Node),
            (∃ assignment : Assignment database,
                assignment root.var = .node found ∧ query.Satisfied judge assignment) ↔
              ∃ place : NodeId → database.Node,
                place root.id = found ∧
                  Fits namedLabels .out twoBranchesContext.graph judge place := by
  have drawing : GraphEdit.Drawing GraphEdit.twoBranches .empty := by decide +kernel
  have exists_root : ∃ root ∈ twoBranchesContext.graph.nodes,
      twoBranchesContext.graph.root = .ok root := by
    decide +kernel
  obtain ⟨root, _, isRoot⟩ := exists_root
  obtain ⟨query, parts, rendered, means⟩ := resultQuery_finds_picture GraphEdit.twoBranches
    drawing twoBranchesContext rfl isRoot rfl distinctNames_twoBranches
  exact ⟨root, query, parts, rendered, means⟩

end Compiler
end VisualQuery
