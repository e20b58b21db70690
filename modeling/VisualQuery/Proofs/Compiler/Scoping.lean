import VisualQuery.Proofs.Compiler.Constraint
import VisualQuery.Proofs.Compiler.Hygiene
import VisualQuery.Proofs.Graph.Listings

/-!
# The scopes of statements

In a statement about a drawn graph every path starts at the root or where an
earlier path ends, and what is filtered by identity or returned has been
matched.  This rests on the order of the links: on the way down from the root
numbers grow, a link has the number after that of its target, and the links of a
statement stand in the order of their numbers.  A discovery follows its straight
path from the other end, so there a path may start where a later one ends.
-/

namespace VisualQuery

namespace Cypher

/-- The variables of an element. -/
def MatchElement.vars : MatchElement → List String
  | .node pattern => [pattern.var]
  | .path source relation target => [source.var, relation.var, target.var]

/-- The variables that a match clause introduces. -/
def introduced (matched : List MatchElement) : List String :=
  matched.flatMap MatchElement.vars

/-- The variable that an operand reads. -/
def Operand.variable : Operand → String
  | .property var _ => var
  | .identity var => var

/-- The variable that a projection reads, unless it is given as text. -/
def Projection.variable? : Projection → Option String
  | .field operand _ | .collect operand _ | .countDistinct operand _ => some operand.variable
  | .var name => some name
  | .expression _ _ => none

end Cypher

namespace Compiler

open Cypher

/-- The statement of a kind, as it is sent. -/
def QueryContext.statement (context : QueryContext) :
    StatementKind → Except QueryError QueryStructure
  | .results => context.resultQuery
  | .graph => context.graphQuery
  | .count node => context.countQuery node
  | .values node => context.valueQuery node
  | .relations node => context.relationQuery node

/-- The path at a position ends at a variable. -/
def EndsAt (matched : List MatchElement) (index : Nat) (name : String) : Prop :=
  ∃ source relation target,
    matched[index]? = some (.path source relation target) ∧ target.var = name

/-- The match clause starts with the root, its paths start at the root or where
earlier ones end, their variables are numbered from 0, and everything that is
filtered by identity or returned is matched. -/
structure WellScoped (root : Node) (query : Query) : Prop where
  first :
    ∃ pattern, query.matched.head? = some (.node pattern) ∧
      pattern.var = root.var ∧ pattern.label = some root.label
  sources :
    ∀ index source relation target,
      query.matched[index]? = some (.path source relation target) →
        source.var = root.var ∨ ∃ earlier < index, EndsAt query.matched earlier source.var
  relations :
    query.matched.tail.map MatchElement.relationVariables =
      (List.range query.matched.tail.length).map fun index => ["r" ++ Nat.repr index]
  identities :
    ∀ name id, Predicate.internalId name id ∈ query.predicates →
      name ∈ introduced query.matched
  projected :
    ∀ projection ∈ query.projections,
      ∃ name, projection.variable? = some name ∧ name ∈ introduced query.matched

/-- The last path, which is the discovery, starts at a node that the elements
before it have introduced; each of them starts at the root or where another one
ends. -/
structure DiscoveryScoped (root about : Node) (query : Query) : Prop where
  discovery :
    ∃ before source relation target,
      query.matched = before ++ [.path source relation target] ∧
        relation.var = "r" ∧ target.var = "x" ∧
        source.var = about.var ∧ source.var ∈ introduced before ∧
        ∀ index source relation target,
          before[index]? = some (.path source relation target) →
            source.var = root.var ∨ ∃ other, other ≠ index ∧ EndsAt before other source.var

end Compiler

namespace QueryGraph

variable {graph : QueryGraph} {links : List LinkId} {hops : List Hop}

/-! ## Links that lead down from the root -/

/-- Links are the relationships that lead to certain nodes, among them the nodes
above each of them. -/
structure LeadingTo
    (graph : QueryGraph)
    (wanted : NodeId → Prop)
    (links : List LinkId) : Prop where
  mem_iff :
    ∀ id, id ∈ links ↔ ∃ link ∈ graph.relations, link.id = id ∧ wanted link.target
  upward : ∀ link ∈ graph.relations, wanted link.target → wanted link.source

theorem Tree.relevantLinks_leadingTo
    (tree : graph.Tree)
    (target : NodeId) :
    LeadingTo graph
      (fun id => ∃ node ∈ graph.nodes,
        (node.id = target ∨ node.isBound = true) ∧ Ascends graph.relations node.id id)
      (graph.relevantLinks ⟨0⟩ target) where
  mem_iff := tree.mem_relevantLinks target
  upward := by
    rintro link member ⟨node, nodeMember, holds, ascends⟩
    exact ⟨node, nodeMember, holds, ascends.extend member⟩

theorem Tree.linksToRoot_leadingTo
    (tree : graph.Tree)
    {node : Node}
    (member : node ∈ graph.nodes)
    (notValue : node.kind ≠ .value) :
    ∃ path, graph.linksToRoot node.id = .ok path ∧
      LeadingTo graph (Ascends graph.relations node.id) path := by
  obtain ⟨path, found, crossings⟩ := tree.linksToRoot_ok member notValue
  exact ⟨path, found, crossings, fun link linkMember ascends => ascends.extend linkMember⟩

theorem LeadingTo.known
    {wanted : NodeId → Prop}
    (leading : LeadingTo graph wanted links) :
    ∀ id ∈ links, ∃ link ∈ graph.links, link.id = id := by
  intro id member
  obtain ⟨link, relation, named, _⟩ := (leading.mem_iff id).1 member
  exact ⟨link, (mem_relations.1 relation).1, named⟩

/-! ## Hops along them -/

namespace LeadingTo

variable {wanted : NodeId → Prop}

/-- A hop ends at every wanted term but the root. -/
theorem exists_hop_to
    (leading : LeadingTo graph wanted links)
    (tree : graph.Tree)
    (found : links.mapM graph.hop = .ok hops)
    {node : Node}
    (member : node ∈ graph.nodes)
    (isTerm : node.kind ≠ .value)
    (isWanted : wanted node.id)
    (notRoot : node.id ≠ ⟨0⟩) :
    ∃ (index : Nat) (hop : Hop), hops[index]? = some hop ∧ hop.target = node := by
  obtain ⟨link, relation, target, _⟩ := tree.exists_relation member isTerm notRoot
  have listed := (leading.mem_iff link.id).2 ⟨link, relation, rfl, target ▸ isWanted⟩
  obtain ⟨index, hop, position, named⟩ := exists_hop_at found listed
  obtain ⟨_, linkMember, _, targetMember, _, targetNamed⟩ := hop_at found position
  have same := tree.toCoherent.eq_of_link_id_eq linkMember (mem_relations.1 relation).1 named
  refine ⟨index, hop, position, tree.toCoherent.eq_of_id_eq targetMember member ?_⟩
  rw [targetNamed, same, target]

theorem relation_of_hop
    (leading : LeadingTo graph wanted links)
    (tree : graph.Tree)
    (found : links.mapM graph.hop = .ok hops)
    {index : Nat}
    {hop : Hop}
    (position : hops[index]? = some hop) :
    hop.link ∈ graph.relations ∧ wanted hop.link.target := by
  obtain ⟨listed, linkMember, _⟩ := hop_at found position
  obtain ⟨link, relation, named, isWanted⟩ :=
    (leading.mem_iff hop.link.id).1 (List.mem_of_getElem? listed)
  rw [tree.toCoherent.eq_of_link_id_eq linkMember (mem_relations.1 relation).1 named.symm]
  exact ⟨relation, isWanted⟩

/-- A hop starts at the root or where another one ends. -/
theorem exists_hop_to_source
    (leading : LeadingTo graph wanted links)
    (tree : graph.Tree)
    (found : links.mapM graph.hop = .ok hops)
    {index : Nat}
    {hop : Hop}
    (position : hops[index]? = some hop) :
    hop.source.id = ⟨0⟩ ∨
      ∃ (other : Nat) (above : Hop), hops[other]? = some above ∧ above.target = hop.source ∧
        above.target.id.value < hop.target.id.value := by
  by_cases isRoot : hop.source.id = ⟨0⟩
  · exact Or.inl isRoot
  · obtain ⟨_, linkMember, sourceMember, _, sourceNamed, targetNamed⟩ := hop_at found position
    obtain ⟨relation, isWanted⟩ := leading.relation_of_hop tree found position
    obtain ⟨term, termMember, termNamed, isTerm⟩ :=
      tree.source hop.link linkMember (mem_relations.1 relation).2
    have same := tree.toCoherent.eq_of_id_eq sourceMember termMember
      (sourceNamed.trans termNamed.symm)
    have sourceWanted : wanted hop.source.id :=
      sourceNamed ▸ leading.upward hop.link relation isWanted
    obtain ⟨other, above, otherPosition, ends⟩ := leading.exists_hop_to tree found sourceMember
      (same ▸ isTerm) sourceWanted isRoot
    refine Or.inr ⟨other, above, otherPosition, ends, ?_⟩
    rw [ends, sourceNamed, targetNamed]
    exact tree.source_lt relation

end LeadingTo

/-- Links in the order of their numbers have the numbers of their targets in
order. -/
theorem LinksFollow.lt_of_target_lt
    (follow : graph.LinksFollow)
    (ordered : links.Pairwise fun earlier later => earlier.value < later.value)
    (found : links.mapM graph.hop = .ok hops)
    {first second : Nat}
    {above below : Hop}
    (firstPosition : hops[first]? = some above)
    (secondPosition : hops[second]? = some below)
    (smaller : above.target.id.value < below.target.id.value) :
    first < second := by
  obtain ⟨firstListed, firstMember, _, _, _, firstTarget⟩ := hop_at found firstPosition
  obtain ⟨secondListed, secondMember, _, _, _, secondTarget⟩ := hop_at found secondPosition
  have firstNumber := follow above.link firstMember
  have secondNumber := follow below.link secondMember
  rw [← firstTarget] at firstNumber
  rw [← secondTarget] at secondNumber
  refine Nat.lt_of_not_le fun notEarlier => ?_
  rcases Nat.eq_or_lt_of_le notEarlier with rfl | later
  · rw [firstPosition] at secondPosition
    injection secondPosition with same
    rw [same] at smaller
    exact Nat.lt_irrefl _ smaller
  · obtain ⟨firstBelow, firstIs⟩ := List.getElem?_eq_some_iff.1 firstListed
    obtain ⟨secondBelow, secondIs⟩ := List.getElem?_eq_some_iff.1 secondListed
    have inOrder := List.pairwise_iff_getElem.1 ordered second first secondBelow firstBelow later
    rw [firstIs, secondIs] at inOrder
    omega

end QueryGraph

namespace Compiler

open Cypher QueryGraph

variable
  {metadata : LabelMetadata}
  {graph : QueryGraph}
  {elements : QueryElements}
  {root : Node}
  {hops : List Hop}

/-! ## How elements are laid out -/

/-- Where a path ends, a variable is introduced. -/
theorem EndsAt.introduced
    {matched : List MatchElement}
    {index : Nat}
    {name : String}
    (ends : EndsAt matched index name) :
    name ∈ Cypher.introduced matched := by
  obtain ⟨source, relation, target, position, rfl⟩ := ends
  refine List.mem_flatMap.2 ⟨_, List.mem_of_getElem? position, ?_⟩
  simp [MatchElement.vars]

/-- Elements consist of the pattern of a root and of one path for each hop, in
order, and filter these nodes only by identity. -/
structure LaysOut (elements : QueryElements) (root : Node) (hops : List Hop) : Prop where
  first :
    ∃ pattern, elements.matched.head? = some (.node pattern) ∧
      pattern.var = root.var ∧ pattern.label = some root.label
  starts :
    ∀ index source relation target,
      elements.matched[index]? = some (.path source relation target) →
        ∃ (before : Nat) (hop : Hop),
          index = before + 1 ∧ hops[before]? = some hop ∧ source.var = hop.source.var
  ends :
    ∀ index hop, hops[index]? = some hop →
      EndsAt elements.matched (index + 1) hop.target.var
  relations :
    elements.matched.tail.map MatchElement.relationVariables =
      (List.range hops.length).map fun index => [relationVariable index]
  named : elements.relationVariables = (List.range hops.length).map relationVariable
  identities :
    ∀ name id, Predicate.internalId name id ∈ elements.predicates →
      name = root.var ∨
        ∃ (index : Nat) (hop : Hop), hops[index]? = some hop ∧ name = hop.target.var

/-- A node is filtered by identity under its own variable. -/
theorem eq_var_of_identity
    {node : Node}
    {constrained : Bool}
    {name : String}
    {id : Option Int64}
    (member : Predicate.internalId name id ∈
      predefined metadata node ++ (nodePattern metadata graph node constrained).2.1) :
    name = node.var := by
  rcases List.mem_append.1 member with isRaw | isIdentity
  · obtain ⟨template, _, same⟩ := List.mem_map.1 isRaw
    cases same
  · unfold nodePattern at isIdentity
    cases bound : graph.boundValue? node with
    | none => simp [bound] at isIdentity
    | some value =>
        cases constrained with
        | false => simp [bound] at isIdentity
        | true =>
            simp only [bound, if_true, constrainedPattern] at isIdentity
            cases constraint : (metadata.resolve node.label).constraintAttribute with
            | internalId =>
                simp only [constraint, List.mem_singleton, Predicate.internalId.injEq]
                  at isIdentity
                exact isIdentity.1
            | property column => simp [constraint] at isIdentity

theorem ofFragments_laysOut
    (direction : Direction)
    (selected : NodeId)
    (constrainRoot constrain : Bool)
    (root : Node)
    (hops : List Hop) :
    LaysOut
      (.ofFragments (rootFragment metadata graph root constrainRoot)
        (hops.zipIdx.map (hopFragment metadata graph direction selected constrain)))
      root hops where
  first := ⟨_, rfl, labels_nodePattern root constrainRoot⟩
  starts := by
    intro index source relation target position
    cases index with
    | zero => cases position
    | succ before =>
        simp only [QueryElements.ofFragments, List.getElem?_cons_succ, List.getElem?_map,
          List.getElem?_zipIdx, Option.map_map, Option.map_eq_some_iff] at position
        obtain ⟨hop, found, same⟩ := position
        injection same with sourceSame _ _
        exact ⟨before, hop, rfl, found, by rw [← sourceSame]; rfl⟩
  ends := by
    intro index hop position
    refine ⟨labeled hop.source, ⟨relationVariable index, hop.link.label, direction⟩,
      (nodePattern metadata graph hop.target (constrain && hop.target.id ≠ selected)).1, ?_,
      (labels_nodePattern hop.target _).1⟩
    simp only [QueryElements.ofFragments, List.getElem?_cons_succ, List.getElem?_map,
      List.getElem?_zipIdx, position, Option.map_some, Nat.zero_add]
    rfl
  relations := by
    have numbered : hops.zipIdx.map Prod.snd = List.range hops.length := by
      rw [List.zipIdx_map_snd, List.range_eq_range']
    rw [← numbered, List.map_map]
    simp only [QueryElements.ofFragments, List.tail_cons, List.map_map]
    rfl
  named := by simp [QueryElements.ofFragments]
  identities := by
    intro name id member
    rcases List.mem_append.1 member with ofRoot | ofPath
    · exact Or.inl (eq_var_of_identity ofRoot)
    · obtain ⟨fragment, fragmentMember, isIdentity⟩ := List.mem_flatMap.1 ofPath
      obtain ⟨⟨hop, index⟩, position, rfl⟩ := List.mem_map.1 fragmentMember
      exact Or.inr ⟨index, hop, List.mem_zipIdx_iff_getElem?.1 position,
        eq_var_of_identity isIdentity⟩

namespace LaysOut

theorem root_introduced (laysOut : LaysOut elements root hops) :
    root.var ∈ introduced elements.matched := by
  obtain ⟨pattern, head, named, _⟩ := laysOut.first
  refine List.mem_flatMap.2 ⟨_, List.mem_of_head? head, ?_⟩
  exact List.mem_singleton.2 named.symm

theorem target_introduced
    (laysOut : LaysOut elements root hops)
    {index : Nat}
    {hop : Hop}
    (position : hops[index]? = some hop) :
    hop.target.var ∈ introduced elements.matched :=
  (laysOut.ends index hop position).introduced

theorem relation_introduced
    (laysOut : LaysOut elements root hops)
    {index : Nat}
    (below : index < hops.length) :
    relationVariable index ∈ introduced elements.matched := by
  have listed : [relationVariable index] ∈
      elements.matched.tail.map MatchElement.relationVariables := by
    rw [laysOut.relations]
    exact List.mem_map_of_mem (List.mem_range.2 below)
  obtain ⟨element, member, named⟩ := List.mem_map.1 listed
  refine List.mem_flatMap.2 ⟨element, List.mem_of_mem_tail member, ?_⟩
  cases element with
  | node pattern => cases named
  | path source relation target =>
      injection named with named
      simp [MatchElement.vars, named]

end LaysOut

/-- Compiled elements lay out the root and the hops of the links. -/
theorem exists_laysOut
    {direction : Direction}
    {selected : NodeId}
    {links : List LinkId}
    (coherent : graph.Coherent)
    (member : root ∈ graph.nodes)
    (known : ∀ id ∈ links, ∃ link ∈ graph.links, link.id = id)
    (constraintNeeded excludeRoot : Bool) :
    ∃ elements hops,
      compileElements metadata graph direction root.id selected links constraintNeeded
          excludeRoot = .ok elements ∧
        links.mapM graph.hop = .ok hops ∧ LaysOut elements root hops := by
  obtain ⟨hops, found⟩ := coherent.exists_hops known
  have compiled := compileElements_ok metadata (coherent.node_of_mem member) found direction
    selected constraintNeeded excludeRoot
  exact ⟨_, hops, compiled, found, ofFragments_laysOut _ _ _ _ root hops⟩

/-! ## Statements in scope -/

namespace LaysOut

variable {wanted : NodeId → Prop} {links : List LinkId}

/-- A path starts at the root or where the path of a node with a smaller number
ends. -/
theorem exists_start
    (laysOut : LaysOut elements root hops)
    (tree : graph.Tree)
    (isRoot : graph.root = .ok root)
    (leading : LeadingTo graph wanted links)
    (found : links.mapM graph.hop = .ok hops)
    {index : Nat}
    {source target : NodePattern}
    {relation : RelationPattern}
    (position : elements.matched[index]? = some (.path source relation target)) :
    source.var = root.var ∨
      ∃ (before other : Nat) (hop above : Hop),
        index = before + 1 ∧ hops[before]? = some hop ∧ hops[other]? = some above ∧
          above.target.id.value < hop.target.id.value ∧
          EndsAt elements.matched (other + 1) source.var := by
  obtain ⟨before, hop, rfl, hopPosition, named⟩ := laysOut.starts _ _ _ _ position
  rcases leading.exists_hop_to_source tree found hopPosition with
    startsAtRoot | ⟨other, above, abovePosition, ends, smaller⟩
  · obtain ⟨_, _, sourceMember, _⟩ := hop_at found hopPosition
    rw [tree.toCoherent.eq_root isRoot sourceMember startsAtRoot] at named
    exact Or.inl named
  · refine Or.inr ⟨before, other, hop, above, rfl, hopPosition, abovePosition, smaller, ?_⟩
    rw [named, ← ends]
    exact laysOut.ends other above abovePosition

/-- A statement that adds only projections of introduced variables is in scope
if its links stand in the order of their numbers. -/
theorem wellScoped
    (laysOut : LaysOut elements root hops)
    (tree : graph.Tree)
    (follow : graph.LinksFollow)
    (isRoot : graph.root = .ok root)
    (leading : LeadingTo graph wanted links)
    (ordered : links.Pairwise fun earlier later => earlier.value < later.value)
    (found : links.mapM graph.hop = .ok hops)
    {query : Query}
    (matched : query.matched = elements.matched)
    (predicates : query.predicates = elements.predicates)
    (projected :
      ∀ projection ∈ query.projections,
        ∃ name, projection.variable? = some name ∧ name ∈ introduced elements.matched) :
    WellScoped root query where
  first := matched ▸ laysOut.first
  sources := by
    rw [matched]
    intro index source relation target position
    rcases laysOut.exists_start tree isRoot leading found position with
      atRoot | ⟨before, other, hop, above, rfl, hopPosition, abovePosition, smaller, ends⟩
    · exact Or.inl atRoot
    · have earlier := follow.lt_of_target_lt ordered found abovePosition hopPosition smaller
      exact Or.inr ⟨other + 1, Nat.succ_lt_succ earlier, ends⟩
  relations := by
    have counted := congrArg List.length laysOut.relations
    rw [List.length_map, List.length_map, List.length_range] at counted
    rw [matched, counted]
    exact laysOut.relations
  identities := by
    rw [matched, predicates]
    intro name id member
    rcases laysOut.identities name id member with rfl | ⟨index, hop, position, rfl⟩
    · exact laysOut.root_introduced
    · exact laysOut.target_introduced position
  projected := matched ▸ projected

/-- The straight path to a term introduces it. -/
theorem discoveryScoped
    (laysOut : LaysOut elements root hops)
    (tree : graph.Tree)
    (isRoot : graph.root = .ok root)
    (leading : LeadingTo graph wanted links)
    (found : links.mapM graph.hop = .ok hops)
    {about : Node}
    (introduces : about.var ∈ introduced elements.matched)
    {context : QueryContext}
    {query : Query}
    (matched : query.matched = elements.matched ++ [context.discoveryPath about]) :
    DiscoveryScoped root about query where
  discovery := by
    refine ⟨elements.matched, _, _, _, matched, rfl, rfl, rfl, introduces, ?_⟩
    intro index source relation target position
    rcases laysOut.exists_start tree isRoot leading found position with
      atRoot | ⟨before, other, hop, above, rfl, hopPosition, abovePosition, smaller, ends⟩
    · exact Or.inl atRoot
    · refine Or.inr ⟨other + 1, ?_, ends⟩
      intro same
      rw [Nat.succ.inj same, hopPosition] at abovePosition
      injection abovePosition with same
      rw [same] at smaller
      exact Nat.lt_irrefl _ smaller

/-- Every wanted term is introduced. -/
theorem wanted_introduced
    (laysOut : LaysOut elements root hops)
    (tree : graph.Tree)
    (isRoot : graph.root = .ok root)
    (leading : LeadingTo graph wanted links)
    (found : links.mapM graph.hop = .ok hops)
    {node : Node}
    (member : node ∈ graph.nodes)
    (isTerm : node.kind ≠ .value)
    (isWanted : wanted node.id) :
    node.var ∈ introduced elements.matched := by
  by_cases atRoot : node.id = ⟨0⟩
  · rw [tree.toCoherent.eq_root isRoot member atRoot]
    exact laysOut.root_introduced
  · obtain ⟨index, hop, position, rfl⟩ :=
      leading.exists_hop_to tree found member isTerm isWanted atRoot
    exact laysOut.target_introduced position

end LaysOut

namespace QueryContext

variable {context : QueryContext}

/-- Without hooks a statement is sent as it was built. -/
theorem statement_ok
    (unhooked : ∀ label, (context.metadata.resolve label).hooks = {})
    {kind : StatementKind}
    {about : Node}
    {query : Query}
    (built : context.parts kind = .ok (about, query)) :
    context.statement kind = .ok query.toStructure := by
  cases kind <;>
    simp only [parts] at built <;>
    simp only [statement, resultQuery, graphQuery, countQuery, valueQuery, relationQuery, built,
      Except.map, finish, unhooked, QueryHook.apply]

/-- The elements for the links that are relevant for a term. -/
theorem exists_elements
    (tree : context.graph.Tree)
    (follow : context.graph.LinksFollow)
    (isRoot : context.graph.root = .ok root)
    {selected : Node}
    (member : selected ∈ context.graph.nodes)
    (isTerm : selected.kind ≠ .value)
    (excludeRoot : Bool) :
    ∃ elements,
      compileElements context.metadata context.graph context.direction root.id selected.id
          (context.graph.relevantLinks root.id selected.id) true excludeRoot = .ok elements ∧
        root.var ∈ introduced elements.matched ∧
        selected.var ∈ introduced elements.matched ∧
        (∀ name ∈ elements.relationVariables, name ∈ introduced elements.matched) ∧
        ∀ query : Query,
          query.matched = elements.matched → query.predicates = elements.predicates →
            (∀ projection ∈ query.projections,
              ∃ name, projection.variable? = some name ∧ name ∈ introduced elements.matched) →
              WellScoped root query := by
  have coherent := tree.toCoherent
  obtain ⟨rootMember, kind⟩ := mem_of_root isRoot
  have rootNamed := (coherent.id_eq_of_isRoot rootMember kind).1
  have leading := tree.relevantLinks_leadingTo selected.id
  have ordered := coherent.relevantLinks_ordered ⟨0⟩ selected.id
  rw [← rootNamed] at leading ordered
  obtain ⟨elements, hops, compiled, found, laysOut⟩ :=
    exists_laysOut coherent rootMember leading.known true excludeRoot
  refine ⟨elements, compiled, laysOut.root_introduced, ?_, ?_, ?_⟩
  · exact laysOut.wanted_introduced tree isRoot leading found member isTerm
      ⟨selected, member, Or.inl rfl, Ascends.here _⟩
  · intro name listed
    rw [laysOut.named] at listed
    obtain ⟨index, below, rfl⟩ := List.mem_map.1 listed
    exact laysOut.relation_introduced (List.mem_range.1 below)
  · intro query matched predicates projected
    exact laysOut.wellScoped tree follow isRoot leading ordered found matched predicates projected

theorem variable?_attributeProjections
    {node : Node}
    {projection : Projection}
    (member : projection ∈ context.attributeProjections node) :
    projection.variable? = some node.var := by
  obtain ⟨candidate, _, rfl⟩ := List.mem_map.1 member
  cases candidate <;> (dsimp only; split <;> rfl)

theorem variable_constraintOperand
    (node : Node) :
    (context.constraintOperand node).variable = node.var := by
  unfold constraintOperand operandOf
  cases (context.metadata.resolve node.label).constraintAttribute <;> rfl

theorem exists_wellScoped
    (context : QueryContext)
    (tree : context.graph.Tree)
    (follow : context.graph.LinksFollow)
    (isRoot : context.graph.root = .ok root)
    {node : Node}
    (member : node ∈ context.graph.nodes)
    (isTerm : node.kind ≠ .value) :
    ∀ kind ∈ [StatementKind.results, .graph, .count node.id, .values node.id],
      ∃ about query, context.parts kind = .ok (about, query) ∧ WellScoped root query := by
  have coherent := tree.toCoherent
  obtain ⟨rootMember, rootKind⟩ := mem_of_root isRoot
  have rootTerm : root.kind ≠ .value := by simp [rootKind]
  have found := coherent.node_of_mem member
  intro kind listed
  simp only [List.mem_cons, List.not_mem_nil, or_false] at listed
  rcases listed with rfl | rfl | rfl | rfl
  · obtain ⟨elements, compiled, rootIn, _, _, inScope⟩ :=
      exists_elements tree follow isRoot rootMember rootTerm false
    simp only [parts, resultParts, rootElements, isRoot, compile, compiled, bind, Except.bind,
      pure, Except.pure]
    refine ⟨_, _, rfl, inScope _ rfl rfl ?_⟩
    intro projection projected
    exact ⟨_, variable?_attributeProjections projected, rootIn⟩
  · obtain ⟨elements, compiled, rootIn, _, relationsIn, inScope⟩ :=
      exists_elements tree follow isRoot rootMember rootTerm false
    simp only [parts, graphParts, rootElements, isRoot, compile, compiled, bind, Except.bind,
      pure, Except.pure]
    refine ⟨_, _, rfl, inScope _ rfl rfl ?_⟩
    intro projection projected
    rcases List.mem_cons.1 projected with rfl | ofRelation
    · exact ⟨_, rfl, rootIn⟩
    · obtain ⟨name, named, rfl⟩ := List.mem_map.1 ofRelation
      exact ⟨name, rfl, relationsIn name named⟩
  · obtain ⟨elements, compiled, _, nodeIn, _, inScope⟩ :=
      exists_elements tree follow isRoot member isTerm false
    simp only [parts, countParts, isRoot, found, compile, compiled, bind, Except.bind,
      pure, Except.pure]
    refine ⟨_, _, rfl, inScope _ rfl rfl ?_⟩
    intro projection projected
    rw [List.mem_singleton.1 projected]
    exact ⟨_, rfl, (variable_constraintOperand node).symm ▸ nodeIn⟩
  · obtain ⟨elements, compiled, rootIn, nodeIn, _, inScope⟩ :=
      exists_elements tree follow isRoot member isTerm (node.id = root.id)
    simp only [parts, valueParts, isRoot, found, compiled, bind, Except.bind, pure, Except.pure]
    refine ⟨_, _, rfl, inScope _ rfl rfl ?_⟩
    intro projection projected
    rcases List.mem_append.1 projected with ofValue | ofCount
    · exact ⟨_, variable?_attributeProjections ofValue, nodeIn⟩
    · rw [List.mem_singleton.1 ofCount]
      exact ⟨_, rfl, (variable_constraintOperand root).symm ▸ rootIn⟩

theorem exists_discoveryScoped
    (context : QueryContext)
    (tree : context.graph.Tree)
    (isRoot : context.graph.root = .ok root)
    {node : Node}
    (member : node ∈ context.graph.nodes)
    (isTerm : node.kind ≠ .value) :
    ∃ query, context.parts (.relations node.id) = .ok (node, query) ∧
      DiscoveryScoped root node query := by
  have coherent := tree.toCoherent
  obtain ⟨rootMember, _⟩ := mem_of_root isRoot
  obtain ⟨path, walked, leading⟩ := tree.linksToRoot_leadingTo member isTerm
  obtain ⟨elements, hops, compiled, found, laysOut⟩ :=
    exists_laysOut coherent rootMember leading.known false false
  obtain ⟨query, built, matched⟩ := exists_relationParts_of_compiled isRoot
    (coherent.node_of_mem member) walked compiled
  have introduces := laysOut.wanted_introduced tree isRoot leading found member isTerm
    (Ascends.here _)
  exact ⟨query, built, laysOut.discoveryScoped tree isRoot leading found introduces matched⟩

end QueryContext

end Compiler

namespace GraphEdit

open QueryGraph Compiler

/-- For a drawn graph and metadata without hooks, every statement about a term
is built, is sent as it was built, and is in scope. -/
theorem statements_inScope
    (edits : List GraphEdit)
    (drawing : Drawing edits .empty)
    (metadata : LabelMetadata)
    (unhooked : ∀ label, (metadata.resolve label).hooks = {})
    (options : QueryOptions)
    {node : Node}
    (member : node ∈ (run edits .empty).nodes)
    (isTerm : node.kind ≠ .value) :
    let context : QueryContext := ⟨run edits .empty, metadata, options⟩
    ∃ root, context.graph.root = .ok root ∧
      (∀ kind ∈ [StatementKind.results, .graph, .count node.id, .values node.id],
        ∃ about query,
          context.parts kind = .ok (about, query) ∧
            context.statement kind = .ok query.toStructure ∧ WellScoped root query) ∧
      ∃ query,
        context.parts (.relations node.id) = .ok (node, query) ∧
          context.statement (.relations node.id) = .ok query.toStructure ∧
            DiscoveryScoped root node query := by
  intro context
  have tree : context.graph.Tree := run_tree edits wellFormed_empty tree_empty drawing
  have follow : context.graph.LinksFollow := run_linksFollow edits (isPlain_of_drawing drawing)
  obtain ⟨root, _, isRoot, _, _⟩ := tree.toCoherent.root_ok member
  refine ⟨root, isRoot, ?_, ?_⟩
  · intro kind listed
    obtain ⟨about, query, built, inScope⟩ :=
      context.exists_wellScoped tree follow isRoot member isTerm kind listed
    exact ⟨about, query, built, QueryContext.statement_ok unhooked built, inScope⟩
  · obtain ⟨query, built, inScope⟩ :=
      context.exists_discoveryScoped tree isRoot member isTerm
    exact ⟨query, built, QueryContext.statement_ok unhooked built, inScope⟩

/-- Two branches that grow in turn, of which one has a bound term below a free
one. -/
def entwined : List GraphEdit :=
  [.addRoot "Person",
    .addRelationship ⟨0⟩ "KNOWS" "Person" false,
    .addRelationship ⟨0⟩ "OWNS" "Account" false,
    .addRelationship ⟨1⟩ "LIKES" "Thing" false,
    .addRelationship ⟨3⟩ "HELD_BY" "Bank" false,
    .addValue ⟨5⟩ [("name", .string "Ann")],
    .bindValue ⟨5⟩ ⟨9⟩]

theorem statements_inScope_entwined :
    let context : QueryContext := ⟨run entwined .empty, LabelRegistry.empty.metadata, {}⟩
    Drawing entwined .empty ∧
      (∀ label, (context.metadata.resolve label).hooks = {}) ∧
      ∃ node ∈ context.graph.nodes, node.id = ⟨7⟩ ∧ node.kind ≠ .value ∧
        ∃ root, context.graph.root = .ok root ∧
          (∀ kind ∈ [StatementKind.results, .graph, .count node.id, .values node.id],
            ∃ about query,
              context.parts kind = .ok (about, query) ∧
                context.statement kind = .ok query.toStructure ∧ WellScoped root query) ∧
          ∃ query,
            context.parts (.relations node.id) = .ok (node, query) ∧
              context.statement (.relations node.id) = .ok query.toStructure ∧
                DiscoveryScoped root node query := by
  intro context
  have drawing : Drawing entwined .empty := by decide +kernel
  obtain ⟨node, member, named, isTerm⟩ :
      ∃ node ∈ (run entwined .empty).nodes, node.id = ⟨7⟩ ∧ node.kind ≠ .value := by
    decide +kernel
  exact ⟨drawing, LabelRegistry.hooks_resolve_empty, node, member, named, isTerm,
    statements_inScope entwined drawing LabelRegistry.empty.metadata
      LabelRegistry.hooks_resolve_empty {} member isTerm⟩

end GraphEdit
end VisualQuery
