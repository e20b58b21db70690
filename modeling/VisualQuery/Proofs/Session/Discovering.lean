import VisualQuery.Proofs.Compiler.Fragments
import VisualQuery.Proofs.Compiler.Relevance
import VisualQuery.Proofs.Session.Annexing
import VisualQuery.Proofs.Session.Drawing

/-!
# Discoveries for terms

A discovery needs the straight path to the root, and no relationship of a drawn
graph leads to a value.  So relationships are discovered for terms only, nothing
is stored on values, and expanding a value adds nothing: the graph stays drawn,
whatever is expanded.
-/

namespace VisualQuery
namespace QueryGraph

variable
  {first : Nat}
  {id : NodeId}
  {terms : NodeId → Prop}
  {graph before after : QueryGraph}
  {change : Node → Node}
  {gone : NodeId → Prop}

theorem IsTerm.termsOnly
    (isTerm : graph.IsTerm id)
    (coherent : graph.Coherent) :
    graph.TermsOnly id := by
  obtain ⟨term, member, rfl, kind⟩ := isTerm
  intro node nodeMember named
  rwa [coherent.eq_of_id_eq nodeMember member named]

/-- No relationship leads to a value, so a value is cut off from the root. -/
theorem Tree.isTerm_of_linksToRoot
    (tree : graph.Tree)
    {path : List LinkId}
    (accepted : graph.linksToRoot id = .ok path) :
    graph.IsTerm id := by
  simp only [linksToRoot, bind_eq_ok_iff] at accepted
  obtain ⟨node, found, root, isRoot, walked⟩ := accepted
  obtain ⟨member, rfl⟩ := mem_of_node found
  refine ⟨node, member, rfl, fun isValue => ?_⟩
  obtain ⟨first, firstMember, isFirst, firstKind, _⟩ := tree.toCoherent.root_ok member
  rw [isRoot] at isFirst
  injection isFirst with same
  have notRoot : node.id ≠ root.id := by
    intro named
    rw [tree.toCoherent.eq_of_id_eq member (same ▸ firstMember) named, same, firstKind] at isValue
    cases isValue
  have cutOff : graph.entering? node.id = none := by
    rw [entering?, List.find?_eq_none]
    intro link linkMember enters
    simp only [Bool.and_eq_true, decide_eq_true_eq] at enters
    obtain ⟨term, termMember, named, isTerm, _⟩ := tree.target link linkMember enters.1
    rw [tree.toCoherent.eq_of_id_eq termMember member (named.trans enters.2)] at isTerm
    exact isTerm isValue
  rw [pathToRoot, if_neg notRoot, dif_neg List.not_mem_nil] at walked
  split at walked
  · cases walked
  · rename_i link enters
    rw [cutOff] at enters
    cases enters

/-! ## Values without relationships -/

/-- Nothing is stored on the values with numbers from a bound on, and some numbers
are those of terms. -/
structure Unexplored (first : Nat) (terms : NodeId → Prop) (graph : QueryGraph) : Prop where
  blank :
    ∀ node ∈ graph.nodes, first ≤ node.id.value → node.kind = .value → node.relationships = []
  terms : ∀ id, terms id → id.value < graph.nextId ∧ graph.TermsOnly id

namespace Unexplored

theorem prune
    (unexplored : Unexplored first terms before)
    (prunes : Prunes change gone before after)
    (stays : ∀ node, node.relationships = [] → (change node).relationships = []) :
    Unexplored first terms after where
  blank := by
    intro node member newer isValue
    obtain ⟨former, formerMember, _, rfl⟩ := (prunes.nodes node).1 member
    rw [prunes.inPlace.id] at newer
    rw [prunes.inPlace.kind] at isValue
    exact stays former (unexplored.blank former formerMember newer isValue)
  terms := by
    intro id isTerm
    obtain ⟨below, termsOnly⟩ := unexplored.terms id isTerm
    refine ⟨prunes.nextId ▸ below, fun node member named => ?_⟩
    obtain ⟨former, formerMember, _, rfl⟩ := (prunes.nodes node).1 member
    rw [prunes.inPlace.id] at named
    rw [prunes.inPlace.kind]
    exact termsOnly former formerMember named

theorem append
    (unexplored : Unexplored first terms before)
    {made : Node}
    (nodes : after.nodes = before.nodes ++ [made])
    (counted : before.nextId ≤ after.nextId)
    (numbered : made.id.value = before.nextId)
    (nothing : made.relationships = []) :
    Unexplored first terms after where
  blank := by
    rw [nodes, List.forall_mem_append]
    refine ⟨unexplored.blank, fun node isMade _ _ => ?_⟩
    rwa [List.mem_singleton.1 isMade]
  terms := by
    intro id isTerm
    obtain ⟨below, termsOnly⟩ := unexplored.terms id isTerm
    refine ⟨Nat.lt_of_lt_of_le below counted, ?_⟩
    rw [TermsOnly, nodes, List.forall_mem_append]
    refine ⟨termsOnly, fun node isMade named => ?_⟩
    rw [← named, List.mem_singleton.1 isMade] at below
    omega

theorem modifyNode
    (unexplored : Unexplored first terms graph)
    (inPlace : Node.InPlace change)
    (id : NodeId)
    (stays : ∀ node, node.relationships = [] → (change node).relationships = []) :
    Unexplored first terms (graph.modifyNode id change) := by
  refine unexplored.prune (prunes_modifyNode inPlace id graph) fun node nothing => ?_
  split
  · exact stays node nothing
  · exact nothing

/-- Relationships are stored on a term. -/
theorem discover
    (unexplored : Unexplored first terms graph)
    (isTerm : terms id)
    (relationships : List Relationship) :
    Unexplored first terms (graph.modifyNode id fun node => { node with relationships }) := by
  have inPlace : Node.InPlace fun node => { node with relationships } :=
    Node.InPlace.note fun notes => { notes with relationships }
  obtain ⟨_, termsOnly⟩ := unexplored.terms id isTerm
  constructor
  · intro node member newer isValue
    obtain ⟨former, formerMember, rfl⟩ := mem_modifyNode.1 member
    by_cases named : former.id = id
    · rw [if_pos named] at isValue
      exact absurd isValue (termsOnly former formerMember named)
    · rw [if_neg named] at newer isValue ⊢
      exact unexplored.blank former formerMember newer isValue
  · intro other otherTerm
    obtain ⟨below, otherOnly⟩ := unexplored.terms other otherTerm
    exact ⟨below, Session.termsOnly_modifyNode otherOnly id inPlace⟩

theorem withShown
    (unexplored : Unexplored first terms graph)
    (lister : Node)
    (rows : List Row) :
    Unexplored first terms (graph.withShown lister rows) := by
  refine modifyNode ?_ (Node.InPlace.setValueExpanded true) lister.id fun _ nothing => nothing
  induction rows generalizing graph with
  | nil => exact unexplored
  | cons row rest inductionHypothesis =>
      exact inductionHypothesis (unexplored.append rfl (Nat.le_add_right _ _) rfl rfl)

end Unexplored

/-- Every move keeps values unexplored. -/
theorem keptOn_unexplored :
    KeptOn (fun _ => True) terms (Unexplored first terms) where
  note graph _ unexplored id _ change fewer :=
    unexplored.modifyNode (Node.InPlace.note change) id fun node nothing =>
      List.sublist_nil.1 (nothing ▸ fewer node.notes)
  discover graph _ unexplored id isTerm relationships := unexplored.discover isTerm relationships
  listings _ _ _ _ _ := trivial
  removeValues := by
    intro graph grown unexplored lister member _ count after accepted
    refine unexplored.prune (grown.prunes_removeValues member accepted).1 fun node nothing => ?_
    split <;> exact nothing
  withShown graph _ unexplored lister _ _ rows _ := unexplored.withShown lister rows
  bindValue := by
    intro graph grown unexplored holder member _ value after accepted
    refine unexplored.prune (grown.prunes_bindValue member accepted) fun node nothing => ?_
    split <;> exact nothing
  clearValue := by
    intro graph grown unexplored id _ cleared after accepted
    rcases grown.toCoherent.clearValue_rebinds accepted with rfl | ⟨holder, member, rfl, _, rfl⟩
    · exact unexplored
    · refine unexplored.prune (grown.prunes_rebind member none (by simp)) fun node nothing => ?_
      split <;> exact nothing
  removeLink graph grown unexplored link member isRelation _ after accepted :=
    unexplored.prune (grown.prunes_relation member isRelation accepted) fun _ nothing => nothing
  addRelationship := by
    intro graph grown unexplored parent _ relationship label isGroup child after accepted
    obtain ⟨between, link, added, linked⟩ := addRelationship_ok accepted
    obtain ⟨_, _, rfl⟩ := addNode_ok added
    obtain ⟨_, _, rfl⟩ := addLink_ok linked
    exact unexplored.append rfl (Nat.le_add_right _ 2) rfl rfl

end QueryGraph

namespace Session

open QueryGraph

variable {session : Session} {id : NodeId}

/-- A discovery is refused for a value. -/
theorem isTerm_of_beginRelations
    (tree : session.graph.Tree)
    {request : RelationRequest}
    (begun : session.beginRelations id = .ok request) :
    session.graph.IsTerm id := by
  simp only [beginRelations, bind_eq_ok_iff] at begun
  obtain ⟨query, asked, _⟩ := begun
  cases parts : session.context.relationParts id with
  | error error =>
      rw [Compiler.QueryContext.relationQuery, parts] at asked
      cases asked
  | ok built =>
      simp only [Compiler.QueryContext.relationParts, bind_eq_ok_iff] at parts
      obtain ⟨_, _, target, found, _, walked, _⟩ := parts
      obtain ⟨_, rfl⟩ := mem_of_node found
      exact tree.isTerm_of_linksToRoot walked

theorem runRelations_refused
    (tree : session.graph.Tree)
    (noTerm : ¬ session.graph.IsTerm id)
    (post : TransactionRequest → Outcome) :
    (Id.run (runRelations id post session)).2 = session := by
  unfold runRelations
  cases begun : session.beginRelations id with
  | error error => rfl
  | ok request => exact absurd (isTerm_of_beginRelations tree begun) noTerm

/-! ## Expanding -/

/-- On a node that is no value, or on which nothing is stored, expanding only draws. -/
theorem redraws_expandRelationships_of_blank
    (coherent : session.graph.Coherent)
    (blank :
      ∀ node ∈ session.graph.nodes, node.id = id → node.kind = .value → node.relationships = []) :
    FollowsFrom Redrawn session (expandRelationships id) := by
  by_cases termsOnly : session.graph.TermsOnly id
  · exact redraws_expandRelationships termsOnly
  · simp only [TermsOnly, not_forall, not_not] at termsOnly
    obtain ⟨value, member, rfl, isValue⟩ := termsOnly
    refine FollowsFrom.node fun node nodeMember named => ?_
    rw [blank node nodeMember named
      (coherent.eq_of_id_eq nodeMember member named ▸ isValue)]
    exact (admits_redrawn.note value.id (fun notes => { notes with relationships := [] })
      (fun _ => rfl) session).bind fun _ => Follows.pure _ _

theorem redraws_expandRelationship_of_blank
    (coherent : session.graph.Coherent)
    (blank :
      ∀ node ∈ session.graph.nodes, node.id = id → node.kind = .value → node.relationships = [])
    (relationship : Relationship) :
    FollowsFrom Redrawn session (expandRelationship id relationship) := by
  by_cases termsOnly : session.graph.TermsOnly id
  · exact redraws_expandRelationship termsOnly relationship
  · simp only [TermsOnly, not_forall, not_not] at termsOnly
    obtain ⟨value, member, rfl, isValue⟩ := termsOnly
    refine FollowsFrom.node fun node nodeMember named => FollowsFrom.refuse fun stored => ?_
    rw [blank node nodeMember named
      (coherent.eq_of_id_eq nodeMember member named ▸ isValue)] at stored
    exact absurd List.not_mem_nil stored

end Session

namespace SessionCall

open QueryGraph

variable
  {first : Nat}
  {terms : NodeId → Prop}
  {call : SessionCall}
  {id : NodeId}
  {session : Session}

/-- A call about a node on which nothing is stored unless it is a term only draws. -/
theorem apply_redrawn_of_blank
    (drawn : session.graph.Drawn)
    (isSubject : call.subject? = some id)
    (blank :
      ∀ node ∈ session.graph.nodes, node.id = id → node.kind = .value → node.relationships = []) :
    session.graph.Redrawn (call.apply session).graph := by
  have coherent := drawn.grown.toCoherent
  cases call with
  | start label => cases isSubject
  | loadSchema schema => cases isSubject
  | editGraph edit => cases isSubject
  | expandRelationship node relationship =>
      cases isSubject
      exact Session.redraws_expandRelationship_of_blank coherent blank relationship
  | expandRelationships node =>
      cases isSubject
      exact Session.redraws_expandRelationships_of_blank coherent blank
  | runAutoExpand node post =>
      cases isSubject
      by_cases isTerm : session.graph.IsTerm id
      · exact apply_redrawn (.runAutoExpand id post) (isTerm.termsOnly coherent)
      · refine Session.admits_redrawn.runAutoExpand ?_
        rw [Session.runRelations_refused drawn.tree isTerm]
        exact Session.redraws_expandRelationships_of_blank coherent blank
  | _ => exact apply_redrawn _ trivial

/-! ## Discoveries that are answered -/

/-- The discoveries that are completed were begun: some requests were before, and
the others are made on the way. -/
def Answering : (RelationRequest → Prop) → List SessionCall → Session → Prop
  | _, [], _ => True
  | begun, call :: rest, session =>
    let known := fun request =>
      begun request ∨ session.beginRelations request.node = .ok request
    (∀ request outcome, call = .completeRelations request outcome → known request) ∧
      Answering known rest (call.apply session)

/-- The nodes that discoveries were begun for. -/
def AskedFor (begun : RelationRequest → Prop) (id : NodeId) : Prop :=
  ∃ request, begun request ∧ request.node = id

/-- What is begun in a drawn graph is begun for terms. -/
theorem unexplored_of_begun
    {begun : RelationRequest → Prop}
    (tree : session.graph.Tree)
    (unexplored : Unexplored first (AskedFor begun) session.graph) :
    Unexplored first
      (AskedFor fun request => begun request ∨ session.beginRelations request.node = .ok request)
      session.graph where
  blank := unexplored.blank
  terms := by
    rintro _ ⟨request, earlier | now, rfl⟩
    · exact unexplored.terms request.node ⟨request, earlier, rfl⟩
    · have isTerm := Session.isTerm_of_beginRelations tree now
      refine ⟨?_, isTerm.termsOnly tree.toCoherent⟩
      obtain ⟨term, member, named, _⟩ := isTerm
      exact named ▸ tree.toCoherent.nodesBelow term member

theorem apply_unexplored
    {begun : RelationRequest → Prop}
    (isSubject : call.subject? = some id)
    (answers :
      ∀ request outcome, call = .completeRelations request outcome → begun request)
    (complete :
      ∀ request, session.beginRelations request.node = .ok request → begun request) :
    Keeps (Unexplored first (AskedFor begun)) session.graph (call.apply session).graph := by
  refine apply_keeps keptOn_unexplored isSubject trivial ?_ fun _ _ _ _ => trivial
  intro discovers
  have found : (∃ request, session.beginRelations id = .ok request) → AskedFor begun id := by
    rintro ⟨request, accepted⟩
    have named := Session.node_of_beginRelations accepted
    exact ⟨request, complete request (named ▸ accepted), named⟩
  cases call with
  | completeRelations request outcome =>
      cases isSubject
      exact ⟨request, answers request outcome rfl, rfl⟩
  | runRelations node post =>
      cases isSubject
      exact found discovers
  | runAutoExpand node post =>
      cases isSubject
      exact found discovers
  | _ => exact discovers.elim

/-- Calls about new nodes of an annex, whatever they are, leave a drawn graph. -/
theorem run_drawn_of_answering
    {owner : NodeId}
    {base : QueryGraph}
    (unmarked : ∀ node ∈ base.nodes, node.valueExpanded = false)
    (calls : List SessionCall)
    (aboutNew : ∀ call ∈ calls, ∃ id, call.subject? = some id ∧ IsNew first base id)
    {begun : RelationRequest → Prop}
    {session : Session}
    (answering : Answering begun calls session)
    (drawn : session.graph.Drawn)
    (annexed : Annexed first owner base session.graph)
    (unexplored : Unexplored first (AskedFor begun) session.graph) :
    (run calls session).graph.Drawn := by
  induction calls generalizing session begun with
  | nil => exact drawn
  | cons call rest inductionHypothesis =>
      obtain ⟨answers, later⟩ := answering
      obtain ⟨id, isSubject, isNew⟩ := aboutNew call List.mem_cons_self
      have asked := unexplored_of_begun drawn.tree unexplored
      have redrawn := apply_redrawn_of_blank drawn isSubject fun node member named =>
        unexplored.blank node member (annexed.le_of_isNew member (named ▸ isNew))
      exact inductionHypothesis (fun other member => aboutNew other (List.mem_cons_of_mem _ member))
        later (redrawn.drawn drawn)
        (apply_annexes unmarked isSubject isNew session drawn.grown annexed).2
        (apply_unexplored isSubject answers (fun _ => Or.inr) drawn.grown asked).2

end SessionCall
end VisualQuery
