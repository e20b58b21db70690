import VisualQuery.Proofs.Graph.Drawing
import VisualQuery.Proofs.Graph.Growth

/-!
# Links of listings

A link is a relationship or lists a value.  In a drawn graph the links of the
second kind lead to values below the node that they leave.  Together with the
tree of relationships this means that nothing hangs from a value.
-/

namespace VisualQuery
namespace QueryGraph

variable {graph : QueryGraph}

/-- Links other than relationships lead to values below their source. -/
def Listings (graph : QueryGraph) : Prop :=
  ∀ link ∈ graph.links, link.isRelation = false →
    ∃ value ∈ graph.nodes,
      value.id = link.target ∧ value.kind = .value ∧ value.parent = some link.source

/-- What holds of every graph that is drawn: it is well-formed, its relationships
form a tree, and its other links list values. -/
structure Drawn (graph : QueryGraph) : Prop where
  wellFormed : graph.WellFormed
  tree : graph.Tree
  listings : graph.Listings

/-- Where links follow descent, those of listings lead to values. -/
theorem Stems.listings
    (stems : graph.Stems) :
    graph.Listings := by
  intro link member notRelation
  obtain ⟨target, targetMember, named, parent, kind⟩ := stems link member
  exact ⟨target, targetMember, named, kind.1 notRelation, parent⟩

/-- The links of a drawn graph follow descent. -/
theorem Drawn.grown
    (drawn : graph.Drawn) :
    graph.Grown := by
  refine ⟨drawn.wellFormed, ?_⟩
  intro link member
  cases isRelation : link.isRelation with
  | true =>
      obtain ⟨target, targetMember, named, isTerm, parent⟩ :=
        drawn.tree.target link member isRelation
      exact ⟨target, targetMember, named, parent, by simp [isTerm]⟩
  | false =>
      obtain ⟨target, targetMember, named, isValue, parent⟩ :=
        drawn.listings link member isRelation
      exact ⟨target, targetMember, named, parent, by simp [isValue]⟩

theorem drawn_empty : Drawn empty :=
  ⟨wellFormed_empty, tree_empty, grown_empty.stems.listings⟩

end QueryGraph

namespace GraphEdit

open QueryGraph

/-- An edit that draws is a plain one. -/
theorem Draws.isPlain
    {edit : GraphEdit}
    {graph : QueryGraph}
    (draws : edit.Draws graph) :
    edit.isPlain = true := by
  cases edit with
  | addNode parent label isGroup => exact draws.elim
  | addLink source target kind label => exact draws.elim
  | _ => rfl

theorem isPlain_of_drawing
    {edits : List GraphEdit}
    {graph : QueryGraph}
    (drawing : Drawing edits graph) :
    ∀ edit ∈ edits, edit.isPlain = true := by
  induction edits generalizing graph with
  | nil => simp
  | cons edit rest inductionHypothesis =>
      intro other member
      rcases List.mem_cons.1 member with rfl | later
      · exact drawing.1.isPlain
      · exact inductionHypothesis drawing.2 other later

/-- A sequence of edits that draw keeps a drawn graph drawn. -/
theorem run_drawn
    (edits : List GraphEdit)
    {graph : QueryGraph}
    (drawn : graph.Drawn)
    (drawing : Drawing edits graph) :
    (run edits graph).Drawn := by
  induction edits generalizing graph with
  | nil => exact drawn
  | cons edit rest inductionHypothesis =>
      apply inductionHypothesis ?_ drawing.2
      have stems := apply_stems edit drawn.wellFormed drawn.grown.stems drawing.1.isPlain
      exact ⟨apply_wellFormed edit graph drawn.wellFormed,
        apply_tree edit drawn.wellFormed drawn.tree drawing.1, stems.listings⟩

end GraphEdit

/-! ## Graphs drawn on -/

namespace QueryGraph

/-- One graph becomes another by edits that draw. -/
def Redrawn (before after : QueryGraph) : Prop :=
  ∃ edits, GraphEdit.Drawing edits before ∧ after = GraphEdit.run edits before

namespace Redrawn

theorem refl (graph : QueryGraph) : Redrawn graph graph := ⟨[], trivial, rfl⟩

theorem trans
    {first second third : QueryGraph}
    (left : Redrawn first second)
    (right : Redrawn second third) :
    Redrawn first third := by
  obtain ⟨early, drawsEarly, rfl⟩ := left
  obtain ⟨late, drawsLate, rfl⟩ := right
  exact ⟨early ++ late, GraphEdit.drawing_append.2 ⟨drawsEarly, drawsLate⟩,
    (GraphEdit.run_append early late first).symm⟩

theorem edit
    {edit : GraphEdit}
    {graph : QueryGraph}
    (draws : edit.Draws graph) :
    Redrawn graph (edit.apply graph) :=
  ⟨[edit], ⟨draws, trivial⟩, rfl⟩

theorem drawn
    {before after : QueryGraph}
    (redrawn : Redrawn before after)
    (start : before.Drawn) :
    after.Drawn := by
  obtain ⟨edits, drawing, rfl⟩ := redrawn
  exact GraphEdit.run_drawn edits start drawing

end Redrawn

end QueryGraph
end VisualQuery
