import VisualQuery.Proofs.Graph.Cutting
import VisualQuery.Proofs.Session.Paging

/-!
# What selecting leaves

Selecting one of the values listed for a node binds the node to it and collapses
the listing.  Whatever was bound or listed before, the selected value is then the
only one below the node, and apart from the node's own mark and binding nothing
else of a drawn graph has changed.
-/

namespace VisualQuery
namespace QueryGraph

variable {graph bound after : QueryGraph} {owner value : Node}

/-- A value below a node, other than the chosen one. -/
def IsRival (owner chosen : NodeId) (node : Node) : Prop :=
  node.kind = .value ∧ node.parent = some owner ∧ node.id ≠ chosen

instance (owner chosen : NodeId) : DecidablePred (IsRival owner chosen) :=
  fun _ => inferInstanceAs (Decidable (_ ∧ _ ∧ _))

/-- Bind a node, and take its mark away. -/
def settle (owner chosen : NodeId) (node : Node) : Node :=
  if node.id = owner then { node with value := some chosen, valueExpanded := false } else node

/-- The graph in which a node is bound to a value and lists nothing, and no other
value is below it. -/
def withChosen (owner chosen : NodeId) (graph : QueryGraph) : QueryGraph where
  nodes := (graph.nodes.filter fun node => ¬ IsRival owner chosen node).map (settle owner chosen)
  links := graph.links.filter fun link => ¬ (link.source = owner ∧ link.kind = .value)
  nextId := graph.nextId
  names := graph.names

theorem mem_withChosen
    {owner chosen : NodeId}
    {node : Node} :
    node ∈ (graph.withChosen owner chosen).nodes ↔
      ∃ old ∈ graph.nodes, ¬ IsRival owner chosen old ∧ settle owner chosen old = node := by
  simp [withChosen, and_assoc]

theorem settle_inPlace (owner chosen : NodeId) : Node.InPlace (settle owner chosen) where
  id := by intro node; unfold settle; split <;> rfl
  kind := by intro node; unfold settle; split <;> rfl
  parent := by intro node; unfold settle; split <;> rfl
  label := by intro node; unfold settle; split <;> rfl
  var := by intro node; unfold settle; split <;> rfl

/-! ## Binding and then unlisting -/

/-- Binding takes the value bound before unless it is listed, unlisting takes the
listed ones: together they take all values but the chosen one. -/
theorem Drawn.mem_bound_unlisted_iff
    (drawn : graph.Drawn)
    (member : owner ∈ graph.nodes)
    (binds : graph.bindValue owner.id value.id = .ok bound)
    {count : Nat}
    (unlists : bound.removeValues owner.id = .ok (count, after))
    (node : Node) :
    node ∈ after.nodes ↔
      ∃ old ∈ graph.nodes,
        ¬ IsRival owner.id value.id old ∧ settle owner.id value.id old = node := by
  have grown := drawn.grown
  have coherent := grown.toCoherent
  have boundGrown : bound.Grown :=
    ⟨grown.toWellFormed.bindValue binds, grown.stems.trim (Trims.bindValue binds)⟩
  have boundMember := grown.mem_bindValue member binds
  have rebound := grown.prunes_bindValue member binds
  have unlisted := (boundGrown.prunes_removeValues boundMember unlists).1
  rw [(rebound.trans unlisted coherent).nodes]
  have changed : ∀ old : Node, settle owner.id value.id old =
      if (if old.id = owner.id then { old with value := some value.id } else old).id = owner.id
      then
        { (if old.id = owner.id then { old with value := some value.id } else old) with
          valueExpanded := false }
      else if old.id = owner.id then { old with value := some value.id } else old := by
    intro old
    unfold settle
    by_cases isOwner : old.id = owner.id <;> simp [isOwner]
  refine exists_congr fun old => and_congr_right fun oldMember => ?_
  rw [← changed]
  refine and_congr_left fun _ => ⟨?_, ?_⟩
  · rintro apart ⟨isValue, parent, other⟩
    by_cases detached : owner.value = some old.id ∧ graph.isTarget old.id = false
    · exact apart old.id (Or.inl ⟨detached.1, by simpa using Ne.symm other, detached.2⟩)
        Beneath.self
    · have stays := rebound.mem_child coherent oldMember parent
        (mem_nodeIds.2 ⟨_, boundMember, rfl⟩) fun gone => detached ⟨gone.1, gone.2.2⟩
      refine apart old.id (Or.inr ⟨by simpa using Ne.symm other, _, stays, ?_, ?_, ?_⟩)
        Beneath.self
      · exact rebound.inPlace.id old
      · exact (rebound.inPlace.kind old).trans isValue
      · exact (rebound.inPlace.parent old).trans parent
  · intro stays top gone beneath
    -- Nothing is beneath a value but the value itself.
    have isRival : ∃ rival ∈ graph.nodes, rival.id = top ∧ IsRival owner.id value.id rival := by
      rcases gone with ⟨wasBound, other, _⟩ | ⟨other, rival, rivalMember, named, isValue, parent⟩
      · obtain ⟨rival, rivalMember, rfl, isValue, parent⟩ :=
          coherent.boundBelow owner member top wasBound
        exact ⟨rival, rivalMember, rfl, isValue, parent, by simpa [eq_comm] using other⟩
      · obtain ⟨former, formerMember, _, rfl⟩ := (rebound.nodes rival).1 rivalMember
        rw [rebound.inPlace.id] at named
        rw [rebound.inPlace.kind] at isValue
        rw [rebound.inPlace.parent] at parent
        refine ⟨former, formerMember, named, isValue, parent, ?_⟩
        rintro same
        exact other (by rw [← named, same])
    obtain ⟨rival, rivalMember, rfl, isRival⟩ := isRival
    have same := drawn.eq_of_beneath_value rivalMember isRival.1 beneath
    rw [coherent.eq_of_id_eq oldMember rivalMember same] at stays
    exact stays isRival

/-- What binding and unlisting leave of a drawn graph. -/
theorem Drawn.eq_withChosen
    (drawn : graph.Drawn)
    (member : owner ∈ graph.nodes)
    (binds : graph.bindValue owner.id value.id = .ok bound)
    {count : Nat}
    (unlists : bound.removeValues owner.id = .ok (count, after)) :
    after = graph.withChosen owner.id value.id := by
  have grown := drawn.grown
  have coherent := grown.toCoherent
  have boundWellFormed := grown.toWellFormed.bindValue binds
  have boundGrown : bound.Grown := ⟨boundWellFormed, grown.stems.trim (Trims.bindValue binds)⟩
  have boundMember := grown.mem_bindValue member binds
  have afterCoherent := (boundWellFormed.removeValues unlists).toCoherent
  have inPlace := settle_inPlace owner.id value.id
  have kept := drawn.mem_bound_unlisted_iff member binds unlists
  have cuts := (Cuts.bindValue coherent binds).trans
    (Cuts.removeValues boundGrown.toCoherent boundMember unlists)
  have listsNone := boundGrown.children_removeValues boundMember unlists
  have nodes : after.nodes = (graph.withChosen owner.id value.id).nodes := by
    refine eq_of_mem_iff_of_ordered afterCoherent.nodesOrdered ?_ fun node =>
      (kept node).trans mem_withChosen.symm
    refine List.pairwise_map.2 ((coherent.nodesOrdered.sublist List.filter_sublist).imp ?_)
    intro earlier later before
    rwa [inPlace.id, inPlace.id]
  have stays : ∀ node ∈ graph.nodes, ¬ IsRival owner.id value.id node →
      node.id ∈ after.nodeIds := by
    intro node nodeMember notRival
    exact mem_nodeIds.2 ⟨_, (kept _).2 ⟨node, nodeMember, notRival, rfl⟩, inPlace.id node⟩
  have links : after.links = (graph.withChosen owner.id value.id).links := by
    refine eq_of_mem_iff_of_ordered afterCoherent.linksOrdered
      (coherent.linksOrdered.sublist List.filter_sublist) fun link => ?_
    rw [withChosen, List.mem_filter, decide_eq_true_iff]
    constructor
    · intro left
      refine ⟨((cuts.links link).1 left).1, ?_⟩
      rintro ⟨leaves, isListed⟩
      have listed : link.target ∈ after.children owner.id .value :=
        List.mem_map.2 ⟨link, List.mem_filter.2 ⟨left, by simp [leaves, isListed]⟩, rfl⟩
      rw [listsNone] at listed
      cases listed
    · rintro ⟨linkMember, notListed⟩
      refine (cuts.links link).2 ⟨linkMember, ?_, ?_, ?_⟩
      · rintro (none | ⟨listed, _⟩)
        · exact none
        · exact notListed (by simpa using (List.mem_filter.1 listed).2)
      · obtain ⟨target, targetMember, _, parent, _⟩ := grown.stems link linkMember
        obtain ⟨source, sourceMember, named, isTerm⟩ := drawn.isTerm_parent targetMember parent
        rw [← named]
        exact stays source sourceMember fun isRival => isTerm isRival.1
      · obtain ⟨target, targetMember, named, parent, kind⟩ := grown.stems link linkMember
        rw [← named]
        refine stays target targetMember fun isRival => notListed ⟨?_, ?_⟩
        · exact Option.some.inj (parent.symm.trans isRival.2.1)
        · exact Link.isRelation_eq_false_iff.1 (kind.2 isRival.1)
  obtain ⟨_, _, _, _⟩ := after
  subst nodes links
  exact congrArg₂ _ cuts.nextId cuts.names

/-- The chosen value is the only one left below its node. -/
theorem Coherent.chosen_of_mem
    (coherent : graph.Coherent)
    (valueMember : value ∈ graph.nodes)
    (below : value.id ≠ owner.id)
    {other : Node}
    (left : other ∈ (graph.withChosen owner.id value.id).nodes)
    (isValue : other.kind = .value)
    (parent : other.parent = some owner.id) :
    other = value := by
  have inPlace := settle_inPlace owner.id value.id
  obtain ⟨old, oldMember, notRival, rfl⟩ := mem_withChosen.1 left
  rw [inPlace.kind] at isValue
  rw [inPlace.parent] at parent
  have same : old.id = value.id := by
    by_contra different
    exact notRival ⟨isValue, parent, different⟩
  rw [coherent.eq_of_id_eq oldMember valueMember same]
  exact if_neg below

end QueryGraph

namespace Session

open QueryGraph

variable {session : Session} {owner value : Node}

/-- Selecting a value of a node that is not pinned and lists values. -/
theorem perform_selectValue
    (drawn : session.graph.Drawn)
    (member : owner ∈ session.graph.nodes)
    (valueMember : value ∈ session.graph.nodes)
    (isValue : value.kind = .value)
    (parent : value.parent = some owner.id)
    (unpinned : owner.immutable = false)
    (marked : owner.valueExpanded = true) :
    Step.perform (selectValue value.id) session =
      (.ok owner.id, { session with graph := session.graph.withChosen owner.id value.id }) := by
  have grown := drawn.grown
  have coherent := grown.toCoherent
  obtain ⟨bound, binds⟩ : ∃ bound, session.graph.bindValue owner.id value.id = .ok bound :=
    ⟨_, coherent.bindValue_accepted member valueMember isValue parent⟩
  have boundCoherent := (grown.toWellFormed.bindValue binds).toCoherent
  have boundMember := grown.mem_bindValue member binds
  have accepted := boundCoherent.removeValues_accepted boundMember
  obtain ⟨count, after, unlists⟩ : ∃ count after, bound.removeValues owner.id = .ok (count, after) :=
    ⟨_, _, accepted⟩
  have collapsed := @perform_collapseNode { session with graph := bound }
    { owner with value := some value.id } boundCoherent boundMember marked count after unlists
  rw [drawn.eq_withChosen member binds unlists] at collapsed
  rw [selectValue, Step.perform_bind_ok (perform_listedFor coherent valueMember isValue parent),
    Step.perform_bind_ok (perform_node coherent member)]
  simp only [unpinned, Bool.false_eq_true, if_false]
  rw [Step.perform_bind_ok (perform_onGraph_unit binds), Step.perform_bind_ok collapsed]
  rfl

/-- In a session whose caller draws and expands terms only, select a value of a
node that is not pinned and lists values.  That is accepted and answers with the
node; the node is bound to the value and lists nothing, no other value is below
it, and nothing else of the graph has changed. -/
theorem selectValue_leaves_chosen
    {metadata : LabelMetadata}
    {options : QueryOptions}
    {calls : List SessionCall}
    (drawing : SessionCall.Drawing calls (.new metadata options)) :
    let session := SessionCall.run calls (.new metadata options)
    ∀ owner ∈ session.graph.nodes, ∀ value ∈ session.graph.nodes,
      value.kind = .value → value.parent = some owner.id →
        owner.immutable = false → owner.valueExpanded = true →
          let graph := session.graph.withChosen owner.id value.id
          Step.perform (selectValue value.id) session = (.ok owner.id, { session with graph }) ∧
            { owner with value := some value.id, valueExpanded := false } ∈ graph.nodes ∧
            value ∈ graph.nodes ∧
            ∀ other ∈ graph.nodes, other.kind = .value → other.parent = some owner.id →
              other = value := by
  intro session owner member value valueMember isValue parent unpinned marked graph
  have drawn : session.graph.Drawn :=
    SessionCall.run_drawn calls (show (Session.new metadata options).graph.Drawn from drawn_empty)
      drawing
  have coherent := drawn.wellFormed.toCoherent
  have below := coherent.id_ne_parent valueMember parent
  refine ⟨perform_selectValue drawn member valueMember isValue parent unpinned marked, ?_, ?_, ?_⟩
  · refine mem_withChosen.2 ⟨owner, member, ?_, if_pos rfl⟩
    rintro ⟨_, ownParent, _⟩
    exact coherent.id_ne_parent member ownParent rfl
  · exact mem_withChosen.2 ⟨value, valueMember, fun isRival => isRival.2.2 rfl, if_neg below⟩
  · intro other left otherIsValue otherParent
    exact coherent.chosen_of_mem valueMember below left otherIsValue otherParent

/-- Three accounts are listed, and the first one is bound. -/
def listThreeAccounts : List GraphEdit :=
  [.addValue ⟨0⟩ [("name", .string "a")], .addValue ⟨0⟩ [("name", .string "b")],
    .addValue ⟨0⟩ [("name", .string "c")], .bindValue ⟨0⟩ ⟨1⟩,
    .note ⟨0⟩ fun notes => { notes with valueExpanded := true }]

/-- The second of three accounts is selected after the first one had been. -/
theorem selectValue_leaves_secondAccount :
    let calls : List SessionCall := [.start "Account", .editGraph (GraphEdit.run listThreeAccounts)]
    let session := SessionCall.run calls (.new Compiler.namedLabels {})
    ∃ graph,
      Step.perform (selectValue ⟨3⟩) session = (.ok ⟨0⟩, { session with graph }) ∧
        graph.nodes.map (fun node => (node.id, node.value, node.valueExpanded)) =
          [(⟨0⟩, some ⟨3⟩, false), (⟨3⟩, none, false)] ∧
        graph.links = [] := by
  intro calls session
  have drawing : SessionCall.Drawing calls (.new Compiler.namedLabels {}) :=
    ⟨trivial, ⟨listThreeAccounts, ⟨trivial, trivial, trivial, trivial, trivial, trivial⟩, rfl⟩,
      trivial⟩
  obtain ⟨owner, member, named, unpinned, marked⟩ : ∃ owner ∈ session.graph.nodes,
      owner.id = ⟨0⟩ ∧ owner.immutable = false ∧ owner.valueExpanded = true := by decide +kernel
  obtain ⟨value, valueMember, valueNamed, isValue, parent⟩ : ∃ value ∈ session.graph.nodes,
      value.id = ⟨3⟩ ∧ value.kind = .value ∧ value.parent = some ⟨0⟩ := by decide +kernel
  obtain ⟨selected, _⟩ := selectValue_leaves_chosen drawing owner member value valueMember isValue
    (parent.trans (congrArg some named.symm)) unpinned marked
  rw [named, valueNamed] at selected
  exact ⟨_, selected, by decide +kernel, by decide +kernel⟩

end Session
end VisualQuery
