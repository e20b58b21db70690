import VisualQuery.Proofs.Graph.Reading

/-!
# Loading schemas exactly

A schema is applied by adding a value, a pin and relationships, each below the
node it was made for.  What was built before is only ever added to, at the one
node whose relationships are under way, so what was read off the graph below a
finished sibling is read off it again at the end.
-/

namespace VisualQuery
namespace QueryGraph

variable {graph before between reached after : QueryGraph} {id : NodeId}

/-- Identifiers of all links. -/
def linkIds (graph : QueryGraph) : List LinkId := graph.links.map Link.id

/-! ## Single steps -/

theorem growsAt_refl : GrowsAt id graph graph where
  nodes := fun _ member _ => member
  ids := fun _ member => member
  links := ⟨[], by simp, by simp⟩

/-- Appending a node and a link that leaves the place of growth. -/
theorem growsAt_append
    {made : Node}
    {link : Link}
    (nodes : after.nodes = before.nodes ++ [made])
    (links : after.links = before.links ++ [link])
    (source : link.source = id) :
    GrowsAt id before after where
  nodes := by
    intro node member _
    rw [nodes]
    exact List.mem_append_left _ member
  ids := by
    intro other member
    rw [nodeIds, nodes, List.map_append]
    exact List.mem_append_left _ member
  links := ⟨[link], links, by simp [source]⟩

/-- Changing the node in the place of growth. -/
theorem growsAt_modifyNode
    {change : Node → Node}
    (inPlace : Node.InPlace change) :
    GrowsAt id graph (graph.modifyNode id change) where
  nodes := by
    intro node member apart
    exact mem_modifyNode.2 ⟨node, member, if_neg apart⟩
  ids := by
    intro other member
    rw [modifyNode_eq_mapNodes, nodeIds_mapNodes (inPlace.ite _)]
    exact member
  links := ⟨[], by simp [modifyNode], by simp⟩

/-! ## What was added and how it reads -/

/-- Relationships below a node have been added, and this is how they read. -/
structure Branched
    (id : NodeId)
    (before after : QueryGraph)
    (made : List Link)
    (branches : List (String × Reading)) : Prop where
  grows : GrowsAt id before after
  kept : ∀ node ∈ before.nodes, node ∈ after.nodes
  nodeIds : after.nodeIds = before.nodeIds ++ branchNodes branches
  linkIds : after.linkIds = before.linkIds ++ branchLinks branches
  leaving : after.linksFrom id = before.linksFrom id ++ made
  relations : ∀ link ∈ made, link.isRelation = true
  read :
    ∀ depth, (branchNodes branches).length ≤ depth →
      List.Forall₂ (fun link branch => readBranch (after.read depth) link = some branch)
        made branches

/-- A schema has been applied to a node, and this is how the node reads. -/
structure Planted
    (id : NodeId)
    (before after : QueryGraph)
    (reading : Reading) : Prop where
  grows : GrowsAt id before after
  nodeIds : ∃ made, reading.nodes = id :: made ∧ after.nodeIds = before.nodeIds ++ made
  linkIds : after.linkIds = before.linkIds ++ reading.links
  read : ∀ depth, reading.nodes.length ≤ depth → after.read depth id = some reading

theorem branched_nil : Branched id graph graph [] [] where
  grows := growsAt_refl
  kept := fun _ member => member
  nodeIds := by simp [branchNodes]
  linkIds := by simp [branchLinks]
  leaving := by simp
  relations := by simp
  read := fun _ _ => List.Forall₂.nil

/-- One more relationship in front: the far end is planted first, and what
follows grows elsewhere. -/
theorem Branched.cons
    (coherent : before.Coherent)
    (reachedCoherent : reached.Coherent)
    (afterCoherent : after.Coherent)
    (member : id ∈ before.nodeIds)
    {relationship label : String}
    {isGroup : Bool}
    {reading : Reading}
    (planted :
      Planted ⟨before.nextId⟩ (before.withTerm id relationship label isGroup) reached reading)
    {made : List Link}
    {branches : List (String × Reading)}
    (rest : Branched id reached after made branches) :
    Branched id before after
      (⟨⟨before.nextId + 1⟩, .relation, id, ⟨before.nextId⟩, some relationship⟩ :: made)
      ((relationship, { reading with links := ⟨before.nextId + 1⟩ :: reading.links }) ::
        branches) := by
  have fresh := coherent.nextId_not_mem
  have apart : id ≠ ⟨before.nextId⟩ := fun same => fresh (same ▸ member)
  have first : GrowsAt id before (before.withTerm id relationship label isGroup) :=
    growsAt_append rfl rfl rfl
  obtain ⟨below, readNodes, reachedNodes⟩ := planted.nodeIds
  have reachedIds : reached.nodeIds = before.nodeIds ++ reading.nodes := by
    rw [reachedNodes, readNodes]
    simp [QueryGraph.nodeIds, withTerm, freshTerm]
  have unmet : id ∉ reading.nodes := by
    have distinct := reachedCoherent.nodup_nodeIds
    rw [reachedIds] at distinct
    intro met
    exact (List.nodup_append.1 distinct).2.2 id member id met rfl
  exact
    { grows := (first.trans planted.grows (Or.inr fresh)).trans rest.grows (Or.inl rfl)
      kept := by
        intro node nodeMember
        apply rest.kept
        apply planted.grows.nodes
        · exact List.mem_append_left _ nodeMember
        · rintro same
          exact fresh (mem_nodeIds.2 ⟨node, nodeMember, same⟩)
      nodeIds := by
        rw [rest.nodeIds, reachedIds]
        simp [branchNodes]
      linkIds := by
        rw [rest.linkIds, planted.linkIds]
        simp [branchLinks, QueryGraph.linkIds, withTerm]
      leaving := by
        rw [rest.leaving, planted.grows.linksFrom (first.ids id member) apart]
        simp [linksFrom, withTerm]
      relations := by
        intro link linkMember
        rcases List.mem_cons.1 linkMember with rfl | later
        · rfl
        · exact rest.relations link later
      read := by
        intro depth enough
        simp only [branchNodes, List.flatMap_cons, List.length_append] at enough
        refine List.Forall₂.cons ?_ (rest.read depth ?_)
        · refine readBranch_eq_some_iff.2 ⟨relationship, reading, rfl, ?_, rfl⟩
          exact rest.grows.read reachedCoherent afterCoherent
            (planted.read depth (by omega)) unmet
        · simp only [branchNodes]
          omega }

/-! ## The node itself -/

/-- A node has got the value and the pin of its schema. -/
structure Settled
    (owner : Node)
    (value : Option Row)
    (immutable : Bool)
    (before after : QueryGraph)
    (holder : Node) : Prop where
  grows : GrowsAt owner.id before after
  member : holder ∈ after.nodes
  sameId : holder.id = owner.id
  sameKind : holder.kind = owner.kind
  sameLabel : holder.label = owner.label
  pinned : holder.immutable = immutable
  bound : (after.boundValue? holder).map Node.attributes = value
  nodeIds : after.nodeIds = before.nodeIds ++ ((after.boundValue? holder).map Node.id).toList
  linkIds : after.linkIds = before.linkIds ++ (after.bindingLinks holder).map Link.id
  unrelated : (after.linksFrom owner.id).filter Link.isRelation = []

/-- Pinning comes last and changes nothing but the pin. -/
theorem exists_pinned
    (wellFormed : graph.WellFormed)
    {owner : Node}
    (member : owner ∈ graph.nodes)
    (immutable : Bool) :
    ∃ pinned,
      Step.perform (Step.atomicUnit (setImmutable owner.id immutable)) graph = (.ok (), pinned) ∧
        pinned.WellFormed ∧ GrowsAt owner.id graph pinned ∧
        { owner with immutable } ∈ pinned.nodes ∧
        (∀ node ∈ graph.nodes, node.id ≠ owner.id → node ∈ pinned.nodes) ∧
        pinned.nodeIds = graph.nodeIds ∧ pinned.links = graph.links := by
  have accepted := wellFormed.toCoherent.setImmutable_accepted member immutable
  have inPlace := Node.InPlace.setImmutable immutable
  refine ⟨_, Step.perform_atomicUnit_ok accepted, wellFormed.setImmutable accepted,
    growsAt_modifyNode inPlace, ?_, (growsAt_modifyNode inPlace).nodes, ?_, rfl⟩
  · exact mem_modifyNode_self member _
  · rw [modifyNode_eq_mapNodes, nodeIds_mapNodes (inPlace.ite _)]

/-- A value is added below an unbound node that lists values, and bound. -/
theorem perform_addOptional
    (wellFormed : graph.WellFormed)
    {owner : Node}
    (member : owner ∈ graph.nodes)
    (unbound : owner.value = none)
    (lists : owner.kind.listsValues = true)
    (attributes : Row) :
    Step.perform (addOptional owner.id (some attributes)) graph =
      (.ok (), (graph.withListed owner attributes).modifyNode owner.id fun node =>
        { node with value := some ⟨graph.nextId⟩ }) := by
  have accepted := wellFormed.toCoherent.addValue_accepted member lists attributes
  have listedWellFormed := wellFormed.addValue accepted
  have bindAccepted := @Coherent.bindValue_accepted _ listedWellFormed.toCoherent owner
    (graph.freshValue owner attributes) (List.mem_append_left _ member)
    (List.mem_append_right _ (List.mem_singleton_self _)) rfl rfl
  rw [unbound, dropPrevious] at bindAccepted
  rw [addOptional, addBound, Step.perform_bind_ok (Step.perform_atomic_ok accepted)]
  exact Step.perform_atomicUnit_ok bindAccepted

/-- A value is listed below an unbound node, and the node is bound to it. -/
theorem exists_bound
    (wellFormed : graph.WellFormed)
    {owner : Node}
    (member : owner ∈ graph.nodes)
    (unbound : owner.value = none)
    (lists : owner.kind.listsValues = true)
    (attributes : Row) :
    ∃ bound made,
      Step.perform (addOptional owner.id (some attributes)) graph = (.ok (), bound) ∧
        bound.WellFormed ∧ GrowsAt owner.id graph bound ∧
        { owner with value := some made.id } ∈ bound.nodes ∧
        made ∈ bound.nodes ∧ made.id ≠ owner.id ∧ made.attributes = attributes ∧
        bound.nodeIds = graph.nodeIds ++ [made.id] ∧
        bound.links =
          graph.links ++ [⟨⟨graph.nextId + 1⟩, .value, owner.id, made.id, none⟩] := by
  have coherent := wellFormed.toCoherent
  have accepted := coherent.addValue_accepted member lists attributes
  have performed := perform_addOptional wellFormed member unbound lists attributes
  let made := graph.freshValue owner attributes
  let listed := graph.withListed owner attributes
  have owned : owner ∈ listed.nodes := List.mem_append_left _ member
  have madeMember : made ∈ listed.nodes :=
    List.mem_append_right _ (List.mem_singleton_self _)
  have apart : made.id ≠ owner.id := fun same =>
    coherent.nextId_not_mem (mem_nodeIds.2 ⟨owner, member, same.symm⟩)
  have inPlace := Node.InPlace.setValue (some ⟨graph.nextId⟩)
  have bindGrows : GrowsAt owner.id listed _ := growsAt_modifyNode inPlace
  have built := addOptional_built
    (fun node nodeMember named => coherent.eq_of_id_eq nodeMember member named ▸ unbound)
    (some attributes)
  rw [Step.after, performed] at built
  refine ⟨_, made, performed, built.wellFormed wellFormed,
    (growsAt_append rfl rfl rfl).trans bindGrows (Or.inl rfl),
    mem_modifyNode.2 ⟨owner, owned, if_pos rfl⟩, bindGrows.nodes made madeMember apart, apart,
    rfl, ?_, rfl⟩
  rw [modifyNode_eq_mapNodes, nodeIds_mapNodes (inPlace.ite _)]
  simp [QueryGraph.nodeIds, withListed, made]

/-- A node gets the value of its schema, if there is one, and then the pin. -/
theorem exists_settled
    (wellFormed : graph.WellFormed)
    {owner : Node}
    (member : owner ∈ graph.nodes)
    (unbound : owner.value = none)
    (unlinked : graph.linksFrom owner.id = [])
    {value : Option Row}
    (lists : value.isSome = true → owner.kind.listsValues = true)
    (immutable : Bool) :
    ∃ valued settled holder,
      Step.perform (addOptional owner.id value) graph = (.ok (), valued) ∧
        Step.perform (Step.atomicUnit (setImmutable owner.id immutable)) valued =
          (.ok (), settled) ∧
        settled.WellFormed ∧ Settled owner value immutable graph settled holder := by
  cases value with
  | none =>
      obtain ⟨pinned, performed, pinnedWellFormed, grows, holder, kept, ids, links⟩ :=
        exists_pinned wellFormed member immutable
      refine ⟨graph, pinned, { owner with immutable }, rfl, performed, pinnedWellFormed, ?_⟩
      have unbound : pinned.boundValue? { owner with immutable } = none := by
        simp [boundValue?, unbound]
      have leaving : pinned.linksFrom owner.id = [] := by
        rw [linksFrom, links]
        exact unlinked
      exact
        { grows, member := holder, sameId := rfl, sameKind := rfl, sameLabel := rfl,
          pinned := rfl
          bound := by simp [unbound]
          nodeIds := by simp [unbound, ids]
          linkIds := by simp [linkIds, links, bindingLinks, leaving]
          unrelated := by simp [leaving] }
  | some attributes =>
      obtain ⟨bound, made, added, boundWellFormed, boundGrows, held, madeMember, apart, same,
        boundIds, boundLinks⟩ := exists_bound wellFormed member unbound (lists rfl) attributes
      obtain ⟨pinned, performed, pinnedWellFormed, grows, holder, kept, ids, links⟩ :=
        exists_pinned boundWellFormed held immutable
      have found :
          pinned.boundValue? { owner with value := some made.id, immutable } = some made := by
        simp [boundValue?,
          pinnedWellFormed.toCoherent.node?_of_mem (kept made madeMember apart)]
      have leaving :
          pinned.linksFrom owner.id =
            [⟨⟨graph.nextId + 1⟩, .value, owner.id, made.id, none⟩] := by
        have before : graph.links.filter (fun link => link.source = owner.id) = [] := unlinked
        rw [linksFrom, links, boundLinks]
        simp [before]
      exact ⟨bound, pinned, { owner with value := some made.id, immutable }, added, performed,
        pinnedWellFormed,
        { grows := boundGrows.trans grows (Or.inl rfl)
          member := holder, sameId := rfl, sameKind := rfl, sameLabel := rfl, pinned := rfl
          bound := by rw [found, Option.map_some, same]
          nodeIds := by rw [ids, boundIds, found]; rfl
          linkIds := by
            rw [linkIds, links, boundLinks, bindingLinks, leaving]
            simp [QueryGraph.linkIds]
          unrelated := by simp [leaving, Link.isRelation] }⟩

/-- A settled node with its relationships is a planted one. -/
theorem Settled.planted
    {owner holder : Node}
    {value : Option Row}
    {immutable : Bool}
    {settled : QueryGraph}
    (settles : Settled owner value immutable graph settled holder)
    (isTerm : owner.kind ≠ .value)
    (coherent : settled.Coherent)
    (afterCoherent : after.Coherent)
    {made : List Link}
    {branches : List (String × Reading)}
    (branched : Branched owner.id settled after made branches) :
    Planted owner.id graph after (after.readNode holder branches) ∧
      (after.readNode holder branches).schema =
        { label := owner.label, value, immutable, group := owner.kind = .group
          rel := branches.map fun branch => (branch.1, branch.2.schema) } := by
  have bound : after.boundValue? holder = settled.boundValue? holder :=
    coherent.boundValue?_eq afterCoherent settles.member fun value member _ =>
      branched.kept value member
  have relations : (after.linksFrom owner.id).filter Link.isRelation = made := by
    rw [branched.leaving, List.filter_append, settles.unrelated, List.nil_append,
      List.filter_eq_self]
    exact branched.relations
  have binding : after.bindingLinks holder = settled.bindingLinks holder := by
    have none : made.filter
        (fun link => link.kind = .value && some link.target = holder.value) = [] := by
      rw [List.filter_eq_nil_iff]
      intro link member
      have kind : link.kind = .relation := by
        simpa [Link.isRelation] using branched.relations link member
      simp [kind]
    rw [bindingLinks, settles.sameId, branched.leaving, List.filter_append, none, List.append_nil,
      bindingLinks, settles.sameId]
  refine ⟨⟨?_, ?_, ?_, ?_⟩, ?_⟩
  · exact settles.grows.trans branched.grows (Or.inl rfl)
  · refine ⟨((settled.boundValue? holder).map Node.id).toList ++ branchNodes branches, ?_, ?_⟩
    · simp [readNode, bound, settles.sameId]
    · rw [branched.nodeIds, settles.nodeIds, List.append_assoc]
  · rw [branched.linkIds, settles.linkIds, readNode, binding, List.append_assoc]
  · intro depth enough
    cases depth with
    | zero => simp [readNode] at enough
    | succ depth =>
        simp only [readNode, List.cons_append, List.length_cons, List.length_append] at enough
        refine read_succ_eq_some_iff.2 ⟨holder, branches, ?_, ?_, ?_, rfl⟩
        · rw [← settles.sameId]
          exact afterCoherent.node?_of_mem (branched.kept holder settles.member)
        · rw [settles.sameKind]
          exact isTerm
        · rw [relations]
          exact branched.read depth (by omega)
  · simp [readNode, bound, settles.bound, settles.sameLabel, settles.pinned, settles.sameKind]

/-! ## Schemas -/

/-- The far end of a new relationship is a term that nothing leaves yet. -/
theorem WellFormed.withTerm
    (wellFormed : graph.WellFormed)
    {owner : Node}
    (member : owner ∈ graph.nodes)
    (relationship label : String)
    (isGroup : Bool) :
    (graph.withTerm owner.id relationship label isGroup).WellFormed ∧
      graph.freshTerm owner.id label isGroup ∈
        (graph.withTerm owner.id relationship label isGroup).nodes ∧
      (graph.withTerm owner.id relationship label isGroup).linksFrom ⟨graph.nextId⟩ = [] ∧
      owner.id ≠ ⟨graph.nextId⟩ := by
  have coherent := wellFormed.toCoherent
  have fresh := coherent.nextId_not_mem
  have apart : owner.id ≠ ⟨graph.nextId⟩ := fun same =>
    fresh (mem_nodeIds.2 ⟨owner, member, same⟩)
  refine ⟨?_, List.mem_append_right _ (List.mem_singleton_self _), ?_, apart⟩
  · exact wellFormed.addRelationship
      (coherent.addRelationship_accepted member relationship label isGroup)
  · rw [linksFrom, List.filter_eq_nil_iff]
    intro link linkMember leaves
    have source : link.source = ⟨graph.nextId⟩ := by simpa using leaves
    rcases List.mem_append.1 linkMember with old | new
    · exact fresh (source ▸ (coherent.linkEnds link old).1)
    · rw [List.mem_singleton] at new
      rw [new] at source
      exact apart source

/-- A term made for a schema has the label and the kind of the schema. -/
theorem described_freshTerm
    (parent : NodeId)
    (schema : NodeSchema) :
    { schema with
      label := (graph.freshTerm parent schema.label schema.group).label
      group := (graph.freshTerm parent schema.label schema.group).kind = .group } = schema := by
  obtain ⟨label, value, immutable, group, rel⟩ := schema
  cases group <;> simp [freshTerm]

/-- A term made for a schema can hold the value of the schema, unless it is a
group. -/
theorem listsValues_freshTerm_iff
    (parent : NodeId)
    (schema : NodeSchema) :
    (schema.value.isSome = true →
      (graph.freshTerm parent schema.label schema.group).kind.listsValues = true) ↔
        schema.isValuedGroup = false := by
  cases group : schema.group <;> simp [freshTerm, group, NodeKind.listsValues,
    NodeSchema.isValuedGroup]

mutual

/-- A loadable schema is applied to a term that nothing leaves yet. -/
theorem applySchema_planted
    (schema : NodeSchema)
    {graph : QueryGraph}
    (wellFormed : graph.WellFormed)
    {owner : Node}
    (member : owner ∈ graph.nodes)
    (isTerm : owner.kind ≠ .value)
    (unbound : owner.value = none)
    (unlinked : graph.linksFrom owner.id = [])
    (lists : schema.value.isSome = true → owner.kind.listsValues = true)
    (loadable : schema.Loadable) :
    ∃ after reading,
      Step.perform (applySchema owner.id schema) graph = (.ok (), after) ∧
        after.WellFormed ∧ Planted owner.id graph after reading ∧
        reading.schema = { schema with label := owner.label, group := owner.kind = .group } := by
  obtain ⟨label, value, immutable, group, rel⟩ := schema
  obtain ⟨valued, settled, holder, addsValue, pins, settledWellFormed, settles⟩ :=
    exists_settled wellFormed member unbound unlinked lists immutable
  obtain ⟨after, made, branches, related, afterWellFormed, branched, read⟩ :=
    applyRelations_branched rel settledWellFormed settles.member
      (by rw [settles.sameKind]; exact isTerm) loadable
  rw [settles.sameId] at related branched
  obtain ⟨planted, described⟩ := settles.planted isTerm settledWellFormed.toCoherent
    afterWellFormed.toCoherent branched
  refine ⟨after, _, ?_, afterWellFormed, planted, ?_⟩
  · rw [applySchema_mk, Step.perform_bind_ok addsValue, Step.perform_bind_ok pins, related]
  · rw [described, read]

theorem applyRelations_branched
    (relations : List (String × NodeSchema))
    {graph : QueryGraph}
    (wellFormed : graph.WellFormed)
    {owner : Node}
    (member : owner ∈ graph.nodes)
    (isTerm : owner.kind ≠ .value)
    (loadable :
      ∀ node ∈ NodeSchema.relationDescendants relations, node.isValuedGroup = false) :
    ∃ after made branches,
      Step.perform (applyRelations owner.id relations) graph = (.ok (), after) ∧
        after.WellFormed ∧ Branched owner.id graph after made branches ∧
        branches.map (fun branch => (branch.1, branch.2.schema)) = relations := by
  match relations with
  | [] => exact ⟨graph, [], [], rfl, wellFormed, branched_nil, rfl⟩
  | (relationship, node) :: rest =>
      rw [NodeSchema.relationDescendants] at loadable
      have accepted := wellFormed.toCoherent.addRelationship_accepted member relationship
        node.label node.group
      obtain ⟨termWellFormed, termMember, unlinked, apart⟩ :=
        wellFormed.withTerm member relationship node.label node.group
      obtain ⟨reached, reading, planting, reachedWellFormed, planted, described⟩ :=
        applySchema_planted node termWellFormed termMember (kind_freshTerm_ne_value _ _ _) rfl
          unlinked ((listsValues_freshTerm_iff _ _).2 (loadable node (by simp)))
          (fun below member => loadable below (by simp [member]))
      have kept := planted.grows.nodes owner (List.mem_append_left _ member) apart
      obtain ⟨after, made, branches, related, afterWellFormed, branched, read⟩ :=
        applyRelations_branched rest reachedWellFormed kept isTerm
          (fun below member => loadable below (by simp [member]))
      have joined := Branched.cons wellFormed.toCoherent reachedWellFormed.toCoherent
        afterWellFormed.toCoherent (mem_nodeIds.2 ⟨owner, member, rfl⟩) planted branched
      refine ⟨after, _, _, ?_, afterWellFormed, joined, ?_⟩
      · rw [applyRelations, Step.perform_bind_ok (Step.perform_atomic_ok accepted)]
        exact (Step.perform_bind_ok planting).trans related
      · rw [described_freshTerm] at described
        rw [List.map_cons, read, described]

end

/-- A bare group is applied to the term made for it without a change. -/
theorem applySchema_bare
    (wellFormed : graph.WellFormed)
    {owner : Node}
    (member : owner ∈ graph.nodes)
    (unpinned : owner.immutable = false)
    (label : String) :
    Step.perform (applySchema owner.id { label, group := true }) graph = (.ok (), graph) := by
  have coherent := wellFormed.toCoherent
  have pinned := Step.perform_atomicUnit_ok (coherent.setImmutable_accepted member false)
  have unchanged : (graph.modifyNode owner.id fun node => { node with immutable := false }) =
      graph := by
    rw [modifyNode_eq_self_iff]
    intro node nodeMember named
    rw [coherent.eq_of_id_eq nodeMember member named, ← unpinned]
  rw [unchanged] at pinned
  have untouched : Step.perform (addOptional owner.id none) graph = (.ok (), graph) := rfl
  rw [applySchema_mk, Step.perform_bind_ok untouched, Step.perform_bind_ok pinned]
  rfl

/-- A value below a group is refused before anything is done. -/
theorem addOptional_refused
    (wellFormed : graph.WellFormed)
    {owner : Node}
    (member : owner ∈ graph.nodes)
    {value : Option Row}
    (refused : ¬ (value.isSome = true → owner.kind.listsValues = true)) :
    Step.perform (addOptional owner.id value) graph =
      (.error (.invalidArgument .valueOwner), graph) := by
  obtain ⟨isSome, listsNone⟩ := Classical.not_imp.1 refused
  obtain ⟨attributes, rfl⟩ := Option.isSome_iff_exists.1 isSome
  have refusal := wellFormed.toCoherent.addValue_refused member (by simpa using listsNone)
    attributes
  rw [addOptional, addBound, Step.perform_bind_error (Step.perform_atomic_error refusal)]

mutual

/-- A schema with a valued group somewhere below is refused, and what is built
until then is its loadable part. -/
theorem applySchema_cut
    (schema : NodeSchema)
    {graph : QueryGraph}
    (wellFormed : graph.WellFormed)
    {owner : Node}
    (member : owner ∈ graph.nodes)
    (isTerm : owner.kind ≠ .value)
    (unbound : owner.value = none)
    (unlinked : graph.linksFrom owner.id = [])
    (lists : schema.value.isSome = true → owner.kind.listsValues = true)
    (refused : ¬ schema.Loadable) :
    ∃ after,
      Step.perform (applySchema owner.id schema) graph =
          (.error (.invalidArgument .valueOwner), after) ∧
        Step.perform (applySchema owner.id schema.loadablePart) graph = (.ok (), after) := by
  obtain ⟨label, value, immutable, group, rel⟩ := schema
  obtain ⟨valued, settled, holder, addsValue, pins, settledWellFormed, settles⟩ :=
    exists_settled wellFormed member unbound unlinked lists immutable
  obtain ⟨after, refusal, built⟩ := applyRelations_cut rel settledWellFormed settles.member
    (by rw [settles.sameKind]; exact isTerm) refused
  rw [settles.sameId] at refusal built
  refine ⟨after, ?_, ?_⟩
  · rw [applySchema_mk, Step.perform_bind_ok addsValue, Step.perform_bind_ok pins, refusal]
  · rw [NodeSchema.loadablePart, applySchema_mk, Step.perform_bind_ok addsValue,
      Step.perform_bind_ok pins, built]

theorem applyRelations_cut
    (relations : List (String × NodeSchema))
    {graph : QueryGraph}
    (wellFormed : graph.WellFormed)
    {owner : Node}
    (member : owner ∈ graph.nodes)
    (isTerm : owner.kind ≠ .value)
    (refused :
      ¬ ∀ node ∈ NodeSchema.relationDescendants relations, node.isValuedGroup = false) :
    ∃ after,
      Step.perform (applyRelations owner.id relations) graph =
          (.error (.invalidArgument .valueOwner), after) ∧
        Step.perform (applyRelations owner.id (NodeSchema.loadableRelations relations)) graph =
          (.ok (), after) := by
  match relations with
  | [] => exact absurd (by simp [NodeSchema.relationDescendants]) refused
  | (relationship, node) :: rest =>
      have accepted := wellFormed.toCoherent.addRelationship_accepted member relationship
        node.label node.group
      obtain ⟨termWellFormed, termMember, unlinked, apart⟩ :=
        wellFormed.withTerm member relationship node.label node.group
      have termKind : (graph.freshTerm owner.id node.label node.group).kind ≠ .value :=
        kind_freshTerm_ne_value owner.id node.label node.group
      have holds := @listsValues_freshTerm_iff graph owner.id node
      rw [applyRelations, Step.perform_bind_ok (Step.perform_atomic_ok accepted),
        NodeSchema.loadableRelations]
      by_cases valued : node.isValuedGroup = true
      · have isGroup : node.group = true := by
          simp only [NodeSchema.isValuedGroup, Bool.and_eq_true] at valued
          exact valued.1
        have refusal : Step.perform (applySchema ⟨graph.nextId⟩ node)
            (graph.withTerm owner.id relationship node.label node.group) =
              (.error (.invalidArgument .valueOwner),
                graph.withTerm owner.id relationship node.label node.group) := by
          obtain ⟨label, value, immutable, group, rel⟩ := node
          rw [applySchema_mk]
          apply Step.perform_bind_error
          apply addOptional_refused termWellFormed termMember
          intro lists
          rw [holds.1 lists] at valued
          cases valued
        have bare := applySchema_bare termWellFormed termMember rfl node.label
        rw [isGroup] at accepted bare
        refine ⟨_, Step.perform_bind_error refusal, ?_⟩
        rw [if_pos valued, applyRelations,
          Step.perform_bind_ok (Step.perform_atomic_ok accepted), isGroup]
        exact Step.perform_bind_ok bare
      · have lists := holds.2 (by simpa using valued)
        rw [if_neg valued]
        by_cases loadable : node.Loadable
        · obtain ⟨reached, reading, planting, reachedWellFormed, planted, _⟩ :=
            applySchema_planted node termWellFormed termMember termKind rfl unlinked lists loadable
          have kept := planted.grows.nodes owner (List.mem_append_left _ member) apart
          have later : ¬ ∀ below ∈ NodeSchema.relationDescendants rest,
              below.isValuedGroup = false := by
            intro restLoadable
            apply refused
            simp only [NodeSchema.relationDescendants, List.cons_append, List.mem_cons,
              List.mem_append]
            rintro below (rfl | deeper | behind)
            · simpa using valued
            · exact loadable below deeper
            · exact restLoadable below behind
          obtain ⟨after, refusal, built⟩ :=
            applyRelations_cut rest reachedWellFormed kept isTerm later
          refine ⟨after, (Step.perform_bind_ok planting).trans refusal, ?_⟩
          rw [if_pos loadable, applyRelations,
            Step.perform_bind_ok (Step.perform_atomic_ok accepted)]
          exact (Step.perform_bind_ok planting).trans built
        · obtain ⟨after, refusal, built⟩ :=
            applySchema_cut node termWellFormed termMember termKind rfl unlinked lists loadable
          have sameTerm : node.loadablePart.label = node.label ∧
              node.loadablePart.group = node.group := by
            cases node
            exact ⟨rfl, rfl⟩
          refine ⟨after, Step.perform_bind_error refusal, ?_⟩
          rw [if_neg loadable, applyRelations, sameTerm.1, sameTerm.2,
            Step.perform_bind_ok (Step.perform_atomic_ok accepted)]
          exact Step.perform_bind_ok built

end

/-- A value on a group is refused, whether the group is the node itself or
stands somewhere below it. -/
theorem applySchema_refused
    (schema : NodeSchema)
    {graph : QueryGraph}
    (wellFormed : graph.WellFormed)
    {owner : Node}
    (member : owner ∈ graph.nodes)
    (isTerm : owner.kind ≠ .value)
    (unbound : owner.value = none)
    (unlinked : graph.linksFrom owner.id = [])
    (refused :
      ¬ (schema.value.isSome = true → owner.kind.listsValues = true) ∨ ¬ schema.Loadable) :
    ∃ after,
      Step.perform (applySchema owner.id schema) graph =
        (.error (.invalidArgument .valueOwner), after) := by
  by_cases lists : schema.value.isSome = true → owner.kind.listsValues = true
  · obtain ⟨after, refusal, _⟩ := applySchema_cut schema wellFormed member isTerm unbound unlinked
      lists (refused.resolve_left fun listsNone => listsNone lists)
    exact ⟨after, refusal⟩
  · obtain ⟨label, value, immutable, group, rel⟩ := schema
    rw [applySchema_mk]
    exact ⟨graph, Step.perform_bind_error (addOptional_refused wellFormed member lists)⟩

/-- The graph a root alone makes, whatever names were handed out before. -/
theorem addRoot_named
    (label : String)
    (names : VariableNames) :
    ∃ rooted root,
      addRoot label { names } = .ok (root.id, rooted) ∧ rooted.WellFormed ∧
        rooted.nodes = [root] ∧ rooted.links = [] ∧
        root.kind = .root ∧ root.label = label ∧ root.value = none := by
  have wellFormed : WellFormed { names } := wellFormed_empty.congr rfl rfl rfl
  have accepted : addRoot label { names } = .ok (pushRoot label { names }) := rfl
  rw [pushRoot_eq] at accepted
  exact ⟨_, freshRoot label { names }, accepted, wellFormed.addRoot accepted, rfl, rfl, rfl, rfl,
    rfl⟩

/-- On a graph without nodes a loadable schema is accepted. -/
theorem addSchema_accepted
    (schema : NodeSchema)
    (names : VariableNames)
    (loadable : schema.Loadable) :
    ∃ root after, Step.perform (addSchema schema) { names } = (.ok root, after) := by
  obtain ⟨rooted, node, accepted, wellFormed, nodes, links, isRoot, _, unbound⟩ :=
    addRoot_named schema.label names
  have member : node ∈ rooted.nodes := by simp [nodes]
  obtain ⟨loaded, _, applied, _⟩ := applySchema_planted schema wellFormed member
    (by simp [isRoot]) unbound (by simp [linksFrom, links]) (by simp [isRoot, NodeKind.listsValues])
    loadable
  refine ⟨node.id, loaded, ?_⟩
  rw [addSchema, Step.perform_bind_ok (Step.perform_atomic_ok accepted),
    Step.perform_bind_ok applied, Step.perform_pure]

/-- On a graph without nodes any other schema is refused, and leaves its loadable
part, which is never nothing. -/
theorem addSchema_cut
    (schema : NodeSchema)
    (names : VariableNames)
    (refused : ¬ schema.Loadable) :
    ∃ root part,
      Step.perform (addSchema schema) { names } =
          (.error (.invalidArgument .valueOwner), part) ∧
        Step.perform (addSchema schema.loadablePart) { names } = (.ok root, part) ∧
        part.nodes ≠ [] := by
  obtain ⟨rooted, node, accepted, wellFormed, nodes, links, isRoot, _, unbound⟩ :=
    addRoot_named schema.label names
  have member : node ∈ rooted.nodes := by simp [nodes]
  have isTerm : node.kind ≠ .value := by simp [isRoot]
  obtain ⟨part, refusal, built⟩ := applySchema_cut schema wellFormed member isTerm unbound
    (by simp [linksFrom, links]) (by simp [isRoot, NodeKind.listsValues]) refused
  have sameLabel : schema.loadablePart.label = schema.label := by
    cases schema
    rfl
  refine ⟨node.id, part, ?_, ?_, ?_⟩
  · rw [addSchema, Step.perform_bind_ok (Step.perform_atomic_ok accepted),
      Step.perform_bind_error refusal]
  · rw [addSchema, sameLabel, Step.perform_bind_ok (Step.perform_atomic_ok accepted),
      Step.perform_bind_ok built, Step.perform_pure]
  · have grown := applySchema_built schema wellFormed ⟨node, member, rfl, isTerm⟩
      (fun other otherMember named => by
        rw [wellFormed.eq_of_id_eq otherMember member named, unbound])
    rw [Step.after, refusal] at grown
    obtain ⟨kept, keptMember, _⟩ := grown.isTerm ⟨node, member, rfl, isTerm⟩
    exact List.ne_nil_of_mem keptMember

/-- On a graph without nodes and links a schema is loaded exactly if no node
strictly below its root is a group with a value.  Once it is loaded, reading
from the root gives the schema back, apart from the group flag of the root, and
meets every node and every link of the graph, each once and in the order of
their making. -/
theorem addSchema_exact
    (schema : NodeSchema)
    (names : VariableNames) :
    ((∃ root after, Step.perform (addSchema schema) { names } = (.ok root, after)) ↔
        schema.Loadable) ∧
      ∀ root after, Step.perform (addSchema schema) { names } = (.ok root, after) →
        (∃ node, after.root = .ok node ∧ node.id = root) ∧
          after.reading root =
            some ⟨{ schema with group := false }, after.nodeIds, after.linkIds⟩ := by
  obtain ⟨rooted, node, accepted, wellFormed, nodes, links, isRoot, label, unbound⟩ :=
    addRoot_named schema.label names
  have member : node ∈ rooted.nodes := by simp [nodes]
  have isTerm : node.kind ≠ .value := by simp [isRoot]
  have unlinked : rooted.linksFrom node.id = [] := by simp [linksFrom, links]
  have lists : schema.value.isSome = true → node.kind.listsValues = true := by
    simp [isRoot, NodeKind.listsValues]
  by_cases loadable : schema.Loadable
  · obtain ⟨loaded, reading, applied, loadedWellFormed, planted, described⟩ :=
      applySchema_planted schema wellFormed member isTerm unbound unlinked lists loadable
    have performed : Step.perform (addSchema schema) { names } = (.ok node.id, loaded) := by
      rw [addSchema, Step.perform_bind_ok (Step.perform_atomic_ok accepted),
        Step.perform_bind_ok applied, Step.perform_pure]
    refine ⟨⟨fun _ => loadable, fun _ => ⟨node.id, loaded, performed⟩⟩, ?_⟩
    intro root after again
    rw [performed] at again
    injection again with sameRoot sameAfter
    injection sameRoot with sameRoot
    subst sameRoot sameAfter
    obtain ⟨below, readNodes, madeNodes⟩ := planted.nodeIds
    have allNodes : reading.nodes = loaded.nodeIds := by
      rw [readNodes, madeNodes, nodeIds, nodes]
      rfl
    have allLinks : reading.links = loaded.linkIds := by
      rw [planted.linkIds, linkIds, links]
      rfl
    constructor
    · rw [readNodes] at allNodes
      obtain ⟨first, rest, split, named, _⟩ := List.map_eq_cons_iff.1 allNodes.symm
      obtain ⟨firstRoot, _⟩ := loadedWellFormed.rootFirst first rest split
      exact ⟨first, by simp [QueryGraph.root, split, Node.isRoot, firstRoot], named⟩
    · have whole := planted.read loaded.nodes.length (by simp [allNodes, nodeIds])
      obtain ⟨readSchema, readNodes, readLinks⟩ := reading
      subst allNodes allLinks described
      simpa [QueryGraph.reading, label, isRoot] using whole
  · obtain ⟨refused, refusal⟩ :=
      applySchema_refused schema wellFormed member isTerm unbound unlinked (Or.inr loadable)
    have performed : Step.perform (addSchema schema) { names } =
        (.error (.invalidArgument .valueOwner), refused) := by
      rw [addSchema, Step.perform_bind_ok (Step.perform_atomic_ok accepted),
        Step.perform_bind_error refusal]
    simp [performed, loadable]

/-- A company pinned to one value, with a group between it and its products. -/
def pinnedCompany : NodeSchema where
  label := "Company"
  value := some [("name", .string "Acme")]
  immutable := true
  rel :=
    [("employs", { label := "Person", value := some [("name", .string "Ada")] }),
      ("owns", { label := "Brand", group := true, rel := [("sells", { label := "Product" })] })]

theorem addSchema_exact_pinnedCompany :
    pinnedCompany.Loadable ∧
      ∃ root after,
        Step.perform (addSchema pinnedCompany) .empty = (.ok root, after) ∧
          after.reading root = some ⟨pinnedCompany, after.nodeIds, after.linkIds⟩ := by
  have loadable : pinnedCompany.Loadable := by decide
  obtain ⟨root, after, loaded⟩ := (addSchema_exact pinnedCompany {}).1.2 loadable
  exact ⟨loadable, root, after, loaded, ((addSchema_exact pinnedCompany {}).2 root after loaded).2⟩

end QueryGraph
end VisualQuery
