import VisualQuery.Proofs.Compiler.Results
import VisualQuery.Proofs.Session.Handling

/-!
# Pinned values

The value of a pinned node is never spare, since the node is bound to it, and no
move unbinds the node or binds it to another value.  So the value goes only
where the node goes with it, and all moves leave the pair alone.
-/

namespace VisualQuery

/-- A value as it was, up to what is noted on it. -/
structure Node.SameValue (left right : Node) : Prop where
  id : left.id = right.id
  kind : left.kind = right.kind
  parent : left.parent = right.parent
  label : left.label = right.label
  attributes : left.attributes = right.attributes
  internalId : left.internalId = right.internalId

theorem Node.SameValue.trans
    {first second third : Node}
    (left : Node.SameValue first second)
    (right : Node.SameValue second third) :
    Node.SameValue first third :=
  ⟨left.id.trans right.id, left.kind.trans right.kind, left.parent.trans right.parent,
    left.label.trans right.label, left.attributes.trans right.attributes,
    left.internalId.trans right.internalId⟩

namespace QueryGraph

variable {graph before after : QueryGraph} {id : NodeId} {value : Node}

/-- Whatever bears the number is pinned to the value, and the number is taken. -/
structure Pins (id : NodeId) (value : Node) (graph : QueryGraph) : Prop where
  taken : id.value < graph.nextId
  bound :
    ∀ node ∈ graph.nodes, node.id = id →
      node.immutable = true ∧ node.value = some value.id ∧
        ∃ chosen ∈ graph.nodes, chosen.SameValue value

/-- A change leaves pins, pinned bindings and what identifies values alone. -/
structure KeepsPins (change : Node → Node) (graph : QueryGraph) : Prop where
  pin : ∀ node ∈ graph.nodes, node.immutable = true → (change node).immutable = true
  value : ∀ node ∈ graph.nodes, node.immutable = true → (change node).value = node.value
  attributes : ∀ node, (change node).attributes = node.attributes
  internalId : ∀ node, (change node).internalId = node.internalId

namespace Pins

/-- A pruning that takes no pinned value by itself. -/
theorem prune
    (pins : before.Pins id value)
    (coherent : before.Coherent)
    {change : Node → Node}
    {gone : NodeId → Prop}
    (prunes : Prunes change gone before after)
    (keeps : before.KeepsPins change)
    (stays :
      ∀ node ∈ before.nodes, node.immutable = true → ∀ top, node.value = some top → ¬ gone top) :
    after.Pins id value where
  taken := prunes.nextId ▸ pins.taken
  bound := by
    intro node member named
    obtain ⟨old, oldMember, _, rfl⟩ := (prunes.nodes node).1 member
    rw [prunes.inPlace.id] at named
    obtain ⟨pinned, bound, chosen, chosenMember, same⟩ := pins.bound old oldMember named
    have parent := (coherent.below_of_bound oldMember chosenMember (same.id ▸ bound)).2
    -- The value stays with its parent, which is the pinned node.
    have kept : change chosen ∈ after.nodes := by
      apply prunes.mem_child coherent chosenMember parent
      · rw [mem_nodeIds]
        exact ⟨change old, member, prunes.inPlace.id old⟩
      · rw [same.id]
        exact stays old oldMember pinned value.id bound
    refine ⟨keeps.pin old oldMember pinned, (keeps.value old oldMember pinned).trans bound,
      change chosen, kept, ?_⟩
    exact Node.SameValue.trans
      ⟨prunes.inPlace.id chosen, prunes.inPlace.kind chosen, prunes.inPlace.parent chosen,
        prunes.inPlace.label chosen, keeps.attributes chosen, keeps.internalId chosen⟩ same

/-- New nodes under new numbers. -/
theorem extend
    (pins : before.Pins id value)
    {made : List Node}
    (nodes : after.nodes = before.nodes ++ made)
    (nextId : before.nextId ≤ after.nextId)
    (fresh : ∀ node ∈ made, before.nextId ≤ node.id.value) :
    after.Pins id value where
  taken := Nat.lt_of_lt_of_le pins.taken nextId
  bound := by
    intro node member named
    rw [nodes] at member
    rcases List.mem_append.1 member with old | new
    · obtain ⟨pinned, bound, chosen, chosenMember, same⟩ := pins.bound node old named
      exact ⟨pinned, bound, chosen, nodes ▸ List.mem_append_left _ chosenMember, same⟩
    · have later := fresh node new
      have taken := pins.taken
      rw [named] at later
      omega

/-- A node is changed, but neither in its pin nor in its binding. -/
theorem modifyNode
    (pins : graph.Pins id value)
    (coherent : graph.Coherent)
    {change : Node → Node}
    (inPlace : Node.InPlace change)
    (keeps : graph.KeepsPins change)
    (target : NodeId) :
    (graph.modifyNode target change).Pins id value := by
  apply pins.prune coherent (prunes_modifyNode inPlace target graph)
  · constructor
    · intro node member pinned
      split
      · exact keeps.pin node member pinned
      · exact pinned
    · intro node member pinned
      split
      · exact keeps.value node member pinned
      · rfl
    · intro node
      split
      · exact keeps.attributes node
      · rfl
    · intro node
      split
      · exact keeps.internalId node
      · rfl
  · intro _ _ _ _ _
    exact not_false

/-- A node that is not pinned is bound to another value or to none. -/
theorem rebind
    (pins : graph.Pins id value)
    (grown : graph.Grown)
    {owner : Node}
    (member : owner ∈ graph.nodes)
    (unpinned : owner.immutable = false)
    (choice : Option NodeId)
    (below :
      ∀ id, choice = some id →
        ∃ candidate ∈ graph.nodes,
          candidate.id = id ∧ candidate.kind = .value ∧ candidate.parent = some owner.id) :
    (graph.rebind owner choice).Pins id value := by
  have coherent := grown.toCoherent
  have apart : ∀ node ∈ graph.nodes, node.immutable = true → node.id ≠ owner.id := by
    intro node nodeMember pinned named
    rw [coherent.eq_of_id_eq nodeMember member named, unpinned] at pinned
    cases pinned
  apply pins.prune coherent (grown.prunes_rebind member choice below)
  · constructor
    · intro node nodeMember pinned
      rw [if_neg (apart node nodeMember pinned)]
      exact pinned
    · intro node nodeMember pinned
      rw [if_neg (apart node nodeMember pinned)]
    · intro node
      split <;> rfl
    · intro node
      split <;> rfl
  · rintro node nodeMember pinned top bound ⟨ownerBound, _⟩
    exact apart node nodeMember pinned
      (by rw [coherent.eq_of_bound nodeMember member bound ownerBound])

/-- Every move keeps a pinned node bound to its value. -/
theorem handles
    (pins : before.Pins id value)
    (handles : Handles before after)
    (grown : before.Grown) :
    after.Pins id value := by
  have coherent := grown.toCoherent
  have mark : ∀ (graph : QueryGraph) (shown : Bool),
      graph.KeepsPins fun node => { node with valueExpanded := shown } := fun _ _ =>
    ⟨fun _ _ pinned => pinned, fun _ _ _ => rfl, fun _ => rfl, fun _ => rfl⟩
  cases handles with
  | note target change unmarked =>
      exact pins.modifyNode coherent (Node.InPlace.note change)
        ⟨fun _ _ pinned => pinned, fun _ _ _ => rfl, fun _ => rfl, fun _ => rfl⟩ target
  | @unlist _ owner count member accepted =>
      apply pins.prune coherent (grown.prunes_removeValues member accepted).1
      · constructor
        · intro node _ pinned
          split
          · exact pinned
          · exact pinned
        · intro node _ _
          split <;> rfl
        · intro node
          split <;> rfl
        · intro node
          split <;> rfl
      -- A value that is bound to some node is not a spare value of any node.
      · rintro node nodeMember pinned top bound ⟨other, spare, spareMember, named, _, isParent⟩
        rw [← named] at bound other
        have parent := (coherent.below_of_bound nodeMember spareMember bound).2
        rw [coherent.eq_of_parent member nodeMember isParent parent] at other
        exact other bound
  | @exhibit owner rows member lists =>
      obtain ⟨made, links, nodes, _, nextId, values, _⟩ := withRows_grows owner rows before
      have shown := pins.extend nodes nextId fun node new => (values node new).1
      exact shown.modifyNode (grown.withRows member rows lists).toCoherent
        (Node.InPlace.setValueExpanded true) (mark _ true) owner.id
  | relate accepted =>
      obtain ⟨between, link, added, linked⟩ := addRelationship_ok accepted
      obtain ⟨_, rfl, rfl⟩ := addNode_ok added
      obtain ⟨_, _, rfl⟩ := addLink_ok linked
      refine pins.extend rfl (Nat.le_add_right _ 2) ?_
      intro node new
      rw [List.mem_singleton] at new
      subst new
      exact Nat.le_refl _
  | bind member unpinned accepted =>
      obtain ⟨owner, ownerMember, candidate, candidateMember, named, candidateNamed, isValue,
        parent, rfl⟩ := bindValue_rebinds accepted
      rw [← coherent.eq_of_id_eq ownerMember member named] at unpinned
      apply pins.rebind grown ownerMember unpinned
      rintro id isChoice
      injection isChoice with same
      exact ⟨candidate, candidateMember, candidateNamed.trans same, isValue, named ▸ parent⟩
  | clear accepted =>
      rcases coherent.clearValue_rebinds accepted with rfl | ⟨owner, member, _, unpinned, rfl⟩
      · exact pins
      · exact pins.rebind grown member unpinned none (by simp)
  | unlink isRelation accepted =>
      obtain ⟨target, member, isTerm, removes⟩ := grown.prunes_removeLink isRelation accepted
      apply pins.prune coherent removes
      · exact ⟨fun _ _ pinned => pinned, fun _ _ _ => rfl, fun _ => rfl, fun _ => rfl⟩
      · rintro node nodeMember _ top bound rfl
        exact isTerm (coherent.below_of_bound nodeMember member bound).1

end Pins

/-- A pinned node of a coherent graph is pinned to the value it is bound to. -/
theorem Coherent.pins
    (coherent : graph.Coherent)
    {node : Node}
    (member : node ∈ graph.nodes)
    (pinned : node.immutable = true)
    {chosen : Node}
    (bound : graph.boundValue? node = some chosen) :
    graph.Pins node.id chosen where
  taken := coherent.nodesBelow node member
  bound := by
    intro other otherMember named
    rw [coherent.eq_of_id_eq otherMember member named]
    obtain ⟨id, isBound, found⟩ := Option.bind_eq_some_iff.1 bound
    obtain ⟨chosenMember, chosenNamed⟩ := mem_of_node? found
    exact ⟨pinned, chosenNamed ▸ isBound, chosen, chosenMember, ⟨rfl, rfl, rfl, rfl, rfl, rfl⟩⟩

end QueryGraph

namespace Session

open QueryGraph

variable {calls more : List SessionCall} {node : Node}

/-- In a session whose caller adds neither bare nodes nor bare links, a pinned
node that is bound to a value stays pinned and bound to it for as long as the
node is there, and the value keeps its attributes, whatever operations follow. -/
theorem pinned_value_stays
    (metadata : LabelMetadata)
    (options : QueryOptions)
    (plainly : SessionCall.Plainly calls (.new metadata options))
    (member : node ∈ (SessionCall.run calls (.new metadata options)).graph.nodes)
    (pinned : node.immutable = true)
    (bound : node.isBound = true)
    (operate : ∀ call ∈ more, call.isOperation = true) :
    let session := SessionCall.run calls (.new metadata options)
    let later := SessionCall.run more session
    ∃ chosen,
      session.graph.boundValue? node = some chosen ∧ chosen.kind = .value ∧
        ∀ kept ∈ later.graph.nodes, kept.id = node.id →
          kept.immutable = true ∧ kept.value = node.value ∧
            ∃ value, later.graph.boundValue? kept = some value ∧ value.SameValue chosen := by
  intro session later
  have grown : session.graph.Grown := SessionCall.run_grown calls grown_empty plainly
  have handled : Handled session.graph later.graph :=
    SessionCall.run_tends more session operate grown
  obtain ⟨id, isBound⟩ := Option.isSome_iff_exists.1 bound
  obtain ⟨chosen, chosenMember, rfl, isValue, _⟩ := grown.boundBelow node member id isBound
  have found : session.graph.boundValue? node = some chosen := by
    rw [boundValue?, isBound]
    exact grown.toCoherent.node?_of_mem chosenMember
  refine ⟨chosen, found, isValue, ?_⟩
  intro kept keptMember named
  have laterGrown := Handled.grown handled grown
  have pins : later.graph.Pins node.id chosen :=
    Handled.keeps (fun _ _ move moveGrown pins => pins.handles move moveGrown) handled grown
      (grown.toCoherent.pins member pinned found)
  obtain ⟨stillPinned, stillBound, value, valueMember, same⟩ := pins.bound kept keptMember named
  refine ⟨stillPinned, stillBound.trans isBound.symm, value, ?_, same⟩
  rw [boundValue?, stillBound, Option.bind_some, ← same.id]
  exact laterGrown.toCoherent.node?_of_mem valueMember

/-- An account pinned to a value. -/
def pinnedAccount : NodeSchema where
  label := "Account"
  value := some [("name", .string "Ann")]
  immutable := true

/-- Showing the next page and then clearing the account leave its value alone. -/
theorem pinned_account_stays :
    let session := SessionCall.run [.loadSchema pinnedAccount] (.new Compiler.namedLabels {})
    let later := SessionCall.run [.nextPage ⟨0⟩, .clearSelection ⟨0⟩] session
    ∃ node ∈ later.graph.nodes, ∃ value,
      later.graph.boundValue? node = some value ∧
        value.attributes = [("name", .string "Ann")] := by
  intro session later
  have first : ∃ node ∈ session.graph.nodes,
      node.id = ⟨0⟩ ∧ node.immutable = true ∧ node.isBound = true ∧
        (session.graph.boundValue? node).map Node.attributes =
          some [("name", .string "Ann")] := by decide +kernel
  have last : ∃ node ∈ later.graph.nodes, node.id = ⟨0⟩ := by decide +kernel
  obtain ⟨node, member, named, pinned, bound, attributes⟩ := first
  obtain ⟨kept, keptMember, keptNamed⟩ := last
  obtain ⟨chosen, found, _, stays⟩ := pinned_value_stays Compiler.namedLabels {}
    (show SessionCall.Plainly [.loadSchema pinnedAccount] _ from ⟨trivial, trivial⟩) member pinned
    bound
    (show ∀ call ∈ [.nextPage ⟨0⟩, .clearSelection ⟨0⟩], SessionCall.isOperation call = true by
      simp [SessionCall.isOperation])
  have reached := keptMember
  simp only [later, session] at reached
  obtain ⟨_, _, value, stillBound, same⟩ := stays kept reached (keptNamed.trans named.symm)
  rw [found] at attributes
  injection attributes with attributes
  exact ⟨kept, keptMember, value, stillBound, same.attributes.trans attributes⟩

end Session
end VisualQuery
