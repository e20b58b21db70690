import VisualQuery.Proofs.Graph.Naming
import VisualQuery.Proofs.Graph.Terms

/-!
# The names handed out by a sequence of edits

Terms are named when they are made, and a caller may ask for a name.  The names
handed out since the last restart are read off the answers and the new terms of
each edit.  They turn out to be the names that the generator issues for the
labels in the same order, and the terms of a graph carry some of them, each at
most once.
-/

namespace VisualQuery

namespace GraphEdit

/-- Edits after which names start over. -/
def restarts : GraphEdit → Bool
  | .reset _ => true
  | .clear => true
  | _ => false

/-- The least number of a node that an edit makes. -/
def firstNumber (edit : GraphEdit) (before : QueryGraph) : Nat :=
  if edit.restarts then 0 else before.nextId

/-- The terms that an edit makes. -/
def madeTerms (edit : GraphEdit) (before : QueryGraph) : List Node :=
  (edit.apply before).terms.filter fun node => edit.firstNumber before ≤ node.id.value

/-- What an edit hands out: the name asked for, or the names of the terms it
makes. -/
def namings (edit : GraphEdit) (before : QueryGraph) : List Naming :=
  match edit with
  | .generateVariable label => [⟨label, (before.generateVariable label).1⟩]
  | edit => (edit.madeTerms before).map Node.naming

/-- The names handed out since the last restart, by edits that follow some
earlier ones. -/
def handedOut : List GraphEdit → QueryGraph → List Naming → List Naming
  | [], _, earlier => earlier
  | edit :: rest, graph, earlier =>
    handedOut rest (edit.apply graph)
      ((if edit.restarts then [] else earlier) ++ edit.namings graph)

end GraphEdit

namespace QueryGraph

/-! ## Edits that name terms -/

/-- The terms stay, and the terms made behind them carry the names issued. -/
structure Grows (before after : QueryGraph) (made : List Naming) : Prop where
  names :
    VariableNames.issue (made.map Naming.label) before.names =
      (made.map Naming.name, after.names)
  tags :
    ∃ fresh, after.tags = before.tags ++ fresh ∧ fresh.map Prod.snd = made ∧
      ∀ tag ∈ fresh, before.nextId ≤ tag.1.value
  nextId : before.nextId ≤ after.nextId

namespace Grows

theorem refl (graph : QueryGraph) : Grows graph graph [] :=
  ⟨rfl, ⟨[], by simp⟩, Nat.le_refl _⟩

theorem trans
    {first second third : QueryGraph}
    {early late : List Naming}
    (left : Grows first second early)
    (right : Grows second third late) :
    Grows first third (early ++ late) where
  names := by
    rw [List.map_append, List.map_append, VariableNames.issue_append, left.names, right.names]
  tags := by
    obtain ⟨leftFresh, leftTags, leftMade, leftNumbers⟩ := left.tags
    obtain ⟨rightFresh, rightTags, rightMade, rightNumbers⟩ := right.tags
    refine ⟨leftFresh ++ rightFresh, ?_, ?_, ?_⟩
    · rw [rightTags, leftTags, List.append_assoc]
    · rw [List.map_append, leftMade, rightMade]
    · intro tag member
      rcases List.mem_append.1 member with old | new
      · exact leftNumbers tag old
      · exact Nat.le_trans left.nextId (rightNumbers tag new)
  nextId := Nat.le_trans left.nextId right.nextId

theorem of_same
    {before after : QueryGraph}
    (names : after.names = before.names)
    (tags : after.tags = before.tags)
    (nextId : before.nextId ≤ after.nextId) :
    Grows before after [] :=
  ⟨by simp [VariableNames.issue, names], ⟨[], by simp [tags]⟩, nextId⟩

/-- A term made under the next number and with the next name of its label. -/
theorem of_append
    {before after : QueryGraph}
    (made : Node)
    (nodes : after.nodes = before.nodes ++ [made])
    (kind : made.kind ≠ .value)
    (numbered : made.id = ⟨before.nextId⟩)
    (named : before.names.next made.label = (made.var, after.names))
    (nextId : after.nextId = before.nextId + 1) :
    Grows before after [made.naming] where
  names := by simp [VariableNames.issue, Node.naming, named]
  tags := by
    refine ⟨[(made.id, made.naming)], tags_append_term made nodes kind, rfl, ?_⟩
    intro tag member
    rw [List.mem_singleton] at member
    simp [member, numbered]
  nextId := by omega

theorem pushRoot
    (label : String)
    (graph : QueryGraph) :
    Grows graph (graph.pushRoot label).2 [(graph.freshRoot label).naming] :=
  of_append (graph.freshRoot label) rfl (by simp [freshRoot]) rfl rfl rfl

theorem addRoot
    {graph after : QueryGraph}
    {label : String}
    {id : NodeId}
    (accepted : graph.addRoot label = .ok (id, after)) :
    Grows graph after [(graph.freshRoot label).naming] := by
  obtain ⟨_, pushed⟩ := addRoot_ok accepted
  injection pushed with _ after_eq
  subst after_eq
  exact pushRoot label graph

theorem addNode
    {graph after : QueryGraph}
    {parent id : NodeId}
    {label : String}
    {isGroup : Bool}
    (accepted : graph.addNode parent label isGroup = .ok (id, after)) :
    Grows graph after [(graph.freshTerm parent label isGroup).naming] := by
  obtain ⟨_, _, rfl⟩ := addNode_ok accepted
  refine of_append (graph.freshTerm parent label isGroup) rfl ?_ rfl rfl rfl
  cases isGroup <;> simp [freshTerm]

theorem addRelationship
    {graph after : QueryGraph}
    {parent child : NodeId}
    {relationship label : String}
    {isGroup : Bool}
    (accepted :
      graph.addRelationship parent relationship label isGroup = .ok (child, after)) :
    Grows graph after [(graph.freshTerm parent label isGroup).naming] := by
  obtain ⟨between, link, added, linked⟩ := addRelationship_ok accepted
  obtain ⟨_, _, rfl⟩ := addLink_ok linked
  exact (addNode added).trans (of_same rfl rfl (Nat.le_succ _))

theorem addValue
    {graph after : QueryGraph}
    {parent value : NodeId}
    {attributes : Row}
    (accepted : graph.addValue parent attributes = .ok (value, after)) :
    Grows graph after [] := by
  obtain ⟨owner, _, link, _, _, _, linked⟩ := addValue_ok accepted
  obtain ⟨_, _, rfl⟩ := addLink_ok linked
  refine of_same rfl ?_ ?_
  · exact tags_append_value (graph.freshValue owner attributes) rfl rfl
  · exact Nat.le_add_right graph.nextId 2

theorem modifyNode
    {change : Node → Node}
    (inPlace : Node.InPlace change)
    (id : NodeId)
    (graph : QueryGraph) :
    Grows graph (graph.modifyNode id change) [] :=
  of_same rfl (tags_modifyNode inPlace id graph) (Nat.le_refl _)

end Grows

/-! ## Schemas only grow a graph -/

theorem Builds.grows
    {before after : QueryGraph}
    (builds : Builds before after) :
    ∃ made, Grows before after made := by
  cases builds with
  | addRoot accepted => exact ⟨_, Grows.addRoot accepted⟩
  | addRelationship isTerm accepted => exact ⟨_, Grows.addRelationship accepted⟩
  | addValue accepted => exact ⟨[], Grows.addValue accepted⟩
  | bindValue unbound accepted =>
      rw [bindValue_ok_of_unbound unbound accepted]
      exact ⟨[], Grows.modifyNode (Node.InPlace.setValue _) _ before⟩
  | setImmutable accepted =>
      rw [setImmutable_ok accepted]
      exact ⟨[], Grows.modifyNode (Node.InPlace.setImmutable _) _ before⟩

theorem Built.grows
    {before after : QueryGraph}
    (built : Built before after) :
    ∃ made, Grows before after made := by
  induction built with
  | refl => exact ⟨[], Grows.refl before⟩
  | tail earlier builds inductionHypothesis =>
      obtain ⟨early, grown⟩ := inductionHypothesis
      obtain ⟨late, further⟩ := builds.grows
      exact ⟨early ++ late, grown.trans further⟩

/-! ## Every edit -/

/-- Some terms stay, and the terms made behind them carry the names issued. -/
structure Issues (before after : QueryGraph) (made : List Naming) : Prop where
  names :
    VariableNames.issue (made.map Naming.label) before.names =
      (made.map Naming.name, after.names)
  tags :
    ∃ kept fresh, after.tags = kept ++ fresh ∧ kept.Sublist before.tags ∧
      fresh.map Prod.snd = made ∧ ∀ tag ∈ fresh, before.nextId ≤ tag.1.value

theorem Grows.issues
    {before after : QueryGraph}
    {made : List Naming}
    (grown : Grows before after made) :
    Issues before after made := by
  obtain ⟨fresh, tags, holds⟩ := grown.tags
  exact ⟨grown.names, before.tags, fresh, tags, List.Sublist.refl _, holds⟩

theorem Thins.issues
    {before after : QueryGraph}
    (thinned : Thins before after) :
    Issues before after [] :=
  ⟨by simp [VariableNames.issue, thinned.names],
    after.tags, [], by simp, thinned.tags, rfl, by simp⟩

/-- The terms made are told from the others by their numbers. -/
theorem Issues.madeTerms
    {before after : QueryGraph}
    {made : List Naming}
    (coherent : before.Coherent)
    (issues : Issues before after made) :
    (after.terms.filter fun node => before.nextId ≤ node.id.value).map Node.naming = made := by
  obtain ⟨kept, fresh, tags, sublist, rfl, numbers⟩ := issues.tags
  have readOff :
      (after.terms.filter fun node => before.nextId ≤ node.id.value).map Node.naming =
        (after.tags.filter fun tag => before.nextId ≤ tag.1.value).map Prod.snd := by
    simp [QueryGraph.tags, List.filter_map, Function.comp_def]
  have noneKept : kept.filter (fun tag => before.nextId ≤ tag.1.value) = [] := by
    refine List.filter_eq_nil_iff.2 ?_
    intro tag member
    obtain ⟨node, nodeMember, rfl⟩ := List.mem_map.1 (sublist.subset member)
    have below := coherent.nodesBelow node (mem_terms.1 nodeMember).1
    simpa using below
  have allFresh : fresh.filter (fun tag => before.nextId ≤ tag.1.value) = fresh := by
    refine List.filter_eq_self.2 ?_
    intro tag member
    simpa using numbers tag member
  rw [readOff, tags, List.filter_append, noneKept, allFresh, List.nil_append]

theorem Issues.namings_sublist
    {before after : QueryGraph}
    {made : List Naming}
    (issues : Issues before after made) :
    (after.terms.map Node.naming).Sublist (before.terms.map Node.naming ++ made) := by
  obtain ⟨kept, fresh, tags, sublist, rfl, _⟩ := issues.tags
  rw [namings_eq_tags, namings_eq_tags, tags, List.map_append]
  exact (sublist.map _).append (List.Sublist.refl _)

/-- Some names are issued on the way from one graph to another. -/
def Continues (before after : QueryGraph) : Prop :=
  ∃ made, Issues before after made

theorem Continues.refl (graph : QueryGraph) : Continues graph graph :=
  ⟨[], (Thins.refl graph).issues⟩

theorem Grows.continues
    {before after : QueryGraph}
    {made : List Naming}
    (grown : Grows before after made) :
    Continues before after :=
  ⟨made, grown.issues⟩

theorem Thins.continues
    {before after : QueryGraph}
    (thinned : Thins before after) :
    Continues before after :=
  ⟨[], thinned.issues⟩

end QueryGraph

namespace GraphEdit

open QueryGraph

/-- Apart from requests for a name and restarts, the names an edit has issued
are those of the terms it makes. -/
theorem apply_issues
    (edit : GraphEdit)
    {graph : QueryGraph}
    (wellFormed : graph.WellFormed)
    (steady : edit.restarts = false)
    (made : ∀ label, edit ≠ .generateVariable label) :
    Continues graph (edit.apply graph) := by
  cases edit with
  | addRoot label =>
      refine Step.atomic_property (Continues.refl graph) ?_
      intro id after accepted
      exact (Grows.addRoot accepted).continues
  | reset label => cases steady
  | clear => cases steady
  | generateVariable label => exact absurd rfl (made label)
  | addNode parent label isGroup =>
      refine Step.atomic_property (Continues.refl graph) ?_
      intro id after accepted
      exact (Grows.addNode accepted).continues
  | addRelationship parent relationship label isGroup =>
      refine Step.atomic_property (Continues.refl graph) ?_
      intro id after accepted
      exact (Grows.addRelationship accepted).continues
  | addValue parent attributes =>
      refine Step.atomic_property (Continues.refl graph) ?_
      intro id after accepted
      exact (Grows.addValue accepted).continues
  | addLink source target kind label =>
      refine Step.atomic_property (Continues.refl graph) ?_
      intro id after accepted
      exact (Thins.addLink accepted).continues
  | removeNode node =>
      refine Step.atomicUnit_property (Continues.refl graph) ?_
      intro after accepted
      exact (Thins.removeNode accepted).continues
  | removeLink link =>
      refine Step.atomicUnit_property (Continues.refl graph) ?_
      intro after accepted
      exact (Thins.removeLink accepted).continues
  | removeValues node =>
      refine Step.atomic_property (Continues.refl graph) ?_
      intro count after accepted
      exact (Thins.removeValues accepted).continues
  | bindValue node value =>
      refine Step.atomicUnit_property (Continues.refl graph) ?_
      intro after accepted
      exact (Thins.bindValue accepted).continues
  | clearValue node =>
      refine Step.atomic_property (Continues.refl graph) ?_
      intro cleared after accepted
      exact (Thins.clearValue accepted).continues
  | setImmutable node immutable =>
      refine Step.atomicUnit_property (Continues.refl graph) ?_
      intro after accepted
      exact (Thins.setImmutable accepted).continues
  | addSchema schema =>
      obtain ⟨made, grown⟩ := (addSchema_built schema wellFormed).grows
      exact grown.continues
  | note node change =>
      exact (Thins.modifyNode (Node.InPlace.note change) node graph).continues

/-- The names handed out are those issued for their labels from the start, and
the terms of the graph carry some of them in order. -/
structure Recorded (graph : QueryGraph) (log : List Naming) : Prop where
  names :
    VariableNames.issue (log.map Naming.label) {} = (log.map Naming.name, graph.names)
  terms : (graph.terms.map Node.naming).Sublist log

theorem recorded_empty : Recorded .empty [] :=
  ⟨rfl, List.Sublist.refl _⟩

theorem Recorded.extend
    {before after : QueryGraph}
    {log made : List Naming}
    (recorded : Recorded before log)
    (names :
      VariableNames.issue (made.map Naming.label) before.names =
        (made.map Naming.name, after.names))
    (terms :
      (after.terms.map Node.naming).Sublist (before.terms.map Node.naming ++ made)) :
    Recorded after (log ++ made) where
  names := by
    rw [List.map_append, List.map_append, VariableNames.issue_append, recorded.names, names]
  terms := terms.trans (recorded.terms.append (List.Sublist.refl _))

/-- One edit: what it hands out goes to the end of the log, or starts it. -/
theorem Recorded.step
    {graph : QueryGraph}
    {log : List Naming}
    (recorded : Recorded graph log)
    (wellFormed : graph.WellFormed)
    (edit : GraphEdit) :
    Recorded (edit.apply graph)
      ((if edit.restarts then [] else log) ++ edit.namings graph) := by
  by_cases request : ∃ label, edit = .generateVariable label
  · obtain ⟨label, rfl⟩ := request
    apply recorded.extend rfl
    exact List.sublist_append_left _ _
  · have noRequest : ∀ label, edit ≠ .generateVariable label := by
      intro label same
      exact request ⟨label, same⟩
    have namings_eq : edit.namings graph = (edit.madeTerms graph).map Node.naming := by
      cases edit <;> first | rfl | exact absurd rfl (noRequest _)
    rw [namings_eq]
    by_cases restarts : edit.restarts = true
    · rw [if_pos restarts]
      cases edit <;> simp only [GraphEdit.restarts, Bool.false_eq_true] at restarts
      · rename_i label
        have issues := (Grows.pushRoot label .empty).issues
        have made : (GraphEdit.madeTerms (.reset label) graph).map Node.naming =
            [(QueryGraph.empty.freshRoot label).naming] :=
          issues.madeTerms coherent_empty
        rw [made]
        exact recorded_empty.extend issues.names issues.namings_sublist
      · exact recorded_empty
    · obtain ⟨made, issues⟩ :=
        apply_issues edit wellFormed (by simpa using restarts) noRequest
      have made_eq : (edit.madeTerms graph).map Node.naming = made := by
        rw [GraphEdit.madeTerms, firstNumber, if_neg restarts]
        exact issues.madeTerms wellFormed.toCoherent
      rw [if_neg restarts, made_eq]
      exact recorded.extend issues.names issues.namings_sublist

theorem recorded_handedOut
    (edits : List GraphEdit)
    {graph : QueryGraph}
    {log : List Naming}
    (wellFormed : graph.WellFormed)
    (recorded : Recorded graph log) :
    Recorded (run edits graph) (handedOut edits graph log) := by
  induction edits generalizing graph log with
  | nil => exact recorded
  | cons edit rest inductionHypothesis =>
      exact inductionHypothesis (apply_wellFormed edit graph wellFormed)
        (recorded.step wellFormed edit)

/-! ## When the names are distinct -/

/-- Terms whose namings differ in a key that is distinct along the log. -/
theorem Recorded.term_eq_of_key_eq
    {graph : QueryGraph}
    {log : List Naming}
    (recorded : Recorded graph log)
    {κ : Type}
    (key : Naming → κ)
    (distinct : (log.map key).Nodup)
    {left right : Node}
    (leftMember : left ∈ graph.terms)
    (rightMember : right ∈ graph.terms)
    (same : key left.naming = key right.naming) :
    left = right := by
  have keys : (graph.terms.map fun node => key node.naming).Nodup := by
    have sublist := recorded.terms.map key
    rw [List.map_map] at sublist
    exact sublist.nodup distinct
  exact List.inj_on_of_nodup_map keys leftMember rightMember same

/-- With distinct variables, looking one up finds its term. -/
theorem findByVariable?_of_term
    {graph : QueryGraph}
    (distinct :
      ∀ left ∈ graph.terms, ∀ right ∈ graph.terms, left.var = right.var → left = right)
    {node : Node}
    (member : node ∈ graph.terms) :
    graph.findByVariable? node.var = some node := by
  obtain ⟨nodeMember, isTerm⟩ := mem_terms.1 member
  cases found : graph.findByVariable? node.var with
  | none =>
      have missing := List.find?_eq_none.1 found node nodeMember
      simp [Node.isValue, isTerm] at missing
  | some other =>
      have holds := List.find?_some found
      simp only [Bool.and_eq_true, decide_eq_true_eq, Node.isValue, Bool.not_eq_true',
        decide_eq_false_iff_not] at holds
      have otherMember := mem_terms.2 ⟨List.mem_of_find?_eq_some found, holds.1⟩
      rw [distinct other otherMember node member holds.2]

/-- The names handed out since the last restart are distinct exactly if no two
labels clash.  Then variables tell the terms of the graph apart and find them
again.  Terms with one normalized label have distinct variables in any case. -/
theorem handedOut_nodup_iff_not_clash (edits : List GraphEdit) :
    let graph := run edits .empty
    let log := handedOut edits .empty []
    ((log.map Naming.name).Nodup ↔ ¬VariableNames.Clash (log.map Naming.label)) ∧
      (¬VariableNames.Clash (log.map Naming.label) →
        (∀ left ∈ graph.terms, ∀ right ∈ graph.terms,
          left.var = right.var → left = right) ∧
        ∀ node ∈ graph.terms, graph.findByVariable? node.var = some node) ∧
      ∀ left ∈ graph.terms, ∀ right ∈ graph.terms,
        left.var = right.var →
          VariableNames.normalize left.label = VariableNames.normalize right.label →
            left = right := by
  intro graph log
  have recorded : Recorded graph log :=
    recorded_handedOut edits wellFormed_empty recorded_empty
  have issued : (VariableNames.issue (log.map Naming.label) {}).1 = log.map Naming.name := by
    rw [recorded.names]
  have exact_condition :
      (log.map Naming.name).Nodup ↔ ¬VariableNames.Clash (log.map Naming.label) := by
    rw [← issued]
    exact VariableNames.nodup_issue_iff _
  refine ⟨exact_condition, ?_, ?_⟩
  · intro clear
    have distinct : ∀ left ∈ graph.terms, ∀ right ∈ graph.terms,
        left.var = right.var → left = right := by
      intro left leftMember right rightMember same
      exact recorded.term_eq_of_key_eq Naming.name (exact_condition.2 clear) leftMember
        rightMember same
    refine ⟨distinct, ?_⟩
    intro node member
    exact findByVariable?_of_term distinct member
  · intro left leftMember right rightMember sameVar sameLabel
    have pairs := VariableNames.nodup_zip_issue (log.map Naming.label)
    rw [issued, List.map_map, List.zip_map'] at pairs
    apply recorded.term_eq_of_key_eq
      (fun naming => (VariableNames.normalize naming.label, naming.name)) pairs leftMember
      rightMember
    exact Prod.ext sameLabel sameVar

end GraphEdit
end VisualQuery
