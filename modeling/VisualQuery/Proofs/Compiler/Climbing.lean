import VisualQuery.Compiler.Relevance

/-!
# Climbing through a shared pool

Climbs take the links they cross out of the pool, so a later climb finds its
way cut off where an earlier one has been.  The links crossed so far go on
upwards nevertheless: short of the root, a crossed link starts at a node that
another crossed link enters, or none at all.  Where links enter every node once
at most, whatever continues the way of a crossed link upwards has therefore been
crossed too.
-/

namespace VisualQuery

/-! ## Extraction -/

theorem mem_of_extractLast?
    {α : Type}
    {test : α → Bool}
    {items rest : List α}
    {found : α}
    (extracted : extractLast? test items = some (found, rest)) :
    test found = true ∧ ∀ item, item ∈ items ↔ item = found ∨ item ∈ rest := by
  induction items generalizing found rest with
  | nil => simp [extractLast?] at extracted
  | cons head tail inductionHypothesis =>
      unfold extractLast? at extracted
      split at extracted
      · rename_i inner innerRest innerFound
        injection extracted with same
        injection same with found_eq rest_eq
        subst found_eq rest_eq
        obtain ⟨passes, members⟩ := inductionHypothesis innerFound
        refine ⟨passes, ?_⟩
        intro item
        rw [List.mem_cons, List.mem_cons, members]
        exact or_left_comm
      · split at extracted
        · rename_i passes
          injection extracted with same
          injection same with found_eq rest_eq
          subst found_eq rest_eq
          exact ⟨passes, fun item => List.mem_cons⟩
        · cases extracted

theorem not_of_extractLast?_eq_none
    {α : Type}
    {test : α → Bool}
    {items : List α}
    (missing : extractLast? test items = none) :
    ∀ item ∈ items, ¬ test item = true := by
  induction items with
  | nil => simp
  | cons head tail inductionHypothesis =>
      unfold extractLast? at missing
      split at missing
      · cases missing
      · rename_i tailMissing
        split at missing
        · cases missing
        · rename_i fails
          intro item member
          rcases List.mem_cons.1 member with rfl | later
          · exact fails
          · exact inductionHypothesis tailMissing item later

namespace QueryGraph

/-! ## Ways up -/

/-- Going up along links leads from a node to another. -/
inductive Ascends (links : List Link) : NodeId → NodeId → Prop
  | here (node : NodeId) : Ascends links node node
  | up
      {link : Link}
      {top : NodeId}
      (member : link ∈ links)
      (above : Ascends links link.source top) :
      Ascends links link.target top

theorem Ascends.mono
    {links more : List Link}
    {node top : NodeId}
    (ascends : Ascends links node top)
    (included : ∀ link ∈ links, link ∈ more) :
    Ascends more node top := by
  induction ascends with
  | here node => exact Ascends.here node
  | up member _ inductionHypothesis => exact Ascends.up (included _ member) inductionHypothesis

theorem Ascends.trans
    {links : List Link}
    {node middle top : NodeId}
    (below : Ascends links node middle)
    (above : Ascends links middle top) :
    Ascends links node top := by
  induction below with
  | here => exact above
  | up member _ inductionHypothesis => exact Ascends.up member (inductionHypothesis above)

/-- A way up that ends at the target of a link goes on to its source. -/
theorem Ascends.extend
    {links : List Link}
    {node : NodeId}
    {link : Link}
    (ascends : Ascends links node link.target)
    (member : link ∈ links) :
    Ascends links node link.source :=
  ascends.trans (Ascends.up member (Ascends.here _))

/-- Links enter every node at most once, and the root not at all. -/
structure Enters (root : NodeId) (links : List Link) : Prop where
  once : ∀ left ∈ links, ∀ right ∈ links, left.target = right.target → left = right
  notRoot : ∀ link ∈ links, link.target ≠ root

theorem Enters.subset
    {root : NodeId}
    {links fewer : List Link}
    (enters : Enters root links)
    (included : ∀ link ∈ fewer, link ∈ links) :
    Enters root fewer where
  once := by
    intro left leftMember right rightMember
    exact enters.once left (included left leftMember) right (included right rightMember)
  notRoot := by
    intro link member
    exact enters.notRoot link (included link member)

/-- The way up goes on at a node: a link crossed enters it, or no link of the
pool does. -/
def GoesOn (pool crossed : List Link) (node : NodeId) : Prop :=
  (∃ above ∈ crossed, above.target = node) ∨ ∀ above ∈ pool, above.target ≠ node

/-- Links of a pool have been crossed on the ways up from some nodes, and the
others are left. -/
structure Climbed
    (root : NodeId)
    (pool : List Link)
    (sources : List NodeId)
    (crossed left : List Link) : Prop where
  divided : ∀ link, link ∈ pool ↔ link ∈ crossed ∨ link ∈ left
  reached : ∀ link ∈ crossed, ∃ source ∈ sources, Ascends pool source link.target
  entering : ∀ source ∈ sources, GoesOn pool crossed source
  upward : ∀ link ∈ crossed, link.source = root ∨ GoesOn pool crossed link.source

theorem GoesOn.append
    {pool crossed : List Link}
    {node : NodeId}
    (goesOn : GoesOn pool crossed node)
    (more : List Link) :
    GoesOn pool (crossed ++ more) node := by
  rcases goesOn with ⟨above, member, target⟩ | unentered
  · exact Or.inl ⟨above, List.mem_append_left _ member, target⟩
  · exact Or.inr unentered

/-- What enters a node has been crossed before, or is left to be crossed. -/
theorem GoesOn.of_left
    {pool crossed left more : List Link}
    {node : NodeId}
    (divided : ∀ link, link ∈ pool ↔ link ∈ crossed ∨ link ∈ left)
    (goesOn : GoesOn left more node) :
    GoesOn pool (crossed ++ more) node := by
  rcases goesOn with ⟨above, member, target⟩ | unentered
  · exact Or.inl ⟨above, List.mem_append_right _ member, target⟩
  · by_cases before : ∃ above ∈ crossed, above.target = node
    · exact GoesOn.append (Or.inl before) more
    · refine Or.inr fun above member target => ?_
      rcases (divided above).1 member with old | remaining
      · exact before ⟨above, old, target⟩
      · exact unentered above remaining target

namespace Climbed

variable
  {root : NodeId}
  {pool crossed left more rest : List Link}
  {first second : List NodeId}

theorem none (root : NodeId) (pool : List Link) : Climbed root pool [] [] pool where
  divided := by simp
  reached := by simp
  entering := by simp
  upward := by simp

/-- Climbs through what earlier climbs have left complete the ways up that lead
into links crossed before. -/
theorem trans
    (earlier : Climbed root pool first crossed left)
    (later : Climbed root left second more rest) :
    Climbed root pool (first ++ second) (crossed ++ more) rest where
  divided := by
    intro link
    rw [earlier.divided, later.divided, List.mem_append, or_assoc]
  reached := by
    intro link member
    rcases List.mem_append.1 member with old | new
    · obtain ⟨source, sourceMember, ascends⟩ := earlier.reached link old
      exact ⟨source, List.mem_append_left _ sourceMember, ascends⟩
    · obtain ⟨source, sourceMember, ascends⟩ := later.reached link new
      refine ⟨source, List.mem_append_right _ sourceMember, ascends.mono ?_⟩
      intro other otherMember
      exact (earlier.divided other).2 (Or.inr otherMember)
  entering := by
    intro source sourceMember
    rcases List.mem_append.1 sourceMember with old | new
    · exact (earlier.entering source old).append more
    · exact (later.entering source new).of_left earlier.divided
  upward := by
    intro link member
    rcases List.mem_append.1 member with old | new
    · exact (earlier.upward link old).imp_right fun goesOn => goesOn.append more
    · exact (later.upward link new).imp_right fun goesOn => goesOn.of_left earlier.divided

/-- Nothing is crossed where no link enters. -/
theorem stuck
    {source : NodeId}
    (missing : ∀ link ∈ pool, ¬ link.target = source) :
    Climbed root pool [source] [] pool where
  divided := by simp
  reached := by simp
  entering := by
    intro node member
    rw [List.mem_singleton.1 member]
    exact Or.inr missing
  upward := by simp

/-- A link that enters a node is crossed first, then the way goes on from its
source, unless that is the root. -/
theorem cons
    {link : Link}
    {sources : List NodeId}
    (divided : ∀ other, other ∈ pool ↔ other = link ∨ other ∈ rest)
    (climbed : Climbed root rest sources crossed left)
    (above : ∀ source ∈ sources, source = link.source)
    (goesOn : link.source = root ∨ link.source ∈ sources) :
    Climbed root pool [link.target] (link :: crossed) left where
  divided := by
    intro other
    rw [divided, climbed.divided, List.mem_cons, or_assoc]
  reached := by
    intro other member
    refine ⟨link.target, List.mem_singleton_self _, ?_⟩
    rcases List.mem_cons.1 member with rfl | later
    · exact Ascends.here _
    · obtain ⟨source, sourceMember, ascends⟩ := climbed.reached other later
      rw [above source sourceMember] at ascends
      refine Ascends.up ((divided link).2 (Or.inl rfl)) (ascends.mono ?_)
      intro crossing crossingMember
      exact (divided crossing).2 (Or.inr crossingMember)
  entering := by
    intro source sourceMember
    rw [List.mem_singleton.1 sourceMember]
    exact Or.inl ⟨link, List.mem_cons_self, rfl⟩
  upward := by
    have split : ∀ other, other ∈ pool ↔ other ∈ [link] ∨ other ∈ rest := by
      simpa only [List.mem_singleton] using divided
    intro other member
    rcases List.mem_cons.1 member with rfl | later
    · exact goesOn.imp_right fun started => (climbed.entering _ started).of_left split
    · exact (climbed.upward other later).imp_right fun continued => continued.of_left split

/-- Where links enter every node once at most, every link that enters the start
of a climb is crossed. -/
theorem mem_of_entering
    {sources : List NodeId}
    (climbed : Climbed root pool sources crossed left)
    (enters : Enters root pool)
    {source : NodeId}
    (started : source ∈ sources)
    {link : Link}
    (member : link ∈ pool)
    (target : link.target = source) :
    link ∈ crossed := by
  rcases climbed.entering source started with ⟨above, crossedMember, sameTarget⟩ | unentered
  · have pooled := (climbed.divided above).2 (Or.inl crossedMember)
    rw [enters.once link member above pooled (target.trans sameTarget.symm)]
    exact crossedMember
  · exact absurd target (unentered link member)

/-- And so is every link that continues the way of a crossed one. -/
theorem mem_of_continuing
    {sources : List NodeId}
    (climbed : Climbed root pool sources crossed left)
    (enters : Enters root pool)
    {link above : Link}
    (crossedMember : link ∈ crossed)
    (member : above ∈ pool)
    (continues : above.target = link.source) :
    above ∈ crossed := by
  rcases climbed.upward link crossedMember with
    isRoot | ⟨other, otherMember, sameTarget⟩ | unentered
  · exact absurd (continues.trans isRoot) (enters.notRoot above member)
  · have pooled := (climbed.divided other).2 (Or.inl otherMember)
    rw [enters.once above member other pooled (continues.trans sameTarget.symm)]
    exact otherMember
  · exact absurd continues (unentered above member)

end Climbed

/-! ## Climbs -/

theorem climb_climbed
    (root source : NodeId)
    (pool : List Link) :
    Climbed root pool [source] (climb root source pool).1 (climb root source pool).2 := by
  fun_induction climb root source pool with
  | case1 source pool missing =>
      apply Climbed.stuck
      intro link member target
      exact not_of_extractLast?_eq_none missing link member (by simpa using target)
  | case2 source pool link rest found isRoot =>
      obtain ⟨target, divided⟩ := mem_of_extractLast? found
      rw [decide_eq_true_eq] at target
      subst target
      exact Climbed.cons divided (Climbed.none root rest) (by simp) (Or.inl isRoot)
  | case3 source pool link rest found notRoot crossed left climbs inductionHypothesis =>
      obtain ⟨target, divided⟩ := mem_of_extractLast? found
      rw [decide_eq_true_eq] at target
      subst target
      rw [climbs] at inductionHypothesis
      exact Climbed.cons divided inductionHypothesis (by simp)
        (Or.inr (List.mem_singleton_self _))

/-- One climb more, from the source of an anchor. -/
def climbFrom
    (root : NodeId)
    (state : List Link × List Link)
    (anchor : Link) : List Link × List Link :=
  let (more, left) := climb root anchor.source state.2
  (state.1 ++ more, left)

theorem climbAll_eq
    (root : NodeId)
    (anchors pool : List Link) :
    climbAll root anchors pool = anchors.foldl (climbFrom root) ([], pool) := rfl

theorem foldl_climbFrom_climbed
    {root : NodeId}
    {pool : List Link}
    (anchors : List Link)
    (state : List Link × List Link)
    {sources : List NodeId}
    (climbed : Climbed root pool sources state.1 state.2) :
    Climbed root pool (sources ++ anchors.map Link.source)
      (anchors.foldl (climbFrom root) state).1 (anchors.foldl (climbFrom root) state).2 := by
  induction anchors generalizing sources state with
  | nil => simpa using climbed
  | cons anchor rest inductionHypothesis =>
      have once : Climbed root state.2 [anchor.source] _ _ := climb_climbed _ _ _
      have finished := inductionHypothesis (climbFrom root state anchor) (climbed.trans once)
      rw [List.append_assoc] at finished
      exact finished

theorem climbAll_climbed
    (root : NodeId)
    (anchors pool : List Link) :
    Climbed root pool (anchors.map Link.source) (climbAll root anchors pool).1
      (climbAll root anchors pool).2 := by
  rw [climbAll_eq]
  exact foldl_climbFrom_climbed anchors ([], pool) (Climbed.none root pool)

end QueryGraph
end VisualQuery
