import Mathlib.Data.List.TakeWhile
import VisualQuery.Cypher.Render
import VisualQuery.Proofs.Compiler.Scoping
import VisualQuery.Proofs.Graph.Naming

/-!
# Patterns that can be read back

Names of labels, types, attributes and parameters stand between backquotes,
variables without quotes in front of punctuation.  A pattern can be read back
from its text as long as no name has a backquote and no variable has
punctuation.  Nothing is escaped: with backquotes in a label a node pattern reads
like a whole path, and with punctuation in a label its variable reads like the
rest of the pattern.
-/

namespace VisualQuery
namespace Cypher

/-! ## What is written without escapes -/

/-- The character around names. -/
def backquote : Char := Char.ofNat 96

/-- A name does not close its quotes before its end. -/
def StaysQuoted (name : String) : Prop := backquote ∉ name.toList

instance (name : String) : Decidable (StaysQuoted name) :=
  inferInstanceAs (Decidable (backquote ∉ name.toList))

/-- The characters that stand behind a variable. -/
def endsVariable (c : Char) : Bool := c = ':' || c = '{' || c = ')' || c = ']'

/-- A text has none of the characters that stand behind a variable. -/
def IsPlain (text : String) : Prop := ∀ c ∈ text.toList, endsVariable c = false

instance (text : String) : Decidable (IsPlain text) :=
  List.decidableBAll (fun c => endsVariable c = false) text.toList

namespace PropertyConstraint

/-- Names in an inline constraint. -/
def names (constraint : PropertyConstraint) : List String :=
  [constraint.property, constraint.parameter]

end PropertyConstraint

namespace NodePattern

/-- Names in a node pattern. -/
def names (pattern : NodePattern) : List String :=
  pattern.label.toList ++ pattern.constraint.toList.flatMap PropertyConstraint.names

end NodePattern

namespace MatchElement

/-- Names between quotes. -/
def names : MatchElement → List String
  | .node pattern => pattern.names
  | .path source relation target => source.names ++ relation.name.toList ++ target.names

end MatchElement

/-! ## Reading up to a delimiter -/

/-- A text that goes up to the first character of a kind is read in one way. -/
theorem eq_of_append_of_stops
    {stops : Char → Bool}
    {front other rest others : List Char}
    (frontFree : ∀ c ∈ front, stops c = false)
    (otherFree : ∀ c ∈ other, stops c = false)
    (restStops : ∀ c ∈ rest.head?, stops c = true)
    (othersStop : ∀ c ∈ others.head?, stops c = true)
    (same : front ++ rest = other ++ others) :
    front = other ∧ rest = others := by
  have upToStop : ∀ {text behind : List Char}, (∀ c ∈ text, stops c = false) →
      (∀ c ∈ behind.head?, stops c = true) →
        (text ++ behind).takeWhile (fun c => !stops c) = text := by
    intro text behind free stopsThere
    rw [List.takeWhile_append_of_pos (by simpa using free)]
    cases behind with
    | nil => simp
    | cons c behind => simp [stopsThere c rfl]
  have fronts : front = other := by
    rw [← upToStop frontFree restStops, same, upToStop otherFree othersStop]
  exact ⟨fronts, List.append_cancel_left (fronts ▸ same)⟩

theorem toList_quoted (name : String) :
    (quoted name).toList = backquote :: (name.toList ++ [backquote]) := by
  simp [quoted, backquote]

/-- A quoted name is read in one way, whatever stands behind it. -/
theorem eq_of_quoted_append
    {left right : String}
    (leftStays : StaysQuoted left)
    (rightStays : StaysQuoted right)
    {rest others : List Char}
    (same : (quoted left).toList ++ rest = (quoted right).toList ++ others) :
    left = right ∧ rest = others := by
  have free : ∀ {name : String}, StaysQuoted name →
      ∀ c ∈ name.toList, decide (c = backquote) = false := by
    intro name stays c member
    exact decide_eq_false fun isQuote => stays (isQuote ▸ member)
  rw [toList_quoted, toList_quoted, List.cons_append, List.cons_append, List.append_assoc,
    List.append_assoc] at same
  obtain ⟨names, behind⟩ := eq_of_append_of_stops (free leftStays) (free rightStays)
    (by simp) (by simp) (List.cons.inj same).2
  exact ⟨String.toList_injective names, (List.cons.inj behind).2⟩

/-! ## Reading patterns -/

/-- An optional name behind a variable. -/
def nameText : Option String → List Char
  | some name => ':' :: (quoted name).toList
  | none => []

/-- An optional inline constraint behind a variable and a label. -/
def constraintText : Option PropertyConstraint → List Char
  | some constraint =>
    '{' :: ((quoted constraint.property).toList ++ ':' :: '{' ::
      ((quoted constraint.parameter).toList ++ ['}', '}']))
  | none => []

theorem eq_of_nameText_append
    {left right : Option String}
    (leftStays : ∀ name ∈ left, StaysQuoted name)
    (rightStays : ∀ name ∈ right, StaysQuoted name)
    {rest others : List Char}
    (restOther : rest.head? ≠ some ':')
    (othersOther : others.head? ≠ some ':')
    (same : nameText left ++ rest = nameText right ++ others) :
    left = right ∧ rest = others := by
  cases left with
  | none =>
      cases right with
      | none => exact ⟨rfl, same⟩
      | some right => exact absurd (congrArg List.head? same) restOther
  | some left =>
      cases right with
      | none => exact absurd (congrArg List.head? same).symm othersOther
      | some right =>
          obtain ⟨names, behind⟩ :=
            eq_of_quoted_append (leftStays left rfl) (rightStays right rfl) (List.cons.inj same).2
          exact ⟨congrArg some names, behind⟩

theorem eq_of_constraintText_append
    {left right : Option PropertyConstraint}
    (leftStays : ∀ constraint ∈ left, ∀ name ∈ constraint.names, StaysQuoted name)
    (rightStays : ∀ constraint ∈ right, ∀ name ∈ constraint.names, StaysQuoted name)
    {rest others : List Char}
    (restOther : rest.head? ≠ some '{')
    (othersOther : others.head? ≠ some '{')
    (same : constraintText left ++ rest = constraintText right ++ others) :
    left = right ∧ rest = others := by
  cases left with
  | none =>
      cases right with
      | none => exact ⟨rfl, same⟩
      | some right => exact absurd (congrArg List.head? same) restOther
  | some left =>
      cases right with
      | none => exact absurd (congrArg List.head? same).symm othersOther
      | some right =>
          have leftNames := leftStays left rfl
          have rightNames := rightStays right rfl
          simp only [PropertyConstraint.names, List.forall_mem_cons] at leftNames rightNames
          simp only [constraintText, List.cons_append, List.append_assoc] at same
          obtain ⟨properties, behindProperty⟩ :=
            eq_of_quoted_append leftNames.1 rightNames.1 (List.cons.inj same).2
          have behindBrace := (List.cons.inj (List.cons.inj behindProperty).2).2
          obtain ⟨parameters, behind⟩ :=
            eq_of_quoted_append leftNames.2.1 rightNames.2.1 behindBrace
          refine ⟨congrArg some ?_, (List.cons.inj (List.cons.inj behind).2).2⟩
          cases left
          cases right
          exact congrArg₂ PropertyConstraint.mk properties parameters

namespace NodePattern

/-- What stands behind the variable of a node pattern. -/
def behindVar (pattern : NodePattern) : List Char :=
  nameText pattern.label ++ (constraintText pattern.constraint ++ [')'])

theorem toList_render (pattern : NodePattern) :
    pattern.render.toList = '(' :: (pattern.var.toList ++ pattern.behindVar) := by
  obtain ⟨var, label, constraint⟩ := pattern
  cases label <;> cases constraint <;>
    simp [render, behindVar, nameText, constraintText, PropertyConstraint.render]

theorem behindVar_ends (pattern : NodePattern) (rest : List Char) :
    ∀ c ∈ (pattern.behindVar ++ rest).head?, endsVariable c = true := by
  obtain ⟨var, label, constraint⟩ := pattern
  cases label <;> cases constraint <;> simp [behindVar, nameText, constraintText, endsVariable]

/-- The variable has no punctuation, and no name a backquote. -/
structure IsLegible (pattern : NodePattern) : Prop where
  plain : IsPlain pattern.var
  quoted : ∀ name ∈ pattern.names, StaysQuoted name

theorem IsLegible.label
    {pattern : NodePattern}
    (legible : pattern.IsLegible) :
    ∀ name ∈ pattern.label, StaysQuoted name :=
  fun name member => legible.quoted name (List.mem_append_left _ (Option.mem_toList.2 member))

theorem IsLegible.constraint
    {pattern : NodePattern}
    (legible : pattern.IsLegible) :
    ∀ constraint ∈ pattern.constraint, ∀ name ∈ constraint.names, StaysQuoted name :=
  fun constraint member name named => legible.quoted name
    (List.mem_append_right _ (List.mem_flatMap.2 ⟨constraint, Option.mem_toList.2 member, named⟩))

/-- A legible pattern is read back from the front of a text. -/
theorem IsLegible.eq_of_render_append
    {left right : NodePattern}
    (leftLegible : left.IsLegible)
    (rightLegible : right.IsLegible)
    {rest others : List Char}
    (same : left.render.toList ++ rest = right.render.toList ++ others) :
    left = right ∧ rest = others := by
  have noColon : ∀ (constraint : Option PropertyConstraint) (rest : List Char),
      (constraintText constraint ++ ([')'] ++ rest)).head? ≠ some ':' := by
    rintro (_ | constraint) rest <;> simp [constraintText]
  rw [toList_render, toList_render, List.cons_append, List.cons_append, List.append_assoc,
    List.append_assoc] at same
  obtain ⟨vars, behindVars⟩ := eq_of_append_of_stops leftLegible.plain rightLegible.plain
    (left.behindVar_ends rest) (right.behindVar_ends others) (List.cons.inj same).2
  simp only [behindVar, List.append_assoc] at behindVars
  obtain ⟨labels, behindLabels⟩ := eq_of_nameText_append leftLegible.label rightLegible.label
    (noColon _ _) (noColon _ _) behindVars
  obtain ⟨constraints, ends⟩ := eq_of_constraintText_append leftLegible.constraint
    rightLegible.constraint (by simp) (by simp) behindLabels
  refine ⟨?_, (List.cons.inj ends).2⟩
  cases left
  cases right
  exact NodePattern.mk.injEq .. ▸ ⟨String.toList_injective vars, labels, constraints⟩

end NodePattern

namespace RelationPattern

/-- The arrow behind the brackets of a relationship pattern. -/
def arrowText : Direction → List Char
  | .out => [']', '-', '>']
  | .both => [']', '-']

theorem toList_render (pattern : RelationPattern) :
    pattern.render.toList =
      '-' :: '[' :: (pattern.var.toList ++
        (nameText pattern.name ++ arrowText pattern.direction)) := by
  obtain ⟨var, name, direction⟩ := pattern
  cases name <;> cases direction <;> simp [render, nameText, arrowText]

/-- The variable has no punctuation, and the type no backquote. -/
structure IsLegible (pattern : RelationPattern) : Prop where
  plain : IsPlain pattern.var
  quoted : ∀ name ∈ pattern.name, StaysQuoted name

/-- A legible pattern is read back from the front of a text, if a node pattern stands
behind it. -/
theorem IsLegible.eq_of_render_append
    {left right : RelationPattern}
    (leftLegible : left.IsLegible)
    (rightLegible : right.IsLegible)
    {rest others : List Char}
    (same : left.render.toList ++ '(' :: rest = right.render.toList ++ '(' :: others) :
    left = right ∧ rest = others := by
  have arrowEnds : ∀ (direction : Direction) (rest : List Char),
      (arrowText direction ++ rest).head? = some ']' := by
    rintro (_ | _) rest <;> rfl
  have varEnds : ∀ (pattern : RelationPattern) (rest : List Char), ∀ c ∈
      (nameText pattern.name ++ (arrowText pattern.direction ++ rest)).head?,
        endsVariable c = true := by
    rintro ⟨_, _ | name, direction⟩ rest <;> simp [nameText, arrowEnds, endsVariable]
  rw [toList_render, toList_render] at same
  simp only [List.cons_append, List.append_assoc] at same
  obtain ⟨vars, behindVars⟩ := eq_of_append_of_stops leftLegible.plain rightLegible.plain
    (varEnds left _) (varEnds right _) (List.cons.inj (List.cons.inj same).2).2
  obtain ⟨names, arrows⟩ := eq_of_nameText_append leftLegible.quoted rightLegible.quoted
    (by simp [arrowEnds]) (by simp [arrowEnds]) behindVars
  obtain ⟨leftVar, leftName, leftDirection⟩ := left
  obtain ⟨rightVar, rightName, rightDirection⟩ := right
  have directions : leftDirection = rightDirection ∧ rest = others := by
    cases leftDirection <;> cases rightDirection <;> simp_all [arrowText]
  exact ⟨RelationPattern.mk.injEq .. ▸
    ⟨String.toList_injective vars, names, directions.1⟩, directions.2⟩

end RelationPattern

namespace MatchElement

/-- No variable has punctuation, and no name a backquote. -/
structure IsLegible (element : MatchElement) : Prop where
  vars : ∀ var ∈ element.vars, IsPlain var
  names : ∀ name ∈ element.names, StaysQuoted name

theorem IsLegible.ofNode
    {pattern : NodePattern}
    (legible : (node pattern).IsLegible) :
    pattern.IsLegible where
  plain := legible.vars _ List.mem_cons_self
  quoted := legible.names

theorem IsLegible.ofPath
    {source target : NodePattern}
    {relation : RelationPattern}
    (legible : (path source relation target).IsLegible) :
    source.IsLegible ∧ relation.IsLegible ∧ target.IsLegible := by
  obtain ⟨plain, quoted⟩ := legible
  simp only [MatchElement.vars, MatchElement.names, List.forall_mem_cons,
    List.forall_mem_append] at plain quoted
  obtain ⟨sourcePlain, relationPlain, targetPlain, _⟩ := plain
  obtain ⟨⟨sourceQuoted, relationQuoted⟩, targetQuoted⟩ := quoted
  exact ⟨⟨sourcePlain, sourceQuoted⟩,
    ⟨relationPlain, fun name member => relationQuoted name (Option.mem_toList.2 member)⟩,
    targetPlain, targetQuoted⟩

/-- Legible elements with the same text are the same. -/
theorem IsLegible.eq_of_render_eq
    {left right : MatchElement}
    (leftLegible : left.IsLegible)
    (rightLegible : right.IsLegible)
    (same : left.render = right.render) :
    left = right := by
  have letters := congrArg String.toList same
  cases left with
  | node left =>
      cases right with
      | node right =>
          have nodes : left.render.toList ++ [] = right.render.toList ++ [] := by
            simpa [render] using letters
          obtain ⟨patterns, _⟩ := leftLegible.ofNode.eq_of_render_append rightLegible.ofNode nodes
          exact congrArg node patterns
      | path source relation target =>
          -- Nothing stands behind the node, but a relationship behind the source.
          have sources :
              left.render.toList ++ [] =
                source.render.toList ++ (relation.render ++ target.render).toList := by
            simpa [render] using letters
          obtain ⟨_, nothing⟩ :=
            leftLegible.ofNode.eq_of_render_append rightLegible.ofPath.1 sources
          simp [RelationPattern.toList_render] at nothing
  | path source relation target =>
      obtain ⟨sourceLegible, relationLegible, targetLegible⟩ := leftLegible.ofPath
      cases right with
      | node right =>
          have sources :
              source.render.toList ++ (relation.render ++ target.render).toList =
                right.render.toList ++ [] := by
            simpa [render] using letters
          obtain ⟨_, nothing⟩ := sourceLegible.eq_of_render_append rightLegible.ofNode sources
          simp [RelationPattern.toList_render] at nothing
      | path otherSource otherRelation otherTarget =>
          obtain ⟨otherSourceLegible, otherRelationLegible, otherTargetLegible⟩ :=
            rightLegible.ofPath
          simp only [render, String.toList_append, List.append_assoc] at letters
          obtain ⟨sources, behindSources⟩ :=
            sourceLegible.eq_of_render_append otherSourceLegible letters
          rw [target.toList_render, otherTarget.toList_render] at behindSources
          obtain ⟨relations, behindRelations⟩ :=
            relationLegible.eq_of_render_append otherRelationLegible behindSources
          have targets : target.render.toList ++ [] = otherTarget.render.toList ++ [] := by
            rw [target.toList_render, otherTarget.toList_render, behindRelations]
          rw [sources, relations, (targetLegible.eq_of_render_append otherTargetLegible targets).1]

end MatchElement

/-! ## Variables from labels -/

theorem toNat_of_endsVariable
    {c : Char}
    (ends : endsVariable c = true) :
    c.toNat ∈ [58, 123, 41, 93] := by
  simp only [endsVariable, Bool.or_eq_true, decide_eq_true_eq] at ends
  rcases ends with ((rfl | rfl) | rfl) | rfl <;> decide

/-- Small letters outside ASCII stand behind all punctuation; only the small form of the
Kelvin sign is in ASCII. -/
theorem small_of_mem_table : ∀ run ∈ CaseRun.table,
    125 < run.first + run.shift ∨ run.first = run.last ∧ run.first + run.shift = 107 := by
  decide +kernel

theorem endsVariable_of_covers
    {run : CaseRun}
    (member : run ∈ CaseRun.table)
    {code : Nat}
    (covered : run.covers code = true) :
    endsVariable (Char.ofNat (code + run.shift).toNat) = false := by
  simp only [CaseRun.covers, Bool.and_eq_true, decide_eq_true_eq] at covered
  obtain ⟨⟨atLeast, atMost⟩, _⟩ := covered
  have outside : (code + run.shift).toNat ∉ [58, 123, 41, 93] := by
    simp only [List.mem_cons, List.not_mem_nil, or_false]
    rcases small_of_mem_table run member with above | ⟨single, _⟩ <;> omega
  refine Bool.eq_false_iff.2 fun ends => ?_
  have punctuation := toNat_of_endsVariable ends
  rw [Char.ofNat] at punctuation
  -- A number that is no code point gives the character zero.
  by_cases isCode : (code + run.shift).toNat.isValidChar
  · rw [dif_pos isCode] at punctuation
    exact outside punctuation
  · rw [dif_neg isCode] at punctuation
    exact absurd punctuation (by decide)

theorem endsVariable_lowercase
    {c : Char}
    (plain : endsVariable c = false) :
    ∀ small ∈ lowercase c, endsVariable small = false := by
  have ascii : ∀ code < 128, endsVariable (Char.ofNat code) = false →
      endsVariable (Char.ofNat code).toLower = false := by
    decide +kernel
  intro small member
  unfold lowercase at member
  split at member
  · rename_i isAscii
    rw [List.mem_singleton.1 member, ← Char.ofNat_toNat c]
    exact ascii c.toNat isAscii ((Char.ofNat_toNat c).symm ▸ plain)
  · split at member
    · simp only [List.mem_cons, List.not_mem_nil, or_false] at member
      rcases member with rfl | rfl <;> decide
    · split at member
      · rename_i run found
        rw [List.mem_singleton.1 member]
        have covered := List.find?_some found
        exact endsVariable_of_covers (List.mem_of_find?_eq_some found) covered
      · rw [List.mem_singleton.1 member]
        exact plain

/-- A variable is handed out for a label, after any others. -/
def CanName (label var : String) : Prop :=
  ∃ names, (VariableNames.next label names).1 = var

theorem isPlain_normalize
    {label : String}
    (plain : IsPlain label) :
    IsPlain (VariableNames.normalize label) := by
  intro c member
  unfold VariableNames.normalize at member
  split at member
  · have unnamed : IsPlain "n" := by decide
    exact unnamed c member
  · rw [String.toList_ofList] at member
    obtain ⟨letter, kept, small⟩ := List.mem_flatMap.1 member
    exact endsVariable_lowercase (plain letter (List.mem_filter.1 kept).1) c small

theorem isPlain_repr (number : Nat) : IsPlain (Nat.repr number) := by
  intro c member
  rw [Nat.toList_repr] at member
  have isDigit := Char.isDigit_iff_toNat.1
    (Nat.isDigit_of_mem_toDigits (by decide) (by decide) member)
  have digits : '0'.toNat = 48 ∧ '9'.toNat = 57 := by decide
  refine Bool.eq_false_iff.2 fun ends => ?_
  have punctuation := toNat_of_endsVariable ends
  simp only [List.mem_cons, List.not_mem_nil, or_false] at punctuation
  omega

/-- A plain label gets plain variables. -/
theorem IsPlain.of_canName
    {label var : String}
    (plain : IsPlain label)
    (named : CanName label var) :
    IsPlain var := by
  obtain ⟨names, rfl⟩ := named
  cases stored : KeyedList.lookup? (VariableNames.normalize label) names.counters with
  | none =>
      rw [VariableNames.next, stored]
      exact isPlain_normalize plain
  | some count =>
      rw [VariableNames.next, stored]
      intro c member
      rw [String.toList_append, List.mem_append] at member
      exact member.elim (isPlain_normalize plain c) (isPlain_repr (count + 1) c)

theorem CanName.ne_empty
    {label var : String}
    (named : CanName label var) :
    var ≠ "" := by
  obtain ⟨names, rfl⟩ := named
  have nonempty := VariableNames.normalize_ne_empty label
  cases stored : KeyedList.lookup? (VariableNames.normalize label) names.counters with
  | none => simpa [VariableNames.next, stored] using nonempty
  | some count => simp [VariableNames.next, stored, nonempty]

/-- A text without blanks and capitals is its own variable. -/
theorem canName_self
    {text : String}
    (nonempty : text ≠ "")
    (small : ∀ c ∈ text.toList, c ≠ ' ' ∧ lowercase c = [c]) :
    CanName text text := by
  refine ⟨{}, ?_⟩
  have kept : (text.toList.filter (· ≠ ' ')).flatMap lowercase = text.toList := by
    rw [List.filter_eq_self.2 fun c member => decide_eq_true (small c member).1,
      List.flatMap_congr fun c member => (small c member).2]
    simp
  show VariableNames.normalize text = text
  unfold VariableNames.normalize
  split
  · rename_i isEmpty
    rw [kept] at isEmpty
    exact absurd (String.toList_injective isEmpty) nonempty
  · rw [kept, String.ofList_toList]

namespace MatchElement

/-! ## One text for two elements -/

/-- A path between labelled ends has the text of a single node pattern. -/
theorem exists_label_of_path
    {source target : NodePattern}
    {relation : RelationPattern}
    (sourceLabelled : source.label.isSome)
    (targetLabelled : target.label.isSome) :
    ∃ label, ¬StaysQuoted label ∧
      (node { target with var := source.var, label := some label }).render =
        (path source relation target).render := by
  obtain ⟨first, sourceLabel⟩ := Option.isSome_iff_exists.1 sourceLabelled
  obtain ⟨last, targetLabel⟩ := Option.isSome_iff_exists.1 targetLabelled
  -- The text from the label of the source to that of the target.
  let label := String.ofList (first.toList ++ backquote ::
    (constraintText source.constraint ++ ')' :: (relation.render.toList ++
      '(' :: (target.var.toList ++ ':' :: backquote :: last.toList))))
  refine ⟨label, fun stays => stays (by simp [label]), ?_⟩
  apply String.toList_injective
  simp [label, render, NodePattern.toList_render, NodePattern.behindVar, sourceLabel, targetLabel,
    nameText, toList_quoted]

/-- An element has the text of a single node pattern without a label. -/
theorem exists_var_of_render (element : MatchElement) :
    ∃ var, (node { var }).render = element.render ∧
      ∃ first ∈ element.vars, first.toList <+: var.toList := by
  have enclosed : ∃ inside, element.render.toList = '(' :: (inside ++ [')']) ∧
      ∃ first ∈ element.vars, first.toList <+: inside := by
    cases element with
    | node pattern =>
        refine ⟨pattern.var.toList ++ (nameText pattern.label ++ constraintText pattern.constraint),
          ?_, pattern.var, List.mem_cons_self, List.prefix_append _ _⟩
        simp [render, NodePattern.toList_render, NodePattern.behindVar]
    | path source relation target =>
        refine ⟨source.var.toList ++ (source.behindVar ++ (relation.render.toList ++
          '(' :: (target.var.toList ++
            (nameText target.label ++ constraintText target.constraint)))), ?_,
          source.var, List.mem_cons_self, List.prefix_append _ _⟩
        simp [render, NodePattern.toList_render, NodePattern.behindVar]
  obtain ⟨inside, letters, first, member, opens⟩ := enclosed
  refine ⟨String.ofList inside, String.toList_injective ?_, first, member, ?_⟩
  · rw [letters]
    simp [render, NodePattern.toList_render, NodePattern.behindVar, nameText, constraintText]
  · rwa [String.toList_ofList]

/-- Elements are told apart by their texts if names have no backquotes and variables are
handed out for labels without punctuation.  Beyond that they are not: for every path between
labelled ends a label with a backquote gives its text to a single node pattern, and for every
element in small letters a label with punctuation gives such a pattern its variable. -/
theorem render_told_apart_or_shared (left right : MatchElement) :
    ((∀ element ∈ [left, right], (∀ name ∈ element.names, StaysQuoted name) ∧
        ∀ var ∈ element.vars, ∃ label, IsPlain label ∧ CanName label var) →
          (left.render = right.render ↔ left = right)) ∧
      (∀ source relation target, left = path source relation target →
        source.label.isSome → target.label.isSome →
          ∃ label, ¬StaysQuoted label ∧
            (node { target with var := source.var, label := some label }).render = left.render) ∧
      ((∀ var ∈ left.vars, ∃ label, CanName label var) →
        (∀ c ∈ left.render.toList, c ≠ ' ' ∧ lowercase c = [c]) →
          ∃ label var, CanName label var ∧ (node { var }).render = left.render) := by
  refine ⟨?_, ?_, ?_⟩
  · intro given
    have legible : ∀ element ∈ [left, right], element.IsLegible := fun element member =>
      { names := (given element member).1
        vars := fun var used => by
          obtain ⟨label, plain, named⟩ := (given element member).2 var used
          exact plain.of_canName named }
    refine ⟨fun same => ?_, fun same => same ▸ rfl⟩
    exact (legible left (by simp)).eq_of_render_eq (legible right (by simp)) same
  · rintro source relation target rfl
    exact exists_label_of_path
  · intro named small
    obtain ⟨var, sameText, first, member, opens⟩ := left.exists_var_of_render
    obtain ⟨label, firstNamed⟩ := named first member
    refine ⟨var, var, canName_self ?_ ?_, sameText⟩
    · rintro rfl
      exact firstNamed.ne_empty (String.toList_injective (List.prefix_nil.1 opens))
    · intro c inside
      refine small c ?_
      rw [← sameText, render, NodePattern.toList_render]
      exact List.mem_cons_of_mem _ (List.mem_append_left _ inside)

/-- A path is told apart from its source, but shares its text with a single node whose
label has a backquote; a path in small letters shares it with a node without a label. -/
theorem render_told_apart_or_shared_owns :
    let account : NodePattern := { var := "account", label := some "Account" }
    let contact : NodePattern := { var := "contact", label := some "Contact" }
    let owns := path account { var := "r0", name := some "OWNS", direction := .out } contact
    let small := path { var := "a", label := some "a" }
      { var := "r0", name := some "owns", direction := .both } { var := "b", label := some "b" }
    (owns.render = (node account).render ↔ owns = node account) ∧
      (∃ label, ¬StaysQuoted label ∧
        (node { contact with var := "account", label := some label }).render = owns.render) ∧
      ∃ label var, CanName label var ∧ (node { var }).render = small.render := by
  intro account contact owns small
  have apart : ∀ element ∈ [owns, node account], (∀ name ∈ element.names, StaysQuoted name) ∧
      ∀ var ∈ element.vars, ∃ label, IsPlain label ∧ CanName label var := by
    have named : ∀ var ∈ ["account", "r0", "contact"],
        ∃ label, IsPlain label ∧ CanName label var := by
      simp only [List.forall_mem_cons, List.not_mem_nil, false_implies, implies_true, and_true]
      exact ⟨⟨"Account", by decide, {}, by decide⟩, ⟨"r0", by decide, {}, by decide⟩,
        ⟨"Contact", by decide, {}, by decide⟩⟩
    simp only [List.forall_mem_cons, List.not_mem_nil, false_implies, implies_true, and_true]
    exact ⟨⟨by decide, named⟩, by decide, fun var used => named var (by
      rw [List.mem_singleton.1 used]
      exact List.mem_cons_self)⟩
  have smallNamed : ∀ var ∈ small.vars, ∃ label, CanName label var := by
    simp only [small, vars, List.forall_mem_cons, List.not_mem_nil, false_implies, implies_true,
      and_true]
    exact ⟨⟨"A", {}, by decide⟩, ⟨"R0", {}, by decide⟩, ⟨"B", {}, by decide⟩⟩
  have letters : small.render.toList.all (fun c => c ≠ ' ' ∧ lowercase c = [c]) = true := by
    decide +kernel
  obtain ⟨toldApart, shared, _⟩ := render_told_apart_or_shared owns (node account)
  obtain ⟨_, _, sharedByVar⟩ := render_told_apart_or_shared small small
  exact ⟨toldApart apart, shared account _ contact rfl rfl rfl,
    sharedByVar smallNamed fun c member =>
      of_decide_eq_true (List.all_eq_true.1 letters c member)⟩

end MatchElement

end Cypher
end VisualQuery
