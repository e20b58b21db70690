import VisualQuery.Proofs.Graph.Persistence
import VisualQuery.Proofs.Session.Operations

/-!
# Sessions that edit

A caller may change the graph of a session by edits of every kind.  The graph then
stays well-formed, and it lives on until it is started over.
-/

namespace VisualQuery

namespace QueryGraph

/-- One graph becomes another by edits. -/
def Edited (before after : QueryGraph) : Prop :=
  ∃ edits, after = GraphEdit.run edits before

/-- One graph becomes another by edits, and none of them starts over. -/
def CarriedOn (before after : QueryGraph) : Prop :=
  ∃ edits : List GraphEdit,
    (∀ edit ∈ edits, edit.restarts = false) ∧ after = GraphEdit.run edits before

end QueryGraph

namespace SessionCall

open QueryGraph

/-- A call edits: the caller's own changes of the graph are edits. -/
def Edits : SessionCall → Session → Prop
  | .editGraph edit, session => session.graph.Edited (edit session.graph)
  | _, _ => True

/-- Every call of a sequence edits the session it finds. -/
def Editing : List SessionCall → Session → Prop
  | [], _ => True
  | call :: rest, session => call.Edits session ∧ Editing rest (call.apply session)

/-- A call carries on: it does not start over, and neither do the edits that the
caller makes of the graph. -/
def CarriesOn : SessionCall → Session → Prop
  | .start _, _ | .loadSchema _, _ => False
  | .editGraph edit, session => session.graph.CarriedOn (edit session.graph)
  | _, _ => True

/-- Every call of a sequence carries on with the session it finds. -/
def CarryingOn : List SessionCall → Session → Prop
  | [], _ => True
  | call :: rest, session => call.CarriesOn session ∧ CarryingOn rest (call.apply session)

/-- An operation lets the graph live on. -/
theorem apply_livesOn
    (call : SessionCall)
    (operates : call.isOperation = true)
    (session : Session) :
    session.graph.LivesOn (call.apply session).graph := by
  have routine : GraphEdit.RoutineIn LivesOn := by
    intro edit graph isRoutine
    apply GraphEdit.apply_livesOn edit graph
    cases edit <;> first | rfl | cases isRoutine
  have expands : GraphEdit.ExpandsIn LivesOn := fun _ _ _ _ graph =>
    GraphEdit.apply_livesOn _ graph rfl
  exact apply_follows (Session.admits_of_routine routine) (Session.follows_addFarEnd expands) call
    operates session

theorem apply_wellFormed
    (call : SessionCall)
    {session : Session}
    (wellFormed : session.graph.WellFormed)
    (edits : call.Edits session) :
    (call.apply session).graph.WellFormed := by
  by_cases operates : call.isOperation = true
  · exact (apply_livesOn call operates session wellFormed).1
  · cases call with
    | start label => exact GraphEdit.apply_wellFormed (.reset label) session.graph wellFormed
    | loadSchema schema => exact GraphEdit.apply_wellFormed (.addSchema schema) _ wellFormed_empty
    | editGraph edit =>
        obtain ⟨changes, same⟩ := edits
        show (edit session.graph).WellFormed
        rw [same]
        exact GraphEdit.run_keeps GraphEdit.apply_wellFormed changes wellFormed
    | _ => exact absurd rfl operates

/-- The graph of a session whose caller changes it by edits is well-formed. -/
theorem run_wellFormed
    (calls : List SessionCall)
    {session : Session}
    (wellFormed : session.graph.WellFormed)
    (editing : Editing calls session) :
    (run calls session).graph.WellFormed := by
  induction calls generalizing session with
  | nil => exact wellFormed
  | cons call rest inductionHypothesis =>
      exact inductionHypothesis (apply_wellFormed call wellFormed editing.1) editing.2

/-- Until a session is started over its graph lives on. -/
theorem run_livesOn
    (calls : List SessionCall)
    {session : Session}
    (carryingOn : CarryingOn calls session) :
    session.graph.LivesOn (run calls session).graph := by
  induction calls generalizing session with
  | nil => exact refl_of LivesOn session.graph
  | cons call rest inductionHypothesis =>
      refine trans_of LivesOn ?_ (inductionHypothesis carryingOn.2)
      by_cases operates : call.isOperation = true
      · exact apply_livesOn call operates session
      · cases call with
        | start label => exact carryingOn.1.elim
        | loadSchema schema => exact carryingOn.1.elim
        | editGraph edit =>
            obtain ⟨changes, steady, same⟩ := carryingOn.1
            show session.graph.LivesOn (edit session.graph)
            rw [same]
            exact GraphEdit.run_livesOn changes session.graph steady
        | _ => exact absurd rfl operates

/-- Nor does its generation change. -/
theorem generation_of_carryingOn
    (calls : List SessionCall)
    {session : Session}
    (carryingOn : CarryingOn calls session) :
    (run calls session).generation = session.generation := by
  rw [Session.generation_run, Nat.add_eq_left, List.countP_eq_zero]
  induction calls generalizing session with
  | nil => simp
  | cons call rest inductionHypothesis =>
      intro other member
      rcases List.mem_cons.1 member with rfl | later
      · cases other <;> first | exact carryingOn.1.elim | simp [restarts]
      · exact inductionHypothesis carryingOn.2 other later

end SessionCall
end VisualQuery
