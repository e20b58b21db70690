import VisualQuery.Proofs.Session.Trace
import Mathlib.Data.List.Induction
import Mathlib.Data.List.Nodup

/-!
# One listing at a time

A request for values is pending from the moment it is handed out until its
response is handed in or the graph is started over.  The flag of a session and
its pending token say which request that is, so a response is taken exactly
while its request is pending: once at most, and never for a graph that came
after the one it was asked for.
-/

namespace VisualQuery

variable
  {log before since : List ListingEvent}
  {event last : ListingEvent}
  {request : ValueRequest}

/-! ## Pending requests -/

namespace ListingEvent

/-- Whether an event ends the listing with a token: starting over ends any,
a response the one whose token it carries. -/
def Ends (token : Nat) : ListingEvent → Prop
  | .issued _ => False
  | .completed request _ => request.token = token
  | .restarted => True

/-- The request that an event hands out. -/
def issued? : ListingEvent → Option ValueRequest
  | .issued request => some request
  | .completed _ _ | .restarted => none

/-- The token of a response that is taken, which is any answer other than that
the response is stale. -/
def taken? : ListingEvent → Option Nat
  | .completed _ (.error (.staleResponse _)) => none
  | .completed request _ => some request.token
  | .issued _ | .restarted => none

end ListingEvent

/-- The requests handed out, in order. -/
def issuedRequests (log : List ListingEvent) : List ValueRequest :=
  log.filterMap ListingEvent.issued?

/-- The tokens of the responses taken, in order. -/
def takenTokens (log : List ListingEvent) : List Nat :=
  log.filterMap ListingEvent.taken?

@[simp] theorem issuedRequests_append (first second : List ListingEvent) :
    issuedRequests (first ++ second) = issuedRequests first ++ issuedRequests second :=
  List.filterMap_append

@[simp] theorem issuedRequests_nil : issuedRequests [] = [] := rfl

@[simp] theorem issuedRequests_issued (request : ValueRequest) (log : List ListingEvent) :
    issuedRequests (.issued request :: log) = request :: issuedRequests log := rfl

@[simp] theorem issuedRequests_completed
    (request : ValueRequest)
    (answer : Except QueryError (List NodeId))
    (log : List ListingEvent) :
    issuedRequests (.completed request answer :: log) = issuedRequests log := rfl

@[simp] theorem issuedRequests_restarted (log : List ListingEvent) :
    issuedRequests (.restarted :: log) = issuedRequests log := rfl

@[simp] theorem takenTokens_append (first second : List ListingEvent) :
    takenTokens (first ++ second) = takenTokens first ++ takenTokens second :=
  List.filterMap_append

@[simp] theorem takenTokens_nil : takenTokens [] = [] := rfl

@[simp] theorem takenTokens_issued (request : ValueRequest) (log : List ListingEvent) :
    takenTokens (.issued request :: log) = takenTokens log := rfl

@[simp] theorem takenTokens_stale
    (request : ValueRequest)
    (token : Nat)
    (log : List ListingEvent) :
    takenTokens (.completed request (.error (.staleResponse token)) :: log) =
      takenTokens log := rfl

@[simp] theorem takenTokens_restarted (log : List ListingEvent) :
    takenTokens (.restarted :: log) = takenTokens log := rfl

theorem takenTokens_of_neverStale
    {answer : Except QueryError (List NodeId)}
    (notStale : NeverStale answer) :
    takenTokens [.completed request answer] = [request.token] := by
  cases answer with
  | ok values => rfl
  | error error =>
      cases error with
      | staleResponse token => exact absurd rfl (notStale token)
      | _ => rfl

/-- A request was handed out and nothing has ended its listing since. -/
def Pending (log : List ListingEvent) (request : ValueRequest) : Prop :=
  ∃ before since, log = before ++ .issued request :: since ∧
    ∀ event ∈ since, ¬ event.Ends request.token

/-- A place in a log with something behind it is the last one or an earlier
one. -/
theorem split_concat
    (split : log ++ [last] = before ++ event :: since) :
    before = log ∧ event = last ∧ since = [] ∨
      ∃ rest, since = rest ++ [last] ∧ log = before ++ event :: rest := by
  rcases List.eq_nil_or_concat since with rfl | ⟨rest, final, rfl⟩
  · have parts := List.append_inj' split rfl
    simp only [List.cons.injEq, and_true] at parts
    exact Or.inl ⟨parts.1.symm, parts.2.symm, rfl⟩
  · rw [List.concat_eq_append, ← List.cons_append, ← List.append_assoc] at split
    have parts := List.append_inj' split rfl
    simp only [List.cons.injEq, and_true] at parts
    exact Or.inr ⟨rest, by rw [List.concat_eq_append, parts.2], parts.1⟩

theorem not_pending_nil (request : ValueRequest) : ¬ Pending [] request := by
  rintro ⟨before, since, split, _⟩
  simp at split

/-- After one more event a request is pending if it was handed out just now, or
was pending before and has not been ended. -/
theorem pending_concat :
    Pending (log ++ [last]) request ↔
      last = .issued request ∨ Pending log request ∧ ¬ last.Ends request.token := by
  constructor
  · rintro ⟨before, since, split, open_⟩
    rcases split_concat split with ⟨_, same, _⟩ | ⟨rest, rfl, earlier⟩
    · exact Or.inl same.symm
    · simp only [List.mem_append, List.mem_singleton] at open_
      exact Or.inr ⟨⟨before, rest, earlier, fun event member => open_ event (Or.inl member)⟩,
        open_ last (Or.inr rfl)⟩
  · rintro (rfl | ⟨⟨before, since, rfl, open_⟩, notEnded⟩)
    · exact ⟨log, [], rfl, by simp⟩
    · refine ⟨before, since ++ [last], by simp, ?_⟩
      intro event member
      rcases List.mem_append.1 member with earlier | new
      · exact open_ event earlier
      · rw [List.mem_singleton.1 new]
        exact notEnded

theorem Pending.issued (pending : Pending log request) : request ∈ issuedRequests log := by
  obtain ⟨before, since, rfl, _⟩ := pending
  simp

/-- What is pending after a restart was handed out after it. -/
theorem Pending.issued_since
    (pending : Pending (before ++ .restarted :: since) request) :
    request ∈ issuedRequests since := by
  induction since using List.reverseRecOn with
  | nil =>
      rcases pending_concat.1 pending with same | ⟨_, notEnded⟩
      · cases same
      · exact absurd trivial notEnded
  | append_singleton since last inductionHypothesis =>
      rw [← List.cons_append, ← List.append_assoc] at pending
      rcases pending_concat.1 pending with rfl | ⟨earlier, _⟩
      · simp
      · simp [inductionHypothesis earlier]

namespace ListingEvent

/-- An event fits what was recorded before it: nothing is handed out while a
request is pending, and exactly the response to the pending request is taken. -/
def Fits (before : List ListingEvent) : ListingEvent → Prop
  | .issued _ => ∀ other, ¬ Pending before other
  | .completed request answer =>
    NeverStale answer ↔ ∃ pending, Pending before pending ∧ pending.token = request.token
  | .restarted => True

theorem exists_of_taken?
    {token : Nat}
    (taken : event.taken? = some token) :
    ∃ request answer, event = .completed request answer ∧ request.token = token ∧
      NeverStale answer := by
  cases event with
  | issued request => cases taken
  | restarted => cases taken
  | completed request answer =>
      refine ⟨request, answer, rfl, ?_⟩
      cases answer with
      | ok values => exact ⟨Option.some.inj taken, NeverStale.ok values⟩
      | error error =>
          cases error with
          | staleResponse token => cases taken
          | _ => exact ⟨Option.some.inj taken, NeverStale.error (by simp)⟩

end ListingEvent

namespace Session

variable {first session : Session}

/-! ## The books agree with what was recorded -/

/-- Flag, pending token and last token of a session agree with a log. -/
structure Tracked (log : List ListingEvent) (session : Session) : Prop where
  flag : session.waiting = session.pendingValue.isSome
  pending_iff :
    ∀ token, session.pendingValue = some token ↔
      ∃ request, Pending log request ∧ request.token = token
  issuedBelow : ∀ request ∈ issuedRequests log, request.token ≤ session.lastToken
  issuedOnce : ((issuedRequests log).map ValueRequest.token).Nodup
  takenIssued :
    ∀ token ∈ takenTokens log, token ∈ (issuedRequests log).map ValueRequest.token
  takenOnce : (takenTokens log).Nodup
  pendingUntaken : ∀ request, Pending log request → request.token ∉ takenTokens log
  fits :
    ∀ before event since, log = before ++ event :: since → event.Fits before

namespace Tracked

theorem nil (free : session.waiting = false) (unasked : session.pendingValue = none) :
    Tracked [] session where
  flag := by rw [free, unasked]; rfl
  pending_iff := by simp [unasked, not_pending_nil]
  issuedBelow := by simp [issuedRequests]
  issuedOnce := List.nodup_nil
  takenIssued := by simp [takenTokens]
  takenOnce := List.nodup_nil
  pendingUntaken := by simp [takenTokens]
  fits := by simp

/-- A free session has no pending request. -/
theorem not_pending
    (tracked : Tracked log session)
    (free : session.waiting = false)
    (request : ValueRequest) :
    ¬ Pending log request := by
  intro pending
  have asked := (tracked.pending_iff request.token).2 ⟨request, pending, rfl⟩
  have flag := tracked.flag
  rw [free, asked] at flag
  cases flag

theorem fits_concat
    (tracked : Tracked log session)
    (fits : last.Fits log) :
    ∀ before event since, log ++ [last] = before ++ event :: since → event.Fits before := by
  intro before event since split
  rcases split_concat split with ⟨rfl, rfl, _⟩ | ⟨rest, _, earlier⟩
  · exact fits
  · exact tracked.fits before event rest earlier

theorem changed
    (tracked : Tracked log session)
    (graph : QueryGraph) :
    Tracked log { session with graph } :=
  ⟨tracked.flag, tracked.pending_iff, tracked.issuedBelow, tracked.issuedOnce,
    tracked.takenIssued, tracked.takenOnce, tracked.pendingUntaken, tracked.fits⟩

theorem restarted
    (tracked : Tracked log session)
    (graph : QueryGraph) :
    Tracked (log ++ [.restarted]) { session.abandonRequests with graph } where
  flag := rfl
  pending_iff := by simp [abandonRequests, pending_concat, ListingEvent.Ends]
  issuedBelow := by
    intro request member
    rw [issuedRequests_append, issuedRequests_restarted, issuedRequests_nil,
      List.append_nil] at member
    exact tracked.issuedBelow request member
  issuedOnce := by simpa using tracked.issuedOnce
  takenIssued := by simpa using tracked.takenIssued
  takenOnce := by simpa using tracked.takenOnce
  pendingUntaken := by simp [pending_concat, ListingEvent.Ends]
  fits := tracked.fits_concat trivial

/-- No request carries a token that was not handed out yet. -/
theorem token_fresh
    (tracked : Tracked log session)
    (next : request.token = session.lastToken + 1) :
    request.token ∉ (issuedRequests log).map ValueRequest.token := by
  intro member
  obtain ⟨other, issued, same⟩ := List.mem_map.1 member
  have below := tracked.issuedBelow other issued
  omega

theorem issued
    (tracked : Tracked log session)
    (graph : QueryGraph)
    (free : session.waiting = false)
    (next : request.token = session.lastToken + 1) :
    Tracked (log ++ [.issued request])
      { session with
        graph, waiting := true, pendingValue := some request.token
        lastToken := request.token } where
  flag := rfl
  pending_iff := by simp [pending_concat, tracked.not_pending free]
  issuedBelow := by
    intro other member
    rw [issuedRequests_append, issuedRequests_issued, issuedRequests_nil, List.mem_append,
      List.mem_singleton] at member
    show other.token ≤ request.token
    rcases member with earlier | rfl
    · have below := tracked.issuedBelow other earlier
      omega
    · exact Nat.le_refl _
  issuedOnce := by
    rw [issuedRequests_append, issuedRequests_issued, issuedRequests_nil, List.map_append]
    refine tracked.issuedOnce.append (List.nodup_singleton _) ?_
    simpa using tracked.token_fresh next
  takenIssued := by
    intro token member
    rw [takenTokens_append, takenTokens_issued, takenTokens_nil, List.append_nil] at member
    simp [tracked.takenIssued token member]
  takenOnce := by simpa using tracked.takenOnce
  pendingUntaken := by
    intro other pending
    rcases pending_concat.1 pending with same | ⟨earlier, _⟩
    · injection same with same
      rw [takenTokens_append, takenTokens_issued, takenTokens_nil, List.append_nil, ← same]
      exact fun member => tracked.token_fresh next (tracked.takenIssued _ member)
    · exact absurd earlier (tracked.not_pending free other)
  fits := tracked.fits_concat (tracked.not_pending free)

theorem taken
    {answer : Except QueryError (List NodeId)}
    (tracked : Tracked log session)
    (graph : QueryGraph)
    (pending : session.pendingValue = some request.token)
    (notStale : NeverStale answer) :
    Tracked (log ++ [.completed request answer])
      { session with graph, waiting := false, pendingValue := none } := by
  have current := (tracked.pending_iff request.token).1 pending
  -- The pending request has the token of the response, which ends its listing.
  have nonePending (other : ValueRequest) :
      ¬ Pending (log ++ [.completed request answer]) other := by
    intro still
    rcases pending_concat.1 still with same | ⟨earlier, notEnded⟩
    · cases same
    · have asked := (tracked.pending_iff other.token).2 ⟨other, earlier, rfl⟩
      rw [pending] at asked
      exact notEnded (Option.some.inj asked)
  have noneTaken : request.token ∉ takenTokens log := by
    obtain ⟨other, otherPending, same⟩ := current
    rw [← same]
    exact tracked.pendingUntaken other otherPending
  constructor
  · rfl
  · simp [nonePending]
  · simpa using tracked.issuedBelow
  · simpa using tracked.issuedOnce
  · intro token member
    rw [takenTokens_append, takenTokens_of_neverStale notStale, List.mem_append,
      List.mem_singleton] at member
    rw [issuedRequests_append, issuedRequests_completed, issuedRequests_nil, List.append_nil]
    rcases member with earlier | rfl
    · exact tracked.takenIssued token earlier
    · obtain ⟨other, otherPending, same⟩ := current
      exact List.mem_map.2 ⟨other, otherPending.issued, same⟩
  · rw [takenTokens_append, takenTokens_of_neverStale notStale]
    refine tracked.takenOnce.append (List.nodup_singleton _) ?_
    simpa using noneTaken
  · intro other still
    exact absurd still (nonePending other)
  · exact tracked.fits_concat ⟨fun _ => current, fun _ => notStale⟩

theorem refused
    (tracked : Tracked log session)
    (stale : session.pendingValue ≠ some request.token) :
    Tracked (log ++ [.completed request (.error (.staleResponse request.token))]) session := by
  have pending_iff (other : ValueRequest) :
      Pending (log ++ [.completed request (.error (.staleResponse request.token))]) other ↔
        Pending log other := by
    rw [pending_concat]
    constructor
    · rintro (same | ⟨earlier, _⟩)
      · cases same
      · exact earlier
    · intro earlier
      refine Or.inr ⟨earlier, ?_⟩
      intro same
      exact stale ((tracked.pending_iff request.token).2 ⟨other, earlier, same.symm⟩)
  constructor
  · exact tracked.flag
  · simpa only [pending_iff] using tracked.pending_iff
  · simpa using tracked.issuedBelow
  · simpa using tracked.issuedOnce
  · simpa using tracked.takenIssued
  · simpa using tracked.takenOnce
  · simpa [pending_iff] using tracked.pendingUntaken
  · refine tracked.fits_concat ⟨fun notStale => absurd rfl (notStale request.token), ?_⟩
    intro current
    exact absurd ((tracked.pending_iff request.token).2 current) stale

end Tracked

/-- A trace from a session with nothing under way keeps the books in order. -/
theorem Traced.tracked
    (traced : Traced first log session)
    (free : first.waiting = false)
    (unasked : first.pendingValue = none) :
    Tracked log session := by
  induction traced with
  | here => exact Tracked.nil free unasked
  | changed _ graph inductionHypothesis => exact inductionHypothesis.changed graph
  | restarted _ graph inductionHypothesis => exact inductionHypothesis.restarted graph
  | issued _ graph free next inductionHypothesis =>
      exact inductionHypothesis.issued graph free next
  | taken _ graph pending notStale inductionHypothesis =>
      exact inductionHypothesis.taken graph pending notStale
  | refused _ stale inductionHypothesis => exact inductionHypothesis.refused stale

/-! ## The protocol -/

/-- Listings of a session are under way one at a time: what a log of listings
and the session after it promise. -/
structure OneAtATime (log : List ListingEvent) (session : Session) : Prop where
  /-- The session waits exactly while a request is pending. -/
  waiting_iff : session.waiting = true ↔ ∃ request, Pending log request
  /-- At most one request is pending. -/
  pendingUnique : ∀ left right, Pending log left → Pending log right → left = right
  /-- No two requests were handed out under one token. -/
  issuedOnce : ((issuedRequests log).map ValueRequest.token).Nodup
  /-- No request was handed out while another one was pending. -/
  issuedAlone :
    ∀ before request since, log = before ++ .issued request :: since →
      ∀ other, ¬ Pending before other
  /-- While a request is pending, asking for another one changes nothing. -/
  heldBack :
    ∀ request, Pending log request → ∀ id, ∃ outcome,
      Step.perform (beginValues id) session = (outcome, session) ∧
        ∀ other, outcome ≠ .ok (some other)
  /-- The response to a request that is not pending any more is refused, and
  nothing changes. -/
  refused :
    ∀ request ∈ issuedRequests log, ¬ Pending log request → ∀ outcome,
      Step.perform (completeValues request outcome) session =
        (.error (.staleResponse request.token), session)
  /-- The response to the pending request is taken, and ends the waiting
  whatever it is. -/
  accepted :
    ∀ request, Pending log request → ∀ outcome,
      NeverStale (Step.perform (completeValues request outcome) session).1 ∧
        (Step.after (completeValues request outcome) session).waiting = false
  /-- No request had its response taken twice. -/
  takenOnce : (takenTokens log).Nodup
  /-- A response was taken only while its request was pending. -/
  takenPending :
    ∀ before request answer since, log = before ++ .completed request answer :: since →
      NeverStale answer → ∃ pending, Pending before pending ∧ pending.token = request.token
  /-- No request handed out before a restart had its response taken after it. -/
  takenBeforeRestart :
    ∀ before since, log = before ++ .restarted :: since →
      ∀ request ∈ issuedRequests before, request.token ∉ takenTokens since

namespace Tracked

/-- The token tells requests apart. -/
theorem eq_of_token_eq
    (tracked : Tracked log session)
    {left right : ValueRequest}
    (leftIssued : left ∈ issuedRequests log)
    (rightIssued : right ∈ issuedRequests log)
    (same : left.token = right.token) :
    left = right :=
  List.inj_on_of_nodup_map tracked.issuedOnce leftIssued rightIssued same

theorem pendingValue_of_pending
    (tracked : Tracked log session)
    (pending : Pending log request) :
    session.pendingValue = some request.token :=
  (tracked.pending_iff request.token).2 ⟨request, pending, rfl⟩

theorem waiting_iff (tracked : Tracked log session) :
    session.waiting = true ↔ ∃ request, Pending log request := by
  rw [tracked.flag, Option.isSome_iff_exists]
  constructor
  · rintro ⟨token, asked⟩
    obtain ⟨request, pending, _⟩ := (tracked.pending_iff token).1 asked
    exact ⟨request, pending⟩
  · rintro ⟨request, pending⟩
    exact ⟨request.token, tracked.pendingValue_of_pending pending⟩

/-- A response taken after a restart is to a request handed out after it. -/
theorem not_taken_after_restart
    (tracked : Tracked log session)
    (split : log = before ++ .restarted :: since)
    (issued : request ∈ issuedRequests before) :
    request.token ∉ takenTokens since := by
  intro member
  obtain ⟨event, eventMember, taken⟩ := List.mem_filterMap.1 member
  obtain ⟨other, answer, rfl, sameToken, notStale⟩ := ListingEvent.exists_of_taken? taken
  obtain ⟨between, later, rfl⟩ := List.append_of_mem eventMember
  have fits := tracked.fits (before ++ .restarted :: between) (.completed other answer) later
    (by rw [split]; simp)
  obtain ⟨pending, stillPending, pendingToken⟩ := fits.1 notStale
  have distinct := tracked.issuedOnce
  rw [split, issuedRequests_append, issuedRequests_restarted, List.map_append] at distinct
  apply List.disjoint_of_nodup_append distinct (List.mem_map.2 ⟨request, issued, rfl⟩)
  refine List.mem_map.2 ⟨pending, ?_, pendingToken.trans sameToken⟩
  rw [issuedRequests_append]
  exact List.mem_append_left _ stillPending.issued_since

/-- Books in order keep listings apart. -/
theorem oneAtATime (tracked : Tracked log session) : OneAtATime log session where
  waiting_iff := tracked.waiting_iff
  pendingUnique := by
    intro left right leftPending rightPending
    apply tracked.eq_of_token_eq leftPending.issued rightPending.issued
    have leftAsked := tracked.pendingValue_of_pending leftPending
    rw [tracked.pendingValue_of_pending rightPending] at leftAsked
    exact (Option.some.inj leftAsked).symm
  issuedOnce := tracked.issuedOnce
  issuedAlone := by
    intro before request since split
    exact tracked.fits before (.issued request) since split
  heldBack := by
    intro request pending id
    exact beginValues_waiting (tracked.waiting_iff.2 ⟨request, pending⟩) id
  refused := by
    intro request issued notPending outcome
    apply completeValues_stale
    intro asked
    obtain ⟨other, pending, same⟩ := (tracked.pending_iff request.token).1 asked
    rw [tracked.eq_of_token_eq pending.issued issued same] at pending
    exact notPending pending
  accepted := by
    intro request pending outcome
    obtain ⟨answer, graph, performed, notStale⟩ :=
      completeValues_pending (tracked.pendingValue_of_pending pending) outcome
    rw [Step.after, performed]
    exact ⟨notStale, rfl⟩
  takenOnce := tracked.takenOnce
  takenPending := by
    intro before request answer since split notStale
    exact (tracked.fits before (.completed request answer) since split).1 notStale
  takenBeforeRestart := by
    intro before since split request issued
    exact tracked.not_taken_after_restart split issued

end Tracked

/-- Whatever calls a new session receives, in whatever order, with whatever
responses, its listings are under way one at a time. -/
theorem listings_oneAtATime
    (metadata : LabelMetadata)
    (options : QueryOptions)
    (calls : List SessionCall) :
    OneAtATime (SessionCall.log calls (.new metadata options))
      (SessionCall.run calls (.new metadata options)) :=
  ((traced_run calls (.new metadata options)).tracked rfl rfl).oneAtATime

end Session
end VisualQuery
