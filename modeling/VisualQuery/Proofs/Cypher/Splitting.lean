import Mathlib.Data.List.Infix
import Mathlib.Data.List.Sublists
import VisualQuery.Cypher.Clauses
import VisualQuery.Cypher.Render

/-!
# Cutting a statement where it was joined

A statement is joined from fragments by commas, by `AND` and by blanks, and cut
again in front of clause keywords.  If no fragment has a place to cut, neither
inside nor at its ends with a blank there, then the pieces are the clauses: where
fragments meet no keyword arises.
-/

namespace VisualQuery
namespace Cypher

open ScanState

variable {state : ScanState} {text first second rest back : List Char}

/-! ## Scanning -/

theorem scan_append (state : ScanState) (first second : List Char) :
    state.scan (first ++ second) = (state.scan first).scan second :=
  List.foldl_append

theorem isNeutral_iff : state.isNeutral = true ↔ state = {} := by
  obtain ⟨depth, quote⟩ := state
  simp [isNeutral]

/-! ## Places to cut -/

/-- A text with some text behind it has no place to cut: no blank of it outside
quotes and brackets stands in front of a clause keyword. -/
def Uncut (state : ScanState) (text rest : List Char) : Prop :=
  ∀ front back, text = front ++ ' ' :: back → (state.scan front).isNeutral = true →
    startsClause (back ++ rest) = false

theorem uncut_nil (state : ScanState) (rest : List Char) : Uncut state [] rest := by
  intro front back split
  simp at split

theorem uncut_cons {c : Char} :
    Uncut state (c :: text) rest ↔
      (c = ' ' → state.isNeutral = true → startsClause (text ++ rest) = false) ∧
        Uncut (state.advance c) text rest := by
  constructor
  · intro uncut
    refine ⟨?_, ?_⟩
    · rintro rfl neutral
      exact uncut [] text rfl neutral
    · rintro front back rfl
      exact uncut (c :: front) back rfl
  · rintro ⟨atFirst, later⟩ front back split
    cases front with
    | nil =>
        obtain ⟨rfl, rfl⟩ := List.cons_eq_cons.1 split
        exact atFirst rfl
    | cons head front =>
        obtain ⟨rfl, rfl⟩ := List.cons_eq_cons.1 split
        exact later front back rfl

instance (state : ScanState) (text rest : List Char) : Decidable (Uncut state text rest) :=
  match text with
  | [] => .isTrue (uncut_nil state rest)
  | c :: text =>
    have : Decidable (Uncut (state.advance c) text rest) :=
      instDecidableUncut (state.advance c) text rest
    decidable_of_iff _ uncut_cons.symm

theorem uncut_append :
    Uncut state (first ++ second) rest ↔
      Uncut state first (second ++ rest) ∧ Uncut (state.scan first) second rest := by
  induction first generalizing state with
  | nil => simp [uncut_nil, scan]
  | cons c first inductionHypothesis =>
      rw [List.cons_append, uncut_cons, uncut_cons, inductionHypothesis, List.append_assoc,
        and_assoc]
      rfl

/-- A text without a place to cut becomes the front of the first piece. -/
theorem clausesFrom_append
    (uncut : Uncut state text rest) :
    clausesFrom state (text ++ rest) =
      text.foldr consFirst (clausesFrom (state.scan text) rest) := by
  induction text generalizing state with
  | nil => rfl
  | cons c text inductionHypothesis =>
      obtain ⟨atFirst, later⟩ := uncut_cons.1 uncut
      have kept : ¬ (c = ' ' ∧ state.isNeutral ∧ startsClause (text ++ rest)) := by
        rintro ⟨isBlank, neutral, opens⟩
        rw [atFirst isBlank neutral] at opens
        cases opens
      rw [List.cons_append, clausesFrom, if_neg kept, inductionHypothesis later]
      rfl

theorem foldr_consFirst (text first : List Char) (pieces : List (List Char)) :
    text.foldr consFirst (first :: pieces) = (text ++ first) :: pieces := by
  induction text with
  | nil => rfl
  | cons c text inductionHypothesis =>
      rw [List.foldr_cons, inductionHypothesis]
      rfl

/-! ## What may stand behind a fragment -/

/-- Nothing, a comma, or a blank that does not lead on to `BY`. -/
def Ends (rest : List Char) : Prop :=
  rest.head? = none ∨ rest.head? = some ',' ∨ rest.head? = some ' ' ∧ rest.tail.head? ≠ some 'B'

/-- Of what ends a keyword, nothing starts with a comma, and what starts with a
blank is the blank alone or leads on to `BY`. -/
theorem head?_of_suffix
    {keyword more : List Char}
    (member : keyword ∈ clauseKeywords)
    (isSuffix : more <:+ keyword) :
    more.head? ≠ some ',' ∧
      (more.head? = some ' ' → more = [' '] ∨ more.tail.head? = some 'B') := by
  have all : ∀ keyword ∈ clauseKeywords, ∀ more ∈ keyword.tails,
      more.head? ≠ some ',' ∧
        (more.head? = some ' ' → more = [' '] ∨ more.tail.head? = some 'B') := by
    decide +kernel
  exact all keyword member more ((List.mem_tails more keyword).2 isSuffix)

theorem startsClause_iff :
    startsClause text = true ↔ ∃ keyword ∈ clauseKeywords, keyword <+: text := by
  simp [startsClause, List.isPrefixOf_iff_prefix]

theorem startsClause_append (opens : startsClause text = true) (rest : List Char) :
    startsClause (text ++ rest) = true := by
  obtain ⟨keyword, member, isPrefix⟩ := startsClause_iff.1 opens
  exact startsClause_iff.2 ⟨keyword, member, isPrefix.trans (List.prefix_append text rest)⟩

/-- Where a text with a blank behind it starts no clause, it starts none with what
may stand there. -/
theorem Ends.startsClause_eq_false
    (ends : Ends rest)
    (starts : startsClause (back ++ [' ']) = false) :
    startsClause (back ++ rest) = false := by
  rw [← Bool.not_eq_true] at starts ⊢
  intro opens
  apply starts
  obtain ⟨keyword, member, isPrefix⟩ := startsClause_iff.1 opens
  refine startsClause_iff.2 ⟨keyword, member, ?_⟩
  rcases List.prefix_or_prefix_of_prefix isPrefix (List.prefix_append back rest) with
    inside | ⟨more, rfl⟩
  · exact inside.trans (List.prefix_append back [' '])
  · -- The keyword ends behind the text, with the beginning of the rest.
    obtain ⟨noComma, blank⟩ := head?_of_suffix member (List.suffix_append back more)
    have begins : more <+: rest := (List.prefix_append_right_inj back).1 isPrefix
    rw [List.prefix_append_right_inj]
    cases more with
    | nil => exact List.nil_prefix
    | cons c more =>
        obtain ⟨tail, rfl⟩ := begins
        rcases ends with nothing | comma | ⟨isBlank, noBy⟩
        · cases nothing
        · exact absurd comma noComma
        · rcases blank isBlank with alone | leadsOn
          · rw [alone]
          · cases more with
            | nil => cases leadsOn
            | cons next more => exact absurd leadsOn noBy

theorem Uncut.of_ends
    (uncut : Uncut state text [' '])
    (ends : Ends rest) :
    Uncut state text rest :=
  fun front back split neutral => ends.startsClause_eq_false (uncut front back split neutral)

/-- The letters that clause keywords start with. -/
def clauseLetters : List Char := ['M', 'W', 'R', 'O', 'L']

theorem startsClause_cons_eq_false
    {c : Char}
    (other : c ∉ clauseLetters)
    (text : List Char) :
    startsClause (c :: text) = false := by
  rw [← Bool.not_eq_true]
  intro opens
  obtain ⟨keyword, member, isPrefix⟩ := startsClause_iff.1 opens
  have heads : ∀ keyword ∈ clauseKeywords, keyword.head? ∈ clauseLetters.map some := by
    decide +kernel
  obtain ⟨letter, listed, isHead⟩ := List.mem_map.1 (heads keyword member)
  obtain ⟨tail, same⟩ := isPrefix
  cases keyword with
  | nil => cases isHead
  | cons head keyword =>
      injection isHead with isHead
      obtain ⟨isFirst, _⟩ := List.cons_eq_cons.1 same
      exact other (isFirst ▸ isHead ▸ listed)

/-- A clause may stand behind a blank. -/
theorem ends_blank_of_startsClause (opens : startsClause text = true) : Ends (' ' :: text) := by
  refine Or.inr (Or.inr ⟨rfl, ?_⟩)
  intro leadsOn
  cases text with
  | nil => cases leadsOn
  | cons c text =>
      injection leadsOn with isB
      rw [isB, startsClause_cons_eq_false (by decide)] at opens
      cases opens

/-! ## Fragments -/

/-- A fragment of a clause: it closes what it opens, and with blanks around it has no
place to cut. -/
structure IsFragment (fragment : String) : Prop where
  closed : (scan {} fragment.toList).isNeutral = true
  uncut : Uncut {} (' ' :: fragment.toList ++ [' ']) []

/-- A clause behind the return clause: an ordering or a limit that closes what it
opens, and with a blank behind it has no place to cut. -/
structure IsEnding (fragment : String) : Prop where
  closed : (scan {} fragment.toList).isNeutral = true
  opens : "ORDER BY ".toList <+: fragment.toList ∨ "LIMIT ".toList <+: fragment.toList
  uncut : Uncut {} (fragment.toList ++ [' ']) []

instance (fragment : String) : Decidable (IsFragment fragment) :=
  decidable_of_iff
    ((scan {} fragment.toList).isNeutral = true ∧ Uncut {} (' ' :: fragment.toList ++ [' ']) [])
    ⟨fun ⟨closed, uncut⟩ => ⟨closed, uncut⟩, fun ⟨closed, uncut⟩ => ⟨closed, uncut⟩⟩

instance (fragment : String) : Decidable (IsEnding fragment) :=
  decidable_of_iff
    ((scan {} fragment.toList).isNeutral = true ∧
      ("ORDER BY ".toList <+: fragment.toList ∨ "LIMIT ".toList <+: fragment.toList) ∧
        Uncut {} (fragment.toList ++ [' ']) [])
    ⟨fun ⟨closed, opens, uncut⟩ => ⟨closed, opens, uncut⟩,
      fun ⟨closed, opens, uncut⟩ => ⟨closed, opens, uncut⟩⟩

/-- A text that closes what it opens, and has no place to cut whatever may stand
behind it. -/
structure IsWhole (text : List Char) : Prop where
  closed : scan {} text = {}
  uncut : ∀ rest, Ends rest → Uncut {} text rest

/-- A blank at the end is not a place to cut. -/
theorem uncut_of_blank
    (uncut : Uncut state (text ++ [' ']) []) :
    Uncut state text [' '] :=
  (uncut_append.1 uncut).1

theorem IsFragment.isWhole
    {fragment : String}
    (isFragment : IsFragment fragment) :
    IsWhole (' ' :: fragment.toList) where
  closed := isNeutral_iff.1 isFragment.closed
  uncut _ ends := (uncut_of_blank isFragment.uncut).of_ends ends

theorem IsEnding.isWhole
    {fragment : String}
    (isEnding : IsEnding fragment) :
    IsWhole fragment.toList where
  closed := isNeutral_iff.1 isEnding.closed
  uncut _ ends := (uncut_of_blank isEnding.uncut).of_ends ends

/-- A text that closes what it opens, and has no place to cut whatever stands behind
it. -/
structure IsFirm (text : List Char) : Prop where
  closed : scan {} text = {}
  uncut : ∀ rest, Uncut {} text rest

/-- A text is firm if behind each of its blanks it goes on with a letter that starts
no clause. -/
theorem isFirm_of_blanks
    (closed : scan {} text = {})
    (blanks :
      ∀ suffix ∈ text.tails, suffix.head? = some ' ' →
        suffix.tail.head?.any (fun c => c ∉ clauseLetters) = true) :
    IsFirm text where
  closed := closed
  uncut := by
    rintro rest front back split _
    have other := blanks (' ' :: back) ((List.mem_tails _ _).2 ⟨front, split.symm⟩) rfl
    cases back with
    | nil => cases other
    | cons head back =>
        exact startsClause_cons_eq_false (of_decide_eq_true other) (back ++ rest)

theorem IsFirm.append
    (firm : IsFirm first)
    (whole : IsWhole second) :
    IsWhole (first ++ second) where
  closed := by rw [scan_append, firm.closed, whole.closed]
  uncut rest ends := by
    rw [uncut_append, firm.closed]
    exact ⟨firm.uncut _, whole.uncut rest ends⟩

theorem IsWhole.append
    (firstWhole : IsWhole first)
    (secondWhole : IsWhole second)
    (meets : ∀ rest, Ends (second ++ rest)) :
    IsWhole (first ++ second) where
  closed := by rw [scan_append, firstWhole.closed, secondWhole.closed]
  uncut rest ends := by
    rw [uncut_append, firstWhole.closed]
    exact ⟨firstWhole.uncut _ (meets rest), secondWhole.uncut rest ends⟩

theorem isWhole_blank : IsWhole [' '] where
  closed := by decide
  uncut rest ends := by
    refine uncut_cons.2 ⟨fun _ _ => ?_, uncut_nil _ _⟩
    have alone : startsClause ([] ++ [' ']) = false := by decide
    exact ends.startsClause_eq_false alone

/-- What stands between two fragments, in front of a blank. -/
structure IsMark (mark : List Char) : Prop extends IsFirm mark where
  ends : ∀ rest, Ends (mark ++ rest)

theorem isMark_comma : IsMark [','] where
  toIsFirm := isFirm_of_blanks (by decide) (by decide)
  ends _ := Or.inr (Or.inl rfl)

theorem isMark_and : IsMark " AND".toList where
  toIsFirm := isFirm_of_blanks (by decide) (by decide)
  ends _ := Or.inr (Or.inr ⟨rfl, by simp⟩)

/-- Fragments joined by a mark and a blank have no place to cut, a blank in front of
them included. -/
theorem isWhole_joined
    {mark : List Char}
    (isMark : IsMark mark)
    {fragments : List String}
    (areFragments : ∀ fragment ∈ fragments, IsFragment fragment) :
    IsWhole (' ' :: (mark ++ [' ']).intercalate (fragments.map String.toList)) := by
  induction fragments with
  | nil => exact isWhole_blank
  | cons fragment others inductionHypothesis =>
      have whole := (areFragments fragment List.mem_cons_self).isWhole
      cases others with
      | nil => simpa using whole
      | cons next others =>
          have behind := isMark.toIsFirm.append (inductionHypothesis fun other member =>
            areFragments other (List.mem_cons_of_mem _ member))
          have joined := whole.append behind fun rest => by
            rw [List.append_assoc]
            exact isMark.ends _
          rw [List.map_cons, List.map_cons, List.intercalate_cons_cons, ← List.map_cons]
          simpa using joined

/-! ## Clauses -/

/-- Clauses joined by blanks are cut apart again. -/
theorem clausesFrom_intercalate
    (clauses : List (List Char))
    {clause : List Char}
    (whole : ∀ text ∈ clause :: clauses, IsWhole text)
    (opens : ∀ text ∈ clauses, startsClause text = true) :
    clausesFrom {} ([' '].intercalate (clause :: clauses)) = clause :: clauses := by
  induction clauses generalizing clause with
  | nil =>
      have uncut := (whole clause List.mem_cons_self).uncut [] (Or.inl rfl)
      have cut := clausesFrom_append uncut
      simpa [foldr_consFirst, clausesFrom] using cut
  | cons next others inductionHypothesis =>
      have later : startsClause ([' '].intercalate (next :: others)) = true := by
        have nextOpens := opens next List.mem_cons_self
        cases others with
        | nil => simpa using nextOpens
        | cons third others =>
            rw [List.intercalate_cons_cons, List.append_assoc]
            exact startsClause_append nextOpens _
      have cutThere :
          clausesFrom {} (' ' :: [' '].intercalate (next :: others)) = [] :: next :: others := by
        rw [clausesFrom, if_pos ⟨rfl, rfl, later⟩, inductionHypothesis]
        · exact fun text member => whole text (List.mem_cons_of_mem _ member)
        · exact fun text member => opens text (List.mem_cons_of_mem _ member)
      have isWhole := whole clause List.mem_cons_self
      rw [List.intercalate_cons_cons, List.append_assoc, List.singleton_append,
        clausesFrom_append (isWhole.uncut _ (ends_blank_of_startsClause later)), isWhole.closed,
        cutThere, foldr_consFirst, List.append_nil]

/-- The clauses of a statement: what it matches, its filter if there is one, what it
returns, and every clause behind that. -/
def clauseTexts
    (matched predicates projections ending : List String)
    (distinct : Bool) : List String :=
  ("MATCH " ++ ", ".intercalate matched) ::
    ((if predicates = [] then [] else ["WHERE " ++ " AND ".intercalate predicates]) ++
      ((if distinct then "RETURN DISTINCT " else "RETURN ") ++ ", ".intercalate projections)
        :: ending)

theorem toList_assemble
    (matched predicates projections ending : List String)
    (distinct : Bool) :
    (assemble matched predicates projections ending distinct).toList =
      [' '].intercalate
        ((clauseTexts matched predicates projections ending distinct).map String.toList) := by
  cases predicates <;> cases ending <;> cases distinct <;>
    simp [assemble, clauseTexts, String.toList_intercalate, List.intercalate_cons_cons]

section

variable {matched predicates projections ending : List String}

/-- A clause of joined fragments is whole, if it opens with firm words. -/
theorem isWhole_clause
    {opening mark : List Char}
    (firm : IsFirm opening)
    (isMark : IsMark mark)
    {fragments : List String}
    (areFragments : ∀ fragment ∈ fragments, IsFragment fragment)
    {clause : String}
    (text :
      clause.toList =
        opening ++ ' ' :: (mark ++ [' ']).intercalate (fragments.map String.toList)) :
    IsWhole clause.toList :=
  text ▸ firm.append (isWhole_joined isMark areFragments)

theorem isWhole_of_mem_clauseTexts
    (areFragments : ∀ fragment ∈ matched ++ predicates ++ projections, IsFragment fragment)
    (areEndings : ∀ fragment ∈ ending, IsEnding fragment)
    (distinct : Bool) :
    ∀ clause ∈ clauseTexts matched predicates projections ending distinct,
      IsWhole clause.toList := by
  simp only [List.forall_mem_append] at areFragments
  obtain ⟨⟨matchedFragments, predicateFragments⟩, projectionFragments⟩ := areFragments
  intro clause member
  simp only [clauseTexts, List.mem_cons, List.mem_append] at member
  rcases member with rfl | filter | rfl | behind
  · have firm : IsFirm "MATCH".toList := isFirm_of_blanks (by decide) (by decide)
    exact isWhole_clause firm isMark_comma matchedFragments (by simp [String.toList_intercalate])
  · cases predicates with
    | nil => cases filter
    | cons predicate others =>
        rw [if_neg (List.cons_ne_nil _ _), List.mem_singleton] at filter
        subst filter
        have firm : IsFirm "WHERE".toList := isFirm_of_blanks (by decide) (by decide)
        exact isWhole_clause firm isMark_and predicateFragments
          (by simp [String.toList_intercalate])
  · cases distinct with
    | false =>
        have firm : IsFirm "RETURN".toList := isFirm_of_blanks (by decide) (by decide)
        exact isWhole_clause firm isMark_comma projectionFragments
          (by simp [String.toList_intercalate])
    | true =>
        have firm : IsFirm "RETURN DISTINCT".toList := isFirm_of_blanks (by decide) (by decide)
        exact isWhole_clause firm isMark_comma projectionFragments
          (by simp [String.toList_intercalate])
  · exact (areEndings clause behind).isWhole

theorem startsClause_of_mem_tail
    (areEndings : ∀ fragment ∈ ending, IsEnding fragment)
    (distinct : Bool) :
    ∀ clause ∈ (clauseTexts matched predicates projections ending distinct).tail,
      startsClause clause.toList = true := by
  have keyword : ∀ (opening : String) (clause : List Char), opening.toList ∈ clauseKeywords →
      opening.toList <+: clause → startsClause clause = true :=
    fun opening clause member isPrefix => startsClause_iff.2 ⟨_, member, isPrefix⟩
  intro clause member
  simp only [clauseTexts, List.tail_cons, List.mem_append, List.mem_cons] at member
  rcases member with filter | rfl | behind
  · cases predicates with
    | nil => cases filter
    | cons predicate others =>
        rw [if_neg (List.cons_ne_nil _ _), List.mem_singleton] at filter
        subst filter
        exact keyword "WHERE " _ (by decide) (by simp)
  · cases distinct with
    | false => exact keyword "RETURN " _ (by decide) (by simp)
    | true => exact keyword "RETURN " _ (by decide) ⟨"DISTINCT ".toList ++ _, by simp; rfl⟩
  · rcases (areEndings clause behind).opens with ordering | limit
    · exact keyword "ORDER BY " _ (by decide) ordering
    · exact keyword "LIMIT " _ (by decide) limit

end

/-- Let all fragments of a statement close what they open and have no place to cut,
with blanks around them, and let every clause behind the return clause be an ordering
or a limit of this kind.  Then the statement is cut into its clauses. -/
theorem statementClauses_assemble
    {matched predicates projections ending : List String}
    (areFragments : ∀ fragment ∈ matched ++ predicates ++ projections, IsFragment fragment)
    (areEndings : ∀ fragment ∈ ending, IsEnding fragment)
    (distinct : Bool) :
    statementClauses (assemble matched predicates projections ending distinct) =
      clauseTexts matched predicates projections ending distinct := by
  have whole := isWhole_of_mem_clauseTexts areFragments areEndings distinct
  have opens :
      ∀ clause ∈ (clauseTexts matched predicates projections ending distinct).tail,
        startsClause clause.toList = true :=
    startsClause_of_mem_tail areEndings distinct
  rw [statementClauses, toList_assemble]
  rw [clauseTexts] at whole opens ⊢
  rw [List.map_cons, clausesFrom_intercalate, ← List.map_cons, List.map_map]
  · simp [Function.comp_def]
  · rw [← List.map_cons]
    exact List.forall_mem_map.2 whole
  · exact List.forall_mem_map.2 opens

/-- Keywords inside quotes and brackets are no places to cut, nor are those that lack
a part or are written small. -/
theorem statementClauses_assemble_keywordsWithin :
    let matched := ["(lead:`LIMIT `)-[r0:`WHERE x RETURN y`]->(where)", "(lead)"]
    let predicates := ["lead.name = 'x RETURN \"y'", "(lead.age > 3 AND NOT (x ORDER BY y))"]
    let projections := ["count(DISTINCT lead.name) AS count", "ORDER"]
    let ending := ["ORDER BY count DESC", "LIMIT 10"]
    (∀ fragment ∈ matched ++ predicates ++ projections, IsFragment fragment) ∧
      (∀ fragment ∈ ending, IsEnding fragment) ∧
      statementClauses (assemble matched predicates projections ending true) =
        ["MATCH (lead:`LIMIT `)-[r0:`WHERE x RETURN y`]->(where), (lead)",
          "WHERE lead.name = 'x RETURN \"y' AND (lead.age > 3 AND NOT (x ORDER BY y))",
          "RETURN DISTINCT count(DISTINCT lead.name) AS count, ORDER",
          "ORDER BY count DESC", "LIMIT 10"] := by
  intro matched predicates projections ending
  have areFragments : ∀ fragment ∈ matched ++ predicates ++ projections, IsFragment fragment := by
    decide +kernel
  have areEndings : ∀ fragment ∈ ending, IsEnding fragment := by decide +kernel
  exact ⟨areFragments, areEndings, statementClauses_assemble areFragments areEndings true⟩

end Cypher
end VisualQuery
