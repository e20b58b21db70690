import VisualQuery.Cypher.Slices
import VisualQuery.Proofs.Cypher.Splitting

/-!
# Nothing is lost between the clauses

The scan over the bytes of a statement never asks for a slice that is refused, and
what it cuts are the clauses.  Joined by blanks they are the statement again, and each
of them but the first starts with a keyword, if the blank behind it is counted.  All of
this holds of every text, with whatever quotes and brackets it leaves open.
-/

namespace VisualQuery
namespace Cypher

open ScanState

/-! ## Joining -/

section

variable {state : ScanState} {text : List Char}

theorem clausesFrom_ne_nil (state : ScanState) (text : List Char) :
    clausesFrom state text ≠ [] := by
  fun_induction clausesFrom state text with
  | case1 => exact List.cons_ne_nil _ _
  | case2 => exact List.cons_ne_nil _ _
  | case3 state c rest _ inductionHypothesis =>
      cases pieces : clausesFrom (state.advance c) rest with
      | nil => exact absurd pieces inductionHypothesis
      | cons first others => exact List.cons_ne_nil _ _

theorem intercalate_consFirst
    (c : Char)
    {pieces : List (List Char)}
    (someFirst : pieces ≠ []) :
    [' '].intercalate (consFirst c pieces) = c :: [' '].intercalate pieces := by
  cases pieces with
  | nil => exact absurd rfl someFirst
  | cons first others => cases others <;> simp [consFirst, List.intercalate_cons_cons]

/-- The pieces of a text are joined by blanks to the text. -/
theorem intercalate_clausesFrom (state : ScanState) (text : List Char) :
    [' '].intercalate (clausesFrom state text) = text := by
  fun_induction clausesFrom state text with
  | case1 => rfl
  | case2 state c rest cut inductionHypothesis =>
      obtain ⟨first, others, pieces⟩ := List.exists_cons_of_ne_nil (clausesFrom_ne_nil state rest)
      rw [pieces] at inductionHypothesis ⊢
      rw [List.intercalate_cons_cons, inductionHypothesis, cut.1]
      rfl
  | case3 state c rest _ inductionHypothesis =>
      rw [intercalate_consFirst c (clausesFrom_ne_nil _ _), inductionHypothesis]

/-! ## Keywords -/

/-- A keyword is a firm word with a blank behind it. -/
theorem exists_word_of_mem_clauseKeywords
    {keyword : List Char}
    (member : keyword ∈ clauseKeywords) :
    ∃ word, keyword = word ++ [' '] ∧ IsFirm word := by
  have all : ∀ keyword ∈ clauseKeywords,
      keyword = keyword.dropLast ++ [' '] ∧ scan {} keyword.dropLast = {} ∧
        ∀ suffix ∈ keyword.dropLast.tails, suffix.head? = some ' ' →
          suffix.tail.head?.any (fun c => c ∉ clauseLetters) = true := by
    decide +kernel
  obtain ⟨ended, closed, blanks⟩ := all keyword member
  exact ⟨_, ended, isFirm_of_blanks closed blanks⟩

/-- The first piece of a text that starts a clause starts a clause, the blank behind it
counted: the text is not cut before the blank at the end of its keyword. -/
theorem startsClause_first
    (opens : startsClause text = true) :
    ∃ first others, clausesFrom {} text = first :: others ∧
      startsClause (first ++ [' ']) = true := by
  obtain ⟨keyword, member, more, rfl⟩ := startsClause_iff.1 opens
  obtain ⟨word, rfl, firm⟩ := exists_word_of_mem_clauseKeywords member
  have behind : ∃ first others, clausesFrom {} (' ' :: more) = first :: others ∧
      [' '] <+: first ++ [' '] := by
    rw [clausesFrom]
    split
    · exact ⟨[], _, rfl, List.prefix_rfl⟩
    · obtain ⟨first, others, pieces⟩ :=
        List.exists_cons_of_ne_nil (clausesFrom_ne_nil (advance {} ' ') more)
      rw [pieces]
      exact ⟨' ' :: first, others, rfl, List.prefix_append [' '] (first ++ [' '])⟩
  obtain ⟨first, others, pieces, blank⟩ := behind
  refine ⟨word ++ first, others, ?_, startsClause_iff.2 ⟨_, member, ?_⟩⟩
  · rw [List.append_assoc, List.singleton_append, clausesFrom_append (firm.uncut _), firm.closed,
      pieces, foldr_consFirst]
  · rw [List.append_assoc, List.prefix_append_right_inj]
    exact blank

/-- Every piece but the first starts a clause, the blank behind it counted. -/
theorem startsClause_of_mem_tail_clausesFrom (state : ScanState) (text : List Char) :
    ∀ piece ∈ (clausesFrom state text).tail, startsClause (piece ++ [' ']) = true := by
  fun_induction clausesFrom state text with
  | case1 => exact nofun
  | case2 state c rest cut inductionHypothesis =>
      obtain ⟨_, neutral, opens⟩ := cut
      obtain rfl := isNeutral_iff.1 neutral
      obtain ⟨first, others, pieces, firstOpens⟩ := startsClause_first opens
      rw [pieces] at inductionHypothesis ⊢
      exact List.forall_mem_cons.2 ⟨firstOpens, inductionHypothesis⟩
  | case3 state c rest _ inductionHypothesis =>
      obtain ⟨first, others, pieces⟩ :=
        List.exists_cons_of_ne_nil (clausesFrom_ne_nil (state.advance c) rest)
      rw [pieces] at inductionHypothesis ⊢
      exact inductionHypothesis

end

/-! ## Slices -/

/-- The byte position behind a text. -/
def endOf (text : List Char) : String.Pos.Raw := (String.ofList text).rawEndPos

theorem byteIdx_endOf (text : List Char) : (endOf text).byteIdx = text.utf8Encode.size := rfl

theorem byteIdx_endOf_append (front back : List Char) :
    (endOf (front ++ back)).byteIdx = (endOf front).byteIdx + (endOf back).byteIdx := by
  simp only [byteIdx_endOf, List.utf8Encode_append, ByteArray.size_append]

theorem endOf_append_singleton (text : List Char) (c : Char) :
    endOf (text ++ [c]) = endOf text + c := by
  rw [String.Pos.Raw.ext_iff, byteIdx_endOf_append, byteIdx_endOf [c],
    String.Pos.Raw.byteIdx_add_char, List.utf8Encode_singleton, List.size_toByteArray,
    String.length_utf8EncodeChar]

/-- Between the ends of two beginnings of a text lies what the second has more. -/
theorem slice?_ofList (front middle back : List Char) :
    slice? (String.ofList (front ++ middle ++ back)) (endOf front) (endOf (front ++ middle)) =
      some (String.ofList middle) := by
  have startValid : (endOf front).IsValid (String.ofList (front ++ middle ++ back)) :=
    String.Pos.Raw.isValid_iff_exists_append.2
      ⟨.ofList front, .ofList (middle ++ back), by simp, rfl⟩
  have stopValid : (endOf (front ++ middle)).IsValid (String.ofList (front ++ middle ++ back)) :=
    String.Pos.Raw.isValid_iff_exists_append.2
      ⟨.ofList (front ++ middle), .ofList back, by simp only [String.ofList_append], rfl⟩
  have ordered : endOf front ≤ endOf (front ++ middle) := by
    rw [String.Pos.Raw.le_iff, byteIdx_endOf_append]
    exact Nat.le_add_right _ _
  rw [slice?, dif_pos ⟨startValid, stopValid, ordered⟩]
  refine congrArg some (String.toByteArray_inj.1 ?_)
  have bytes : (String.ofList (front ++ middle ++ back)).toByteArray =
      front.utf8Encode ++ (middle.utf8Encode ++ back.utf8Encode) := by
    rw [String.toByteArray_ofList, List.append_assoc, List.utf8Encode_append,
      List.utf8Encode_append]
  have behindFront :
      (front.utf8Encode ++ (middle.utf8Encode ++ back.utf8Encode)).extract front.utf8Encode.size
          (front.utf8Encode.size + middle.utf8Encode.size) =
        (middle.utf8Encode ++ back.utf8Encode).extract 0 middle.utf8Encode.size :=
    ByteArray.extract_append_size_add (i := 0)
  rw [String.toByteArray_extract, bytes, String.toByteArray_ofList]
  simp only [String.offset_pos, byteIdx_endOf, List.utf8Encode_append, ByteArray.size_append]
  rw [behindFront, ByteArray.extract_append_eq_left rfl]

/-- Behind the end of a beginning lies the rest. -/
theorem slice?_ofList_rest (front back : List Char) :
    slice? (String.ofList (front ++ back)) (endOf front)
      (String.ofList (front ++ back)).rawEndPos = some (String.ofList back) := by
  have between := slice?_ofList front back []
  rwa [List.append_nil] at between

namespace SliceScan

variable {statement : String} {scan : SliceScan} {done current rest : List Char} {c : Char}

/-- What is behind the scan is what is done and the current clause, which starts where
the scan says. -/
structure Stands (statement : String) (scan : SliceScan) (done current rest : List Char) :
    Prop where
  text : statement = String.ofList (done ++ current ++ rest)
  start : scan.start = endOf done

theorem Stands.cut
    (stands : Stands statement scan done current (' ' :: rest))
    (clauses : List String)
    (state : ScanState) :
    Stands statement ⟨clauses, endOf (done ++ current ++ [' ']), state⟩
      (done ++ current ++ [' ']) [] rest where
  text := by rw [stands.text, List.append_nil, List.append_cons _ ' ' rest]
  start := rfl

theorem Stands.keep
    (stands : Stands statement scan done current (c :: rest))
    (state : ScanState) :
    Stands statement { scan with state } done (current ++ [c]) rest where
  text := by rw [stands.text, List.append_cons _ c rest, List.append_assoc done]
  start := stands.start

/-- The slice from the start of the clause to where the scan stands. -/
theorem Stands.slice?_current
    (stands : Stands statement scan done current rest) :
    slice? statement scan.start (endOf (done ++ current)) = some (String.ofList current) := by
  rw [stands.text, stands.start, slice?_ofList]

/-- The slice from the start of the clause to the end of the statement. -/
theorem Stands.slice?_last
    (stands : Stands statement scan done current []) :
    slice? statement scan.start statement.rawEndPos = some (String.ofList current) := by
  have text := stands.text
  rw [List.append_nil] at text
  rw [text, stands.start, slice?_ofList_rest]

/-- The slice behind the character that is taken, if it is a blank. -/
theorem Stands.slice?_behind
    (stands : Stands statement scan done current (' ' :: rest)) :
    slice? statement (endOf (done ++ current ++ [' '])) statement.rawEndPos =
      some (String.ofList rest) := by
  have text := stands.text
  rw [List.append_cons] at text
  rw [text, slice?_ofList_rest]

/-- A step is not refused.  It ends the clause at a place to cut and goes on with it
everywhere else. -/
theorem Stands.advance?_eq
    (stands : Stands statement scan done current (c :: rest)) :
    scan.advance? statement (endOf (done ++ current)) c =
      some (if c = ' ' ∧ scan.state.isNeutral ∧ startsClause rest then
          ⟨scan.clauses ++ [String.ofList current], endOf (done ++ current ++ [' ']), scan.state⟩
        else { scan with state := scan.state.advance c }) := by
  by_cases looks : c = ' ' ∧ scan.state.isNeutral
  · obtain ⟨rfl, neutral⟩ := looks
    have next : (⟨(endOf (done ++ current)).byteIdx + 1⟩ : String.Pos.Raw) =
        endOf (done ++ current ++ [' ']) :=
      (endOf_append_singleton (done ++ current) ' ').symm
    -- A blank changes nothing for the quotes and brackets.
    have same : scan.state.advance ' ' = scan.state := by
      rw [isNeutral_iff.1 neutral]
      rfl
    rw [advance?, if_pos ⟨rfl, neutral⟩, next]
    dsimp only
    rw [stands.slice?_behind]
    by_cases opens : startsClause rest = true
    · simp [opens, neutral, stands.slice?_current]
    · simp [opens, same]
  · have kept : ¬ (c = ' ' ∧ scan.state.isNeutral ∧ startsClause rest) :=
      fun ⟨isBlank, neutral, _⟩ => looks ⟨isBlank, neutral⟩
    rw [advance?, if_neg looks, if_neg kept]
    rfl

/-- A run from anywhere in a statement ends, and its clauses are those it has, then the
rest cut with the current clause in front. -/
theorem Stands.run?_eq
    (stands : Stands statement scan done current rest) :
    ∃ final last, scan.run? statement (endOf (done ++ current)) rest = some final ∧
      slice? statement final.start statement.rawEndPos = some last ∧
      final.clauses ++ [last] =
        scan.clauses ++ (current.foldr consFirst (clausesFrom scan.state rest)).map .ofList := by
  induction rest generalizing scan done current with
  | nil =>
      refine ⟨scan, String.ofList current, rfl, stands.slice?_last, ?_⟩
      rw [clausesFrom, foldr_consFirst, List.append_nil]
      rfl
  | cons c rest inductionHypothesis =>
      rw [run?, stands.advance?_eq, ← endOf_append_singleton]
      by_cases cut : c = ' ' ∧ scan.state.isNeutral ∧ startsClause rest
      · obtain ⟨rfl, _, _⟩ := id cut
        have ended := inductionHypothesis
          (stands.cut (scan.clauses ++ [String.ofList current]) scan.state)
        rw [List.append_nil] at ended
        rw [if_pos cut, clausesFrom, if_pos cut, foldr_consFirst, List.append_nil, List.map_cons,
          List.append_cons scan.clauses _ ((clausesFrom scan.state rest).map .ofList)]
        exact ended
      · have ended := inductionHypothesis (stands.keep (scan.state.advance c))
        rw [← List.append_assoc, List.foldr_append] at ended
        rw [if_neg cut, clausesFrom, if_neg cut]
        exact ended

end SliceScan

/-- No slice of the scan over a statement is refused, and the slices are its clauses. -/
theorem sliceClauses?_eq (statement : String) :
    sliceClauses? statement = some (statementClauses statement) := by
  have begins : SliceScan.Stands statement {} [] [] statement.toList :=
    ⟨String.ofList_toList.symm, rfl⟩
  obtain ⟨final, last, run, slice, clauses⟩ := begins.run?_eq
  have ran : SliceScan.run? statement {} 0 statement.toList = some final := run
  rw [sliceClauses?, ran]
  simpa [slice, statementClauses] using clauses

/-! ## Keywords of clauses -/

/-- A text with a beginning of it cut off. -/
theorem slice?_zero (front back : List Char) :
    slice? (String.ofList (front ++ back)) 0 (endOf front) = some (String.ofList front) :=
  slice?_ofList [] front back

/-- The keyword of a clause ends within it, and with the rest it is the clause. -/
theorem splitKeyword?_eq (clause : String) :
    ∃ keyword rest, splitKeyword? clause = some (keyword, rest) ∧ keyword ++ rest = clause := by
  have within : ∃ front back, clause = String.ofList (front ++ back) ∧
      keywordEnd clause = endOf front := by
    rw [keywordEnd]
    split
    next keyword found =>
      have isPrefix := List.find?_some found
      obtain ⟨back, split⟩ := List.isPrefixOf_iff_prefix.1 isPrefix
      exact ⟨keyword, back, by rw [split, String.ofList_toList], rfl⟩
    next => exact ⟨[], clause.toList, String.ofList_toList.symm, rfl⟩
  obtain ⟨front, back, rfl, ends⟩ := within
  refine ⟨.ofList front, .ofList back, ?_, String.ofList_append.symm⟩
  rw [splitKeyword?, ends, slice?_zero, slice?_ofList_rest]
  rfl

/-! ## Statements -/

/-- Of every text, the clauses are slices at positions within it and between its
characters; joined by blanks they are the text; each but the first starts with a clause
keyword, the blank behind it counted; and each is its keyword and a rest. -/
theorem statementClauses_loses_nothing (statement : String) :
    sliceClauses? statement = some (statementClauses statement) ∧
      " ".intercalate (statementClauses statement) = statement ∧
      (∀ clause ∈ (statementClauses statement).tail,
        startsClause (clause ++ " ").toList = true) ∧
      ∀ clause ∈ statementClauses statement,
        ∃ keyword rest, splitKeyword? clause = some (keyword, rest) ∧ keyword ++ rest = clause := by
  refine ⟨sliceClauses?_eq statement, ?_, ?_, fun clause _ => splitKeyword?_eq clause⟩
  · rw [← String.toList_inj, String.toList_intercalate, statementClauses, List.map_map]
    simpa [Function.comp_def] using intercalate_clausesFrom {} statement.toList
  · rw [statementClauses, ← List.map_tail, List.forall_mem_map]
    simpa using startsClause_of_mem_tail_clausesFrom {} statement.toList

/-- What a quote leaves open hides keywords, and the clause between two keywords is the
first of them without its blank. -/
example :
    sliceClauses? "MATCH (é RETURN ñ) LIMIT LIMIT 'ü LIMIT 1" =
      some ["MATCH (é RETURN ñ)", "LIMIT", "LIMIT 'ü LIMIT 1"] := by
  decide +kernel

end Cypher
end VisualQuery
