import GrammarDoc.Report
import Mathlib.Data.List.Basic
import Mathlib.Data.List.Monad

/-!
# What a report tells

A report begins with the number of problems, and the texts of the problems can be read off what
follows: taking the margin from each line that is not blank leaves them as they were, whatever
marks end their lines and however many of these lines are blank. So two reports are the same only
if they are about equally many problems with the same texts.
-/

namespace GrammarDoc

namespace Text

/-! ### Lines -/

/-- The marks that end a line before the rest of a text: none at the end of the text, a carriage
return and a line feed together, or one character, which is no carriage return before a line
feed. -/
inductive Ends : List Char → List Char → Prop
  | close : Ends [] []
  | pair (rest : List Char) : Ends ['\r', '\n'] rest
  | single {c : Char} {rest : List Char} (ends : isLineEnd c = true)
      (apart : ¬(c = '\r' ∧ rest.head? = some '\n')) : Ends [c] rest

/-- A text and the lines that it is made of: each has some characters that end no line and then a
mark, and none of them is empty. -/
inductive Broken : List Char → List (List Char) → Prop
  | done : Broken [] []
  | line (body : List Char) {mark rest : List Char} {lines : List (List Char)}
      (inner : ∀ c ∈ body, isLineEnd c = false) (nonempty : body ++ mark ≠ [])
      (ends : Ends mark rest) (others : Broken rest lines) :
      Broken (body ++ mark ++ rest) ((body ++ mark) :: lines)

private theorem lines_cons {c : Char} {rest : List Char}
    (apart : ¬(c = '\r' ∧ rest.head? = some '\n')) :
    lines (c :: rest) = if isLineEnd c then [c] :: lines rest else consLine c (lines rest) := by
  rw [lines]
  rintro others rfl rfl
  exact apart ⟨rfl, rfl⟩

private theorem lines_cons_inner {c : Char} (inner : isLineEnd c = false) (rest : List Char) :
    lines (c :: rest) = consLine c (lines rest) := by
  have apart : ¬(c = '\r' ∧ rest.head? = some '\n') := by
    rintro ⟨rfl, -⟩
    exact absurd inner (by decide)
  rw [lines_cons apart, if_neg (by simp [inner])]

/-- The first line of a text is what goes up to the first mark, and that mark. -/
theorem lines_append {body mark rest : List Char} (inner : ∀ c ∈ body, isLineEnd c = false)
    (nonempty : body ++ mark ≠ []) (ends : Ends mark rest) :
    lines (body ++ mark ++ rest) = (body ++ mark) :: lines rest := by
  induction body with
  | nil =>
    cases ends with
    | close => exact absurd rfl nonempty
    | pair => rfl
    | single marked apart => exact (lines_cons apart).trans (if_pos marked)
  | cons c body ih =>
    rw [List.forall_mem_cons] at inner
    have first : lines (c :: (body ++ mark ++ rest)) = consLine c (lines (body ++ mark ++ rest)) :=
      lines_cons_inner inner.1 _
    change lines (c :: (body ++ mark ++ rest)) = _
    by_cases empty : body ++ mark = []
    · obtain ⟨rfl, rfl⟩ := List.append_eq_nil_iff.1 empty
      cases ends
      exact first
    · rw [first, ih inner.2 empty]
      rfl

/-- A text has no other lines than those that it is made of. -/
theorem Broken.lines_eq {s : List Char} {found : List (List Char)} (broken : Broken s found) :
    lines s = found := by
  induction broken with
  | done => rfl
  | line _ inner nonempty ends _ ih => rw [lines_append inner nonempty ends, ih]

/-- A character that ends no line may go in front of a text. -/
theorem Broken.cons {c : Char} {s : List Char} {found : List (List Char)} (broken : Broken s found)
    (inner : isLineEnd c = false) : Broken (c :: s) (consLine c found) := by
  cases broken with
  | done => exact .line [c] (by simpa using inner) (by simp) .close .done
  | line body others nonempty ends broken =>
    exact .line (c :: body) (List.forall_mem_cons.2 ⟨inner, others⟩) (by simp) ends broken

/-- A text is made of its lines. -/
theorem broken_lines (s : List Char) : Broken s (lines s) := by
  fun_induction lines s with
  | case1 => exact .done
  | case2 rest ih => exact .line [] (by simp) (by simp) (.pair rest) ih
  | case3 c rest apart ends ih =>
    refine .line [] (by simp) (by simp) (.single ends ?_) ih
    rintro ⟨rfl, first⟩
    obtain ⟨others, rfl⟩ := List.head?_eq_some_iff.1 first
    exact apart others rfl rfl
  | case4 c rest _ inner ih => exact ih.cons (by simpa using inner)

/-- One line after the other, the lines of a text are that text. -/
theorem Broken.flatten_eq {s : List Char} {found : List (List Char)} (broken : Broken s found) :
    found.flatten = s := by
  induction broken with
  | done => rfl
  | line _ _ _ _ _ ih => rw [List.flatten_cons, ih]

/-! ### Margins -/

section

variable {margin : List Char} (inner : ∀ c ∈ margin, isLineEnd c = false)

private theorem exists_indentLine_eq (margin body mark : List Char) :
    ∃ start, (start = [] ∨ start = margin) ∧
      indentLine margin (body ++ mark) = start ++ body ++ mark := by
  rw [indentLine]
  split
  · exact ⟨[], .inl rfl, rfl⟩
  · exact ⟨margin, .inr rfl, (List.append_assoc _ _ _).symm⟩

include inner

private theorem Broken.head?_of_indented {s : List Char} {found : List (List Char)}
    (broken : Broken s found)
    (feed : (found.flatMap (indentLine margin)).head? = some '\n') : s.head? = some '\n' := by
  cases broken with
  | done => cases feed
  | @line body mark rest lines _ nonempty _ _ =>
    obtain ⟨start, begins, indented⟩ := exists_indentLine_eq margin body mark
    rw [List.flatMap_cons, indented, List.append_assoc start, List.append_assoc start] at feed
    rw [List.head?_append_of_ne_nil _ nonempty]
    cases start with
    | nil => rwa [List.nil_append, List.head?_append_of_ne_nil _ nonempty] at feed
    | cons c others =>
      obtain rfl : c = '\n' := Option.some.inj feed
      rcases begins with none | rfl
      · cases none
      · exact absurd (inner '\n' List.mem_cons_self) (by decide)

/-- Indented lines are the lines of the text that they make up. -/
theorem Broken.indented {s : List Char} {found : List (List Char)} (broken : Broken s found) :
    Broken (found.flatMap (indentLine margin)) (found.map (indentLine margin)) := by
  induction broken with
  | done => exact .done
  | @line body mark rest lines others nonempty ends broken ih =>
    obtain ⟨start, begins, indented⟩ := exists_indentLine_eq margin body mark
    have innerStart : ∀ c ∈ start ++ body, isLineEnd c = false := by
      rw [List.forall_mem_append]
      refine ⟨?_, others⟩
      rcases begins with rfl | rfl
      · exact fun _ none ↦ nomatch none
      · exact inner
    -- A carriage return is a mark of its own only before something else than a line feed, so what
    -- is put in front of the next line could matter here. But a margin has no line feed.
    have endsAgain : Ends mark (lines.flatMap (indentLine margin)) := by
      cases ends with
      | close =>
        obtain rfl : [] = lines := broken.lines_eq
        exact .close
      | pair => exact .pair _
      | single marked apart =>
        exact .single marked fun feed ↦ apart ⟨feed.1, broken.head?_of_indented inner feed.2⟩
    rw [List.flatMap_cons, List.map_cons, indented]
    refine .line _ innerStart ?_ endsAgain ih
    rw [List.append_assoc]
    exact List.append_ne_nil_of_right_ne_nil _ nonempty

end

/-- A line without the margin in front, or the line itself if it is blank. A line that is not blank
has to have the margin. -/
def outdentLine? (margin line : List Char) : Option (List Char) :=
  if line.all isBlank then some line else line.dropPrefix? margin

/-- Whether a text is left of another when the margin is taken from each of its lines that is not
blank, all of which have to have it. -/
def Outdents (margin s left : String) : Prop :=
  ∃ found, Broken s.toList found ∧
    (found.mapM (outdentLine? margin.toList)).map List.flatten = some left.toList

private theorem Outdents.unique {margin s left other : String} (h : Outdents margin s left)
    (h' : Outdents margin s other) : left = other := by
  obtain ⟨found, broken, taken⟩ := h
  obtain ⟨found', broken', taken'⟩ := h'
  obtain rfl := broken.lines_eq.symm.trans broken'.lines_eq
  exact String.toList_inj.1 (Option.some.inj (taken.symm.trans taken'))

private theorem outdentLine?_indentLine {margin : List Char} (blank : margin.all isBlank = true)
    (line : List Char) : outdentLine? margin (indentLine margin line) = some line := by
  rw [outdentLine?, indentLine]
  by_cases empty : line.all isBlank = true
  · rw [if_pos empty, if_pos empty]
  · have still : ¬(margin ++ line).all isBlank = true := by
      rwa [List.all_append, blank, Bool.true_and]
    rw [if_neg empty, if_neg still]
    exact List.dropPrefix?_append_of_beq line BEq.rfl

/-- Taking a blank margin from an indented text leaves the text. -/
theorem outdents_indent {margin : String} (blank : margin.toList.all isBlank = true)
    (inner : ∀ c ∈ margin.toList, isLineEnd c = false) (s : String) :
    Outdents margin (indent margin s) s := by
  have each : outdentLine? margin.toList ∘ indentLine margin.toList = fun line ↦ pure (id line) :=
    funext (outdentLine?_indentLine blank)
  have broken := broken_lines s.toList
  refine ⟨(lines s.toList).map (indentLine margin.toList), ?_, ?_⟩
  · rw [indent, String.toList_ofList]
    exact broken.indented inner
  · rw [List.mapM_map, each, List.mapM_pure, List.map_id, Option.pure_def, Option.map_some,
      broken.flatten_eq]

end Text

/-! ### Reports -/

variable {Code : Type}

/-- How a report on a number of problems begins. -/
def heading (count : Nat) : String :=
  count.repr ++ " " ++ if count = 1 then "error" else "errors"

/-- What follows in a report on problems with a text. -/
def details (text : String) : String :=
  if text = "" then "" else ":\n" ++ Text.indent "    " text

private theorem report_eq_append (problems : List (Problem Code)) :
    report problems = heading problems.length ++ details (joinedText problems) := by
  simp only [report, heading, details, beq_iff_eq]
  split
  · rw [String.append_empty]
  · simp only [String.append_assoc]

/-- The text of a problem is empty if there is nothing to tell. -/
theorem Problem.text_eq_empty_iff (p : Problem Code) :
    p.text = "" ↔ p.within = none ∧ p.message = "" := by
  unfold Problem.text
  cases p.within with
  | none => simp
  | some title => simp

/-- The texts of some problems are empty together if there are none or a single empty one. -/
theorem joinedText_eq_empty_iff (problems : List (Problem Code)) :
    joinedText problems = "" ↔
      problems = [] ∨ ∃ p, problems = [p] ∧ p.within = none ∧ p.message = "" := by
  match problems with
  | [] => simp [joinedText]
  | [p] => simp [joinedText, p.text_eq_empty_iff]
  | p :: q :: rest => simp [joinedText, String.intercalate_cons_cons]

/-- Taking the margin from the details of a text leaves the text. -/
theorem details_eq (text : String) :
    details text = "" ∧ text = "" ∨
      ∃ body, details text = ":\n" ++ body ∧ text ≠ "" ∧ Text.Outdents "    " body text := by
  unfold details
  split
  · next empty => exact .inl ⟨rfl, empty⟩
  · next nonempty =>
    have inner : ∀ c ∈ "    ".toList, Text.isLineEnd c = false := by simp [Text.isLineEnd]
    exact .inr ⟨_, rfl, nonempty, Text.outdents_indent (by decide) inner text⟩

/-- Different texts have different details. -/
theorem details_inj {s t : String} : details s = details t ↔ s = t := by
  refine ⟨fun h ↦ ?_, fun h ↦ h ▸ rfl⟩
  rcases details_eq s with ⟨none, rfl⟩ | ⟨body, some, -, read⟩ <;>
    rcases details_eq t with ⟨none', rfl⟩ | ⟨body', some', -, read'⟩
  · rfl
  · simp [none, some'] at h
  · simp [some, none'] at h
  · rw [some, some', String.append_right_inj] at h
    exact (h ▸ read).unique read'

/-- The number of problems and what comes after it can be told from a heading with the rest. -/
theorem heading_append_inj {m n : Nat} {s t : String} :
    heading m ++ s = heading n ++ t ↔ m = n ∧ s = t := by
  refine ⟨fun h ↦ ?_, fun ⟨count, rest⟩ ↦ count ▸ rest ▸ rfl⟩
  -- A blank follows the digits, so taking all digits from the front gives the number back.
  have digits (count : Nat) (rest : String) :
      (heading count ++ rest).toList.takeWhile Char.isDigit = Nat.toDigits 10 count := by
    have all : ∀ c ∈ Nat.toDigits 10 count, c.isDigit = true :=
      fun _ ↦ Nat.isDigit_of_mem_toDigits (by decide) (by decide)
    rw [heading, String.append_assoc, String.append_assoc, String.toList_append,
      Nat.toList_repr, List.takeWhile_append_of_pos all, String.toList_append]
    exact List.append_nil _
  have count : m = n := by
    have read (count : Nat) : Nat.ofDigitChars 10 (Nat.toDigits 10 count) 0 = count :=
      Nat.ofDigitChars_toDigits (by decide) (by decide)
    rw [← read m, ← digits m s, h, digits n t, read n]
  subst count
  exact ⟨rfl, (String.append_right_inj _).1 h⟩

/-- A report begins with how many problems there are. Nothing more follows exactly if their texts,
one below the other, are empty, which is to say that there is no problem or a single one with
nothing to tell. Otherwise their texts are what follows below without its margin. So two reports
are the same exactly if they are on equally many problems with the same texts. -/
theorem report_keeps_texts (problems : List (Problem Code)) :
    (joinedText problems = "" ↔
      problems = [] ∨ ∃ p, problems = [p] ∧ p.within = none ∧ p.message = "") ∧
    (report problems = heading problems.length ∧ joinedText problems = "" ∨
      ∃ body, report problems = heading problems.length ++ ":\n" ++ body ∧
        joinedText problems ≠ "" ∧ Text.Outdents "    " body (joinedText problems)) ∧
    ∀ others : List (Problem Code), report problems = report others ↔
      problems.length = others.length ∧ joinedText problems = joinedText others := by
  refine ⟨joinedText_eq_empty_iff problems, ?_, fun others ↦ ?_⟩
  · rw [report_eq_append]
    rcases details_eq (joinedText problems) with ⟨none, empty⟩ | ⟨body, some, nonempty, read⟩
    · exact .inl ⟨by rw [none, String.append_empty], empty⟩
    · exact .inr ⟨body, by rw [some, String.append_assoc], nonempty, read⟩
  · rw [report_eq_append, report_eq_append, heading_append_inj, details_inj]

/-- A carriage return ends a line, and a blank line is left alone. -/
example :
    let problems : List (Problem Unit) :=
      [⟨.raised .general "a\r  \r\nb" .missing, none⟩, ⟨.noRules .missing, some "rules"⟩]
    report problems =
      "2 errors:\n    a\r  \r\n    b\n    In rules: Grammar must have at least one rule" := by
  decide +kernel

end GrammarDoc
