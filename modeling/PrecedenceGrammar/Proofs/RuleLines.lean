import PrecedenceGrammar.Source.RuleLine

/-!
# Rule lines and their defects

A line is read as a production exactly if it has the form of a rule line.  Any
other line is refused, and unless it ends with a space, for its first defect.
-/

namespace PrecedenceGrammar

theorem isUppercase_eq_false_of_isWhiteSpace
    {character : Char} (white : isWhiteSpace character = true) :
    isUppercase character = false := by
  have none_uppercase : ∀ code ∈ whiteSpaceRanges.flatMap
      (fun range => List.range' range.1 (range.2 + 1 - range.1)),
      isUppercase (Char.ofNat code) = false := by
    decide +kernel
  obtain ⟨⟨first, last⟩, range, within⟩ := List.any_eq_true.mp white
  rw [Bool.and_eq_true, decide_eq_true_eq, decide_eq_true_eq] at within
  have listed : character.toNat ∈ whiteSpaceRanges.flatMap
      (fun range => List.range' range.1 (range.2 + 1 - range.1)) := by
    refine List.mem_flatMap.mpr ⟨(first, last), range, ?_⟩
    rw [List.mem_range'_1]
    omega
  have notUppercase := none_uppercase character.toNat listed
  rwa [Char.ofNat_toNat] at notUppercase

namespace RuleLine

/-- Neither white space nor the character of a marker. -/
def isBodyCharacter (character : Char) : Bool :=
  !isWhiteSpace character && character != '^' && character != '$'

/-- The form of a rule line: one uppercase character, one space, and one or more
characters that a body can hold. -/
def isWellFormed : Text → Bool
  | head :: ' ' :: first :: later =>
    isUppercase head && (first :: later).all isBodyCharacter
  | _ => false

/-- The symbol that a character of a body stands for. -/
def symbolOf (character : Char) : Symbol :=
  if isUppercase character then .nonterminal character else .terminal character

/-- A line of the form of a rule line, and the production that it declares. -/
inductive Declares : Text → Production → Prop where
  | rule {head : Char} {body : Text} (uppercase : isUppercase head = true)
      (nonempty : body ≠ [])
      (allowed : ∀ character ∈ body, isBodyCharacter character = true) :
      Declares (head :: ' ' :: body) ⟨.nonterminal head, body.map symbolOf⟩

/-- The first thing that is wrong with a line: it has no space, the text before
the first space is no single uppercase character, or a character after it
cannot stand in a body. -/
inductive FirstDefect : Text → LoadError → Prop where
  | missingBody {line : Text} (unspaced : ' ' ∉ line) : FirstDefect line .missingBody
  | invalidHead {before after : Text} (unspaced : ' ' ∉ before)
      (notHead : ∀ head, isUppercase head = true → before ≠ [head]) :
      FirstDefect (before ++ ' ' :: after) (.invalidHead before)
  | reservedSymbol {head character : Char} {front later : Text}
      (uppercase : isUppercase head = true)
      (allowed : ∀ other ∈ front, isBodyCharacter other = true)
      (reserved : character = '^' ∨ character = '$') :
      FirstDefect (head :: ' ' :: (front ++ character :: later)) (.reservedSymbol character)
  | unexpectedWhiteSpace {head character : Char} {front later : Text}
      (uppercase : isUppercase head = true)
      (allowed : ∀ other ∈ front, isBodyCharacter other = true)
      (white : isWhiteSpace character = true) :
      FirstDefect (head :: ' ' :: (front ++ character :: later)) .unexpectedWhiteSpace

theorem isWellFormed_iff
    {line : Text} :
    isWellFormed line = true ↔ ∃ production, Declares line production := by
  constructor
  · intro wellFormed
    unfold isWellFormed at wellFormed
    split at wellFormed
    · rw [Bool.and_eq_true, List.all_eq_true] at wellFormed
      exact ⟨_, .rule wellFormed.1 (List.cons_ne_nil _ _) wellFormed.2⟩
    · cases wellFormed
  · intro declares
    obtain ⟨_, uppercase, nonempty, allowed⟩ := declares
    obtain ⟨first, later, rfl⟩ := List.exists_cons_of_ne_nil nonempty
    rw [isWellFormed, Bool.and_eq_true, List.all_eq_true]
    exact ⟨uppercase, allowed⟩

theorem isBodyCharacter_of_isUppercase
    {character : Char} (uppercase : isUppercase character = true) :
    isBodyCharacter character = true := by
  have notWhite : isWhiteSpace character = false := by
    rw [← Bool.not_eq_true]
    intro white
    rw [isUppercase_eq_false_of_isWhiteSpace white] at uppercase
    cases uppercase
  have notStart : character ≠ '^' := by
    rintro rfl
    exact absurd uppercase (by decide)
  have notEnd : character ≠ '$' := by
    rintro rfl
    exact absurd uppercase (by decide)
  simp [isBodyCharacter, notWhite, notStart, notEnd]

theorem ofChar?_eq
    (character : Char) :
    Symbol.ofChar? character =
      if isBodyCharacter character then some (symbolOf character) else none := by
  have excluded : (isWhiteSpace character || character == '^' || character == '$') =
      !isBodyCharacter character := by
    simp [isBodyCharacter, bne]
  rw [Symbol.ofChar?, excluded]
  cases isBodyCharacter character with
  | false => rfl
  | true =>
      unfold symbolOf
      cases isUppercase character <;> rfl

theorem isGrammarSymbol_symbolOf (character : Char) :
    (symbolOf character).isGrammarSymbol = true := by
  unfold symbolOf
  split <;> rfl

theorem Declares.wellFormed
    {line : Text} {production : Production} (declares : Declares line production) :
    production.WellFormed := by
  obtain ⟨_, nonempty, _⟩ := declares
  refine ⟨rfl, ?_, ?_⟩
  · intro empty
    exact nonempty (List.map_eq_nil_iff.mp empty)
  · intro symbol member
    obtain ⟨character, _, rfl⟩ := List.mem_map.mp member
    exact isGrammarSymbol_symbolOf character

theorem readHead_singleton
    {head : Char} (uppercase : isUppercase head = true) :
    readHead [head] = .ok (.nonterminal head) := by
  simp [readHead, ofChar?_eq, isBodyCharacter_of_isUppercase uppercase, symbolOf, uppercase]

theorem readHead_eq_error
    {text : Text} (notHead : ∀ head, isUppercase head = true → text ≠ [head]) :
    readHead text = .error (.invalidHead text) := by
  unfold readHead
  split
  · next character single =>
    obtain ⟨head, rfl, read⟩ := List.map_eq_singleton_iff.mp single
    cases uppercase : isUppercase head with
    | true => exact absurd rfl (notHead head uppercase)
    | false => simp [ofChar?_eq, symbolOf, uppercase] at read
  · rfl

theorem readSymbol_eq_ok
    {character : Char} (allowed : isBodyCharacter character = true) :
    readSymbol character = .ok (symbolOf character) := by
  simp [readSymbol, ofChar?_eq, allowed]

theorem readSymbol_reserved
    {character : Char} (reserved : character = '^' ∨ character = '$') :
    readSymbol character = .error (.reservedSymbol character) := by
  rcases reserved with rfl | rfl <;> rfl

theorem readSymbol_white
    {character : Char} (white : isWhiteSpace character = true) :
    readSymbol character = .error .unexpectedWhiteSpace := by
  have notStart : character ≠ '^' := by
    rintro rfl
    exact absurd white (by decide)
  have notEnd : character ≠ '$' := by
    rintro rfl
    exact absurd white (by decide)
  simp [readSymbol, Symbol.ofChar?, white, notStart, notEnd]

theorem mapM_readSymbol_eq_ok
    {text : Text} (allowed : ∀ character ∈ text, isBodyCharacter character = true) :
    text.mapM readSymbol = .ok (text.map symbolOf) := by
  induction text with
  | nil => rfl
  | cons character later induction =>
      obtain ⟨first, rest⟩ := List.forall_mem_cons.mp allowed
      rw [List.mapM_cons, readSymbol_eq_ok first, induction rest]
      rfl

theorem mapM_readSymbol_eq_error
    {front later : Text} {character : Char} {error : LoadError}
    (allowed : ∀ other ∈ front, isBodyCharacter other = true)
    (refused : readSymbol character = .error error) :
    (front ++ character :: later).mapM readSymbol = .error error := by
  induction front with
  | nil =>
      rw [List.nil_append, List.mapM_cons, refused]
      rfl
  | cons other front induction =>
      obtain ⟨first, rest⟩ := List.forall_mem_cons.mp allowed
      rw [List.cons_append, List.mapM_cons, readSymbol_eq_ok first, induction rest]
      rfl

theorem readBody_eq_mapM
    {text : Text} (nonempty : text ≠ []) :
    readBody text = text.mapM readSymbol := by
  obtain ⟨first, later, rfl⟩ := List.exists_cons_of_ne_nil nonempty
  rfl

theorem read_split
    {before after : Text} (unspaced : ' ' ∉ before) :
    read (before ++ ' ' :: after) =
      (readHead before).bind fun head => (readBody after).map fun body => ⟨head, body⟩ := by
  rw [read, (splitAtSpace?_eq_some_iff _ _ _).mpr ⟨rfl, unspaced⟩]
  rfl

theorem space_not_mem_head
    {head : Char} (uppercase : isUppercase head = true) :
    ' ' ∉ [head] := by
  intro member
  rw [← List.mem_singleton.mp member] at uppercase
  exact absurd uppercase (by decide)

theorem read_declaration
    {head : Char} {body : Text} (uppercase : isUppercase head = true) (nonempty : body ≠ []) :
    read (head :: ' ' :: body) =
      (body.mapM readSymbol).map fun symbols => ⟨.nonterminal head, symbols⟩ := by
  rw [← readBody_eq_mapM nonempty]
  calc read ([head] ++ ' ' :: body)
    _ = (readHead [head]).bind fun head => (readBody body).map fun symbols => ⟨head, symbols⟩ :=
      read_split (space_not_mem_head uppercase)
    _ = (readBody body).map fun symbols => ⟨.nonterminal head, symbols⟩ := by
      rw [readHead_singleton uppercase]
      rfl

theorem Declares.read_eq
    {line : Text} {production : Production} (declares : Declares line production) :
    read line = .ok production := by
  obtain ⟨uppercase, nonempty, allowed⟩ := declares
  rw [read_declaration uppercase nonempty, mapM_readSymbol_eq_ok allowed]
  rfl

theorem FirstDefect.read_eq
    {line : Text} {error : LoadError} (defect : FirstDefect line error) :
    read line = .error error := by
  cases defect with
  | missingBody unspaced =>
      rw [read, (splitAtSpace?_eq_none_iff line).mpr unspaced]
      rfl
  | invalidHead unspaced notHead =>
      rw [read_split unspaced, readHead_eq_error notHead]
      rfl
  | reservedSymbol uppercase allowed reserved =>
      have refused := readSymbol_reserved reserved
      rw [read_declaration uppercase (by simp), mapM_readSymbol_eq_error allowed refused]
      rfl
  | unexpectedWhiteSpace uppercase allowed white =>
      have refused := readSymbol_white white
      rw [read_declaration uppercase (by simp), mapM_readSymbol_eq_error allowed refused]
      rfl

/-- The first character that a body cannot hold is reserved or white space. -/
theorem exists_refused
    {text : Text} (refused : ¬ ∀ character ∈ text, isBodyCharacter character = true) :
    ∃ front character later, text = front ++ character :: later ∧
      (∀ other ∈ front, isBodyCharacter other = true) ∧
      ((character = '^' ∨ character = '$') ∨ isWhiteSpace character = true) := by
  cases found : text.find? (!isBodyCharacter ·) with
  | none =>
      rw [List.find?_eq_none] at found
      exact absurd (by simpa using found) refused
  | some character =>
      obtain ⟨bad, front, later, rfl, allowed⟩ := List.find?_eq_some_iff_append.mp found
      refine ⟨front, character, later, rfl, by simpa using allowed, ?_⟩
      rw [isBodyCharacter, Bool.not_eq_true', Bool.and_eq_false_iff, Bool.and_eq_false_iff,
        bne_eq_false_iff_eq, bne_eq_false_iff_eq, Bool.not_eq_false'] at bad
      rcases bad with (white | start) | ended
      · exact Or.inr white
      · exact Or.inl (Or.inl start)
      · exact Or.inl (Or.inr ended)

/-- A line declares a production or has a first defect, unless nothing comes after
its head and the space. -/
theorem declares_or_firstDefect (line : Text) :
    (∃ production, Declares line production) ∨ (∃ error, FirstDefect line error) ∨
      ∃ head, isUppercase head = true ∧ line = [head, ' '] := by
  cases found : splitAtSpace? line with
  | none => exact Or.inr (Or.inl ⟨_, .missingBody ((splitAtSpace?_eq_none_iff line).mp found)⟩)
  | some split =>
      obtain ⟨before, after⟩ := split
      obtain ⟨rfl, unspaced⟩ := (splitAtSpace?_eq_some_iff _ _ _).mp found
      by_cases isHead : ∃ head, isUppercase head = true ∧ before = [head]
      · obtain ⟨head, uppercase, rfl⟩ := isHead
        by_cases empty : after = []
        · subst empty
          exact Or.inr (Or.inr ⟨head, uppercase, rfl⟩)
        · by_cases allowed : ∀ character ∈ after, isBodyCharacter character = true
          · exact Or.inl ⟨_, .rule uppercase empty allowed⟩
          · obtain ⟨front, character, later, rfl, allowed, reserved | white⟩ :=
              exists_refused allowed
            · exact Or.inr (Or.inl ⟨_, .reservedSymbol uppercase allowed reserved⟩)
            · exact Or.inr (Or.inl ⟨_, .unexpectedWhiteSpace uppercase allowed white⟩)
      · have notHead : ∀ head, isUppercase head = true → before ≠ [head] :=
          fun head uppercase same => isHead ⟨head, uppercase, same⟩
        exact Or.inr (Or.inl ⟨_, .invalidHead unspaced notHead⟩)

theorem exists_firstDefect
    {line : Text} (malformed : isWellFormed line = false) (ended : line.getLast? ≠ some ' ') :
    ∃ error, FirstDefect line error := by
  obtain declares | defect | ⟨head, _, rfl⟩ := declares_or_firstDefect line
  · rw [isWellFormed_iff.mpr declares] at malformed
    cases malformed
  · exact defect
  · exact absurd rfl ended

/-- Whatever a line is read as, it declares, also if there is white space at its
end. -/
theorem read_eq_ok_iff
    {line : Text} {production : Production} :
    read line = .ok production ↔ Declares line production := by
  constructor
  · intro isRead
    obtain ⟨other, declares⟩ | ⟨error, defect⟩ | ⟨head, uppercase, rfl⟩ :=
      declares_or_firstDefect line
    · rw [declares.read_eq] at isRead
      cases isRead
      exact declares
    · rw [defect.read_eq] at isRead
      cases isRead
    · have bodyless : read [head, ' '] = .error .missingBody := by
        rw [← List.singleton_append, read_split (space_not_mem_head uppercase),
          readHead_singleton uppercase]
        rfl
      rw [bodyless] at isRead
      cases isRead
  · intro declares
    exact declares.read_eq

end RuleLine

end PrecedenceGrammar
