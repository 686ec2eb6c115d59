import PrecedenceGrammar.Parser.Step

/-!
# Parser steps as a relation

A move is either a shift or a reduction, and a reduction takes a body of the
grammar from the top of the stack.  Runs are reasoned about through the moves,
and the tests inside of a step are not looked at again.
-/

namespace PrecedenceGrammar

namespace Stack

@[simp] theorem symbols_nil : symbols [] = [] := rfl

@[simp] theorem symbols_cons (entry : StackEntry) (below : Stack) :
    symbols (entry :: below) = symbols below ++ [entry.symbol] := by
  simp [symbols]

theorem symbols_append (above below : Stack) :
    symbols (above ++ below) = symbols below ++ symbols above := by
  simp [symbols]

@[simp] theorem length_symbols (stack : Stack) : (symbols stack).length = stack.length := by
  simp [symbols]

private theorem symbols_drop_append_take (stack : Stack) (amount : Nat) :
    symbols (stack.drop amount) ++ symbols (stack.take amount) = symbols stack := by
  rw [← symbols_append, List.take_append_drop]

theorem symbols_drop
    {stack : Stack} {front body : List Symbol} (split : symbols stack = front ++ body) :
    symbols (stack.drop body.length) = front := by
  have sizes : stack.length = front.length + body.length := by
    rw [← length_symbols, split, List.length_append]
  have whole := (symbols_drop_append_take stack body.length).trans split
  refine (List.append_inj whole ?_).1
  rw [length_symbols, List.length_drop]
  omega

/-- Each symbol on the stack has an entry, which splits the stack as the symbol
splits the symbols. -/
theorem exists_entry_of_symbols
    {stack : Stack} {front back : List Symbol} {symbol : Symbol}
    (split : symbols stack = front ++ symbol :: back) :
    ∃ upper entry below, stack = upper ++ entry :: below ∧ entry.symbol = symbol ∧
      symbols below = front ∧ symbols upper = back := by
  have mapped : stack.map (·.symbol) = back.reverse ++ symbol :: front.reverse := by
    rw [← List.reverse_inj, ← symbols, split]
    simp
  obtain ⟨upper, rest, rfl, upper_eq, rest_eq⟩ := List.map_eq_append_iff.mp mapped
  obtain ⟨entry, below, rfl, isSymbol, below_eq⟩ := List.map_eq_cons_iff.mp rest_eq
  exact ⟨upper, entry, below, rfl, isSymbol, by rw [symbols, below_eq, List.reverse_reverse],
    by rw [symbols, upper_eq, List.reverse_reverse]⟩

theorem top_eq_of_symbols
    {stack : Stack} {front : List Symbol} {symbol : Symbol}
    (split : symbols stack = front ++ [symbol]) :
    top stack = symbol := by
  cases stack with
  | nil => simp at split
  | cons entry below =>
      rw [symbols_cons] at split
      exact List.singleton_inj.mp (List.append_inj' split rfl).2

/-- Every marker is the relation of the symbol below it to the symbol above. -/
def Marked (table : Table) : Stack → Prop
  | [] => True
  | entry :: below => entry.marker = table.relation (top below) entry.symbol ∧ Marked table below

theorem Marked.of_append
    {table : Table} {upper below : Stack} (marked : Marked table (upper ++ below)) :
    Marked table below := by
  induction upper with
  | nil => exact marked
  | cons entry upper induction => exact induction marked.2

theorem Marked.drop
    {table : Table} {stack : Stack} (amount : Nat) (marked : Marked table stack) :
    Marked table (stack.drop amount) := by
  rw [← List.take_append_drop amount stack] at marked
  exact marked.of_append

private theorem basisBelow?_eq_some_iff
    {stack : Stack} {above basis : List Symbol} :
    basisBelow? above stack = some basis ↔
      ∃ upper entry below, stack = upper ++ entry :: below ∧
        entry.marker.isStrictlyLess = true ∧
        (∀ other ∈ upper, other.marker.isStrictlyLess = false) ∧
        basis = entry.symbol :: (symbols upper ++ above) := by
  induction stack generalizing above with
  | nil => simp [basisBelow?]
  | cons first later induction =>
      rw [basisBelow?]
      split
      · next starts =>
        constructor
        · intro same
          cases same
          exact ⟨[], first, later, rfl, starts, by simp, rfl⟩
        · intro beginsBelow
          obtain ⟨upper, entry, below, split, isStart, passed, rfl⟩ := beginsBelow
          cases upper with
          | nil =>
              obtain ⟨rfl, rfl⟩ := List.cons.inj split
              rfl
          | cons other upper =>
              obtain ⟨rfl, _⟩ := List.cons.inj split
              rw [passed first List.mem_cons_self] at starts
              cases starts
      · next passes =>
        rw [induction]
        constructor
        · intro beginsBelow
          obtain ⟨upper, entry, below, rfl, isStart, passed, rfl⟩ := beginsBelow
          refine ⟨first :: upper, entry, below, rfl, isStart, ?_, by simp⟩
          intro other member
          rcases List.mem_cons.mp member with rfl | further
          · exact eq_false_of_ne_true passes
          · exact passed other further
        · intro beginsBelow
          obtain ⟨upper, entry, below, split, isStart, passed, rfl⟩ := beginsBelow
          cases upper with
          | nil =>
              obtain ⟨rfl, rfl⟩ := List.cons.inj split
              exact absurd isStart passes
          | cons other upper =>
              obtain ⟨rfl, rfl⟩ := List.cons.inj split
              refine ⟨upper, entry, below, rfl, isStart, ?_, by simp⟩
              intro other member
              exact passed other (List.mem_cons_of_mem _ member)

/-- The basis begins at the topmost strictly less marker. -/
theorem basis?_eq_some_iff
    {stack : Stack} {basis : List Symbol} :
    stack.basis? = some basis ↔
      ∃ upper entry below, stack = upper ++ entry :: below ∧
        entry.marker.isStrictlyLess = true ∧
        (∀ other ∈ upper, other.marker.isStrictlyLess = false) ∧
        basis = entry.symbol :: symbols upper := by
  simp [basis?, basisBelow?_eq_some_iff]

theorem exists_symbols_eq_of_basis?
    {stack : Stack} {basis : List Symbol} (found : stack.basis? = some basis) :
    ∃ front, symbols stack = front ++ basis := by
  obtain ⟨upper, entry, below, rfl, _, _, rfl⟩ := basis?_eq_some_iff.mp found
  exact ⟨symbols below, by simp [symbols_append]⟩

theorem exists_basis?
    {stack : Stack} {entry : StackEntry} (member : entry ∈ stack)
    (starts : entry.marker.isStrictlyLess = true) :
    ∃ basis, stack.basis? = some basis := by
  have general : ∀ above, ∃ basis, basisBelow? above stack = some basis := by
    induction stack with
    | nil => cases member
    | cons first later induction =>
        intro above
        rw [basisBelow?]
        split
        · exact ⟨_, rfl⟩
        · next passes =>
          rcases List.mem_cons.mp member with rfl | further
          · exact absurd starts passes
          · exact induction further _
  exact general []

/-- The longest body within a basis is at the top of the stack. -/
theorem exists_symbols_eq_of_longestBody?
    {grammar : Grammar} {stack : Stack} {basis body : List Symbol} {head : Symbol}
    (found : stack.basis? = some basis)
    (longest : grammar.longestBody? basis = some (body, head)) :
    ∃ front, symbols stack = front ++ body := by
  obtain ⟨_, _, skipped, rfl, _⟩ := (grammar.longestBody?_eq_some_iff _ _ _).mp longest
  obtain ⟨front, split⟩ := exists_symbols_eq_of_basis? found
  exact ⟨front ++ skipped, by rw [split, List.append_assoc]⟩

/-- A reduction takes a body off the stack and puts its head on it, where the
head is related to what is below. -/
theorem reduce_eq_reduced
    {grammar : Grammar} {table : Table} {stack next : Stack} {body : List Symbol}
    {head : Symbol} (reduced : stack.reduce grammar table = .reduced body head next) :
    ∃ front, symbols stack = front ++ body ∧ body ≠ [] ∧
      grammar.headOf? body = some head ∧
      (table.relation (top (stack.drop body.length)) head).isEmpty = false ∧
      next = ⟨table.relation (top (stack.drop body.length)) head, head⟩ ::
        stack.drop body.length := by
  unfold reduce at reduced
  split at reduced
  · cases reduced
  · next basis found =>
    split at reduced
    · cases reduced
    · next _ _ longest =>
      dsimp only at reduced
      split at reduced
      · cases reduced
      · next related =>
        cases reduced
        obtain ⟨nonempty, isBody, _⟩ := (grammar.longestBody?_eq_some_iff _ _ _).mp longest
        obtain ⟨front, split⟩ := exists_symbols_eq_of_longestBody? found longest
        exact ⟨front, split, nonempty, isBody, eq_false_of_ne_true related, rfl⟩

theorem basis?_eq_none_of_reduce
    {grammar : Grammar} {table : Table} {stack : Stack}
    (stuck : stack.reduce grammar table = .noBasisStart) :
    stack.basis? = none := by
  unfold reduce at stuck
  split at stuck
  · next missing => exact missing
  · split at stuck
    · cases stuck
    · dsimp only at stuck
      split at stuck <;> cases stuck

end Stack

theorem Relation.shifts_of_not_empty
    {relation : Relation} (related : relation.isEmpty = false)
    (notGreater : relation.greater = false) :
    relation.shifts = true := by
  rcases relation with ⟨_ | _, _ | _, _ | _⟩ <;> simp_all [isEmpty, shifts]

theorem Relation.isEmpty_of_shifts
    {relation : Relation} (shifts : relation.shifts = true) :
    relation.isEmpty = false := by
  rcases relation with ⟨_ | _, _ | _, _ | _⟩ <;> simp_all [isEmpty, Relation.shifts]

theorem Relation.isEmpty_of_greater
    {relation : Relation} (greater : relation.greater = true) :
    relation.isEmpty = false := by
  simp [isEmpty, greater]

namespace Configuration

variable {grammar : Grammar} {table : Table}

inductive Moves (grammar : Grammar) (table : Table) :
    Configuration → Action → Configuration → Prop where
  | shift {stack : Stack} {next : Symbol} {unread : List Symbol}
      (shifts : (table.relation stack.top next).shifts = true)
      (notGreater : (table.relation stack.top next).greater = false) :
      Moves grammar table ⟨stack, next :: unread⟩ (.shift next)
        ⟨⟨table.relation stack.top next, next⟩ :: stack, unread⟩
  | reduce {stack reduced : Stack} {next : Symbol} {unread body : List Symbol} {head : Symbol}
      (greater : (table.relation stack.top next).greater = true)
      (incomplete : isComplete ⟨stack, next :: unread⟩ grammar.start = false)
      (reduction : stack.reduce grammar table = .reduced body head reduced) :
      Moves grammar table ⟨stack, next :: unread⟩ (.reduce body head)
        ⟨reduced, next :: unread⟩

theorem step_eq_moved_iff
    {configuration next : Configuration} {action : Action} :
    configuration.step grammar table = .moved action next ↔
      Moves grammar table configuration action next := by
  constructor
  · intro moved
    obtain ⟨stack, input⟩ := configuration
    cases input with
    | nil => cases moved
    | cons symbol unread =>
        simp only [step] at moved
        split at moved
        · cases moved
        · next related =>
          split at moved
          · next greater =>
            split at moved
            · cases moved
            · next incomplete =>
              cases reduction : stack.reduce grammar table with
              | reduced body head below =>
                  rw [reduction] at moved
                  cases moved
                  exact .reduce greater (eq_false_of_ne_true incomplete) reduction
              | _ =>
                  rw [reduction] at moved
                  cases moved
          · next notGreater =>
            cases moved
            have isRelated := eq_false_of_ne_true related
            have isNotGreater := eq_false_of_ne_true notGreater
            exact .shift (Relation.shifts_of_not_empty isRelated isNotGreater) isNotGreater
  · intro moves
    cases moves with
    | shift shifts notGreater =>
        simp [step, Relation.isEmpty_of_shifts shifts, notGreater]
    | reduce greater incomplete reduction =>
        simp [step, Relation.isEmpty_of_greater greater, greater, incomplete, reduction,
          Reduction.step]

theorem isComplete_iff
    {configuration : Configuration} {start : Symbol} :
    configuration.isComplete start = true ↔
      ∃ marker, configuration = ⟨[⟨marker, start⟩], [.endMarker]⟩ := by
  obtain ⟨stack, input⟩ := configuration
  constructor
  · intro complete
    unfold isComplete at complete
    split at complete
    · next entry stack_eq input_eq =>
      simp only at stack_eq input_eq
      subst stack_eq input_eq
      obtain ⟨marker, symbol⟩ := entry
      cases eq_of_beq complete
      exact ⟨marker, rfl⟩
    · cases complete
  · intro complete
    obtain ⟨marker, same⟩ := complete
    rw [same]
    simp [isComplete]

/-- Why a step is the last one. -/
inductive Halts (grammar : Grammar) (table : Table) : Configuration → Ending → Prop where
  | inputExhausted {stack : Stack} : Halts grammar table ⟨stack, []⟩ .inputExhausted
  | unrelated {stack : Stack} {next : Symbol} {unread : List Symbol}
      (empty : (table.relation stack.top next).isEmpty = true) :
      Halts grammar table ⟨stack, next :: unread⟩ (.unrelated stack.top next)
  | accepted {stack : Stack} {next : Symbol} {unread : List Symbol}
      (greater : (table.relation stack.top next).greater = true)
      (complete : isComplete ⟨stack, next :: unread⟩ grammar.start = true) :
      Halts grammar table ⟨stack, next :: unread⟩ .accepted
  | stuck {stack : Stack} {next : Symbol} {unread : List Symbol} {reduction : Reduction}
      {ending : Ending} (greater : (table.relation stack.top next).greater = true)
      (incomplete : isComplete ⟨stack, next :: unread⟩ grammar.start = false)
      (attempt : stack.reduce grammar table = reduction)
      (ends : reduction.step (next :: unread) = .halted ending) :
      Halts grammar table ⟨stack, next :: unread⟩ ending

theorem step_eq_halted_iff
    {configuration : Configuration} {ending : Ending} :
    configuration.step grammar table = .halted ending ↔
      Halts grammar table configuration ending := by
  constructor
  · intro halted
    obtain ⟨stack, input⟩ := configuration
    cases input with
    | nil =>
        cases halted
        exact .inputExhausted
    | cons symbol unread =>
        simp only [step] at halted
        split at halted
        · next empty =>
          cases halted
          exact .unrelated empty
        · split at halted
          · next greater =>
            split at halted
            · next complete =>
              cases halted
              exact .accepted greater complete
            · next incomplete =>
              exact .stuck greater (eq_false_of_ne_true incomplete) rfl halted
          · cases halted
  · intro halts
    cases halts with
    | inputExhausted => rfl
    | unrelated empty => simp [step, empty]
    | accepted greater complete =>
        simp [step, Relation.isEmpty_of_greater greater, greater, complete]
    | stuck greater incomplete attempt ends =>
        simp [step, Relation.isEmpty_of_greater greater, greater, incomplete, attempt, ends]

theorem Halts.isComplete_of_accepted
    {configuration : Configuration} (halts : Halts grammar table configuration .accepted) :
    configuration.isComplete grammar.start = true := by
  generalize ending_eq : Ending.accepted = ending at halts
  cases halts with
  | accepted _ complete => exact complete
  | @stuck _ _ _ reduction _ _ _ _ ends =>
      subst ending_eq
      cases reduction <;> cases ends
  | _ => cases ending_eq

end Configuration

end PrecedenceGrammar
