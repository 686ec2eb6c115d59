import PrecedenceGrammar.Parser.Configuration

/-!
# Parser steps

One step compares the top of the stack with the next unread symbol.  Less or
equal shifts the symbol.  Greater reduces the longest body at the top of the
stack that starts above the topmost strictly less marker.  A step that can do
neither ends the run.
-/

namespace PrecedenceGrammar

/-- The longest suffix that is the body of a production, with its head. -/
def Grammar.longestBody? (grammar : Grammar) : List Symbol → Option (List Symbol × Symbol)
  | [] => none
  | symbol :: later =>
    match grammar.headOf? (symbol :: later) with
    | some head => some (symbol :: later, head)
    | none => longestBody? grammar later

/-- What is found is a nonempty suffix with its head, and no longer suffix is the
body of a production. -/
theorem Grammar.longestBody?_eq_some_iff (grammar : Grammar) (basis body : List Symbol)
    (head : Symbol) :
    grammar.longestBody? basis = some (body, head) ↔
      body ≠ [] ∧ grammar.headOf? body = some head ∧
        ∃ skipped, basis = skipped ++ body ∧
          ∀ front back, skipped = front ++ back → back ≠ [] →
            grammar.headOf? (back ++ body) = none := by
  induction basis with
  | nil =>
    simp only [longestBody?, reduceCtorEq, false_iff]
    intro isLongest
    obtain ⟨nonempty, -, skipped, split, -⟩ := isLongest
    exact nonempty (List.append_eq_nil_iff.mp split.symm).2
  | cons symbol later induction =>
    rw [longestBody?]
    split
    · next whole found =>
      constructor
      · intro same
        cases same
        refine ⟨List.cons_ne_nil _ _, found, [], rfl, ?_⟩
        intro front back split nonempty
        exact absurd (List.append_eq_nil_iff.mp split.symm).2 nonempty
      · intro isLongest
        obtain ⟨-, isBody, skipped, split, none_longer⟩ := isLongest
        cases skipped with
        | nil =>
          subst split
          rw [Option.some_inj.mp (found.symm.trans isBody)]
        | cons first rest =>
          have free := none_longer [] (first :: rest) rfl (List.cons_ne_nil _ _)
          rw [← split, found] at free
          cases free
    · next absent =>
      rw [induction]
      constructor
      · intro isLongest
        obtain ⟨nonempty, isBody, skipped, rfl, none_longer⟩ := isLongest
        refine ⟨nonempty, isBody, symbol :: skipped, rfl, ?_⟩
        intro front back split backNonempty
        cases front with
        | nil =>
          rw [List.nil_append] at split
          rw [← split]
          exact absent
        | cons first front =>
          exact none_longer front back (List.cons.inj split).2 backNonempty
      · intro isLongest
        obtain ⟨nonempty, isBody, skipped, split, none_longer⟩ := isLongest
        cases skipped with
        | nil =>
          rw [List.nil_append] at split
          rw [split, isBody] at absent
          cases absent
        | cons first skipped =>
          have tails := (List.cons.inj split).2
          refine ⟨nonempty, isBody, skipped, tails, ?_⟩
          intro front back inner backNonempty
          exact none_longer (first :: front) back (by rw [inner]; rfl) backNonempty

inductive Reduction where
  | reduced (body : List Symbol) (head : Symbol) (stack : Stack)
  | noBasisStart
  | noSuchRule (basis : List Symbol)
  | unrelatedHead (body : List Symbol) (head : Symbol)
  deriving DecidableEq

/-- Replaces the longest body within the basis by its head, together with the
markers of the body. -/
def Stack.reduce (grammar : Grammar) (table : Table) (stack : Stack) : Reduction :=
  match stack.basis? with
  | none => .noBasisStart
  | some basis =>
    match grammar.longestBody? basis with
    | none => .noSuchRule basis
    | some (body, head) =>
      let below : Stack := stack.drop body.length
      let marker := table.relation below.top head
      if marker.isEmpty then
        .unrelatedHead body head
      else
        .reduced body head (⟨marker, head⟩ :: below)

inductive Action where
  | shift (symbol : Symbol)
  | reduce (body : List Symbol) (head : Symbol)
  deriving DecidableEq

inductive Ending where
  | accepted
  | unrelated (top next : Symbol)
  | noBasisStart
  | unrelatedHead (body : List Symbol) (head : Symbol)
  | noSuchRule (basis : List Symbol)
  | inputExhausted
  | endless
  deriving DecidableEq

/-- The result of a step: a next configuration or the end of the run. -/
inductive Step where
  | moved (action : Action) (next : Configuration)
  | halted (ending : Ending)
  deriving DecidableEq

def Reduction.step (reduction : Reduction) (input : List Symbol) : Step :=
  match reduction with
  | .reduced body head stack => .moved (.reduce body head) ⟨stack, input⟩
  | .noBasisStart => .halted .noBasisStart
  | .noSuchRule basis => .halted (.noSuchRule basis)
  | .unrelatedHead body head => .halted (.unrelatedHead body head)

def Configuration.step (grammar : Grammar) (table : Table) (configuration : Configuration) :
    Step :=
  match configuration.input with
  | [] => .halted .inputExhausted
  | next :: unread =>
    let relation := table.relation configuration.stack.top next
    if relation.isEmpty then
      .halted (.unrelated configuration.stack.top next)
    else if relation.greater then
      if configuration.isComplete grammar.start then
        .halted .accepted
      else
        (configuration.stack.reduce grammar table).step configuration.input
    else
      .moved (.shift next) ⟨⟨relation, next⟩ :: configuration.stack, unread⟩

end PrecedenceGrammar
