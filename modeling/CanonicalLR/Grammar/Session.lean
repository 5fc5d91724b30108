import CanonicalLR.Grammar.Definition

/-!
# Declaring in a session

A session makes declarations step by step on tables of its own. Symbols are entered under the
numbers that counters hand out, and whatever a declaration has changed when it is refused stays
changed. So it is seen here, and not taken for granted, that a refused one has changed nothing.
-/
namespace CanonicalLR

/-- Values under numbers, in the order in which they were entered. -/
abbrev Numbered (α : Type) := List (Nat × α)

namespace Numbered

variable {α : Type} (entries : Numbered α)

def values : List α := entries.map (·.2)

def contains (key : Nat) : Bool := entries.any (·.1 == key)

def get? (key : Nat) : Option α := (entries.find? (·.1 == key)).map (·.2)

/-- A number that is taken gets the new value in place of its old one. -/
def insert (key : Nat) (value : α) : Numbered α :=
  if entries.contains key then
    entries.map fun entry => if entry.1 == key then (key, value) else entry
  else entries ++ [(key, value)]

def update (key : Nat) (f : α → α) : Numbered α :=
  entries.map fun entry => if entry.1 == key then (entry.1, f entry.2) else entry

end Numbered

/-- The tables and the counters of a session. -/
structure Registry where
  terminals : Numbered Terminal
  nonterminals : Numbered Nonterminal
  rules : List Rule
  start : Option NonterminalId
  nextTerminal : TerminalId
  nextNonterminal : NonterminalId
  nextPriority : Nat
  warnings : List Warning
deriving DecidableEq, Repr

namespace Registry

def initial : Registry where
  terminals := [(TerminalId.eoi, ⟨"$eoi", none, none⟩),
    (TerminalId.epsilon, ⟨"$epsilon", none, none⟩), (TerminalId.error, ⟨"$error", none, none⟩)]
  nonterminals := [(NonterminalId.start, ⟨"$start", none⟩)]
  rules := []
  start := none
  nextTerminal := 3
  nextNonterminal := 1
  nextPriority := 1
  warnings := []

variable (s : Registry)

/-- The symbols that may stand on a right side. -/
def usable : Symbol → Bool
  | .terminal t => t != .eoi && t != .epsilon && s.terminals.contains t
  | .nonterminal n => n != .start && s.nonterminals.contains n

def nonterminalName (n : NonterminalId) : String :=
  ((s.nonterminals.get? n).map (·.name)).getD ""

def symbolName : Symbol → String
  | .terminal t => ((s.terminals.get? t).map (·.name)).getD ""
  | .nonterminal n => s.nonterminalName n

def productionText (left : NonterminalId) (right : List Symbol) : String :=
  let words := if right.isEmpty then ["ε"] else right.map s.symbolName
  " ".intercalate (s.nonterminalName left :: ":=" :: words)

/-- The tables without the numbers, which finishing makes a grammar of. -/
def builder : Builder where
  terminals := s.terminals.values
  nonterminals := s.nonterminals.values
  rules := s.rules
  start := s.start
  levels := s.nextPriority - 1
  warnings := s.warnings

def finish : Except DefinitionError Grammar := s.builder.finish

end Registry

/-- Steps that change the tables and may end in a refusal, which keeps the changes made so far. -/
abbrev Session := ExceptT DefinitionError (StateM Registry)

namespace Session

/-- What some steps answer and the tables that they leave, refused or not. -/
def exec {α : Type} (steps : Session α) (s : Registry) : Except DefinitionError α × Registry :=
  (steps.run.run s).run

def warn (w : Warning) : Session Unit :=
  modify fun s => { s with warnings := s.warnings ++ [w] }

def terminal (name : String) (precedence : Option Precedence) : Session TerminalId := do
  if !isIdentifier name then
    throw (.invalidTerminalName name)
  if (← get).terminals.values.any (·.name == name) then
    throw (.terminalTaken name)
  let id := (← get).nextTerminal
  modify fun s => { s with nextTerminal := s.nextTerminal + 1 }
  modify fun s => { s with terminals := s.terminals.insert id ⟨name, none, precedence⟩ }
  return id

def nonterminal (name : String) : Session NonterminalId := do
  if !isIdentifier name then
    throw (.invalidNonterminalName name)
  if (← get).nonterminals.values.any (·.name == name) then
    throw (.nonterminalTaken name)
  let id := (← get).nextNonterminal
  modify fun s => { s with nextNonterminal := s.nextNonterminal + 1 }
  modify fun s => { s with nonterminals := s.nonterminals.insert id ⟨name, none⟩ }
  return id

def precedence (assoc : String) : Session Precedence := do
  let known ← match Assoc.ofName? assoc with
    | some known => pure known
    | none => do
      warn (.unknownAssoc assoc)
      pure .unspecified
  let priority := (← get).nextPriority
  modify fun s => { s with nextPriority := s.nextPriority + 1 }
  return ⟨priority, known⟩

def typeTag (symbol : Symbol) (tag : String) : Session Unit :=
  match symbol with
  | .terminal t => modify fun s =>
    { s with terminals := s.terminals.update t fun x => { x with typeTag := some tag } }
  | .nonterminal n => modify fun s =>
    { s with nonterminals := s.nonterminals.update n fun x => { x with typeTag := some tag } }

def checkRightSide (right : List Symbol) : Session Unit := do
  for x in right do
    if !(← get).usable x then
      throw .undeclaredRightSide

def rule (left : NonterminalId) (right : List Symbol) (override : Option Precedence) :
    Session Nat := do
  if left == .start || !(← get).nonterminals.contains left then
    throw .undeclaredLeftSide
  checkRightSide right
  match (← get).rules.findIdx? fun r => r.left == left && r.right == right with
  | some index =>
    warn (.duplicateRule ((← get).productionText left right))
    return index
  | none =>
    modify fun s => { s with rules := s.rules ++ [⟨left, right, override, none⟩] }
    return (← get).rules.length - 1

def action (rule : Nat) (action : String) : Session Unit :=
  modify fun s => { s with rules := s.rules.modify rule fun r => { r with action := some action } }

def precedenceOf (rule : Nat) (terminal : String) : Session Unit := do
  match (← get).terminals.values.find? (·.name == terminal) with
  | some t => modify fun s =>
    { s with rules := s.rules.modify rule fun r => { r with override := t.precedence } }
  | none =>
    let s ← get
    let text := (s.rules[rule]?.map fun r => s.productionText r.left r.right).getD ""
    warn (.unknownPrecedenceTerminal terminal text)

def declare : Declaration → Session Declared
  | .terminal name precedence => return .terminal (← terminal name precedence)
  | .nonterminal name => return .nonterminal (← nonterminal name)
  | .precedence assoc => return .precedence (← precedence assoc)
  | .typeTag symbol tag => do typeTag symbol tag; return .done
  | .rule left right override => return .rule (← rule left right override)
  | .action rule text => do action rule text; return .done
  | .precedenceOf rule terminal => do precedenceOf rule terminal; return .done
  | .start symbol => do modify fun s => { s with start := some symbol }; return .done

/-- Make every declaration, whatever is refused, and collect the answers. -/
def declareAll : List Declaration → Registry → List (Except DefinitionError Declared) × Registry
  | [], s => ([], s)
  | d :: ds, s =>
    let (answer, s') := (declare d).exec s
    let (answers, last) := declareAll ds s'
    (answer :: answers, last)

variable {α β : Type} {s s' : Registry}

/-! ### What steps do -/

@[simp] theorem exec_pure (a : α) : exec (pure a) s = (.ok a, s) := rfl

@[simp] theorem exec_throw (e : DefinitionError) : exec (throw e : Session α) s = (.error e, s) :=
  rfl

@[simp] theorem exec_get : exec get s = (.ok s, s) := rfl

@[simp] theorem exec_modify (f : Registry → Registry) : exec (modify f) s = (.ok (), f s) := rfl

@[simp] theorem exec_bind (steps : Session α) (next : α → Session β) :
    exec (steps >>= next) s =
      match exec steps s with
      | (.ok a, s') => exec (next a) s'
      | (.error e, s') => (.error e, s') := by
  simp only [exec, ExceptT.run_bind, StateT.run_bind, Id.run_bind]
  rcases (steps.run.run s).run with ⟨_ | _, _⟩ <;> rfl

@[simp] theorem exec_ite (c : Prop) [Decidable c] (yes no : Session α) :
    exec (if c then yes else no) s = if c then exec yes s else exec no s := by
  split <;> rfl

theorem exec_terminal (name : String) (precedence : Option Precedence) :
    exec (terminal name precedence) s =
      if !isIdentifier name then (.error (.invalidTerminalName name), s)
      else if s.terminals.values.any (·.name == name) then (.error (.terminalTaken name), s)
      else (.ok s.nextTerminal, { s with
        nextTerminal := s.nextTerminal + 1
        terminals := s.terminals.insert s.nextTerminal ⟨name, none, precedence⟩ }) := by
  simp only [terminal, exec_ite, exec_bind, exec_get, exec_throw, exec_modify, exec_pure]

theorem exec_nonterminal (name : String) :
    exec (nonterminal name) s =
      if !isIdentifier name then (.error (.invalidNonterminalName name), s)
      else if s.nonterminals.values.any (·.name == name) then (.error (.nonterminalTaken name), s)
      else (.ok s.nextNonterminal, { s with
        nextNonterminal := s.nextNonterminal + 1
        nonterminals := s.nonterminals.insert s.nextNonterminal ⟨name, none⟩ }) := by
  simp only [nonterminal, exec_ite, exec_bind, exec_get, exec_throw, exec_modify, exec_pure]

theorem exec_precedence (assoc : String) :
    exec (precedence assoc) s =
      let opened := { s with nextPriority := s.nextPriority + 1 }
      match Assoc.ofName? assoc with
      | some known => (.ok ⟨s.nextPriority, known⟩, opened)
      | none => (.ok ⟨s.nextPriority, .unspecified⟩,
        { opened with warnings := s.warnings ++ [.unknownAssoc assoc] }) := by
  cases known : Assoc.ofName? assoc <;> simp only [precedence, known] <;> rfl

theorem exec_checkRightSide (right : List Symbol) :
    exec (checkRightSide right) s =
      (if right.all s.usable then .ok () else .error .undeclaredRightSide, s) := by
  induction right with
  | nil => rfl
  | cons x right ih =>
    cases usable : s.usable x with
    | false => simp [checkRightSide, usable]
    | true => simpa [checkRightSide, usable] using ih

theorem exec_rule (left : NonterminalId) (right : List Symbol) (override : Option Precedence) :
    exec (rule left right override) s =
      if left == .start || !s.nonterminals.contains left then (.error .undeclaredLeftSide, s)
      else if !right.all s.usable then (.error .undeclaredRightSide, s)
      else match s.rules.findIdx? fun r => r.left == left && r.right == right with
        | some index => (.ok index, { s with
          warnings := s.warnings ++ [.duplicateRule (s.productionText left right)] })
        | none => (.ok s.rules.length, { s with
          rules := s.rules ++ [⟨left, right, override, none⟩] }) := by
  simp only [rule, exec_ite, exec_bind, exec_get, exec_throw, exec_checkRightSide]
  cases right.all s.usable with
  | false => rfl
  | true =>
    simp only [if_true, Bool.not_true, Bool.false_eq_true, if_false]
    cases s.rules.findIdx? fun r => r.left == left && r.right == right with
    | some index => rfl
    | none => simp only [exec_bind, exec_modify, exec_get, exec_pure, List.length_append,
      List.length_singleton, Nat.add_sub_cancel]

theorem exec_typeTag (symbol : Symbol) (tag : String) :
    exec (typeTag symbol tag) s = (.ok (), match symbol with
      | .terminal t =>
        { s with terminals := s.terminals.update t fun x => { x with typeTag := some tag } }
      | .nonterminal n =>
        { s with nonterminals :=
          s.nonterminals.update n fun x => { x with typeTag := some tag } }) := by
  cases symbol <;> rfl

theorem exec_precedenceOf (rule : Nat) (terminal : String) :
    exec (precedenceOf rule terminal) s =
      (.ok (), match s.terminals.values.find? (·.name == terminal) with
        | some t =>
          { s with rules := s.rules.modify rule fun r => { r with override := t.precedence } }
        | none =>
          let text := (s.rules[rule]?.map fun r => s.productionText r.left r.right).getD ""
          { s with warnings := s.warnings ++ [.unknownPrecedenceTerminal terminal text] }) := by
  simp only [precedenceOf, exec_bind, exec_get]
  cases s.terminals.values.find? (·.name == terminal) <;> simp [warn]

end Session

end CanonicalLR
