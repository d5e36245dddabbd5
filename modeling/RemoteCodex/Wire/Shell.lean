import Mathlib.Data.List.Basic

/-!
# Words of a shell

How a POSIX shell divides a command into words and operators: quoted and
unquoted text, and what of it is open to expansions. Here-documents, and the
commands inside of an expansion, are not read.
-/

namespace RemoteCodex.Wire.Shell

/-- A character of a word: protected by a quotation, without a meaning of its
own, or one that an expansion may start with. -/
inductive Part
  | quoted (c : Char)
  | plain (c : Char)
  | active (c : Char)
  deriving DecidableEq, Repr

inductive Token
  | word (parts : List Part)
  | operator (c : Char)
  deriving DecidableEq, Repr

/-- Where the next character stands. -/
inductive Mode
  | plain | escape | single | double | doubleEscape | comment
  deriving DecidableEq, Repr

/-- The tokens so far, and the word that is being read. -/
structure Lexer where
  tokens : List Token
  word : Option (List Part)
  mode : Mode
  deriving DecidableEq, Repr

namespace Lexer

def start : Lexer := ⟨[], none, .plain⟩

/-- The word ends. -/
def flush (s : Lexer) : Lexer := { s with tokens := s.tokens ++ (s.word.map Token.word).toList, word := none }

/-- A word begins, if none is being read. -/
def opened (s : Lexer) (mode : Mode) : Lexer := { s with word := some (s.word.getD []), mode }

def add (s : Lexer) (parts : List Part) (mode : Mode) : Lexer := { s with word := some (s.word.getD [] ++ parts), mode }

def operator (s : Lexer) (c : Char) : Lexer := { s.flush with tokens := s.flush.tokens ++ [.operator c], mode := .plain }

def isBlank (c : Char) : Bool := c = ' ' || c = '\t'

def isOperator (c : Char) : Bool := "|&;<>()\n".toList.contains c

def isActive (c : Char) : Bool := "$`*?[~=%".toList.contains c

def step (s : Lexer) (c : Char) : Lexer :=
  match s.mode with
  | .plain =>
    if c = '\'' then s.opened .single
    else if c = '"' then s.opened .double
    else if c = '\\' then { s with mode := .escape }
    else if isBlank c then s.flush
    else if isOperator c then s.operator c
    else if c = '#' ∧ s.word = none then { s with mode := .comment }
    else if isActive c then s.add [.active c] .plain
    else s.add [.plain c] .plain
  | .escape => if c = '\n' then { s with mode := .plain } else s.add [.quoted c] .plain
  | .single => if c = '\'' then { s with mode := .plain } else s.add [.quoted c] .single
  | .double =>
    if c = '"' then { s with mode := .plain }
    else if c = '\\' then { s with mode := .doubleEscape }
    else if c = '$' ∨ c = '`' then s.add [.active c] .double
    else s.add [.quoted c] .double
  | .doubleEscape =>
    if c = '\n' then { s with mode := .double }
    else if "$`\"\\".toList.contains c then s.add [.quoted c] .double
    else s.add [.quoted '\\', .quoted c] .double
  | .comment => if c = '\n' then s.operator c else s

def run (s : Lexer) (text : List Char) : Lexer := text.foldl step s

@[simp] theorem run_nil (s : Lexer) : s.run [] = s := rfl

@[simp] theorem run_cons (s : Lexer) (c : Char) (text : List Char) : s.run (c :: text) = (s.step c).run text := rfl

@[simp] theorem run_append (s : Lexer) (first second : List Char) : s.run (first ++ second) = (s.run first).run second :=
  List.foldl_append

end Lexer

/-- The tokens of a whole text; none if a quotation is left open. -/
def tokenize (text : List Char) : Option (List Token) :=
  let s := Lexer.start.run text
  if s.mode = .plain ∨ s.mode = .comment then some s.flush.tokens else none

/-- A text in single quotes; a single quote in it stands in double quotes between two of them. -/
def singleQuoted (text : List Char) : List Char :=
  '\'' :: (text.flatMap fun c => if c = '\'' then "'\"'\"'".toList else [c]) ++ ['\'']

theorem run_quoted (tokens : List Token) (word : List Part) (text : List Char) :
    Lexer.run ⟨tokens, some word, .single⟩ (text.flatMap fun c => if c = '\'' then "'\"'\"'".toList else [c]) =
      ⟨tokens, some (word ++ text.map .quoted), .single⟩ := by
  induction text generalizing word with
  | nil => simp
  | cons c text ih =>
    rw [List.flatMap_cons, Lexer.run_append]
    have hone : Lexer.run ⟨tokens, some word, .single⟩ (if c = '\'' then "'\"'\"'".toList else [c]) =
        ⟨tokens, some (word ++ [.quoted c]), .single⟩ := by
      by_cases hc : c = '\''
      · subst hc
        rfl
      · simp [hc, Lexer.step, Lexer.add]
    rw [hone, ih]
    simp

/-- A quoted text is one word, or goes on with the one that is being read; no character of it is open to an expansion. -/
theorem run_singleQuoted (tokens : List Token) (word : Option (List Part)) (text : List Char) :
    Lexer.run ⟨tokens, word, .plain⟩ (singleQuoted text) =
      ⟨tokens, some (word.getD [] ++ text.map .quoted), .plain⟩ := by
  have hopen : Lexer.step ⟨tokens, word, .plain⟩ '\'' = ⟨tokens, some (word.getD []), .single⟩ := rfl
  rw [singleQuoted, List.cons_append, Lexer.run_cons, Lexer.run_append, hopen, run_quoted]
  rfl

/-- Quoted texts with blanks between them. -/
def joined (texts : List (List Char)) : List Char := [' '].intercalate (texts.map singleQuoted)

theorem joined_cons (text : List Char) (more : List Char) (texts : List (List Char)) :
    joined (text :: more :: texts) = singleQuoted text ++ ' ' :: joined (more :: texts) := by
  simp [joined, List.intercalate]

/-- Quoted texts outside of a word are the words that follow. -/
theorem tokens_joined (tokens : List Token) (texts : List (List Char)) :
    (Lexer.run ⟨tokens, none, .plain⟩ (joined texts)).mode = .plain ∧
      (Lexer.run ⟨tokens, none, .plain⟩ (joined texts)).flush.tokens =
        tokens ++ texts.map fun text => .word (text.map .quoted) := by
  induction texts generalizing tokens with
  | nil => simp [joined, Lexer.flush]
  | cons text texts ih =>
    cases texts with
    | nil =>
      have hone : joined [text] = singleQuoted text := by simp [joined]
      rw [hone, run_singleQuoted]
      simp [Lexer.flush]
    | cons more texts =>
      have hblank : Lexer.step ⟨tokens, some (text.map .quoted), .plain⟩ ' ' =
          ⟨tokens ++ [.word (text.map .quoted)], none, .plain⟩ := rfl
      rw [joined_cons, Lexer.run_append, run_singleQuoted, Option.getD_none, List.nil_append, Lexer.run_cons, hblank]
      obtain ⟨hmode, htokens⟩ := ih (tokens ++ [.word (text.map .quoted)])
      exact ⟨hmode, by rw [htokens, List.map_cons, List.append_assoc]; rfl⟩

end RemoteCodex.Wire.Shell
