import RegexLab.Shell.Batch
import RegexLab.Shell.Command
import RegexLab.Text.Lines

/-!
# The standard commands

## Main definitions

* `Command.compile`, `Command.usePostfix`, `Command.showPattern`, `Command.exit` — change or tell
  the state of the session.
* `Command.matchWord`, `Command.test`, `Command.batch` — match words.
* `Command.showPostfix`, `Command.showTree` — other forms of a pattern.
* `Registry.standard` — all of them by name.
-/

namespace RegexLab

namespace Command

def compiled (source : Bytes) : Except Failure (Pattern × Transcript) :=
  match Pattern.compile source with
  | .ok (p, notes) => .ok (p, notes.map .log)
  | .error e => .error (.regex e)

def verdict (accepted : Bool) : Bytes :=
  if accepted then ascii "match" else ascii "no match"

def stateCount (p : Pattern) : Bytes :=
  decimal p.automaton.size ++ ascii " states"

def unary (kind : ArgumentKind) (description : String)
    (run : Surroundings → Session → Bytes → Except Failure (Transcript × Session)) :
    Command where
  description := ascii description
  kinds := [kind]
  run around s arguments :=
    match arguments with
    | [argument] => run around s argument
    | _ => .error (.command .argumentCount)

def nullary (description : String)
    (run : Surroundings → Session → Except Failure (Transcript × Session)) : Command where
  description := ascii description
  kinds := []
  run around s _ := run around s

/-! ## The pattern in use -/

def compile : Command :=
  unary .pattern "compile <pattern>: compile an infix pattern and make it current"
    fun _ s source => do
      let (p, notes) ← compiled source
      return (notes ++ Event.line (ascii "compiled " ++ source.backquoted ++ ascii ": "
        ++ stateCount p), { s with current := some p })

def infixOf (tokens : Bytes) : Except Failure Bytes :=
  if tokens = [] then .ok []
  else
    match Tree.ofPostfix tokens with
    | .ok t => .ok t.text
    | .error e => .error (.regex e)

def usePostfix : Command :=
  unary .tokens "postfix <tokens>: compile a postfix pattern ('.' concatenates) and make it current"
    fun _ s tokens => do
      let source ← infixOf tokens
      let (p, notes) ← compiled source
      return (notes ++ Event.line (ascii "compiled " ++ tokens.backquoted ++ ascii " as "
        ++ source.backquoted ++ ascii ": " ++ stateCount p), { s with current := some p })

def showPattern : Command :=
  nullary "show: print the current pattern" fun _ s => do
    let p ← s.pattern
    return (Event.line (p.source.backquoted ++ ascii ": " ++ stateCount p ++ ascii ", "
      ++ decimal p.automaton.edgeCount ++ ascii " transitions"), s)

def exit : Command :=
  nullary "exit: leave the shell" fun _ s => .ok ([], { s with stopped := true })

/-! ## Matching -/

def matchWord : Command :=
  unary .word "match [word]: match a word against the current pattern" fun _ s word => do
    let p ← s.pattern
    return (Event.line (verdict (p.accepts word)), s)

def test : Command where
  description :=
    ascii "test <pattern> [word]: match a word against a pattern, keeping the current one"
  kinds := [.pattern, .word]
  run _ s arguments :=
    match arguments with
    | [source, word] => do
      let (p, notes) ← compiled source
      return (notes ++ Event.line (verdict (p.accepts word)), s)
    | _ => .error (.command .argumentCount)

/-- The lines of a file as words, each without one final carriage return. -/
def wordsOf (content : Bytes) : Array Bytes :=
  (content.lines.map Bytes.stripReturn).toArray

def report (results : List (Bytes × Bool)) : Transcript :=
  results.map (fun (word, accepted) => .out (word ++ ascii ": " ++ verdict accepted ++ ascii "\n"))
  ++ Event.line (decimal (results.countP (·.2)) ++ ascii "/" ++ decimal results.length
    ++ ascii " matched")

/-- Match every line of a file against the pattern in use. -/
def batch : Command :=
  unary .path "batch <file>: match every line of a file against the current pattern"
    fun around s path => do
      let p ← s.pattern
      match around.files.read path with
      | .error cause => .error (.command (.cannotOpen path cause))
      | .ok content =>
        let words := wordsOf content
        let results := words.toList.zip (p.acceptsEach words).toList
        return (Event.note .info (ascii "Matching " ++ decimal words.size ++ ascii " lines of "
          ++ path ++ ascii " against " ++ p.source.backquoted ++ ascii ".") :: report results, s)

/-! ## Other forms of a pattern -/

def parsed (source : Bytes) : Except Failure Tree :=
  (parse source).mapError .regex

/-- Print the postfix text of a pattern. That of the empty pattern is shown in quotes. -/
def showPostfix : Command :=
  unary .pattern "topostfix <pattern>: print the postfix form of a pattern" fun _ s source => do
    if source = [] then return (Event.line (ascii "''"), s)
    let t ← parsed source
    let tokens ← t.postfixText.mapError .regex
    return (Event.line tokens, s)

def showTree : Command :=
  unary .pattern "tree <pattern>: print the parse tree of a pattern" fun _ s source => do
    if source = [] then .error (.command .noTree)
    else
      let t ← parsed source
      return ((t.listing 0).map .out, s)

/-! ## Help -/

def help : Command :=
  nullary "help: list the commands" fun around s =>
    .ok (around.descriptions.map (fun d => .out (ascii "  " ++ d ++ ascii "\n")) ++ [.flush], s)

end Command

def Registry.standard : Registry where
  commands := [
    (ascii "batch", .batch),
    (ascii "compile", .compile),
    (ascii "exit", .exit),
    (ascii "help", .help),
    (ascii "match", .matchWord),
    (ascii "postfix", .usePostfix),
    (ascii "show", .showPattern),
    (ascii "test", .test),
    (ascii "topostfix", .showPostfix),
    (ascii "tree", .showTree)]

end RegexLab
