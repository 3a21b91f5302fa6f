import CoScript.Tree.Parser.Stmt

/-!
# From tokens to programs

The rules of the grammar are tied together level by level: the rules of one level call those of the
level below. A part of the input is read at most four levels below the place where its first token
was looked at, so four levels for each token are enough.

Results:
* `Program.ofTokens`, `parse`: the program that tokens, or a text, stand for.
-/

namespace CoScript

/-- The rules that follow an input to a depth. -/
def Rules.ofDepth : Nat → Rules
  | 0 => .exhausted
  | n + 1 =>
    { statement := fun c ts => Grammar.statement (ofDepth n) c ts
      assignment := fun c ts => Grammar.assignment (ofDepth n) c ts
      binary := fun level c ts => Grammar.binary (ofDepth n) level c ts
      unary := fun c ts => Grammar.unary (ofDepth n) c ts
      construction := fun c ts => Grammar.construction (ofDepth n) c ts
      type := fun c ts => Grammar.type (ofDepth n) c ts }

/-- The depth that an input of so many tokens can have. -/
def depthFor (tokens : Nat) : Nat :=
  4 * (tokens + 1)

/-- The program that tokens stand for. -/
def Program.ofTokens (tokens : Tokens) : Except SyntaxError Program :=
  let rules := Rules.ofDepth (depthFor tokens.list.length)
  match Grammar.program rules (.topLevel tokens.ending) tokens.list with
  | .ok p _ => .ok p
  | .rejected e => .error (.grammatical e)
  | .broken e => .error (.lexical e)
  | .tooDeep => .error .tooDeep

/-- The program that a source text stands for. -/
def parse (source : String) : Except SyntaxError Program :=
  Program.ofTokens (tokenize source)

end CoScript
