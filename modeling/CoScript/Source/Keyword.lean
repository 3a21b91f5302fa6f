/-!
# Keywords

The words that the language reserves. Some of them are reserved only where they have a meaning of
their own, and name things elsewhere.

Results:
* `Keyword.ofText_text`, `Keyword.text_of_ofText`: a text finds the keyword that is spelled so.
-/

namespace CoScript

/-- A reserved word. -/
inductive Keyword where
  | constWord | letWord | varWord | ifWord | elseWord | forWord | switchWord | caseWord
  | defaultWord | breakWord | functionWord | asyncWord | awaitWord | returnWord | classWord
  | implementsWord | interfaceWord | typeWord | importWord | fromWord | asWord | extendsWord
  | newWord | thisWord | trueWord | falseWord | voidWord | promiseWord | whileWord | ofWord
  | continueWord | tryWord | catchWord | finallyWord | throwWord | nullWord | undefinedWord
  | superWord
  deriving Repr, DecidableEq

namespace Keyword

/-- The spelling of a keyword. -/
def text : Keyword → String
  | .constWord => "const"
  | .letWord => "let"
  | .varWord => "var"
  | .ifWord => "if"
  | .elseWord => "else"
  | .forWord => "for"
  | .switchWord => "switch"
  | .caseWord => "case"
  | .defaultWord => "default"
  | .breakWord => "break"
  | .functionWord => "function"
  | .asyncWord => "async"
  | .awaitWord => "await"
  | .returnWord => "return"
  | .classWord => "class"
  | .implementsWord => "implements"
  | .interfaceWord => "interface"
  | .typeWord => "type"
  | .importWord => "import"
  | .fromWord => "from"
  | .asWord => "as"
  | .extendsWord => "extends"
  | .newWord => "new"
  | .thisWord => "this"
  | .trueWord => "true"
  | .falseWord => "false"
  | .voidWord => "void"
  | .promiseWord => "Promise"
  | .whileWord => "while"
  | .ofWord => "of"
  | .continueWord => "continue"
  | .tryWord => "try"
  | .catchWord => "catch"
  | .finallyWord => "finally"
  | .throwWord => "throw"
  | .nullWord => "null"
  | .undefinedWord => "undefined"
  | .superWord => "super"

/-- All keywords. -/
def all : List Keyword := [
  .constWord, .letWord, .varWord, .ifWord, .elseWord, .forWord, .switchWord, .caseWord,
  .defaultWord, .breakWord, .functionWord, .asyncWord, .awaitWord, .returnWord, .classWord,
  .implementsWord, .interfaceWord, .typeWord, .importWord, .fromWord, .asWord, .extendsWord,
  .newWord, .thisWord, .trueWord, .falseWord, .voidWord, .promiseWord, .whileWord, .ofWord,
  .continueWord, .tryWord, .catchWord, .finallyWord, .throwWord, .nullWord, .undefinedWord,
  .superWord]

/-- The keyword with a spelling. -/
def ofText? (s : String) : Option Keyword :=
  all.find? (·.text == s)

/-- Whether a keyword also serves as a name where a name is expected. -/
def isContextual : Keyword → Bool
  | .asWord | .fromWord | .ofWord | .typeWord | .asyncWord | .promiseWord | .undefinedWord => true
  | _ => false

theorem ofText_text (k : Keyword) : ofText? k.text = some k := by
  cases k <;> decide

/-- What is found for a text has it as its spelling. -/
theorem text_of_ofText {s : String} {k : Keyword} (h : ofText? s = some k) : k.text = s := by
  have hk := List.find?_some h
  simpa using hk

end Keyword

end CoScript
