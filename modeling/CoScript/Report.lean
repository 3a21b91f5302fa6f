import CoScript.Source.Position

/-!
# Reports

What a failure looks like from outside: its kind, where it happened, in which task, and a message.

Results:
* `Report.text`: a report on one line, the kind first.
-/

namespace CoScript

/-- A failure as it is shown. -/
structure Report where
  kind : String
  message : String
  pos : Option Position
  task : Option String
  deriving Repr, DecidableEq

/-- A report on one line: the kind, the position and the task where they are known, the message. -/
def Report.text (r : Report) : String :=
  let place := match r.pos with
    | some p => " at " ++ toString p.line ++ ":" ++ toString p.column
    | none => ""
  let task := match r.task with
    | some t => " in task " ++ t
    | none => ""
  r.kind ++ place ++ task ++ ": " ++ r.message

end CoScript
