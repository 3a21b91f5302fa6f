import CoScript.Main
import CoScript.Proofs.Task.Deadlock
import CoScript.Proofs.Jump.Parsed
import CoScript.Proofs.Jump.Stack
import CoScript.Proofs.Eval.Keeps
import CoScript.Proofs.Task.Bodies
import CoScript.Proofs.Jump.Session
import CoScript.Proofs.Parse.Depth
import CoScript.Proofs.Parse.Enough
import CoScript.Proofs.Parse.Annotations
import CoScript.Proofs.Parse.Formed
import CoScript.Proofs.Print.Alike
import CoScript.Proofs.Task.Rejections
import CoScript.Proofs.Eval.Constants
import CoScript.Proofs.Session.Constants
import CoScript.Proofs.Print.Operations
import CoScript.Proofs.Source.Splitting
import CoScript.Proofs.Task.Origins
import CoScript.Proofs.Parse.Lexical
import CoScript.Proofs.Parse.Calls
import CoScript.Proofs.Session.Budget
import CoScript.Proofs.Parse.Chains
import CoScript.Proofs.Parse.Imports
import CoScript.Proofs.Try.Completion
import CoScript.Proofs.Try.Moments
import CoScript.Proofs.Moved.Session
import CoScript.Proofs.Render.Endings
import CoScript.Proofs.Eval.Access
import CoScript.Proofs.Loop.Scopes
import CoScript.Proofs.Class.Construction
import CoScript.Proofs.Class.Session
import CoScript.Proofs.Source.Quoting
import CoScript.Proofs.Store.Frames
import CoScript.Proofs.Task.Limit
import CoScript.Proofs.Task.Failures
import CoScript.Proofs.Module.Chains
