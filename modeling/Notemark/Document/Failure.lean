import Notemark.Body.Fault
import Notemark.Body.Paragraph
import Notemark.Header.Fields
import Notemark.Pipe.Compile
import Notemark.Schema.Document
import Notemark.Style.Pass
import Notemark.Value.Json

/-!
# Why a note has no document

* `Failure`: the causes, by the part of the work they come from,
* `Failure.message`: what is wrong, without the place,
* `Failure.text`: the same with the place, where there is one.
-/

namespace Notemark.Document

inductive Failure where
  /-- The body breaks the rules of its notation. -/
  | scan (e : Body.ScanError)
  /-- The tokens of the body have no tree. -/
  | tree (f : Body.TreeFault)
  | header (f : Header.Fault)
  /-- A class in the body cannot be converted. -/
  | style (f : Style.Fault)
  /-- The pipes of the header cannot be compiled. -/
  | pipe (f : Pipe.Fault)
  | schema (issues : List Schema.Issue)
  /-- The issues of a document cannot be written down. -/
  | report (f : JsonFault)

namespace Failure

def message : Failure → String
  | scan e => e.fault.message
  | tree f => f.message
  | header f => f.message
  | style f => f.message
  | pipe f => f.message
  | schema issues => Schema.issuesSummary issues
  | report f => f.message

def text : Failure → String
  | scan e => e.text
  | f => f.message

end Failure

end Notemark.Document
