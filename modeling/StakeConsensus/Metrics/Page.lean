import StakeConsensus.Metrics.Basic

/-!
# The metrics page

One path answers requests, and only requests to read. A query or a fragment behind
the path does not matter.
-/

namespace StakeConsensus

/-- The answer to a request. -/
structure Response where
  status : Nat
  contentType : Option String
  body : String
deriving DecidableEq, Inhabited

namespace Metrics

def contentType : String := "text/plain; version=0.0.4; charset=utf-8"

def page (m : Metrics) : Response := ⟨200, some contentType, m.text⟩

/-- The path of a request target. -/
def pathOf (target : String) : String :=
  String.ofList (target.toList.takeWhile fun c => c ≠ '?' && c ≠ '#')

/-- A request for the head of the page gets everything but its body. -/
def respond (m : Metrics) (method target : String) : Response :=
  if pathOf target ≠ "/metrics" then ⟨404, none, ""⟩
  else if method = "GET" then m.page
  else if method = "HEAD" then { m.page with body := "" }
  else ⟨405, none, ""⟩

end Metrics

end StakeConsensus
