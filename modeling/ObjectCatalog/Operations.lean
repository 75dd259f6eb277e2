import ObjectCatalog.Observer

/-!
# The operations endpoint

Operators ask a running catalogue whether it is alive and ready, read the statistics of the segment
loop, and start a loop. A request is a method and a path; an answer is a status and a JSON body.

* `Service.answer`: the answer to a request, and the service that goes on.
-/

namespace ObjectCatalog

/-- A catalogue in operation with the statistics of its loops. -/
structure Service where
  catalog : Catalog
  registry : Registry
  loopBatchSize : Nat

/-- An answer to a request, or the connection dropped: status 0 without a body. -/
structure Answer where
  status : Nat
  body : Option Json := none

/-- What can be asked for. -/
inductive Route
  | health
  | readiness
  | stats
  | loop
  deriving DecidableEq

namespace Route

/-- The route of a path. -/
def ofPath? (path : String) : Option Route :=
  if path = "/healthz" then some health
  else if path = "/readyz" then some readiness
  else if path = "/stats" then some stats
  else if path = "/loop/run" then some loop
  else none

/-- The method that a route is asked with. -/
def method : Route → String
  | health | readiness | stats => "GET"
  | loop => "POST"

end Route

/-- Whether a character can be part of a scheme. -/
def isSchemeChar (c : Char) : Bool := c.isAlphanum || c = '+' || c = '-' || c = '.'

/-- What follows the scheme and the authority of an absolute target. -/
def afterAuthority? (target : List Char) : Option (List Char) :=
  match target.dropWhile isSchemeChar with
  | ':' :: '/' :: '/' :: rest => some (rest.dropWhile fun c => c ≠ '/' && c ≠ '?' && c ≠ '#')
  | _ => none

/-- The part of a request target that chooses the route: without scheme and authority, if it has
them, and without query and fragment. -/
def pathOf (target : String) : String :=
  let rest := (afterAuthority? target.toList).getD target.toList
  String.ofList (rest.takeWhile fun c => c ≠ '?' && c ≠ '#')

/-- The body of a failure, if there is an answer. -/
def Error.body : Error → Option Json
  | .capacityOverflow => none
  | e => some (.object [("kind", .text e.kind), ("message", .text e.message)])

/-- The number of tables of a catalogue. -/
def tableCount : Nat := 4

/-- The outcome of a readiness check. -/
def checkBody (fault : Option String) : Json :=
  .object [("ok", .bool fault.isNone), ("error", fault.elim .null .text)]

/-- Tells whether the tables exist. -/
def readinessAnswer (c : Catalog) : Answer :=
  let fault : Option String :=
    if c.store.isSome then none else some s!"0 of {tableCount} tables present, run --migrate"
  { status := if fault.isNone then 200 else 503
    body := some <| .object
      [("status", .text (if fault.isNone then "ok" else "error")),
        ("checks", .object [("sqlite", checkBody none), ("schema", checkBody fault)])] }

namespace Service

/-- Runs the segment loop with the tally. -/
def loopAnswer (now : Instant) (s : Service) : Answer × Service :=
  match s.catalog.run (Catalog.runTally now s.loopBatchSize s.registry) with
  | (.ok (summary, registry), catalog) =>
    ({ status := 200, body := some summary.toJson }, { s with catalog, registry })
  | (.error e, catalog) => ({ status := e.status, body := e.body }, { s with catalog })

/-- The answer of a route. -/
def routeAnswer (now : Instant) (s : Service) : Route → Answer × Service
  | .health => ({ status := 200, body := some (.object [("status", .text "ok")]) }, s)
  | .readiness => (readinessAnswer s.catalog, s)
  | .stats => ({ status := 200, body := some s.registry.toJson }, s)
  | .loop => s.loopAnswer now

/-- The answer to a request. What can be got can also be asked for its head, without the body. -/
def answer (now : Instant) (method target : String) (s : Service) : Answer × Service :=
  match Route.ofPath? (pathOf target) with
  | none => ({ status := 404 }, s)
  | some route =>
    if method = route.method then s.routeAnswer now route
    else if method = "HEAD" && route.method = "GET" then
      let (answer, s) := s.routeAnswer now route
      ({ answer with body := none }, s)
    else ({ status := 405 }, s)

end Service

end ObjectCatalog
