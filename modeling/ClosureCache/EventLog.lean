/-
A bounded log of what happened during a run.

Events are numbered from zero without gaps, also those that the log has no room
for.  A full log drops its oldest event for a new one and counts it; a log
without any room drops every event.  Clearing the log removes its events and
leaves numbering and count alone.
-/
import ClosureCache.Json.Identity

namespace ClosureCache

structure Event where
  seq : Nat
  traceId : String
  component : String
  event : String
  outcome : String
  /-- The code of the error, empty on success. -/
  errorCode : String
  site : Option SiteId
  detail : String
deriving DecidableEq, Repr

namespace Event

def toJson (e : Event) : Json :=
  .record [("seq", .nat e.seq), ("trace_id", .str e.traceId), ("component", .str e.component),
    ("event", .str e.event), ("outcome", .str e.outcome), ("error_code", .str e.errorCode),
    ("site", .nullable SiteId.toJson e.site), ("detail", .str e.detail)]

def fieldNames : List String :=
  ["seq", "trace_id", "component", "event", "outcome", "error_code", "site", "detail"]

def ofJson? (j : Json) : Option Event :=
  match j.fields? fieldNames with
  | some [seq, traceId, component, event, outcome, errorCode, site, detail] => do
    let seq ← Json.required? Json.asWord? seq
    let traceId ← Json.required? Json.asString? traceId
    let component ← Json.required? Json.asString? component
    let event ← Json.required? Json.asString? event
    let outcome ← Json.required? Json.asString? outcome
    let errorCode ← Json.required? Json.asString? errorCode
    let site ← Json.optional? SiteId.ofJson? site
    let detail ← Json.required? Json.asString? detail
    return { seq, traceId, component, event, outcome, errorCode, site, detail }
  | _ => none

end Event

/-- What is said of an event besides its number and the trace it belongs to. -/
structure Notice where
  component : String
  event : String
  outcome : String
  errorCode : String
  site : Option SiteId
  detail : String
deriving DecidableEq, Repr

def Notice.ok (component event : String) (site : Option SiteId) (detail : String) : Notice :=
  { component, event, outcome := "ok", errorCode := "", site, detail }

/-- A log with room for a fixed number of events. -/
structure EventLog where
  traceId : String
  capacity : Nat
  /-- The number of the next event. -/
  nextSeq : Nat
  /-- Number of events dropped for want of room. -/
  dropped : Nat
  /-- The events that are kept, the oldest first. -/
  events : Array Event
deriving DecidableEq, Repr

namespace EventLog

def empty (traceId : String) (capacity : Nat) : EventLog :=
  { traceId, capacity, nextSeq := 0, dropped := 0, events := #[] }

/-- The event that a notice becomes. -/
def stamp (log : EventLog) (n : Notice) : Event :=
  { seq := log.nextSeq, traceId := log.traceId, component := n.component, event := n.event,
    outcome := n.outcome, errorCode := n.errorCode, site := n.site, detail := n.detail }

/-- Adds an event, dropping the oldest ones as far as room is needed. -/
def emit (log : EventLog) (n : Notice) : EventLog :=
  let stamped := log.stamp n
  if log.capacity = 0 then
    { log with nextSeq := log.nextSeq + 1, dropped := log.dropped + 1 }
  else
    let surplus := log.events.size + 1 - log.capacity
    { log with
      nextSeq := log.nextSeq + 1
      dropped := log.dropped + surplus
      events := (if surplus = 0 then log.events else log.events.extract surplus).push stamped }

def clear (log : EventLog) : EventLog := { log with events := #[] }

def last? (log : EventLog) : Option Event := log.events.back?

/-- The events of one component and kind, the oldest first. -/
def matching (log : EventLog) (component event : String) : List Event :=
  log.events.toList.filter fun e => e.component == component && e.event == event

/-- The events as JSON, each on a line of its own that ends in a line feed. -/
def toJsonLines (log : EventLog) : String :=
  String.join (log.events.toList.map fun e => e.toJson.render ++ "\n")

end EventLog

end ClosureCache
