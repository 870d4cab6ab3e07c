/-
The settings of a run, and their JSON form.

A configuration spelt in JSON may leave out any field, which then has its
default.  It has to name a trace that is not blank.
-/
import ClosureCache.Json.Decode
import ClosureCache.Json.Reader
import ClosureCache.Text.Blank

namespace ClosureCache

structure Config where
  /-- The trace that every event is stamped with. -/
  traceId : String
  /-- Whether every use of a cache is logged. -/
  recordCacheEvents : Bool
  /-- Number of events that are kept. -/
  eventCapacity : Nat
  /-- Whether caches are compacted after each collection. -/
  pruneAfterCollect : Bool
  /-- Number of allocations since the last collection that asks for another
  one; zero never does. -/
  collectionPressure : Nat
deriving DecidableEq, Repr

inductive ConfigError where
  | parse (message : String)
  | emptyTraceId
deriving DecidableEq, Repr

namespace ConfigError

def code : ConfigError → String
  | parse _ => "FE-MEMO-0801"
  | emptyTraceId => "FE-MEMO-0802"

def message : ConfigError → String
  | parse message => "config parse error: " ++ message
  | emptyTraceId => "trace_id must not be empty"

end ConfigError

namespace Config

def standard : Config :=
  { traceId := "memo", recordCacheEvents := true, eventCapacity := 4096,
    pruneAfterCollect := true, collectionPressure := 10000 }

/-- The settings for tests and replays: a trace of its own, room for every
event, and no collection unless asked for. -/
def deterministic : Config :=
  { traceId := "memo-deterministic", recordCacheEvents := true, eventCapacity := 65536,
    pruneAfterCollect := true, collectionPressure := 0 }

/-- Checks that the trace is named. -/
def validate (c : Config) : Except ConfigError Unit :=
  if Text.isBlankText c.traceId then .error .emptyTraceId else .ok ()

/-- Whether so many allocations since the last collection ask for another
one. -/
def shouldCollect (c : Config) (allocations : Nat) : Bool :=
  0 < c.collectionPressure && c.collectionPressure ≤ allocations

/-! ## JSON form -/

def fieldNames : List String :=
  ["trace_id", "record_cache_events", "event_capacity", "prune_after_collect",
    "collection_pressure_objects"]

def toJson (c : Config) : Json :=
  .record [("trace_id", .str c.traceId), ("record_cache_events", .bool c.recordCacheEvents),
    ("event_capacity", .nat c.eventCapacity), ("prune_after_collect", .bool c.pruneAfterCollect),
    ("collection_pressure_objects", .nat c.collectionPressure)]

def ofJson? (j : Json) : Option Config :=
  match j.fieldsWithDefaults? fieldNames with
  | some [traceId, recordCacheEvents, eventCapacity, pruneAfterCollect, collectionPressure] => do
    let traceId ← Json.defaulted? standard.traceId Json.asString? traceId
    let recordCacheEvents ←
      Json.defaulted? standard.recordCacheEvents Json.asBool? recordCacheEvents
    let eventCapacity ← Json.defaulted? standard.eventCapacity Json.asWord? eventCapacity
    let pruneAfterCollect ←
      Json.defaulted? standard.pruneAfterCollect Json.asBool? pruneAfterCollect
    let collectionPressure ←
      Json.defaulted? standard.collectionPressure Json.asWord? collectionPressure
    return { traceId, recordCacheEvents, eventCapacity, pruneAfterCollect, collectionPressure }
  | _ => none

def read (text : String) : Except ConfigError Config :=
  match (Json.read? text).bind ofJson? with
  | none => .error (.parse "no configuration is spelt here")
  | some c => c.validate.map fun _ => c

end Config

end ClosureCache
