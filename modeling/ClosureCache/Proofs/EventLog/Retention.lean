/-
What a log keeps of the events that are emitted.

The account of a log says how many events were emitted so far, of which notices since the
log was last cleared, and how many events were taken away by clearing it.  `Accounts` ties
the log to its account: it holds the latest of those notices, as many as it has room for,
under the latest numbers, and every event that was emitted is in the log, was dropped or was
cleared.  Each action on the log carries the account on, so that it holds after any actions.
-/
import Mathlib.Data.List.DropRight
import Mathlib.Data.List.Induction
import ClosureCache.EventLog

namespace ClosureCache

/-! ## Actions on a log -/

inductive LogAction where
  | emit (n : Notice)
  /-- Emits the notice of a success. -/
  | ok (component event : String) (site : Option SiteId) (detail : String)
  | clear
deriving DecidableEq

namespace LogAction

/-- The notice that an action emits, if it emits one. -/
def notice? : LogAction → Option Notice
  | emit n => some n
  | ok component event site detail => some (.ok component event site detail)
  | clear => none

def perform : LogAction → EventLog → EventLog
  | emit n, log => log.emit n
  | ok component event site detail, log => log.emit (.ok component event site detail)
  | clear, log => log.clear

def emitted (as : List LogAction) : List Notice := as.filterMap notice?

/-- The notices that actions emit after the last clear among them. -/
def sinceClear (as : List LogAction) : List Notice := emitted (as.rtakeWhile (· ≠ clear))

theorem emitted_append (as bs : List LogAction) : emitted (as ++ bs) = emitted as ++ emitted bs :=
  List.filterMap_append

/-- An action that emits a notice adds an event to the log. -/
theorem perform_of_notice {a : LogAction} {n : Notice} (ha : a.notice? = some n)
    (log : EventLog) : a.perform log = log.emit n := by
  cases a <;> cases ha <;> rfl

theorem sinceClear_clear (as : List LogAction) : sinceClear (as ++ [clear]) = [] := by
  rw [sinceClear, List.rtakeWhile_concat]
  rfl

theorem sinceClear_emit {a : LogAction} {n : Notice} (ha : a.notice? = some n)
    (as : List LogAction) : sinceClear (as ++ [a]) = sinceClear as ++ [n] := by
  have hne : a ≠ clear := by
    rintro rfl
    cases ha
  have hlast : emitted [a] = [n] := by rw [emitted, List.filterMap_cons_some ha, List.filterMap_nil]
  rw [sinceClear, List.rtakeWhile_concat, if_pos (decide_eq_true hne), emitted_append, hlast,
    sinceClear]

end LogAction

namespace EventLog

def after (log : EventLog) (as : List LogAction) : EventLog :=
  as.foldl (fun log a => a.perform log) log

def cleared (log : EventLog) : List LogAction → Nat
  | [] => 0
  | .clear :: rest => log.events.size + log.clear.cleared rest
  | a :: rest => (a.perform log).cleared rest

theorem after_concat (log : EventLog) (as : List LogAction) (a : LogAction) :
    log.after (as ++ [a]) = a.perform (log.after as) := List.foldl_concat ..

theorem cleared_clear (log : EventLog) (as : List LogAction) :
    log.cleared (as ++ [.clear]) = log.cleared as + (log.after as).events.size := by
  induction as generalizing log with
  | nil => exact Nat.add_comm ..
  | cons a as ih => cases a <;> simp only [List.cons_append, cleared, ih, Nat.add_assoc] <;> rfl

theorem cleared_emit (log : EventLog) (as : List LogAction) {a : LogAction} {n : Notice}
    (ha : a.notice? = some n) : log.cleared (as ++ [a]) = log.cleared as := by
  induction as generalizing log with
  | nil => cases a <;> cases ha <;> rfl
  | cons b as ih => cases b <;> simp only [List.cons_append, cleared, ih]

/-! ## Numbered events -/

/-- The event that a notice becomes in a trace under a number. -/
def eventOf (traceId : String) (seq : Nat) (n : Notice) : Event :=
  ⟨seq, traceId, n.component, n.event, n.outcome, n.errorCode, n.site, n.detail⟩

/-- The events that notices become in a trace when they are numbered from `first` on. -/
def numbered (traceId : String) (first : Nat) : List Notice → List Event
  | [] => []
  | n :: rest => eventOf traceId first n :: numbered traceId (first + 1) rest

theorem stamp_eq (log : EventLog) (n : Notice) :
    log.stamp n = eventOf log.traceId log.nextSeq n := rfl

variable {traceId : String}

theorem length_numbered (first : Nat) (ns : List Notice) :
    (numbered traceId first ns).length = ns.length := by
  induction ns generalizing first with
  | nil => rfl
  | cons n rest ih => rw [numbered, List.length_cons, ih, List.length_cons]

theorem numbered_concat (first : Nat) (ns : List Notice) (n : Notice) :
    numbered traceId first (ns ++ [n]) =
      numbered traceId first ns ++ [eventOf traceId (first + ns.length) n] := by
  induction ns generalizing first with
  | nil => rfl
  | cons m rest ih =>
    rw [List.cons_append, numbered, ih, numbered, List.cons_append, List.length_cons,
      Nat.add_assoc, Nat.add_comm 1]

theorem drop_numbered (first k : Nat) (ns : List Notice) :
    (numbered traceId first ns).drop k = numbered traceId (first + k) (ns.drop k) := by
  induction k generalizing first ns with
  | zero => rfl
  | succ k ih =>
    cases ns with
    | nil => rfl
    | cons n rest =>
      rw [numbered, List.drop_succ_cons, ih, List.drop_succ_cons, Nat.add_assoc, Nat.add_comm 1]

theorem map_seq_numbered (first : Nat) (ns : List Notice) :
    (numbered traceId first ns).map Event.seq = List.range' first ns.length := by
  induction ns generalizing first with
  | nil => rfl
  | cons n rest ih => rw [numbered, List.map_cons, ih, List.length_cons, List.range'_succ]; rfl

/-! ## The account of a log -/

/-- The log holds the latest of the notices `recent`, as many as it has room for, and of
`total` events all others were dropped or, `gone` of them, cleared. -/
structure Accounts (log : EventLog) (total : Nat) (recent : List Notice) (gone : Nat) : Prop where
  nextSeq : log.nextSeq = total
  le : recent.length ≤ total
  events : log.events.toList = numbered log.traceId (total - min log.capacity recent.length)
    (recent.drop (recent.length - log.capacity))
  balance : total = log.events.size + log.dropped + gone

theorem accounts_empty (traceId : String) (capacity : Nat) :
    (empty traceId capacity).Accounts 0 [] 0 :=
  ⟨rfl, Nat.le_refl 0, by rw [List.drop_nil]; rfl, rfl⟩

section Accounts

variable {log : EventLog} {total gone : Nat} {recent : List Notice}

theorem Accounts.size_eq (h : log.Accounts total recent gone) :
    log.events.size = min log.capacity recent.length := by
  rw [← Array.length_toList, h.events, length_numbered, List.length_drop]
  omega

/-- What there was room for before is there after the new event as far as there is room for
both. -/
theorem Accounts.emit (h : log.Accounts total recent gone) (n : Notice) :
    (log.emit n).Accounts (total + 1) (recent ++ [n]) gone := by
  have hsize := h.size_eq
  have hlen : (recent ++ [n]).length = recent.length + 1 := List.length_append
  have hle := h.le
  have hbalance := h.balance
  rw [EventLog.emit]
  by_cases hcapacity : log.capacity = 0
  · rw [if_pos hcapacity]
    refine ⟨congrArg (· + 1) h.nextSeq, by omega, ?_, by dsimp only; omega⟩
    have hnone : log.events = #[] := Array.eq_empty_of_size_eq_zero (by omega)
    dsimp only
    rw [hnone, hcapacity, Nat.sub_zero, List.drop_length]
    rfl
  · rw [if_neg hcapacity]
    -- the events that stay, and the number of the first of them
    have hkept : (if log.events.size + 1 - log.capacity = 0 then log.events
        else log.events.extract (log.events.size + 1 - log.capacity)).toList =
          numbered log.traceId (total - min log.capacity recent.length +
            (log.events.size + 1 - log.capacity))
            (recent.drop (recent.length + 1 - log.capacity)) := by
      have hdrop : recent.length - log.capacity + (log.events.size + 1 - log.capacity) =
          recent.length + 1 - log.capacity := by omega
      rw [← hdrop, ← List.drop_drop, ← drop_numbered, ← h.events]
      split
      · next hroom => rw [hroom, List.drop_zero]
      · rw [Array.toList_extract, List.extract_eq_take_drop, ← Array.length_toList,
          ← List.length_drop, List.take_length]
    refine ⟨congrArg (· + 1) h.nextSeq, by omega, ?_, ?_⟩
    · dsimp only
      rw [Array.toList_push, hkept, hlen, List.drop_append_of_le_length (by omega),
        numbered_concat, List.length_drop]
      have hfirst : total - min log.capacity recent.length +
          (log.events.size + 1 - log.capacity) =
            total + 1 - min log.capacity (recent.length + 1) := by omega
      have hlast : total + 1 - min log.capacity (recent.length + 1) +
          (recent.length - (recent.length + 1 - log.capacity)) = total := by omega
      rw [hfirst, hlast, stamp_eq, h.nextSeq]
    · have hstays := congrArg List.length hkept
      rw [length_numbered, List.length_drop, Array.length_toList] at hstays
      dsimp only
      rw [Array.size_push, hstays]
      omega

/-- After clearing nothing is left, and what was there is accounted for. -/
theorem Accounts.clear (h : log.Accounts total recent gone) :
    log.clear.Accounts total [] (gone + log.events.size) := by
  refine ⟨h.nextSeq, Nat.zero_le _, by rw [List.drop_nil]; rfl, ?_⟩
  have hsize : log.clear.events.size = 0 := rfl
  have hdropped : log.clear.dropped = log.dropped := rfl
  have hbalance := h.balance
  omega

end Accounts

/-- Any actions on a new log leave it accounted for. -/
theorem accounts_after (traceId : String) (capacity : Nat) (as : List LogAction) :
    ((empty traceId capacity).after as).Accounts (LogAction.emitted as).length
      (LogAction.sinceClear as) ((empty traceId capacity).cleared as) := by
  induction as using List.reverseRecOn with
  | nil => exact accounts_empty traceId capacity
  | append_singleton as a ih =>
    rw [after_concat, LogAction.emitted_append, List.length_append]
    cases ha : a.notice? with
    | some n =>
      have hone : (LogAction.emitted [a]).length = 1 := by
        rw [LogAction.emitted, List.filterMap_cons_some ha]
        rfl
      rw [LogAction.perform_of_notice ha, LogAction.sinceClear_emit ha, cleared_emit _ _ ha, hone]
      exact ih.emit n
    | none =>
      cases a with
      | clear =>
        rw [LogAction.sinceClear_clear, cleared_clear]
        exact ih.clear
      | _ => cases ha

theorem after_eq (log : EventLog) (as : List LogAction) :
    (log.after as).traceId = log.traceId ∧ (log.after as).capacity = log.capacity := by
  induction as using List.reverseRecOn with
  | nil => exact ⟨rfl, rfl⟩
  | append_singleton as a ih =>
    rw [after_concat]
    cases a with
    | clear => exact ih
    | _ =>
      rw [LogAction.perform, emit]
      split <;> exact ih

/-- After any actions a log with room for `capacity` events holds exactly the latest of the
events that were emitted since it was last cleared, `capacity` of them or all, in their order.
Their numbers are consecutive and end just below the number of all events ever emitted, and
each of those is in the log, was dropped or was cleared. -/
theorem after_keeps_latest (traceId : String) (capacity : Nat) (as : List LogAction) :
    let log := (empty traceId capacity).after as
    let total := (LogAction.emitted as).length
    let recent := LogAction.sinceClear as
    let kept := min capacity recent.length
    log.events.toList = numbered traceId (total - kept) (recent.rtake kept) ∧
      log.events.toList.map Event.seq = List.range' (total - kept) kept ∧
      log.nextSeq = total ∧
      total = log.events.size + log.dropped + (empty traceId capacity).cleared as := by
  intro log total recent kept
  have h := accounts_after traceId capacity as
  obtain ⟨htrace, hcapacity⟩ := after_eq (empty traceId capacity) as
  have hdrop : recent.length - kept = recent.length - capacity := by omega
  have hevents : log.events.toList = numbered traceId (total - kept) (recent.rtake kept) := by
    have hevents := h.events
    rw [htrace, hcapacity] at hevents
    rw [List.rtake, hdrop]
    exact hevents
  have hlength : (recent.rtake kept).length = kept := by
    rw [List.rtake, List.length_drop]
    omega
  refine ⟨hevents, ?_, h.nextSeq, h.balance⟩
  rw [hevents, map_seq_numbered, hlength]

end EventLog

end ClosureCache
