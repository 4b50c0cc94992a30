import Mathlib

/-! `simple_server_base.hpp` together with the members of the derived class that it counts with.
A handler runs to its end before the next one starts, and connectors are always constructed. -/

namespace Acqua

namespace Asio

/-- The members of an acceptor, the accepts that asio still has to complete, and the connectors
that were started and not released. -/
structure Acceptor where
  isOpen : Bool
  isRunning : Bool
  isWaiting : Bool
  pending : Nat
  live : Nat
  deriving DecidableEq

structure SimpleServerBase extends Acceptor where
  useCount : Nat
  maxCount : Nat
  stopped : Bool
  deriving DecidableEq

inductive StartError
  | alreadyStarted
  | notSocket
  deriving DecidableEq

namespace SimpleServerBase

def incr (b : SimpleServerBase) : Bool × SimpleServerBase :=
  if b.isWaiting then (false, b)
  else
    let b := { b with useCount := b.useCount + 1 }
    if b.maxCount ≤ b.useCount then
      if b.isWaiting then (false, { b with isWaiting := true, useCount := b.useCount - 1 })
      else (true, { b with isWaiting := true })
    else (true, b)

def decl (b : SimpleServerBase) : Bool × SimpleServerBase :=
  if b.stopped then (false, b)
  else
    let b := { b with useCount := b.useCount - 1 }
    if b.useCount < b.maxCount then (b.isWaiting, { b with isWaiting := false }) else (false, b)

def asyncAccept (b : SimpleServerBase) : SimpleServerBase :=
  let r := b.incr
  if r.1 then { r.2 with pending := r.2.pending + 1 } else r.2

/-- The deleter of a connector. -/
def onDisconnect (b : SimpleServerBase) : SimpleServerBase :=
  let r := b.decl
  if r.1 then r.2.asyncAccept else r.2

/-- A connector that is not started is released when the handler is. -/
def onAccept (error : Bool) (b : SimpleServerBase) : SimpleServerBase :=
  if error then { b with isRunning := false, isWaiting := false }.onDisconnect
  else if b.isRunning then { b.asyncAccept with live := b.asyncAccept.live + 1 }
  else b.onDisconnect

def start (b : SimpleServerBase) : Option StartError × SimpleServerBase :=
  if b.isOpen then
    if b.isRunning then (some .alreadyStarted, b)
    else (none, { b with isRunning := true }.asyncAccept)
  else (some .notSocket, b)

def cancel (b : SimpleServerBase) : SimpleServerBase := { b with isRunning := false }

def close (b : SimpleServerBase) : SimpleServerBase :=
  { b with isRunning := false, isOpen := false }

/-- asio completes an accept. -/
def completeAccept (error : Bool) (b : SimpleServerBase) : Option SimpleServerBase :=
  if 0 < b.pending then some ({ b with pending := b.pending - 1 }.onAccept error) else none

/-- The last reference to a connector goes. -/
def release (b : SimpleServerBase) : Option SimpleServerBase :=
  if 0 < b.live then some { b with live := b.live - 1 }.onDisconnect else none

theorem asyncAccept_of_waiting {b : SimpleServerBase} (h : b.isWaiting) : b.asyncAccept = b := by
  simp [asyncAccept, incr, h]

theorem asyncAccept_of_not_waiting {b : SimpleServerBase} (h : ¬ b.isWaiting) :
    b.asyncAccept = { b with
      useCount := b.useCount + 1, pending := b.pending + 1,
      isWaiting := decide (b.maxCount ≤ b.useCount + 1) } := by
  by_cases hfull : b.maxCount ≤ b.useCount + 1 <;> simp [asyncAccept, incr, h, hfull]

/-- A connection that is started takes the slot of the accept that was completed. -/
theorem onAccept_running {b : SimpleServerBase} (h : b.isRunning) :
    b.onAccept false = { b with live := b.live + 1 }.asyncAccept := by
  have haccept : b.onAccept false = { b.asyncAccept with live := b.asyncAccept.live + 1 } := by
    simp [onAccept, h]
  by_cases hwaiting : b.isWaiting
  · have hlive : { b with live := b.live + 1 }.asyncAccept = { b with live := b.live + 1 } :=
      asyncAccept_of_waiting hwaiting
    rw [haccept, hlive, asyncAccept_of_waiting hwaiting]
  · have hlive := asyncAccept_of_not_waiting (b := { b with live := b.live + 1 }) hwaiting
    rw [haccept, hlive, asyncAccept_of_not_waiting hwaiting]

theorem onDisconnect_rearm {b : SimpleServerBase} (hstopped : ¬ b.stopped)
    (hroom : b.useCount - 1 < b.maxCount) (h : b.isWaiting) :
    b.onDisconnect = { b with
      useCount := b.useCount - 1 + 1, pending := b.pending + 1,
      isWaiting := decide (b.maxCount ≤ b.useCount - 1 + 1) } := by
  have hdecl : b.decl = (true, { b with useCount := b.useCount - 1, isWaiting := false }) := by
    simp [decl, hstopped, hroom, h]
  rw [onDisconnect, hdecl, if_pos rfl, asyncAccept_of_not_waiting (by simp)]

theorem onDisconnect_of_not_rearm {b : SimpleServerBase} (hstopped : ¬ b.stopped)
    (h : ¬ (b.useCount - 1 < b.maxCount ∧ b.isWaiting)) :
    b.onDisconnect = { b with useCount := b.useCount - 1 } := by
  by_cases hroom : b.useCount - 1 < b.maxCount
  · have hwaiting : b.isWaiting = false := by simpa [hroom] using h
    have hkept : { b with useCount := b.useCount - 1, isWaiting := false } =
        { b with useCount := b.useCount - 1 } := by rw [← hwaiting]
    have hdecl : b.decl = (false, { b with useCount := b.useCount - 1, isWaiting := false }) := by
      rw [decl, if_neg hstopped, ← hwaiting]
      exact if_pos hroom
    rw [onDisconnect, hdecl]
    exact hkept
  · simp [onDisconnect, decl, hstopped, hroom]

end SimpleServerBase

end Asio

end Acqua
