import Wrk.Connection.World

/-!
# Reading the Record

What the record of a connection says about its descriptors. The record is
newest first, so that each of these functions looks at the entries before the
one it is at.

Entries about what was received say nothing about what was sent. Functions
that skip them are constant along any number of them.

## Main definitions

* `Obs.heard`: Entries about what was received.
* `wire`: The bytes accepted on a descriptor.
* `established`: The descriptor on which the connection is established.
* `OnlyEstablished`: Bytes are accepted on no other descriptor.
* `unsent`: What is left to write of the last batch.
* `closes`: How many descriptors have been closed.

## Theorems

* `append_skip`: Skipping entries of some kind.
-/

namespace Wrk

open HttpParser

/-- Entries about what was received, and about the transport's options. -/
def Obs.heard : Obs → Bool
  | .headerField _ => true
  | .headerValue _ => true
  | .body _ => true
  | .response _ _ _ => true
  | .sslSetOptions => true
  | _ => false

/-- A function that skips one entry of some kind skips several. -/
theorem append_skip {β : Type*} {skip : Obs → Bool} (f : List Obs → β)
    (hf : ∀ o log, skip o = true → f (o :: log) = f log) (pre log : List Obs)
    (hpre : ∀ o ∈ pre, skip o = true) : f (pre ++ log) = f log := by
  induction pre with
  | nil => rfl
  | cons o pre ih =>
      rw [List.cons_append, hf o _ (hpre o List.mem_cons_self)]
      exact ih (fun p hp => hpre p (List.mem_cons_of_mem o hp))

/-- The bytes accepted on a descriptor, in order. -/
def wire (fd : Nat) : List Obs → Bytes
  | [] => []
  | .accepted f _ data :: log => if f = fd then wire fd log ++ data else wire fd log
  | _ :: log => wire fd log

/-- The descriptor for which `socket_connected` has succeeded, until it is
    closed. -/
def established : List Obs → Option Nat
  | [] => none
  | .connected fd :: _ => some fd
  | .closed _ _ _ _ _ :: _ => none
  | _ :: log => established log

/-- Bytes are only ever accepted on the descriptor that is established at
    that moment. -/
def OnlyEstablished : List Obs → Prop
  | [] => True
  | .accepted fd _ _ :: log => established log = some fd ∧ OnlyEstablished log
  | _ :: log => OnlyEstablished log

/-- The bytes of the last batch that have not been accepted. -/
def unsent : List Obs → Bytes
  | [] => []
  | .batch _ text :: _ => text
  | .accepted _ _ data :: log => (unsent log).drop data.length
  | _ :: log => unsent log

/-- The descriptors that have been closed. -/
def closes : List Obs → Nat
  | [] => 0
  | .closed _ _ _ _ _ :: log => closes log + 1
  | _ :: log => closes log

theorem closes_append (pre log : List Obs) : closes (pre ++ log) = closes pre + closes log := by
  induction pre with
  | nil => rw [List.nil_append, closes, Nat.zero_add]
  | cons o pre ih =>
      cases o with
      | closed =>
          simp only [List.cons_append, closes, ih]
          omega
      | _ => exact ih

theorem wire_heard (fd : Nat) (o : Obs) (log : List Obs) (ho : o.heard = true) :
    wire fd (o :: log) = wire fd log := by
  cases o with
  | accepted => exact absurd ho Bool.false_ne_true
  | _ => rfl

theorem established_heard (o : Obs) (log : List Obs) (ho : o.heard = true) :
    established (o :: log) = established log := by
  cases o with
  | connected => exact absurd ho Bool.false_ne_true
  | closed => exact absurd ho Bool.false_ne_true
  | _ => rfl

theorem onlyEstablished_heard (o : Obs) (log : List Obs) (ho : o.heard = true) :
    OnlyEstablished (o :: log) = OnlyEstablished log := by
  cases o with
  | accepted => exact absurd ho Bool.false_ne_true
  | _ => rfl

theorem unsent_heard (o : Obs) (log : List Obs) (ho : o.heard = true) :
    unsent (o :: log) = unsent log := by
  cases o with
  | batch => exact absurd ho Bool.false_ne_true
  | accepted => exact absurd ho Bool.false_ne_true
  | _ => rfl

end Wrk
