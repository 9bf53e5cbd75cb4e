import PioplatRelay.StepRuns
import Mathlib.Data.Finmap

/-!
# The request dispatcher of a peer

Callers of `dispatchRequest`, `Request.Close` and `dispatchResponse` talk to one
loop over unbuffered channels.  A channel operation between two of them is one
step of both; everything else is a step of one.  The log has what happened in
order, so that what the loop does can be compared with it.
-/

namespace PioplatRelay

open Option

structure DispatcherCalls (Req Res : Type) where
  id : Req → UInt64
  want : Req → UInt64
  distinct : Function.Injective id
  resId : Res → UInt64
  resCode : Res → UInt64

inductive DispatchError
  | danglingResponse
  | mismatchingResponseType (given want : UInt64)
  deriving DecidableEq

/-- Where the owner of a request stands, in `dispatchRequest` and then in `Close`.
The channel `cancel` of a request is closed when its owner is `closed`. -/
inductive Requester
  | fresh
  | offering
  | waiting
  | failed
  | disconnected
  | active
  | closing
  | cancelling
  | releasing
  | closed
  | closeDisconnected
  deriving DecidableEq

inductive Responder (Req : Type)
  | idle
  | offering
  | waiting
  | accepted (req : Req)
  | delivering (req : Req)
  | handling
  | returned
  deriving DecidableEq

inductive DispatcherPoint (Req Res : Type)
  | selecting
  | sending (req : Req)
  | reporting (req : Req) (succeeded : Bool)
  | recording (req : Req)
  | cancelling (req : Req)
  | confirming (req : Req)
  | judging (res : Res)
  | answering (res : Res) (verdict : Except DispatchError Req)
  | untracking (res : Res) (req : Req)
  | ended

inductive DispatchEvent (Req Res : Type)
  | sent (req : Req)
  /-- The loop stopped tracking the request for `Close`. -/
  | cancelled (req : Req)
  | closed (req : Req)
  | dispatched (res : Res)
  | judged (res : Res) (verdict : Except DispatchError Req)

structure Dispatcher (Req Res : Type) where
  requesters : Req → Requester := fun _ => .fresh
  responders : Res → Responder Req := fun _ => .idle
  point : DispatcherPoint Req Res := .selecting
  pending : Finmap fun _ : UInt64 => Req := ∅
  term : Bool := false
  log : List (DispatchEvent Req Res) := []
  /-- What the sinks of the requests have received. -/
  delivered : List (Req × Res) := []

inductive DispatcherAction (Req Res : Type)
  | request (req : Req)
  | takeRequest (req : Req)
  | send (succeeds : Bool)
  | report
  | record
  | requestGone (req : Req)
  | close (req : Req)
  | takeCancel (req : Req)
  | untrack
  | confirm
  | release (req : Req)
  | closeGone (req : Req)
  | respond (res : Res)
  | takeResponse (res : Res)
  | judge
  | answer
  | forget
  | checkCancel (res : Res)
  | deliver (res : Res)
  | discard (res : Res)
  | handled (res : Res)
  | responseGone (res : Res)
  /-- `Peer.Close` closes `term`; the reader, which dispatches the responses, has
  ended by then. -/
  | terminate
  | exit

namespace Dispatcher

variable {Req Res : Type} [DecidableEq Req] [DecidableEq Res]

def setRequester (s : Dispatcher Req Res) (req : Req) (stage : Requester) : Dispatcher Req Res :=
  { s with requesters := Function.update s.requesters req stage }

def setResponder (s : Dispatcher Req Res) (res : Res) (stage : Responder Req) :
    Dispatcher Req Res :=
  { s with responders := Function.update s.responders res stage }

def verdict (calls : DispatcherCalls Req Res) (pending : Finmap fun _ : UInt64 => Req)
    (res : Res) : Except DispatchError Req :=
  match pending.lookup (calls.resId res) with
  | none => .error .danglingResponse
  | some req =>
    if calls.want req ≠ calls.resCode res then
      .error (.mismatchingResponseType (calls.resCode res) (calls.want req))
    else .ok req

def step (calls : DispatcherCalls Req Res) (action : DispatcherAction Req Res)
    (s : Dispatcher Req Res) : Option (Dispatcher Req Res) :=
  match action with
  | .request req => if s.requesters req = .fresh then some (s.setRequester req .offering) else none
  | .takeRequest req =>
    match s.point, s.requesters req with
    | .selecting, .offering => some { s.setRequester req .waiting with point := .sending req }
    | _, _ => none
  | .send succeeds =>
    match s.point with
    | .sending req =>
      some { s with
        point := .reporting req succeeds
        log := if succeeds then s.log ++ [.sent req] else s.log }
    | _ => none
  | .report =>
    match s.point with
    | .reporting req true => some { s.setRequester req .active with point := .recording req }
    | .reporting req false => some { s.setRequester req .failed with point := .selecting }
    | _ => none
  | .record =>
    match s.point with
    | .recording req =>
      some { s with point := .selecting, pending := s.pending.insert (calls.id req) req }
    | _ => none
  | .requestGone req =>
    if s.requesters req = .offering ∧ s.term then some (s.setRequester req .disconnected)
    else none
  | .close req => if s.requesters req = .active then some (s.setRequester req .closing) else none
  | .takeCancel req =>
    match s.point, s.requesters req with
    | .selecting, .closing => some { s.setRequester req .cancelling with point := .cancelling req }
    | _, _ => none
  | .untrack =>
    match s.point with
    | .cancelling req =>
      -- To delete an id that is not there changes nothing.
      some { s with
        point := .confirming req
        pending := s.pending.erase (calls.id req)
        log := s.log ++ [.cancelled req] }
    | _ => none
  | .confirm =>
    match s.point with
    | .confirming req => some { s.setRequester req .releasing with point := .selecting }
    | _ => none
  | .release req =>
    if s.requesters req = .releasing then
      some { s.setRequester req .closed with log := s.log ++ [.closed req] }
    else none
  | .closeGone req =>
    if s.requesters req = .closing ∧ s.term then
      some { s.setRequester req .closeDisconnected with log := s.log ++ [.closed req] }
    else none
  | .respond res =>
    if s.responders res = .idle ∧ s.term = false then
      some { s.setResponder res .offering with log := s.log ++ [.dispatched res] }
    else none
  | .takeResponse res =>
    match s.point, s.responders res with
    | .selecting, .offering => some { s.setResponder res .waiting with point := .judging res }
    | _, _ => none
  | .judge =>
    match s.point with
    | .judging res =>
      let verdict := verdict calls s.pending res
      some { s with
        point := .answering res verdict
        log := s.log ++ [.judged res verdict] }
    | _ => none
  | .answer =>
    match s.point with
    | .answering res (.error _) => some { s.setResponder res .returned with point := .selecting }
    | .answering res (.ok req) =>
      some { s.setResponder res (.accepted req) with point := .untracking res req }
    | _ => none
  | .forget =>
    match s.point with
    | .untracking res _ =>
      some { s with point := .selecting, pending := s.pending.erase (calls.resId res) }
    | _ => none
  | .checkCancel res =>
    match s.responders res with
    | .accepted req =>
      if s.requesters req = .closed then some (s.setResponder res .returned)
      else some (s.setResponder res (.delivering req))
    | _ => none
  | .deliver res =>
    match s.responders res with
    | .delivering req =>
      some { s.setResponder res .handling with delivered := s.delivered ++ [(req, res)] }
    | _ => none
  | .discard res =>
    match s.responders res with
    | .delivering req =>
      if s.requesters req = .closed then some (s.setResponder res .returned) else none
    | _ => none
  | .handled res =>
    if s.responders res = .handling then some (s.setResponder res .returned) else none
  | .responseGone res =>
    if s.responders res = .offering ∧ s.term then some (s.setResponder res .returned) else none
  | .terminate => some { s with term := true }
  | .exit =>
    match s.point with
    | .selecting => if s.term then some { s with point := .ended } else none
    | _ => none

inductive Stepped (calls : DispatcherCalls Req Res) (s : Dispatcher Req Res) :
    Dispatcher Req Res → Prop
  /-- An owner moves on by itself: nothing is sent or cancelled by that. -/
  | owner {req : Req} {stage : Requester}
      (moves : (s.requesters req, stage) ∈ [(.fresh, .offering), (.offering, .disconnected),
        (.active, .closing)]) : Stepped calls s (s.setRequester req stage)
  | takeRequest {req : Req} (here : s.point = .selecting) (own : s.requesters req = .offering) :
      Stepped calls s { s.setRequester req .waiting with point := .sending req }
  | send {req : Req} (here : s.point = .sending req) :
      Stepped calls s { s with point := .reporting req true, log := s.log ++ [.sent req] }
  | sendFailed {req : Req} (here : s.point = .sending req) :
      Stepped calls s { s with point := .reporting req false }
  | report {req : Req} (here : s.point = .reporting req true) :
      Stepped calls s { s.setRequester req .active with point := .recording req }
  | reportFailed {req : Req} (here : s.point = .reporting req false) :
      Stepped calls s { s.setRequester req .failed with point := .selecting }
  | record {req : Req} (here : s.point = .recording req) :
      Stepped calls s
        { s with point := .selecting, pending := s.pending.insert (calls.id req) req }
  | takeCancel {req : Req} (here : s.point = .selecting) (own : s.requesters req = .closing) :
      Stepped calls s { s.setRequester req .cancelling with point := .cancelling req }
  | untrack {req : Req} (here : s.point = .cancelling req) :
      Stepped calls s { s with
        point := .confirming req
        pending := s.pending.erase (calls.id req)
        log := s.log ++ [.cancelled req] }
  | confirm {req : Req} (here : s.point = .confirming req) :
      Stepped calls s { s.setRequester req .releasing with point := .selecting }
  | release {req : Req} (own : s.requesters req = .releasing) :
      Stepped calls s { s.setRequester req .closed with log := s.log ++ [.closed req] }
  | closeGone {req : Req} (own : s.requesters req = .closing) (gone : s.term = true) :
      Stepped calls s
        { s.setRequester req .closeDisconnected with log := s.log ++ [.closed req] }
  | respond {res : Res} (own : s.responders res = .idle) (there : s.term = false) :
      Stepped calls s { s.setResponder res .offering with log := s.log ++ [.dispatched res] }
  | takeResponse {res : Res} (here : s.point = .selecting) (own : s.responders res = .offering) :
      Stepped calls s { s.setResponder res .waiting with point := .judging res }
  | judge {res : Res} (here : s.point = .judging res) :
      Stepped calls s { s with
        point := .answering res (verdict calls s.pending res)
        log := s.log ++ [.judged res (verdict calls s.pending res)] }
  | refuse {res : Res} {error : DispatchError} (here : s.point = .answering res (.error error)) :
      Stepped calls s { s.setResponder res .returned with point := .selecting }
  | accept {res : Res} {req : Req} (here : s.point = .answering res (.ok req)) :
      Stepped calls s { s.setResponder res (.accepted req) with point := .untracking res req }
  | forget {res : Res} {req : Req} (here : s.point = .untracking res req) :
      Stepped calls s
        { s with point := .selecting, pending := s.pending.erase (calls.resId res) }
  | tryDelivery {res : Res} {req : Req} (own : s.responders res = .accepted req) :
      Stepped calls s (s.setResponder res (.delivering req))
  | deliver {res : Res} {req : Req} (own : s.responders res = .delivering req) :
      Stepped calls s
        { s.setResponder res .handling with delivered := s.delivered ++ [(req, res)] }
  /-- A call returns without a delivery, or after the response was handled. -/
  | callReturns {res : Res} (own : s.responders res ≠ .idle)
      (unasked : s.responders res ≠ .waiting) :
      Stepped calls s (s.setResponder res .returned)
  | terminate : Stepped calls s { s with term := true }
  | exit (here : s.point = .selecting) : Stepped calls s { s with point := .ended }

variable {calls : DispatcherCalls Req Res} {action : DispatcherAction Req Res}
  {s next : Dispatcher Req Res}

theorem stepped_of_step (stepped : step calls action s = some next) : Stepped calls s next := by
  cases action with
  | request req | requestGone req | close req =>
    obtain ⟨own,nextEq⟩ := ite_none_right_eq_some.mp stepped
    cases nextEq
    exact .owner (by simp [own])
  | release req | closeGone req | respond res =>
    obtain ⟨own,nextEq⟩ := ite_none_right_eq_some.mp stepped
    cases nextEq
    first | exact .release own | exact .closeGone own.1 own.2 | exact .respond own.1 own.2
  | takeRequest req | takeCancel req | takeResponse res =>
    simp only [step] at stepped
    split at stepped <;> cases stepped
    constructor <;> assumption
  | report | record | untrack | confirm | judge | answer | forget | deliver res =>
    simp only [step] at stepped
    split at stepped <;> cases stepped <;> constructor <;> assumption
  | send succeeds =>
    simp only [step] at stepped
    split at stepped <;> cases stepped
    cases succeeds with
    | true => exact .send ‹_›
    | false => exact .sendFailed ‹_›
  | checkCancel res =>
    simp only [step] at stepped
    split at stepped
    · rename_i req own
      split at stepped <;> cases stepped
      · exact .callReturns (by simp [own]) (by simp [own])
      · exact .tryDelivery own
    · cases stepped
  | discard res =>
    simp only [step] at stepped
    split at stepped
    · rename_i req own
      obtain ⟨-,nextEq⟩ := ite_none_right_eq_some.mp stepped
      cases nextEq
      exact .callReturns (by simp [own]) (by simp [own])
    · cases stepped
  | handled res | responseGone res =>
    obtain ⟨own,nextEq⟩ := ite_none_right_eq_some.mp stepped
    cases nextEq
    exact .callReturns (by simp [own]) (by simp [own])
  | terminate =>
    cases stepped
    exact .terminate
  | exit =>
    simp only [step] at stepped
    split at stepped
    · obtain ⟨-,nextEq⟩ := ite_none_right_eq_some.mp stepped
      cases nextEq
      exact .exit ‹_›
    · cases stepped

end Dispatcher

end PioplatRelay
