import PioplatRelay.Dispatcher
import PioplatRelay.SetIndexes

/-!
# Matching responses with requests

The loop accepts a response exactly when the log has its request as sent, and
neither answered nor cancelled.  A sink receives one response at most, with the
id and the code of its request, and none that was dispatched after `Close` had
returned.
-/

namespace PioplatRelay

open Function List

namespace Dispatcher

variable {Req Res : Type}

/-! ## What the log says -/

/-- The request was sent, and neither cancelled nor answered since. -/
@[mk_iff]
structure Open (log : List (DispatchEvent Req Res)) (req : Req) : Prop where
  sent : .sent req ∈ log
  notCancelled : .cancelled req ∉ log
  notAnswered : ∀ res, .judged res (.ok req) ∉ log

variable (calls : DispatcherCalls Req Res)

structure Matches (log : List (DispatchEvent Req Res))
    (res : Res) (req : Req) : Prop where
  isOpen : Open log req
  id : calls.id req = calls.resId res
  code : calls.want req = calls.resCode res

/-- Every verdict accepts for a request if and only if the response matches it by the
log before. -/
def Justified (log : List (DispatchEvent Req Res)) : Prop :=
  ∀ before res verdict after, log = before ++ .judged res verdict :: after →
    ∀ req, verdict = .ok req ↔ Matches calls before res req

/-- The response was dispatched after `Close` of the request had returned. -/
def Late (log : List (DispatchEvent Req Res)) (req : Req) (res : Res) : Prop :=
  ∃ before after, log = before ++ .dispatched res :: after ∧ .closed req ∈ before

structure Matching (s : Dispatcher Req Res) : Prop where
  justified : Justified calls s.log
  once : (s.delivered.map Prod.fst).Nodup
  own : ∀ req res, (req, res) ∈ s.delivered →
    calls.resId res = calls.id req ∧ calls.resCode res = calls.want req
  notLate : ∀ req res, Late s.log req res → (req, res) ∉ s.delivered

variable {calls : DispatcherCalls Req Res} {log before after : List (DispatchEvent Req Res)}
  {event x : DispatchEvent Req Res} {req : Req} {res : Res}

theorem append_eq_split (split : log ++ [event] = before ++ x :: after) :
    (before = log ∧ x = event) ∨ ∃ rest, log = before ++ x :: rest := by
  rcases eq_nil_or_concat after with rfl | ⟨rest,last,rfl⟩
  · obtain ⟨rfl,same⟩ := append_inj' split rfl
    cases same
    exact .inl ⟨rfl,rfl⟩
  · right
    refine ⟨rest,?_⟩
    rw [concat_eq_append,← cons_append,← append_assoc] at split
    exact (append_inj' split rfl).1

section

variable (justified : Justified calls log)

include justified

theorem Justified.append (new : ∀ res verdict, event = .judged res verdict →
      ∀ req, verdict = .ok req ↔ Matches calls log res req) : Justified calls (log ++ [event]) := by
  intro before res verdict after split
  rcases append_eq_split split with ⟨rfl,eventEq⟩ | ⟨rest,old⟩
  · exact new res verdict eventEq.symm
  · exact justified before res verdict rest old

theorem Justified.matches (accepted : .judged res (.ok req) ∈ log) :
    ∃ before after, log = before ++ .judged res (.ok req) :: after ∧
      Matches calls before res req := by
  obtain ⟨before,after,split⟩ := append_of_mem accepted
  exact ⟨before,after,split,(justified before res _ after split req).mp rfl⟩

theorem Justified.sent (accepted : .judged res (.ok req) ∈ log) : .sent req ∈ log := by
  obtain ⟨before,after,rfl,matched⟩ := justified.matches accepted
  exact mem_append_left _ matched.isOpen.sent

theorem Justified.unique {other : Res}
    (first : .judged res (.ok req) ∈ log) (second : .judged other (.ok req) ∈ log) :
    res = other := by
  obtain ⟨before,after,split,matched⟩ := justified.matches first
  obtain ⟨before',after',split',matched'⟩ := justified.matches second
  rcases append_eq_append_iff.mp (split.symm.trans split') with
    ⟨between,beforeEq,rest⟩ | ⟨between,beforeEq,rest⟩
  · cases between with
    | nil =>
      cases rest
      rfl
    | cons head between =>
      cases rest
      rw [beforeEq] at matched'
      exact absurd (by simp) (matched'.isOpen.notAnswered res)
  · cases between with
    | nil =>
      cases rest
      rfl
    | cons head between =>
      cases rest
      rw [beforeEq] at matched
      exact absurd (by simp) (matched.isOpen.notAnswered other)

end

theorem Late.of_append (late : Late (log ++ [event]) req res) :
    Late log req res ∨ event = .dispatched res ∧ .closed req ∈ log := by
  obtain ⟨before,after,split,closed⟩ := late
  rcases append_eq_split split with ⟨rfl,eventEq⟩ | ⟨rest,old⟩
  · exact .inr ⟨eventEq.symm,closed⟩
  · exact .inl ⟨before,rest,old,closed⟩

/-! ## What the loop tracks -/

def isSent : Requester → Bool
  | .active | .closing | .cancelling | .releasing | .closed | .closeDisconnected => true
  | .fresh | .offering | .waiting | .failed | .disconnected => false

def isCancelled : Requester → Bool
  | .releasing | .closed => true
  | _ => false

def unrecorded : DispatcherPoint Req Res → Option Req
  | .reporting req true | .recording req => some req
  | _ => none

def answered : DispatcherPoint Req Res → Option Req
  | .answering _ (.ok req) | .untracking _ req => some req
  | _ => none

def confirmed : DispatcherPoint Req Res → Option Req
  | .confirming req => some req
  | _ => none

/-- The requests for which the log, `pending` and the owners do not agree yet. -/
def unsettled (point : DispatcherPoint Req Res) : Option Req × Option Req × Option Req :=
  (unrecorded point, confirmed point, answered point)

/-- What the loop is doing has its counterpart with the callers and in the log. -/
def Attended (requesters : Req → Requester) (responders : Res → Responder Req)
    (log : List (DispatchEvent Req Res)) : DispatcherPoint Req Res → Prop
  | .selecting | .ended => True
  | .sending req | .reporting req _ => requesters req = .waiting
  | .recording req => requesters req ∈ [.active, .closing, .closeDisconnected]
  | .cancelling req | .confirming req => requesters req = .cancelling
  | .judging res => responders res = .waiting
  | .answering res verdict => responders res = .waiting ∧ .judged res verdict ∈ log
  | .untracking res req => .judged res (.ok req) ∈ log

/-- `pending` has the open requests, except while the loop is about to update it. -/
structure Tracks (calls : DispatcherCalls Req Res) (s : Dispatcher Req Res) : Prop where
  attended : Attended s.requesters s.responders s.log s.point
  sent : ∀ req, .sent req ∈ s.log ↔
    isSent (s.requesters req) = true ∨ unrecorded s.point = some req
  cancelled : ∀ req, .cancelled req ∈ s.log ↔
    isCancelled (s.requesters req) = true ∨ confirmed s.point = some req
  unanswered : ∀ req res, unrecorded s.point = some req → .judged res (.ok req) ∉ s.log
  pending : ∀ id req, s.pending.lookup id = some req ↔ calls.id req = id ∧
    (Open s.log req ∧ unrecorded s.point ≠ some req ∨ answered s.point = some req)

variable {s next : Dispatcher Req Res} {requesters : Req → Requester}
  {responders : Res → Responder Req} {point : DispatcherPoint Req Res}

theorem initial_tracks : Tracks calls ({} : Dispatcher Req Res) := by
  constructor
  · trivial
  · simp [isSent,unrecorded]
  · simp [isCancelled,confirmed]
  · simp [unrecorded]
  · intro id req
    have notOpen : ¬ Open ([] : List (DispatchEvent Req Res)) req := fun isOpen => by
      cases isOpen.sent
    simp [answered,notOpen]

/-- The events that decide which requests are open. -/
def decides : DispatchEvent Req Res → Bool
  | .sent _ | .cancelled _ | .judged _ (.ok _) => true
  | .closed _ | .dispatched _ | .judged _ (.error _) => false

theorem mem_append_of_decides (undecided : decides event = false) (decided : decides x = true) :
    x ∈ log ++ [event] ↔ x ∈ log := by
  have different : x ≠ event := by
    rintro rfl
    rw [decided] at undecided
    cases undecided
  simp [different]

theorem open_congr {log' : List (DispatchEvent Req Res)}
    (same : ∀ event, decides event = true → (event ∈ log' ↔ event ∈ log)) (req : Req) :
    Open log' req ↔ Open log req := by
  rw [open_iff,open_iff,same (.sent req) rfl,same (.cancelled req) rfl]
  simp [same (.judged _ (.ok req)) rfl]

theorem open_append_sent {other : Req} (different : other ≠ req) :
    Open (log ++ [.sent req]) other ↔ Open log other := by
  simp [open_iff,different]

theorem open_append_cancelled {other : Req} :
    Open (log ++ [.cancelled req]) other ↔ Open log other ∧ other ≠ req := by
  simp only [open_iff]
  grind

theorem open_append_accepted {other : Req} :
    Open (log ++ [.judged res (.ok req)]) other ↔ Open log other ∧ other ≠ req := by
  constructor
  · intro isOpen
    refine ⟨⟨by simpa using isOpen.sent,by simpa using isOpen.notCancelled,?_⟩,?_⟩
    · exact fun res earlier => isOpen.notAnswered res (mem_append_left _ earlier)
    · rintro rfl
      exact isOpen.notAnswered res (by simp)
  · rintro ⟨isOpen,different⟩
    refine ⟨by simpa using isOpen.sent,by simpa using isOpen.notCancelled,?_⟩
    intro res
    simp [isOpen.notAnswered res,different]

theorem Tracks.quiet (tracks : Tracks calls s)
    (attended : Attended next.requesters next.responders next.log next.point)
    (same : ∀ event, decides event = true → (event ∈ next.log ↔ event ∈ s.log))
    (sent : ∀ req, isSent (next.requesters req) = true ∨ unrecorded next.point = some req ↔
      isSent (s.requesters req) = true ∨ unrecorded s.point = some req)
    (cancelled : ∀ req, isCancelled (next.requesters req) = true ∨ confirmed next.point = some req ↔
      isCancelled (s.requesters req) = true ∨ confirmed s.point = some req)
    (samePending : next.pending = s.pending)
    (unrecordedEq : unrecorded next.point = unrecorded s.point)
    (answeredEq : answered next.point = answered s.point) : Tracks calls next where
  attended := attended
  sent req := by rw [same _ rfl,tracks.sent,sent]
  cancelled req := by rw [same _ rfl,tracks.cancelled,cancelled]
  unanswered req res := by
    rw [unrecordedEq,same _ rfl]
    exact tracks.unanswered req res
  pending id req := by
    rw [samePending,tracks.pending,open_congr same,unrecordedEq,answeredEq]

/-! ## One step -/

theorem Attended.log_append (attended : Attended requesters responders log point) :
    Attended requesters responders (log ++ [event]) point := by
  cases point with
  | answering => exact ⟨attended.1,mem_append_left _ attended.2⟩
  | untracking => exact mem_append_left _ attended
  | selecting | sending | reporting | recording | cancelling | confirming | judging | ended =>
    exact attended

section

variable [DecidableEq Req]

theorem update_requester (stages : Requester → Bool) {stage : Requester}
    (same : stages stage = stages (requesters req)) (other : Req) :
    stages (Function.update requesters req stage other) = stages (requesters other) := by
  by_cases own : other = req
  · rw [own,update_self,same]
  · rw [update_of_ne own]

theorem Attended.requester (attended : Attended requesters responders log point)
    {stage : Requester} (notWaiting : requesters req ≠ .waiting)
    (notCancelling : requesters req ≠ .cancelling)
    (kept : requesters req ∈ [.active, .closing, .closeDisconnected] →
      stage ∈ [.active, .closing, .closeDisconnected]) :
    Attended (Function.update requesters req stage) responders log point := by
  cases point with
  | sending other | reporting other =>
    have different : other ≠ req := fun own => notWaiting (own ▸ attended)
    exact (update_of_ne different ..).trans attended
  | cancelling other | confirming other =>
    have different : other ≠ req := fun own => notCancelling (own ▸ attended)
    exact (update_of_ne different ..).trans attended
  | recording other =>
    rw [Attended]
    by_cases own : other = req
    · rw [own] at attended ⊢
      rw [update_self]
      exact kept attended
    · rw [update_of_ne own]
      exact attended
  | selecting | ended | judging | answering | untracking => exact attended

end

theorem Attended.responder [DecidableEq Res] (attended : Attended requesters responders log point)
    {stage : Responder Req} (unasked : responders res ≠ .waiting) :
    Attended requesters (Function.update responders res stage) log point := by
  cases point with
  | judging other =>
    have different : other ≠ res := fun own => unasked (own ▸ attended)
    exact (update_of_ne different ..).trans attended
  | answering other verdict =>
    have different : other ≠ res := fun own => unasked (own ▸ attended.1)
    exact ⟨(update_of_ne different ..).trans attended.1,attended.2⟩
  | selecting | ended | sending | reporting | recording | cancelling | confirming | untracking =>
    exact attended

section

variable (tracks : Tracks calls s)

include tracks

/-- Where the loop judges, `pending` gives the open request of an id. -/
theorem Tracks.verdict_eq_ok (here : s.point = .judging res) (req : Req) :
    verdict calls s.pending res = .ok req ↔ Matches calls s.log res req := by
  have found (req : Req) : s.pending.lookup (calls.resId res) = some req ↔
      calls.id req = calls.resId res ∧ Open s.log req := by
    rw [tracks.pending,here]
    simp [unrecorded,answered]
  constructor
  · intro accepted
    rw [verdict] at accepted
    split at accepted
    · cases accepted
    · rename_i other there
      split at accepted
      · cases accepted
      · rename_i sameCode
        cases accepted
        obtain ⟨sameId,isOpen⟩ := (found req).mp there
        exact ⟨isOpen,sameId,not_not.mp sameCode⟩
  · rintro ⟨isOpen,sameId,sameCode⟩
    simp [verdict,(found req).mpr ⟨sameId,isOpen⟩,sameCode]

theorem Tracks.send (justified : Justified calls s.log)
    (here : s.point = .sending req) :
    Tracks calls { s with point := .reporting req true, log := s.log ++ [.sent req] } := by
  obtain ⟨attended,sent,cancelled,unanswered,pending⟩ := tracks
  rw [here] at attended sent cancelled pending
  have waiting : s.requesters req = .waiting := attended
  have notSent : .sent req ∉ s.log := by
    rw [sent,waiting]
    simp [isSent,unrecorded]
  constructor
  · exact waiting
  · intro other
    simp only [mem_append,sent,unrecorded]
    grind
  · intro other
    simp [cancelled,confirmed]
  · intro other res own judged
    cases own
    have earlier : .judged res (.ok req) ∈ s.log := by simpa using judged
    exact notSent (justified.sent earlier)
  · intro id other
    rw [pending]
    by_cases own : other = req
    · have notOpen : ¬ Open s.log req := fun isOpen => notSent isOpen.sent
      simp [own,notOpen,unrecorded,answered]
    · simp [open_append_sent own,unrecorded,answered,Ne.symm own]

theorem Tracks.record (here : s.point = .recording req) :
    Tracks calls
      { s with point := .selecting, pending := s.pending.insert (calls.id req) req } := by
  obtain ⟨attended,sent,cancelled,unanswered,pending⟩ := tracks
  rw [here] at attended sent cancelled unanswered pending
  have stages : s.requesters req = .active ∨ s.requesters req = .closing ∨
      s.requesters req = .closeDisconnected := by simpa [Attended] using attended
  have ownSent : isSent (s.requesters req) = true := by
    rcases stages with stage | stage | stage <;> rw [stage] <;> rfl
  have notCancelled : .cancelled req ∉ s.log := by
    rw [cancelled]
    rcases stages with stage | stage | stage <;> rw [stage] <;> simp [isCancelled,confirmed]
  have isOpen : Open s.log req :=
    ⟨(sent req).mpr (.inl ownSent),notCancelled,fun res => unanswered req res rfl⟩
  constructor
  · trivial
  · intro other
    simp only [sent,unrecorded]
    grind
  · intro other
    simp [cancelled,confirmed]
  · intro other res own
    cases own
  · intro id other
    rw [lookup_insert_ite]
    split
    · rename_i same
      constructor
      · intro own
        cases own
        exact ⟨same.symm,.inl ⟨isOpen,by simp [unrecorded]⟩⟩
      · rintro ⟨idEq,-⟩
        rw [calls.distinct (idEq.trans same)]
    · rename_i different
      rw [pending]
      simp only [unrecorded,answered]
      grind

theorem Tracks.untrack (here : s.point = .cancelling req) :
    Tracks calls { s with
      point := .confirming req
      pending := s.pending.erase (calls.id req)
      log := s.log ++ [.cancelled req] } := by
  obtain ⟨attended,sent,cancelled,unanswered,pending⟩ := tracks
  rw [here] at attended sent cancelled pending
  constructor
  · exact attended
  · intro other
    simp [sent,unrecorded]
  · intro other
    simp only [mem_append,cancelled,confirmed]
    grind
  · intro other res own
    cases own
  · intro id other
    rw [lookup_erase_ite,open_append_cancelled]
    split
    · rename_i same
      have own (idEq : calls.id other = id) : other = req := calls.distinct (idEq.trans same)
      simp only [answered]
      grind
    · rename_i different
      rw [pending]
      simp only [unrecorded,answered]
      grind

theorem Tracks.judge (here : s.point = .judging res) :
    Tracks calls { s with
      point := .answering res (verdict calls s.pending res)
      log := s.log ++ [.judged res (verdict calls s.pending res)] } := by
  have accepts := tracks.verdict_eq_ok here
  obtain ⟨attended,sent,cancelled,unanswered,pending⟩ := tracks
  rw [here] at attended sent cancelled pending
  generalize verdict calls s.pending res = verdict at accepts ⊢
  have noneUnrecorded : unrecorded (.answering res verdict : DispatcherPoint Req Res) = none := by
    cases verdict <;> rfl
  constructor
  · exact ⟨attended,by simp⟩
  · intro other
    simp [sent,unrecorded]
  · intro other
    simp [cancelled,confirmed]
  · intro other res own
    cases own
  · intro id other
    rw [pending]
    cases verdict with
    | error error =>
      rw [open_congr fun _ => mem_append_of_decides rfl]
      rfl
    | ok req =>
      have matched := (accepts req).mp rfl
      have isOpen := matched.isOpen
      rw [open_append_accepted]
      simp only [unrecorded,answered]
      grind

theorem Tracks.forget (justified : Justified calls s.log)
    (here : s.point = .untracking res req) :
    Tracks calls { s with point := .selecting, pending := s.pending.erase (calls.resId res) } := by
  obtain ⟨attended,sent,cancelled,unanswered,pending⟩ := tracks
  rw [here] at attended sent cancelled pending
  have judged : .judged res (.ok req) ∈ s.log := attended
  have notOpen : ¬ Open s.log req := fun isOpen => isOpen.notAnswered res judged
  obtain ⟨_,_,_,matched⟩ := justified.matches judged
  have sameId := matched.id
  constructor
  · trivial
  · intro other
    simp [sent,unrecorded]
  · intro other
    simp [cancelled,confirmed]
  · intro other res own
    cases own
  · intro id other
    rw [lookup_erase_ite]
    split
    · rename_i same
      have own (idEq : calls.id other = id) : other = req :=
        calls.distinct (idEq.trans (same.trans sameId.symm))
      simp only [answered]
      grind
    · rename_i different
      rw [pending]
      simp only [unrecorded,answered]
      grind

end

theorem unsettled_eq {other : DispatcherPoint Req Res} (same : unsettled point = unsettled other) :
    unrecorded point = unrecorded other ∧ confirmed point = confirmed other ∧
      answered point = answered other := by
  simpa only [unsettled,Prod.mk.injEq] using same

/-- A step of the callers of `dispatchResponse`, or of the loop with one of them. -/
theorem Tracks.sameOwners (tracks : Tracks calls s)
    (attended : Attended next.requesters next.responders next.log next.point)
    (same : ∀ event, decides event = true → (event ∈ next.log ↔ event ∈ s.log))
    (requestersEq : next.requesters = s.requesters) (pendingEq : next.pending = s.pending)
    (unsettledEq : unsettled next.point = unsettled s.point) : Tracks calls next := by
  obtain ⟨unrecordedEq,confirmedEq,answeredEq⟩ := unsettled_eq unsettledEq
  apply tracks.quiet attended same _ _ pendingEq unrecordedEq answeredEq
  · intro req
    rw [requestersEq,unrecordedEq]
  · intro req
    rw [requestersEq,confirmedEq]

section

variable [DecidableEq Req] [DecidableEq Res]

section

omit [DecidableEq Res]

/-- An owner moves on, and neither learns that its request was sent nor that it was
cancelled. -/
theorem Tracks.owner (tracks : Tracks calls s) {stage : Requester}
    (attended : Attended (Function.update s.requesters req stage) s.responders log point)
    (same : ∀ event, decides event = true → (event ∈ log ↔ event ∈ s.log))
    (sentEq : isSent stage = isSent (s.requesters req))
    (cancelledEq : isCancelled stage = isCancelled (s.requesters req))
    (unsettledEq : unsettled point = unsettled s.point) :
    Tracks calls { s.setRequester req stage with point, log } := by
  obtain ⟨unrecordedEq,confirmedEq,answeredEq⟩ := unsettled_eq unsettledEq
  refine tracks.quiet attended same ?_ ?_ rfl unrecordedEq answeredEq
  · intro other
    rw [unrecordedEq]
    exact or_congr_left (by rw [setRequester,update_requester isSent sentEq])
  · intro other
    rw [confirmedEq]
    exact or_congr_left (by rw [setRequester,update_requester isCancelled cancelledEq])

theorem Tracks.report (tracks : Tracks calls s) (here : s.point = .reporting req true) :
    Tracks calls { s.setRequester req .active with point := .recording req } := by
  have waiting : s.requesters req = .waiting := by
    have attended := tracks.attended
    rw [here] at attended
    exact attended
  refine tracks.quiet ?_ (fun _ _ => Iff.rfl) ?_ ?_ rfl (by rw [here]; rfl) (by rw [here]; rfl)
  · simp [Attended,setRequester]
  · intro other
    by_cases own : other = req
    · simp [own,here,unrecorded]
    · simp [setRequester,update_of_ne own,here,unrecorded]
  · intro other
    rw [here]
    apply or_congr_left
    rw [setRequester,update_requester isCancelled (by rw [waiting]; rfl)]

theorem Tracks.confirm (tracks : Tracks calls s) (here : s.point = .confirming req) :
    Tracks calls { s.setRequester req .releasing with point := .selecting } := by
  have cancelling : s.requesters req = .cancelling := by
    have attended := tracks.attended
    rw [here] at attended
    exact attended
  refine tracks.quiet trivial (fun _ _ => Iff.rfl) ?_ ?_ rfl (by rw [here]; rfl) (by rw [here]; rfl)
  · intro other
    rw [here]
    apply or_congr_left
    rw [setRequester,update_requester isSent (by rw [cancelling]; rfl)]
  · intro other
    by_cases own : other = req
    · simp [own,setRequester,here,isCancelled,confirmed]
    · simp [setRequester,update_of_ne own,here,confirmed,Ne.symm own]

end

theorem Tracks.step (tracks : Tracks calls s) (justified : Justified calls s.log)
    (stepped : Stepped calls s next) : Tracks calls next := by
  have attended := tracks.attended
  have unchanged (event : DispatchEvent Req Res) (_ : decides event = true) :
      event ∈ s.log ↔ event ∈ s.log := Iff.rfl
  cases stepped with
  | send here => exact tracks.send justified here
  | record here => exact tracks.record here
  | untrack here => exact tracks.untrack here
  | judge here => exact tracks.judge here
  | forget here => exact tracks.forget justified here
  | report here => exact tracks.report here
  | confirm here => exact tracks.confirm here
  | @owner req stage moves =>
    simp only [mem_cons,Prod.mk.injEq,not_mem_nil,or_false] at moves
    rcases moves with ⟨own,rfl⟩ | ⟨own,rfl⟩ | ⟨own,rfl⟩ <;>
      exact tracks.owner (attended.requester (by simp [own]) (by simp [own]) (by simp [own]))
        unchanged (by rw [own]; rfl) (by rw [own]; rfl) rfl
  | takeRequest here own =>
    exact tracks.owner (update_self ..) unchanged (by rw [own]; rfl) (by rw [own]; rfl)
      (by rw [here]; rfl)
  | @reportFailed req here =>
    rw [here] at attended
    have waiting : s.requesters req = .waiting := attended
    exact tracks.owner trivial unchanged (by rw [waiting]; rfl) (by rw [waiting]; rfl)
      (by rw [here]; rfl)
  | takeCancel here own =>
    exact tracks.owner (update_self ..) unchanged (by rw [own]; rfl) (by rw [own]; rfl)
      (by rw [here]; rfl)
  | release own =>
    exact tracks.owner
      (attended.requester (by simp [own]) (by simp [own]) (by simp [own])).log_append
      (fun _ => mem_append_of_decides rfl) (by rw [own]; rfl) (by rw [own]; rfl) rfl
  | closeGone own gone =>
    exact tracks.owner
      (attended.requester (by simp [own]) (by simp [own]) (by simp)).log_append
      (fun _ => mem_append_of_decides rfl) (by rw [own]; rfl) (by rw [own]; rfl) rfl
  | sendFailed here =>
    rw [here] at attended
    exact tracks.sameOwners attended unchanged rfl rfl (by rw [here]; rfl)
  | respond own there =>
    exact tracks.sameOwners (attended.responder (by simp [own])).log_append
      (fun _ => mem_append_of_decides rfl) rfl rfl rfl
  | takeResponse here own =>
    exact tracks.sameOwners (update_self ..) unchanged rfl rfl (by rw [here]; rfl)
  | refuse here => exact tracks.sameOwners trivial unchanged rfl rfl (by rw [here]; rfl)
  | accept here =>
    rw [here] at attended
    exact tracks.sameOwners attended.2 unchanged rfl rfl (by rw [here]; rfl)
  | tryDelivery own | deliver own =>
    exact tracks.sameOwners (attended.responder (by simp [own])) unchanged rfl rfl rfl
  | callReturns own unasked =>
    exact tracks.sameOwners (attended.responder unasked) unchanged rfl rfl rfl
  | terminate => exact tracks.sameOwners attended unchanged rfl rfl rfl
  | exit here => exact tracks.sameOwners trivial unchanged rfl rfl (by rw [here]; rfl)

end

/-! ## What the callers of `dispatchResponse` know -/

/-- Only responses that the loop was offered are judged, and only accepted ones are
delivered. -/
structure Answers (responders : Res → Responder Req) (log : List (DispatchEvent Req Res))
    (delivered : List (Req × Res)) : Prop where
  judged : ∀ res verdict, .judged res verdict ∈ log →
    responders res ≠ .idle ∧ responders res ≠ .offering
  accepted : ∀ res req, responders res = .accepted req ∨ responders res = .delivering req →
    .judged res (.ok req) ∈ log
  delivered : ∀ req res, (req, res) ∈ delivered → .judged res (.ok req) ∈ log ∧
    (responders res = .handling ∨ responders res = .returned)

variable {delivered : List (Req × Res)}

section

variable (answers : Answers responders log delivered)

include answers

theorem Answers.log_append
    (new : ∀ res verdict, event = .judged res verdict → responders res = .waiting) :
    Answers responders (log ++ [event]) delivered where
  judged res verdict member := by
    rcases mem_append.mp member with earlier | last
    · exact answers.judged res verdict earlier
    · rw [new res verdict (mem_singleton.mp last).symm]
      simp
  accepted res req stage := mem_append_left _ (answers.accepted res req stage)
  delivered req res member := by
    obtain ⟨judged,stage⟩ := answers.delivered req res member
    exact ⟨mem_append_left _ judged,stage⟩

theorem Answers.responder [DecidableEq Res] {stage : Responder Req}
    (begun : stage = .offering → responders res = .idle) (notIdle : stage ≠ .idle)
    (holds : ∀ req, stage = .accepted req ∨ stage = .delivering req → .judged res (.ok req) ∈ log)
    (ends : responders res = .handling ∨ responders res = .returned → stage = .returned) :
    Answers (Function.update responders res stage) log delivered where
  judged other verdict member := by
    have before := answers.judged other verdict member
    by_cases own : other = res
    · subst own
      rw [update_self]
      exact ⟨notIdle,fun offering => before.1 (begun offering)⟩
    · rw [update_of_ne own]
      exact before
  accepted other req := by
    by_cases own : other = res
    · subst own
      rw [update_self]
      exact holds req
    · rw [update_of_ne own]
      exact answers.accepted other req
  delivered req other member := by
    obtain ⟨judged,before⟩ := answers.delivered req other member
    by_cases own : other = res
    · subst own
      rw [update_self]
      exact ⟨judged,.inr (ends before)⟩
    · rw [update_of_ne own]
      exact ⟨judged,before⟩

theorem Answers.deliver [DecidableEq Res] (own : responders res = .delivering req) :
    Answers (Function.update responders res .handling) log (delivered ++ [(req, res)]) := by
  have moved : Answers (Function.update responders res .handling) log delivered :=
    answers.responder (by simp) (by simp) (by simp) (by simp [own])
  refine ⟨moved.judged,moved.accepted,?_⟩
  intro req' res' member
  rcases mem_append.mp member with earlier | last
  · exact moved.delivered req' res' earlier
  · cases mem_singleton.mp last
    exact ⟨answers.accepted res req (.inr own),.inl (update_self ..)⟩

end

theorem Answers.step [DecidableEq Req] [DecidableEq Res]
    (answers : Answers s.responders s.log s.delivered) (tracks : Tracks calls s)
    (stepped : Stepped calls s next) : Answers next.responders next.log next.delivered := by
  have attended := tracks.attended
  cases stepped with
  | owner | takeRequest | sendFailed | report | reportFailed | record | takeCancel | confirm
  | forget | terminate | exit => exact answers
  | send | untrack | release | closeGone => exact answers.log_append (by simp)
  | respond own there =>
    exact (answers.responder (fun _ => own) (by simp) (by simp) (by simp [own])).log_append
      (by simp)
  | takeResponse here own => exact answers.responder (by simp) (by simp) (by simp) (by simp [own])
  | judge here =>
    rw [here] at attended
    apply answers.log_append
    rintro res verdict judged
    cases judged
    exact attended
  | refuse here => exact answers.responder (by simp) (by simp) (by simp) (fun _ => rfl)
  | accept here =>
    rw [here] at attended
    obtain ⟨waiting,judged⟩ := attended
    apply answers.responder (by simp) (by simp) _ (by simp [waiting])
    rintro req (stage | stage) <;> cases stage
    exact judged
  | tryDelivery own =>
    apply answers.responder (by simp) (by simp) _ (by simp [own])
    rintro req (stage | stage) <;> cases stage
    exact answers.accepted _ _ (.inl own)
  | deliver own => exact answers.deliver own
  | callReturns own unasked => exact answers.responder (by simp) (by simp) (by simp) (fun _ => rfl)

/-! ## Whole runs -/

structure Sound (calls : DispatcherCalls Req Res) (s : Dispatcher Req Res) : Prop where
  tracks : Tracks calls s
  answers : Answers s.responders s.log s.delivered
  justified : Justified calls s.log
  closed : ∀ req, .closed req ∈ s.log → .cancelled req ∈ s.log ∨ s.term = true
  late : ∀ req res, Late s.log req res →
    .cancelled req ∈ s.log ∧ .judged res (.ok req) ∉ s.log
  once : (s.delivered.map Prod.fst).Nodup

/-- The events that a step may add to the log. -/
inductive Logged (calls : DispatcherCalls Req Res) (s : Dispatcher Req Res) :
    DispatchEvent Req Res → Prop
  | sent (req : Req) : Logged calls s (.sent req)
  | cancelled (req : Req) : Logged calls s (.cancelled req)
  | closed {req : Req} (why : .cancelled req ∈ s.log ∨ s.term = true) :
      Logged calls s (.closed req)
  | dispatched {res : Res} (own : s.responders res = .idle) (there : s.term = false) :
      Logged calls s (.dispatched res)
  | judged {res : Res} {verdict : Except DispatchError Req}
      (right : ∀ req, verdict = .ok req ↔ Matches calls s.log res req) :
      Logged calls s (.judged res verdict)

theorem Tracks.logged [DecidableEq Req] [DecidableEq Res] (tracks : Tracks calls s)
    (stepped : Stepped calls s next) :
    next.log = s.log ∨ ∃ event, next.log = s.log ++ [event] ∧ Logged calls s event := by
  cases stepped with
  | owner | takeRequest | sendFailed | report | reportFailed | record | takeCancel | confirm
  | takeResponse | refuse | accept | forget | tryDelivery | deliver | callReturns | terminate
  | exit => exact .inl rfl
  | send here => exact .inr ⟨_,rfl,.sent _⟩
  | untrack here => exact .inr ⟨_,rfl,.cancelled _⟩
  | @release req own =>
    have cancelled := (tracks.cancelled req).mpr (.inl (by rw [own]; rfl))
    exact .inr ⟨_,rfl,.closed (.inl cancelled)⟩
  | closeGone own gone => exact .inr ⟨_,rfl,.closed (.inr gone)⟩
  | respond own there => exact .inr ⟨_,rfl,.dispatched own there⟩
  | judge here => exact .inr ⟨_,rfl,.judged (tracks.verdict_eq_ok here)⟩

theorem Sound.justified_append (sound : Sound calls s) (logged : Logged calls s event) :
    Justified calls (s.log ++ [event]) := by
  apply sound.justified.append
  rintro res verdict rfl
  cases logged with
  | judged right => exact right

theorem Sound.late_append (sound : Sound calls s) (logged : Logged calls s event)
    (late : Late (s.log ++ [event]) req res) :
    .cancelled req ∈ s.log ++ [event] ∧ .judged res (.ok req) ∉ s.log ++ [event] := by
  have earlier : .cancelled req ∈ s.log ∧ .judged res (.ok req) ∉ s.log := by
    rcases late.of_append with before | ⟨rfl,closed⟩
    · exact sound.late req res before
    · -- The response is new, so `Close` has returned from the loop and not from `term`.
      cases logged with
      | dispatched own there =>
        rcases sound.closed req closed with cancelled | gone
        · exact ⟨cancelled,fun judged => (sound.answers.judged res _ judged).1 own⟩
        · rw [there] at gone
          cases gone
  refine ⟨mem_append_left _ earlier.1,?_⟩
  intro member
  rcases mem_append.mp member with old | new
  · exact earlier.2 old
  · cases mem_singleton.mp new
    cases logged with
    | judged right => exact ((right req).mp rfl).isOpen.notCancelled earlier.1

theorem Stepped.term [DecidableEq Req] [DecidableEq Res] (stepped : Stepped calls s next)
    (gone : s.term = true) : next.term = true := by
  cases stepped <;> first | exact gone | rfl

theorem Sound.once_step [DecidableEq Req] [DecidableEq Res] (sound : Sound calls s)
    (stepped : Stepped calls s next) : (next.delivered.map Prod.fst).Nodup := by
  cases stepped with
  | @deliver res req own =>
    have judged := sound.answers.accepted res req (.inr own)
    rw [map_append,map_singleton]
    apply sound.once.append (nodup_singleton _)
    rw [disjoint_singleton]
    intro member
    obtain ⟨⟨req',other⟩,there,rfl⟩ := mem_map.mp member
    obtain ⟨judgedOther,stage⟩ := sound.answers.delivered req' other there
    -- The request was answered once, so the response would have been delivered before.
    have same := sound.justified.unique judged judgedOther
    rw [← same,own] at stage
    rcases stage with stage | stage <;> cases stage
  | owner | takeRequest | send | sendFailed | report | reportFailed | record | takeCancel
  | untrack | confirm | release | closeGone | respond | takeResponse | judge | refuse | accept
  | forget | tryDelivery | callReturns | terminate | exit => exact sound.once

theorem Sound.step [DecidableEq Req] [DecidableEq Res] (sound : Sound calls s)
    (stepped : Stepped calls s next) : Sound calls next := by
  have tracks := sound.tracks.step sound.justified stepped
  have answers := sound.answers.step sound.tracks stepped
  have once := sound.once_step stepped
  rcases sound.tracks.logged stepped with same | ⟨event,logEq,logged⟩
  · refine ⟨tracks,answers,same ▸ sound.justified,?_,same ▸ sound.late,once⟩
    intro req closed
    rw [same] at closed ⊢
    exact (sound.closed req closed).imp_right stepped.term
  · refine ⟨tracks,answers,logEq ▸ sound.justified_append logged,?_,?_,once⟩
    · intro req closed
      rw [logEq] at closed ⊢
      rcases mem_append.mp closed with earlier | new
      · exact (sound.closed req earlier).imp (mem_append_left _) stepped.term
      · cases mem_singleton.mp new
        cases logged with
        | closed why => exact why.imp (mem_append_left _) stepped.term
    · intro req res late
      rw [logEq] at late ⊢
      exact sound.late_append logged late

theorem initial_sound : Sound calls ({} : Dispatcher Req Res) where
  tracks := initial_tracks
  answers := ⟨by simp,by simp,by simp⟩
  justified before _ _ _ split := by simp at split
  closed := by simp
  late _ _ late := by
    obtain ⟨before,after,split,-⟩ := late
    simp at split
  once := nodup_nil

theorem Sound.matching (sound : Sound calls s) : Matching calls s where
  justified := sound.justified
  once := sound.once
  own req res member := by
    obtain ⟨_,_,_,matched⟩ := sound.justified.matches (sound.answers.delivered req res member).1
    exact ⟨matched.id.symm,matched.code.symm⟩
  notLate req res late member :=
    (sound.late req res late).2 (sound.answers.delivered req res member).1

/-- However the steps of the callers and the loop interleave, responses are matched
with their requests. -/
theorem matching_always [DecidableEq Req] [DecidableEq Res] (calls : DispatcherCalls Req Res)
    (actions : List (DispatcherAction Req Res)) :
    Always (step calls) (Matching calls) ({} : Dispatcher Req Res) actions :=
  always_of_kept (fun _ _ _ sound stepped => sound.step (stepped_of_step stepped))
    (fun _ sound => sound.matching) initial_sound

/-- Whenever the loop waits, `pending` holds the open requests and nothing else. -/
theorem pending_open_always [DecidableEq Req] [DecidableEq Res] (calls : DispatcherCalls Req Res)
    (actions : List (DispatcherAction Req Res)) :
    Always (step calls) (fun s => s.point = .selecting → ∀ id req,
      s.pending.lookup id = some req ↔ calls.id req = id ∧ Open s.log req)
      ({} : Dispatcher Req Res) actions := by
  refine always_of_kept (fun _ _ _ sound stepped => sound.step (stepped_of_step stepped)) ?_
    initial_sound
  intro s sound selecting id req
  rw [sound.tracks.pending]
  simp [selecting,unrecorded,answered]

def answeredTwice : DispatcherCalls Unit Bool := ⟨fun _ => 7, fun _ => 4, fun _ _ _ => rfl,
  fun _ => 7, fun _ => 4⟩

/-- The first response is delivered and the second one refused. -/
example : (runAll (step answeredTwice) {} [.request (), .takeRequest (), .send true, .report,
    .record, .respond true, .takeResponse true, .judge, .answer, .forget, .checkCancel true,
    .deliver true, .respond false, .takeResponse false, .judge, .answer]).map
      (fun s => (s.delivered, s.responders false)) = some ([((), true)], .returned) := by
  decide

end Dispatcher

end PioplatRelay
