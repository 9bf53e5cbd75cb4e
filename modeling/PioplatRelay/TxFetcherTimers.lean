import PioplatRelay.StepRuns
import PioplatRelay.TxFetcherRuns

/-!
# Quotas and timers of the transaction fetcher

A peer may have `maxTxAnnounces` announcements; of a notification that goes
beyond, as many hashes are taken as are too many.  The timers are set anew by
some events only: here is what each event does to them and to what they are
for, and that neither of them is ever missing.
-/

namespace PioplatRelay.TxFetcher

open Loop List Finmap

variable {Peer TxHash : Type} [DecidableEq Peer] [DecidableEq TxHash]
  {f after : TxFetcher Peer TxHash}

/-! ## The quota of a peer -/

def used (f : TxFetcher Peer TxHash) (peer : Peer) : Nat :=
  (f.waitslots.slots peer).card + (f.announces.slots peer).card

def taken (f : TxFetcher Peer TxHash) (origin : Peer) (hashes : List TxHash) : List TxHash :=
  if maxTxAnnounces ≤ f.used origin then [] else wanted (f.used origin) hashes

def accounted (f : TxFetcher Peer TxHash) (peer : Peer) : Finset TxHash :=
  f.waitslots.slots peer ∪ f.announces.slots peer

variable (choices : Choices Peer TxHash) (origin : Peer)

theorem accounted_foldl_announce
    (hashes : List TxHash) (f : TxFetcher Peer TxHash) :
    (hashes.foldl (announce choices origin) f).accounted origin =
      hashes.toFinset ∪ f.accounted origin := by
  induction hashes generalizing f with
  | nil => simp
  | cons hash hashes ih =>
    have first : (f.announce choices origin hash).accounted origin =
        insert hash (f.accounted origin) := by
      unfold announce accounted
      ext other
      split_ifs <;> simp [or_left_comm,or_assoc]
    rw [foldl_cons,ih,first,toFinset_cons,Finset.insert_union,Finset.union_insert]

theorem used_announce_le
    (f : TxFetcher Peer TxHash) (hash : TxHash) :
    (f.announce choices origin hash).used origin ≤ f.used origin + 1 := by
  have slots_add (index : SetIndex Peer TxHash) :
      ((index.add origin hash).slots origin).card ≤ (index.slots origin).card + 1 := by
    rw [SetIndex.add,SetIndex.slots_insert,if_pos rfl]
    exact Finset.card_insert_le _ _
  have announced := slots_add f.announces
  have waiting := slots_add f.waitslots
  unfold announce used
  split_ifs <;> dsimp only <;> omega

theorem used_foldl_announce_le
    (hashes : List TxHash) (f : TxFetcher Peer TxHash) :
    (hashes.foldl (announce choices origin) f).used origin ≤ f.used origin + hashes.length := by
  induction hashes generalizing f with
  | nil => exact Nat.le_refl _
  | cons hash hashes ih =>
    have first := used_announce_le choices origin f hash
    have rest := ih (f.announce choices origin hash)
    rw [foldl_cons,length_cons]
    omega

variable {hashes : List TxHash} {origin : Peer} {choices : Choices Peer TxHash} {limit : AbsTime}
  {peer : Peer}

/-- A notification is announced hash by hash; then the timer may be set and fetches be
scheduled. -/
theorem handleNotify_cases (handled : f.handleNotify choices origin hashes = .ok after) :
    let announced := (f.taken origin hashes).foldl (announce choices origin) f
    let timed := if f.waittime.keys = ∅ ∧ announced.waittime.keys ≠ ∅ then
      announced.rescheduleWait choices else announced
    after = timed ∨ timed.scheduleFetches choices (some {origin}) = .ok after := by
  unfold handleNotify at handled
  dsimp only at handled
  split at handled
  · rename_i full
    cases handled
    simp [taken,used,full]
  · rename_i below
    rw [taken,if_neg (show ¬maxTxAnnounces ≤ f.used origin from below)]
    intro announced timed
    change (if _ ∧ timed.announces.slots origin ≠ ∅ then
      timed.scheduleFetches choices (some {origin}) else .ok timed) = .ok after at handled
    by_cases new : origin ∉ f.announces ∧ timed.announces.slots origin ≠ ∅
    · exact Or.inr ((if_pos new).symm.trans handled)
    · exact Or.inl (Except.ok.inj ((if_neg new).symm.trans handled)).symm

theorem peerSlots_handleNotify (handled : f.handleNotify choices origin hashes = .ok after) :
    after.peerSlots = ((f.taken origin hashes).foldl (announce choices origin) f).peerSlots := by
  rcases handleNotify_cases handled with rfl | scheduled
  · split <;> rfl
  · rw [scheduleFetches_frame scheduled]
    split <;> rfl

/-- The announcement fits, or it finds no room at all, or by chance as many hashes are too
many as there is room for. -/
def CutRight (used count : Nat) : Prop :=
  maxTxAnnounces ≤ used ∨ used + count ≤ maxTxAnnounces ∨ 2 * used + count = 2 * maxTxAnnounces

omit [DecidableEq TxHash] in
theorem taken_eq_take_iff (f : TxFetcher Peer TxHash) (origin : Peer) (hashes : List TxHash) :
    (maxTxAnnounces < f.used origin + hashes.length →
      f.taken origin hashes = hashes.take (maxTxAnnounces - f.used origin)) ↔
      CutRight (f.used origin) hashes.length := by
  unfold taken wanted CutRight
  split
  · rename_i full
    rw [Nat.sub_eq_zero_of_le full]
    simp [full]
  · rename_i below
    dsimp only
    by_cases large : maxTxAnnounces < f.used origin + hashes.length
    · rw [if_pos large]
      constructor
      · intro cut
        have lengths := congrArg length (cut large)
        rw [length_take,length_take] at lengths
        omega
      · intro right _
        exact congrArg hashes.take (by omega)
    · exact iff_of_true (fun isLarge => absurd isLarge large) (by omega)

/-- In every state that is reached a notification keeps its peer within the quota, and of
one that does not fit takes the first hashes that do, exactly if it is cut right. -/
theorem notify_within_quota_iff (events : List (Event Peer TxHash × Choices Peer TxHash))
    (choices : Choices Peer TxHash) (origin : Peer) (hashes : List TxHash) :
    ∃ f after, loop events = .ok f ∧ f.handle (.notify origin hashes, choices) = .ok after ∧
      after.accounted origin = (f.taken origin hashes).toFinset ∪ f.accounted origin ∧
      (after.used origin ≤ max maxTxAnnounces (f.used origin) ∧
        (maxTxAnnounces < f.used origin + hashes.length →
          f.taken origin hashes = hashes.take (maxTxAnnounces - f.used origin)) ↔
        CutRight (f.used origin) hashes.length) := by
  obtain ⟨f,loopEq,invariant⟩ := loop_listed events
  obtain ⟨after,handled,-⟩ := handleNotify_invariant kept_listed choices origin hashes invariant
  refine ⟨f,after,loopEq,handled,?_,?_⟩
  · exact (congrArg (fun slots => slots.1.slots origin ∪ slots.2.slots origin)
      (peerSlots_handleNotify handled)).trans (accounted_foldl_announce choices origin _ f)
  · rw [taken_eq_take_iff]
    refine and_iff_right_of_imp fun right => ?_
    have bound : after.used origin ≤ f.used origin + (f.taken origin hashes).length :=
      (congrArg (fun slots => (slots.1.slots origin).card + (slots.2.slots origin).card)
        (peerSlots_handleNotify handled)).trans_le (used_foldl_announce_le choices origin _ f)
    have cut := (taken_eq_take_iff f origin hashes).mpr right
    by_cases large : maxTxAnnounces < f.used origin + hashes.length
    · rw [cut large,length_take] at bound
      omega
    · have short : (f.taken origin hashes).length ≤ hashes.length := by
        unfold taken wanted
        split
        · exact Nat.zero_le _
        · simp [large]
      omega

/-- Of one hash more than there is room for, only the first is taken. -/
theorem notify_takes_one :
    (newTxFetcher : TxFetcher Nat Nat).used 0 + (range 4097).length = maxTxAnnounces + 1 ∧
      newTxFetcher.taken 0 (range 4097) = [0] := by
  have noneUsed : (newTxFetcher : TxFetcher Nat Nat).used 0 = 0 := by simp [used,newTxFetcher]
  rw [noneUsed,taken,noneUsed,if_neg (by decide),wanted,length_range,if_pos (by decide),take_range]
  exact ⟨rfl,rfl⟩

/-! ## The timers

The maps `waittime` and `requests` are what the two timers are for. -/

section Shrinks

/-- Neither timer is set, and nothing is added to what they are for. -/
structure Shrinks (f after : TxFetcher Peer TxHash) : Prop where
  waitTimer : after.waitTimer = f.waitTimer
  timeoutTimer : after.timeoutTimer = f.timeoutTimer
  waittime : after.waittime.keys ⊆ f.waittime.keys
  requests : after.requests.keys ⊆ f.requests.keys

section

omit [DecidableEq Peer] [DecidableEq TxHash]

theorem Shrinks.refl (f : TxFetcher Peer TxHash) : Shrinks f f := ⟨rfl,rfl,subset_rfl,subset_rfl⟩

theorem Shrinks.trans {middle : TxFetcher Peer TxHash} (first : Shrinks f middle)
    (second : Shrinks middle after) : Shrinks f after :=
  ⟨second.waitTimer.trans first.waitTimer,second.timeoutTimer.trans first.timeoutTimer,
    second.waittime.trans first.waittime,second.requests.trans first.requests⟩

theorem Shrinks.foldlM {Item : Type}
    {body : TxFetcher Peer TxHash → Item → Except FetcherPanic (TxFetcher Peer TxHash)}
    (round : ∀ f item after, body f item = .ok after → Shrinks f after) {items : List Item}
    (loopEq : items.foldlM body f = .ok after) : Shrinks f after :=
  foldlM_related Shrinks Shrinks.refl Shrinks.trans round loopEq

end

theorem keys_erase_subset {K W : Type} [DecidableEq K] (key : K) (map : Finmap fun _ : K => W) :
    (map.erase key).keys ⊆ map.keys := by
  rw [keys_erase]
  exact Finset.erase_subset key _

theorem keys_insert_subset {K W : Type} [DecidableEq K] {key : K} {value other : W}
    {map : Finmap fun _ : K => W} (found : map.lookup key = some other) :
    (map.insert key value).keys ⊆ map.keys := by
  intro k member
  rw [Finmap.mem_keys,mem_insert] at member
  rw [Finmap.mem_keys]
  exact member.elim (fun same => same ▸ mem_of_lookup_eq_some found) id

variable {choices : Choices Peer TxHash} {hash : TxHash} {peer : Peer} {origin : Peer}

theorem expireWait_shrinks {state result : TxFetcher Peer TxHash × Finset Peer}
    (expired : expireWait choices state hash = .ok result) : Shrinks state.1 result.1 := by
  unfold expireWait at expired
  dsimp only at expired
  split at expired
  · cases expired
    exact .refl _
  · split_ifs at expired
    · split at expired <;> cases expired
      exact ⟨rfl,rfl,keys_erase_subset _ _,subset_rfl⟩
    · cases expired
      exact .refl _

theorem expireRequest_shrinks
    (expired : f.expireRequest choices peer = .ok after) : Shrinks f after := by
  unfold expireRequest at expired
  split at expired
  · cases expired
    exact .refl f
  · rename_i req found
    split at expired
    · obtain ⟨requeued,loopEq,restEq⟩ := bind_eq_ok expired
      have shrinks : f.Shrinks requeued ∧ requeued.requests = f.requests := by
        refine ⟨Shrinks.foldlM (fun f hash after requeueEq => ?_) loopEq,
          foldlM_frame requests (fun f hash after requeueEq => ?_) loopEq⟩
        all_goals
          unfold requeue at requeueEq
          split_ifs at requeueEq <;> cases requeueEq
        · exact .refl f
        · exact ⟨rfl,rfl,subset_rfl,subset_rfl⟩
        · rfl
        · rfl
      cases restEq
      rw [← shrinks.2] at found
      exact shrinks.1.trans ⟨rfl,rfl,subset_rfl,keys_insert_subset found⟩
    · cases expired
      exact .refl f

theorem untrack_shrinks {direct : Bool}
    (untracked : f.untrack choices origin direct hash = .ok after) : Shrinks f after := by
  have cleaned : Shrinks f (f.clean choices hash) := ⟨rfl,rfl,subset_rfl,subset_rfl⟩
  unfold untrack at untracked
  split at untracked
  · cases untracked
    exact ⟨rfl,rfl,keys_erase_subset _ _,subset_rfl⟩
  · split at untracked
    · cases untracked
      exact cleaned
    · split at untracked
      · split at untracked <;> cases untracked
        rename_i found
        exact ⟨rfl,rfl,subset_rfl,keys_insert_subset found⟩
      · cases untracked
        exact cleaned

theorem settle_shrinks {delivered : List TxHash} {stolen : Finset TxHash}
    {cutoff : Nat} {entry : TxHash × Nat}
    (settled : f.settle origin delivered stolen cutoff entry = .ok after) : Shrinks f after := by
  unfold settle at settled
  dsimp only at settled
  split at settled
  · cases settled
    exact .refl f
  · split at settled
    · cases settled
      exact ⟨rfl,rfl,subset_rfl,subset_rfl⟩
    · obtain ⟨middle,rescheduled,restEq⟩ := bind_eq_ok settled
      cases restEq
      unfold reschedule passOver at rescheduled
      split_ifs at rescheduled <;> cases rescheduled <;> exact ⟨rfl,rfl,subset_rfl,subset_rfl⟩

theorem dropWait_shrinks (dropped : f.dropWait peer hash = .ok after) : Shrinks f after := by
  unfold dropWait at dropped
  dsimp only at dropped
  split at dropped <;> cases dropped
  · exact ⟨rfl,rfl,keys_erase_subset _ _,subset_rfl⟩
  · exact ⟨rfl,rfl,subset_rfl,subset_rfl⟩

theorem dropRequest_shrinks {request : TxRequest TxHash}
    (dropped : f.dropRequest peer request = .ok after) : Shrinks f after := by
  obtain ⟨middle,loopEq,restEq⟩ := bind_eq_ok dropped
  cases restEq
  refine Shrinks.trans (Shrinks.foldlM (fun f hash after fetchEq => ?_) loopEq)
    ⟨rfl,rfl,subset_rfl,keys_erase_subset _ _⟩
  unfold dropFetch at fetchEq
  split at fetchEq <;> cases fetchEq <;> exact ⟨rfl,rfl,subset_rfl,subset_rfl⟩

theorem dropAnnounces_shrinks
    (dropped : f.dropAnnounces choices peer = .ok after) : Shrinks f after := by
  unfold dropAnnounces at dropped
  split at dropped
  · obtain ⟨middle,loopEq,restEq⟩ := bind_eq_ok dropped
    cases restEq
    refine Shrinks.trans (Shrinks.foldlM (fun f hash after dropEq => ?_) loopEq)
      ⟨rfl,rfl,subset_rfl,subset_rfl⟩
    cases dropEq
    exact ⟨rfl,rfl,subset_rfl,subset_rfl⟩
  · cases dropped
    exact .refl f

end Shrinks

/-- The timer is set, for a time up to the limit. -/
def Due (timer : Option AbsTime) (limit : AbsTime) : Prop := ∃ due, timer = some due ∧ due ≤ limit

/-- What becomes of a timer and of what it is for: it is set, or there is nothing to wait
for, or it is left as it was for something. -/
def Minded (limit : AbsTime) (before after : Option AbsTime × Prop) : Prop :=
  Due after.1 limit ∨ ¬after.2 ∨ after.1 = before.1 ∧ before.2

theorem Minded.trans {first middle last : Option AbsTime × Prop}
    (minded : Minded limit first middle) (later : Minded limit middle last) :
    Minded limit first last := by
  rcases later with due | nothing | ⟨same,pending⟩
  · exact Or.inl due
  · exact Or.inr (Or.inl nothing)
  · rw [Minded,same]
    rcases minded with due | nothing | left
    · exact Or.inl due
    · exact absurd pending nothing
    · exact Or.inr (Or.inr left)

def Settled (limit : AbsTime) (after : Option AbsTime × Prop) : Prop := Due after.1 limit ∨ ¬after.2

theorem Minded.settled {before after : Option AbsTime × Prop}
    (minded : Minded limit before after) (settled : Settled limit before) :
    Settled limit after := by
  rcases minded with due | nothing | ⟨same,pending⟩
  · exact Or.inl due
  · exact Or.inr nothing
  · rw [Settled,same]
    exact Or.inl (settled.resolve_right (not_not.mpr pending))

theorem Settled.later {now later timeout : AbsTime} {after : Option AbsTime × Prop}
    (clock : now ≤ later) : Settled (now + timeout) after → Settled (later + timeout) after :=
  Or.imp_left fun ⟨due,dueEq,le⟩ => ⟨due,dueEq,le.trans (Int.add_le_add_right clock timeout)⟩

def waits (f : TxFetcher Peer TxHash) : Option AbsTime × Prop := (f.waitTimer, f.waittime.keys ≠ ∅)

def timeouts (f : TxFetcher Peer TxHash) : Option AbsTime × Prop :=
  (f.timeoutTimer, f.requests.keys ≠ ∅)

structure Minds (now : AbsTime) (f after : TxFetcher Peer TxHash) : Prop where
  waits : Minded (now + txArriveTimeout) f.waits after.waits
  timeouts : Minded (now + txFetchTimeout) f.timeouts after.timeouts

variable {now : AbsTime} {choices : Choices Peer TxHash} {whitelist : Option (Finset Peer)}

omit [DecidableEq Peer] [DecidableEq TxHash] in
theorem Minds.trans {middle : TxFetcher Peer TxHash} (first : Minds now f middle)
    (second : Minds now middle after) : Minds now f after :=
  ⟨first.waits.trans second.waits,first.timeouts.trans second.timeouts⟩

theorem minded_of_subset {K W : Type} {timer timer' : Option AbsTime}
    {map map' : Finmap fun _ : K => W} (timerEq : timer' = timer) (subset : map'.keys ⊆ map.keys) :
    Minded limit (timer, map.keys ≠ ∅) (timer', map'.keys ≠ ∅) := by
  by_cases nothing : map'.keys = ∅
  · exact Or.inr (Or.inl (not_not.mpr nothing))
  · refine Or.inr (Or.inr ⟨timerEq,fun none => nothing ?_⟩)
    rwa [none,Finset.subset_empty] at subset

omit [DecidableEq Peer] [DecidableEq TxHash] in
theorem Shrinks.minds (shrinks : Shrinks f after) (now : AbsTime) : Minds now f after :=
  ⟨minded_of_subset shrinks.waitTimer shrinks.waittime,
    minded_of_subset shrinks.timeoutTimer shrinks.requests⟩

theorem earliestOf_le (timeout now : AbsTime) (times : List AbsTime) (earliest : AbsTime) :
    earliestOf timeout now times earliest ≤ earliest := by
  induction times generalizing earliest with
  | nil => exact le_rfl
  | cons time times ih =>
    unfold earliestOf
    split_ifs with earlier
    · exact earlier.le
    · exact (ih time).trans earlier.le
    · exact ih earliest

omit [DecidableEq Peer] [DecidableEq TxHash] in
theorem due_of_earliest {timeout reading : Int} (clock : reading ≤ now) (times : List AbsTime) :
    Due (some (reading + (timeout - (reading - earliestOf timeout reading times reading))))
      (now + timeout) := by
  refine ⟨_,rfl,?_⟩
  have earliest := earliestOf_le timeout reading times reading
  change (_ : Int) ≤ _ at earliest clock ⊢
  omega

theorem scheduleFetches_minds (clock : choices.timeoutNow ≤ now)
    (scheduled : f.scheduleFetches choices whitelist = .ok after) : Minds now f after := by
  unfold scheduleFetches at scheduled
  dsimp only at scheduled
  split at scheduled
  · cases scheduled
    exact (Shrinks.refl f).minds now
  · obtain ⟨fetched,loopEq,restEq⟩ := bind_eq_ok scheduled
    obtain ⟨waittimeEq,waitEq,timeoutEq⟩ : fetched.waittime = f.waittime ∧
        fetched.waitTimer = f.waitTimer ∧ fetched.timeoutTimer = f.timeoutTimer := by
      let view (f : TxFetcher Peer TxHash) := (f.waittime, f.waitTimer, f.timeoutTimer)
      have frame : view fetched = view f := foldlM_frame view
        (fun _ _ _ bodyEq => scheduleFetch_frame (fun _ _ _ _ _ => rfl) bodyEq) loopEq
      simpa [view] using frame
    have waits : fetched.waittime.keys ⊆ f.waittime.keys := by rw [waittimeEq]
    split at restEq <;> cases restEq
    · exact ⟨minded_of_subset waitEq waits,Or.inl (due_of_earliest clock _)⟩
    · rename_i notIdle
      rw [not_and_or,not_not] at notIdle
      refine ⟨minded_of_subset waitEq waits,Or.inr ?_⟩
      exact notIdle.symm.imp not_not.mpr fun busy => ⟨timeoutEq,busy⟩

theorem announced_minds (clock : choices.waitNow ≤ now) (origin : Peer) (hashes : List TxHash) :
    let announced := hashes.foldl (announce choices origin) f
    Minds now f (if f.waittime.keys = ∅ ∧ announced.waittime.keys ≠ ∅ then
      announced.rescheduleWait choices else announced) := by
  intro announced
  let view (f : TxFetcher Peer TxHash) := (f.waitTimer, f.timeoutTimer, f.requests)
  have frame : view announced = view f := by
    refine foldlRecOn (motive := fun g => view g = view f) hashes _ rfl ?_
    intro g same hash _
    rw [← same]
    unfold announce
    split_ifs <;> rfl
  obtain ⟨waitEq,timeoutEq,requestsEq⟩ : announced.waitTimer = f.waitTimer ∧
      announced.timeoutTimer = f.timeoutTimer ∧ announced.requests = f.requests := by
    simpa [view] using frame
  have requests : announced.requests.keys ⊆ f.requests.keys := by rw [requestsEq]
  split
  · exact ⟨Or.inl (due_of_earliest clock _),minded_of_subset timeoutEq requests⟩
  · rename_i notIdle
    rw [not_and_or,not_not] at notIdle
    refine ⟨Or.inr ?_,minded_of_subset timeoutEq requests⟩
    exact notIdle.symm.imp not_not.mpr fun busy => ⟨waitEq,busy⟩

theorem handleNotify_minds (waitClock : choices.waitNow ≤ now)
    (timeoutClock : choices.timeoutNow ≤ now)
    (handled : f.handleNotify choices origin hashes = .ok after) : Minds now f after := by
  have announced := announced_minds (f := f) waitClock origin (f.taken origin hashes)
  rcases handleNotify_cases handled with rfl | scheduled
  · exact announced
  · exact announced.trans (scheduleFetches_minds timeoutClock scheduled)

theorem handleWaitTrigger_minds (waitClock : choices.waitNow ≤ now)
    (timeoutClock : choices.timeoutNow ≤ now) (handled : f.handleWaitTrigger choices = .ok after) :
    Minds now f after ∧ Settled (now + txArriveTimeout) after.waits := by
  obtain ⟨⟨expired,actives⟩,loopEq,restEq⟩ := bind_eq_ok handled
  have shrinks : Shrinks f expired := foldlM_related
    (fun first last : TxFetcher Peer TxHash × Finset Peer => Shrinks first.1 last.1)
    (fun state => .refl state.1) Shrinks.trans (fun _ _ _ => expireWait_shrinks) loopEq
  let armed := if expired.waittime.keys ≠ ∅ then expired.rescheduleWait choices else expired
  have armedMinds : Minds now f armed ∧ Settled (now + txArriveTimeout) armed.waits := by
    unfold armed
    split
    · have due : Due (expired.rescheduleWait choices).waitTimer (now + txArriveTimeout) :=
        due_of_earliest waitClock _
      exact ⟨⟨Or.inl due,(shrinks.minds now).timeouts⟩,Or.inl due⟩
    · rename_i nothing
      exact ⟨shrinks.minds now,Or.inr nothing⟩
  by_cases active : actives ≠ ∅
  · have minds := scheduleFetches_minds timeoutClock ((if_pos active).symm.trans restEq)
    exact ⟨armedMinds.1.trans minds,minds.waits.settled armedMinds.2⟩
  · cases (if_neg active).symm.trans restEq
    exact armedMinds

theorem handleTimeoutTrigger_minds (clock : choices.timeoutNow ≤ now)
    (handled : f.handleTimeoutTrigger choices = .ok after) :
    Minds now f after ∧ Settled (now + txFetchTimeout) after.timeouts := by
  obtain ⟨expired,loopEq,restEq⟩ := bind_eq_ok handled
  obtain ⟨scheduled,scheduleEq,restEq⟩ := bind_eq_ok restEq
  cases restEq
  have shrinks := Shrinks.foldlM (fun _ _ _ => expireRequest_shrinks) loopEq
  have minds := (shrinks.minds now).trans (scheduleFetches_minds clock scheduleEq)
  exact ⟨⟨minds.waits,Or.inl (due_of_earliest clock _)⟩,Or.inl (due_of_earliest clock _)⟩

theorem handleCleanup_minds (clock : choices.timeoutNow ≤ now) {direct : Bool}
    (handled : f.handleCleanup choices origin hashes direct = .ok after) : Minds now f after := by
  obtain ⟨untracked,loopEq,restEq⟩ := bind_eq_ok handled
  have shrinks := Shrinks.foldlM (fun _ _ _ => untrack_shrinks) loopEq
  split at restEq
  · split at restEq
    · cases restEq
      exact shrinks.minds now
    · obtain ⟨settled,settleEq,scheduleEq⟩ := bind_eq_ok restEq
      have erased :
          Shrinks untracked { untracked with requests := untracked.requests.erase origin } :=
        ⟨rfl,rfl,subset_rfl,keys_erase_subset _ _⟩
      have settles := Shrinks.foldlM (fun _ _ _ => settle_shrinks) settleEq
      exact (((shrinks.trans erased).trans settles).minds now).trans
        (scheduleFetches_minds clock scheduleEq)
  · cases restEq
    exact shrinks.minds now

theorem dropWaits_minds (clock : choices.waitNow ≤ now)
    (dropped : f.dropWaits choices peer = .ok after) : Minds now f after := by
  unfold dropWaits at dropped
  split at dropped
  · obtain ⟨middle,loopEq,restEq⟩ := bind_eq_ok dropped
    have shrinks := (Shrinks.foldlM (fun _ _ _ => dropWait_shrinks) loopEq).minds now
    cases restEq
    split
    · exact ⟨Or.inl (due_of_earliest clock _),shrinks.timeouts⟩
    · exact ⟨shrinks.waits,shrinks.timeouts⟩
  · cases dropped
    exact (Shrinks.refl f).minds now

theorem handleDrop_minds (waitClock : choices.waitNow ≤ now)
    (timeoutClock : choices.timeoutNow ≤ now)
    (handled : f.handleDrop choices peer = .ok after) : Minds now f after := by
  obtain ⟨unwaited,waitsEq,restEq⟩ := bind_eq_ok handled
  refine (dropWaits_minds waitClock waitsEq).trans ?_
  split at restEq
  · exact (dropAnnounces_shrinks restEq).minds now
  · obtain ⟨unasked,requestEq,restEq⟩ := bind_eq_ok restEq
    obtain ⟨forgotten,announcesEq,restEq⟩ := bind_eq_ok restEq
    obtain ⟨scheduled,scheduleEq,restEq⟩ := bind_eq_ok restEq
    cases restEq
    have shrinks := (dropRequest_shrinks requestEq).trans (dropAnnounces_shrinks announcesEq)
    have minds := (shrinks.minds now).trans (scheduleFetches_minds timeoutClock scheduleEq)
    exact ⟨minds.waits,Or.inl (due_of_earliest timeoutClock _)⟩

/-! ## The loop in time -/

/-- The loop between two iterations, with the clock and the number of triggers of each
timer that went off and are not received: one is in the channel, others wait to be sent. -/
structure Timed (Peer TxHash : Type) where
  fetcher : TxFetcher Peer TxHash
  now : AbsTime
  waitTriggers : Nat
  timeoutTriggers : Nat

inductive TimedAction (Peer TxHash : Type)
  | advance (later : AbsTime)
  | fireWait
  | fireTimeout
  | iterate (event : Event Peer TxHash) (choices : Choices Peer TxHash) (later : AbsTime)

namespace Timed

def start (now : AbsTime) : Timed Peer TxHash := ⟨newTxFetcher,now,0,0⟩

/-- Receive the trigger of an event, which is there for it. -/
def receive (event : Event Peer TxHash) (s : Timed Peer TxHash) : Option (Timed Peer TxHash) :=
  match event with
  | .waitTrigger =>
    if s.waitTriggers = 0 then none else some { s with waitTriggers := s.waitTriggers - 1 }
  | .timeoutTrigger =>
    if s.timeoutTriggers = 0 then none else some { s with timeoutTriggers := s.timeoutTriggers - 1 }
  | .notify _ _ | .cleanup _ _ _ | .drop _ => some s

/-- What happens to the loop and its timers; the clock never goes back, and is read
within an iteration no later than the iteration ends. -/
def step : TimedAction Peer TxHash → Timed Peer TxHash → Option (Timed Peer TxHash)
  | .advance later, s => if s.now ≤ later then some { s with now := later } else none
  | .fireWait, s => s.fetcher.waitTimer.bind fun due =>
    if due ≤ s.now then
      some { s with
        fetcher := { s.fetcher with waitTimer := none }
        waitTriggers := s.waitTriggers + 1 }
    else none
  | .fireTimeout, s => s.fetcher.timeoutTimer.bind fun due =>
    if due ≤ s.now then
      some { s with
        fetcher := { s.fetcher with timeoutTimer := none }
        timeoutTriggers := s.timeoutTriggers + 1 }
    else none
  | .iterate event choices later, s =>
    if s.now ≤ later ∧ choices.waitNow ≤ later ∧ choices.timeoutNow ≤ later then
      (s.receive event).bind fun received =>
        match received.fetcher.handle (event, choices) with
        | .error _ => none
        | .ok fetcher => some { received with fetcher := fetcher, now := later }
    else none

/-- What is waited for has a trigger queued, or a timer that is due in time. -/
structure NeverStalls (s : Timed Peer TxHash) : Prop where
  waits : 0 < s.waitTriggers ∨ Settled (s.now + txArriveTimeout) s.fetcher.waits
  timeouts : 0 < s.timeoutTriggers ∨ Settled (s.now + txFetchTimeout) s.fetcher.timeouts

section

omit [DecidableEq Peer] [DecidableEq TxHash]

theorem NeverStalls.later {s : Timed Peer TxHash} (stalls : s.NeverStalls) {later : AbsTime}
    (clock : s.now ≤ later) : NeverStalls { s with now := later } :=
  ⟨stalls.waits.imp_right (Settled.later clock),stalls.timeouts.imp_right (Settled.later clock)⟩

theorem receive_cases {event : Event Peer TxHash} {s received : Timed Peer TxHash}
    (receiveEq : s.receive event = some received) :
    received.fetcher = s.fetcher ∧ (received.waitTriggers = s.waitTriggers ∨ event = .waitTrigger) ∧
      (received.timeoutTriggers = s.timeoutTriggers ∨ event = .timeoutTrigger) := by
  unfold receive at receiveEq
  split at receiveEq
  · split at receiveEq <;> cases receiveEq
    exact ⟨rfl,Or.inr rfl,Or.inl rfl⟩
  · split at receiveEq <;> cases receiveEq
    exact ⟨rfl,Or.inl rfl,Or.inr rfl⟩
  all_goals
    cases receiveEq
    exact ⟨rfl,Or.inl rfl,Or.inl rfl⟩

end

theorem handle_minds (waitClock : choices.waitNow ≤ now) (timeoutClock : choices.timeoutNow ≤ now)
    {event : Event Peer TxHash} (handled : f.handle (event, choices) = .ok after) :
    Minds now f after ∧ (event = .waitTrigger → Settled (now + txArriveTimeout) after.waits) ∧
      (event = .timeoutTrigger → Settled (now + txFetchTimeout) after.timeouts) := by
  cases event with
  | notify origin hashes => exact ⟨handleNotify_minds waitClock timeoutClock handled,nofun,nofun⟩
  | waitTrigger =>
    have minds := handleWaitTrigger_minds waitClock timeoutClock handled
    exact ⟨minds.1,fun _ => minds.2,nofun⟩
  | timeoutTrigger =>
    have minds := handleTimeoutTrigger_minds timeoutClock handled
    exact ⟨minds.1,nofun,fun _ => minds.2⟩
  | cleanup origin hashes direct => exact ⟨handleCleanup_minds timeoutClock handled,nofun,nofun⟩
  | drop peer => exact ⟨handleDrop_minds waitClock timeoutClock handled,nofun,nofun⟩

theorem step_neverStalls (s : Timed Peer TxHash) (action : TimedAction Peer TxHash)
    (next : Timed Peer TxHash) (stalls : s.NeverStalls) (stepped : step action s = some next) :
    next.NeverStalls := by
  cases action with
  | advance later =>
    simp only [step,Option.ite_none_right_eq_some] at stepped
    obtain ⟨clock,stepped⟩ := stepped
    cases stepped
    exact stalls.later clock
  | fireWait =>
    obtain ⟨due,-,stepped⟩ := Option.bind_eq_some_iff.mp stepped
    split at stepped <;> cases stepped
    exact ⟨Or.inl (Nat.succ_pos _),stalls.timeouts⟩
  | fireTimeout =>
    obtain ⟨due,-,stepped⟩ := Option.bind_eq_some_iff.mp stepped
    split at stepped <;> cases stepped
    exact ⟨stalls.waits,Or.inl (Nat.succ_pos _)⟩
  | iterate event choices later =>
    simp only [step,Option.ite_none_right_eq_some,Option.bind_eq_some_iff] at stepped
    obtain ⟨clocks,received,receiveEq,stepped⟩ := stepped
    obtain ⟨fetcherEq,waitEq,timeoutEq⟩ := receive_cases receiveEq
    split at stepped <;> cases stepped
    rename_i after handled
    rw [fetcherEq] at handled
    obtain ⟨minds,waited,timedOut⟩ := handle_minds clocks.2.1 clocks.2.2 handled
    have stalls := stalls.later clocks.1
    constructor
    · rcases waitEq with same | trigger
      · exact (same ▸ stalls.waits).imp_right minds.waits.settled
      · exact Or.inr (waited trigger)
    · rcases timeoutEq with same | trigger
      · exact (same ▸ stalls.timeouts).imp_right minds.timeouts.settled
      · exact Or.inr (timedOut trigger)

/-- Whatever events come in whatever order, the timers never stall. -/
theorem timers_never_stall (now : AbsTime) (actions : List (TimedAction Peer TxHash)) :
    Always step (fun s => (s.fetcher.waittime.keys ≠ ∅ →
        0 < s.waitTriggers ∨ Due s.fetcher.waitTimer (s.now + txArriveTimeout)) ∧
      (s.fetcher.requests.keys ≠ ∅ →
        0 < s.timeoutTriggers ∨ Due s.fetcher.timeoutTimer (s.now + txFetchTimeout)))
      (start now) actions := by
  refine always_of_kept step_neverStalls ?_ ⟨Or.inr (Or.inr ?_),Or.inr (Or.inr ?_)⟩
  · intro s stalls
    exact ⟨fun pending => stalls.waits.imp_right fun settled => settled.resolve_right
      (not_not.mpr pending),fun pending => stalls.timeouts.imp_right fun settled =>
      settled.resolve_right (not_not.mpr pending)⟩
  · exact not_not.mpr rfl
  · exact not_not.mpr rfl

end Timed

end PioplatRelay.TxFetcher
