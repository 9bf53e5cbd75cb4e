import PioplatRelay.TxFetcherInvariants

/-!
# Handlers of the transaction fetcher

Announcements, expired waits, expired requests and deliveries keep the
invariant, whatever the order of the maps and the clock.  A drop takes every
record to what is left of it without the dropped peer.
-/

namespace PioplatRelay.TxFetcher

open List

variable {Peer TxHash : Type} [DecidableEq Peer] [DecidableEq TxHash]
  {Q Q' : TxHash → Record Peer → Prop} {asked asked' : Peer → TxHash → Prop}
  {f after : TxFetcher Peer TxHash} {hash : TxHash} {record : Record Peer}

/-! ## Announcements -/

theorem announce_invariant (kept : Kept Q) (choices : Choices Peer TxHash) (origin : Peer)
    (hash : TxHash) (invariant : f.Invariant Q) : (f.announce choices origin hash).Invariant Q := by
  obtain ⟨record,held,holds,owner⟩ := invariant.sound hash
  apply invariant.moves held (announce_moves choices origin held) (kept.announce origin holds)
  exact record.owner_announce origin

theorem foldl_announce_invariant (kept : Kept Q) (choices : Choices Peer TxHash) (origin : Peer)
    (hashes : List TxHash) (invariant : f.Invariant Q) :
    (hashes.foldl (announce choices origin) f).Invariant Q := by
  induction hashes generalizing f with
  | nil => exact invariant
  | cons hash hashes ih => exact ih (announce_invariant kept choices origin hash invariant)

theorem rescheduleWait_invariant {choices : Choices Peer TxHash} {needed : Prop}
    [Decidable needed] (invariant : f.Invariant Q) :
    (if needed then f.rescheduleWait choices else f).Invariant Q := by
  split
  · exact invariant.of_eq rfl rfl
  · exact invariant

theorem schedule_if_invariant {choices : Choices Peer TxHash} {whitelist : Option (Finset Peer)}
    {needed : Prop} [Decidable needed] (fetchable : Fetchable Q) (invariant : f.Invariant Q) :
    ∃ after, (if needed then f.scheduleFetches choices whitelist else .ok f) = .ok after ∧
      after.Invariant Q := by
  split
  · exact scheduleFetches_kept fetchable choices whitelist invariant
  · exact ⟨f,rfl,invariant⟩

theorem handleNotify_invariant (kept : Kept Q) (choices : Choices Peer TxHash) (origin : Peer)
    (hashes : List TxHash) (invariant : f.Invariant Q) :
    ∃ after, f.handleNotify choices origin hashes = .ok after ∧ after.Invariant Q := by
  unfold handleNotify
  dsimp only
  split
  · exact ⟨f,rfl,invariant⟩
  · have announced := foldl_announce_invariant kept choices origin
      (wanted ((f.waitslots.slots origin).card + (f.announces.slots origin).card) hashes) invariant
    exact schedule_if_invariant kept.toFetchable (rescheduleWait_invariant announced)

theorem expireWait_invariant (kept : Kept Q) (choices : Choices Peer TxHash)
    (actives : Finset Peer) (hash : TxHash) (invariant : f.Invariant Q) :
    ∃ after, expireWait choices (f, actives) hash = .ok after ∧ after.1.Invariant Q := by
  cases since : f.waittime.lookup hash with
  | none => exact ⟨(f, actives),by simp [expireWait,since],invariant⟩
  | some time =>
    by_cases expired : txArriveTimeout < choices.hashNow hash - time + txGatherSlack
    · obtain ⟨⟨stage,announcers⟩,held,holds,owner⟩ := invariant.sound hash
      have waits := held.waittime
      rw [since] at waits
      cases stage with
      | waiting origins =>
        obtain ⟨after,expireEq,moves⟩ := expireWait_moves choices actives held since expired
        refine ⟨_,expireEq,?_⟩
        exact invariant.moves held moves (kept.queue holds) (Record.owner_queue _)
      | unknown | queued origins | fetching owner others => cases waits
    · exact ⟨(f, actives),by simp [expireWait,since,expired],invariant⟩

theorem handleWaitTrigger_invariant (kept : Kept Q) (choices : Choices Peer TxHash)
    (invariant : f.Invariant Q) :
    ∃ after, f.handleWaitTrigger choices = .ok after ∧ after.Invariant Q := by
  obtain ⟨⟨g,actives⟩,loopEq,expired⟩ := Loop.foldlM_invariant
    (fun state : TxFetcher Peer TxHash × Finset Peer => state.1.Invariant Q)
    (fun state hash holds => expireWait_invariant kept choices state.2 hash holds)
    (choices.slotHashes.order f.waittime.keys) (show (f, ∅).1.Invariant Q from invariant)
  unfold handleWaitTrigger
  rw [loopEq]
  exact schedule_if_invariant kept.toFetchable (rescheduleWait_invariant expired)

variable {req : TxRequest TxHash}

omit [DecidableEq TxHash] in
theorem asked_of_found {peer : Peer} (found : f.requests.lookup peer = some req) (hash : TxHash) :
    Asked f.requests peer hash ↔ hash ∈ req.hashes ∧ hash ∉ req.stolen := by
  simp [Asked,found]

theorem expireRequest_invariant (kept : Kept Q) (choices : Choices Peer TxHash) (peer : Peer)
    (invariant : f.Invariant Q) :
    ∃ after, f.expireRequest choices peer = .ok after ∧ after.Invariant Q := by
  unfold expireRequest
  cases found : f.requests.lookup peer with
  | none => exact ⟨f,rfl,invariant⟩
  | some req =>
    dsimp only
    split
    · obtain ⟨g,loopEq,requestsEq,moved,unmoved⟩ := invariant.sound.retire_loop peer
        id (fun _ => Record.requeue peer) (requeue peer req.stolen)
        (by simpa using invariant.distinct peer req found)
        (by simpa using fun hash asks => ((asked_of_found found hash).mp asks).1)
        (fun g hash _ asks others announcers held => by
          exact requeue_moves held ((asked_of_found found hash).mp asks).2)
        (fun g hash member free record _ held => by
          have stolen : hash ∈ req.stolen := by
            by_contra kept
            exact free ((asked_of_found found hash).mpr ⟨member,kept⟩)
          exact ⟨g,by simp [requeue,stolen],Moves.refl held⟩)
      have sound := invariant.sound.retire_moved peer moved unmoved
        (fun _ _ _ => kept.requeue peer) (fun _ => Record.owner_requeue peer)
      rw [loopEq]
      refine ⟨_,rfl,sound.congr ?_ ?_,?_⟩
      · funext hash
        simp [entry]
      · intro other hash
        rw [asked_insert,requestsEq]
        split <;> simp_all
      · rw [requestsEq]
        exact forall_lookup_insert nodup_nil invariant.distinct
    · exact ⟨f,rfl,invariant⟩

theorem handleTimeoutTrigger_invariant (kept : Kept Q) (choices : Choices Peer TxHash)
    (invariant : f.Invariant Q) :
    ∃ after, f.handleTimeoutTrigger choices = .ok after ∧ after.Invariant Q := by
  obtain ⟨g,loopEq,expired⟩ := Loop.foldlM_invariant (Invariant Q)
    (fun _ peer holds => expireRequest_invariant kept choices peer holds)
    (choices.slotPeers.order f.requests.keys) invariant
  obtain ⟨scheduled,scheduleEq,invariantScheduled⟩ :=
    scheduleFetches_kept kept.toFetchable choices none expired
  unfold handleTimeoutTrigger
  rw [loopEq]
  dsimp only [bind,Except.bind]
  rw [scheduleEq]
  exact ⟨_,rfl,invariantScheduled.of_eq rfl rfl⟩

/-! ## Deliveries -/

/-- A delivery in progress: a peer that delivers directly no longer counts as
asked for what has arrived so far. -/
structure Delivering (Q : TxHash → Record Peer → Prop) (origin : Peer) (direct : Bool)
    (arrived : List TxHash) (f : TxFetcher Peer TxHash) : Prop where
  sound : f.Sound Q fun peer hash =>
    Asked f.requests peer hash ∧ ¬ (direct = true ∧ peer = origin ∧ hash ∈ arrived)
  distinct : ∀ peer req, f.requests.lookup peer = some req → req.hashes.Nodup
  forgotten : ∀ hash ∈ arrived, f.Holds hash .forgotten

variable {origin : Peer} {direct : Bool} {arrived : List TxHash}

theorem Delivering.forget (kept : Kept Q) (delivering : f.Delivering Q origin direct arrived)
    (entryEq : after.entry = Function.update f.entry hash Record.forgotten.entry)
    (distinct : ∀ peer req, after.requests.lookup peer = some req → req.hashes.Nodup)
    (here : ∀ peer, Asked after.requests peer hash → direct = true ∧ peer = origin)
    (elsewhere : ∀ peer other, other ≠ hash →
      (Asked after.requests peer other ↔ Asked f.requests peer other)) :
    after.Delivering Q origin direct (hash :: arrived) := by
  refine ⟨delivering.sound.moves entryEq (kept.forgotten hash) ?_ ?_,distinct,?_⟩
  · intro peer
    constructor
    · intro impossible
      cases impossible
    · rintro ⟨asks,counted⟩
      obtain ⟨isDirect,isOrigin⟩ := here peer asks
      exact absurd ⟨isDirect,isOrigin,mem_cons_self⟩ counted
  · intro peer other different
    rw [elsewhere peer other different,mem_cons,or_iff_right different]
  · intro other member
    by_cases same : other = hash
    · rw [holds_iff,entryEq,same,Function.update_self]
    · have before := delivering.forgotten other (mem_of_ne_of_mem same member)
      exact before.of_entry_eq (by rw [entryEq,Function.update_of_ne same])

theorem Delivering.keep (kept : Kept Q) (delivering : f.Delivering Q origin direct arrived)
    (held : f.Holds hash record)
    (own : ∀ peer, record.stage.owner = some peer → peer = origin ∧ direct = true)
    (moves : Moves f after hash .forgotten) :
    after.Delivering Q origin direct (hash :: arrived) := by
  apply delivering.forget kept moves.entry_eq
  · rw [moves.requests_eq]
    exact delivering.distinct
  · intro peer asks
    rw [moves.requests_eq] at asks
    by_contra other
    have owned := (delivering.sound.owner_iff held peer).mpr
      ⟨asks,fun both => other ⟨both.1,both.2.1⟩⟩
    exact other (own peer owned).symm
  · intro peer other _
    rw [moves.requests_eq]

/-- A hash that is stolen from its owner is marked in the request of the owner. -/
theorem Delivering.steal (kept : Kept Q) (delivering : f.Delivering Q origin direct arrived)
    (held : f.Holds hash record) {owner : Peer} (owned : record.stage.owner = some owner)
    (found : f.requests.lookup owner = some req)
    (entryEq : after.entry = Function.update f.entry hash Record.forgotten.entry)
    (requestsEq : after.requests =
      f.requests.insert owner { req with stolen := insert hash req.stolen }) :
    after.Delivering Q origin direct (hash :: arrived) := by
  apply delivering.forget kept entryEq
  · rw [requestsEq]
    exact forall_lookup_insert (delivering.distinct owner req found) delivering.distinct
  · intro peer asks
    rw [requestsEq,asked_insert] at asks
    split at asks
    · exact absurd (Finset.mem_insert_self hash req.stolen) asks.2
    · rename_i different
      by_contra uncounted
      have owned' := (delivering.sound.owner_iff held peer).mpr
        ⟨asks,fun both => uncounted ⟨both.1,both.2.1⟩⟩
      exact different (Option.some.inj (owned'.symm.trans owned))
  · intro peer other different
    rw [requestsEq,asked_insert]
    split
    · rename_i same
      rw [same,asked_of_found found]
      simp [different]
    · rfl

theorem untrack_delivering (kept : Kept Q) (choices : Choices Peer TxHash) (hash : TxHash)
    (delivering : f.Delivering Q origin direct arrived) :
    ∃ after, f.untrack choices origin direct hash = .ok after ∧
      after.Delivering Q origin direct (hash :: arrived) := by
  obtain ⟨record,held,holds,owner⟩ := delivering.sound hash
  by_cases notWaiting : f.waitlist.lookup hash = none
  · by_cases own : ∀ peer, record.stage.owner = some peer → peer = origin ∧ direct = true
    · obtain ⟨after,untrackEq,moves⟩ := untrack_moves choices held notWaiting own
      exact ⟨after,untrackEq,delivering.keep kept held own moves⟩
    · rw [not_forall] at own
      obtain ⟨victim,own⟩ := own
      rw [Classical.not_imp] at own
      obtain ⟨owned,other⟩ := own
      have asks := (owner victim).mp owned
      have stolen : victim ≠ origin ∨ direct = false := by simpa [or_iff_not_imp_left] using other
      obtain ⟨others,announcers,rfl⟩ := delivering.sound.fetching asks held
      obtain ⟨req,found,-⟩ := asks.1
      obtain ⟨after,untrackEq,entryEq,requestsEq⟩ := untrack_stolen choices held stolen found
      exact ⟨after,untrackEq,delivering.steal kept held owned found entryEq requestsEq⟩
  · obtain ⟨stage,announcers⟩ := record
    have waits := held.waitlist
    cases stage with
    | waiting origins =>
      have silent : announcers = ∅ := by simpa [Stage.origins] using kept.listed holds
      subst silent
      obtain ⟨after,untrackEq,moves⟩ := untrack_waiting_moves choices origin direct held
      refine ⟨after,untrackEq,delivering.keep kept held ?_ moves⟩
      intro peer impossible
      cases impossible
    | unknown | queued origins | fetching owner others => exact absurd waits notWaiting

omit [DecidableEq TxHash] in
theorem asked_erase (requests : Finmap fun _ : Peer => TxRequest TxHash) (peer other : Peer)
    (hash : TxHash) :
    Asked (requests.erase peer) other hash ↔ other ≠ peer ∧ Asked requests other hash := by
  unfold Asked
  simp only [lookup_erase_ite]
  split <;> simp_all

omit [DecidableEq TxHash] in
theorem distinct_erase {requests : Finmap fun _ : Peer => TxRequest TxHash} {peer : Peer}
    (distinct : ∀ other req, requests.lookup other = some req → req.hashes.Nodup) :
    ∀ other req, (requests.erase peer).lookup other = some req → req.hashes.Nodup := by
  intro other req found
  rw [lookup_erase_ite] at found
  split at found
  · cases found
  · exact distinct other req found

/-- The loop over the request of a peer that has delivered directly: what has
arrived is forgotten already, what is missing goes back to the queue. -/
theorem settle_sound (kept : Kept Q) {delivered : List TxHash}
    (sound : f.Sound Q fun peer hash => asked peer hash ∧ ¬ (peer = origin ∧ hash ∈ delivered))
    (asked_iff : ∀ hash, asked origin hash ↔ hash ∈ req.hashes ∧ hash ∉ req.stolen)
    (forgotten : ∀ hash ∈ delivered, f.Holds hash .forgotten) (distinct : req.hashes.Nodup)
    (cutoff : Nat) :
    ∃ after, req.hashes.zipIdx.foldlM (settle origin delivered req.stolen cutoff) f = .ok after ∧
      after.requests = f.requests ∧
      after.Sound Q fun peer hash => peer ≠ origin ∧ asked peer hash := by
  have listed : req.hashes.zipIdx.map Prod.fst = req.hashes := zipIdx_map_fst _ _
  obtain ⟨after,loopEq,requestsEq,moved,unmoved⟩ := sound.retire_loop origin
    Prod.fst
    (fun entry record => if entry.2 < cutoff then record.requeue origin else record.release)
    (settle origin delivered req.stolen cutoff) (by rwa [listed])
    (fun hash asks => by
      rw [listed]
      exact ((asked_iff hash).mp asks.1).1)
    (fun g entry _ asks others announcers held =>
      settle_moves held ((asked_iff entry.1).mp asks.1).2 fun arrives => asks.2 ⟨rfl,arrives⟩)
    (fun g entry member free record initial held => by
      have requested : entry.1 ∈ req.hashes := listed ▸ mem_map_of_mem member
      by_cases stolen : entry.1 ∈ req.stolen
      · exact ⟨g,settle_stolen stolen,Moves.refl held⟩
      · have arrives : entry.1 ∈ delivered := by
          by_contra missing
          exact free ⟨(asked_iff entry.1).mpr ⟨requested,stolen⟩,fun both => missing both.2⟩
        cases (forgotten entry.1 arrives).unique initial
        exact settle_delivered held stolen arrives)
  refine ⟨after,loopEq,requestsEq,?_⟩
  apply (sound.retire_moved origin moved unmoved _ _).congr rfl
  · intro peer hash
    tauto
  · intro entry hash record holds
    split
    · exact kept.requeue origin holds
    · exact kept.release holds
  · intro entry record
    split
    · exact record.owner_requeue origin
    · exact record.owner_release

/-- The rest of a direct delivery, once all that has arrived is forgotten. -/
theorem settle_invariant (kept : Kept Q) (delivering : f.Delivering Q origin true arrived)
    (delivered : List TxHash) (same : ∀ hash, hash ∈ arrived ↔ hash ∈ delivered) (cutoff : Nat)
    (found : f.requests.lookup origin = some req) :
    ∃ after, req.hashes.zipIdx.foldlM (settle origin delivered req.stolen cutoff)
        { f with requests := f.requests.erase origin } = .ok after ∧ after.Invariant Q := by
  have sound : { f with requests := f.requests.erase origin }.Sound Q fun peer hash =>
      Asked f.requests peer hash ∧ ¬ (peer = origin ∧ hash ∈ delivered) := by
    refine delivering.sound.congr rfl ?_
    intro peer hash
    simp [same hash]
  obtain ⟨after,loopEq,requestsEq,settled⟩ := settle_sound kept sound (asked_of_found found)
    (fun hash arrives => (delivering.forgotten hash ((same hash).mpr arrives)).of_entry_eq rfl)
    (delivering.distinct origin req found) cutoff
  refine ⟨after,loopEq,settled.congr rfl ?_,?_⟩
  · intro peer hash
    rw [requestsEq,asked_erase]
  · rw [requestsEq]
    exact distinct_erase delivering.distinct

theorem handleCleanup_invariant (kept : Kept Q) (choices : Choices Peer TxHash) (origin : Peer)
    (hashes : List TxHash) (direct : Bool) (invariant : f.Invariant Q) :
    ∃ after, f.handleCleanup choices origin hashes direct = .ok after ∧ after.Invariant Q := by
  have starting : f.Delivering Q origin direct [] :=
    ⟨invariant.sound.congr rfl (by simp),invariant.distinct,by simp⟩
  obtain ⟨g,loopEq,delivering⟩ := Loop.foldlM_progress (Delivering Q origin direct)
    (fun done g hash _ holds => untrack_delivering kept choices hash holds) [] starting
  unfold handleCleanup
  rw [loopEq]
  dsimp only [bind,Except.bind]
  cases direct with
  | false => exact ⟨g,rfl,delivering.sound.congr rfl (by simp),delivering.distinct⟩
  | true =>
    cases found : g.requests.lookup origin with
    | none =>
      refine ⟨g,rfl,delivering.sound.congr rfl ?_,delivering.distinct⟩
      intro peer hash
      have idle : ¬ Asked g.requests origin hash := by simp [Asked,found]
      constructor
      · exact And.left
      · intro asks
        refine ⟨asks,?_⟩
        rintro ⟨-,rfl,-⟩
        exact idle asks
    | some req =>
      obtain ⟨settled,settleEq,invariantSettled⟩ := settle_invariant kept delivering hashes
        (by simp) (cutoff hashes req.hashes) found
      simp only [settleEq]
      exact scheduleFetches_kept kept.toFetchable choices none invariantSettled

end PioplatRelay.TxFetcher
