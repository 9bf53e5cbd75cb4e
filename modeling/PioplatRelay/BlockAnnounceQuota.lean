import PioplatRelay.BlockFetcherRuns
import PioplatRelay.CounterMaps

/-!
# The quota of announcements

`announces` counts the outstanding announcements of each peer, of which there may
be `hashLimit`.  The fetch timer calls `forgetHash` for an announcement that it turns
into a request, and so takes it off the counter while it is still outstanding.  The
counters are right exactly as long as the timer finds no announced block that is
still unknown.
-/

namespace PioplatRelay

open Finmap Function List IterationOrder

variable {Header Tx : Type}

namespace BlockFetcher

def ofPeer (peer : String) (list : List (BlockAnnounce Header)) : Nat :=
  list.countP fun announce => announce.origin = peer

variable (f : BlockFetcher Header Tx)

/-- The number of a peer's announcements that are outstanding, in all four stages. -/
def outstanding (peer : String) : Nat :=
  total (ofPeer peer) f.announced + total (fun announce => ofPeer peer [announce]) f.fetching +
    total (ofPeer peer) f.fetched + total (fun announce => ofPeer peer [announce]) f.completing

/-- The counter of every peer is the number of its outstanding announcements,
which is within the limit. -/
structure QuotaKept (s : Looping Header Tx) : Prop where
  counted : ∀ peer, (s.fetcher.announces.lookup peer).getD 0 = s.fetcher.outstanding peer
  limited : ∀ peer, (s.fetcher.outstanding peer : Int) ≤ hashLimit

/-- When the fetch timer fires, every announced block that is due has arrived
already. -/
def NothingFetched (s : Looping Header Tx) : Looping.Action Header Tx → Prop
  | .handle choices .fetchTimer => ∀ hash first others,
      s.fetcher.announced.lookup hash = some (first :: others) →
        0 < choices.timerNow hash - first.time → choices.known 0 hash
  | _ => True

/-! ## Counters of announcements -/

theorem releaseAll_counts {announces : Finmap fun _ : String => Int} {count : String → Nat}
    (counts : Counts announces count) (list : List (BlockAnnounce Header)) :
    Counts (releaseAll announces list) fun peer => count peer - ofPeer peer list := by
  induction list generalizing announces count with
  | nil => exact counts
  | cons announce list ih =>
    have oneLess : (fun peer => count peer - ofPeer peer (announce :: list)) = fun peer =>
        Function.update count announce.origin (count announce.origin - 1) peer -
          ofPeer peer list := by
      funext peer
      by_cases same : peer = announce.origin
      · subst same
        rw [update_self,ofPeer,countP_cons_of_pos (by simp),← ofPeer]
        omega
      · rw [update_of_ne same,ofPeer,countP_cons_of_neg (by simp [Ne.symm same]),← ofPeer]
    rw [oneLess]
    exact ih (counts.decrement announce.origin)

def Counted : Prop := Counts f.announces fun peer => total (ofPeer peer) f.announced

/-- Nothing is requested, and what is announced is counted and within the limit. -/
structure Unfetched : Prop where
  fetching : f.fetching = ∅
  fetched : f.fetched = ∅
  completing : f.completing = ∅
  counted : f.Counted
  limited : ∀ peer, (total (ofPeer peer) f.announced : Int) ≤ hashLimit

variable {format : BlockFormat Header Tx} {f : BlockFetcher Header Tx} {choices : Choices}

theorem Unfetched.outstanding_eq (unfetched : f.Unfetched) (peer : String) :
    f.outstanding peer = total (ofPeer peer) f.announced := by
  rw [outstanding,unfetched.fetching,unfetched.fetched,unfetched.completing]
  rfl

theorem Unfetched.quotaKept {s : Looping Header Tx} (unfetched : s.fetcher.Unfetched) :
    QuotaKept s := by
  constructor
  · intro peer
    rw [unfetched.outstanding_eq]
    exact unfetched.counted.getD_eq peer
  · intro peer
    rw [unfetched.outstanding_eq]
    exact unfetched.limited peer

/-! ## Steps that request nothing -/

variable {hash : Hash} {next : BlockFetcher Header Tx} {others : List (BlockAnnounce Header)}
  {first : BlockAnnounce Header} {point : Point}

theorem Counted.forgetHash (counted : f.Counted)
    (notFetching : f.fetching.lookup hash = none) (notFetched : f.fetched.lookup hash = none)
    (notCompleting : f.completing.lookup hash = none) : (f.forgetHash hash).Counted := by
  unfold BlockFetcher.forgetHash
  rw [notFetching,notFetched,notCompleting]
  have released := releaseAll_counts counted ((f.announced.lookup hash).getD [])
  have remaining (peer : String) : total (ofPeer peer) f.announced -
      ofPeer peer ((f.announced.lookup hash).getD []) =
        total (ofPeer peer) (f.announced.erase hash) := by
    rw [total_erase _ f.announced hash]
    cases f.announced.lookup hash with
    | none => rfl
    | some list => exact Nat.add_sub_cancel _ _
  simp only [remaining] at released
  exact released

section

variable (unfetched : f.Unfetched)

include unfetched

theorem Unfetched.forgetHash (hash : Hash) : (f.forgetHash hash).Unfetched where
  fetching := by
    rw [BlockFetcher.forgetHash,unfetched.fetching]
    exact erase_of_lookup_eq_none (lookup_empty hash)
  fetched := by
    rw [BlockFetcher.forgetHash,unfetched.fetched]
    exact erase_of_lookup_eq_none (lookup_empty hash)
  completing := by
    rw [BlockFetcher.forgetHash,unfetched.completing]
    exact erase_of_lookup_eq_none (lookup_empty hash)
  counted := by
    apply unfetched.counted.forgetHash
    · rw [unfetched.fetching]
      exact lookup_empty hash
    · rw [unfetched.fetched]
      exact lookup_empty hash
    · rw [unfetched.completing]
      exact lookup_empty hash
  limited peer := by
    have before := unfetched.limited peer
    have split := total_erase (ofPeer peer) f.announced hash
    rw [BlockFetcher.forgetHash]
    dsimp only
    omega

theorem Unfetched.of_eq
    (announces : next.announces = f.announces) (announced : next.announced = f.announced)
    (fetching : next.fetching = f.fetching) (fetched : next.fetched = f.fetched)
    (completing : next.completing = f.completing) : next.Unfetched where
  fetching := fetching.trans unfetched.fetching
  fetched := fetched.trans unfetched.fetched
  completing := completing.trans unfetched.completing
  counted := by
    rw [Counted,announces,announced]
    exact unfetched.counted
  limited := by
    rw [announced]
    exact unfetched.limited

theorem Unfetched.forgetBlock (hash : Hash) : (f.forgetBlock hash).Unfetched := by
  unfold BlockFetcher.forgetBlock
  split
  · exact unfetched.of_eq rfl rfl rfl rfl rfl
  · exact unfetched

theorem Unfetched.enqueue (peer : String)
    (block : ChainBlock Header Tx) : (f.enqueue format peer block).Unfetched := by
  unfold BlockFetcher.enqueue
  dsimp only
  split
  · exact unfetched.forgetHash _
  · split
    · exact unfetched
    · exact unfetched.of_eq rfl rfl rfl rfl rfl

theorem Unfetched.notify (origin : String) (hash : Hash)
    (number : UInt64) (time : AbsTime) : (f.notify origin hash number time).Unfetched := by
  have totals (peer : String) : total (ofPeer peer) (f.announced.insert hash
      ((f.announced.lookup hash).getD [] ++ [⟨hash,number,none,time,origin⟩])) =
        Function.update (fun peer => total (ofPeer peer) f.announced) origin
          (total (ofPeer origin) f.announced + 1) peer := by
    rw [total_insert,ofPeer,countP_append,← ofPeer]
    have split := total_erase (ofPeer peer) f.announced hash
    have same : (f.announced.lookup hash).elim 0 (ofPeer peer) =
        ofPeer peer ((f.announced.lookup hash).getD []) := by
      cases f.announced.lookup hash <;> rfl
    by_cases own : peer = origin
    · subst own
      rw [update_self,countP_cons_of_pos (by simp),countP_nil]
      omega
    · rw [update_of_ne own,countP_cons_of_neg (by simp [Ne.symm own]),countP_nil]
      omega
  unfold BlockFetcher.notify
  dsimp only
  split
  · exact unfetched
  rename_i withinLimit
  split
  · exact unfetched
  split
  · exact unfetched
  split
  · exact unfetched
  rw [unfetched.counted.getD_eq] at withinLimit
  refine { unfetched with counted := ?_, limited := ?_ }
  · rw [Counted]
    simp only [totals]
    exact unfetched.counted.increment origin
  · intro peer
    rw [totals]
    by_cases own : peer = origin
    · subst own
      rw [update_self]
      omega
    · rw [update_of_ne own]
      exact unfetched.limited peer

theorem Unfetched.expireFetches : f.expireFetches choices = f := by
  rw [BlockFetcher.expireFetches,unfetched.fetching,keys_empty,order_empty]
  rfl

theorem Unfetched.fetchBodies : (f.fetchBodies choices).Unfetched := by
  rw [BlockFetcher.fetchBodies,unfetched.fetched,keys_empty,order_empty]
  exact unfetched.of_eq rfl rfl rfl rfl rfl

theorem Unfetched.filterHeaders (peer : String) (headers : List Header)
    (time : AbsTime) : f.filterHeaders format choices peer headers time = f := by
  have filtered : headers.zipIdx.foldl (fun state entry =>
      filterHeader format (choices.known entry.2) peer time state entry.1)
      (⟨f,[],[]⟩ : HeaderFilter Header Tx) = ⟨f,[],[]⟩ := by
    induction headers.zipIdx with
    | nil => rfl
    | cons entry entries ih =>
      obtain ⟨header,i⟩ := entry
      have unknown : f.fetching.lookup (format.hash header) = none := by
        rw [unfetched.fetching]
        exact lookup_empty _
      have ignored : filterHeader format (choices.known i) peer time ⟨f,[],[]⟩ header =
          ⟨f,[],[]⟩ := by
        simp [filterHeader,unknown]
      rw [foldl_cons]
      rw [ignored]
      exact ih
  exact congrArg (fun state : HeaderFilter Header Tx => state.complete.foldl
    (enqueueCompleted format) (state.incomplete.foldl (keepIncomplete format) state.fetcher))
    filtered

theorem Unfetched.filterBodies (peer : String)
    (transactions : List (List Tx)) (uncles : List (List Header)) :
    f.filterBodies format choices peer transactions uncles = some f := by
  have matched (i : Nat) (bodies : List (List Tx × List Header)) :
      matchBodies format choices peer i bodies (f, []) = some (f, []) := by
    induction bodies generalizing i with
    | nil => rfl
    | cons body bodies ih =>
      rw [matchBodies,unfetched.completing,keys_empty,order_empty]
      exact ih (i + 1)
  rw [BlockFetcher.filterBodies,matched]
  rfl

/-! ## The fetch timer -/

theorem Unfetched.fetchHeaders
    (arrived : ∀ hash first others, f.announced.lookup hash = some (first :: others) →
      0 < choices.timerNow hash - first.time → choices.known 0 hash) :
    (f.fetchHeaders choices).Unfetched := by
  let Kept (g : BlockFetcher Header Tx) : Prop := g.Unfetched ∧ ∀ hash list,
    g.announced.lookup hash = some list → f.announced.lookup hash = some list
  have kept : Kept (f.fetchHeaders choices) := by
    refine fetchHeaders_kept ⟨unfetched,fun _ _ found => found⟩ ?_
      fun _ kept => ⟨kept.1.of_eq rfl rfl rfl rfl rfl,kept.2⟩
    rintro g hash next ⟨gUnfetched,fewer⟩ step
    cases step with
    | skip => exact ⟨gUnfetched,fewer⟩
    | known =>
      refine ⟨gUnfetched.forgetHash hash,?_⟩
      intro other list foundOther
      simp only [BlockFetcher.forgetHash,lookup_erase_ite] at foundOther
      split at foundOther
      · cases foundOther
      · exact fewer other list foundOther
    | fetch found due unknown => exact absurd (arrived hash _ _ (fewer hash _ found) due) unknown
  exact kept.1

end

/-- What holds while the timer moves announcements to the requests. -/
structure Moving (f : BlockFetcher Header Tx) : Prop where
  fetched : f.fetched = ∅
  completing : f.completing = ∅
  counted : f.Counted
  moved : ∀ hash ∈ f.announced, f.fetching.lookup hash = none

theorem Moving.forgetHash (moving : f.Moving) (announced : hash ∈ f.announced) :
    (f.forgetHash hash).Moving where
  fetched := by
    rw [BlockFetcher.forgetHash,moving.fetched]
    exact erase_of_lookup_eq_none (lookup_empty hash)
  completing := by
    rw [BlockFetcher.forgetHash,moving.completing]
    exact erase_of_lookup_eq_none (lookup_empty hash)
  counted := by
    apply moving.counted.forgetHash (moving.moved hash announced)
    · rw [moving.fetched]
      exact lookup_empty hash
    · rw [moving.completing]
      exact lookup_empty hash
  moved other stillAnnounced := by
    rw [BlockFetcher.forgetHash,Finmap.mem_erase] at stillAnnounced
    rw [BlockFetcher.forgetHash,lookup_erase_ite,if_neg stillAnnounced.1]
    exact moving.moved other stillAnnounced.2

variable {state : BlockFetcher Header Tx × List (String × Hash)} {hash other : Hash}

theorem Moving.fetchHeaders (moving : f.Moving) : (f.fetchHeaders choices).Moving := by
  refine fetchHeaders_kept moving ?_ fun _ moving => { moving with }
  intro g hash next moving step
  cases step with
  | skip => exact moving
  | known found => exact moving.forgetHash (mem_of_lookup_eq_some found)
  | fetch found =>
    have forgotten := moving.forgetHash (mem_of_lookup_eq_some found)
    refine { forgotten with moved := ?_ }
    intro other stillAnnounced
    have different : other ≠ hash := by
      rintro rfl
      exact notMem_erase_self stillAnnounced
    rw [lookup_insert_ite,if_neg different]
    exact forgotten.moved other stillAnnounced

theorem fetchOne_frame (different : other ≠ hash) :
    (fetchOne choices state hash).1.announced.lookup other = state.1.announced.lookup other ∧
      (fetchOne choices state hash).1.fetching.lookup other = state.1.fetching.lookup other := by
  have step : FetchStep choices state.1 hash _ := fetchOne_step state hash
  generalize (fetchOne choices state hash).1 = next at step ⊢
  cases step with
  | skip => exact ⟨rfl,rfl⟩
  | known | fetch => simp [forgetHash,different]

theorem foldl_fetchOne_frame {hashes : List Hash} (away : other ∉ hashes) :
    (hashes.foldl (fetchOne choices) state).1.announced.lookup other =
        state.1.announced.lookup other ∧
      (hashes.foldl (fetchOne choices) state).1.fetching.lookup other =
        state.1.fetching.lookup other := by
  induction hashes generalizing state with
  | nil => exact ⟨rfl,rfl⟩
  | cons hash hashes ih =>
    rw [List.mem_cons,not_or] at away
    obtain ⟨announced,fetching⟩ := ih away.2
    obtain ⟨announcedOnce,fetchingOnce⟩ := fetchOne_frame away.1
    exact ⟨announced.trans announcedOnce,fetching.trans fetchingOnce⟩

theorem exists_fetching (found : f.announced.lookup hash = some (first :: others))
    (due : 0 < choices.timerNow hash - first.time) (unknown : ¬ choices.known 0 hash) :
    ∃ announce, (f.fetchHeaders choices).fetching.lookup hash = some announce := by
  have member : hash ∈ choices.announcedOrder.order f.announced.keys := by
    rw [choices.announcedOrder.mem_iff,Finmap.mem_keys]
    exact mem_of_lookup_eq_some found
  obtain ⟨before,after,split⟩ := append_of_mem member
  have nodup := choices.announcedOrder.nodup f.announced.keys
  rw [split,nodup_middle,nodup_cons,mem_append,not_or] at nodup
  have pickedLt : choices.pick hash % (first :: others).length < (first :: others).length :=
    Nat.mod_lt _ (by simp)
  rw [fetchHeaders,split,foldl_append,foldl_cons]
  rw [(foldl_fetchOne_frame nodup.1.2).2,BlockFetcher.fetchOne]
  simp only [(foldl_fetchOne_frame nodup.1.1).1,found,due,if_true,picked,
    getElem?_eq_getElem pickedLt,unknown,Bool.false_eq_true,if_false,lookup_insert]
  exact ⟨_,rfl⟩

/-- A request that the timer makes is outstanding and not counted. -/
theorem Unfetched.not_quotaKept (unfetched : f.Unfetched)
    (found : f.announced.lookup hash = some (first :: others))
    (due : 0 < choices.timerNow hash - first.time) (unknown : ¬ choices.known 0 hash) :
    ¬ QuotaKept ⟨point,f.fetchHeaders choices⟩ := by
  intro kept
  have moving : (f.fetchHeaders choices).Moving := by
    have initially : f.Moving := by
      refine { unfetched with moved := ?_ }
      intro other _
      rw [unfetched.fetching]
      exact lookup_empty other
    exact initially.fetchHeaders
  obtain ⟨announce,requested⟩ := exists_fetching found due unknown
  have counted : ((f.fetchHeaders choices).announces.lookup announce.origin).getD 0 =
      (f.fetchHeaders choices).outstanding announce.origin := kept.counted announce.origin
  have own : ofPeer announce.origin [announce] = 1 := by
    rw [ofPeer,countP_cons_of_pos (by simp),countP_nil]
  have some_requested := weight_le_total
    (fun other => ofPeer announce.origin [other]) requested
  rw [moving.counted.getD_eq,outstanding] at counted
  omega

/-! ## Runs -/

theorem Unfetched.handle (unfetched : f.Unfetched) {event : Event Header Tx}
    (guard : NothingFetched ⟨point,f⟩ (.handle choices event))
    (handled : f.handle format choices event = some next) : next.Unfetched := by
  cases event with
  | notify origin hash number time =>
    cases handled
    exact unfetched.notify origin hash number time
  | inject origin block =>
    cases handled
    exact unfetched.enqueue origin block
  | done hash =>
    cases handled
    exact (unfetched.forgetHash hash).forgetBlock hash
  | fetchTimer =>
    cases handled
    exact unfetched.fetchHeaders guard
  | completeTimer =>
    cases handled
    exact unfetched.fetchBodies
  | filterHeaders peer headers time =>
    cases handled
    rw [unfetched.filterHeaders]
    exact unfetched
  | filterBodies peer transactions uncles =>
    rw [BlockFetcher.handle,unfetched.filterBodies] at handled
    cases handled
    exact unfetched

theorem step_unfetched {s next : Looping Header Tx} {action : Looping.Action Header Tx}
    (unfetched : s.fetcher.Unfetched) (guard : NothingFetched s action)
    (stepped : Looping.step format action s = some next) : next.fetcher.Unfetched := by
  cases Looping.stepped_of_step stepped with
  | expire choices f =>
    rw [Unfetched.expireFetches unfetched]
    exact unfetched
  | importNext | insert => exact Unfetched.of_eq unfetched rfl rfl rfl rfl rfl
  | wait => exact unfetched
  | handle _ handled => exact Unfetched.handle unfetched guard handled
  | done =>
    apply Unfetched.forgetBlock
    apply Unfetched.forgetHash
    exact Unfetched.of_eq unfetched rfl rfl rfl rfl rfl

theorem newBlockFetcher_unfetched : (newBlockFetcher : BlockFetcher Header Tx).Unfetched where
  fetching := rfl
  fetched := rfl
  completing := rfl
  counted := Counts.empty
  limited _ := (by decide : (0 : Int) ≤ hashLimit)

/-- In a run of the fetcher the counters are the numbers of outstanding
announcements and within the limit throughout, exactly when the fetch timer never
finds a due announcement of a block that is still unknown. -/
theorem quotaKept_iff_nothingFetched (actions : List (Looping.Action Header Tx)) :
    Always (Looping.step format) QuotaKept Looping.start actions ↔
      Guarded (Looping.step format) NothingFetched Looping.start actions := by
  apply always_iff_guarded (fun s action next => step_unfetched) (fun s => Unfetched.quotaKept) _
    newBlockFetcher_unfetched
  intro s action next unfetched unguarded stepped
  cases Looping.stepped_of_step stepped with
  | @handle choices event f after notDone handled =>
    cases event with
    | fetchTimer =>
      cases handled
      simp only [NothingFetched,not_forall] at unguarded
      obtain ⟨hash,first,others,found,due,unknown⟩ := unguarded
      exact Unfetched.not_quotaKept unfetched found due unknown
    | _ => exact absurd trivial unguarded
  | _ => exact absurd trivial unguarded

def Choices.late : Choices := { Choices.plain with timerNow := fun _ => 1 }

def announcedThenFetched : List (Looping.Action BriefHeader UInt8) :=
  [.expire .plain, .wait, .handle .plain (.notify "peer" .zero 1 0), .expire .plain, .wait,
    .handle .late .fetchTimer]

/-- The peer has one request outstanding, and its counter is gone. -/
theorem request_not_counted :
    ∃ s, runAll (Looping.step .brief) Looping.start announcedThenFetched = some s ∧
      s.fetcher.announces.lookup "peer" = none ∧ s.fetcher.outstanding "peer" = 1 ∧
      ¬ QuotaKept s := by
  obtain ⟨s,run,counts⟩ := Option.map_eq_some_iff.mp (by decide +kernel :
    (runAll (Looping.step .brief) Looping.start announcedThenFetched).map (fun s =>
      (s.fetcher.announces.lookup "peer", s.fetcher.outstanding "peer")) = some (none, 1))
  obtain ⟨noCounter,oneRequest⟩ := Prod.mk.inj counts
  refine ⟨s,run,noCounter,oneRequest,?_⟩
  intro kept
  have counted := kept.counted "peer"
  rw [noCounter,oneRequest] at counted
  cases counted

end BlockFetcher

end PioplatRelay
