import PioplatRelay.BlockFetcherRuns

/-!
# Headers of announcements

An announcement gets its header when the header arrives, and the stages behind
that one use the header without looking whether it is there.  They hold only
announcements with a header of their hash and number; so what the body filter
enqueues is the announced block.
-/

namespace PioplatRelay

open List

variable {Header Tx : Type}

namespace BlockFetcher

variable (format : BlockFormat Header Tx)

def Headed (hash : Hash) (announce : BlockAnnounce Header) :
    Prop :=
  ∃ header, announce.header = some header ∧ format.hash header = hash ∧
    format.numberU64 header = announce.number

/-- What the stages hold: first announcements of the hash, then ones with a header. -/
structure Staged (format : BlockFormat Header Tx) (f : BlockFetcher Header Tx) : Prop where
  announced : ∀ hash list, f.announced.lookup hash = some list →
    ∀ announce ∈ list, announce.hash = hash
  fetching : ∀ hash announce, f.fetching.lookup hash = some announce → announce.hash = hash
  fetched : ∀ hash list, f.fetched.lookup hash = some list →
    ∀ announce ∈ list, Headed format hash announce
  completing : ∀ hash announce, f.completing.lookup hash = some announce →
    Headed format hash announce

def Completes (f : BlockFetcher Header Tx)
    (block : ChainBlock Header Tx) : Prop :=
  ∃ hash announce, f.completing.lookup hash = some announce ∧
    announce.header = some block.header ∧ format.blockHash block = hash ∧
    format.blockNumber block = announce.number ∧ format.Authentic block

/-- Every announcement behind the headers has its header, and whatever bodies
arrive are handled, with only announced blocks enqueued. -/
structure HeadersPresent (s : Looping Header Tx) : Prop where
  fetched : ∀ hash list, s.fetcher.fetched.lookup hash = some list →
    ∀ announce ∈ list, Headed format hash announce
  completing : ∀ hash announce, s.fetcher.completing.lookup hash = some announce →
    Headed format hash announce
  bodies : s.point = .selecting → ∀ choices peer transactions uncles, ∃ after,
    s.fetcher.handle format choices (.filterBodies peer transactions uncles) = some after ∧
      ∀ op ∈ after.queue, Completes format s.fetcher op.block

variable {format : BlockFormat Header Tx} {f g : BlockFetcher Header Tx} {choices : Choices}

/-! ## Forgetting -/

/-- The second holds no announcement that the first does not hold. -/
structure Fewer (f g : BlockFetcher Header Tx) : Prop where
  announced : ∀ hash list, g.announced.lookup hash = some list →
    f.announced.lookup hash = some list
  fetching : ∀ hash announce, g.fetching.lookup hash = some announce →
    f.fetching.lookup hash = some announce
  fetched : ∀ hash list, g.fetched.lookup hash = some list → f.fetched.lookup hash = some list
  completing : ∀ hash announce, g.completing.lookup hash = some announce →
    f.completing.lookup hash = some announce

theorem Fewer.of_eq (announced : g.announced = f.announced) (fetching : g.fetching = f.fetching)
    (fetched : g.fetched = f.fetched) (completing : g.completing = f.completing) : Fewer f g := by
  constructor
  · rw [announced]
    exact fun _ _ found => found
  · rw [fetching]
    exact fun _ _ found => found
  · rw [fetched]
    exact fun _ _ found => found
  · rw [completing]
    exact fun _ _ found => found

theorem Fewer.refl (f : BlockFetcher Header Tx) : Fewer f f := .of_eq rfl rfl rfl rfl

theorem Fewer.trans {h : BlockFetcher Header Tx} (first : Fewer f g) (second : Fewer g h) :
    Fewer f h where
  announced hash list found := first.announced hash list (second.announced hash list found)
  fetching hash announce found := first.fetching hash announce (second.fetching hash announce found)
  fetched hash list found := first.fetched hash list (second.fetched hash list found)
  completing hash announce found :=
    first.completing hash announce (second.completing hash announce found)

theorem lookup_of_erase {V : Type} {map : Finmap fun _ : Hash => V} {key hash : Hash} {value : V}
    (found : (map.erase key).lookup hash = some value) : map.lookup hash = some value := by
  rw [lookup_erase_ite] at found
  split at found
  · cases found
  · exact found

theorem fewer_forgetHash (f : BlockFetcher Header Tx) (hash : Hash) : Fewer f (f.forgetHash hash) :=
  ⟨fun _ _ => lookup_of_erase,fun _ _ => lookup_of_erase,fun _ _ => lookup_of_erase,
    fun _ _ => lookup_of_erase⟩

theorem Staged.fewer (staged : f.Staged format) (fewer : Fewer f g) : g.Staged format where
  announced hash list found := staged.announced hash list (fewer.announced hash list found)
  fetching hash announce found := staged.fetching hash announce (fewer.fetching hash announce found)
  fetched hash list found := staged.fetched hash list (fewer.fetched hash list found)
  completing hash announce found :=
    staged.completing hash announce (fewer.completing hash announce found)

section

variable (f)

theorem fewer_forgetBlock (hash : Hash) : Fewer f (f.forgetBlock hash) := by
  unfold forgetBlock
  split
  · exact Fewer.of_eq rfl rfl rfl rfl
  · exact Fewer.refl f

theorem fewer_enqueue (peer : String) (block : ChainBlock Header Tx) :
    Fewer f (f.enqueue format peer block) := by
  unfold enqueue
  dsimp only
  split
  · exact fewer_forgetHash f _
  · split
    · exact Fewer.refl f
    · exact Fewer.of_eq rfl rfl rfl rfl

theorem fewer_enqueueCompleted (blocks : List (ChainBlock Header Tx)) :
    Fewer f (blocks.foldl (enqueueCompleted format) f) := by
  induction blocks generalizing f with
  | nil => exact Fewer.refl f
  | cons block blocks ih =>
    have one : Fewer f (enqueueCompleted format f block) := by
      unfold enqueueCompleted
      split
      · exact fewer_enqueue f _ block
      · exact Fewer.refl f
    exact one.trans (ih _)

theorem fewer_expireFetches (choices : Choices) : Fewer f (f.expireFetches choices) := by
  rw [expireFetches]
  refine foldlRecOn (motive := fun g => Fewer f g) _ _ (Fewer.refl f) ?_
  intro g fewer hash _
  apply fewer.trans
  unfold expireFetch
  split
  · split
    · exact fewer_forgetHash g hash
    · exact Fewer.refl g
  · exact Fewer.refl g

end

/-! ## Announcements and timers -/

theorem Staged.notify (staged : f.Staged format) (origin : String) (hash : Hash)
    (number : UInt64) (time : AbsTime) : (f.notify origin hash number time).Staged format := by
  unfold BlockFetcher.notify
  dsimp only
  split
  · exact staged
  split
  · exact staged
  split
  · exact staged
  split
  · exact staged
  refine { staged with announced := ?_ }
  apply forall_lookup_insert _ staged.announced
  exact forall_mem_append.mpr ⟨forall_mem_lookup_getD staged.announced hash,by simp⟩

theorem Staged.fetchHeaders (staged : f.Staged format) :
    (f.fetchHeaders choices).Staged format := by
  refine fetchHeaders_kept staged ?_ fun _ staged => { staged with }
  intro g hash next staged step
  have forgotten := staged.fewer (fewer_forgetHash g hash)
  cases step with
  | skip => exact staged
  | known => exact forgotten
  | fetch found _ _ chosen =>
    refine { forgotten with fetching := ?_ }
    apply forall_lookup_insert _ forgotten.fetching
    exact staged.announced hash _ found _ chosen

theorem Staged.fetchBodies (staged : f.Staged format) : (f.fetchBodies choices).Staged format := by
  refine fetchBodies_kept staged ?_ fun _ staged => { staged with }
  intro g hash next staged step
  have forgotten := staged.fewer (fewer_forgetHash g hash)
  cases step with
  | skip => exact staged
  | known => exact forgotten
  | complete chosen =>
    refine { forgotten with completing := ?_ }
    apply forall_lookup_insert _ forgotten.completing
    exact forall_mem_lookup_getD staged.fetched hash _ chosen

/-! ## Headers -/

structure HeaderFilter.Staged (format : BlockFormat Header Tx) (state : HeaderFilter Header Tx) :
    Prop where
  fetcher : state.fetcher.Staged format
  incomplete : ∀ announce ∈ state.incomplete, Headed format announce.hash announce

theorem HeaderFilter.Staged.filterHeader {state : HeaderFilter Header Tx}
    (staged : state.Staged format) (known : Hash → Bool) (peer : String) (time : AbsTime)
    (header : Header) : (filterHeader format known peer time state header).Staged format := by
  unfold BlockFetcher.filterHeader
  dsimp only
  split
  · rename_i announce found
    have forgotten := staged.fetcher.fewer (fewer_forgetHash state.fetcher (format.hash header))
    split
    · split
      · exact ⟨{ forgotten with },staged.incomplete⟩
      · rename_i sameNumber
        split
        · exact ⟨forgotten,staged.incomplete⟩
        · -- The announcement gets its header, wherever it is.
          have ownHash := staged.fetcher.fetching _ announce found
          have headed : Headed format (format.hash header)
              { announce with header := some header, time } :=
            ⟨header,rfl,rfl,not_not.mp sameNumber⟩
          have fetching : ∀ other requested, (state.fetcher.fetching.insert (format.hash header)
              { announce with header := some header, time }).lookup other = some requested →
                requested.hash = other :=
            forall_lookup_insert ownHash staged.fetcher.fetching
          have incomplete : ∀ waiting ∈ state.incomplete.map (fun other =>
              if other.hash = format.hash header then
                { announce with header := some header, time } else other),
              Headed format waiting.hash waiting := by
            intro waiting member
            obtain ⟨other,otherMem,rfl⟩ := mem_map.mp member
            split
            · dsimp only
              rw [ownHash]
              exact headed
            · exact staged.incomplete other otherMem
          split
          · refine ⟨⟨staged.fetcher.announced,fetching,staged.fetcher.fetched,?_⟩,incomplete⟩
            exact forall_lookup_insert headed staged.fetcher.completing
          · refine ⟨{ staged.fetcher with fetching },forall_mem_append.mpr ⟨incomplete,?_⟩⟩
            intro waiting member
            rw [mem_singleton.mp member]
            rw [ownHash]
            exact headed
    · exact staged
  · exact staged

theorem Staged.keepIncomplete (staged : f.Staged format)
    (headed : Headed format announce.hash announce) :
    (keepIncomplete format f announce).Staged format := by
  obtain ⟨header,headerEq,hashEq,numberEq⟩ := headed
  unfold BlockFetcher.keepIncomplete
  rw [headerEq]
  dsimp only
  split
  · exact staged
  refine { staged with fetched := ?_ }
  apply forall_lookup_insert _ staged.fetched
  refine forall_mem_append.mpr ⟨forall_mem_lookup_getD staged.fetched _,?_⟩
  rw [forall_mem_singleton]
  exact ⟨header,headerEq,rfl,numberEq⟩

theorem Staged.filterHeaders (staged : f.Staged format) (peer : String) (headers : List Header)
    (time : AbsTime) : (f.filterHeaders format choices peer headers time).Staged format := by
  have filtered : (headers.zipIdx.foldl (fun state entry =>
      BlockFetcher.filterHeader format (choices.known entry.2) peer time state entry.1)
      (⟨f,[],[]⟩ : HeaderFilter Header Tx)).Staged format := by
    refine foldlRecOn headers.zipIdx _ ⟨staged,forall_mem_nil _⟩ ?_
    intro state before entry _
    exact before.filterHeader _ _ _ _
  have kept : (foldl (BlockFetcher.keepIncomplete format) _ _).Staged format :=
    foldlRecOn (motive := fun g : BlockFetcher Header Tx => g.Staged format) _ _
      filtered.fetcher fun _ before announce member =>
        before.keepIncomplete (filtered.incomplete announce member)
  exact kept.fewer (fewer_enqueueCompleted _ _)

/-! ## Bodies -/

/-- What holds while bodies are compared: nothing is announced or requested anew,
and the blocks found complete requests. -/
structure Matching (format : BlockFormat Header Tx) (f : BlockFetcher Header Tx)
    (state : BlockFetcher Header Tx × List (ChainBlock Header Tx)) : Prop where
  fewer : Fewer f state.1
  blocks : ∀ block ∈ state.2, Completes format f block

variable {state : BlockFetcher Header Tx × List (ChainBlock Header Tx)}

theorem Matching.matchBody (staged : f.Staged format) (matching : Matching format f state)
    (known : Hash → Bool) (peer : String) (transactions : List Tx) (uncles : List Header)
    (hash : Hash) :
    ∃ after, matchBody format known peer transactions uncles state hash = some after ∧
      Matching format f after := by
  unfold BlockFetcher.matchBody
  dsimp only
  split
  · rename_i announce found
    have requested := matching.fewer.completing hash announce found
    obtain ⟨header,headerEq,hashEq,numberEq⟩ := staged.completing hash announce requested
    split
    · exact ⟨state,rfl,matching⟩
    · rw [headerEq,Option.map_some]
      refine ⟨_,rfl,?_⟩
      split
      · exact matching
      · rename_i uncleHash
        split
        · exact matching
        · rename_i txHash
          split
          · exact ⟨matching.fewer.trans (fewer_forgetHash state.1 hash),matching.blocks⟩
          · refine ⟨matching.fewer,forall_mem_append.mpr ⟨matching.blocks,?_⟩⟩
            intro block member
            rw [mem_singleton.mp member]
            exact ⟨hash,announce,requested,headerEq,hashEq,numberEq,
              not_not.mp uncleHash,not_not.mp txHash⟩
  · exact ⟨state,rfl,matching⟩

theorem Matching.matchHashes (staged : f.Staged format) (matching : Matching format f state)
    (known : Hash → Bool) (peer : String) (transactions : List Tx) (uncles : List Header)
    (hashes : List Hash) :
    ∃ after, hashes.foldlM (BlockFetcher.matchBody format known peer transactions uncles) state =
      some after ∧ Matching format f after := by
  induction hashes generalizing state with
  | nil => exact ⟨state,rfl,matching⟩
  | cons hash hashes ih =>
    obtain ⟨middle,first,matchingMiddle⟩ :=
      matching.matchBody staged known peer transactions uncles hash
    obtain ⟨after,rest,matchingAfter⟩ := ih matchingMiddle
    refine ⟨after,?_,matchingAfter⟩
    rw [foldlM_cons,first]
    exact rest

theorem Matching.matchBodies (staged : f.Staged format) (matching : Matching format f state)
    (choices : Choices) (peer : String) (i : Nat) (bodies : List (List Tx × List Header)) :
    ∃ after, matchBodies format choices peer i bodies state = some after ∧
      Matching format f after := by
  induction bodies generalizing i state with
  | nil => exact ⟨state,rfl,matching⟩
  | cons body bodies ih =>
    obtain ⟨middle,first,matchingMiddle⟩ := matching.matchHashes staged (choices.known i) peer
      body.1 body.2 ((choices.completingOrder i).order state.1.completing.keys)
    obtain ⟨after,rest,matchingAfter⟩ := ih matchingMiddle (i + 1)
    refine ⟨after,?_,matchingAfter⟩
    rw [BlockFetcher.matchBodies,first]
    exact rest

theorem mem_queue_enqueueCompleted {blocks : List (ChainBlock Header Tx)}
    {op : BlockInject Header Tx} (member : op ∈ (blocks.foldl (enqueueCompleted format) f).queue) :
    op ∈ f.queue ∨ op.block ∈ blocks := by
  induction blocks generalizing f with
  | nil => exact .inl member
  | cons block blocks ih =>
    rcases ih member with earlier | later
    · unfold enqueueCompleted enqueue at earlier
      dsimp only at earlier
      split at earlier
      · split at earlier
        · exact .inl earlier
        · split at earlier
          · exact .inl earlier
          · rcases mem_cons.mp ((BinaryHeap.push_perm f.queue _).mem_iff.mp earlier) with
              rfl | queued
            · exact .inr mem_cons_self
            · exact .inl queued
      · exact .inl earlier
    · exact .inr (mem_cons_of_mem block later)

/-- Bodies are handled whatever they are, and complete announced blocks only. -/
theorem Staged.filterBodies (staged : f.Staged format) (choices : Choices) (peer : String)
    (transactions : List (List Tx)) (uncles : List (List Header)) :
    ∃ after, f.filterBodies format choices peer transactions uncles = some after ∧
      Fewer f after ∧ ∀ op ∈ after.queue, op ∈ f.queue ∨ Completes format f op.block := by
  obtain ⟨⟨g,blocks⟩,matched,matching⟩ := Matching.matchBodies staged
    (⟨Fewer.refl f,forall_mem_nil _⟩ : Matching format f (f, [])) choices peer 0
    (transactions.zip uncles)
  refine ⟨blocks.foldl (enqueueCompleted format) g,?_,?_,?_⟩
  · rw [BlockFetcher.filterBodies,matched]
    rfl
  · exact matching.fewer.trans (fewer_enqueueCompleted g blocks)
  · intro op member
    rcases mem_queue_enqueueCompleted member with earlier | found
    · have same := sameImports_matchBodies matched
      rw [same.queue] at earlier
      exact .inl earlier
    · exact .inr (matching.blocks op.block found)

/-! ## Runs -/

structure Ready (format : BlockFormat Header Tx) (s : Looping Header Tx) : Prop where
  staged : s.fetcher.Staged format
  drained : s.Drained

theorem Staged.handle (staged : f.Staged format) {event : Event Header Tx}
    (handled : f.handle format choices event = some g) : g.Staged format := by
  cases event with
  | notify origin hash number time =>
    cases handled
    exact staged.notify origin hash number time
  | inject origin block =>
    cases handled
    exact staged.fewer (fewer_enqueue f origin block)
  | done hash =>
    cases handled
    exact staged.fewer ((fewer_forgetHash f hash).trans (fewer_forgetBlock _ hash))
  | fetchTimer =>
    cases handled
    exact staged.fetchHeaders
  | completeTimer =>
    cases handled
    exact staged.fetchBodies
  | filterHeaders peer headers time =>
    cases handled
    exact staged.filterHeaders peer headers time
  | filterBodies peer transactions uncles =>
    obtain ⟨after,afterEq,fewer,-⟩ := staged.filterBodies choices peer transactions uncles
    rw [BlockFetcher.handle,afterEq] at handled
    cases handled
    exact staged.fewer fewer

theorem step_ready {s next : Looping Header Tx} {action : Looping.Action Header Tx}
    (ready : Ready format s) (stepped : Looping.step format action s = some next) :
    Ready format next := by
  refine ⟨?_,Looping.step_drained ready.drained stepped⟩
  have staged := ready.staged
  cases Looping.stepped_of_step stepped with
  | expire choices f => exact staged.fewer (fewer_expireFetches f choices)
  | importNext | insert => exact staged.fewer (.of_eq rfl rfl rfl rfl)
  | wait => exact staged
  | handle _ handled => exact staged.handle handled
  | @done i f hash =>
    have before : ({ f with imported := f.imported.eraseIdx i } :
        BlockFetcher Header Tx).Staged format := staged.fewer (.of_eq rfl rfl rfl rfl)
    exact before.fewer ((fewer_forgetHash _ hash).trans (fewer_forgetBlock _ hash))

theorem Ready.headersPresent {s : Looping Header Tx} (ready : Ready format s) :
    HeadersPresent format s where
  fetched := ready.staged.fetched
  completing := ready.staged.completing
  bodies waiting choices peer transactions uncles := by
    obtain ⟨after,afterEq,-,enqueued⟩ :=
      ready.staged.filterBodies choices peer transactions uncles
    refine ⟨after,afterEq,?_⟩
    intro op member
    rcases enqueued op member with earlier | completes
    · rw [ready.drained waiting] at earlier
      cases earlier
    · exact completes

theorem start_ready : Ready format (Looping.start : Looping Header Tx) where
  staged := by
    constructor <;> intro hash _ found <;> cases found
  drained _ := rfl

/-- In every run of the fetcher, fetched and completing announcements have a
header of their hash and number, and the body filter handles all bodies and
enqueues only announced blocks with a body of their header. -/
theorem headersPresent_always (actions : List (Looping.Action Header Tx)) :
    Always (Looping.step format) (HeadersPresent format) Looping.start actions :=
  always_of_kept (fun _ _ _ => step_ready) (fun _ => Ready.headersPresent) start_ready

end BlockFetcher

end PioplatRelay
