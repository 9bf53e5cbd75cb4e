import PioplatRelay.BlockFetcherRuns
import PioplatRelay.CounterMaps

/-!
# One import for each block

The fetcher remembers in `queued` which blocks are queued or being imported, and
in `queues` how many of them each peer has delivered.  A block leaves `queued` only
when its import sends `done`, so none is queued or imported twice at a time.
-/

namespace PioplatRelay

open Function List Finmap BlockFetcher BinaryHeap

variable {Header Tx : Type}

namespace BlockFetcher

def queuedBy (f : BlockFetcher Header Tx) (peer : String) : Nat :=
  total (fun op : BlockInject Header Tx => if op.origin = peer then 1 else 0) f.queued

variable (format : BlockFormat Header Tx)

def queueHashes (f : BlockFetcher Header Tx) : List Hash :=
  f.queue.map fun op => format.blockHash op.block

def runningHashes (f : BlockFetcher Header Tx) : List Hash :=
  f.importing.map fun op => format.blockHash op.block

def inFlight (f : BlockFetcher Header Tx) : List Hash := f.runningHashes format ++ f.imported

/-- Every queued block is in the queue or has one import in flight, and the
counters are the numbers of queued blocks. -/
structure ImportsOnce (s : Looping Header Tx) : Prop where
  queued_iff : ∀ hash, hash ∈ s.fetcher.queued ↔
    hash ∈ s.fetcher.queueHashes format ∨ hash ∈ s.fetcher.inFlight format
  notBoth : ∀ hash ∈ s.fetcher.queueHashes format, hash ∉ s.fetcher.inFlight format
  queuedOnce : (s.fetcher.queueHashes format).Nodup
  inFlightOnce : (s.fetcher.inFlight format).Nodup
  runningOnce : (s.fetcher.runningHashes format).Nodup
  counted : ∀ peer, (s.fetcher.queues.lookup peer).getD 0 = s.fetcher.queuedBy peer
  limited : ∀ peer, (s.fetcher.queuedBy peer : Int) ≤ blockLimit
  noZero : ∀ peer, s.fetcher.queues.lookup peer ≠ some 0

def hashes (f : BlockFetcher Header Tx) : List Hash := f.queueHashes format ++ f.inFlight format

structure Disciplined (f : BlockFetcher Header Tx) : Prop where
  nodup : (f.hashes format).Nodup
  mem_iff : ∀ hash, hash ∈ f.queued ↔ hash ∈ f.hashes format
  counts : Counts f.queues f.queuedBy
  limited : ∀ peer, (f.queuedBy peer : Int) ≤ blockLimit

variable {format} {f g : BlockFetcher Header Tx} {choices : Choices}

theorem Disciplined.importsOnce {s : Looping Header Tx}
    (disciplined : s.fetcher.Disciplined format) : ImportsOnce format s := by
  have parts := nodup_append.mp disciplined.nodup
  constructor
  · intro hash
    rw [disciplined.mem_iff,hashes,mem_append]
  · intro hash inQueue flying
    exact parts.2.2 hash inQueue hash flying rfl
  · exact parts.1
  · exact parts.2.1
  · exact (nodup_append.mp parts.2.1).1
  · exact disciplined.counts.getD_eq
  · exact disciplined.limited
  · exact disciplined.counts.ne_zero

theorem newBlockFetcher_disciplined :
    (newBlockFetcher : BlockFetcher Header Tx).Disciplined format where
  nodup := nodup_nil
  mem_iff hash := by
    constructor
    · intro member
      exact absurd member notMem_empty
    · intro member
      cases member
  counts := Counts.empty
  limited _ := (by decide : (0 : Int) ≤ blockLimit)

section

variable (disciplined : f.Disciplined format)

include disciplined

/-- A block may pass from one place to another. -/
theorem Disciplined.of_perm
    (perm : (g.hashes format).Perm (f.hashes format)) (queued : g.queued = f.queued)
    (queues : g.queues = f.queues) : g.Disciplined format := by
  have sameCounts : g.queuedBy = f.queuedBy := by
    funext peer
    rw [queuedBy,queuedBy,queued]
  constructor
  · exact perm.nodup_iff.mpr disciplined.nodup
  · intro hash
    rw [queued,perm.mem_iff]
    exact disciplined.mem_iff hash
  · rw [queues,sameCounts]
    exact disciplined.counts
  · rw [sameCounts]
    exact disciplined.limited

theorem Disciplined.same (same : SameImports f g) : g.Disciplined format := by
  apply disciplined.of_perm _ same.queued same.queues
  rw [hashes,hashes,queueHashes,queueHashes,inFlight,inFlight,runningHashes,runningHashes,
    same.queue,same.importing,same.imported]

theorem Disciplined.enqueue (peer : String)
    (block : ChainBlock Header Tx) : (f.enqueue format peer block).Disciplined format := by
  unfold BlockFetcher.enqueue
  dsimp only
  split
  · exact disciplined.same (sameImports_forgetHash f _)
  rename_i withinLimit
  split
  · exact disciplined
  rename_i absent
  rw [disciplined.counts.getD_eq] at withinLimit
  set next := { f with
    queues := f.queues.insert peer ((f.queues.lookup peer).getD 0 + 1)
    queued := f.queued.insert (format.blockHash block) ⟨peer,block⟩
    queue := push (queueKey format) f.queue ⟨peer,block⟩ } with nextEq
  have perm : (next.hashes format).Perm (format.blockHash block :: f.hashes format) := by
    have pushed : (push (queueKey format) f.queue ⟨peer,block⟩).Perm
        (⟨peer,block⟩ :: f.queue) := push_perm f.queue _
    rw [hashes,hashes,← cons_append]
    exact (pushed.map fun op => format.blockHash op.block).append_right _
  have oneMore : next.queuedBy = Function.update f.queuedBy peer (f.queuedBy peer + 1) := by
    funext other
    rw [nextEq,queuedBy,total_insert,erase_of_lookup_eq_none (lookup_eq_none.mpr absent),← queuedBy]
    by_cases own : other = peer
    · rw [own,update_self,if_pos rfl]
    · rw [update_of_ne own,if_neg (Ne.symm own),Nat.add_zero]
  constructor
  · rw [perm.nodup_iff,nodup_cons,← disciplined.mem_iff]
    exact ⟨absent,disciplined.nodup⟩
  · intro hash
    rw [perm.mem_iff,mem_cons,← disciplined.mem_iff]
    exact mem_insert
  · rw [oneMore]
    exact disciplined.counts.increment peer
  · intro other
    rw [oneMore]
    by_cases own : other = peer
    · rw [own,update_self]
      omega
    · rw [update_of_ne own]
      exact disciplined.limited other

theorem Disciplined.enqueues (enqueues : Enqueues format f g) : g.Disciplined format := by
  induction enqueues with
  | none => exact disciplined
  | same _ sameImports ih => exact ih.same sameImports
  | enqueue _ peer block ih => exact ih.enqueue peer block

theorem Disciplined.importBlocks
    {op : BlockInject Header Tx} {queue : List (BlockInject Header Tx)}
    (sameItems : (op :: queue).Perm f.queue) :
    ({ f with queue }.importBlocks op).Disciplined format := by
  refine disciplined.of_perm ?_ rfl rfl
  have queueEq := sameItems.map fun op => format.blockHash op.block
  have running : (({ f with queue }.importBlocks op).runningHashes format) =
      f.runningHashes format ++ [format.blockHash op.block] := map_append
  calc
    _ = queue.map (fun op => format.blockHash op.block) ++
          (f.runningHashes format ++ [format.blockHash op.block] ++ f.imported) := by
      rw [hashes,inFlight,running]
      rfl
    _ = queue.map (fun op => format.blockHash op.block) ++ f.runningHashes format ++
          format.blockHash op.block :: f.imported := by
      simp
    Perm _ (format.blockHash op.block :: (queue.map (fun op => format.blockHash op.block) ++
          f.runningHashes format ++ f.imported)) := perm_middle
    _ = (format.blockHash op.block :: queue.map fun op => format.blockHash op.block) ++
          f.inFlight format := by
      rw [inFlight,append_assoc,cons_append]
    Perm _ (f.hashes format) := queueEq.append_right _

theorem Disciplined.insert {i : Nat}
    {op : BlockInject Header Tx} (running : f.importing[i]? = some op) :
    ({ f with
      importing := f.importing.eraseIdx i
      imported := f.imported ++ [format.blockHash op.block] } :
        BlockFetcher Header Tx).Disciplined format := by
  obtain ⟨inside,opEq⟩ := List.getElem?_eq_some_iff.mp running
  refine disciplined.of_perm ?_ rfl rfl
  apply Perm.append_left
  have others := (getElem_cons_eraseIdx_perm inside).map fun op => format.blockHash op.block
  rw [opEq] at others
  calc
    _ = (f.importing.eraseIdx i).map (fun op => format.blockHash op.block) ++
          (f.imported ++ [format.blockHash op.block]) := rfl
    Perm _ ([format.blockHash op.block] ++
          ((f.importing.eraseIdx i).map (fun op => format.blockHash op.block) ++ f.imported)) := by
      rw [← append_assoc]
      exact perm_append_comm
    Perm _ (f.inFlight format) := others.append_right _

theorem Disciplined.done {i : Nat} {hash : Hash}
    (sent : f.imported[i]? = some hash) :
    (({ f with imported := f.imported.eraseIdx i }.forgetHash hash).forgetBlock
      hash).Disciplined format := by
  obtain ⟨inside,hashEq⟩ := List.getElem?_eq_some_iff.mp sent
  have perm : (hash :: (f.queueHashes format ++ (f.runningHashes format ++
      f.imported.eraseIdx i))).Perm (f.hashes format) := by
    have others := getElem_cons_eraseIdx_perm inside
    rw [hashEq] at others
    rw [hashes,inFlight,← append_assoc,← append_assoc]
    exact perm_middle.symm.trans (others.append_left _)
  have unique := perm.nodup_iff.mpr disciplined.nodup
  rw [nodup_cons] at unique
  have isQueued : hash ∈ f.queued := by
    rw [disciplined.mem_iff,← perm.mem_iff]
    exact mem_cons_self
  obtain ⟨op,opEq⟩ := Option.isSome_iff_exists.mp (lookup_isSome.mpr isQueued)
  have counted : f.queuedBy op.origin ≥ 1 := by
    have weight := weight_le_total
      (fun other : BlockInject Header Tx => if other.origin = op.origin then 1 else 0) opEq
    rwa [if_pos rfl] at weight
  have oneLess : (fun peer => total (fun op : BlockInject Header Tx =>
      if op.origin = peer then 1 else 0) (f.queued.erase hash)) =
        Function.update f.queuedBy op.origin (f.queuedBy op.origin - 1) := by
    funext peer
    have split := total_erase
      (fun op : BlockInject Header Tx => if op.origin = peer then 1 else 0) f.queued hash
    rw [opEq,← queuedBy,Option.elim_some] at split
    by_cases own : peer = op.origin
    · subst own
      rw [if_pos rfl] at split
      rw [update_self]
      omega
    · rw [if_neg (Ne.symm own)] at split
      rw [update_of_ne own]
      omega
  have emptied : ((f.queues.lookup op.origin).getD 0 - 1 = 0) =
      ((f.queues.lookup op.origin).getD 0 - 1 ≤ 0) := by
    rw [disciplined.counts.getD_eq]
    apply propext
    omega
  unfold forgetBlock
  simp only [forgetHash,opEq]
  constructor
  · exact unique.2
  · intro other
    rw [mem_erase,disciplined.mem_iff,← perm.mem_iff,mem_cons]
    constructor
    · rintro ⟨different,same | member⟩
      · exact absurd same different
      · exact member
    · intro member
      refine ⟨?_,.inr member⟩
      rintro rfl
      exact unique.1 member
  · have released := disciplined.counts.decrement op.origin
    rw [← oneLess] at released
    simp only [emptied]
    exact released
  · intro peer
    have fewer := total_erase
      (fun op : BlockInject Header Tx => if op.origin = peer then 1 else 0) f.queued hash
    have before := disciplined.limited peer
    rw [queuedBy] at before ⊢
    dsimp only
    omega

end

theorem step_disciplined {s next : Looping Header Tx} {action : Looping.Action Header Tx}
    (disciplined : s.fetcher.Disciplined format)
    (stepped : Looping.step format action s = some next) : next.fetcher.Disciplined format := by
  cases Looping.stepped_of_step stepped with
  | expire choices f => exact Disciplined.same disciplined (sameImports_expireFetches f choices)
  | importNext sameItems => exact Disciplined.importBlocks disciplined sameItems
  | wait => exact disciplined
  | handle notDone handled =>
    exact Disciplined.enqueues disciplined (enqueues_of_handle notDone handled)
  | insert running => exact Disciplined.insert disciplined running
  | done sent => exact Disciplined.done disciplined sent

/-- In every run of the fetcher, whatever order blocks are delivered, queued,
imported and done in, a block is queued exactly when it is in the queue or has an
own import in flight, never both and never two; and the peers' counters are the
numbers of their queued blocks, within the limit and never zero. -/
theorem importsOnce_always (actions : List (Looping.Action Header Tx)) :
    Always (Looping.step format) (ImportsOnce format) Looping.start actions :=
  always_of_kept (fun _ _ _ => step_disciplined) (fun _ => Disciplined.importsOnce)
    newBlockFetcher_disciplined

end BlockFetcher

end PioplatRelay
