import PioplatRelay.BinaryHeap
import PioplatRelay.RelayFrames
import PioplatRelay.SetIndexes

/-!
# The transaction pool

`TxPool` keeps transactions in a map by hash and in a heap by expiry time.
Every `AddRemotes` call adds the transactions that are new and then sweeps the
heap: whatever expired before the present goes from the heap and from the map.
-/

namespace PioplatRelay

open List BinaryHeap Finmap

abbrev AbsTime := Int

structure ExpItem (Tx : Type*) where
  item : Tx
  exp : AbsTime
  deriving DecidableEq

namespace ExpHeap

variable {Tx : Type*}

def add (heap : List (ExpItem Tx)) (item : Tx) (exp : AbsTime) : List (ExpItem Tx) :=
  push ExpItem.exp heap ⟨item,exp⟩

/-- The loop of `expHeap.expire`: what it pops, in order, and what it leaves. -/
def expireLoop (now : AbsTime) : Nat → List (ExpItem Tx) → List Tx × List (ExpItem Tx)
  | 0, heap => ([], heap)
  | rounds + 1, heap =>
    match heap[0]? with
    | none => ([], heap)
    | some next =>
      if next.exp < now then
        match pop ExpItem.exp heap with
        | none => ([], heap)
        | some (popped, rest) =>
          let remaining := expireLoop now rounds rest
          (popped.item :: remaining.1, remaining.2)
      else ([], heap)

def expire (heap : List (ExpItem Tx)) (now : AbsTime) : List Tx × List (ExpItem Tx) :=
  expireLoop now heap.length heap

/-- Sweeping pops exactly the items that expired before `now`. -/
theorem expireLoop_spec {now : AbsTime} {rounds : Nat} {heap : List (ExpItem Tx)}
    (enough : heap.length ≤ rounds) (isHeap : IsHeap ExpItem.exp heap heap.length) :
    (expireLoop now rounds heap).1.Perm
        ((heap.filter fun entry => entry.exp < now).map ExpItem.item) ∧
      (expireLoop now rounds heap).2.Perm (heap.filter fun entry => ¬ entry.exp < now) ∧
      IsHeap ExpItem.exp (expireLoop now rounds heap).2 (expireLoop now rounds heap).2.length := by
  induction rounds generalizing heap with
  | zero =>
    obtain rfl : heap = [] := eq_nil_of_length_eq_zero (by omega)
    exact ⟨.refl _,.refl _,isHeap⟩
  | succ rounds ih =>
    cases heap with
    | nil => exact ⟨.refl _,.refl _,isHeap⟩
    | cons root others =>
      obtain ⟨rest,popEq,restPerm,restHeap,least⟩ := pop_spec isHeap
      by_cases expired : root.exp < now
      · have restLength := restPerm.length_eq
        obtain ⟨poppedPerm,leftPerm,leftHeap⟩ :=
          ih (by simp only [length_cons] at enough; omega) restHeap
        simp only [expireLoop,getElem?_cons_zero,if_pos expired,popEq]
        refine ⟨?_,?_,leftHeap⟩
        · simp only [filter_cons,expired,decide_true,if_true,map_cons]
          exact (poppedPerm.trans ((restPerm.filter _).map _)).cons _
        · simp only [filter_cons,expired,not_true,decide_false,Bool.false_eq_true,if_false]
          exact leftPerm.trans (restPerm.filter _)
      · have none (entry : ExpItem Tx) (member : entry ∈ root :: others) :
            ¬ entry.exp < now := by
          rcases mem_cons.mp member with rfl | member
          · exact expired
          · have rootLe := least entry (restPerm.mem_iff.mpr member)
            exact not_lt.mpr ((not_lt.mp expired).trans rootLe)
        simp only [expireLoop,getElem?_cons_zero,if_neg expired]
        refine ⟨?_,?_,isHeap⟩
        · rw [filter_eq_nil_iff.mpr (by simpa using none)]
          exact .refl _
        · rw [filter_eq_self.mpr (by simpa using none)]

theorem expire_spec (now : AbsTime) {heap : List (ExpItem Tx)}
    (isHeap : IsHeap ExpItem.exp heap heap.length) :
    (expire heap now).1.Perm ((heap.filter fun entry => entry.exp < now).map ExpItem.item) ∧
      (expire heap now).2.Perm (heap.filter fun entry => ¬ entry.exp < now) ∧
      IsHeap ExpItem.exp (expire heap now).2 (expire heap now).2.length :=
  expireLoop_spec (Nat.le_refl _) isHeap

end ExpHeap

inductive TxPoolError
  | alreadyKnown
  deriving DecidableEq

/-- `TxPool`: the heap, the map and the configured period. -/
structure TxPool (Tx : Type*) where
  txs : List (ExpItem Tx)
  txsByHash : Finmap fun _ : Hash => Tx
  expirePeriod : AbsTime

/-- What an `AddRemotes` call tells others: the transactions it broadcasts to
the relay's clients, its result, and the transactions it feeds to subscribers. -/
structure AddRemotesOutcome (Tx : Type*) where
  broadcast : List Tx
  res : List (Option TxPoolError)
  addedTxs : List Tx

namespace TxPool

variable {Tx : Type*}

def newTxPool (expirePeriod : AbsTime) : TxPool Tx := ⟨[], ∅, expirePeriod⟩

def has (pool : TxPool Tx) (hash : Hash) : Bool := (pool.txsByHash.lookup hash).isSome

def get (pool : TxPool Tx) (hash : Hash) : Option Tx := pool.txsByHash.lookup hash

variable (hash : Tx → Hash)

def insert (pool : TxPool Tx) (tx : Tx) : TxPool Tx :=
  { pool with
    txsByHash := pool.txsByHash.insert (hash tx) tx
    -- The configured period is stored as a time of expiry, without the clock.
    txs := ExpHeap.add pool.txs tx pool.expirePeriod }

def sweep (pool : TxPool Tx) (now : AbsTime) : TxPool Tx :=
  let swept := ExpHeap.expire pool.txs now
  { pool with
    txs := swept.2
    txsByHash := swept.1.foldl (fun txsByHash tx => txsByHash.erase (hash tx)) pool.txsByHash }

/-- The loop over the transactions of a call: results, added transactions and
the pool. -/
def addTxs : List Tx → TxPool Tx → List (Option TxPoolError) × List Tx × TxPool Tx
  | [], pool => ([], [], pool)
  | tx :: txs, pool =>
    if pool.has (hash tx) then
      let rest := addTxs txs pool
      (some .alreadyKnown :: rest.1, rest.2)
    else
      let rest := addTxs txs (pool.insert hash tx)
      (none :: rest.1, tx :: rest.2.1, rest.2.2)

def addRemotes (pool : TxPool Tx) (now : AbsTime) (txs : List Tx) :
    AddRemotesOutcome Tx × TxPool Tx :=
  let added := addTxs hash txs pool
  (⟨txs,added.1,added.2.1⟩, added.2.2.sweep hash now)

structure Consistent (pool : TxPool Tx) : Prop where
  heap : IsHeap ExpItem.exp pool.txs pool.txs.length
  stamped : ∀ entry ∈ pool.txs, entry.exp = pool.expirePeriod
  tracked : ∀ key tx, pool.txsByHash.lookup key = some tx ↔
    ∃ entry ∈ pool.txs, entry.item = tx ∧ hash tx = key

variable {hash}

theorem newTxPool_consistent (expirePeriod : AbsTime) :
    (newTxPool expirePeriod : TxPool Tx).Consistent hash where
  heap := by
    intro c _ cLt
    simp [newTxPool] at cLt
  stamped := by simp [newTxPool]
  tracked := by simp [newTxPool]

variable {pool : TxPool Tx}

section

variable (consistent : pool.Consistent hash)

include consistent

theorem insert_consistent {tx : Tx}
    (unknown : pool.has (hash tx) = false) : (pool.insert hash tx).Consistent hash := by
  have added : (pool.insert hash tx).txs.Perm (⟨tx,pool.expirePeriod⟩ :: pool.txs) :=
    push_perm _ _
  constructor
  · exact push_isHeap consistent.heap _
  · intro entry member
    rcases mem_cons.mp (added.mem_iff.mp member) with rfl | member
    · rfl
    · exact consistent.stamped entry member
  · intro key other
    have entries : (∃ entry ∈ (pool.insert hash tx).txs, entry.item = other ∧ hash other = key) ↔
        (tx = other ∧ hash other = key) ∨
          ∃ entry ∈ pool.txs, entry.item = other ∧ hash other = key := by
      simp [added.mem_iff]
    rw [entries,← consistent.tracked]
    simp only [has,Option.isSome_eq_false_iff,Option.isNone_iff_eq_none] at unknown
    by_cases same : key = hash tx
    · subst same
      simp only [insert,lookup_insert,Option.some.injEq,unknown,reduceCtorEq,or_false]
      constructor
      · rintro rfl
        exact ⟨rfl,rfl⟩
      · exact fun both => both.1
    · simp only [insert,lookup_insert_of_ne _ same]
      constructor
      · exact Or.inr
      · rintro (⟨rfl,keyEq⟩ | found)
        · exact absurd keyEq.symm same
        · exact found

/-- A sweep later than the stored expiry time empties the pool. -/
theorem lookup_sweep_of_lt {now : AbsTime} (late : pool.expirePeriod < now) (key : Hash) :
    (pool.sweep hash now).txsByHash.lookup key = none := by
  rw [sweep,lookup_foldl_erase_ite]
  split
  · rfl
  · rename_i unswept
    rw [Option.eq_none_iff_forall_ne_some]
    intro tx found
    obtain ⟨entry,member,rfl,keyEq⟩ := (consistent.tracked key tx).mp found
    apply unswept
    refine ⟨entry.item,(ExpHeap.expire_spec now consistent.heap).1.mem_iff.mpr ?_,keyEq⟩
    apply mem_map_of_mem
    rw [mem_filter,consistent.stamped entry member]
    exact ⟨member,by simpa using late⟩

theorem lookup_sweep_of_le {now : AbsTime} (early : now ≤ pool.expirePeriod) (key : Hash) :
    (pool.sweep hash now).txsByHash.lookup key = pool.txsByHash.lookup key := by
  rw [sweep,lookup_foldl_erase_ite,if_neg]
  rintro ⟨tx,swept,-⟩
  have member := (ExpHeap.expire_spec now consistent.heap).1.mem_iff.mp swept
  obtain ⟨entry,filtered,-⟩ := mem_map.mp member
  rw [mem_filter,decide_eq_true_eq] at filtered
  rw [consistent.stamped entry filtered.1] at filtered
  exact absurd filtered.2 (not_lt.mpr early)

theorem sweep_consistent (now : AbsTime) : (pool.sweep hash now).Consistent hash := by
  obtain ⟨-,leftPerm,leftHeap⟩ := ExpHeap.expire_spec now consistent.heap
  have left (entry : ExpItem Tx) : entry ∈ (pool.sweep hash now).txs ↔
      entry ∈ pool.txs ∧ now ≤ pool.expirePeriod := by
    rw [sweep,leftPerm.mem_iff,mem_filter,decide_eq_true_eq,not_lt]
    apply and_congr_right
    intro member
    rw [consistent.stamped entry member]
  refine ⟨leftHeap,fun entry member => consistent.stamped entry ((left entry).mp member).1,?_⟩
  intro key tx
  simp only [left]
  rcases Int.lt_or_le pool.expirePeriod now with late | early
  · rw [lookup_sweep_of_lt consistent late]
    simp only [reduceCtorEq,false_iff]
    rintro ⟨entry,⟨-,early⟩,-⟩
    exact absurd late (not_lt.mpr early)
  · rw [lookup_sweep_of_le consistent early,consistent.tracked]
    simp [early]

/-- The loop over a call's transactions keeps what the pool has and finds its
own acceptances again. -/
theorem addTxs_spec (txs : List Tx) : (addTxs hash txs pool).2.2.Consistent hash ∧
      (addTxs hash txs pool).2.2.expirePeriod = pool.expirePeriod ∧
      (∀ key tx, pool.txsByHash.lookup key = some tx →
        (addTxs hash txs pool).2.2.txsByHash.lookup key = some tx) ∧
      ∀ tx, (tx, none) ∈ txs.zip (addTxs hash txs pool).1 →
        (addTxs hash txs pool).2.2.txsByHash.lookup (hash tx) = some tx := by
  induction txs generalizing pool with
  | nil => exact ⟨consistent,rfl,fun _ _ found => found,by simp⟩
  | cons first txs ih =>
    unfold addTxs
    by_cases known : pool.has (hash first) = true
    · rw [if_pos known]
      obtain ⟨after,period,kept,accepted⟩ := ih consistent
      refine ⟨after,period,kept,?_⟩
      intro tx member
      simp only [zip_cons_cons,mem_cons,Prod.mk.injEq,reduceCtorEq,and_false,false_or] at member
      exact accepted tx member
    · rw [if_neg known]
      have unknown : pool.has (hash first) = false := by simpa using known
      obtain ⟨after,period,kept,accepted⟩ := ih (insert_consistent consistent unknown)
      refine ⟨after,period,?_,?_⟩
      · intro key tx found
        apply kept
        have differs : key ≠ hash first := by
          rintro rfl
          simp [has,found] at unknown
        simpa [insert,lookup_insert_of_ne _ differs] using found
      · intro tx member
        simp only [zip_cons_cons,mem_cons,Prod.mk.injEq,and_true] at member
        rcases member with rfl | member
        · apply kept
          simp [insert,lookup_insert]
        · exact accepted tx member

end

end TxPool

end PioplatRelay
