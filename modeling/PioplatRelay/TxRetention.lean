import PioplatRelay.TxPool

/-!
# How long the pool keeps a transaction

The period of the pool is meant to run from the acceptance of a transaction.
The pool stores the bare period as expiry time and compares it with the clock,
so that it runs from the zero of the clock.  The two agree on a run exactly
when no call tells them apart.
-/

namespace PioplatRelay.TxPool

open List ObjectCodec

variable {Tx : Type*}

structure Call (Tx : Type*) where
  now : AbsTime
  txs : List Tx

variable (hash : Tx → Hash)

def after (pool : TxPool Tx) (calls : List (Call Tx)) : TxPool Tx :=
  calls.foldl (fun pool call => (pool.addRemotes hash call.now call.txs).2) pool

def Accepts (pool : TxPool Tx) (call : Call Tx) (tx : Tx) : Prop :=
  (tx, none) ∈ call.txs.zip (pool.addRemotes hash call.now call.txs).1.res

instance [DecidableEq Tx] (pool : TxPool Tx) (call : Call Tx) (tx : Tx) :
    Decidable (Accepts hash pool call tx) :=
  inferInstanceAs (Decidable (_ ∈ _))

/-- Every accepted transaction is in the pool until its period from acceptance
has passed, and is gone after the first call later than that. -/
def Retains (expirePeriod : AbsTime) (calls : List (Call Tx)) : Prop :=
  ∀ before call since rest tx, calls = before ++ call :: (since ++ rest) →
    Accepts hash (after hash (newTxPool expirePeriod) before) call tx →
    let pool := after hash (newTxPool expirePeriod) (before ++ call :: since)
    ((∀ moment ∈ call :: since, moment.now ≤ call.now + expirePeriod) →
      pool.has (hash tx) = true ∧ pool.get (hash tx) = some tx) ∧
    ∀ quiet expiring, since = quiet ++ [expiring] →
      (∀ moment ∈ quiet, moment.now ≤ call.now + expirePeriod) →
      call.now + expirePeriod < expiring.now →
      pool.has (hash tx) = false ∧ pool.get (hash tx) = none

/-- From each acceptance on, a period that runs from the acceptance and one
that runs from the zero of the clock have passed at the same calls. -/
def ClocksAgree (expirePeriod : AbsTime) (calls : List (Call Tx)) : Prop :=
  ∀ before call rest tx, calls = before ++ call :: rest →
    Accepts hash (after hash (newTxPool expirePeriod) before) call tx →
    (∀ moment ∈ call :: rest, moment.now ≤ call.now + expirePeriod →
      moment.now ≤ expirePeriod) ∧
    ∀ moment ∈ rest, call.now + expirePeriod < moment.now → expirePeriod < moment.now

variable {hash}

variable {pool : TxPool Tx} {calls rest : List (Call Tx)} {tx : Tx} {call moment : Call Tx}
  {expirePeriod : AbsTime}

theorem addRemotes_consistent (consistent : pool.Consistent hash) (now : AbsTime) (txs : List Tx) :
    (pool.addRemotes hash now txs).2.Consistent hash ∧
      (pool.addRemotes hash now txs).2.expirePeriod = pool.expirePeriod :=
  ⟨sweep_consistent (addTxs_spec consistent txs).1 now,(addTxs_spec consistent txs).2.1⟩

theorem after_consistent (consistent : pool.Consistent hash) (calls : List (Call Tx)) :
    (after hash pool calls).Consistent hash ∧
      (after hash pool calls).expirePeriod = pool.expirePeriod := by
  induction calls generalizing pool with
  | nil => exact ⟨consistent,rfl⟩
  | cons call calls ih =>
    obtain ⟨next,period⟩ := addRemotes_consistent consistent call.now call.txs
    exact ⟨(ih next).1,(ih next).2.trans period⟩

theorem after_append (pool : TxPool Tx) (first second : List (Call Tx)) :
    after hash pool (first ++ second) = after hash (after hash pool first) second := by
  simp [after]

theorem get_after_of_lt (consistent : pool.Consistent hash) {last : Call Tx}
    (late : pool.expirePeriod < last.now) (key : Hash) :
    (after hash pool (calls ++ [last])).get key = none := by
  obtain ⟨before,period⟩ := after_consistent consistent calls
  obtain ⟨added,addedPeriod,-⟩ := addTxs_spec before last.txs
  rw [after_append]
  exact lookup_sweep_of_lt added (by rw [addedPeriod,period]; exact late) key

theorem get_after_of_le (consistent : pool.Consistent hash)
    (early : ∀ call ∈ calls, call.now ≤ pool.expirePeriod) {key : Hash}
    (found : pool.get key = some tx) : (after hash pool calls).get key = some tx := by
  induction calls generalizing pool with
  | nil => exact found
  | cons call calls ih =>
    obtain ⟨next,period⟩ := addRemotes_consistent consistent call.now call.txs
    obtain ⟨added,addedPeriod,kept,-⟩ := addTxs_spec consistent call.txs
    apply ih next
    · intro later member
      rw [period]
      exact early later (mem_cons_of_mem _ member)
    · have now : call.now ≤ (addTxs hash call.txs pool).2.2.expirePeriod := by
        rw [addedPeriod]
        exact early call mem_cons_self
      exact (lookup_sweep_of_le added now key).trans (kept key tx found)

/-- An accepted transaction is in the pool as long as the calls from its
acceptance on are within the period on the clock. -/
theorem get_after_accepts (consistent : pool.Consistent hash) {since : List (Call Tx)}
    (accepts : Accepts hash pool call tx)
    (early : ∀ moment ∈ call :: since, moment.now ≤ pool.expirePeriod) :
    (after hash pool (call :: since)).get (hash tx) = some tx := by
  obtain ⟨next,period⟩ := addRemotes_consistent consistent call.now call.txs
  obtain ⟨added,addedPeriod,-,found⟩ := addTxs_spec consistent call.txs
  apply get_after_of_le next
  · intro moment member
    rw [period]
    exact early moment (mem_cons_of_mem _ member)
  · have now : call.now ≤ (addTxs hash call.txs pool).2.2.expirePeriod := by
      rw [addedPeriod]
      exact early call mem_cons_self
    exact (lookup_sweep_of_le added now (hash tx)).trans (found tx accepts)

theorem has_eq_isSome_get (pool : TxPool Tx) (key : Hash) :
    pool.has key = (pool.get key).isSome := rfl

theorem after_new_consistent (hash : Tx → Hash) (expirePeriod : AbsTime) (calls : List (Call Tx)) :
    (after hash (newTxPool expirePeriod) calls).Consistent hash ∧
      (after hash (newTxPool expirePeriod) calls).expirePeriod = expirePeriod :=
  after_consistent (newTxPool_consistent expirePeriod) calls

theorem exists_since_of_mem (member : moment ∈ call :: rest) :
    ∃ since tail earlier, rest = since ++ tail ∧ call :: since = earlier ++ [moment] := by
  obtain ⟨earlier,tail,split⟩ := append_of_mem member
  cases earlier with
  | nil =>
    obtain ⟨rfl,rfl⟩ := cons.inj split
    exact ⟨[],rest,[],rfl,rfl⟩
  | cons first earlier =>
    obtain ⟨rfl,rfl⟩ := cons.inj split
    exact ⟨earlier ++ [moment],tail,call :: earlier,by simp,rfl⟩

theorem now_le_of_ordered (earlier : List (Call Tx)) (last : Call Tx) (tail : List (Call Tx))
    (ordered : (earlier ++ last :: tail).Pairwise fun earlier later => earlier.now ≤ later.now) :
    ∀ moment ∈ earlier ++ [last], moment.now ≤ last.now := by
  intro moment member
  rcases mem_append.mp member with before | same
  · exact (pairwise_append.mp ordered).2.2 moment before last mem_cons_self
  · rw [mem_singleton.mp same]

theorem Retains.within_period {before : List (Call Tx)}
    (ordered : (call :: rest).Pairwise fun earlier later => earlier.now ≤ later.now)
    (retains : Retains hash expirePeriod (before ++ call :: rest))
    (accepts : Accepts hash (after hash (newTxPool expirePeriod) before) call tx)
    (member : moment ∈ call :: rest) (within : moment.now ≤ call.now + expirePeriod) :
    moment.now ≤ expirePeriod := by
  by_contra late
  obtain ⟨since,tail,earlier,rfl,sinceEq⟩ := exists_since_of_mem member
  have bounded : ∀ other ∈ call :: since, other.now ≤ moment.now := by
    rw [sinceEq]
    apply now_le_of_ordered earlier moment tail
    rw [← cons_append,sinceEq] at ordered
    simpa using ordered
  have kept := (retains before call since tail tx rfl accepts).1 fun other otherMember =>
    (bounded other otherMember).trans within
  have emptied : (after hash (newTxPool expirePeriod) (before ++ call :: since)).get
      (hash tx) = none := by
    rw [sinceEq,← append_assoc]
    exact get_after_of_lt (newTxPool_consistent expirePeriod) (not_le.mp late) _
  rw [emptied] at kept
  exact absurd kept.2 (by simp)

theorem Retains.past_period {before : List (Call Tx)}
    (ordered : (call :: rest).Pairwise fun earlier later => earlier.now ≤ later.now)
    (retains : Retains hash expirePeriod (before ++ call :: rest))
    (accepts : Accepts hash (after hash (newTxPool expirePeriod) before) call tx)
    (member : moment ∈ rest) (passed : call.now + expirePeriod < moment.now) :
    expirePeriod < moment.now := by
  by_contra early
  obtain ⟨consistent,period⟩ := after_new_consistent hash expirePeriod before
  -- The first call after the period is the one at which the law speaks.
  have later : (rest.find? fun other => decide (call.now + expirePeriod < other.now)).isSome :=
    find?_isSome.mpr ⟨moment,member,decide_eq_true passed⟩
  obtain ⟨expiring,found⟩ := Option.isSome_iff_exists.mp later
  obtain ⟨expired,quiet,tail,rfl,quietNot⟩ := find?_eq_some_iff_append.mp found
  have expiringLe : expiring.now ≤ moment.now := by
    rcases mem_append.mp member with inQuiet | inTail
    · exact absurd passed (by simpa using quietNot moment inQuiet)
    · rcases mem_cons.mp inTail with rfl | later
      · exact le_refl _
      · have restOrdered := (pairwise_append.mp (pairwise_cons.mp ordered).2).2.1
        exact (pairwise_cons.mp restOrdered).1 moment later
  have bounded : ∀ other ∈ call :: (quiet ++ [expiring]), other.now ≤ expirePeriod := by
    intro other otherMember
    have le := now_le_of_ordered (call :: quiet) expiring tail ordered other otherMember
    exact le.trans (expiringLe.trans (not_lt.mp early))
  have kept : (after hash (newTxPool expirePeriod)
      (before ++ call :: (quiet ++ [expiring]))).get (hash tx) = some tx := by
    rw [after_append]
    exact get_after_accepts consistent accepts (by rwa [period])
  have emptied := (retains before call (quiet ++ [expiring]) tail tx (by simp) accepts).2 quiet
    expiring rfl (fun other otherMember => by simpa using quietNot other otherMember)
    (of_decide_eq_true expired)
  rw [kept] at emptied
  exact absurd emptied.2 (by simp)

theorem ClocksAgree.retains (agree : ClocksAgree hash expirePeriod calls) :
    Retains hash expirePeriod calls := by
  intro before call since rest tx callsEq accepts
  obtain ⟨consistent,period⟩ := after_new_consistent hash expirePeriod before
  obtain ⟨within,passed⟩ := agree before call (since ++ rest) tx callsEq accepts
  refine ⟨?_,?_⟩
  · intro early
    have kept : (after hash (newTxPool expirePeriod) (before ++ call :: since)).get
        (hash tx) = some tx := by
      rw [after_append]
      apply get_after_accepts consistent accepts
      intro moment member
      rw [period]
      exact within moment (mem_append_left rest member) (early moment member)
    exact ⟨by rw [has_eq_isSome_get,kept,Option.isSome_some],kept⟩
  · rintro quiet expiring rfl - late
    have emptied : (after hash (newTxPool expirePeriod)
        (before ++ call :: (quiet ++ [expiring]))).get (hash tx) = none := by
      rw [← cons_append,← append_assoc]
      exact get_after_of_lt (newTxPool_consistent expirePeriod)
        (passed expiring (by simp) late) _
    exact ⟨by rw [has_eq_isSome_get,emptied,Option.isSome_none],emptied⟩

/-- In a run at non-decreasing times the pool keeps every transaction for its
period from acceptance, and no call longer, exactly when counting the period
from the zero of the clock makes no difference to any call. -/
theorem retains_iff_clocksAgree (hash : Tx → Hash) (expirePeriod : AbsTime) (calls : List (Call Tx))
    (ordered : calls.Pairwise fun earlier later => earlier.now ≤ later.now) :
    Retains hash expirePeriod calls ↔ ClocksAgree hash expirePeriod calls := by
  constructor
  · rintro retains before call rest tx rfl accepts
    have fromCall := (pairwise_append.mp ordered).2.1
    exact ⟨fun moment member within => retains.within_period fromCall accepts member within,
      fun moment member passed => retains.past_period fromCall accepts member passed⟩
  · exact ClocksAgree.retains

/-- With the clock at zero when the transaction comes in, the pool keeps it for
sixty seconds. -/
theorem retains_from_clock_zero : Retains byte.hash 60 [⟨0, [7]⟩, ⟨60, []⟩, ⟨61, []⟩] := by
  refine (retains_iff_clocksAgree byte.hash 60 _ (by simp)).mpr ?_
  intro before call rest tx callsEq accepts
  have member : call ∈ [(⟨0,[7]⟩ : Call UInt8),⟨60,[]⟩,⟨61,[]⟩] := by
    rw [callsEq]
    simp
  have atZero : call.now = 0 := by
    simp only [mem_cons,not_mem_nil,or_false] at member
    rcases member with rfl | rfl | rfl
    · rfl
    · simp [Accepts] at accepts
    · simp [Accepts] at accepts
  rw [atZero,zero_add]
  exact ⟨fun _ _ within => within,fun _ _ passed => passed⟩

/-- A transaction accepted a hundred seconds after the zero of the clock is
gone when the call returns. -/
theorem not_retained_at_hundred : Accepts byte.hash (newTxPool 60) ⟨100, [7]⟩ 7 ∧
      (after byte.hash (newTxPool 60) [⟨100, [7]⟩]).has
        (byte.hash 7) = false ∧ ¬ Retains byte.hash 60 [⟨100, [7]⟩] := by
  have accepts : Accepts byte.hash (newTxPool 60) ⟨100,[7]⟩ 7 := by decide
  have gone : (after byte.hash (newTxPool 60) [⟨100,[7]⟩]).has
      (byte.hash 7) = false := by decide
  refine ⟨accepts,gone,?_⟩
  intro retains
  have kept := (retains [] ⟨100,[7]⟩ [] [] 7 rfl accepts).1 (by simp)
  exact absurd gone (by simpa using kept.1)

end PioplatRelay.TxPool
