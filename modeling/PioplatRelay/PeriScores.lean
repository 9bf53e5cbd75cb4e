import PioplatRelay.PeriArrivals
import PioplatRelay.PeriEviction
import Mathlib.Algebra.Order.BigOperators.Group.Finset
import Mathlib.Tactic.FieldSimp
import Mathlib.Tactic.Linarith

/-!
# Scores of every run

Whatever order deliveries, rounds and changes of the slots come in, the two maps of
each kind have the same items, no peer's time is before the arrival, and no
transaction is both recorded and old.  Every delay is then between zero and the
penalty, and so is their average.
-/

namespace PioplatRelay

namespace Arrivals

variable {Item : Type} [DecidableEq Item] {records : Arrivals Item}

theorem delay_mem (aligned : records.Aligned) (maxDelay : Int) (id : String) (item : Item) :
    records.delay maxDelay id item ∈ Set.uIcc 0 maxDelay := by
  rw [delay,← timeOf,Set.mem_uIcc]
  cases found : records.timeOf item id with
  | none =>
    dsimp only
    omega
  | some time =>
    have later := aligned.late item id time found
    dsimp only
    omega

theorem score_mem (aligned : records.Aligned) (maxDelay : Int) (id : String) (birth : Int) :
    records.score (fun x => x) maxDelay id birth ∈ Set.uIcc (0 : ℚ) maxDelay := by
  rw [score]
  dsimp only
  split
  · exact Set.right_mem_uIcc
  · rename_i some_since
    have positive : (0 : ℚ) < (records.since birth).card := by
      exact_mod_cast Nat.pos_of_ne_zero some_since
    have bounds := fun item (_ : item ∈ records.since birth) =>
      delay_mem aligned maxDelay id item
    have lower := Finset.card_nsmul_le_sum (records.since birth) (records.delay maxDelay id)
      (min 0 maxDelay) fun item member => (bounds item member).1
    have upper := Finset.sum_le_card_nsmul (records.since birth) (records.delay maxDelay id)
      (max 0 maxDelay) fun item member => (bounds item member).2
    rw [nsmul_eq_mul] at lower upper
    constructor
    · rw [le_div_iff₀ positive,mul_comm]
      exact_mod_cast lower
    · rw [div_le_iff₀ positive,mul_comm]
      exact_mod_cast upper

end Arrivals

namespace Peri

open Arrivals

variable {Ratio : Type} (slots : Ratio → Int)

/-- `SetRatios`; a ratio of the highest number of peers is rounded to a number of
slots. -/
def setRatios (blockRatio txRatio : Ratio) (p : Peri) : Peri :=
  { p with blockPeersCount := slots blockRatio, txsPeerCount := slots txRatio }

/-- What can happen to Peri; peers come and go between rounds. -/
inductive Action (Ratio : Type)
  | deliver (call : DeliveryCall)
  | setRatios (blockRatio txRatio : Ratio)
  | round (choices : Choices)
  | connect (id : String) (peer : EthPeer)
  | disconnect (id : String)

def step : Action Ratio → Peri → Option Peri
  | .deliver call, p => takeCall call p
  | .setRatios blockRatio txRatio, p => some (p.setRatios slots blockRatio txRatio)
  | .round choices, p => p.disconnectByScore choices
  | .connect id peer, p => some { p with peers := p.peers.insert id peer }
  | .disconnect id, p => some { p with peers := p.peers.erase id }

def Choices.exact (choices : Choices) : Choices := { choices with float := fun x => x }

/-- The scores of all peers, each between zero and the penalty. -/
structure ScoresSound (p : Peri) (scores : Scores) : Prop where
  sameLength : scores.blockScores.length = scores.txScores.length
  blockIds : p.ScoresOf scores.blockScores
  txIds : p.ScoresOf scores.txScores
  bounded : ∀ entry ∈ scores.blockScores ++ scores.txScores,
    entry.score ∈ Set.uIcc (0 : ℚ) p.maxDelayDuration

structure RecordsSound (p : Peri) : Prop where
  blocks : p.blocks.Aligned
  txs : p.txs.Aligned
  notOld : ∀ hash ∈ p.txs.arrivals, hash ∉ p.txOldArrivals
  scores : ∀ choices : Choices, ∃ after scores,
    p.getScores choices.exact = some (after, scores) ∧ p.ScoresSound scores

/-- The maps hold deliveries, and none of an old transaction. -/
def Holds (p : Peri) : Prop :=
  ∃ blocks txs, Traced blocks p.blocks ∧ Traced txs p.txs ∧
    ∀ delivery ∈ txs, delivery.kept → delivery.item ∉ p.txOldArrivals

variable {p next : Peri} {choices : Choices}

theorem Holds.takeCall (holds : p.Holds) {call : DeliveryCall}
    (taken : takeCall call p = some next) : next.Holds := by
  obtain ⟨blocks,txs,blocksTraced,txsTraced,notOld⟩ := holds
  obtain ⟨nextBlocks,nextTxs,run,blocksNext,txsNext⟩ :=
    runAll_takeCall blocksTraced txsTraced [call]
  rw [runAll_cons,taken] at run
  cases run
  refine ⟨_,_,blocksNext,txsNext,?_⟩
  intro delivery member keeps
  rcases List.mem_append.mp member with earlier | now
  · exact notOld delivery earlier keeps
  · rw [transactionDeliveries,List.flatMap_singleton] at now
    cases call with
    | blockAnnounces peer timestamp current hashes numbers
    | blockBody peer timestamp current hash number => cases now
    | transactionAnnounces peer timestamp hashes | transactionBody peer timestamp hashes =>
      obtain ⟨hash,-,rfl⟩ := List.mem_map.mp now
      exact of_decide_eq_true keeps

theorem disconnectByScore_cases (round : p.disconnectByScore choices = some next) :
    next = p ∨ ∃ before : Peri, next = before.resetRecords choices := by
  rw [disconnectByScore] at round
  split at round
  · exact .inl (Option.some_inj.mp round).symm
  · obtain ⟨⟨scored,scores⟩,-,dropped⟩ := Option.bind_eq_some_iff.mp round
    obtain ⟨ids,-,rest⟩ := Option.bind_eq_some_iff.mp dropped
    dsimp only at rest
    split at rest
    all_goals
      obtain ⟨before,-,reset⟩ := Option.bind_eq_some_iff.mp rest
      exact .inr ⟨before,(Option.some_inj.mp reset).symm⟩

theorem Holds.step (holds : p.Holds) {action : Action Ratio}
    (stepped : step slots action p = some next) : next.Holds := by
  cases action with
  | deliver call => exact holds.takeCall stepped
  | setRatios blockRatio txRatio | connect id peer | disconnect id =>
    cases stepped
    exact holds
  | round choices =>
    rcases disconnectByScore_cases stepped with rfl | ⟨before,rfl⟩
    · exact holds
    · exact ⟨[],[],.empty,.empty,List.forall_mem_nil _⟩

theorem mem_sort_map {sorting : SliceSort IdScore} {less : IdScore → IdScore → Bool}
    {score : String → IdScore} {ids : List String} {entry : IdScore}
    (member : entry ∈ sorting.sort less (ids.map score)) : ∃ id, score id = entry := by
  obtain ⟨id,-,same⟩ := List.mem_map.mp ((sorting.perm _ _).subset member)
  exact ⟨id,same⟩

theorem getScores_sound (blocks : p.blocks.Aligned) (txs : p.txs.Aligned) (choices : Choices) :
    ∃ after scores, p.getScores choices.exact = some (after, scores) ∧ p.ScoresSound scores := by
  obtain ⟨blockIds,txIds⟩ := ownScores_scoresOf choices.exact p
  refine ⟨_,_,getScores_eq choices.exact p,?_⟩
  constructor
  · rw [blockIds.length_eq,txIds.length_eq]
  · exact ⟨blockIds.nodup,blockIds.mem_iff⟩
  · exact ⟨txIds.nodup,txIds.mem_iff⟩
  · intro entry member
    rcases List.mem_append.mp member with ofBlocks | ofTxs
    · obtain ⟨id,rfl⟩ := mem_sort_map ofBlocks
      exact score_mem blocks _ id _
    · obtain ⟨id,rfl⟩ := mem_sort_map ofTxs
      exact score_mem txs _ id _

theorem Holds.sound (holds : p.Holds) : p.RecordsSound := by
  obtain ⟨blocks,txs,blocksTraced,txsTraced,notOld⟩ := holds
  constructor
  · exact blocksTraced.aligned
  · exact txsTraced.aligned
  · intro hash recorded
    obtain ⟨delivery,member⟩ :=
      List.exists_mem_of_ne_nil _ ((txsTraced.mem_iff hash).mp recorded)
    obtain ⟨delivered,keeps,rfl⟩ := mem_keptOf.mp member
    exact notOld delivery delivered keeps
  · exact getScores_sound blocksTraced.aligned txsTraced.aligned

/-- In every run of deliveries, rounds and changes of the ratios, in which peers
connect and disconnect, the maps agree and all scores are between zero and the
penalty. -/
theorem recordsSound_always (config : PeriConfig) (peers : Finmap fun _ : String => EthPeer)
    (blockPeersCount txsPeerCount maxDelayDuration : Int)
    (blocklist : Finmap fun _ : String => BlockItem) (actions : List (Action Ratio)) :
    Always (step slots) RecordsSound
      (fresh config peers blockPeersCount txsPeerCount maxDelayDuration blocklist) actions := by
  have initially : (fresh config peers blockPeersCount txsPeerCount maxDelayDuration
      blocklist).Holds := ⟨[],[],.empty,.empty,List.forall_mem_nil _⟩
  exact always_of_kept (fun _ _ _ holds stepped => holds.step slots stepped)
    (fun _ holds => holds.sound) initially

end Peri

end PioplatRelay
