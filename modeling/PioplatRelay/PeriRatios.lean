import Mathlib.Data.Rat.Floor
import PioplatRelay.PeriScores

/-!
# Ratios and slots

The slots of Peri are given as ratios of the highest number of peers.  On start-up two
products are rounded and the rest is left for transactions; a request to the server
truncates three products, after a check of the sum of the ratios alone.  The numbers
of a request are a parameter; the results about slots take them as exact.
-/

namespace PioplatRelay

open Finset List Int

namespace Peri

/-! ### Numbers of slots -/

def truncate (x : ℚ) : Int :=
  if 0 ≤ x then ⌊x⌋ else ⌈x⌉

def round (x : ℚ) : Int :=
  if 0 ≤ x then ⌊x + 1 / 2⌋ else ⌈x - 1 / 2⌉

structure SlotCounts where
  replaceCount : Int
  blockPeersCount : Int
  txsPeerCount : Int
  deriving DecidableEq, Repr

/-- What the source does with `float64` numbers; `constant` is the number nearest to a
constant or to an integer that is converted. -/
structure RatioNumbers (Number : Type) where
  constant : ℚ → Number
  add : Number → Number → Number
  mul : Number → Number → Number
  div : Number → Number → Number
  less : Number → Number → Bool
  int : Number → Int

def rationals : RatioNumbers ℚ :=
  ⟨id,(· + ·),(· * ·),(· / ·),fun x y => x < y,truncate⟩

variable {Number : Type} (numbers : RatioNumbers Number)

def setRatiosCounts (maxPeers : Nat) (replaceRatio blockRatio txRatio : Number) : SlotCounts :=
  let slots ratio := numbers.int (numbers.mul (numbers.constant maxPeers) ratio)
  ⟨slots replaceRatio,slots blockRatio,slots txRatio⟩

def createPeriCounts (maxPeers : Nat) (periReplaceRatio periBlockNodeRatio : ℚ) : SlotCounts :=
  let replaceCount := round (maxPeers * periReplaceRatio)
  let blockPeersCount := round (maxPeers * periBlockNodeRatio)
  ⟨replaceCount,blockPeersCount,maxPeers - replaceCount - blockPeersCount⟩

/-- Peri with these slots; nothing reads the number of peers to replace. -/
def withSlots (counts : SlotCounts) (p : Peri) : Peri :=
  { p with blockPeersCount := counts.blockPeersCount, txsPeerCount := counts.txsPeerCount }

inductive RatioResponse
  | authFailed
  | invalidFloat (status : Nat)
  | opSuccess
  deriving DecidableEq, Repr

def percent (number : Number) : Number := numbers.div number (numbers.constant 100)

/-- The sum of the ratios is refused.  Both comparisons fail if it is not a number. -/
def isRefused (ratio0 ratio1 ratio2 : Number) : Bool :=
  let sum := numbers.add (numbers.add ratio0 ratio1) ratio2
  numbers.less sum (numbers.constant (95 / 100)) || numbers.less (numbers.constant (105 / 100)) sum

/-- `setPeriRatio`, after the three numbers of the form have been parsed. -/
def setPeriRatio (adminToken token : String) (maxPeers : Nat)
    (parsed0 parsed1 parsed2 : Option Number) (p : Peri) : RatioResponse × Peri :=
  if token ≠ adminToken then (.authFailed, p)
  else
    match parsed0, parsed1, parsed2 with
    | some number0, some number1, some number2 =>
      let ratio0 := percent numbers number0
      let ratio1 := percent numbers number1
      let ratio2 := percent numbers number2
      if isRefused numbers ratio0 ratio1 ratio2 then (.invalidFloat 200, p)
      else (.opSuccess, p.withSlots (setRatiosCounts numbers maxPeers ratio0 ratio1 ratio2))
    | _, _, _ => (.invalidFloat 400, p)

/-! ### The selection with any slots -/

variable {p : Peri} {choices : Choices} {scores : Scores}

theorem reserveLast_toNat (count : Int) (list : List IdScore) (reserve : Finset String) :
    reserveLast count list reserve = reserve ∪ (lastIds count.toNat list).toFinset := by
  have idx : list.drop (max ((list.length : Int) - count) 0).toNat =
      list.drop (max ((list.length : Int) - count.toNat) 0).toNat := by
    rcases lt_or_ge count 0 with negative | positive
    · rw [drop_eq_nil_of_le (by omega),drop_eq_nil_of_le (by omega)]
    · rw [toNat_of_nonneg positive]
  rw [← reserveLast_eq,reserveLast,reserveLast,idx]

theorem peersReserve_eq_lastIds (p : Peri) (scores : Scores) :
    p.peersReserve scores = (lastIds p.blockPeersCount.toNat scores.blockScores).toFinset ∪
      (lastIds p.txsPeerCount.toNat scores.txScores).toFinset := by
  rw [peersReserve,reserveLast_toNat,reserveLast_toNat,empty_union]

theorem mem_of_mem_lastIds {count : Nat} {list : List IdScore} {id : String}
    (member : id ∈ lastIds count list) : id ∈ list.map IdScore.id := by
  rw [lastIds,map_drop] at member
  exact mem_of_mem_drop member

theorem firstReserved_subset (count : Int) (list : List IdScore) (toDropNum : Int) :
    firstReserved count list toDropNum ⊆ (lastIds count.toNat list).toFinset := by
  intro id member
  rw [firstReserved,mem_toFinset,drop_take] at member
  obtain ⟨entry,inside,rfl⟩ := mem_map.mp member
  rw [lastIds,mem_toFinset]
  exact mem_map_of_mem (drop_subset_drop_left _ (by omega) (mem_of_mem_take inside))

theorem firstReserved_union_subset (p : Peri) (scores : Scores) (toDropNum : Int) :
    firstReserved p.blockPeersCount scores.blockScores toDropNum ∪
      firstReserved p.txsPeerCount scores.txScores toDropNum ⊆ p.peersReserve scores := by
  rw [peersReserve_eq_lastIds]
  exact union_subset_union (firstReserved_subset _ _ _) (firstReserved_subset _ _ _)

theorem firstReserved_card (count toDropNum : Nat) {list : List IdScore}
    (distinct : (list.map IdScore.id).Nodup) (reserved : toDropNum ≤ (lastIds count list).length) :
    (firstReserved count list toDropNum).card = toDropNum := by
  rw [lastIds,length_map,length_drop] at reserved
  have idxEq : (max ((list.length : Int) - count) 0).toNat = list.length - count := by omega
  have rightEq : (min (max ((list.length : Int) - count) 0 + toDropNum) (list.length : Int)).toNat =
      list.length - count + toDropNum := by omega
  rw [firstReserved,idxEq,rightEq,toFinset_card_of_nodup,length_map,length_drop,length_take]
  · omega
  · apply Nodup.sublist _ distinct
    exact ((drop_sublist _ _).trans (take_sublist _ _)).map _

section Scored

variable (blockIds : p.ScoresOf scores.blockScores) (txIds : p.ScoresOf scores.txScores)

include blockIds txIds

theorem peersReserve_subset : p.peersReserve scores ⊆ p.peers.keys := by
  intro id member
  rw [Finmap.mem_keys]
  rw [peersReserve_eq_lastIds,mem_union,mem_toFinset,mem_toFinset] at member
  rcases member with ofBlocks | ofTxs
  · exact (blockIds.mem_iff id).mp (mem_of_mem_lastIds ofBlocks)
  · exact (txIds.mem_iff id).mp (mem_of_mem_lastIds ofTxs)

theorem length_peersRemove :
    (p.peersRemove scores).length + (p.peersReserve scores).card = p.peers.keys.card := by
  rw [← toFinset_card_of_nodup (peersRemove_nodup blockIds txIds),
    toFinset_peersRemove blockIds txIds,
    card_sdiff_add_card_eq_card (peersReserve_subset blockIds txIds)]

/-- A reserve larger than all slots is that of one list, and the other count is
negative: then there are enough reserved peers to drop. -/
theorem le_card_firstReserved {k : Nat} (slots : 0 ≤ p.blockPeersCount + p.txsPeerCount)
    (surplus : (p.peersReserve scores).card = k + (p.blockPeersCount + p.txsPeerCount))
    (positive : 0 < k) : k ≤ (firstReserved p.blockPeersCount scores.blockScores k ∪
      firstReserved p.txsPeerCount scores.txScores k).card := by
  have reserveLe := card_union_le
    (lastIds p.blockPeersCount.toNat scores.blockScores).toFinset
    (lastIds p.txsPeerCount.toNat scores.txScores).toFinset
  rw [← peersReserve_eq_lastIds] at reserveLe
  have blockLe := toFinset_card_le (lastIds p.blockPeersCount.toNat scores.blockScores)
  have txLe := toFinset_card_le (lastIds p.txsPeerCount.toNat scores.txScores)
  have blockBound := lastIds_length_le p.blockPeersCount.toNat scores.blockScores
  have txBound := lastIds_length_le p.txsPeerCount.toNat scores.txScores
  rcases lt_or_ge p.blockPeersCount 0 with blockNegative | blockCount
  · have txCount : ((p.txsPeerCount.toNat : Nat) : Int) = p.txsPeerCount := by omega
    have card := firstReserved_card p.txsPeerCount.toNat k txIds.nodup (by omega)
    rw [txCount] at card
    calc
      k = _ := card.symm
      _ ≤ _ := card_le_card subset_union_right
  · have blockCount : ((p.blockPeersCount.toNat : Nat) : Int) = p.blockPeersCount := by omega
    have card := firstReserved_card p.blockPeersCount.toNat k blockIds.nodup (by omega)
    rw [blockCount] at card
    calc
      k = _ := card.symm
      _ ≤ _ := card_le_card subset_union_left

/-- With slots that are not negative together, the selection is in range. -/
theorem exists_toDropIds (slots : 0 ≤ p.blockPeersCount + p.txsPeerCount) (choices : Choices) :
    ∃ selected, p.toDropIds choices scores = some selected ∧ ∀ id ∈ selected, id ∈ p.peers := by
  have neighborsEq := neighbors_eq blockIds txIds
  have counted := length_peersRemove blockIds txIds
  have removable : ∀ id ∈ p.peersRemove scores, id ∈ p.peers := by
    intro id member
    rw [← mem_toFinset,toFinset_peersRemove blockIds txIds,mem_sdiff] at member
    exact Finmap.mem_keys.mp member.1
  rw [toDropIds]
  dsimp only
  by_cases surplus : p.blockPeersCount + p.txsPeerCount < neighbors scores
  · rw [if_pos surplus]
    by_cases small : ((p.peersReserve scores).card : Int) ≤ p.blockPeersCount + p.txsPeerCount
    · obtain ⟨high,highEq⟩ := eq_ofNat_of_zero_le
        (show 0 ≤ (neighbors scores : Int) - (p.blockPeersCount + p.txsPeerCount) by omega)
      have inside : high ≤ (shuffle choices.draws (p.peersRemove scores)).length := by
        rw [(shuffle_perm choices.draws _).length_eq]
        omega
      rw [if_pos small,highEq,sliceTo_of_le choices.spare inside]
      refine ⟨_,rfl,?_⟩
      intro id member
      exact removable id ((shuffle_perm choices.draws _).subset (mem_of_mem_take member))
    · obtain ⟨k,kEq⟩ := eq_ofNat_of_zero_le
        (show 0 ≤ (neighbors scores : Int) - (p.blockPeersCount + p.txsPeerCount) -
          (p.peersRemove scores).length by omega)
      have enough := le_card_firstReserved (k := k) blockIds txIds slots (by omega) (by omega)
      have inside : k ≤ (shuffle choices.draws (choices.dropOrder.order
          (firstReserved p.blockPeersCount scores.blockScores k ∪
            firstReserved p.txsPeerCount scores.txScores k))).length := by
        rw [(shuffle_perm choices.draws _).length_eq,choices.dropOrder.length_order]
        exact enough
      rw [if_neg small,kEq,sliceTo_of_le choices.spare inside]
      refine ⟨_,rfl,?_⟩
      intro id member
      rcases mem_append.mp member with reserved | outside
      · have inOrder := (shuffle_perm choices.draws _).subset (mem_of_mem_take reserved)
        rw [choices.dropOrder.mem_iff] at inOrder
        exact Finmap.mem_keys.mp
          (peersReserve_subset blockIds txIds (firstReserved_union_subset p scores _ inOrder))
      · exact removable id outside
  · rw [if_neg surplus]
    exact ⟨[],rfl,forall_mem_nil _⟩

/-- With slots that are negative together, more peers are to be dropped than are reserved. -/
theorem toDropIds_eq_none (slots : p.blockPeersCount + p.txsPeerCount < 0)
    (noSpare : choices.spare = 0) : p.toDropIds choices scores = none := by
  have neighborsEq := neighbors_eq blockIds txIds
  have counted := length_peersRemove blockIds txIds
  rw [toDropIds]
  dsimp only
  rw [if_pos (by omega),if_neg (by omega),sliceTo,if_neg,Option.map_none]
  rw [noSpare,(shuffle_perm choices.draws _).length_eq,choices.dropOrder.length_order]
  have reserved := card_le_card (firstReserved_union_subset p scores
    (neighbors scores - (p.blockPeersCount + p.txsPeerCount) - (p.peersRemove scores).length))
  omega

end Scored

/-! ### Accepted ratios -/

def Recorded (p : Peri) : Prop := p.blocks.arrivals.keys.card ≠ 0 ∧ p.txs.arrivals.keys.card ≠ 0

theorem Recorded.withSlots (recorded : p.Recorded) (counts : SlotCounts) :
    (p.withSlots counts).Recorded :=
  recorded

theorem exists_disconnectByScore (slots : 0 ≤ p.blockPeersCount + p.txsPeerCount)
    (recorded : p.Recorded) (choices : Choices) :
    ∃ after, p.disconnectByScore choices = some after := by
  obtain ⟨blockIds,txIds⟩ := ownScores_scoresOf choices p
  obtain ⟨selected,selectedEq,registered⟩ := exists_toDropIds blockIds txIds slots choices
  obtain ⟨after,afterEq,_⟩ :=
    dropByScores_evicted (scored_snapped choices p) selectedEq registered
  exact ⟨after,(disconnectByScore_eq choices recorded).trans afterEq⟩

theorem disconnectByScore_eq_none (recorded : p.Recorded)
    (selection : (p.scored choices).toDropIds choices (p.ownScores choices) = none) :
    p.disconnectByScore choices = none := by
  rw [disconnectByScore_eq choices recorded,dropByScores,selection]
  rfl

theorem disconnectByScore_of_negative (recorded : p.Recorded)
    (slots : p.blockPeersCount + p.txsPeerCount < 0) (noSpare : choices.spare = 0) :
    p.disconnectByScore choices = none := by
  obtain ⟨blockIds,txIds⟩ := ownScores_scoresOf choices p
  exact disconnectByScore_eq_none recorded (toDropIds_eq_none blockIds txIds slots noSpare)

variable {numbers}

theorem setPeriRatio_accepts {adminToken : String} {maxPeers : Nat}
    {number0 number1 number2 : Number}
    (accepted : (setPeriRatio numbers adminToken adminToken maxPeers (some number0)
      (some number1) (some number2) p).1 = .opSuccess) :
    (setPeriRatio numbers adminToken adminToken maxPeers (some number0) (some number1)
      (some number2) p).2 = p.withSlots (setRatiosCounts numbers maxPeers
        (percent numbers number0) (percent numbers number1) (percent numbers number2)) := by
  rw [setPeriRatio,if_neg (not_not.mpr rfl)] at accepted ⊢
  dsimp only at accepted ⊢
  split at accepted
  · cases accepted
  · rename_i inRange
    rw [if_neg inRange]

/-- Of the ratios that the server accepts, those keep every later round in range whose
slots are not negative together. -/
theorem accepted_ratios_complete_iff (adminToken : String) {maxPeers : Nat}
    {number0 number1 number2 : ℚ} (recorded : p.Recorded)
    (accepted : (setPeriRatio rationals adminToken adminToken maxPeers (some number0)
      (some number1) (some number2) p).1 = .opSuccess) :
    (∀ choices, ∃ after, (setPeriRatio rationals adminToken adminToken maxPeers (some number0)
      (some number1) (some number2) p).2.disconnectByScore choices = some after) ↔
      0 ≤ truncate (maxPeers * (number1 / 100)) + truncate (maxPeers * (number2 / 100)) := by
  rw [setPeriRatio_accepts accepted]
  constructor
  · intro complete
    by_contra negative
    obtain ⟨after,afterEq⟩ := complete .plain
    rw [disconnectByScore_of_negative (recorded.withSlots _)] at afterEq
    · cases afterEq
    · exact not_le.mp negative
    · rfl
  · intro slots choices
    exact exists_disconnectByScore slots (recorded.withSlots _) choices

/-- Ratios of 40, 20 and 40 percent are accepted and give 20 and 40 slots of 100. -/
theorem accepted_ratios_complete_forty :
    ∃ after, (setPeriRatio rationals "token" "token" 100 (some 40) (some 20) (some 40)
      twoPeers).2.disconnectByScore .plain = some after := by
  refine (accepted_ratios_complete_iff "token" ⟨by decide,by decide⟩ ?_).mpr ?_ .plain
  · rw [setPeriRatio,if_neg (not_not.mpr rfl),if_neg (by norm_num [isRefused,percent,rationals])]
  · norm_num [truncate]

/-- Ratios of 200, -100 and 0 percent pass the check of their sum. -/
theorem negative_ratio_out_of_range :
    (setPeriRatio rationals "token" "token" 50 (some 200) (some (-100)) (some 0)
        twoPeers).1 = .opSuccess ∧
      twoPeers.Recorded ∧
      (setPeriRatio rationals "token" "token" 50 (some 200) (some (-100)) (some 0)
        twoPeers).2.disconnectByScore .plain = none := by
  have recorded : twoPeers.Recorded := ⟨by decide,by decide⟩
  have accepted : (setPeriRatio rationals "token" "token" 50 (some 200) (some (-100)) (some 0)
      twoPeers).1 = .opSuccess := by
    rw [setPeriRatio,if_neg (not_not.mpr rfl),if_neg (by norm_num [isRefused,percent,rationals])]
  refine ⟨accepted,recorded,?_⟩
  rw [setPeriRatio_accepts accepted]
  refine disconnectByScore_of_negative (recorded.withSlots _) ?_ rfl
  norm_num [withSlots,setRatiosCounts,percent,rationals,truncate]

/-! ### Slots that add up -/

/-- The counts are those of a whole set of peers, and a round on a full set selects as
many peers as are to be replaced. -/
structure SlotsAddUp (maxPeers : Nat) (counts : SlotCounts) : Prop where
  replaceCount : 0 ≤ counts.replaceCount
  blockPeersCount : 0 ≤ counts.blockPeersCount
  txsPeerCount : 0 ≤ counts.txsPeerCount
  total : counts.replaceCount + counts.blockPeersCount + counts.txsPeerCount = maxPeers
  selects : ∀ p : Peri, p.peers.keys.card = maxPeers → ∀ choices, ∃ scored scores selected,
    (p.withSlots counts).getScores choices = some (scored, scores) ∧
      scored.toDropIds choices scores = some selected ∧ selected.Nodup ∧
      selected.length = counts.replaceCount

theorem slotsAddUp_iff (maxPeers : Nat) (counts : SlotCounts) : SlotsAddUp maxPeers counts ↔
      0 ≤ counts.replaceCount ∧ 0 ≤ counts.blockPeersCount ∧ 0 ≤ counts.txsPeerCount ∧
        counts.replaceCount + counts.blockPeersCount + counts.txsPeerCount = maxPeers := by
  constructor
  · intro addUp
    exact ⟨addUp.replaceCount,addUp.blockPeersCount,addUp.txsPeerCount,addUp.total⟩
  · rintro ⟨replaceCount,blockPeersCount,txsPeerCount,total⟩
    refine ⟨replaceCount,blockPeersCount,txsPeerCount,total,?_⟩
    intro p full choices
    obtain ⟨b,blockSlots⟩ := eq_ofNat_of_zero_le blockPeersCount
    obtain ⟨t,txSlots⟩ := eq_ofNat_of_zero_le txsPeerCount
    obtain ⟨blockIds,txIds⟩ := ownScores_scoresOf choices (p.withSlots counts)
    have selectedEq : ((p.withSlots counts).scored choices).toDropIds choices
        ((p.withSlots counts).ownScores choices) = some _ :=
      toDropIds_eq blockSlots txSlots blockIds txIds
    refine ⟨_,_,_,getScores_eq choices _,selectedEq,
      selected_nodup blockSlots txSlots blockIds txIds selectedEq,?_⟩
    rw [selected_length blockSlots txSlots blockIds txIds selectedEq]
    have fullHere : ((p.withSlots counts).scored choices).peers.keys.card = maxPeers := full
    omega

theorem truncate_of_nonneg {x : ℚ} (nonneg : 0 ≤ x) : truncate x = ⌊x⌋ := if_pos nonneg

theorem round_of_nonneg {x : ℚ} (nonneg : 0 ≤ x) : round x = ⌊x + 1 / 2⌋ := if_pos nonneg

section Shares

variable {x y z : ℚ} {total : Int} (zNonneg : 0 ≤ z) (sumEq : x + y + z = total)

include sumEq

/-- Three truncated shares lose nothing only if all of them are whole. -/
theorem floor_add_floor_add_floor_eq_iff :
    ⌊x⌋ + ⌊y⌋ + ⌊z⌋ = total ↔ fract x = 0 ∧ fract y = 0 ∧ fract z = 0 := by
  have xFract := fract_nonneg x
  have yFract := fract_nonneg y
  have zFract := fract_nonneg z
  have lost : ((⌊x⌋ + ⌊y⌋ + ⌊z⌋ : Int) : ℚ) + (fract x + fract y + fract z) = total := by
    rw [← sumEq]
    push_cast
    linarith [floor_add_fract x,floor_add_fract y,floor_add_fract z]
  constructor
  · intro floors
    rw [floors] at lost
    refine ⟨?_,?_,?_⟩ <;> linarith
  · rintro ⟨xWhole,yWhole,zWhole⟩
    rw [xWhole,yWhole,zWhole,add_zero,add_zero,add_zero] at lost
    exact_mod_cast lost

include zNonneg

/-- Two rounded shares leave less than nothing only if there is no third share and both
are half-integers. -/
theorem round_add_round_le_iff :
    ⌊x + 1 / 2⌋ + ⌊y + 1 / 2⌋ ≤ total ↔ ¬ (z = 0 ∧ fract x = 1 / 2) := by
  have xLe := floor_le (x + 1 / 2)
  have yLe := floor_le (y + 1 / 2)
  constructor
  · rintro fits ⟨noThird,half⟩
    have xEq := floor_add_fract x
    have xRound : ⌊x + 1 / 2⌋ = ⌊x⌋ + 1 := by
      rw [floor_eq_iff]
      push_cast
      constructor <;> linarith
    have yRound : ⌊y + 1 / 2⌋ = total - ⌊x⌋ := by
      rw [floor_eq_iff]
      push_cast
      constructor <;> linarith
    omega
  · intro notHalves
    by_contra exceeds
    have above : ((total + 1 : Int) : ℚ) ≤ ((⌊x + 1 / 2⌋ + ⌊y + 1 / 2⌋ : Int) : ℚ) := by
      exact_mod_cast not_le.mp exceeds
    push_cast at above
    have noThird : z = 0 := by linarith
    apply notHalves
    refine ⟨noThird,?_⟩
    have xEq : x = ((⌊x + 1 / 2⌋ - 1 : Int) : ℚ) + 1 / 2 := by
      push_cast
      linarith
    rw [xEq,fract_intCast_add,fract_eq_self]
    norm_num

end Shares

/-- Ratios that sum to one.  Truncated counts add up exactly when all three products are
whole; rounded ones unless there are no slots for transactions and the other two products
are half-integers. -/
theorem slots_add_up_iff {maxPeers : Nat} (positive : 1 ≤ maxPeers)
    {replaceRatio blockRatio txRatio : ℚ} (replaceNonneg : 0 ≤ replaceRatio)
    (blockNonneg : 0 ≤ blockRatio) (txNonneg : 0 ≤ txRatio)
    (sumEq : replaceRatio + blockRatio + txRatio = 1) :
    (SlotsAddUp maxPeers (setRatiosCounts rationals maxPeers replaceRatio blockRatio txRatio) ↔
      fract (maxPeers * replaceRatio) = 0 ∧ fract (maxPeers * blockRatio) = 0 ∧
        fract (maxPeers * txRatio) = 0) ∧
    (SlotsAddUp maxPeers (createPeriCounts maxPeers replaceRatio blockRatio) ↔
      ¬ (txRatio = 0 ∧ fract (maxPeers * replaceRatio) = 1 / 2)) := by
  have peers : (0 : ℚ) < maxPeers := by exact_mod_cast positive
  have replaceShare : 0 ≤ maxPeers * replaceRatio := mul_nonneg peers.le replaceNonneg
  have blockShare : 0 ≤ maxPeers * blockRatio := mul_nonneg peers.le blockNonneg
  have txShare : 0 ≤ maxPeers * txRatio := mul_nonneg peers.le txNonneg
  have sharesEq : maxPeers * replaceRatio + maxPeers * blockRatio + maxPeers * txRatio =
      ((maxPeers : Int) : ℚ) := by
    rw [← mul_add,← mul_add,sumEq,mul_one]
    rfl
  constructor
  · rw [slotsAddUp_iff,← floor_add_floor_add_floor_eq_iff sharesEq]
    simp only [setRatiosCounts,rationals,id,truncate_of_nonneg replaceShare,
      truncate_of_nonneg blockShare,truncate_of_nonneg txShare]
    have replaceCount := floor_nonneg.mpr replaceShare
    have blockCount := floor_nonneg.mpr blockShare
    have txCount := floor_nonneg.mpr txShare
    tauto
  · have noTxs : txRatio = 0 ↔ maxPeers * txRatio = 0 := by rw [mul_eq_zero,or_iff_right peers.ne']
    rw [slotsAddUp_iff,noTxs,← round_add_round_le_iff txShare sharesEq]
    simp only [createPeriCounts,round_of_nonneg replaceShare,round_of_nonneg blockShare]
    have replaceCount : 0 ≤ ⌊maxPeers * replaceRatio + 1 / 2⌋ := floor_nonneg.mpr (by linarith)
    have blockCount : 0 ≤ ⌊maxPeers * blockRatio + 1 / 2⌋ := floor_nonneg.mpr (by linarith)
    omega

/-- Two fifths, one fifth and two fifths of fifty peers. -/
theorem slots_add_up_fifths : SlotsAddUp 50 (setRatiosCounts rationals 50 (2 / 5) (1 / 5) (2 / 5)) ∧
      SlotsAddUp 50 (createPeriCounts 50 (2 / 5) (1 / 5)) := by
  have iffs := slots_add_up_iff (show 1 ≤ 50 by decide) (show (0 : ℚ) ≤ 2 / 5 by norm_num)
    (show (0 : ℚ) ≤ 1 / 5 by norm_num) (show (0 : ℚ) ≤ 2 / 5 by norm_num) (by norm_num)
  refine ⟨iffs.1.mpr ?_,iffs.2.mpr ?_⟩
  · norm_num [fract]
  · norm_num

/-- Thirds of fifty peers leave two slots out, and halves of five peers take six. -/
theorem thirds_and_halves_do_not_add_up :
    setRatiosCounts rationals 50 (1 / 3) (1 / 3) (1 / 3) = ⟨16,16,16⟩ ∧
      ¬ SlotsAddUp 50 (setRatiosCounts rationals 50 (1 / 3) (1 / 3) (1 / 3)) ∧
      createPeriCounts 5 (1 / 2) (1 / 2) = ⟨3,3,-1⟩ ∧
      ¬ SlotsAddUp 5 (createPeriCounts 5 (1 / 2) (1 / 2)) := by
  have thirds : setRatiosCounts rationals 50 (1 / 3) (1 / 3) (1 / 3) = ⟨16,16,16⟩ := by
    norm_num [setRatiosCounts,rationals,truncate]
  have halves : createPeriCounts 5 (1 / 2) (1 / 2) = ⟨3,3,-1⟩ := by
    norm_num [createPeriCounts,round]
  refine ⟨thirds,?_,halves,?_⟩
  · rw [thirds,slotsAddUp_iff]
    decide
  · rw [halves,slotsAddUp_iff]
    decide

end Peri

end PioplatRelay
