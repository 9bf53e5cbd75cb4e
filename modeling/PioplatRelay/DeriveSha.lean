import PioplatRelay.IntegerEncodings
import PioplatRelay.StackTrieRoot

/-!
# The order of updates in `DeriveSha`

A list is hashed by a trie whose keys are the encodings of the indexes.  The trie
takes its keys in increasing order, but index 0 is encoded as 0x80 and so comes
after the indexes of one byte.  The three parts of `DeriveSha` give every index
once, and in the order of the keys.
-/

namespace PioplatRelay.Trie

open BigEndian Rlp Patricia
open List hiding Vector

/-- The indexes in the order of the three parts. -/
def deriveOrder (n : Nat) : List Nat :=
  range' 1 (min (n - 1) 0x7f) ++ (if n > 0 then [0] else []) ++ range' 0x80 (n - 0x80)

/-- The calls of `hasher.Update` for the encoded elements of a list. -/
def deriveUpdates (values : List (List UInt8)) : List (List UInt8 × List UInt8) :=
  (deriveOrder values.length).map fun i =>
    (appendUint64 [] (UInt64.ofNat i), values.getD i [])

/-! ### Keys -/

theorem Before.lt {a b : List UInt8} (before : Before a b) : a < b := by
  induction a generalizing b with
  | nil => cases b <;> exact before.elim
  | cons x a ih =>
    cases b with
    | nil => exact before.elim
    | cons y b => exact cons_lt_cons_iff.mpr (before.imp_right fun rest => ⟨rest.1,ih rest.2⟩)

theorem Before.not_prefix {a b : List UInt8} (before : Before a b) : ¬ a <+: b ∧ ¬ b <+: a := by
  obtain ⟨common,x,y,restA,restB,rfl,rfl,less⟩ := before.exists_split
  rw [prefix_append_right_inj,prefix_append_right_inj,cons_prefix_cons,cons_prefix_cons]
  exact ⟨fun same => UInt8.ne_of_lt less same.1,fun same => UInt8.ne_of_lt less same.1.symm⟩

theorem Before.append {a b : List UInt8} (before : Before a b) (restA restB : List UInt8) :
    Before (a ++ restA) (b ++ restB) := by
  obtain ⟨common,x,y,moreA,moreB,rfl,rfl,less⟩ := before.exists_split
  rw [append_assoc,append_assoc,before_append_iff]
  exact .inl less

/-- Numbers of the same width are in the order of their bytes. -/
theorem before_bytesOf {width i j : Nat} (less : i < j) (fits : j < 256 ^ width) :
    Before (bytesOf width i) (bytesOf width j) := by
  induction width generalizing i j with
  | zero => omega
  | succ width ih =>
    rw [bytesOf_succ,bytesOf_succ]
    rcases Nat.lt_or_ge (i / 256) (j / 256) with high | low
    · exact (ih high (by rw [Nat.pow_succ] at fits; omega)).append _ _
    · rw [show i / 256 = j / 256 by omega,before_append_iff]
      left
      rw [UInt8.lt_iff_toNat_lt,UInt8.toNat_ofNat',UInt8.toNat_ofNat']
      omega

def Single (i : Nat) : Prop := 0 < i ∧ i < 128

/-- The order of the keys of two indexes. -/
def Earlier (i j : Nat) : Prop := Single i ∧ ¬ Single j ∨ (Single i ↔ Single j) ∧ i < j

def indexKey (i : Nat) : List UInt8 := encodeString (minimal i)

theorem indexKey_single {i : Nat} (single : Single i) : indexKey i = [UInt8.ofNat i] := by
  obtain ⟨positive,below⟩ := single
  rw [indexKey,encodeString,if_pos (EncBuffer.selfEncoded_minimal_iff.mpr ⟨positive,below⟩),
    minimal_of_pos positive,Nat.div_eq_of_lt (by omega),minimal_zero,nil_append,
    Nat.mod_eq_of_lt (by omega)]

theorem indexKey_headed {i : Nat} (headed : ¬ Single i) (bounded : i < 2 ^ 64) :
    ∃ tag : UInt8, tag.toNat = 0x80 + (minimal i).length ∧ indexKey i = tag :: minimal i := by
  have small : (minimal i).length < 56 := by
    have : (minimal i).length ≤ 8 := minimal_length_le_iff.mpr bounded
    omega
  rw [Single,← EncBuffer.selfEncoded_minimal_iff,Bool.not_eq_true] at headed
  refine ⟨_,(Stream.tag_short 0x80 small (by decide)).1,?_⟩
  rw [indexKey,encodeString_of_not_selfEncoded headed,stringHeader,header,if_pos small]
  rfl

theorem before_indexKey {i j : Nat} (earlier : Earlier i j) (bounded : i < 2 ^ 64 ∧ j < 2 ^ 64) :
    Before (indexKey i) (indexKey j) := by
  by_cases headed : Single j
  · obtain ⟨single,less⟩ : Single i ∧ i < j := by
      unfold Earlier at earlier
      tauto
    rw [indexKey_single single,indexKey_single headed]
    left
    have := headed.2
    rw [UInt8.lt_iff_toNat_lt,UInt8.toNat_ofNat',UInt8.toNat_ofNat']
    omega
  obtain ⟨tag,tagEq,keyEq⟩ := indexKey_headed headed bounded.2
  rw [keyEq]
  by_cases single : Single i
  · rw [indexKey_single single]
    left
    have := single.2
    rw [UInt8.lt_iff_toNat_lt,tagEq,UInt8.toNat_ofNat']
    omega
  have less : i < j := by
    unfold Earlier at earlier
    tauto
  obtain ⟨tag',tagEq',keyEq'⟩ := indexKey_headed single bounded.1
  rw [keyEq']
  -- The numbers of bytes decide, or the bytes if there are equally many.
  have fits : j < 256 ^ (minimal j).length := minimal_length_le_iff.mp le_rfl
  rcases (minimal_length_le_iff.mpr (less.trans fits)).lt_or_eq with shorter | same
  · left
    rw [UInt8.lt_iff_toNat_lt]
    omega
  · refine .inr ⟨UInt8.toNat_inj.mp (by omega),?_⟩
    rw [← bytesOf_minimal_length i,← bytesOf_minimal_length j,same]
    exact before_bytesOf less fits

/-! ### Updates -/

theorem deriveOrder_earlier (n : Nat) : (deriveOrder n).Pairwise Earlier := by
  have ascending (start count : Nat) (same : start = 1 ∧ count ≤ 0x7f ∨ start = 0x80) :
      (range' start count).Pairwise Earlier := by
    refine Pairwise.imp_of_mem (fun first second less => ?_) pairwise_lt_range'
    rw [mem_range'_1] at first second
    unfold Earlier Single
    omega
  rw [deriveOrder,pairwise_append,pairwise_append]
  refine ⟨⟨ascending _ _ (.inl ⟨rfl,by omega⟩),?_,?_⟩,ascending _ _ (.inr rfl),?_⟩
  · split <;> simp
  · intro i first j second
    rw [mem_range'_1] at first
    obtain rfl : j = 0 := by grind
    unfold Earlier Single
    omega
  · intro i first j second
    rw [mem_range'_1] at second
    rw [mem_append,mem_range'_1] at first
    have small : i < 128 := by grind
    unfold Earlier Single
    omega

theorem deriveOrder_perm (n : Nat) : (deriveOrder n).Perm (range n) := by
  have distinct : (deriveOrder n).Nodup := by
    refine (deriveOrder_earlier n).imp fun earlier same => ?_
    unfold Earlier Single at earlier
    omega
  refine (perm_ext_iff_of_nodup distinct nodup_range).mpr fun i => ?_
  simp only [deriveOrder,mem_append,mem_range'_1,mem_range]
  split <;> simp <;> omega

/-- The updates are one for every index, with the key and the element of the index.
Their keys increase, and none of them begins another. -/
theorem deriveUpdates_ordered {values : List (List UInt8)} (counted : values.length < 2 ^ 63) :
    (deriveUpdates values).Perm
        ((range values.length).map fun i => (indexKey i, values.getD i [])) ∧
      ((deriveUpdates values).Pairwise fun pair later => pair.1 < later.1) ∧
      (deriveUpdates values).Pairwise fun pair later =>
        ¬ pair.1 <+: later.1 ∧ ¬ later.1 <+: pair.1 := by
  have updatesEq : deriveUpdates values =
      (deriveOrder values.length).map fun i => (indexKey i, values.getD i []) := by
    refine map_congr_left fun i member => ?_
    rw [(deriveOrder_perm _).mem_iff,mem_range] at member
    rw [appendUint64_eq,nil_append,UInt64.toNat_ofNat_of_lt' (show _ < 2 ^ 64 by omega),indexKey]
  have ordered : (deriveUpdates values).Pairwise fun pair later => Before pair.1 later.1 := by
    rw [updatesEq,pairwise_map]
    refine Pairwise.imp_of_mem (fun first second earlier => ?_) (deriveOrder_earlier _)
    rw [(deriveOrder_perm _).mem_iff,mem_range] at first second
    exact before_indexKey earlier (by omega)
  refine ⟨?_,ordered.imp Before.lt,ordered.imp Before.not_prefix⟩
  rw [updatesEq]
  exact (deriveOrder_perm _).map _

theorem deriveUpdates_ordered_two :
    let updates := deriveUpdates [[5], [6]]
    updates = [([1], [6]), ([0x80], [5])] ∧
      updates.Pairwise (fun pair later => pair.1 < later.1) :=
  ⟨by decide +kernel,(deriveUpdates_ordered (by decide)).2.1⟩

theorem mem_deriveOrder {i n : Nat} : i ∈ deriveOrder n ↔ i < n := by
  rw [(deriveOrder_perm n).mem_iff,mem_range]

/-- `DeriveSha` with a stack trie. -/
def deriveSha (keccak : List UInt8 → Vector UInt8 32) (values : List (List UInt8)) :
    Option (Vector UInt8 32) :=
  (updateAll keccak .emptyNode (deriveUpdates values)).bind (rootHash keccak)

def indexed (values : List (List UInt8)) : List Pair :=
  (deriveOrder values.length).map fun i => (nibblesOf (indexKey i), values.getD i [])

/-- No update panics, and the result is the Merkle-Patricia root of the elements under
the keys of their indexes. -/
theorem deriveSha_eq_root (keccak : List UInt8 → Vector UInt8 32) {values : List (List UInt8)}
    (counted : values.length < 2 ^ 63) (nonempty : [] ∉ values) :
    deriveSha keccak values = some (root keccak emptyRoot (indexed values)) := by
  have updatesEq : (deriveUpdates values).map nibblePair = indexed values := by
    rw [deriveUpdates,map_map]
    refine map_congr_left fun i member => ?_
    rw [mem_deriveOrder] at member
    rw [Function.comp,appendUint64_eq,UInt64.toNat_ofNat_of_lt' (show _ < 2 ^ 64 by omega)]
    rfl
  have sorted : (indexed values).Pairwise fun pair later => Before pair.1 later.1 := by
    rw [indexed,pairwise_map]
    refine Pairwise.imp_of_mem (fun first second earlier => ?_) (deriveOrder_earlier _)
    rw [mem_deriveOrder] at first second
    have before := before_indexKey earlier (by omega)
    exact before_nibblesOf before.lt before.not_prefix.1
  have filled : ∀ pair ∈ deriveUpdates values, pair.2 ≠ [] := by
    rw [deriveUpdates,forall_mem_map]
    intro i member isEmpty
    rw [mem_deriveOrder] at member
    rw [getD_eq_getElem _ _ member] at isEmpty
    exact nonempty (isEmpty ▸ getElem_mem member)
  rw [← updatesEq,pairwise_map] at sorted
  rw [deriveSha,← updatesEq]
  cases updates : deriveUpdates values with
  | nil => rfl
  | cons pair pairs =>
    rw [updates,pairwise_cons] at sorted
    rw [updates,forall_mem_cons] at filled
    -- The first key turns the empty node into a leaf.
    have leaf : Holds keccak (.leafNode (nibblesOf pair.1) pair.2) [nibblePair pair] :=
      ⟨nibbles_nibblesOf pair.1,rfl⟩
    obtain ⟨st,updateEq,holds,isOpen⟩ := updateAll_spec leaf trivial filled.2
      (forall_mem_singleton.mpr sorted.1) sorted.2
    have first : updateAll keccak .emptyNode (pair :: pairs) = some st := by
      rw [updateAll,foldlM_cons,tryUpdate_eq _ pair.1 filled.1]
      exact updateEq
    rw [first,Option.bind_some,rootHash_of_holds holds isOpen,root,if_neg (by simp)]
    rfl

theorem deriveSha_eq_root_two :
    (deriveSha (fun _ => .replicate 32 7) [[5], [6]]).isSome = true := by
  rw [deriveSha_eq_root _ (by decide) (by decide)]
  rfl

end PioplatRelay.Trie
