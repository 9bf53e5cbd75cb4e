import PioplatRelay.StackTrie

/-!
# The root of a stack trie

A node holds the pairs that were inserted below it, in their order.  Hashed nodes hold
pairs through the encoding of their Merkle-Patricia node.  The nodes on the right spine
are not hashed, and a key after all keys that were inserted goes down that spine.
-/

namespace PioplatRelay

open Function Option Nat
open List hiding Vector

namespace Patricia

/-! ### Pairs added at the end -/

theorem prefix_lcp {front a b : List UInt8} (left : front <+: a) (right : front <+: b) :
    front <+: lcp a b := by
  obtain ⟨a,rfl⟩ := left
  obtain ⟨b,rfl⟩ := right
  rw [lcp_append]
  exact prefix_append front _

theorem prefix_commonPrefix {front : List UInt8} {pairs : List Pair} (nonempty : pairs ≠ [])
    (begins : ∀ pair ∈ pairs, front <+: pair.1) : front <+: commonPrefix pairs := by
  induction pairs with
  | nil => exact absurd rfl nonempty
  | cons first pairs ih =>
    cases pairs with
    | nil => exact begins first mem_cons_self
    | cons second pairs =>
      rw [commonPrefix_cons_cons]
      apply prefix_lcp (begins first mem_cons_self)
      apply ih (cons_ne_nil _ _)
      intro pair member
      exact begins pair (mem_cons_of_mem first member)

theorem commonPrefix_append_eq_nil {pairs : List Pair} (more : List Pair) (nonempty : pairs ≠ [])
    (apart : commonPrefix pairs = []) : commonPrefix (pairs ++ more) = [] := by
  have begins : commonPrefix (pairs ++ more) <+: commonPrefix pairs := by
    apply prefix_commonPrefix nonempty
    intro pair member
    exact commonPrefix_begins (mem_append_left more member)
  rw [apart] at begins
  exact prefix_nil.mp begins

theorem prepend_prepend (front back : List UInt8) (pairs : List Pair) :
    (pairs.map (prepend back)).map (prepend front) = pairs.map (prepend (front ++ back)) := by
  rw [List.map_map]
  apply map_congr_left
  intro pair _
  simp [prepend]

theorem prepend_nil (pairs : List Pair) : pairs.map (prepend []) = pairs := map_id' pairs

theorem flatMap_update_append {β : Type} {n : Nat} {indices : List (Fin n)}
    (sorted : indices.Pairwise (· < ·)) {index : Fin n} (member : index ∈ indices)
    {f g : Fin n → List β} (more : List β) (later : ∀ other, index < other → f other = [])
    (changed : g index = f index ++ more) (same : ∀ other, other ≠ index → g other = f other) :
    indices.flatMap g = indices.flatMap f ++ more := by
  induction indices with
  | nil => cases member
  | cons first indices ih =>
    obtain ⟨before,rest⟩ := pairwise_cons.mp sorted
    rw [flatMap_cons,flatMap_cons]
    rcases mem_cons.mp member with rfl | inRest
    · have restEmpty : indices.flatMap f = [] :=
        flatMap_eq_nil_iff.mpr fun other inRest => later other (before other inRest)
      have restSame : indices.flatMap g = [] := by
        rw [flatMap_eq_nil_iff]
        intro other inRest
        rw [same other (before other inRest).ne',later other (before other inRest)]
      rw [changed,restEmpty,restSame,append_nil,append_nil]
    · rw [same first (before index inRest).ne,ih rest inRest,append_assoc]

/-- Pairs added to the last child with pairs come last. -/
theorem gather_update (parts : Fin 16 → List Pair) (index : Fin 16) (more : List Pair)
    (later : ∀ other, index < other → parts other = []) :
    gather (Function.update parts index (parts index ++ more)) =
      gather parts ++ more.map (prepend [nibbleOf index]) := by
  apply flatMap_update_append (pairwise_lt_finRange 16) (mem_finRange index)
  · intro other isLater
    rw [later other isLater,map_nil]
  · rw [update_self,map_append]
  · intro other different
    rw [update_of_ne different]

theorem gather_empty : gather (fun _ => []) = [] := flatMap_eq_nil_iff.mpr fun _ _ => rfl

theorem Branching.update {parts : Fin 16 → List Pair} (branching : Branching parts)
    (index : Fin 16) (more : List Pair) :
    Branching (Function.update parts index (parts index ++ more)) := by
  have grown : ∀ other, parts other ≠ [] →
      Function.update parts index (parts index ++ more) other ≠ [] := by
    intro other someBefore
    by_cases same : other = index
    · rw [same,update_self]
      rw [same] at someBefore
      exact append_ne_nil_of_left_ne_nil someBefore more
    · rwa [update_of_ne same]
  obtain ⟨first,second,different,firstSome,secondSome⟩ := branching
  exact ⟨first,second,different,grown first firstSome,grown second secondSome⟩

end Patricia

namespace Trie

open Patricia Rlp

/-! ### The order of keys -/

/-- The keys differ, and the first has the smaller nibble where they do. -/
def Before : List UInt8 → List UInt8 → Prop
  | x :: a, y :: b => x < y ∨ x = y ∧ Before a b
  | _, _ => False

theorem Before.exists_split {a b : List UInt8} (before : Before a b) : ∃ common x y restA restB,
      a = common ++ x :: restA ∧ b = common ++ y :: restB ∧ x < y := by
  induction a generalizing b with
  | nil => cases b <;> exact before.elim
  | cons x a ih =>
    cases b with
    | nil => exact before.elim
    | cons y b =>
      rcases before with less | ⟨rfl,rest⟩
      · exact ⟨[],x,y,a,b,rfl,rfl,less⟩
      · obtain ⟨common,x',y',restA,restB,rfl,rfl,less⟩ := ih rest
        exact ⟨x :: common,x',y',restA,restB,rfl,rfl,less⟩

theorem before_append_iff (common a b : List UInt8) :
    Before (common ++ a) (common ++ b) ↔ Before a b := by
  induction common with
  | nil => rfl
  | cons x common ih =>
    rw [cons_append,cons_append,Before,ih]
    constructor
    · rintro (less | ⟨_,before⟩)
      · exact absurd less (UInt8.lt_irrefl x)
      · exact before
    · intro before
      exact Or.inr ⟨rfl,before⟩

/-- A key after another either begins with a part of it or branches off within. -/
theorem Before.append_cases {front back key : List UInt8} (before : Before (front ++ back) key) :
    (∃ rest, key = front ++ rest) ∨ ∃ common x y restA restB,
        front = common ++ x :: restA ∧ key = common ++ y :: restB ∧ x < y := by
  induction front generalizing key with
  | nil => exact Or.inl ⟨key,rfl⟩
  | cons x front ih =>
    cases key with
    | nil => exact before.elim
    | cons y key =>
      rcases before with less | ⟨rfl,restBefore⟩
      · exact Or.inr ⟨[],x,y,front,key,rfl,rfl,less⟩
      · rcases ih restBefore with ⟨rest,rfl⟩ | ⟨common,x',y',restA,restB,rfl,rfl,less⟩
        · exact Or.inl ⟨rest,rfl⟩
        · exact Or.inr ⟨x :: common,x',y',restA,restB,rfl,rfl,less⟩

theorem before_nibbles_of_lt {x y : UInt8} (less : x < y) (a b : List UInt8) :
    Before (x / 16 :: x % 16 :: a) (y / 16 :: y % 16 :: b) := by
  have lessNat : x.toNat < y.toNat := less
  by_cases sameHigh : x / 16 = y / 16
  · refine Or.inr ⟨sameHigh,Or.inl ?_⟩
    have highNat := congrArg UInt8.toNat sameHigh
    change x.toNat / 16 = y.toNat / 16 at highNat
    change x.toNat % 16 < y.toNat % 16
    omega
  · left
    have highNat : x.toNat / 16 ≠ y.toNat / 16 := by
      intro same
      apply sameHigh
      apply UInt8.toNat_inj.mp
      rw [UInt8.toNat_div,UInt8.toNat_div]
      exact same
    rw [UInt8.lt_iff_toNat_lt,UInt8.toNat_div,UInt8.toNat_div]
    change x.toNat / 16 < y.toNat / 16
    omega

theorem nibblesOf_cons (x : UInt8) (str : List UInt8) :
    nibblesOf (x :: str) = x / 16 :: x % 16 :: nibblesOf str :=
  rfl

theorem before_nibblesOf {a b : List UInt8} (less : a < b) (free : ¬ a <+: b) :
    Before (nibblesOf a) (nibblesOf b) := by
  induction a generalizing b with
  | nil => exact absurd nil_prefix free
  | cons x a ih =>
    cases b with
    | nil => exact absurd less (not_lt_nil _)
    | cons y b =>
      rw [nibblesOf_cons,nibblesOf_cons]
      rcases cons_lt_cons_iff.mp less with headLess | ⟨rfl,restLess⟩
      · exact before_nibbles_of_lt headLess _ _
      · have restFree : ¬ a <+: b := fun begins => free ((prefix_cons_inj x).mpr begins)
        exact Or.inr ⟨rfl,Or.inr ⟨rfl,ih restLess restFree⟩⟩

/-! ### The pairs of a node -/

section Root

variable (keccak : List UInt8 → Vector UInt8 32)

def Holds : StackTrie → List Pair → Prop
  | .nil, pairs => pairs = []
  | .emptyNode, _ => False
  | .leafNode key val, pairs => Nibbles key ∧ pairs = [(key, val)]
  | .hashedNode val, pairs => pairs ≠ [] ∧ val = hashedVal keccak (encodeNode keccak pairs)
  | .extNode key child, pairs =>
    Nibbles key ∧ key ≠ [] ∧ ∃ inner, pairs = inner.map (prepend key) ∧
      2 ≤ inner.length ∧ commonPrefix inner = [] ∧ Holds child inner
  | .branchNode children, pairs =>
    ∃ parts, pairs = gather parts ∧ Branching parts ∧
      ∀ index, Holds (children index) (parts index)

/-- No node on the right spine is hashed. -/
def Open : StackTrie → Prop
  | .leafNode _ _ => True
  | .extNode _ child => Open child
  | .branchNode children =>
    ∀ index, children index ≠ .nil → (∀ other, index < other → children other = .nil) →
      Open (children index)
  | _ => False

variable {keccak}

variable {st : StackTrie}

theorem isNil_iff : st.isNil = true ↔ st = .nil := by
  cases st <;> simp [StackTrie.isNil]

theorem Open.ne_nil (isOpen : Open st) : st ≠ .nil := by
  rintro rfl
  exact isOpen

variable {pairs : List Pair} {key : List UInt8} {x y : UInt8} {children : Fin 16 → StackTrie}
  {parts : Fin 16 → List Pair} {child : StackTrie} {value : List UInt8} {st : StackTrie}

theorem Holds.ne_nil (holds : Holds keccak st pairs) (exists_ : st ≠ .nil) : pairs ≠ [] := by
  cases st with
  | nil => exact absurd rfl exists_
  | emptyNode => exact holds.elim
  | leafNode key val =>
    rw [holds.2]
    exact cons_ne_nil _ _
  | hashedNode val => exact holds.1
  | extNode key child =>
    obtain ⟨_,_,inner,rfl,several,_⟩ := holds
    intro none
    rw [map_eq_nil_iff.mp none] at several
    exact absurd several (by decide)
  | branchNode children =>
    obtain ⟨parts,rfl,branching,_⟩ := holds
    intro none
    have several := branching.two_le
    rw [none] at several
    exact absurd several (by decide)

/-! ### Hashing -/

theorem writes_raw (bytes : List UInt8) : (writeRaw bytes).Writes bytes True := by
  apply TypeWriter.Writes.of_appended
  intro buf
  exact ⟨_,rfl,EncBuffer.Appended.write buf bytes⟩

theorem writes_child (keccak : List UInt8 → Vector UInt8 32) (encoded : List UInt8) :
    (writeChild (hashedVal keccak encoded)).Writes (reference keccak encoded) True := by
  rw [hashedVal,reference]
  by_cases small : encoded.length < 32
  · rw [if_pos small,if_pos small,writeChild,if_pos small]
    exact writes_raw encoded
  · rw [if_neg small,if_neg small,writeChild,if_neg (by simp)]
    exact TypeWriter.Writes.byteSlice _

theorem encodedNode_eq {writers : List TypeWriter} {payload : List UInt8}
    (writes : (writeFields writers).Writes payload True) :
    encodedNode writers = some (wrapList payload) := by
  rw [encodedNode,writes.enclosed.toBytes_eq trivial]
  rfl

theorem encodedNode_pair {first second : TypeWriter} {front back : List UInt8}
    (firstWrites : first.Writes front True) (secondWrites : second.Writes back True) :
    encodedNode [first, second] = some (wrapList (front ++ back)) := by
  apply encodedNode_eq
  exact (firstWrites.fields_cons secondWrites.fields_singleton).congr rfl (and_self_iff)

theorem exists_writers (indices : List (Fin 16)) {writer : Fin 16 → Option TypeWriter}
    {item : Fin 16 → List UInt8} {last : TypeWriter} {lastItem : List UInt8}
    (writes : ∀ index, ∃ node, writer index = some node ∧ node.Writes (item index) True)
    (lastWrites : last.Writes lastItem True) : ∃ nodes, indices.mapM writer = some nodes ∧
      (writeFields (nodes ++ [last])).Writes (indices.flatMap item ++ lastItem) True := by
  induction indices with
  | nil => exact ⟨[],rfl,lastWrites.fields_singleton⟩
  | cons index indices ih =>
    obtain ⟨node,nodeEq,nodeWrites⟩ := writes index
    obtain ⟨nodes,nodesEq,nodesWrite⟩ := ih
    refine ⟨node :: nodes,?_,?_⟩
    · rw [mapM_cons,nodeEq,nodesEq]
      rfl
    · rw [flatMap_cons,append_assoc,cons_append]
      exact (nodeWrites.fields_cons nodesWrite).congr rfl and_self_iff

theorem compactKey_path {leaf : Bool} (nonempty : path key leaf ≠ []) (nibbles : Nibbles key) :
    compactKey (path key leaf) = some (hexPrefix key leaf) := by
  rw [compactKey,hexToCompactInPlace_eq nonempty nibbles,← length_hexPrefix key leaf]
  exact congrArg some take_left

theorem compactKey_leaf (nibbles : Nibbles key) :
    compactKey (key ++ [16]) = some (hexPrefix key true) :=
  compactKey_path (show path key true ≠ [] by simp [path]) nibbles

theorem compactKey_ext (nonempty : key ≠ []) (nibbles : Nibbles key) :
    compactKey key = some (hexPrefix key false) := by
  have whole : path key false = key := append_nil key
  rw [← compactKey_path (by rwa [whole]) nibbles,whole]

/-- A node is hashed to the encoding of the pairs that it holds. -/
theorem Holds.hashRec_eq (holds : Holds keccak st pairs) (exists_ : st ≠ .nil) :
    hashRec keccak st = some (hashedVal keccak (encodeNode keccak pairs)) := by
  induction st generalizing pairs with
  | nil => exact absurd rfl exists_
  | emptyNode => exact holds.elim
  | hashedNode val => rw [hashRec,holds.2]
  | leafNode key val =>
    obtain ⟨nibbles,rfl⟩ := holds
    have encodedEq := encodedNode_pair (TypeWriter.Writes.byteSlice (hexPrefix key true))
      (TypeWriter.Writes.byteSlice val)
    simp [hashRec,compactKey_leaf nibbles,encodedEq,encodeNode_singleton]
  | extNode key child ih =>
    obtain ⟨nibbles,nonempty,inner,rfl,several,apart,childHolds⟩ := holds
    have childExists : child ≠ .nil := by
      rintro rfl
      rw [show inner = [] from childHolds] at several
      exact absurd several (by decide)
    have encodedEq := encodedNode_pair (TypeWriter.Writes.byteSlice (hexPrefix key false))
      (writes_child keccak (encodeNode keccak inner))
    simp [hashRec,ih childHolds childExists,compactKey_ext nonempty nibbles,encodedEq,
      encodeNode_prepend keccak nonempty several apart]
  | branchNode children ih =>
    obtain ⟨parts,rfl,branching,childHolds⟩ := holds
    have childWrites : ∀ index, ∃ node, (if (children index).isNil then some (writeByteSlice [])
          else (hashRec keccak (children index)).map writeChild) = some node ∧
        node.Writes (reference keccak (encodeNode keccak (parts index))) True := by
      intro index
      by_cases missing : children index = .nil
      · have none := childHolds index
        rw [missing] at none
        rw [isNil_iff.mpr missing,show parts index = [] from none,encodeNode_nil]
        exact ⟨_,rfl,TypeWriter.Writes.byteSlice []⟩
      · rw [if_neg (fun isNil => missing (isNil_iff.mp isNil)),ih index (childHolds index) missing]
        exact ⟨_,rfl,writes_child keccak _⟩
    obtain ⟨nodes,nodesEq,nodesWrite⟩ :=
      exists_writers (finRange 16) childWrites (writes_raw [0x80])
    simp only [hashRec,nodesEq,bind_eq_bind,bind_some,
      encodedNode_eq nodesWrite,encodeNode_gather keccak branching]
    rfl

theorem Holds.hash_eq (holds : Holds keccak st pairs) (exists_ : st ≠ .nil) :
    ∃ hashed, hash keccak st = some hashed ∧ hashed ≠ .nil ∧ Holds keccak hashed pairs := by
  refine ⟨.hashedNode (hashedVal keccak (encodeNode keccak pairs)),?_,?_,?_⟩
  · rw [hash,holds.hashRec_eq exists_]
    rfl
  · intro isNil
    cases isNil
  · exact ⟨holds.ne_nil exists_,rfl⟩

/-! ### Insertion -/

theorem getDiffIndex_append (different : x ≠ y) (common restA restB : List UInt8) :
    getDiffIndex (common ++ x :: restA) (common ++ y :: restB) = some common.length := by
  induction common with
  | nil => exact if_pos different
  | cons z common ih =>
    rw [cons_append,cons_append,getDiffIndex,if_neg (not_not.mpr rfl),ih]
    rfl

theorem getDiffIndex_self_append (stKey rest : List UInt8) :
    getDiffIndex stKey (stKey ++ rest) = some stKey.length := by
  induction stKey with
  | nil => cases rest <;> rfl
  | cons z stKey ih =>
    rw [cons_append,getDiffIndex,if_neg (not_not.mpr rfl),ih]
    rfl

theorem exists_slotOf {nibble : UInt8} (inRange : nibble.toNat < 16) :
    ∃ index, slotOf nibble = some index ∧ nibble = nibbleOf index := by
  refine ⟨⟨nibble.toNat,inRange⟩,dif_pos inRange,?_⟩
  rw [nibbleOf,UInt8.ofNat_toNat]

theorem nibbleOf_lt_iff {first second : Fin 16} :
    nibbleOf first < nibbleOf second ↔ first < second := by
  rw [UInt8.lt_iff_toNat_lt,nibbleOf_toNat,nibbleOf_toNat]
  rfl

theorem open_branchNode {last : Fin 16}
    (lastOpen : Open (children last)) (later : ∀ other, last < other → children other = .nil) :
    Open (.branchNode children) := by
  intro index isNode above
  rcases lt_trichotomy index last with isElder | rfl | isLater
  · exact absurd (above last isElder) lastOpen.ne_nil
  · exact lastOpen
  · exact absurd (later index isLater) isNode

section Fork

variable {original : StackTrie} {pairs : List Pair} {origIdx newIdx : Fin 16}
  {rest : List UInt8}

theorem open_fork (original : StackTrie) (less : origIdx < newIdx) (rest value : List UInt8) :
    Open (fork origIdx original newIdx (.leafNode rest value)) := by
  apply open_branchNode
  · rw [update_self]
    trivial
  · intro other isLater
    rw [update_of_ne isLater.ne',update_of_ne (less.trans isLater).ne']

/-- The branch over the original part and the new leaf. -/
theorem holds_fork (value : List UInt8) (less : origIdx < newIdx)
    (originalHolds : Holds keccak original pairs) (originalExists : original ≠ .nil)
    (nibbles : Nibbles rest) : ∃ parts, Branching parts ∧
      gather parts = pairs.map (prepend [nibbleOf origIdx]) ++ [(nibbleOf newIdx :: rest, value)] ∧
      Holds keccak (fork origIdx original newIdx (.leafNode rest value)) (gather parts) := by
  have firstParts := gather_update (fun _ => []) origIdx pairs (fun _ _ => rfl)
  rw [gather_empty,nil_append,nil_append] at firstParts
  have laterEmpty : ∀ other, newIdx < other →
      Function.update (fun _ => []) origIdx pairs other = ([] : List Pair) := by
    intro other isLater
    rw [update_of_ne (less.trans isLater).ne']
  have newEmpty : Function.update (fun _ => ([] : List Pair)) origIdx pairs newIdx = [] :=
    update_of_ne less.ne' _ _
  have secondParts := gather_update _ newIdx [(rest, value)] laterEmpty
  rw [newEmpty,nil_append,firstParts] at secondParts
  have branching : Branching (Function.update (Function.update (fun _ => []) origIdx pairs) newIdx
      [(rest, value)]) := by
    refine ⟨origIdx,newIdx,less.ne,?_,?_⟩
    · rw [update_of_ne less.ne,update_self]
      exact originalHolds.ne_nil originalExists
    · rw [update_self]
      exact cons_ne_nil _ _
  refine ⟨_,branching,secondParts,_,rfl,branching,?_⟩
  intro index
  by_cases isNew : index = newIdx
  · rw [isNew,update_self,update_self]
    exact ⟨nibbles,rfl⟩
  · rw [update_of_ne isNew,update_of_ne isNew]
    by_cases isOrig : index = origIdx
    · rw [isOrig,update_self,update_self]
      exact originalHolds
    · rw [update_of_ne isOrig,update_of_ne isOrig]
      rfl

end Fork

theorem drop_append_cons (common : List UInt8) (x : UInt8) (rest : List UInt8) :
    (common ++ x :: rest).drop (common.length + 1) = rest := by
  rw [← drop_drop,drop_left]
  rfl

theorem splitAt_spec {original : StackTrie}
    {common restA restB : List UInt8} (value : List UInt8) (less : x < y)
    (stNibbles : Nibbles (common ++ x :: restA)) (nibbles : Nibbles (common ++ y :: restB))
    (originalHolds : Holds keccak original pairs) (originalExists : original ≠ .nil) :
    ∃ st, splitAt (common ++ x :: restA) original common.length (common ++ y :: restB) value =
        some st ∧
      Holds keccak st (pairs.map (prepend (common ++ [x])) ++ [(common ++ y :: restB, value)]) ∧
      Open st := by
  obtain ⟨origIdx,origEq,rfl⟩ := exists_slotOf (stNibbles x (by simp))
  obtain ⟨newIdx,newEq,rfl⟩ := exists_slotOf (nibbles y (by simp))
  have restNibbles : Nibbles restB := fun z member => nibbles z (by simp [member])
  have slotLess := nibbleOf_lt_iff.mp less
  have forkOpen := open_fork original slotLess restB value
  obtain ⟨parts,branching,gatherEq,forkHolds⟩ :=
    holds_fork value slotLess originalHolds originalExists restNibbles
  refine ⟨if common.length = 0 then fork origIdx original newIdx (.leafNode restB value)
    else .extNode common (fork origIdx original newIdx (.leafNode restB value)),?_,?_⟩
  · simp [splitAt,origEq,newEq]
  by_cases atStart : common = []
  · subst atStart
    rw [gatherEq] at forkHolds
    exact ⟨forkHolds,forkOpen⟩
  · rw [if_neg (fun empty => atStart (length_eq_zero_iff.mp empty))]
    refine ⟨⟨nibbles.of_append_left,atStart,gather parts,?_,branching.two_le,
      branching.commonPrefix_eq,forkHolds⟩,forkOpen⟩
    rw [gatherEq,map_append,prepend_prepend]
    rfl

theorem hashElder_spec
    (childrenHold : ∀ index, Holds keccak (children index) (parts index)) {bound : Nat}
    (inRange : bound ≤ 16) : ∃ resolved, hashElder keccak children bound = some resolved ∧
      (∀ index, Holds keccak (resolved index) (parts index)) ∧
      ∀ index : Fin 16, bound ≤ index → resolved index = children index := by
  induction bound with
  | zero => exact ⟨children,rfl,childrenHold,fun _ _ => rfl⟩
  | succ i ih =>
    have isIndex : i < 16 := inRange
    rw [hashElder,dif_pos isIndex]
    by_cases missing : children ⟨i,isIndex⟩ = .nil
    · rw [if_pos (isNil_iff.mpr missing)]
      obtain ⟨resolved,eq,hold,same⟩ := ih (le_of_lt isIndex)
      exact ⟨resolved,eq,hold,fun index above => same index (le_of_succ_le above)⟩
    · rw [if_neg (fun isNil => missing (isNil_iff.mp isNil))]
      by_cases hashed : (children ⟨i,isIndex⟩).isHashed
      · rw [if_pos hashed]
        exact ⟨children,rfl,childrenHold,fun _ _ => rfl⟩
      · rw [if_neg hashed]
        obtain ⟨node,hashEq,_,nodeHolds⟩ := (childrenHold ⟨i,isIndex⟩).hash_eq missing
        rw [hashEq]
        refine ⟨_,rfl,?_,?_⟩
        · intro index
          by_cases same : index = ⟨i,isIndex⟩
          · rw [same,update_self]
            exact nodeHolds
          · rw [update_of_ne same]
            exact childrenHold index
        · intro index above
          apply update_of_ne
          rintro rfl
          exact absurd above (not_succ_le_self i)

/-- What is left of an extension behind the nibble where it is split. -/
theorem holds_ext_rest {inner : List Pair} {restA : List UInt8}
    (nibbles : Nibbles restA) (several : 2 ≤ inner.length) (apart : commonPrefix inner = [])
    (childHolds : Holds keccak child inner) :
    Holds keccak (if restA = [] then child else .extNode restA child)
      (inner.map (prepend restA)) := by
  by_cases atEnd : restA = []
  · rw [if_pos atEnd,atEnd,prepend_nil]
    exact childHolds
  · rw [if_neg atEnd]
    exact ⟨nibbles,atEnd,inner,rfl,several,apart,childHolds⟩

variable (keccak) in
def Inserts (value : List UInt8) (st : StackTrie) : Prop :=
  ∀ {pairs : List Pair} {key : List UInt8}, Holds keccak st pairs → Open st → Nibbles key →
    (∀ pair ∈ pairs, Before pair.1 key) →
    ∃ st', insert keccak value st key = some st' ∧
      Holds keccak st' (pairs ++ [(key, value)]) ∧ Open st'

theorem inserts_leafNode (value stKey stVal : List UInt8) :
    Inserts keccak value (.leafNode stKey stVal) := by
  intro pairs key holds isOpen nibbles after
  obtain ⟨stNibbles,rfl⟩ := holds
  obtain ⟨common,x,y,restA,restB,rfl,rfl,less⟩ :=
    (after (stKey, stVal) mem_cons_self).exists_split
  have restHolds : Holds keccak (.leafNode restA stVal) [(restA, stVal)] :=
    ⟨fun z member => stNibbles z (by simp [member]),rfl⟩
  obtain ⟨original,hashEq,originalExists,originalHolds⟩ := restHolds.hash_eq (by simp)
  obtain ⟨st',splitEq,st'Holds,st'Open⟩ :=
    splitAt_spec value less stNibbles nibbles originalHolds originalExists
  refine ⟨st',?_,?_,st'Open⟩
  · have inside : ¬ common.length ≥ (common ++ x :: restA).length := by
      rw [length_append,length_cons]
      omega
    simp [insert,getDiffIndex_append (UInt8.ne_of_lt less),hashEq,splitEq]
  · have keyEq : common ++ x :: restA = common ++ [x] ++ restA := by simp
    rw [keyEq]
    exact st'Holds

theorem inserts_extNode {value stKey : List UInt8}
    (childInserts : Inserts keccak value child) : Inserts keccak value (.extNode stKey child) := by
  intro pairs key holds isOpen nibbles after
  obtain ⟨stNibbles,nonempty,inner,rfl,several,apart,childHolds⟩ := holds
  have childOpen : Open child := isOpen
  have innerSome : inner ≠ [] := ne_nil_of_length_pos (lt_of_lt_of_le two_pos several)
  obtain ⟨pair,member⟩ := exists_mem_of_ne_nil inner innerSome
  have pairBefore := after _ (mem_map_of_mem member)
  rcases Before.append_cases pairBefore with
    ⟨rest,rfl⟩ | ⟨common,x,y,restA,restB,rfl,rfl,less⟩
  · -- The key goes on below the extension.
    have restAfter : ∀ other ∈ inner, Before other.1 rest := by
      intro other otherMember
      exact (before_append_iff stKey other.1 rest).mp (after _ (mem_map_of_mem otherMember))
    obtain ⟨child',insertEq,child'Holds,child'Open⟩ :=
      childInserts childHolds childOpen nibbles.of_append_right restAfter
    refine ⟨.extNode stKey child',?_,?_,child'Open⟩
    · simp only [insert,getDiffIndex_self_append,bind_eq_bind,bind_some,if_true,drop_left,insertEq]
    · refine ⟨stNibbles,nonempty,inner ++ [(rest, value)],?_,?_,
        commonPrefix_append_eq_nil _ innerSome apart,child'Holds⟩
      · rw [map_append]
        rfl
      · rw [length_append]
        omega
  · -- The key branches off within the extension.
    have restNibbles : Nibbles restA := fun z inRest => stNibbles z (by simp [inRest])
    have restHolds := holds_ext_rest restNibbles several apart childHolds
    have restExists : (if restA = [] then child else .extNode restA child) ≠ .nil := by
      split
      · exact childOpen.ne_nil
      · simp
    obtain ⟨original,hashEq,originalExists,originalHolds⟩ := restHolds.hash_eq restExists
    obtain ⟨st',splitEq,st'Holds,st'Open⟩ :=
      splitAt_spec value less stNibbles nibbles originalHolds originalExists
    refine ⟨st',?_,?_,st'Open⟩
    · have notAll : ¬ common.length = (common ++ x :: restA).length := by
        rw [length_append,length_cons]
        omega
      have restEq : (if common.length < (common ++ x :: restA).length - 1 then
          StackTrie.extNode restA child else child) =
          if restA = [] then child else .extNode restA child := by
        rw [length_append,length_cons]
        cases restA with
        | nil => simp
        | cons z restA => simp
      simp only [insert,getDiffIndex_append (UInt8.ne_of_lt less),bind_eq_bind,
        bind_some,if_neg notAll,drop_append_cons,restEq,hashEq,splitEq]
    · have keyEq : common ++ x :: restA = common ++ [x] ++ restA := by simp
      rw [keyEq,← prepend_prepend]
      exact st'Holds

theorem parts_before {idx : Fin 16} {rest : List UInt8}
    (after : ∀ pair ∈ gather parts, Before pair.1 (nibbleOf idx :: rest)) :
    (∀ other, idx < other → parts other = []) ∧ ∀ pair ∈ parts idx, Before pair.1 rest := by
  have cases_ : ∀ other, ∀ pair ∈ parts other, other < idx ∨ other = idx ∧ Before pair.1 rest := by
    intro other pair member
    rcases after _ (mem_gather.mpr ⟨other,pair,member,rfl⟩) with less | ⟨same,before⟩
    · exact Or.inl (nibbleOf_lt_iff.mp less)
    · have sameNat := congrArg UInt8.toNat same
      rw [nibbleOf_toNat,nibbleOf_toNat] at sameNat
      exact Or.inr ⟨Fin.ext sameNat,before⟩
  constructor
  · intro other isLater
    apply eq_nil_iff_forall_not_mem.mpr
    intro pair member
    rcases cases_ other pair member with less | ⟨same,_⟩
    · exact absurd less isLater.asymm
    · exact absurd same isLater.ne'
  · intro pair member
    rcases cases_ idx pair member with less | ⟨_,before⟩
    · exact absurd less (lt_irrefl idx)
    · exact before

theorem inserts_branchNode (childInserts : ∀ index, Inserts keccak value (children index)) :
    Inserts keccak value (.branchNode children) := by
  intro pairs key holds isOpen nibbles after
  obtain ⟨parts,rfl,branching,childrenHold⟩ := holds
  have ⟨first,_,_,firstSome,_⟩ := branching
  obtain ⟨pair,member⟩ := exists_mem_of_ne_nil _ firstSome
  have pairBefore := after _ (mem_gather.mpr ⟨first,pair,member,rfl⟩)
  cases key with
  | nil => exact pairBefore.elim
  | cons nibble rest =>
    obtain ⟨idx,idxEq,rfl⟩ := exists_slotOf (nibbles nibble mem_cons_self)
    have restNibbles : Nibbles rest := fun z inRest => nibbles z (mem_cons_of_mem _ inRest)
    obtain ⟨later,restAfter⟩ := parts_before after
    have laterNil : ∀ other, idx < other → children other = .nil := by
      intro other isLater
      by_contra isNode
      exact (childrenHold other).ne_nil isNode (later other isLater)
    obtain ⟨resolved,elderEq,resolvedHold,resolvedSame⟩ :=
      hashElder_spec childrenHold (le_of_lt idx.isLt)
    -- The child at the nibble is a new leaf or takes the rest of the key.
    have childStep : ∃ child, (if (children idx).isNil then some (.leafNode rest value)
          else insert keccak value (children idx) rest) = some child ∧
        Holds keccak child (parts idx ++ [(rest, value)]) ∧ Open child := by
      by_cases missing : children idx = .nil
      · have idxHolds := childrenHold idx
        rw [missing] at idxHolds
        rw [if_pos (isNil_iff.mpr missing),show parts idx = [] from idxHolds]
        exact ⟨_,rfl,⟨restNibbles,rfl⟩,trivial⟩
      · rw [if_neg (fun isNil => missing (isNil_iff.mp isNil))]
        exact childInserts idx (childrenHold idx) (isOpen idx missing laterNil) restNibbles
          restAfter
    obtain ⟨child,childEq,childHolds,childOpen⟩ := childStep
    refine ⟨.branchNode (Function.update resolved idx child),?_,?_,?_⟩
    · simp [insert,idxEq,elderEq,childEq]
    · refine ⟨Function.update parts idx (parts idx ++ [(rest, value)]),?_,branching.update idx _,?_⟩
      · rw [gather_update parts idx _ later]
        rfl
      · intro index
        by_cases same : index = idx
        · rw [same,update_self,update_self]
          exact childHolds
        · rw [update_of_ne same,update_of_ne same]
          exact resolvedHold index
    · apply open_branchNode
      · rw [update_self]
        exact childOpen
      · intro other isLater
        rw [update_of_ne isLater.ne',resolvedSame other isLater.le]
        exact laterNil other isLater

theorem inserts (value : List UInt8) (st : StackTrie) : Inserts keccak value st := by
  induction st with
  | nil => exact fun _ isOpen => isOpen.elim
  | emptyNode => exact fun _ isOpen => isOpen.elim
  | hashedNode val => exact fun _ isOpen => isOpen.elim
  | leafNode stKey stVal => exact inserts_leafNode value stKey stVal
  | extNode stKey child ih => exact inserts_extNode ih
  | branchNode children ih => exact inserts_branchNode ih

/-! ### Whole maps -/

def nibblePair (pair : List UInt8 × List UInt8) : Pair := (nibblesOf pair.1, pair.2)

theorem tryUpdate_eq (st : StackTrie) (key : List UInt8) (nonempty : value ≠ []) :
    tryUpdate keccak st key value = insert keccak value st (nibblesOf key) := by
  have valueSome : ¬ value.length = 0 := fun empty => nonempty (length_eq_zero_iff.mp empty)
  rw [tryUpdate]
  simp only [if_neg valueSome,keybytesToHex,length_append,length_singleton,
    Nat.add_sub_cancel,take_left]

theorem updateAll_spec {held : List Pair}
    {pairs : List (List UInt8 × List UInt8)} (holds : Holds keccak st held) (isOpen : Open st)
    (values : ∀ pair ∈ pairs, pair.2 ≠ [])
    (after : ∀ pair ∈ held, ∀ later ∈ pairs, Before pair.1 (nibblesOf later.1))
    (sorted : pairs.Pairwise fun pair later => Before (nibblesOf pair.1) (nibblesOf later.1)) :
    ∃ st', updateAll keccak st pairs = some st' ∧
      Holds keccak st' (held ++ pairs.map nibblePair) ∧ Open st' := by
  induction pairs generalizing st held with
  | nil =>
    rw [map_nil,append_nil]
    exact ⟨st,rfl,holds,isOpen⟩
  | cons pair pairs ih =>
    obtain ⟨pairBefore,restSorted⟩ := pairwise_cons.mp sorted
    obtain ⟨between,insertEq,betweenHolds,betweenOpen⟩ :=
      inserts pair.2 st holds isOpen (nibbles_nibblesOf pair.1)
        (fun earlier member => after earlier member pair mem_cons_self)
    have restAfter : ∀ earlier ∈ held ++ [(nibblesOf pair.1, pair.2)], ∀ later ∈ pairs,
        Before earlier.1 (nibblesOf later.1) := by
      intro earlier member later laterMember
      rcases mem_append.mp member with old | new
      · exact after earlier old later (mem_cons_of_mem pair laterMember)
      · rw [mem_singleton.mp new]
        exact pairBefore later laterMember
    obtain ⟨st',updateEq,st'Holds,st'Open⟩ := ih betweenHolds betweenOpen
      (fun later member => values later (mem_cons_of_mem pair member)) restAfter restSorted
    refine ⟨st',?_,?_,st'Open⟩
    · rw [updateAll,foldlM_cons,tryUpdate_eq st pair.1 (values pair mem_cons_self),insertEq]
      exact updateEq
    · rw [append_assoc] at st'Holds
      exact st'Holds

theorem rootHash_of_holds (holds : Holds keccak st pairs) (isOpen : Open st) :
    rootHash keccak st = some (keccak (encodeNode keccak pairs)) := by
  rw [rootHash,holds.hashRec_eq isOpen.ne_nil]
  simp only [bind_eq_bind,bind_some,hashedVal]
  by_cases small : (encodeNode keccak pairs).length < 32
  · rw [if_pos small,dif_neg]
    rw [List.size_toArray]
    omega
  · rw [if_neg small,dif_pos (by simp)]
    rfl

variable (keccak) in
/-- Pairs inserted in increasing order of their keys, none of which begins another: no
update panics, and the hash of the trie is the Merkle-Patricia root of the pairs. -/
theorem stackTrie_hash_eq_root {pairs : List (List UInt8 × List UInt8)}
    (sorted : pairs.Pairwise fun pair later => pair.1 < later.1)
    (prefixFree : pairs.Pairwise fun pair later => ¬ pair.1 <+: later.1 ∧ ¬ later.1 <+: pair.1)
    (values : ∀ pair ∈ pairs, pair.2 ≠ []) : ∃ st, updateAll keccak .emptyNode pairs = some st ∧
      rootHash keccak st = some (root keccak emptyRoot (pairs.map nibblePair)) := by
  cases pairs with
  | nil => exact ⟨.emptyNode,rfl,rfl⟩
  | cons pair pairs =>
    have before := sorted.imp₂ (fun _ _ less free => before_nibblesOf less free.1) prefixFree
    obtain ⟨pairBefore,restSorted⟩ := pairwise_cons.mp before
    -- The first key turns the empty node into a leaf.
    have leafHolds : Holds keccak (.leafNode (nibblesOf pair.1) pair.2) [nibblePair pair] :=
      ⟨nibbles_nibblesOf pair.1,rfl⟩
    obtain ⟨st,updateEq,stHolds,stOpen⟩ := updateAll_spec leafHolds trivial
      (fun later member => values later (mem_cons_of_mem pair member))
      (fun earlier member later laterMember => by
        rw [mem_singleton.mp member]
        exact pairBefore later laterMember) restSorted
    refine ⟨st,?_,?_⟩
    · rw [updateAll, foldlM_cons, tryUpdate_eq _ pair.1 (values pair mem_cons_self)]
      exact updateEq
    · rw [rootHash_of_holds stHolds stOpen, root, if_neg (by simp)]
      rfl

def forkedPairs : List (List UInt8 × List UInt8) :=
  [([0x11, 0x22], [1]), ([0x11, 0x24, 0x00], [2]), ([0x20], [3])]

theorem forkedPairs_hash_eq_root :
    let keccak (bytes : List UInt8) : Vector UInt8 32 := .replicate 32 (bytes.foldl .add 0)
    ∃ st, updateAll keccak .emptyNode forkedPairs = some st ∧
      rootHash keccak st = some (root keccak emptyRoot (forkedPairs.map nibblePair)) :=
  stackTrie_hash_eq_root _ (by decide) (by decide) (by decide)

end Root

end Trie

end PioplatRelay
